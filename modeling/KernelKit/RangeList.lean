import KernelKit.RustString
import Mathlib.Data.Finset.Sort
import Mathlib.Order.Nat

/-!
# Sets of numbers printed as lists of ranges

Linux prints a set of numbers as its maximal runs in ascending order, separated by commas: a run of
one number as that number, a longer one as its ends with a dash between them.
-/

namespace RangeList
open RustString

/-- The maximal runs of consecutive numbers of an ascending list, as first and last number. -/
def runs : List ℕ → List (ℕ × ℕ)
  | [] => []
  | n :: ns =>
    match runs ns with
    | [] => [(n, n)]
    | (a, b) :: rest => if a = n + 1 then (n, b) :: rest else (n, n) :: (a, b) :: rest

def printRange (range : ℕ × ℕ) : List Char :=
  if range.1 = range.2 then digits range.1 else digits range.1 ++ '-' :: digits range.2

def printRanges (ranges : List (ℕ × ℕ)) : List Char := [','].intercalate (ranges.map printRange)

/-- The kernel's list format of a set, with the newline its sysfs files end in. -/
def printSet (s : Finset ℕ) : List Char := printRanges (runs s.sort) ++ ['\n']

example : printRanges (runs [0, 1, 2, 3, 5, 7, 8]) = ['0', '-', '3', ',', '5', ',', '7', '-', '8'] := by
  decide

theorem runs_ne_nil {l : List ℕ} (h : l ≠ []) : runs l ≠ [] := by
  cases l with
  | nil => exact absurd rfl h
  | cons n ns =>
      rw [runs]
      split
      · exact List.cons_ne_nil _ _
      · split_ifs <;> exact List.cons_ne_nil _ _

theorem runs_spec (l : List ℕ) :
    (∀ r ∈ runs l, r.1 ≤ r.2 ∧ r.2 ∈ l) ∧ ∀ n ∈ l, ∃ r ∈ runs l, n ≤ r.2 := by
  induction l with
  | nil => exact ⟨fun r hr => absurd hr List.not_mem_nil, fun n hn => absurd hn List.not_mem_nil⟩
  | cons n ns ih =>
      obtain ⟨hends, hcover⟩ := ih
      rw [runs]
      cases hruns : runs ns with
      | nil =>
          rw [hruns] at hcover
          refine ⟨fun r hr => ?_, fun m hm => ⟨(n, n), List.mem_cons_self, ?_⟩⟩
          · obtain rfl := List.mem_singleton.mp hr
            exact ⟨le_rfl, List.mem_cons_self⟩
          · rcases List.mem_cons.mp hm with rfl | hm
            · exact le_rfl
            · obtain ⟨_, hr, _⟩ := hcover m hm
              exact absurd hr List.not_mem_nil
      | cons r rest =>
          obtain ⟨a, b⟩ := r
          rw [hruns] at hends hcover
          obtain ⟨⟨hab, hb⟩, hrest⟩ := List.forall_mem_cons.mp hends
          have hrest' : ∀ r ∈ rest, r.1 ≤ r.2 ∧ r.2 ∈ n :: ns :=
            fun r hr => ⟨(hrest r hr).1, List.mem_cons_of_mem _ (hrest r hr).2⟩
          dsimp only
          split_ifs with hnext
          · refine ⟨List.forall_mem_cons.mpr ⟨⟨by dsimp only at hab ⊢; omega, .tail _ hb⟩, hrest'⟩, ?_⟩
            intro m hm
            rcases List.mem_cons.mp hm with rfl | hm
            · exact ⟨(m, b), List.mem_cons_self, by dsimp only at hab ⊢; omega⟩
            · obtain ⟨r, hr, hle⟩ := hcover m hm
              rcases List.mem_cons.mp hr with rfl | hr
              · exact ⟨(n, b), List.mem_cons_self, hle⟩
              · exact ⟨r, List.mem_cons_of_mem _ hr, hle⟩
          · refine ⟨List.forall_mem_cons.mpr ⟨⟨le_rfl, List.mem_cons_self⟩,
              List.forall_mem_cons.mpr ⟨⟨hab, .tail _ hb⟩, hrest'⟩⟩, ?_⟩
            intro m hm
            rcases List.mem_cons.mp hm with rfl | hm
            · exact ⟨(m, m), List.mem_cons_self, le_rfl⟩
            · obtain ⟨r, hr, hle⟩ := hcover m hm
              exact ⟨r, List.mem_cons_of_mem _ hr, hle⟩

/-- The runs of a set reach exactly as far as the set. -/
theorem max?_runs (s : Finset ℕ) (h : s.Nonempty) :
    ((runs s.sort).map Prod.snd).max? = some (s.max' h) := by
  obtain ⟨hends, hcover⟩ := runs_spec s.sort
  have hle : ∀ r ∈ runs s.sort, r.2 ≤ s.max' h :=
    fun r hr => s.le_max' _ ((Finset.mem_sort _).mp (hends r hr).2)
  rw [List.max?_eq_some_iff]
  constructor
  · obtain ⟨r, hr, hmax⟩ := hcover (s.max' h) ((Finset.mem_sort _).mpr (s.max'_mem h))
    exact List.mem_map.mpr ⟨r, hr, le_antisymm (hle r hr) hmax⟩
  · intro b hb
    obtain ⟨r, hr, rfl⟩ := List.mem_map.mp hb
    exact hle r hr

/-! ### The characters of a printed list -/

theorem mem_printRange {range : ℕ × ℕ} {c : Char} (h : c ∈ printRange range) :
    c.isDigit = true ∨ c = '-' := by
  unfold printRange at h
  split_ifs at h
  · exact .inl (isDigit_of_mem_digits h)
  · rcases List.mem_append.mp h with h | h
    · exact .inl (isDigit_of_mem_digits h)
    · rcases List.mem_cons.mp h with rfl | h
      · exact .inr rfl
      · exact .inl (isDigit_of_mem_digits h)

theorem isWhitespace_of_mem_printRange {range : ℕ × ℕ} {c : Char} (h : c ∈ printRange range) :
    isWhitespace c = false := by
  rcases mem_printRange h with hc | rfl
  · exact isWhitespace_of_isDigit hc
  · rfl

theorem comma_not_mem_printRange (range : ℕ × ℕ) : ',' ∉ printRange range := by
  intro h
  rcases mem_printRange h with hc | hc
  · cases hc
  · cases hc

end RangeList
