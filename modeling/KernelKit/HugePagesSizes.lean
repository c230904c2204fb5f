import KernelKit.HugePagesEffects
import Mathlib.Data.Nat.SuccPred
import Mathlib.Order.CompletePartialOrder
import Mathlib.Order.SuccPred.IntervalSucc

/-!
# Huge page lengths up to the limit of `usize`

The arithmetic of `HugeAllocation.new` for a `usize` of any number of bits. It finds the least whole
number of 2 MiB pages with room for the elements if that fits `usize`, and fails before the first call
otherwise. The elements that are then written lie in the mapping, one behind the other.
-/

namespace KernelKit
open Interaction

def mapLenAt (bits : ℕ) (elem : ElemType) (count : ℕ) : Except Error ℕ :=
  match checkedLenAt bits elem count with
  | .error error => .error error
  | .ok byteLen =>
    match alignUpAt bits byteLen hugepageBytes with
    | none => .error (.allocationOverflow count elem.name)
    | some mapLen => .ok mapLen

variable {T : Type}

theorem HugeAllocation.newAt_eq (bits : ℕ) {elem : ElemType} {count : ℕ}
    (hzero : ¬ (count = 0 ∨ elem.size = 0)) :
    (newAt bits elem count : MemProg T _) =
      match mapLenAt bits elem count with
      | .error error => .fail (.err error)
      | .ok mapLen => .ask (.mmap mapLen true) fun answer =>
        match answer with
        | .error _ => .ret none
        | .ok rawPtr => ofMapping elem count mapLen rawPtr := by
  rw [newAt, if_neg hzero, mapLenAt]
  cases checkedLenAt bits elem count with
  | error error => rfl
  | ok byteLen =>
      dsimp only
      cases alignUpAt bits byteLen hugepageBytes <;> rfl

variable {bits count len : ℕ} {elem : ElemType}

theorem alignUpAt_eq_some_iff {value alignment n : ℕ} (hpos : 0 < alignment)
    (hvalue : value ≤ 2 ^ bits - 1) : alignUpAt bits value alignment = some n ↔
      n = roundUp value alignment ∧ n ≤ 2 ^ bits - 1 := by
  unfold alignUpAt
  dsimp only
  split_ifs with hzero hsum
  · rw [roundUp_eq_self (Nat.dvd_of_mod_eq_zero hzero), Option.some.injEq, eq_comm]
    exact ⟨fun heq => ⟨heq, heq ▸ hvalue⟩, And.left⟩
  · rw [roundUp_of_mod_ne_zero hpos hzero, Option.some.injEq, eq_comm]
    exact ⟨fun heq => ⟨heq, heq ▸ hsum⟩, And.left⟩
  · rw [roundUp_of_mod_ne_zero hpos hzero]
    refine iff_of_false (by rintro ⟨⟩) ?_
    rintro ⟨rfl, hle⟩
    exact hsum hle

/-- The least whole number of 2 MiB pages that has room for the elements. -/
def IsPageLength (elem : ElemType) (count len : ℕ) : Prop :=
  IsLeast {m | hugepageBytes ∣ m ∧ count * elem.size ≤ m} len

theorem isPageLength_iff : IsPageLength elem count len ↔
    len = roundUp (count * elem.size) hugepageBytes := by
  have hround : IsPageLength elem count (roundUp (count * elem.size) hugepageBytes) :=
    isLeast_roundUp (by decide)
  constructor
  · exact fun hlen => IsLeast.unique hlen hround
  · rintro rfl
    exact hround

theorem mapLenAt_eq_ok_iff : mapLenAt bits elem count = .ok len ↔
    IsPageLength elem count len ∧ len ≤ 2 ^ bits - 1 := by
  rw [isPageLength_iff]
  unfold mapLenAt checkedLenAt
  dsimp only
  split_ifs with hfits
  · rw [← alignUpAt_eq_some_iff (by decide) hfits]
    dsimp only
    cases alignUpAt bits (count * elem.size) hugepageBytes with
    | none => exact iff_of_false (by rintro ⟨⟩) (by rintro ⟨⟩)
    | some mapLen => rw [Except.ok.injEq, Option.some.injEq]
  · refine iff_of_false (by rintro ⟨⟩) ?_
    rintro ⟨rfl, hle⟩
    exact hfits ((le_roundUp (by decide)).trans hle)

theorem mapLenAt_eq_error {error : Error} (h : mapLenAt bits elem count = .error error) :
    error = .allocationOverflow count elem.name := by
  unfold mapLenAt checkedLenAt at h
  dsimp only at h
  split_ifs at h
  · dsimp only at h
    cases halign : alignUpAt bits (count * elem.size) hugepageBytes with
    | none =>
        rw [halign] at h
        cases h
        rfl
    | some mapLen =>
        rw [halign] at h
        cases h
  · cases h
    rfl

/-! ### The elements in the mapping -/

def elemBytes (elem : ElemType) (index : ℕ) : Set ℕ :=
  Set.Ico (index * elem.size) ((index + 1) * elem.size)

theorem elemBytes_subset (hlen : IsPageLength elem count len) {index : ℕ} (hindex : index < count) :
    elemBytes elem index ⊆ Set.Ico 0 len := by
  have hend : (index + 1) * elem.size ≤ len := (Nat.mul_le_mul_right _ hindex).trans hlen.1.2
  exact fun x hx => ⟨Nat.zero_le x, hx.2.trans_le hend⟩

theorem disjoint_elemBytes {i j : ℕ} (hij : i ≠ j) : Disjoint (elemBytes elem i) (elemBytes elem j) := by
  have hmono : Monotone fun index => index * elem.size := fun _ _ hle => Nat.mul_le_mul_right _ hle
  exact hmono.pairwise_disjoint_on_Ico_succ hij

section Runs

variable {σ : Type} {E : Env σ (MemOp T) MemOp.Ans} {s s' : σ} {tr : List (Call σ (MemOp T) MemOp.Ans)}

def NoWrite : MemOp T → Prop
  | .write _ _ => False
  | _ => True

theorem written_of_only {α : Type} {p : MemProg T α} {r : Except Exit α} (h : E.Runs p s tr r s')
    (hp : p.Only NoWrite) : (effects tr).written = [] := by
  rw [effects_flatMap Effects.written rfl fun _ _ => rfl, List.flatMap_eq_nil_iff]
  intro c hc
  have hop := h.ops_only hp c hc
  obtain ⟨s, op, answer⟩ := c
  cases op with
  | write addr value => exact hop.elim
  | mmap len huge => cases answer <;> rfl
  | _ => rfl

theorem InitGuard.drop_noWrite {guard : InitGuard} : (guard.drop elem : MemProg T Unit).Only NoWrite := by
  rw [InitGuard.drop_eq]
  exact (dropElements_only fun _ => trivial).bind fun _ => ⟨trivial, fun _ => trivial⟩

/-- Wherever the loop ends, it has written the first elements in their order and nothing else. -/
theorem runs_initElements_written {guard : InitGuard} {index remaining : ℕ} {r : Except Exit Unit}
    (h : E.Runs (initElements elem guard index remaining) s tr r s') :
    (effects tr).written <+: slots elem guard.ptr index remaining := by
  induction remaining generalizing guard index s tr with
  | zero =>
      obtain ⟨rfl, _, _⟩ := Env.runs_ret_iff.mp h
      exact List.prefix_rfl
  | succ remaining ih =>
      cases runs_initElements_succ h with
      | made _ _ _ _ hloop =>
          have hlater := ih hloop
          rw [slots_succ]
          exact List.cons_prefix_cons.mpr ⟨rfl, hlater⟩
      | @unwound _ _ _ tr _ _ _ hdrop =>
          have hnone : (effects tr).written = [] := written_of_only hdrop InitGuard.drop_noWrite
          change (effects tr).written <+: _
          rw [hnone]
          exact List.nil_prefix

theorem runs_ofMapping_written {ptr : ℕ} {r : Except Exit (Option HugeAllocation)}
    (h : E.Runs (HugeAllocation.ofMapping elem count len ptr) s tr r s') :
    (effects tr).written <+: slots elem ptr 0 count := by
  unfold HugeAllocation.ofMapping at h
  split_ifs at h
  · have hnone : (effects tr).written = [] :=
      written_of_only h ⟨trivial, fun _ => ⟨trivial, fun _ => trivial⟩⟩
    rw [hnone]
    exact List.nil_prefix
  · rcases Env.runs_bind_iff.mp h with ⟨_, _, hloop⟩ | ⟨_, _, t₁, t₂, hloop, hend, rfl⟩
    · exact runs_initElements_written hloop
    · obtain ⟨rfl, _, _⟩ := Env.runs_ret_iff.mp hend
      rw [List.append_nil]
      exact runs_initElements_written hloop
  · have hnone : (effects tr).written = [] := written_of_only h ⟨trivial, fun _ => trivial⟩
    rw [hnone]
    exact List.nil_prefix

/-- What a run of `HugeAllocation.newAt` does for a request that needs `len` bytes of pages. If they fit
`usize` it asks for them first and writes elements from the start of the mapping on; otherwise it reports
the overflow and has called nothing. -/
def AsksFor (bits : ℕ) (elem : ElemType) (count len : ℕ) (tr : List (Call σ (MemOp T) MemOp.Ans))
    (r : Except Exit (Option HugeAllocation)) : Prop :=
  (len ≤ 2 ^ bits - 1 → ∃ s₁ answer tr', tr = ⟨s₁, .mmap len true, answer⟩ :: tr' ∧
    match answer with
    | .error _ => tr' = []
    | .ok ptr => (effects tr').written <+: slots elem ptr 0 count) ∧
  (2 ^ bits - 1 < len → tr = [] ∧ r = .error (.err (.allocationOverflow count elem.name)))

theorem runs_newAt {r : Except Exit (Option HugeAllocation)} (hsize : 0 < elem.size)
    (hcount : 0 < count) (hlen : IsPageLength elem count len)
    (h : E.Runs (HugeAllocation.newAt bits elem count) s tr r s') :
    AsksFor bits elem count len tr r := by
  have hzero : ¬ (count = 0 ∨ elem.size = 0) := not_or.mpr ⟨hcount.ne', hsize.ne'⟩
  rw [HugeAllocation.newAt_eq bits hzero] at h
  cases hmap : mapLenAt bits elem count with
  | error error =>
      rw [hmap] at h
      obtain ⟨rfl, rfl, _⟩ := runs_throw_iff.mp h
      refine ⟨fun hfits => ?_, fun _ => ⟨rfl, by rw [mapLenAt_eq_error hmap]⟩⟩
      rw [mapLenAt_eq_ok_iff.mpr ⟨hlen, hfits⟩] at hmap
      cases hmap
  | ok mapLen =>
      obtain ⟨hmapLen, hfits⟩ := mapLenAt_eq_ok_iff.mp hmap
      obtain rfl : mapLen = len := IsLeast.unique hmapLen hlen
      rw [hmap] at h
      obtain ⟨s₁, answer, s₂, tr', _, _, hrest, rfl⟩ := Env.runs_ask_iff.mp h
      refine ⟨fun _ => ⟨s₁, answer, tr', rfl, ?_⟩, fun hover => absurd hfits (not_le.mpr hover)⟩
      cases answer with
      | error _ => exact (Env.runs_ret_iff.mp hrest).1
      | ok ptr => exact runs_ofMapping_written hrest

end Runs

/-- The length is found exactly if it fits `usize`, an overflow is reported before any call, and the
elements that are written lie in the mapping without overlap. -/
theorem hugeAllocation_new_sizes (bits : ℕ) (elem : ElemType) (count : ℕ) (hsize : 0 < elem.size)
    (hcount : 0 < count) :
    (∀ len, mapLenAt bits elem count = .ok len ↔ IsPageLength elem count len ∧ len ≤ 2 ^ bits - 1) ∧
      (∀ error, mapLenAt bits elem count = .error error →
        error = .allocationOverflow count elem.name) ∧
      ∃ len, IsPageLength elem count len ∧
        (∀ index < count, elemBytes elem index ⊆ Set.Ico 0 len) ∧
        (∀ i j, i ≠ j → Disjoint (elemBytes elem i) (elemBytes elem j)) ∧
        ∀ (σ T : Type) (E : Env σ (MemOp T) MemOp.Ans) (s s' : σ)
          (tr : List (Call σ (MemOp T) MemOp.Ans)) (r : Except Exit (Option HugeAllocation)),
          E.Runs (HugeAllocation.newAt bits elem count) s tr r s' →
            AsksFor bits elem count len tr r := by
  have hlen := isPageLength_iff.mpr (Eq.refl (roundUp (count * elem.size) hugepageBytes))
  refine ⟨fun _ => mapLenAt_eq_ok_iff, fun _ => mapLenAt_eq_error, _, hlen, ?_, ?_, ?_⟩
  · exact fun index => elemBytes_subset hlen
  · exact fun i j => disjoint_elemBytes
  · exact fun σ T E s s' tr r => runs_newAt hsize hcount hlen

/-- The longest length of a 32-bit `usize` is found, and one byte more overflows. -/
theorem hugeAllocation_new_sizes_limit :
    mapLenAt 32 byteType (2 ^ 32 - 2 ^ 21) = .ok (2 ^ 32 - 2 ^ 21) ∧
      mapLenAt 32 byteType (2 ^ 32 - 2 ^ 21 + 1) =
        .error (.allocationOverflow (2 ^ 32 - 2 ^ 21 + 1) "u8") := by
  obtain ⟨hok, -⟩ := hugeAllocation_new_sizes 32 byteType (2 ^ 32 - 2 ^ 21) (by decide) (by decide)
  obtain ⟨hok', herror, -⟩ :=
    hugeAllocation_new_sizes 32 byteType (2 ^ 32 - 2 ^ 21 + 1) (by decide) (by decide)
  constructor
  · exact (hok _).mpr ⟨isPageLength_iff.mpr (by decide), by decide⟩
  · cases hmap : mapLenAt 32 byteType (2 ^ 32 - 2 ^ 21 + 1) with
    | error error => rw [herror error hmap, byteType]
    | ok len =>
        obtain ⟨hlen, hfits⟩ := (hok' len).mp hmap
        rw [isPageLength_iff.mp hlen] at hfits
        exact absurd hfits (by decide)

end KernelKit
