import KernelKit.NumaSysfs

/-!
# The spellings of a node list

The parser of the file `online` keeps a maximum over the ends of the items and skips what it cannot
read, so it reads a set of nodes in more spellings than the kernel's: with the items in another order,
with the runs cut into smaller ones, and with malformed items in between.
-/

namespace KernelKit.Numa
open RustString RangeList

/-- An item whose text behind the first dash, or whose whole text, is empty or contains a character
that no number has, such as a letter. -/
def Malformed (item : List Char) : Prop :=
  ',' ∉ item ∧ (endText item = [] ∨
    ∃ c ∈ endText item, c.isDigit = false ∧ c ≠ '+' ∧ isWhitespace c = false)

inductive Spelling (s : Finset ℕ) : List (List Char) → Prop
  | printed : Spelling s ((runs s.sort).map printRange)
  | reorder {items items' : List (List Char)} : Spelling s items → items.Perm items' → Spelling s items'
  | split {front back : List (List Char)} {a b m : ℕ} : Spelling s (front ++ printRange (a, b) :: back) →
      a ≤ m → m < b → Spelling s (front ++ printRange (a, m) :: printRange (m + 1, b) :: back)
  | insert {front back : List (List Char)} {item : List Char} : Spelling s (front ++ back) →
      Malformed item → Spelling s (front ++ item :: back)

variable {w : Width} {item : List Char} {items : List (List Char)} {top : ℕ}

/-! ### Malformed items -/

theorem endText_trim (item : List Char) : ∃ a b, endText item = a ++ endText (trim item) ++ b ∧
    (∀ c ∈ a, isWhitespace c = true) ∧ ∀ c ∈ b, isWhitespace c = true := by
  obtain ⟨a, b, hitem, ha, hb⟩ := exists_trim item
  have hdash : ∀ {t : List Char}, (∀ c ∈ t, isWhitespace c = true) → '-' ∉ t :=
    not_mem_of_isWhitespace rfl
  generalize trim item = t at hitem
  subst hitem
  by_cases hmem : '-' ∈ t
  · obtain ⟨start, stop, rfl, hstart⟩ := List.eq_append_cons_of_mem hmem
    have hstart' : '-' ∉ a ++ start := by
      rw [List.mem_append, not_or]
      exact ⟨hdash ha, hstart⟩
    refine ⟨[], b, ?_, List.forall_mem_nil _, hb⟩
    rw [endText, endText, splitOnce_append hstart, List.append_assoc, List.append_assoc,
      List.cons_append, ← List.append_assoc, splitOnce_append hstart']
    rfl
  · have hnone : '-' ∉ a ++ t ++ b := by
      simp only [List.mem_append, not_or]
      exact ⟨⟨hdash ha, hmem⟩, hdash hb⟩
    refine ⟨a, b, ?_, ha, hb⟩
    simp only [endText, splitOnce_eq_none hmem, splitOnce_eq_none hnone]

theorem Malformed.rangeEnd_eq_none (h : Malformed item) : rangeEnd w item = none := by
  obtain ⟨a, b, htext, ha, hb⟩ := endText_trim item
  rw [rangeEnd_eq, Option.eq_none_iff_forall_ne_some]
  intro n hn
  obtain ⟨hdenotes, -⟩ := parseUnsigned_eq_some_iff.mp hn
  rcases h.2 with hnil | ⟨c, hc, hdigit, hplus, hwhite⟩
  · rw [htext, List.append_eq_nil_iff, List.append_eq_nil_iff] at hnil
    exact hdenotes.ne_nil hnil.1.2
  · rw [htext, List.mem_append, List.mem_append] at hc
    have hmem : c ∈ endText (trim item) := by
      rcases hc with (hc | hc) | hc
      · rw [ha c hc] at hwhite
        cases hwhite
      · exact hc
      · rw [hb c hc] at hwhite
        cases hwhite
    rcases hdenotes.mem hmem with hc | hc
    · rw [hc] at hdigit
      cases hdigit
    · exact hplus hc

theorem not_malformed_printRange (range : ℕ × ℕ) : ¬ Malformed (printRange range) := by
  rintro ⟨-, hnil | ⟨c, hc, hdigit, -, -⟩⟩
  · rw [endText_printRange] at hnil
    exact digits_ne_nil _ hnil
  · rw [endText_printRange] at hc
    rw [isDigit_of_mem_digits hc] at hdigit
    cases hdigit

theorem end_eq_of_printRange_eq {r r' : ℕ × ℕ} (h : printRange r = printRange r') : r.2 = r'.2 := by
  have hdigits := congrArg endText h
  rw [endText_printRange, endText_printRange] at hdigits
  have hvalue := congrArg (Nat.ofDigitChars 10 · 0) hdigits
  simpa only [Nat.ofDigitChars_ten_toDigits] using hvalue

/-! ### The greatest end -/

/-- The items are malformed or ranges that end at most at `top`, and one of them ends there. -/
structure EndsAt (top : ℕ) (items : List (List Char)) : Prop where
  item : ∀ x ∈ items, Malformed x ∨ ∃ range, x = printRange range ∧ range.2 ≤ top
  last : ∃ range, printRange range ∈ items ∧ range.2 = top

theorem EndsAt.le (h : EndsAt top items) {range : ℕ × ℕ} (hmem : printRange range ∈ items) :
    range.2 ≤ top := by
  rcases h.item _ hmem with hbad | ⟨range', heq, hle⟩
  · exact absurd hbad (not_malformed_printRange range)
  · rwa [end_eq_of_printRange_eq heq]

theorem Spelling.endsAt {s : Finset ℕ} (hs : s.Nonempty) (h : Spelling s items) :
    EndsAt (s.max' hs) items := by
  induction h with
  | printed =>
      obtain ⟨hlast, hle⟩ := List.max?_eq_some_iff.mp (max?_runs s hs)
      obtain ⟨r, hr, hmax⟩ := List.mem_map.mp hlast
      refine ⟨fun x hx => Or.inr ?_, r, List.mem_map_of_mem hr, hmax⟩
      obtain ⟨r, hr, rfl⟩ := List.mem_map.mp hx
      exact ⟨r, rfl, hle _ (List.mem_map_of_mem hr)⟩
  | reorder _ hperm ih =>
      obtain ⟨r, hr, hmax⟩ := ih.last
      exact ⟨fun x hx => ih.item x (hperm.mem_iff.mpr hx), r, hperm.mem_iff.mp hr, hmax⟩
  | @split front back a b m _ _ hmb ih =>
      have hb : b ≤ s.max' hs := ih.le (List.mem_append_right _ List.mem_cons_self)
      obtain ⟨hitem, r, hr, hmax⟩ := ih
      simp only [List.mem_append, List.mem_cons] at hitem hr
      constructor
      · intro x hx
        simp only [List.mem_append, List.mem_cons] at hx
        rcases hx with hx | rfl | rfl | hx
        · exact hitem x (.inl hx)
        · exact .inr ⟨(a, m), rfl, by dsimp only; omega⟩
        · exact .inr ⟨(m + 1, b), rfl, hb⟩
        · exact hitem x (.inr (.inr hx))
      · rcases hr with hr | hr | hr
        · exact ⟨r, List.mem_append_left _ hr, hmax⟩
        · refine ⟨(m + 1, b), by simp, ?_⟩
          rw [← hmax, end_eq_of_printRange_eq hr]
        · exact ⟨r, by simp [hr], hmax⟩
  | insert _ hbad ih =>
      obtain ⟨hitem, r, hr, hmax⟩ := ih
      simp only [List.mem_append] at hitem hr
      constructor
      · intro x hx
        simp only [List.mem_append, List.mem_cons] at hx
        rcases hx with hx | rfl | hx
        · exact hitem x (.inl hx)
        · exact .inl hbad
        · exact hitem x (.inr hx)
      · exact ⟨r, by rcases hr with hr | hr <;> simp [hr], hmax⟩

theorem EndsAt.comma_not_mem (h : EndsAt top items) : ∀ item ∈ items, ',' ∉ item := by
  intro item hitem
  rcases h.item item hitem with hbad | ⟨range, rfl, -⟩
  · exact hbad.1
  · exact comma_not_mem_printRange range

theorem EndsAt.max?_eq (h : EndsAt top items) (htop : top ≤ w.usizeMax) :
    (items.filterMap (rangeEnd w)).max? = some top := by
  rw [List.max?_eq_some_iff]
  constructor
  · obtain ⟨range, hmem, rfl⟩ := h.last
    exact List.mem_filterMap.mpr ⟨_, hmem, rangeEnd_printRange htop⟩
  · intro n hn
    obtain ⟨x, hx, hend⟩ := List.mem_filterMap.mp hn
    rcases h.item x hx with hbad | ⟨range, rfl, hle⟩
    · rw [hbad.rangeEnd_eq_none] at hend
      cases hend
    · rw [rangeEnd_printRange (hle.trans htop)] at hend
      cases hend
      exact hle

/-- In every spelling of a set of nodes the file `online` is read as its greatest node plus one. -/
theorem sysfsNodeCount_spelling (w : Width) (s : Finset ℕ) (hs : s.Nonempty)
    (hmax : ∀ k ∈ s, k < w.usizeMax) (items : List (List Char)) (h : Spelling s items) (env : NumaEnv)
    (honline : env.online = some ([','].intercalate items ++ ['\n'])) :
    sysfsNodeCount w env = some (s.max' hs + 1) := by
  have hlt := hmax _ (s.max'_mem hs)
  have hends := h.endsAt hs
  have hne : items ≠ [] := by
    rintro rfl
    obtain ⟨_, hmem, _⟩ := hends.last
    cases hmem
  have hnode : maxNode w ([','].intercalate items ++ ['\n']) = some (s.max' hs) := by
    rw [maxNode_intercalate hends.comma_not_mem hne, hends.max?_eq hlt.le]
  rw [sysfsNodeCount, honline, Option.bind_some, hnode]
  exact congrArg some (min_eq_left hlt)

theorem malformed_letter : Malformed ['1', '-', 'x'] :=
  ⟨by decide, Or.inr ⟨'x', by decide, by decide, by decide, by decide⟩⟩

/-- The nodes 0 to 3 and 5 with the first run cut, the items turned around, and a malformed item. -/
theorem sysfsNodeCount_spelling_mixed :
    sysfsNodeCount .w64 ⟨fun _ => none, some "5,1-x,2-3,0-1\n".toList, none⟩ = some 6 := by
  have hsort : ({0, 1, 2, 3, 5} : Finset ℕ).sort = [0, 1, 2, 3, 5] :=
    (@List.toFinset_sort ℕ (· ≤ ·) _ _ _ _ _ [0, 1, 2, 3, 5] (by decide)).mpr (by decide)
  have hprinted : Spelling {0, 1, 2, 3, 5} ([] ++ printRange (0, 3) :: [printRange (5, 5)]) := by
    have h := @Spelling.printed {0, 1, 2, 3, 5}
    rwa [hsort] at h
  have hsplit := hprinted.split (Nat.zero_le 1) (by decide)
  have hreorder := hsplit.reorder (List.reverse_perm _).symm
  exact sysfsNodeCount_spelling .w64 {0, 1, 2, 3, 5} (by decide) (by decide)
    [['5'], ['1', '-', 'x'], ['2', '-', '3'], ['0', '-', '1']]
    (@Spelling.insert _ [['5']] _ _ hreorder malformed_letter) _ (by decide)

end KernelKit.Numa
