import KernelKit.MeminfoOrder

/-!
# Malformed counters of `/proc/meminfo`

The reader is to fail rather than to stand in for a counter it cannot read. There are two ways in which
it does not. A value that only begins with digits is cut off behind them. And a line without digits is the
same as a missing one to the choice between `MemAvailable` and the estimate, so that the estimate
replaces it, or zero where it is a term of the estimate.

Which texts are units is left open: the kernel prints `kB`.
-/

namespace KernelKit.MemoryStatus
open RustString

/-- The text behind the first colon is the number `n`, with at most a unit behind it. -/
def IsValue (IsUnit : List Char → Prop) (line : List Char) (n : ℕ) : Prop :=
  ∃ front space digits gap unit tail, line = front ++ ':' :: (space ++ (digits ++ (gap ++ (unit ++ tail)))) ∧
    ':' ∉ front ∧ (∀ c ∈ space, isWhitespace c = true) ∧ IsNumeral digits n ∧
    (∀ c ∈ gap, isWhitespace c = true) ∧ (unit = [] ∨ IsUnit unit) ∧ (∀ c ∈ unit.head?, c.isDigit = false) ∧
    ∀ c ∈ tail, isWhitespace c = true

def OnceMalformed (IsUnit : List Char → Prop) (lines : List (List Char)) (counter : Counter) : Prop :=
  ∃ line, linesOf counter lines = [line] ∧ ¬ ∃ n, IsValue IsUnit line n ∧ n ≤ u64Max

/-- The counters the answer is to be made of: the terms of the estimate only without `MemAvailable`. -/
def Used (lines : List (List Char)) (counter : Counter) : Prop :=
  counter = .memTotal ∨ counter = .memAvailable ∨ linesOf .memAvailable lines = []

def FailsClosed (IsUnit : List Char → Prop) (contents : List Char) : Prop :=
  (∃ counter, Used (lines contents) counter ∧ OnceMalformed IsUnit (lines contents) counter) →
    readFromMeminfo (fun _ => .ok contents) = .error (.sysfsParse procMeminfoPath)

/-- The counter has one line, which holds no value but begins with one. -/
def Truncated (IsUnit : List Char → Prop) (lines : List (List Char)) (counter : Counter) : Prop :=
  ∃ line, linesOf counter lines = [line] ∧ (∃ n, HasValue line n ∧ n ≤ u64Max) ∧
    ¬ ∃ n, IsValue IsUnit line n ∧ n ≤ u64Max

/-- The counter has one line, which does not even begin with a value that fits. -/
def OnceUnreadable (lines : List (List Char)) (counter : Counter) : Prop :=
  ∃ line, linesOf counter lines = [line] ∧ ¬ ∃ n, HasValue line n ∧ n ≤ u64Max

/-- A counter is unreadable for which the reader has a replacement. -/
def Masked (lines : List (List Char)) : Prop :=
  OnceUnreadable lines .memAvailable ∨
    linesOf .memAvailable lines = [] ∧ (OnceUnreadable lines .buffers ∨ OnceUnreadable lines .cached)

def Estimable (lines : List (List Char)) : Prop :=
  (reading lines .memTotal).isSome ∧ ∃ free, reading lines .memFree = some free ∧
    free + (reading lines .buffers).getD 0 + (reading lines .cached).getD 0 ≤ u64Max

/-- At some line `MemTotal` and `MemAvailable` are both known, or there is an estimate at the end. -/
def Answerable (lines : List (List Char)) : Prop :=
  (∃ pre, pre <+: lines ∧ Known (reading pre)) ∨ Estimable lines

/-! ### Values, and texts that begin with one -/

variable {IsUnit : List Char → Prop} {line : List Char} {lines pre post : List (List Char)}
  {counter : Counter} {kib : Kib} {n : ℕ}

theorem IsValue.hasValue (h : IsValue IsUnit line n) : HasValue line n := by
  obtain ⟨front, space, digits, gap, unit, tail, rfl, hfront, hspace, hdigits, hgap, _, hunit, htail⟩ := h
  refine ⟨front, space, digits, _, rfl, hfront, hspace, hdigits, fun c hc => ?_⟩
  cases gap with
  | cons c' gap =>
      cases hc
      exact isDigit_of_isWhitespace (hgap c List.mem_cons_self)
  | nil =>
      cases unit with
      | cons c' unit =>
          cases hc
          exact hunit c rfl
      | nil => exact isDigit_of_isWhitespace (htail c (List.mem_of_mem_head? hc))

theorem onceMalformed_iff :
    OnceMalformed IsUnit lines counter ↔
      Truncated IsUnit lines counter ∨ OnceUnreadable lines counter := by
  constructor
  · rintro ⟨line, hline, hbad⟩
    by_cases hvalue : ∃ n, HasValue line n ∧ n ≤ u64Max
    · exact .inl ⟨line, hline, hvalue, hbad⟩
    · exact .inr ⟨line, hline, hvalue⟩
  · rintro (⟨line, hline, _, hbad⟩ | ⟨line, hline, hbad⟩)
    · exact ⟨line, hline, hbad⟩
    · exact ⟨line, hline, fun ⟨n, hn, hmax⟩ => hbad ⟨n, hn.hasValue, hmax⟩⟩

def Unread (lines : List (List Char)) (counter : Counter) : Prop :=
  OnceUnreadable lines counter ∨ linesOf counter lines = []

theorem Unread.reading_eq_none (h : Unread (pre ++ post) counter) : reading pre counter = none := by
  rcases h with ⟨line, hline, hbad⟩ | hmissing
  · rw [linesOf_append] at hline
    cases hpre : linesOf counter pre with
    | nil => exact reading_of_linesOf_nil hpre
    | cons line' rest =>
        rw [hpre, List.cons_append, List.cons.injEq, List.append_eq_nil_iff] at hline
        obtain ⟨rfl, rfl, -⟩ := hline
        rw [reading, hpre, Option.eq_none_iff_forall_ne_some]
        intro n hn
        exact hbad ⟨n, parseKibValue_eq_some_iff.mp hn⟩
  · rw [linesOf_append, List.append_eq_nil_iff] at hmissing
    exact reading_of_linesOf_nil hmissing.1

theorem Unread.reading_eq_none' (h : Unread lines counter) : reading lines counter = none := by
  rw [← List.append_nil lines] at h
  exact h.reading_eq_none

/-! ### Whether there is an answer -/

/-- Only a line of one of the two counters makes both of them known. -/
theorem known_step (hkib : ¬ Known kib) (h : Known (step kib line)) :
    ∃ counter, counterOf line = some counter ∧ (counter = .memTotal ∨ counter = .memAvailable) := by
  unfold step at h
  cases hcounter : counterOf line with
  | none =>
      rw [hcounter] at h
      exact absurd h hkib
  | some counter =>
      rw [hcounter] at h
      refine ⟨counter, rfl, ?_⟩
      cases counter with
      | memTotal => exact .inl rfl
      | memAvailable => exact .inr rfl
      | memFree | buffers | cached => exact absurd h hkib

/-- Once both are known the pass stops, and they stay known. -/
theorem known_scanLines (post : List (List Char)) (hkib : ¬ Known kib) (h : Known (pre.foldl step kib)) :
    Known (scanLines kib (pre ++ post)) := by
  induction pre generalizing kib with
  | nil => exact absurd h hkib
  | cons line pre ih =>
      rw [List.foldl_cons] at h
      rw [List.cons_append, scanLines]
      by_cases hstep : Known (step kib line)
      · obtain ⟨counter, hcounter, hstops⟩ := known_step hkib hstep
        rw [step, hcounter] at hstep
        rw [hcounter]
        dsimp only at hstep ⊢
        rw [if_pos ⟨hstops, hstep⟩]
        exact hstep
      · have hrest := ih hstep h
        cases hcounter : counterOf line with
        | none => rwa [step, hcounter] at hrest
        | some counter =>
            rw [step, hcounter] at hrest hstep
            dsimp only at hrest hstep ⊢
            rwa [if_neg fun hstops => hstep hstops.2]

theorem not_known_none : ¬ Known fun _ => none := by
  rintro ⟨⟨⟩, -⟩

theorem ofKib_of_known (h : Known kib) : ∃ status, ofKib kib = .ok status := by
  obtain ⟨htotal, havailable⟩ := h
  obtain ⟨total, htotal⟩ := Option.isSome_iff_exists.mp htotal
  obtain ⟨available, havailable⟩ := Option.isSome_iff_exists.mp havailable
  rw [ofKib, htotal, havailable]
  exact ⟨_, rfl⟩

/-- Where the two are not both known the answer fails exactly if there is no estimate. -/
theorem ofKib_error_iff (h : ¬ Known (reading lines)) :
    ofKib (reading lines) = .error (.sysfsParse procMeminfoPath) ↔ ¬ Estimable lines := by
  cases htotal : reading lines .memTotal with
  | none =>
      refine iff_of_true (by rw [ofKib, htotal]; rfl) ?_
      rintro ⟨hsome, -⟩
      rw [htotal] at hsome
      cases hsome
  | some total =>
      have havailable : reading lines .memAvailable = none := by
        by_contra hsome
        exact h ⟨by rw [htotal]; rfl, Option.isSome_iff_ne_none.mpr hsome⟩
      rw [ofKib_eq_statusOf htotal, statusOf, havailable, Option.none_or, Estimable, htotal,
        and_iff_right Option.isSome_some]
      cases hfree : reading lines .memFree with
      | none => simp [estimate]
      | some free =>
          simp only [estimate, Option.bind_some, Option.some.injEq, exists_eq_left']
          split_ifs with hfits
          · exact iff_of_false (by simp) (not_not_intro hfits)
          · exact iff_of_true rfl hfits

/-- The reader has an answer exactly if the lines are answerable. -/
theorem scan_error_iff :
    ofKib (scanLines (fun _ => none) lines) = .error (.sysfsParse procMeminfoPath) ↔
      ¬ Answerable lines := by
  by_cases hknown : ∃ pre, pre <+: lines ∧ Known (reading pre)
  · refine iff_of_false ?_ (not_not_intro (.inl hknown))
    obtain ⟨pre, ⟨post, rfl⟩, hpre⟩ := hknown
    rw [← foldl_step] at hpre
    obtain ⟨status, hok⟩ := ofKib_of_known (known_scanLines post not_known_none hpre)
    rw [hok]
    rintro ⟨⟩
  · have hlines : ¬ Known (reading lines) := fun h => hknown ⟨lines, List.prefix_rfl, h⟩
    have hscan : scanLines (fun _ => none) lines = reading lines := by
      obtain ⟨pre, post, rfl, hscan, rfl | hstop⟩ := exists_scan lines
      · rw [hscan, List.append_nil]
      · exact absurd ⟨pre, List.prefix_append .., hstop⟩ hknown
    rw [hscan, ofKib_error_iff hlines, Answerable, or_iff_right hknown]

/-- With nothing to replace, an unreadable counter leaves no answer. -/
theorem not_answerable_of_not_masked (hmasked : ¬ Masked lines) (hused : Used lines counter)
    (hbad : OnceUnreadable lines counter) : ¬ Answerable lines := by
  have hmissing (htotal : counter ≠ .memTotal) (havailable : counter ≠ .memAvailable) :
      linesOf .memAvailable lines = [] := (hused.resolve_left htotal).resolve_left havailable
  have hunread : Unread lines counter := .inl hbad
  cases counter with
  | memTotal =>
      rintro (⟨pre, ⟨post, rfl⟩, hsome, -⟩ | ⟨hsome, -⟩)
      · rw [hunread.reading_eq_none] at hsome
        cases hsome
      · rw [hunread.reading_eq_none'] at hsome
        cases hsome
  | memAvailable => exact absurd (.inl hbad) hmasked
  | memFree =>
      have havailable : Unread lines .memAvailable := .inr (hmissing (by decide) (by decide))
      rintro (⟨pre, ⟨post, rfl⟩, -, hsome⟩ | ⟨-, free, hsome, -⟩)
      · rw [havailable.reading_eq_none] at hsome
        cases hsome
      · rw [hunread.reading_eq_none'] at hsome
        cases hsome
  | buffers => exact absurd (.inr ⟨hmissing (by decide) (by decide), .inl hbad⟩) hmasked
  | cached => exact absurd (.inr ⟨hmissing (by decide) (by decide), .inr hbad⟩) hmasked

theorem Masked.used (h : Masked lines) :
    ∃ counter, Used lines counter ∧ OnceUnreadable lines counter := by
  rcases h with hbad | ⟨hmissing, hbad | hbad⟩
  · exact ⟨_, .inr (.inl rfl), hbad⟩
  · exact ⟨_, .inr (.inr hmissing), hbad⟩
  · exact ⟨_, .inr (.inr hmissing), hbad⟩

/-- The reader fails closed exactly if it is not the case that a malformed counter is cut off or
replaced, and there is an answer with what it is taken for. -/
theorem failsClosed_iff (IsUnit : List Char → Prop) (contents : List Char) :
    FailsClosed IsUnit contents ↔
      ¬ (((∃ counter, Used (RustString.lines contents) counter ∧
          Truncated IsUnit (RustString.lines contents) counter) ∨ Masked (RustString.lines contents)) ∧
        Answerable (RustString.lines contents)) := by
  have hread : readFromMeminfo (fun _ => .ok contents) =
      ofKib (scanLines (fun _ => none) (RustString.lines contents)) := rfl
  rw [FailsClosed, hread, scan_error_iff]
  generalize RustString.lines contents = lines
  constructor
  · rintro hclosed ⟨⟨counter, hused, htruncated⟩ | hmasked, hanswer⟩
    · exact hclosed ⟨counter, hused, onceMalformed_iff.mpr (.inl htruncated)⟩ hanswer
    · obtain ⟨counter, hused, hbad⟩ := hmasked.used
      exact hclosed ⟨counter, hused, onceMalformed_iff.mpr (.inr hbad)⟩ hanswer
  · rintro hnot ⟨counter, hused, hbad⟩ hanswer
    rcases onceMalformed_iff.mp hbad with htruncated | hunreadable
    · exact hnot ⟨.inl ⟨counter, hused, htruncated⟩, hanswer⟩
    · by_cases hmasked : Masked lines
      · exact hnot ⟨.inr hmasked, hanswer⟩
      · exact not_answerable_of_not_masked hmasked hused hunreadable hanswer

example : readFromMeminfo (fun _ => .ok "MemTotal: 16 kB\nMemAvailable: 0x10 kB\n".toList) =
    .ok ⟨0, 16384⟩ := by decide +kernel

/-- `MemAvailable` cannot be read, and the free memory is reported instead. -/
theorem not_failsClosed : ¬ FailsClosed (fun unit => unit = "kB".toList)
    "MemTotal: 16 kB\nMemAvailable: ? kB\nMemFree: 8 kB\n".toList := by
  intro h
  have hok : readFromMeminfo (fun _ => .ok "MemTotal: 16 kB\nMemAvailable: ? kB\nMemFree: 8 kB\n".toList) =
      .ok ⟨8192, 16384⟩ := by decide +kernel
  have hbad : ¬ ∃ n, IsValue (fun unit => unit = "kB".toList) "MemAvailable: ? kB".toList n ∧
      n ≤ u64Max := by
    rintro ⟨n, hn, hmax⟩
    have hvalue := parseKibValue_eq_some_iff.mpr ⟨hn.hasValue, hmax⟩
    rw [show parseKibValue "MemAvailable: ? kB".toList = none by decide] at hvalue
    cases hvalue
  rw [h ⟨.memAvailable, .inr (.inl rfl), _, by decide +kernel, hbad⟩] at hok
  cases hok

end KernelKit.MemoryStatus
