import KernelKit.Meminfo

/-!
# The order of the lines of `/proc/meminfo`

Where no counter has more than one line the early stop cannot miss a value that the answer needs, so the
answer is a function of the values alone: neither the order of the lines nor lines of other counters
change it.
-/

namespace KernelKit.MemoryStatus
open RustString

variable {lines lines' extras : List (List Char)} {counter : Counter}

def AtMostOnce (lines : List (List Char)) : Prop := ∀ counter, (linesOf counter lines).length ≤ 1

def Unrelated (line : List Char) : Prop := ∀ counter : Counter, ¬ counter.key <+: line

theorem ofKib_congr {kib kib' : Kib} (htotal : kib .memTotal = kib' .memTotal)
    (havailable : kib .memAvailable = kib' .memAvailable) (hknown : (kib .memAvailable).isSome) :
    ofKib kib = ofKib kib' := by
  obtain ⟨available, h⟩ := Option.isSome_iff_exists.mp hknown
  rw [ofKib, ofKib, ← htotal, ← havailable, h, Option.some_or, Option.some_or]

theorem reading_append (h : AtMostOnce (lines ++ lines')) (hsome : (reading lines counter).isSome) :
    reading (lines ++ lines') counter = reading lines counter := by
  have hne : linesOf counter lines ≠ [] := by
    intro hnil
    rw [reading_of_linesOf_nil hnil] at hsome
    cases hsome
  have hone := h counter
  rw [linesOf_append, List.length_append] at hone
  have hpos := List.length_pos_of_ne_nil hne
  have hnil : linesOf counter lines' = [] := List.eq_nil_of_length_eq_zero (by omega)
  rw [reading, linesOf_append, hnil, List.append_nil, reading]

/-- The early stop does not change the answer. -/
theorem ofKib_scanLines (h : AtMostOnce lines) :
    ofKib (scanLines (fun _ => none) lines) = ofKib (reading lines) := by
  obtain ⟨pre, post, rfl, hscan, rfl | ⟨htotal, havailable⟩⟩ := exists_scan lines
  · rw [hscan, List.append_nil]
  · rw [hscan]
    exact ofKib_congr (reading_append h htotal).symm (reading_append h havailable).symm havailable

theorem linesOf_unrelated (h : ∀ line ∈ extras, Unrelated line) : linesOf counter extras = [] := by
  rw [linesOf, List.filter_eq_nil_iff]
  intro line hline hprefix
  exact h line hline counter (List.isPrefixOf_iff_prefix.mp hprefix)

/-- Each counter keeps its line through a reordering and among other lines. -/
theorem linesOf_perm (h : AtMostOnce lines) (hextras : ∀ line ∈ extras, Unrelated line)
    (hperm : lines'.Perm (lines ++ extras)) : linesOf counter lines' = linesOf counter lines := by
  have hfilter : (linesOf counter lines').Perm (linesOf counter (lines ++ extras)) := hperm.filter _
  rw [linesOf_append, linesOf_unrelated hextras, List.append_nil] at hfilter
  cases hlines : linesOf counter lines with
  | nil =>
      rw [hlines] at hfilter
      exact hfilter.eq_nil
  | cons line rest =>
      have hone := h counter
      rw [hlines, List.length_cons] at hone
      obtain rfl : rest = [] := List.eq_nil_of_length_eq_zero (by omega)
      rw [hlines] at hfilter
      exact List.perm_singleton.mp hfilter

/-! ### The answer as a formula -/

/-- A counter has no line, or one line with a value that fits. -/
def Reads (lines : List (List Char)) (counter : Counter) : Option ℕ → Prop
  | none => linesOf counter lines = []
  | some n => ∃ line, linesOf counter lines = [line] ∧ HasValue line n ∧ n ≤ u64Max

def estimate (free buffers cached : Option ℕ) : Option ℕ :=
  free.bind fun free =>
    let sum := free + buffers.getD 0 + cached.getD 0
    if sum ≤ u64Max then some sum else none

def statusOf (total : ℕ) (available free buffers cached : Option ℕ) : Except Error MemoryStatus :=
  (available.or (estimate free buffers cached)).elim (.error (.sysfsParse procMeminfoPath)) fun available =>
    .ok ⟨min (available * 1024) u64Max, min (total * 1024) u64Max⟩

theorem Reads.reading_eq {value : Option ℕ} (h : Reads lines counter value) :
    reading lines counter = value := by
  cases value with
  | none => exact reading_of_linesOf_nil h
  | some n =>
      obtain ⟨line, hline, hvalue⟩ := h
      rw [reading, hline]
      exact parseKibValue_eq_some_iff.mpr hvalue

theorem reads_some {line : List Char} {n : ℕ} (hline : linesOf counter lines = [line])
    (hvalue : parseKibValue line = some n) : Reads lines counter (some n) :=
  ⟨line, hline, parseKibValue_eq_some_iff.mp hvalue⟩

/-- Two checked additions are one check of the sum. -/
theorem fallback_eq (kib : Kib) :
    fallback kib = estimate (kib .memFree) (kib .buffers) (kib .cached) := by
  rw [fallback, estimate]
  cases kib .memFree with
  | none => rfl
  | some free =>
      simp only [Option.bind_some, checkedAdd]
      by_cases hfirst : free + (kib .buffers).getD 0 ≤ u64Max
      · rw [if_pos hfirst, Option.bind_some]
      · rw [if_neg hfirst, Option.bind_none, if_neg (by omega)]

theorem ofKib_eq_statusOf {kib : Kib} {total : ℕ} (htotal : kib .memTotal = some total) :
    ofKib kib = statusOf total (kib .memAvailable) (kib .memFree) (kib .buffers) (kib .cached) := by
  rw [ofKib, htotal, fallback_eq, statusOf]
  cases (kib .memAvailable).or (estimate (kib .memFree) (kib .buffers) (kib .cached)) <;> rfl

theorem readFromMeminfo_eq {readToString : String → Except IoError (List Char)} {contents : List Char}
    (hread : readToString procMeminfoPath = .ok contents)
    (honce : AtMostOnce (RustString.lines contents)) :
    readFromMeminfo readToString = ofKib (reading (RustString.lines contents)) := by
  rw [readFromMeminfo, hread]
  exact ofKib_scanLines honce

/-- Neither the order of the lines nor unrelated lines change the answer, and where the lines have
values it is the one these give. -/
theorem readFromMeminfo_order (readToString readToString' : String → Except IoError (List Char))
    (contents contents' : List Char) (extras : List (List Char))
    (hread : readToString procMeminfoPath = .ok contents)
    (hread' : readToString' procMeminfoPath = .ok contents')
    (honce : AtMostOnce (RustString.lines contents)) (hextras : ∀ line ∈ extras, Unrelated line)
    (hperm : (RustString.lines contents').Perm (RustString.lines contents ++ extras)) :
    readFromMeminfo readToString' = readFromMeminfo readToString ∧
      ∀ total available free buffers cached, Reads (RustString.lines contents) .memTotal (some total) →
        Reads (RustString.lines contents) .memAvailable available →
        Reads (RustString.lines contents) .memFree free →
        Reads (RustString.lines contents) .buffers buffers →
        Reads (RustString.lines contents) .cached cached →
          readFromMeminfo readToString = statusOf total available free buffers cached := by
  have hlines (counter : Counter) : linesOf counter (RustString.lines contents') =
      linesOf counter (RustString.lines contents) := linesOf_perm honce hextras hperm
  have honce' : AtMostOnce (RustString.lines contents') := fun counter => hlines counter ▸ honce counter
  rw [readFromMeminfo_eq hread honce, readFromMeminfo_eq hread' honce']
  constructor
  · congr 1
    funext counter
    rw [reading, reading, hlines]
  · intro total available free buffers cached htotal havailable hfree hbuffers hcached
    rw [ofKib_eq_statusOf htotal.reading_eq, havailable.reading_eq, hfree.reading_eq,
      hbuffers.reading_eq, hcached.reading_eq]

/-- The two lines are turned around, and a line of another counter is put between them. -/
theorem readFromMeminfo_order_swap :
    readFromMeminfo (fun _ => .ok "MemFree:8kB\nDirty: 3 kB\nMemTotal: 16 kB\n".toList) =
      .ok ⟨8192, 16384⟩ := by
  have hread : RustString.lines "MemTotal: 16 kB\nMemFree:8kB\n".toList =
      ["MemTotal: 16 kB".toList, "MemFree:8kB".toList] := by decide +kernel
  have hread' : RustString.lines "MemFree:8kB\nDirty: 3 kB\nMemTotal: 16 kB\n".toList =
      ["MemFree:8kB".toList, "Dirty: 3 kB".toList, "MemTotal: 16 kB".toList] := by decide +kernel
  have honce : AtMostOnce ["MemTotal: 16 kB".toList, "MemFree:8kB".toList] := by
    intro counter
    cases counter <;> decide
  have hextras : ∀ line ∈ ["Dirty: 3 kB".toList], Unrelated line := by
    refine List.forall_mem_singleton.mpr fun counter => ?_
    cases counter <;> decide
  have hperm := List.perm_append_singleton "MemTotal: 16 kB".toList
    ["MemFree:8kB".toList, "Dirty: 3 kB".toList]
  obtain ⟨hsame, hstatus⟩ := readFromMeminfo_order
    (fun _ => .ok "MemTotal: 16 kB\nMemFree:8kB\n".toList)
    (fun _ => .ok "MemFree:8kB\nDirty: 3 kB\nMemTotal: 16 kB\n".toList) _ _ ["Dirty: 3 kB".toList]
    rfl rfl (hread ▸ honce) hextras (by rw [hread, hread']; exact hperm)
  rw [hread] at hstatus
  rw [hsame, hstatus 16 none (some 8) none none (reads_some rfl (by decide)) rfl
    (reads_some rfl (by decide)) rfl rfl]
  rfl

end KernelKit.MemoryStatus
