import KernelKit.Error
import KernelKit.RustNumber

/-!
# Reading memory counters from `/proc/meminfo`

`readFromMeminfo` makes one pass over the lines with an accumulator for each of five counters, where a
later line of a counter replaces an earlier one, and stops early once the two counters of the answer are
known. Here the pass is shown to be a fold over the lines up to where it stops, and the value of a line
to be the number its text begins with.
-/

namespace KernelKit

structure MemoryStatus where
  availableBytes : ℕ
  totalBytes : ℕ
  deriving DecidableEq, Repr

namespace MemoryStatus
open RustString

def kibToBytes (kib : ℕ) : ℕ := min (kib * 1024) u64Max

def checkedAdd (a b : ℕ) : Option ℕ := if a + b ≤ u64Max then some (a + b) else none

def parseKibValue (line : List Char) : Option ℕ :=
  (splitOnce ':' line).bind fun x => (firstToken (trim x.2)).bind fun token =>
    parseUnsigned u64Max (token.takeWhile Char.isDigit)

inductive Counter
  | memTotal
  | memAvailable
  | memFree
  | buffers
  | cached
  deriving DecidableEq, Repr

def Counter.key : Counter → List Char
  | .memTotal => ['M', 'e', 'm', 'T', 'o', 't', 'a', 'l', ':']
  | .memAvailable => ['M', 'e', 'm', 'A', 'v', 'a', 'i', 'l', 'a', 'b', 'l', 'e', ':']
  | .memFree => ['M', 'e', 'm', 'F', 'r', 'e', 'e', ':']
  | .buffers => ['B', 'u', 'f', 'f', 'e', 'r', 's', ':']
  | .cached => ['C', 'a', 'c', 'h', 'e', 'd', ':']

/-- The accumulators, in KiB. -/
abbrev Kib := Counter → Option ℕ

/-- The counter of a line, by the `starts_with` tests in their order. -/
def counterOf (line : List Char) : Option Counter :=
  [.memTotal, .memAvailable, .memFree, .buffers, .cached].find? fun counter =>
    counter.key.isPrefixOf line

/-- The loop over the lines. After a line of `MemTotal` or `MemAvailable` it stops if both are known. -/
def scanLines (kib : Kib) : List (List Char) → Kib
  | [] => kib
  | line :: lines =>
    match counterOf line with
    | none => scanLines kib lines
    | some counter =>
      let kib := Function.update kib counter (parseKibValue line)
      if (counter = .memTotal ∨ counter = .memAvailable) ∧ (kib .memTotal).isSome ∧
          (kib .memAvailable).isSome then kib
      else scanLines kib lines

def fallback (kib : Kib) : Option ℕ :=
  (kib .memFree).bind fun free =>
    (checkedAdd free ((kib .buffers).getD 0)).bind fun sum => checkedAdd sum ((kib .cached).getD 0)

def procMeminfoPath : String := "/proc/meminfo"

def ofKib (kib : Kib) : Except Error MemoryStatus :=
  match (kib .memTotal).map kibToBytes with
  | none => .error (.sysfsParse procMeminfoPath)
  | some totalBytes =>
    match ((kib .memAvailable).or (fallback kib)).map kibToBytes with
    | none => .error (.sysfsParse procMeminfoPath)
    | some availableBytes => .ok ⟨availableBytes, totalBytes⟩

def readFromMeminfo (readToString : String → Except IoError (List Char)) : Except Error MemoryStatus :=
  match readToString procMeminfoPath with
  | .error source => .error (.sysfsRead procMeminfoPath source)
  | .ok contents => ofKib (scanLines (fun _ => none) (lines contents))

example : readFromMeminfo (fun _ => .ok "MemTotal: 16 kB\nMemFree:8kB\n".toList) =
    .ok ⟨8192, 16384⟩ := by decide +kernel

/-! ### The value of a line -/

variable {line text : List Char} {n : ℕ}

/-- The text behind the first colon begins, after whitespace, with the digits of `n`. Whatever stands
behind the digits, such as a unit, is no part of the value. -/
def HasValue (line : List Char) (n : ℕ) : Prop :=
  ∃ front space digits rest, line = front ++ ':' :: (space ++ (digits ++ rest)) ∧ ':' ∉ front ∧
    (∀ c ∈ space, isWhitespace c = true) ∧ IsNumeral digits n ∧ ∀ c ∈ rest.head?, c.isDigit = false

theorem isDigit_of_isWhitespace {c : Char} (h : isWhitespace c = true) : c.isDigit = false := by
  rw [← Bool.not_eq_true]
  intro hdigit
  rw [isWhitespace_of_isDigit hdigit] at h
  cases h

theorem takeWhile_isDigit_extend {b : List Char} (hb : ∀ c ∈ b, isWhitespace c = true) (s : List Char) :
    (s ++ b).takeWhile Char.isDigit = s.takeWhile Char.isDigit := by
  induction s with
  | nil =>
      cases b with
      | nil => rfl
      | cons c b =>
          have hc := isDigit_of_isWhitespace (hb c List.mem_cons_self)
          rw [List.nil_append, List.takeWhile_cons_of_neg (by simp [hc]), List.takeWhile_nil]
  | cons c s ih =>
      rw [List.cons_append, List.takeWhile_cons, List.takeWhile_cons, ih]

theorem takeWhile_isDigit_token (s : List Char) :
    (s.takeWhile fun c => !isWhitespace c).takeWhile Char.isDigit = s.takeWhile Char.isDigit := by
  rw [List.takeWhile_takeWhile]
  congr 1
  funext c
  cases hdigit : c.isDigit with
  | false => simp
  | true => simp [isWhitespace_of_isDigit hdigit]

/-- Trimming at the end and cutting off the first token make no difference to the digits. -/
theorem firstToken_digits (text : List Char) :
    ((firstToken (trim text)).bind fun token => parseUnsigned u64Max (token.takeWhile Char.isDigit)) =
      parseUnsigned u64Max ((text.dropWhile isWhitespace).takeWhile Char.isDigit) := by
  have hdigits : (trim text).takeWhile Char.isDigit =
      (text.dropWhile isWhitespace).takeWhile Char.isDigit := by
    have hend : ∀ c ∈ (text.dropWhile isWhitespace).rtakeWhile isWhitespace, isWhitespace c = true :=
      fun c hc => List.mem_rtakeWhile_imp hc
    rw [trim, ← takeWhile_isDigit_extend hend, List.rdropWhile_append_rtakeWhile]
  rw [← hdigits, firstToken]
  cases htrim : trim text with
  | nil => rfl
  | cons c cs =>
      rw [List.dropWhile_cons_of_neg (by simp [trim_head htrim])]
      exact congrArg (parseUnsigned u64Max) (takeWhile_isDigit_token (c :: cs))

theorem parseKibValue_eq_some_iff :
    parseKibValue line = some n ↔ HasValue line n ∧ n ≤ u64Max := by
  simp only [parseKibValue, firstToken_digits, Option.bind_eq_some_iff, parseUnsigned_eq_some_iff]
  constructor
  · rintro ⟨⟨front, text⟩, hsplit, hdenotes, hmax⟩
    obtain ⟨rfl, hfront⟩ := splitOnce_eq_some_iff.mp hsplit
    have hnumeral := hdenotes.isNumeral fun c hc => List.mem_takeWhile_imp hc
    refine ⟨⟨front, text.takeWhile isWhitespace, _, (text.dropWhile isWhitespace).dropWhile Char.isDigit,
      ?_, hfront, fun c hc => List.mem_takeWhile_imp hc, hnumeral, fun c hc => ?_⟩, hmax⟩
    · rw [List.takeWhile_append_dropWhile, List.takeWhile_append_dropWhile]
    · have hhead := List.head?_dropWhile_not Char.isDigit (text.dropWhile isWhitespace)
      rw [Option.mem_def.mp hc] at hhead
      exact hhead
  · rintro ⟨⟨front, space, digits, rest, rfl, hfront, hspace, hnumeral, hrest⟩, hmax⟩
    refine ⟨(front, space ++ (digits ++ rest)), splitOnce_append hfront, ?_, hmax⟩
    have hstop : rest.takeWhile Char.isDigit = [] := by
      cases rest with
      | nil => rfl
      | cons c rest => exact List.takeWhile_cons_of_neg (by simp [hrest c rfl])
    dsimp only
    rw [List.dropWhile_append_of_pos hspace,
      dropWhile_append_self hnumeral.denotes.isWhitespace hnumeral.ne_nil,
      List.takeWhile_append_of_pos hnumeral.isDigit, hstop, List.append_nil]
    exact hnumeral.denotes

/-! ### The pass over the lines -/

def linesOf (counter : Counter) (lines : List (List Char)) : List (List Char) :=
  lines.filter fun line => counter.key.isPrefixOf line

def reading (lines : List (List Char)) (counter : Counter) : Option ℕ :=
  (linesOf counter lines).getLast?.bind parseKibValue

def step (kib : Kib) (line : List Char) : Kib :=
  match counterOf line with
  | none => kib
  | some counter => Function.update kib counter (parseKibValue line)

variable {lines pre post : List (List Char)} {counter counter' : Counter} {kib kib' : Kib}

theorem key_prefix_unique (h : counter.key <+: line) (h' : counter'.key <+: line) :
    counter = counter' := by
  have hprefix : counter.key <+: counter'.key ∨ counter'.key <+: counter.key :=
    List.prefix_or_prefix_of_prefix h h'
  revert hprefix
  cases counter <;> cases counter' <;> decide

theorem counterOf_eq_some_iff :
    counterOf line = some counter ↔ counter.key.isPrefixOf line = true := by
  have hfound {counter : Counter} (h : counterOf line = some counter) :
      counter.key.isPrefixOf line = true := (List.find?_eq_some_iff_append.mp h).1
  constructor
  · exact hfound
  · intro h
    cases hfind : counterOf line with
    | none =>
        have hnone := List.find?_eq_none.mp hfind counter (by cases counter <;> decide)
        exact absurd h hnone
    | some counter' =>
        have h' := hfound hfind
        rw [List.isPrefixOf_iff_prefix] at h h'
        rw [key_prefix_unique h h']

theorem linesOf_append (counter : Counter) (pre post : List (List Char)) :
    linesOf counter (pre ++ post) = linesOf counter pre ++ linesOf counter post :=
  List.filter_append ..

theorem linesOf_singleton :
    linesOf counter [line] = if counterOf line = some counter then [line] else [] := by
  rw [linesOf, List.filter_cons, List.filter_nil]
  exact if_congr counterOf_eq_some_iff.symm rfl rfl

theorem reading_of_linesOf_nil (h : linesOf counter lines = []) : reading lines counter = none := by
  rw [reading, h]
  rfl

/-- Without the early stop the pass finds the last value of every counter. -/
theorem foldl_step (lines : List (List Char)) : lines.foldl step (fun _ => none) = reading lines := by
  induction lines using List.reverseRecOn with
  | nil => rfl
  | append_singleton lines line ih =>
      funext counter
      rw [List.foldl_concat, ih, step, reading, linesOf_append, linesOf_singleton]
      cases hcounter : counterOf line with
      | none =>
          rw [if_neg (by simp), List.append_nil]
          rfl
      | some counter' =>
          dsimp only
          by_cases hsame : counter = counter'
          · subst hsame
            rw [Function.update_self, if_pos rfl, List.getLast?_concat, Option.bind_some]
          · rw [Function.update_of_ne hsame, if_neg fun heq => hsame (Option.some.inj heq).symm,
              List.append_nil]
            rfl

def Known (kib : Kib) : Prop := (kib .memTotal).isSome ∧ (kib .memAvailable).isSome

/-- The pass is a fold over the lines up to where it stops, and it stops only when it knows enough. -/
theorem scanLines_eq (kib : Kib) (lines : List (List Char)) : ∃ pre post, lines = pre ++ post ∧
    scanLines kib lines = pre.foldl step kib ∧ (post = [] ∨ Known (pre.foldl step kib)) := by
  induction lines generalizing kib with
  | nil => exact ⟨[], [], rfl, rfl, .inl rfl⟩
  | cons line lines ih =>
      have hlater : ∃ pre post, line :: lines = pre ++ post ∧
          scanLines (step kib line) lines = pre.foldl step kib ∧
            (post = [] ∨ Known (pre.foldl step kib)) := by
        obtain ⟨pre, post, hlines, hscan, hstop⟩ := ih (step kib line)
        exact ⟨line :: pre, post, by rw [hlines, List.cons_append], hscan, hstop⟩
      rw [scanLines]
      cases hcounter : counterOf line with
      | none =>
          rw [step, hcounter] at hlater
          exact hlater
      | some counter =>
          rw [step, hcounter] at hlater
          dsimp only at hlater ⊢
          split_ifs with hstop
          · refine ⟨[line], lines, rfl, ?_, .inr ?_⟩
            · rw [List.foldl_cons, List.foldl_nil, step, hcounter]
            · rw [List.foldl_cons, List.foldl_nil, step, hcounter]
              exact hstop.2
          · exact hlater

theorem exists_scan (lines : List (List Char)) : ∃ pre post, lines = pre ++ post ∧
    scanLines (fun _ => none) lines = reading pre ∧ (post = [] ∨ Known (reading pre)) := by
  obtain ⟨pre, post, hlines, hscan, hstop⟩ := scanLines_eq (fun _ => none) lines
  rw [foldl_step] at hscan hstop
  exact ⟨pre, post, hlines, hscan, hstop⟩

end MemoryStatus

end KernelKit
