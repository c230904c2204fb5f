import Mathlib.Data.List.DropRight
import Mathlib.Data.Nat.Notation
import Mathlib.Tactic.SplitIfs

/-!
# String functions of the Rust standard library

Strings are lists of characters. `trim`, `splitOnce` and `parseUnsigned` follow `str::trim`,
`str::split_once` with a character, and `str::parse` to an unsigned integer; `str::split` with a
character is `List.splitOn`.
-/

namespace RustString

/-- The Unicode property `White_Space`, which `char::is_whitespace` tests. -/
def isWhitespace (c : Char) : Bool :=
  let n := c.toNat
  (9 ≤ n && n ≤ 13) || n = 0x20 || n = 0x85 || n = 0xA0 || n = 0x1680 || (0x2000 ≤ n && n ≤ 0x200A) ||
    n = 0x2028 || n = 0x2029 || n = 0x202F || n = 0x205F || n = 0x3000

def trim (s : List Char) : List Char := (s.dropWhile isWhitespace).rdropWhile isWhitespace

def splitOnce (sep : Char) : List Char → Option (List Char × List Char)
  | [] => none
  | c :: cs => if c = sep then some ([], cs) else (splitOnce sep cs).map fun x => (c :: x.1, x.2)

/-- `str::lines`: each line without its newline and one carriage return before that. What follows the
last newline is a line if there is any text, and keeps its carriage return. -/
def lines (s : List Char) : List (List Char) :=
  let parts := s.splitOn '\n'
  (parts.dropLast.map fun line => (line.dropSuffix? ['\r']).getD line) ++
    (parts.getLast?.toList.filter (· ≠ []))

def firstToken (s : List Char) : Option (List Char) :=
  match s.dropWhile isWhitespace with
  | [] => none
  | c :: cs => some ((c :: cs).takeWhile fun c => !isWhitespace c)

def parseDigits (max : ℕ) : ℕ → List Char → Option ℕ
  | value, [] => some value
  | value, c :: cs =>
    if c.isDigit then
      let value := 10 * value + (c.toNat - '0'.toNat)
      if value ≤ max then parseDigits max value cs else none
    else none

def parseUnsigned (max : ℕ) : List Char → Option ℕ
  | [] => none
  | ['+'] => none
  | '+' :: cs => parseDigits max 0 cs
  | cs => parseDigits max 0 cs

/-! ### Trimming and splitting -/

theorem dropWhile_append_self {s t : List Char} (hs : ∀ c ∈ s, isWhitespace c = false)
    (hne : s ≠ []) : (s ++ t).dropWhile isWhitespace = s ++ t := by
  cases s with
  | nil => exact absurd rfl hne
  | cons c cs => rw [List.cons_append, List.dropWhile_cons, hs c List.mem_cons_self]; rfl

theorem rdropWhile_self {s : List Char} (hs : ∀ c ∈ s, isWhitespace c = false) :
    s.rdropWhile isWhitespace = s := by
  rw [List.rdropWhile_eq_self_iff]
  intro hne
  rw [hs _ (List.getLast_mem hne)]
  decide

theorem trim_append {s t : List Char} (hs : ∀ c ∈ s, isWhitespace c = false) (hne : s ≠ [])
    (ht : ∀ c ∈ t, isWhitespace c = true) : trim (s ++ t) = s := by
  rw [trim, dropWhile_append_self hs hne]
  induction t using List.reverseRecOn with
  | nil => rw [List.append_nil, rdropWhile_self hs]
  | append_singleton t c ih =>
      rw [← List.append_assoc, List.rdropWhile_concat_pos _ _ _ (ht c (by simp))]
      exact ih fun c hc => ht c (List.mem_append_left _ hc)

theorem trim_eq_self {s : List Char} (hs : ∀ c ∈ s, isWhitespace c = false) : trim s = s := by
  by_cases hne : s = []
  · subst hne
    rfl
  · have hnil : ∀ c ∈ [], isWhitespace c = true := by simp
    have htrim := trim_append hs hne hnil
    rwa [List.append_nil] at htrim

theorem trim_cons {c : Char} (hc : isWhitespace c = true) (s : List Char) : trim (c :: s) = trim s := by
  rw [trim, List.dropWhile_cons_of_pos hc, trim]

theorem trim_prepend {a : List Char} (ha : ∀ c ∈ a, isWhitespace c = true) (s : List Char) :
    trim (a ++ s) = trim s := by
  induction a with
  | nil => rfl
  | cons c a ih =>
      obtain ⟨hc, ha⟩ := List.forall_mem_cons.mp ha
      rw [List.cons_append, trim_cons hc, ih ha]

theorem trim_concat {c : Char} (hc : isWhitespace c = true) (s : List Char) :
    trim (s ++ [c]) = trim s := by
  induction s with
  | nil =>
      rw [List.nil_append, trim_cons hc]
  | cons d s ih =>
      by_cases hd : isWhitespace d = true
      · rw [List.cons_append, trim_cons hd, trim_cons hd, ih]
      · rw [trim, trim, List.cons_append, List.dropWhile_cons_of_neg hd, List.dropWhile_cons_of_neg hd,
          ← List.cons_append, List.rdropWhile_concat_pos _ _ _ hc]

theorem trim_extend {b : List Char} (hb : ∀ c ∈ b, isWhitespace c = true) (s : List Char) :
    trim (s ++ b) = trim s := by
  induction b using List.reverseRecOn with
  | nil => rw [List.append_nil]
  | append_singleton b c ih =>
      obtain ⟨hb, hc⟩ := List.forall_mem_append.mp hb
      rw [← List.append_assoc, trim_concat (hc c (List.mem_singleton.mpr rfl)), ih hb]

theorem exists_trim (s : List Char) : ∃ a b, s = a ++ trim s ++ b ∧
    (∀ c ∈ a, isWhitespace c = true) ∧ ∀ c ∈ b, isWhitespace c = true := by
  refine ⟨s.takeWhile isWhitespace, (s.dropWhile isWhitespace).rtakeWhile isWhitespace, ?_,
    fun c hc => List.mem_takeWhile_imp hc, fun c hc => List.mem_rtakeWhile_imp hc⟩
  rw [trim, List.append_assoc, List.rdropWhile_append_rtakeWhile, List.takeWhile_append_dropWhile]

theorem trim_head {s rest : List Char} {c : Char} (h : trim s = c :: rest) : isWhitespace c = false := by
  have hsplit := List.rdropWhile_append_rtakeWhile (p := isWhitespace)
    (l := s.dropWhile isWhitespace)
  have hhead := List.head?_dropWhile_not isWhitespace s
  rw [← trim, h] at hsplit
  rw [← hsplit] at hhead
  exact hhead

/-- Upper casing moves the letters `a` to `z` and no other character. -/
theorem toUpper_cases (c : Char) :
    c.toUpper = c ∨ (97 ≤ c.toNat ∧ c.toNat ≤ 122 ∧ c.toUpper.toNat = c.toNat - 32) := by
  unfold Char.toUpper
  split_ifs with h
  · have hlow : 97 ≤ c.val.toNat := UInt32.le_iff_toNat_le.mp h.1
    have hhigh : c.val.toNat ≤ 122 := UInt32.le_iff_toNat_le.mp h.2
    refine Or.inr ⟨hlow, hhigh, ?_⟩
    change (c.val + ('A'.val - 'a'.val)).toNat = c.val.toNat - 32
    rw [UInt32.toNat_add, show ('A'.val - 'a'.val).toNat = 4294967264 from rfl]
    omega
  · exact Or.inl rfl

theorem isWhitespace_of_letter {c : Char}
    (h : (65 ≤ c.toNat ∧ c.toNat ≤ 90) ∨ (97 ≤ c.toNat ∧ c.toNat ≤ 122)) : isWhitespace c = false := by
  simp only [isWhitespace, Bool.or_eq_false_iff, Bool.and_eq_false_iff, decide_eq_false_iff_not]
  omega

theorem isWhitespace_toUpper (c : Char) : isWhitespace c.toUpper = isWhitespace c := by
  rcases toUpper_cases c with heq | ⟨hlow, hhigh, heq⟩
  · rw [heq]
  · rw [isWhitespace_of_letter (Or.inl (by omega)), isWhitespace_of_letter (Or.inr ⟨hlow, hhigh⟩)]

theorem splitOn_cons_self (sep : Char) (s : List Char) :
    (sep :: s).splitOn sep = [] :: s.splitOn sep := by
  rw [List.splitOn, List.splitOnP_cons_eq_if_modifyHead, if_pos (beq_self_eq_true sep), List.splitOn]

theorem splitOn_cons_of_ne {sep c : Char} {s first : List Char} {rest : List (List Char)} (hc : c ≠ sep)
    (hs : s.splitOn sep = first :: rest) : (c :: s).splitOn sep = (c :: first) :: rest := by
  rw [List.splitOn] at hs
  rw [List.splitOn, List.splitOnP_cons_eq_if_modifyHead, if_neg (by simpa using hc), hs,
    List.modifyHead_cons]

theorem splitOn_prepend {sep : Char} {a : List Char} (ha : sep ∉ a) (s : List Char) :
    ∃ first rest, s.splitOn sep = first :: rest ∧ (a ++ s).splitOn sep = (a ++ first) :: rest := by
  induction a with
  | nil =>
      obtain ⟨first, rest, h⟩ := List.exists_cons_of_ne_nil (List.splitOn_ne_nil sep s)
      exact ⟨first, rest, h, h⟩
  | cons c a ih =>
      rw [List.mem_cons, not_or] at ha
      obtain ⟨first, rest, hs, has⟩ := ih ha.2
      exact ⟨first, rest, hs, splitOn_cons_of_ne (Ne.symm ha.1) has⟩

theorem splitOn_extend {sep : Char} {b : List Char} (hb : sep ∉ b) (s : List Char) :
    ∃ front last, s.splitOn sep = front ++ [last] ∧ (s ++ b).splitOn sep = front ++ [last ++ b] := by
  induction s with
  | nil =>
      obtain ⟨first, rest, hnil, hsplit⟩ := splitOn_prepend hb []
      rw [List.splitOn_nil] at hnil
      cases hnil
      rw [List.append_nil] at hsplit
      exact ⟨[], [], List.splitOn_nil sep, hsplit⟩
  | cons c s ih =>
      obtain ⟨front, last, hs, hsb⟩ := ih
      by_cases hc : c = sep
      · subst hc
        exact ⟨[] :: front, last, by rw [splitOn_cons_self, hs]; rfl,
          by rw [List.cons_append, splitOn_cons_self, hsb]; rfl⟩
      · cases front with
        | nil => exact ⟨[], c :: last, splitOn_cons_of_ne hc hs, splitOn_cons_of_ne hc hsb⟩
        | cons first front =>
            exact ⟨(c :: first) :: front, last, splitOn_cons_of_ne hc hs, splitOn_cons_of_ne hc hsb⟩

theorem not_mem_of_isWhitespace {sep : Char} (hsep : isWhitespace sep = false) {b : List Char}
    (hb : ∀ c ∈ b, isWhitespace c = true) : sep ∉ b := by
  intro hmem
  rw [hb sep hmem] at hsep
  cases hsep

/-- Whitespace after a text shows in no trimmed part of it, and whitespace before it neither. -/
theorem map_trim_splitOn_extend {sep : Char} (hsep : isWhitespace sep = false) {b : List Char}
    (hb : ∀ c ∈ b, isWhitespace c = true) (s : List Char) :
    ((s ++ b).splitOn sep).map trim = (s.splitOn sep).map trim := by
  obtain ⟨front, last, hs, hsb⟩ := splitOn_extend (not_mem_of_isWhitespace hsep hb) s
  rw [hs, hsb, List.map_append, List.map_append, List.map_singleton, List.map_singleton,
    trim_extend hb]

theorem map_trim_splitOn_prepend {sep : Char} (hsep : isWhitespace sep = false) {a : List Char}
    (ha : ∀ c ∈ a, isWhitespace c = true) (s : List Char) :
    ((a ++ s).splitOn sep).map trim = (s.splitOn sep).map trim := by
  obtain ⟨first, rest, hs, has⟩ := splitOn_prepend (not_mem_of_isWhitespace hsep ha) s
  rw [hs, has, List.map_cons, List.map_cons, trim_prepend ha]

theorem map_trim_splitOn_trim {sep : Char} (hsep : isWhitespace sep = false) (s : List Char) :
    ((trim s).splitOn sep).map trim = (s.splitOn sep).map trim := by
  obtain ⟨a, b, hs, ha, hb⟩ := exists_trim s
  calc ((trim s).splitOn sep).map trim = ((a ++ trim s).splitOn sep).map trim :=
        (map_trim_splitOn_prepend hsep ha _).symm
    _ = ((a ++ trim s ++ b).splitOn sep).map trim := (map_trim_splitOn_extend hsep hb _).symm
    _ = (s.splitOn sep).map trim := by rw [← hs]

theorem splitOnce_eq_none {sep : Char} {s : List Char} (h : sep ∉ s) : splitOnce sep s = none := by
  induction s with
  | nil => rfl
  | cons c cs ih =>
      rw [List.mem_cons, not_or] at h
      rw [splitOnce, if_neg (Ne.symm h.1), ih h.2]
      rfl

theorem splitOnce_append {sep : Char} {s t : List Char} (h : sep ∉ s) :
    splitOnce sep (s ++ sep :: t) = some (s, t) := by
  induction s with
  | nil => rw [List.nil_append, splitOnce, if_pos rfl]
  | cons c cs ih =>
      rw [List.mem_cons, not_or] at h
      rw [List.cons_append, splitOnce, if_neg (Ne.symm h.1), ih h.2]
      rfl

theorem splitOnce_eq_some_iff {sep : Char} {s a b : List Char} :
    splitOnce sep s = some (a, b) ↔ s = a ++ sep :: b ∧ sep ∉ a := by
  constructor
  · intro h
    by_cases hmem : sep ∈ s
    · obtain ⟨front, back, rfl, hfront⟩ := List.eq_append_cons_of_mem hmem
      rw [splitOnce_append hfront] at h
      cases h
      exact ⟨rfl, hfront⟩
    · rw [splitOnce_eq_none hmem] at h
      cases h
  · rintro ⟨rfl, hmem⟩
    exact splitOnce_append hmem

/-! ### Parsing printed numbers -/

theorem le_ofDigitChars (value : ℕ) (cs : List Char) : value ≤ Nat.ofDigitChars 10 cs value := by
  induction cs generalizing value with
  | nil => exact le_of_eq Nat.ofDigitChars_nil.symm
  | cons c cs ih =>
      rw [Nat.ofDigitChars_cons]
      exact le_trans (by omega) (ih _)

abbrev digits (n : ℕ) : List Char := Nat.toDigits 10 n

theorem isDigit_of_mem_digits {n : ℕ} {c : Char} (h : c ∈ digits n) : c.isDigit = true :=
  Nat.isDigit_of_mem_toDigits (by decide) (by decide) h

theorem digits_ne_nil (n : ℕ) : digits n ≠ [] := Nat.toDigits_ne_nil

theorem isWhitespace_of_isDigit {c : Char} (h : c.isDigit = true) : isWhitespace c = false := by
  simp only [Char.isDigit, Bool.and_eq_true, decide_eq_true_eq, UInt32.le_iff_toNat_le] at h
  have h₁ : 48 ≤ c.toNat := h.1
  have h₂ : c.toNat ≤ 57 := h.2
  simp only [isWhitespace, Bool.or_eq_false_iff, Bool.and_eq_false_iff, decide_eq_false_iff_not]
  omega

theorem not_mem_digits {sep : Char} (hsep : sep.isDigit = false) (n : ℕ) : sep ∉ digits n := by
  intro h
  rw [isDigit_of_mem_digits h] at hsep
  cases hsep

end RustString
