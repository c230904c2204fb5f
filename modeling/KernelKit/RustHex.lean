import KernelKit.RustString
import Mathlib.Algebra.Group.Nat.Defs

/-!
# Hexadecimal numbers in the Rust standard library

`fromStrRadix16` follows `from_str_radix(16)` of an unsigned type. Digits of either case count, and a
number printed with enough digits parses back.
-/

namespace RustString

def toDigit16 (c : Char) : Option ℕ :=
  if '0' ≤ c ∧ c ≤ '9' then some (c.toNat - '0'.toNat)
  else if 'a' ≤ c ∧ c ≤ 'f' then some (c.toNat - 'a'.toNat + 10)
  else if 'A' ≤ c ∧ c ≤ 'F' then some (c.toNat - 'A'.toNat + 10)
  else none

def parseHexDigits (max : ℕ) : ℕ → List Char → Option ℕ
  | value, [] => some value
  | value, c :: cs =>
    match toDigit16 c with
    | none => none
    | some digit =>
      let value := 16 * value + digit
      if value ≤ max then parseHexDigits max value cs else none

/-- `from_str_radix(16)` of an unsigned type with largest value `max`. -/
def fromStrRadix16 (max : ℕ) : List Char → Option ℕ
  | [] => none
  | ['+'] => none
  | '+' :: cs => parseHexDigits max 0 cs
  | cs => parseHexDigits max 0 cs

/-! ### Parsing hexadecimal numbers -/

theorem parseHexDigits_append (max value : ℕ) (cs cs' : List Char) :
    parseHexDigits max value (cs ++ cs') =
      (parseHexDigits max value cs).bind fun value => parseHexDigits max value cs' := by
  induction cs generalizing value with
  | nil => rfl
  | cons c cs ih =>
      rw [List.cons_append, parseHexDigits, parseHexDigits]
      cases toDigit16 c with
      | none => rfl
      | some digit =>
          dsimp only
          split_ifs
          · exact ih _
          · rfl

theorem parseHexDigits_congr {cs cs' : List Char}
    (h : List.Forall₂ (fun c c' => toDigit16 c' = toDigit16 c) cs cs') (max value : ℕ) :
    parseHexDigits max value cs' = parseHexDigits max value cs := by
  induction h generalizing value with
  | nil => rfl
  | cons hc _ ih =>
      rw [parseHexDigits, parseHexDigits, hc]
      simp only [ih]

theorem toNat_of_toDigit16 {c : Char} {digit : ℕ} (h : toDigit16 c = some digit) :
    (48 ≤ c.toNat ∧ c.toNat ≤ 57) ∨ (97 ≤ c.toNat ∧ c.toNat ≤ 102) ∨
      (65 ≤ c.toNat ∧ c.toNat ≤ 70) := by
  simp only [toDigit16, Char.le_def, UInt32.le_iff_toNat_le] at h
  split_ifs at h with hdigit hlower hupper
  · exact Or.inl hdigit
  · exact Or.inr (Or.inl hlower)
  · exact Or.inr (Or.inr hupper)

theorem isWhitespace_of_toDigit16 {c : Char} {digit : ℕ} (h : toDigit16 c = some digit) :
    isWhitespace c = false := by
  have hrange := toNat_of_toDigit16 h
  simp only [isWhitespace, Bool.or_eq_false_iff, Bool.and_eq_false_iff, decide_eq_false_iff_not]
  omega

def printHex : ℕ → ℕ → List Char
  | 0, _ => []
  | n + 1, value => printHex n (value / 16) ++ [Nat.digitChar (value % 16)]

theorem toDigit16_digitChar {n : ℕ} (h : n < 16) : toDigit16 (Nat.digitChar n) = some n := by
  have hall : ∀ n : Fin 16, toDigit16 (Nat.digitChar n) = some n.val := by decide
  exact hall ⟨n, h⟩

theorem exists_digit_of_mem_printHex {n value : ℕ} {c : Char} (h : c ∈ printHex n value) :
    ∃ digit < 16, c = Nat.digitChar digit := by
  induction n generalizing value with
  | zero => cases h
  | succ n ih =>
      rcases List.mem_append.mp h with h | h
      · exact ih h
      · exact ⟨_, Nat.mod_lt value (by decide), List.mem_singleton.mp h⟩

theorem parseHexDigits_printHex {max n value : ℕ} (h : value < 16 ^ n) (hmax : value ≤ max) :
    parseHexDigits max 0 (printHex n value) = some value := by
  induction n generalizing value with
  | zero =>
      obtain rfl : value = 0 := by omega
      rfl
  | succ n ih =>
      have hdiv : value / 16 < 16 ^ n := Nat.div_lt_of_lt_mul (by rwa [← Nat.pow_succ'])
      have hsplit : 16 * (value / 16) + value % 16 = value := Nat.div_add_mod value 16
      rw [printHex, parseHexDigits_append, ih hdiv (by omega), Option.bind_some, parseHexDigits,
        toDigit16_digitChar (Nat.mod_lt value (by decide))]
      dsimp only
      rw [hsplit, if_pos hmax, parseHexDigits]

end RustString
