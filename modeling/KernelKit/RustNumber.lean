import KernelKit.RustString

/-!
# The texts that `str::parse` reads as unsigned numbers

A text stands for a number if it is a run of decimal digits after an optional plus sign, and
`parseUnsigned` accepts exactly the texts whose number the type can hold.
-/

namespace RustString

variable {max value n : ℕ} {c : Char} {cs digits : List Char}

structure IsNumeral (digits : List Char) (n : ℕ) : Prop where
  ne_nil : digits ≠ []
  isDigit : ∀ c ∈ digits, c.isDigit = true
  value_eq : n = Nat.ofDigitChars 10 digits 0

/-- The texts of an unsigned type: a numeral, after an optional plus sign. -/
def Denotes (text : List Char) (n : ℕ) : Prop :=
  ∃ sign digits, text = sign ++ digits ∧ (sign = [] ∨ sign = ['+']) ∧ IsNumeral digits n

theorem parseDigits_eq_some_iff (hvalue : value ≤ max) : parseDigits max value cs = some n ↔
    (∀ c ∈ cs, c.isDigit = true) ∧ n = Nat.ofDigitChars 10 cs value ∧ n ≤ max := by
  induction cs generalizing value with
  | nil =>
      rw [parseDigits, Nat.ofDigitChars_nil]
      constructor
      · rintro ⟨⟩
        exact ⟨List.forall_mem_nil _, rfl, hvalue⟩
      · rintro ⟨-, rfl, -⟩
        rfl
  | cons c cs ih =>
      rw [parseDigits, Nat.ofDigitChars_cons, List.forall_mem_cons]
      by_cases hc : c.isDigit = true
      · rw [if_pos hc, and_iff_right hc]
        dsimp only
        by_cases hstep : 10 * value + (c.toNat - '0'.toNat) ≤ max
        · rw [if_pos hstep, ih hstep]
        · rw [if_neg hstep]
          refine iff_of_false (by simp) ?_
          rintro ⟨-, rfl, hmax⟩
          exact hstep ((le_ofDigitChars _ cs).trans hmax)
      · rw [if_neg hc]
        exact iff_of_false (by simp) fun h => hc h.1.1

theorem IsNumeral.plus_not_mem (h : IsNumeral digits n) : '+' ∉ digits := by
  intro hmem
  cases h.isDigit '+' hmem

theorem parseUnsigned_numeral (h : IsNumeral digits n) (hmax : n ≤ max) :
    parseUnsigned max digits = some n := by
  have hparse : parseDigits max 0 digits = some n :=
    (parseDigits_eq_some_iff (Nat.zero_le max)).mpr ⟨h.isDigit, h.value_eq, hmax⟩
  rw [parseUnsigned.eq_def]
  split
  · exact absurd rfl h.ne_nil
  · exact absurd List.mem_cons_self h.plus_not_mem
  · exact absurd List.mem_cons_self h.plus_not_mem
  · exact hparse

theorem parseUnsigned_plus_numeral (h : IsNumeral digits n) (hmax : n ≤ max) :
    parseUnsigned max ('+' :: digits) = some n := by
  rw [parseUnsigned]
  · exact (parseDigits_eq_some_iff (Nat.zero_le max)).mpr ⟨h.isDigit, h.value_eq, hmax⟩
  · exact h.ne_nil

/-- `parse` of an unsigned type accepts the texts of the numbers the type can hold. -/
theorem parseUnsigned_eq_some_iff :
    parseUnsigned max cs = some n ↔ Denotes cs n ∧ n ≤ max := by
  constructor
  · intro h
    rw [parseUnsigned.eq_def] at h
    split at h
    · cases h
    · cases h
    · next cs hne =>
      obtain ⟨hdigits, hvalue, hmax⟩ := (parseDigits_eq_some_iff (Nat.zero_le max)).mp h
      exact ⟨⟨['+'], cs, rfl, Or.inr rfl, fun hnil => hne hnil, hdigits, hvalue⟩, hmax⟩
    · next hne _ _ =>
      obtain ⟨hdigits, hvalue, hmax⟩ := (parseDigits_eq_some_iff (Nat.zero_le max)).mp h
      exact ⟨⟨[], cs, rfl, Or.inl rfl, fun hnil => hne hnil, hdigits, hvalue⟩, hmax⟩
  · rintro ⟨⟨sign, digits, rfl, rfl | rfl, hnumeral⟩, hmax⟩
    · exact parseUnsigned_numeral hnumeral hmax
    · exact parseUnsigned_plus_numeral hnumeral hmax

theorem Denotes.mem {text : List Char} (h : Denotes text n) (hc : c ∈ text) :
    c.isDigit = true ∨ c = '+' := by
  obtain ⟨sign, digits, rfl, hsign, hnumeral⟩ := h
  rcases List.mem_append.mp hc with hc | hc
  · rcases hsign with rfl | rfl
    · cases hc
    · exact Or.inr (List.mem_singleton.mp hc)
  · exact Or.inl (hnumeral.isDigit c hc)

theorem IsNumeral.denotes (h : IsNumeral digits n) : Denotes digits n :=
  ⟨[], digits, rfl, Or.inl rfl, h⟩

theorem Denotes.isNumeral {text : List Char} (h : Denotes text n)
    (hdigit : ∀ c ∈ text, c.isDigit = true) : IsNumeral text n := by
  obtain ⟨sign, digits, rfl, rfl | rfl, hnumeral⟩ := h
  · exact hnumeral
  · cases hdigit '+' List.mem_cons_self

theorem Denotes.ne_nil {text : List Char} (h : Denotes text n) : text ≠ [] := by
  obtain ⟨sign, digits, rfl, -, hnumeral⟩ := h
  exact List.append_ne_nil_of_right_ne_nil _ hnumeral.ne_nil

theorem Denotes.isWhitespace {text : List Char} (h : Denotes text n) :
    ∀ c ∈ text, isWhitespace c = false := by
  intro c hc
  rcases h.mem hc with hdigit | rfl
  · exact isWhitespace_of_isDigit hdigit
  · rfl

theorem isNumeral_digits (n : ℕ) : IsNumeral (RustString.digits n) n :=
  ⟨digits_ne_nil n, fun _ hc => isDigit_of_mem_digits hc, Nat.ofDigitChars_ten_toDigits.symm⟩

theorem parseUnsigned_digits (h : n ≤ max) : parseUnsigned max (RustString.digits n) = some n :=
  parseUnsigned_numeral (isNumeral_digits n) h

end RustString
