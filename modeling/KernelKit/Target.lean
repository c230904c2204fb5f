import Mathlib.Algebra.Group.Nat.Defs
import Mathlib.Tactic.SplitIfs

/-!
# Targets and machine numbers

What the targets of the crate differ in, and the bounds and conversions of its machine numbers, which are
kept as the naturals they stand for.
-/

namespace KernelKit

/-- The widths `usize` and `c_ulong` have on the targets the crate builds for. -/
inductive Width
  | w32
  | w64
  deriving DecidableEq, Repr

/-- The architectures the sources tell apart; `x86` is for 32 and 64 bits. -/
inductive Arch
  | x86
  | aarch64
  | arm
  | other
  deriving DecidableEq, Repr

def Width.bits : Width → ℕ
  | .w32 => 32
  | .w64 => 64

theorem Width.bits_pos (w : Width) : 0 < w.bits := by cases w <;> decide

def Width.usizeMax (w : Width) : ℕ := 2 ^ w.bits - 1

def Width.isizeMax (w : Width) : ℕ := 2 ^ (w.bits - 1) - 1

def u64Max : ℕ := 2 ^ 64 - 1

def saturatingAdd (max a b : ℕ) : ℕ := min (a + b) max

def u32TryFrom (n : ℕ) : Option ℕ := if n < 2 ^ 32 then some n else none

def Width.usizeTryFrom (w : Width) (v : UInt64) : Option ℕ :=
  if v.toNat ≤ w.usizeMax then some v.toNat else none

theorem Width.usizeTryFrom_eq_some {w : Width} {v : UInt64} {n : ℕ} :
    w.usizeTryFrom v = some n ↔ v.toNat = n ∧ n ≤ w.usizeMax := by
  unfold Width.usizeTryFrom
  split_ifs with h
  · constructor
    · rintro ⟨⟩
      exact ⟨rfl, h⟩
    · rintro ⟨rfl, _⟩
      rfl
  · constructor
    · rintro ⟨⟩
    · rintro ⟨rfl, hle⟩
      exact absurd hle h

end KernelKit
