import Mathlib.Algebra.BigOperators.Ring.List
import Mathlib.Algebra.Order.BigOperators.Group.List
import Mathlib.Data.Finset.Sort
import Mathlib.Data.Nat.Bitwise
import Mathlib.Data.Nat.Digits.Defs

/-!
# Sets of numbers kept as groups of bits

A list of groups of `b` bits, least significant group first, holds the numbers `b * i + j` for which bit
`j` of group `i` is set. Listed group by group these come in ascending order, and their powers of two
add up to the number the groups are the digits of, so far as the groups have no bits beyond `b`.
-/

namespace BitGroups

def groupBits (b group : ℕ) : List ℕ := (List.range b).filter fun j => group.testBit j

def positions (b : ℕ) : ℕ → List ℕ → List ℕ
  | _, [] => []
  | i, group :: groups => (groupBits b group).map (b * i + ·) ++ positions b (i + 1) groups

example : positions 4 0 [0b1001, 0b0010] = [0, 3, 5] := by decide

theorem mem_groupBits {b group j : ℕ} : j ∈ groupBits b group ↔ j < b ∧ group.testBit j := by
  rw [groupBits, List.mem_filter, List.mem_range]

theorem mem_positions_cons {b i group p : ℕ} {groups : List ℕ} :
    p ∈ positions b i (group :: groups) ↔
      (∃ j < b, group.testBit j ∧ p = b * i + j) ∨ p ∈ positions b (i + 1) groups := by
  simp only [positions, List.mem_append, List.mem_map, mem_groupBits, and_assoc, eq_comm]

theorem le_of_mem_positions {b i p : ℕ} {groups : List ℕ} (h : p ∈ positions b i groups) :
    b * i ≤ p := by
  induction groups generalizing i with
  | nil => cases h
  | cons group groups ih =>
      rcases mem_positions_cons.mp h with ⟨j, _, _, rfl⟩ | h
      · exact Nat.le_add_right _ _
      · exact (Nat.mul_le_mul_left b (Nat.le_succ i)).trans (ih h)

theorem positions_sorted (b i : ℕ) (groups : List ℕ) : (positions b i groups).Pairwise (· < ·) := by
  induction groups generalizing i with
  | nil => exact .nil
  | cons group groups ih =>
      refine List.pairwise_append.mpr ⟨?_, ih (i + 1), fun p hp q hq => ?_⟩
      · refine List.pairwise_map.mpr ((List.pairwise_lt_range.filter _).imp fun h => ?_)
        exact Nat.add_lt_add_left h _
      · obtain ⟨j, hj, rfl⟩ := List.mem_map.mp hp
        have hlt := (mem_groupBits.mp hj).1
        have hle := le_of_mem_positions hq
        rw [Nat.mul_succ] at hle
        omega

theorem positions_append (b i : ℕ) (groups groups' : List ℕ) :
    positions b i (groups ++ groups') =
      positions b i groups ++ positions b (i + groups.length) groups' := by
  induction groups generalizing i with
  | nil => rfl
  | cons group groups ih =>
      rw [List.cons_append, positions, positions, ih, List.append_assoc, List.length_cons,
        Nat.add_right_comm i, Nat.add_assoc i]

theorem positions_of_zero {b i : ℕ} {groups : List ℕ} (h : ∀ group ∈ groups, group = 0) :
    positions b i groups = [] := by
  induction groups generalizing i with
  | nil => rfl
  | cons group groups ih =>
      obtain ⟨rfl, hgroups⟩ := List.forall_mem_cons.mp h
      rw [positions, ih hgroups, List.append_nil, groupBits]
      simp

/-! ### Sums of powers of two -/

theorem sum_groupBits (b group : ℕ) : ((groupBits b group).map (2 ^ ·)).sum = group % 2 ^ b := by
  induction b with
  | zero => simp [groupBits, Nat.mod_one]
  | succ b ih =>
      rw [Nat.mod_pow_succ, ← ih, ← Nat.toNat_testBit, groupBits, List.range_succ,
        List.filter_append, List.map_append, List.sum_append, groupBits]
      cases hbit : group.testBit b <;> simp [hbit]

theorem sum_positions (b i : ℕ) (groups : List ℕ) : ((positions b i groups).map (2 ^ ·)).sum =
    2 ^ (b * i) * Nat.ofDigits (2 ^ b) (groups.map (· % 2 ^ b)) := by
  induction groups generalizing i with
  | nil => simp [positions]
  | cons group groups ih =>
      have hshift : ((groupBits b group).map (b * i + ·)).map (2 ^ ·) =
          ((groupBits b group).map (2 ^ ·)).map (2 ^ (b * i) * ·) := by
        rw [List.map_map, List.map_map]
        exact List.map_congr_left fun j _ => Nat.pow_add 2 (b * i) j
      rw [positions, List.map_append, List.sum_append, ih, hshift, List.sum_map_mul_left,
        List.map_id', sum_groupBits, List.map_cons, Nat.ofDigits_cons, Nat.mul_succ, Nat.pow_add,
        Nat.mul_add, Nat.mul_assoc]

theorem sum_map_eq_iff_of_le {α : Type} {f g : α → ℕ} {l : List α} (h : ∀ a ∈ l, f a ≤ g a) :
    (l.map f).sum = (l.map g).sum ↔ ∀ a ∈ l, f a = g a := by
  induction l with
  | nil => simp
  | cons a l ih =>
      obtain ⟨ha, hl⟩ := List.forall_mem_cons.mp h
      have hle : (l.map f).sum ≤ (l.map g).sum := List.sum_le_sum hl
      rw [List.forall_mem_cons, ← ih hl, List.map_cons, List.map_cons, List.sum_cons, List.sum_cons]
      omega

theorem ofDigits_mod_le (b : ℕ) (groups : List ℕ) :
    Nat.ofDigits (2 ^ b) (groups.map (· % 2 ^ b)) ≤ Nat.ofDigits (2 ^ b) groups ∧
      (Nat.ofDigits (2 ^ b) (groups.map (· % 2 ^ b)) = Nat.ofDigits (2 ^ b) groups ↔
        ∀ group ∈ groups, group < 2 ^ b) := by
  induction groups with
  | nil => simp
  | cons group groups ih =>
      obtain ⟨hle, hiff⟩ := ih
      have hpos := Nat.two_pow_pos b
      have hmul := Nat.mul_le_mul_left (2 ^ b) hle
      have hgroup := Nat.mod_le group (2 ^ b)
      have hscale := Nat.mul_right_inj (b := Nat.ofDigits (2 ^ b) (groups.map (· % 2 ^ b)))
        (c := Nat.ofDigits (2 ^ b) groups) hpos.ne'
      rw [List.map_cons, Nat.ofDigits_cons, Nat.ofDigits_cons, List.forall_mem_cons, ← hiff,
        ← Nat.mod_eq_iff_lt hpos.ne', ← hscale]
      exact ⟨Nat.add_le_add hgroup hmul, by omega⟩

/-- When the numbers are only kept modulo `m`, their powers of two still add up to what the groups stand
for exactly if no group has a bit beyond `b` and no number is beyond `m`. -/
theorem sum_mod_eq_iff {b m : ℕ} (hm : 0 < m) (groups : List ℕ) :
    ((positions b 0 groups).map fun p => 2 ^ (p % m)).sum = Nat.ofDigits (2 ^ b) groups ↔
      (∀ group ∈ groups, group < 2 ^ b) ∧ ∀ p ∈ positions b 0 groups, p < m := by
  have hterm : ∀ p ∈ positions b 0 groups, 2 ^ (p % m) ≤ 2 ^ p :=
    fun p _ => Nat.pow_le_pow_right Nat.two_pos (Nat.mod_le p m)
  have hwrap : ((positions b 0 groups).map fun p => 2 ^ (p % m)).sum ≤
      ((positions b 0 groups).map fun p => 2 ^ p).sum := List.sum_le_sum hterm
  have hsum : ((positions b 0 groups).map fun p => 2 ^ p).sum =
      Nat.ofDigits (2 ^ b) (groups.map (· % 2 ^ b)) := by
    rw [sum_positions, Nat.mul_zero, Nat.pow_zero, Nat.one_mul]
  obtain ⟨hle, hgroups⟩ := ofDigits_mod_le b groups
  rw [← hsum] at hle hgroups
  rw [← hgroups]
  constructor
  · intro heq
    have hpow := (sum_map_eq_iff_of_le hterm).mp (hwrap.antisymm (heq ▸ hle))
    refine ⟨hle.antisymm (heq ▸ hwrap), fun p hp => ?_⟩
    exact (Nat.mod_eq_iff_lt hm.ne').mp (Nat.pow_right_injective le_rfl (hpow p hp))
  · rintro ⟨hdigits, hlt⟩
    rw [← hdigits]
    exact (sum_map_eq_iff_of_le hterm).mpr fun p hp => by rw [Nat.mod_eq_of_lt (hlt p hp)]

/-! ### The groups of a set -/

def groupOf (b : ℕ) (s : Finset ℕ) (i : ℕ) : ℕ := Nat.ofBits fun j : Fin b => decide (b * i + j ∈ s)

theorem groupOf_testBit {b i j : ℕ} {s : Finset ℕ} (hj : j < b) :
    (groupOf b s i).testBit j = decide (b * i + j ∈ s) :=
  Nat.testBit_ofBits_lt _ j hj

theorem groupOf_lt {b i n : ℕ} {s : Finset ℕ} (hs : ∀ p ∈ s, p < b * i + n) : groupOf b s i < 2 ^ n := by
  refine Nat.lt_pow_two_of_testBit _ fun j hj => ?_
  by_cases hjb : j < b
  · rw [groupOf_testBit hjb, decide_eq_false_iff_not]
    intro hmem
    have := hs _ hmem
    omega
  · exact Nat.testBit_ofBits_ge _ j (Nat.not_lt.mp hjb)

theorem mem_positions_range {b k p : ℕ} {f : ℕ → ℕ} : p ∈ positions b 0 ((List.range k).map f) ↔
    ∃ i < k, ∃ j < b, (f i).testBit j ∧ p = b * i + j := by
  induction k with
  | zero => simp [positions]
  | succ k ih =>
      rw [List.range_succ, List.map_append, positions_append, List.mem_append, ih, List.map_singleton,
        mem_positions_cons, List.length_map, List.length_range, Nat.zero_add]
      constructor
      · rintro (⟨i, hi, hbit⟩ | hbit | hnil)
        · exact ⟨i, Nat.lt_succ_of_lt hi, hbit⟩
        · exact ⟨k, Nat.lt_succ_self k, hbit⟩
        · cases hnil
      · rintro ⟨i, hi, hbit⟩
        rcases Nat.lt_succ_iff_lt_or_eq.mp hi with hi | rfl
        · exact Or.inl ⟨i, hi, hbit⟩
        · exact Or.inr (Or.inl hbit)

/-- The groups of a set, followed by any number of empty ones, hold its numbers. -/
theorem positions_groupOf {b k : ℕ} {s : Finset ℕ} (hs : ∀ p ∈ s, p < b * k) {zeros : List ℕ}
    (hzeros : ∀ group ∈ zeros, group = 0) :
    positions b 0 ((List.range k).map (groupOf b s) ++ zeros) = s.sort := by
  rw [positions_append, positions_of_zero hzeros, List.append_nil]
  have hmem (p : ℕ) : p ∈ positions b 0 ((List.range k).map (groupOf b s)) ↔ p ∈ s.sort := by
    rw [mem_positions_range, Finset.mem_sort]
    constructor
    · rintro ⟨i, _, j, hj, hbit, rfl⟩
      rw [groupOf_testBit hj, decide_eq_true_eq] at hbit
      exact hbit
    · intro hp
      have hlt := hs p hp
      have hb : 0 < b := Nat.pos_of_mul_pos_right (Nat.lt_of_le_of_lt (Nat.zero_le p) hlt)
      refine ⟨p / b, Nat.div_lt_of_lt_mul hlt, p % b, Nat.mod_lt p hb, ?_, (Nat.div_add_mod p b).symm⟩
      rwa [groupOf_testBit (Nat.mod_lt p hb), Nat.div_add_mod, decide_eq_true_eq]
  have hsorted := positions_sorted b 0 ((List.range k).map (groupOf b s))
  have hperm := (List.perm_ext_iff_of_nodup (hsorted.imp Nat.ne_of_lt) (s.sort_nodup _)).mpr hmem
  exact hperm.eq_of_pairwise (fun p q _ _ => Nat.le_antisymm) (hsorted.imp Nat.le_of_lt)
    (s.pairwise_sort _)

end BitGroups
