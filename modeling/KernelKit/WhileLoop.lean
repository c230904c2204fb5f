import Mathlib.Data.List.Iterate

/-!
# While loops

`states` lists the states in which the body of a loop starts that goes down by a measure. `turns` runs a
loop for at most so many turns: it ends within any number of turns from that of the states on, and within
no smaller one.
-/

namespace WhileLoop

def turns {α : Type*} (test : α → Prop) [DecidablePred test] (next : α → α) :
    ℕ → α → Option (List α)
  | 0, s => if test s then none else some []
  | fuel + 1, s => if test s then (turns test next fuel (next s)).map (s :: ·) else some []

def states {α : Type*} (test : α → Prop) [DecidablePred test] (next : α → α) (measure : α → ℕ)
    (hdown : ∀ s, test s → measure (next s) < measure s) (s : α) : List α :=
  if _h : test s then s :: states test next measure hdown (next s) else []
termination_by measure s
decreasing_by exact hdown s _h

theorem turns_eq_states {α : Type*} (test : α → Prop) [DecidablePred test] (next : α → α)
    (measure : α → ℕ) (hdown : ∀ s, test s → measure (next s) < measure s) (fuel : ℕ) (s : α) :
    turns test next fuel s =
    if (states test next measure hdown s).length ≤ fuel then some (states test next measure hdown s)
    else none := by
  induction fuel generalizing s with
  | zero =>
      rw [turns, states]
      by_cases htest : test s
      · rw [if_pos htest, dif_pos htest]
        rfl
      · rw [if_neg htest, dif_neg htest]
        rfl
  | succ fuel ih =>
      rw [turns, states]
      by_cases htest : test s
      · rw [if_pos htest, dif_pos htest, ih, List.length_cons]
        simp only [Nat.succ_le_succ_iff]
        split_ifs <;> rfl
      · rw [if_neg htest, dif_neg htest]
        rfl

variable {α : Type*} {test : α → Prop} {next : α → α} {n : ℕ} {s : α}

/-- The test passes in the first `n` states and fails in the one after them. -/
structure EndsAfter (test : α → Prop) (next : α → α) (n : ℕ) (s : α) : Prop where
  passes : ∀ i < n, test (next^[i] s)
  fails : ¬ test (next^[n] s)

theorem EndsAfter.succ (h : EndsAfter test next (n + 1) s) : EndsAfter test next n (next s) :=
  ⟨fun i hi => h.passes (i + 1) (Nat.succ_lt_succ hi), h.fails⟩

theorem EndsAfter.states_eq [DecidablePred test] {measure : α → ℕ}
    {hdown : ∀ s, test s → measure (next s) < measure s} (h : EndsAfter test next n s) :
    states test next measure hdown s = List.iterate next s n := by
  induction n generalizing s with
  | zero =>
      have htest : ¬ test s := h.fails
      rw [states, dif_neg htest, List.iterate]
  | succ n ih =>
      have htest : test s := h.passes 0 (Nat.succ_pos n)
      rw [states, dif_pos htest, ih h.succ, List.iterate]

end WhileLoop
