import Mathlib.Algebra.Order.Group.Multiset

/-!
# What the calls of a run add up to

`tally f tr` collects, with multiplicity and without order, what `f` reads off the entries of a trace.
Ledgers of acquired and released resources are tallies, and a run's tally is the sum of its parts'.
-/

namespace Interaction

variable {α β : Type} {f : α → Option β} {a : α} {b : β} {tr tr' : List α}

def tally (f : α → Option β) (tr : List α) : Multiset β := tr.filterMap f

@[simp] theorem tally_nil : tally f [] = 0 := rfl

@[simp] theorem tally_append : tally f (tr ++ tr') = tally f tr + tally f tr' := by
  rw [tally, List.filterMap_append, ← Multiset.coe_add]
  rfl

theorem tally_cons_of_some (h : f a = some b) : tally f (a :: tr) = b ::ₘ tally f tr := by
  rw [tally, List.filterMap_cons_some h]
  rfl

theorem mem_tally : b ∈ tally f tr ↔ ∃ a ∈ tr, f a = some b := by
  rw [tally, Multiset.mem_coe, List.mem_filterMap]

end Interaction
