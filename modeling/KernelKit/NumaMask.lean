import KernelKit.Numa
import Mathlib.Data.Finset.Basic
import Mathlib.Data.Finset.Range
import Mathlib.Data.Nat.Bitwise

/-!
# What the kernel decodes from a node mask

The kernel counts `maxnode` one lower than its callers do, so a mask reaches node `n` only with a
`maxnode` of at least `n + 2`. `nodemaskForNode` passes one less, and the decoded set is empty.
-/

namespace KernelKit.Numa
open Interaction

def wordsRead (w : Width) (maxnode : ℕ) : ℕ := (maxnode - 1 + w.bits - 1) / w.bits

/-- The nodes `get_nodes` decodes: the bits of the words copied, up to bit `maxnode - 2`. -/
def decodedNodes (w : Width) (nodemask : List ℕ) (maxnode : ℕ) : Finset ℕ :=
  (Finset.range (maxnode - 1)).filter fun n => (nodemask.getD (n / w.bits) 0).testBit (n % w.bits)

/-- The pair stands for exactly `node`, and the kernel stays within the buffer. -/
def Denotes (w : Width) (nodemask : List ℕ) (maxnode node : ℕ) : Prop :=
  decodedNodes w nodemask maxnode = {node} ∧ wordsRead w maxnode ≤ nodemask.length

instance (w : Width) (nodemask : List ℕ) (maxnode node : ℕ) :
    Decidable (Denotes w nodemask maxnode node) :=
  inferInstanceAs (Decidable (_ ∧ _))

variable {w : Width} {node : UInt32}

theorem length_nodemask : (nodemaskForNode w node).1.length = node.toNat / w.bits + 1 := by
  simp [nodemaskForNode]

theorem testBit_nodemask (n : ℕ) :
    ((nodemaskForNode w node).1.getD (n / w.bits) 0).testBit (n % w.bits) = true ↔
      n = node.toNat := by
  have hbits := w.bits_pos
  have hlt : node.toNat % w.bits < w.bits := Nat.mod_lt _ hbits
  have hpow : (1 <<< (node.toNat % w.bits)) % 2 ^ w.bits = 2 ^ (node.toNat % w.bits) := by
    rw [Nat.shiftLeft_eq, Nat.one_mul, Nat.mod_eq_of_lt (Nat.pow_lt_pow_right (by decide) hlt)]
  rw [nodemaskForNode]
  dsimp only
  rw [hpow]
  by_cases hword : n / w.bits = node.toNat / w.bits
  · rw [hword, List.getD_eq_getElem _ _ (by simp), List.getElem_set_self, Nat.testBit_two_pow,
      decide_eq_true_eq]
    constructor
    · intro hmod
      rw [← Nat.div_add_mod n w.bits, ← Nat.div_add_mod node.toNat w.bits, hword, hmod]
    · rintro rfl
      rfl
  · have hzero : ((List.replicate (node.toNat / w.bits + 1) 0).set (node.toNat / w.bits)
        (2 ^ (node.toNat % w.bits))).getD (n / w.bits) 0 = 0 := by
      rw [List.getD_eq_getElem?_getD, List.getElem?_set_ne (Ne.symm hword),
        List.getElem?_replicate]
      split_ifs <;> rfl
    rw [hzero, Nat.zero_testBit]
    constructor
    · rintro ⟨⟩
    · rintro rfl
      exact absurd rfl hword

/-- The mask reaches its node exactly with a `maxnode` above `node + 1`. -/
theorem decodedNodes_nodemask (maxnode : ℕ) :
    decodedNodes w (nodemaskForNode w node).1 maxnode =
      if node.toNat + 1 < maxnode then {node.toNat} else ∅ := by
  ext n
  rw [decodedNodes, Finset.mem_filter, Finset.mem_range, testBit_nodemask]
  split_ifs with hmax
  · rw [Finset.mem_singleton]
    constructor
    · exact And.right
    · rintro rfl
      exact ⟨by omega, rfl⟩
  · constructor
    · rintro ⟨hlt, rfl⟩
      omega
    · intro hmem
      exact absurd hmem (Finset.notMem_empty n)

/-- With the `maxnode` passed along the kernel stays within the mask. -/
theorem wordsRead_nodemask :
    wordsRead w (nodemaskForNode w node).2 ≤ (nodemaskForNode w node).1.length := by
  rw [length_nodemask, wordsRead]
  have hbits := w.bits_pos
  calc (node.toNat + 1 - 1 + w.bits - 1) / w.bits ≤ (node.toNat + w.bits) / w.bits :=
        Nat.div_le_div_right (by omega)
    _ = node.toNat / w.bits + 1 := Nat.add_div_right _ hbits

/-! ### What `bindMemoryToNode` passes -/

variable {T σ : Type} {E : Env σ (MemOp T) MemOp.Ans} {s s' : σ}
  {tr : List (Call σ (MemOp T) MemOp.Ans)} {r : Except Exit Unit} {env : NumaEnv}

theorem runs_bindMemoryToNode {ptr len : ℕ} (hnode : validateNode w env node = .ok ())
    (h : E.Runs (bindMemoryToNode w env ptr len node) s tr r s') :
    ∃ s₁ answer, tr = [⟨s₁, .mbind ptr len mpolBind (nodemaskForNode w node).1
      (nodemaskForNode w node).2 mpolMfMove, answer⟩] := by
  rw [bindMemoryToNode, hnode] at h
  obtain ⟨s₁, x, s₂, tr', _, _, hrest, rfl⟩ := Env.runs_ask_iff.mp h
  have hnil : tr' = [] := by
    cases x with
    | ok _ => exact (Env.runs_ret_iff.mp hrest).1
    | error source => exact (runs_throw_iff.mp hrest).1
  subst hnil
  exact ⟨s₁, x, rfl⟩

/-- Whatever node is accepted and bound to, the kernel decodes no node from the pair it is passed. -/
theorem bindMemoryToNode_never_denotes (w : Width) (env : NumaEnv) (ptr len : ℕ) (node : UInt32)
    (hnode : validateNode w env node = .ok ())
    (h : E.Runs (bindMemoryToNode w env ptr len node) s tr r s') :
    ∃ s₁ nodemask maxnode answer,
      tr = [⟨s₁, .mbind ptr len mpolBind nodemask maxnode mpolMfMove, answer⟩] ∧
      decodedNodes w nodemask maxnode = ∅ ∧ wordsRead w maxnode ≤ nodemask.length ∧
      ¬ Denotes w nodemask maxnode node.toNat := by
  obtain ⟨s₁, answer, rfl⟩ := runs_bindMemoryToNode hnode h
  have hempty : decodedNodes w (nodemaskForNode w node).1 (nodemaskForNode w node).2 = ∅ := by
    rw [decodedNodes_nodemask]
    exact if_neg (Nat.lt_irrefl _)
  refine ⟨s₁, _, _, answer, rfl, hempty, wordsRead_nodemask, ?_⟩
  rintro ⟨hnode, _⟩
  rw [hempty] at hnode
  exact Finset.singleton_ne_empty _ hnode.symm

def bareEnv : NumaEnv := ⟨fun _ => none, none, none⟩

theorem runs_bindMemoryToNode_bare :
    (memEnv (hugeHost 21) Unit).Runs (bindMemoryToNode .w64 bareEnv 4096 4096 0) (fun _ => none)
      [⟨fun _ => none, .mbind 4096 4096 mpolBind [1] 1 mpolMfMove, .error (.os 22)⟩]
      (.error (.err (.system "mbind" (.os 22)))) fun _ => none :=
  .ask .refl rfl (.fail _ _)

theorem bindMemoryToNode_never_denotes_bare :
    ∃ s₁ nodemask maxnode answer r s',
      (memEnv (hugeHost 21) Unit).Runs (bindMemoryToNode .w64 bareEnv 4096 4096 0) (fun _ => none)
        [⟨s₁, .mbind 4096 4096 mpolBind nodemask maxnode mpolMfMove, answer⟩] r s' ∧
      decodedNodes .w64 nodemask maxnode = ∅ := by
  have hrun := runs_bindMemoryToNode_bare
  obtain ⟨s₁, nodemask, maxnode, answer, htr, hempty, _⟩ :=
    bindMemoryToNode_never_denotes .w64 bareEnv 4096 4096 0 rfl hrun
  rw [htr] at hrun
  exact ⟨s₁, nodemask, maxnode, answer, _, _, hrun, hempty⟩

theorem not_bindMemoryToNode_denotes :
    ¬ ∀ (host : Host) w env ptr len node s tr r s', validateNode w env node = .ok () →
      (memEnv host Unit).Runs (bindMemoryToNode w env ptr len node) s tr r s' →
      ∀ s₁ nodemask maxnode answer,
        ⟨s₁, .mbind ptr len mpolBind nodemask maxnode mpolMfMove, answer⟩ ∈ tr →
        Denotes w nodemask maxnode node.toNat := by
  intro hclaim
  have hdenotes := hclaim _ _ _ _ _ _ _ _ _ _ rfl runs_bindMemoryToNode_bare _ _ _ _
    (List.mem_singleton.mpr rfl)
  revert hdenotes
  decide

end KernelKit.Numa
