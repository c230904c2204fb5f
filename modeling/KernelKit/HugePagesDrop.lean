import KernelKit.HugePagesEffects
import KernelKit.HugePagesRelease
import KernelKit.HugePageVec

/-!
# Dropping a vector whose destructors may unwind

Both backings drop their elements and then give their memory back. A `Vec` frees its buffer also when a
destructor unwinds; the drop of a huge page allocation does not come to its `munmap` then, and the
mapping stays.
-/

namespace KernelKit
open Interaction

variable {σ T : Type} {elem : ElemType} {E : Env σ (MemOp T) MemOp.Ans} {s s' : σ}
  {tr : List (Call σ (MemOp T) MemOp.Ans)} {r : Except Exit Unit}

/-- The drop glue of the vector. -/
def HugePageVec.drop (elem : ElemType) (vec : HugePageVec T) : MemProg T Unit :=
  match vec.backing with
  | .standard values => values.drop elem
  | .huge allocation => allocation.drop elem

/-! ### The standard backing -/

def RustVec.buffer (elem : ElemType) (vec : RustVec T) : List ℕ :=
  if vec.capacity > 0 ∧ elem.size > 0 then [vec.ptr] else []

theorem runs_free {vec : RustVec T} (h : E.Runs (vec.free elem) s tr r s') :
    r = .ok () ∧ effects tr = { freed := vec.buffer elem } := by
  unfold RustVec.free at h
  rw [RustVec.buffer]
  split_ifs at h ⊢ with hbuffer
  · obtain ⟨_, answer, _, _, _, _, hrest, rfl⟩ := Env.runs_ask_iff.mp h
    obtain ⟨rfl, rfl, _⟩ := Env.runs_ret_iff.mp hrest
    exact ⟨rfl, rfl⟩
  · obtain ⟨rfl, rfl, _⟩ := Env.runs_ret_iff.mp h
    exact ⟨rfl, rfl⟩

theorem runs_free_fail {vec : RustVec T} {exit : Exit}
    (h : E.Runs (do
      vec.free elem
      .fail exit) s tr r s') : effects tr = { freed := vec.buffer elem } := by
  rcases Env.runs_bind_iff.mp h with ⟨_, rfl, hfree⟩ | ⟨_, s₁, t₁, t₂, hfree, hend, rfl⟩
  · obtain ⟨⟨⟩, _⟩ := runs_free hfree
  · obtain ⟨rfl, _, _⟩ := Env.runs_fail_iff.mp hend
    rw [List.append_nil]
    exact (runs_free hfree).2

/-- If at most one destructor unwinds, a `Vec` drops each element once and frees its buffer once. -/
theorem runs_vec_drop {vec : RustVec T} (h : E.Runs (vec.drop elem) s tr r s')
    (hunwound : (effects tr).unwound.length ≤ 1) :
    (effects tr).dropped = slots elem vec.ptr 0 vec.len ∧ (effects tr).freed = vec.buffer elem := by
  rcases Env.runs_bind_iff.mp h with ⟨_, rfl, hdrop⟩ | ⟨dropped, s₁, t₁, t₂, hdrop, hfree, rfl⟩
  · obtain ⟨_, ⟨⟩, _⟩ := Env.runs_attempt_iff.mp hdrop
  obtain ⟨_, hdropped, hdrop⟩ := Env.runs_attempt_iff.mp hdrop
  cases hdropped
  obtain ⟨places, unwound, heffects, hends⟩ := runs_dropElements_ends hdrop
  rw [effects_append, heffects] at hunwound ⊢
  have hfreed : places = slots elem vec.ptr 0 vec.len ∧ effects t₂ = { freed := vec.buffer elem } := by
    rcases hends with ⟨rfl, _, hplaces⟩ | ⟨rfl, _, hplaces⟩ | ⟨rfl, htwo⟩
    · exact ⟨hplaces, (runs_free hfree).2⟩
    · exact ⟨hplaces, runs_free_fail hfree⟩
    · obtain ⟨rfl, _, _⟩ := Env.runs_fail_iff.mp hfree
      rw [effects_nil, Effects.append_empty] at hunwound
      rw [Bool.toNat_false, Nat.zero_add] at htwo
      exact absurd (htwo.symm.trans_le hunwound) (by decide)
  obtain ⟨rfl, hbuffer⟩ := hfreed
  rw [hbuffer]
  exact ⟨List.append_nil _, rfl⟩

/-! ### The huge page backing -/

/-- Each element is dropped once, and `munmap` is called once, for the mapping. -/
def ReleasesAll (elem : ElemType) (allocation : HugeAllocation)
    (tr : List (Call σ (MemOp T) MemOp.Ans)) : Prop :=
  (effects tr).dropped = slots elem allocation.ptr 0 allocation.count ∧
    (effects tr).unmapped = [(allocation.ptr, allocation.mapLen)]

/-- A vector on huge pages releases everything it has exactly if no destructor unwinds. -/
theorem hugePageVec_drop_releasesAll_iff (elem : ElemType) (allocation : HugeAllocation)
    (E : Env σ (MemOp T) MemOp.Ans) (s s' : σ) (tr : List (Call σ (MemOp T) MemOp.Ans))
    (r : Except Exit Unit)
    (h : E.Runs (HugePageVec.drop elem ⟨.huge allocation⟩) s tr r s') :
    ReleasesAll elem allocation tr ↔ (effects tr).unwound = [] := by
  rcases runs_allocation_drop h with ⟨_, heffects⟩ | ⟨hunmapped, hunwound, _⟩
  · rw [ReleasesAll, heffects]
    exact iff_of_true ⟨rfl, rfl⟩ rfl
  · refine iff_of_false ?_ hunwound
    rintro ⟨_, hone⟩
    rw [hunmapped] at hone
    cases hone

/-- A byte whose destructor returns is dropped, and `munmap` called for its page. -/
theorem hugePageVec_drop_releasesAll_iff_byte : ∃ tr space', (memEnv (hugeHost 21) UInt8).Runs
    (HugePageVec.drop byteType ⟨.huge ⟨2 ^ 21, 1, hugepageBytes⟩⟩) (onePage 21 (2 ^ 21)) tr (.ok ())
      space' ∧ ReleasesAll byteType ⟨2 ^ 21, 1, hugepageBytes⟩ tr := by
  have hrun : (memEnv (hugeHost 21) UInt8).Runs
      (HugePageVec.drop byteType ⟨.huge ⟨2 ^ 21, 1, hugepageBytes⟩⟩) (onePage 21 (2 ^ 21))
      [⟨onePage 21 (2 ^ 21), .dropInPlace (2 ^ 21), false⟩,
        ⟨onePage 21 (2 ^ 21), .munmap (2 ^ 21) hugepageBytes, .ok ()⟩]
      (.ok ()) ((onePage 21 (2 ^ 21)).fill (2 ^ 21) hugepageBytes none) :=
    .ask .refl rfl (.ask .refl munmap_onePage (.ret () _))
  exact ⟨_, _, hrun, (hugePageVec_drop_releasesAll_iff _ _ _ _ _ _ _ hrun).mpr rfl⟩

/-- One element, and its destructor unwinds: `munmap` is not called. -/
theorem not_hugePageVec_drop_releasesAll :
    ¬ ∀ (T : Type) (elem : ElemType) (allocation : HugeAllocation) (space space' : AddressSpace)
      (tr : List (MemCall T)) (r : Except Exit Unit),
      (memEnv (hugeHost 21) T).Runs (HugePageVec.drop elem ⟨.huge allocation⟩) space tr r space' →
        (effects tr).unwound.length ≤ 1 → ReleasesAll elem allocation tr := by
  intro hclaim
  have hrun : (memEnv (hugeHost 21) UInt8).Runs
      (HugePageVec.drop byteType ⟨.huge ⟨2 ^ 21, 1, hugepageBytes⟩⟩) (onePage 21 (2 ^ 21))
      [⟨onePage 21 (2 ^ 21), .dropInPlace (2 ^ 21), true⟩] (.error .panicked) (onePage 21 (2 ^ 21)) :=
    .ask .refl rfl (.fail _ _)
  obtain ⟨_, hunmapped⟩ := hclaim _ _ _ _ _ _ _ hrun (by decide)
  cases hunmapped

end KernelKit
