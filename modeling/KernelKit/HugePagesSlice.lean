import KernelKit.HugePagesInit

/-!
# What a slice over a huge page allocation rests on

A slice needs an address that is not null and is aligned, initialized elements inside one allocation,
and a size of at most `isize::MAX`. `HugeAllocation.new` sees to all of these but the last, which a `Vec`
checks when it asks for its buffer.
-/

namespace KernelKit
open Interaction

variable {σ T : Type} {w : Width} {elem : ElemType} {count index remaining : ℕ}
  {E : Env σ (MemOp T) MemOp.Ans} {s s' : σ} {tr : List (Call σ (MemOp T) MemOp.Ans)}

/-- The preconditions of `slice::from_raw_parts` for the elements of an allocation, after the run that
made it: the elements were written and not dropped, and lie in a range that is mapped. -/
structure SliceValid (w : Width) (elem : ElemType) (tr : List (Call σ (MemOp T) MemOp.Ans))
    (allocation : HugeAllocation) : Prop where
  nonNull : allocation.ptr ≠ 0
  aligned : elem.align ∣ allocation.ptr
  initialized : (effects tr).written = slots elem allocation.ptr 0 allocation.count ∧
    (effects tr).dropped = []
  inside : ∃ addr len, (effects tr).mapped = [(addr, len)] ∧ (effects tr).unmapped = [] ∧
    addr ≤ allocation.ptr ∧ allocation.ptr + allocation.count * elem.size ≤ addr + len
  size_le : allocation.count * elem.size ≤ w.isizeMax

/-- What `HugeAllocation.new` has checked of an allocation it returns. -/
theorem runs_new_some {allocation : HugeAllocation}
    (h : E.Runs (HugeAllocation.new w elem count) s tr (.ok (some allocation)) s') :
    allocation.count = count ∧ allocation.ptr ≠ 0 ∧ elem.align ∣ allocation.ptr ∧
      count * elem.size ≤ allocation.mapLen ∧ effects tr =
        { mapped := [(allocation.ptr, allocation.mapLen)]
          written := slots elem allocation.ptr 0 count } := by
  obtain ⟨hcount, hptr, halign, hmapLen, s₁, s₂, tr', _, _, rfl, hloop⟩ := runs_new_ok h
  obtain ⟨_, heffects⟩ | ⟨⟨⟩, _⟩ | ⟨⟨⟩, _⟩ := runs_initElements_ends rfl hloop
  refine ⟨hcount, hptr, halign, hmapLen ▸ le_roundUp (by decide), ?_⟩
  rw [effects_cons, heffects]
  rfl

/-- The slices of an allocation are valid exactly if its elements take up at most `isize::MAX` bytes. -/
theorem hugeAllocation_new_sliceValid_iff (w : Width) (elem : ElemType) (count : ℕ)
    (E : Env σ (MemOp T) MemOp.Ans) (s s' : σ) (tr : List (Call σ (MemOp T) MemOp.Ans))
    (allocation : HugeAllocation)
    (h : E.Runs (HugeAllocation.new w elem count) s tr (.ok (some allocation)) s') :
    SliceValid w elem tr allocation ↔ count * elem.size ≤ w.isizeMax := by
  obtain ⟨rfl, hptr, halign, hlen, heffects⟩ := runs_new_some h
  constructor
  · exact SliceValid.size_le
  · intro hsize
    refine ⟨hptr, halign, ?_, ⟨allocation.ptr, allocation.mapLen, ?_⟩, hsize⟩
    · rw [heffects]
      exact ⟨rfl, rfl⟩
    · rw [heffects]
      exact ⟨rfl, rfl, le_rfl, Nat.add_le_add_left hlen _⟩

/-- The loop runs through if every `T::default` returns. -/
theorem exists_runs_initElements (value : T) (hmake : E.serve .makeDefault s (some value) s)
    (hwrite : ∀ addr, E.serve (.write addr value) s () s) (guard : InitGuard) :
    ∃ tr, E.Runs (initElements elem guard index remaining) s tr (.ok ()) s := by
  induction remaining generalizing guard index with
  | zero => exact ⟨[], .ret () s⟩
  | succ remaining ih =>
      obtain ⟨tr, hloop⟩ := ih { guard with initialized := guard.initialized + 1 }
      exact ⟨_, .ask .refl hmake (.ask .refl (hwrite _) hloop)⟩

def host32 : Host := { hugeHost 21 with width := .w32 }

def hugeRange (len : ℕ) : AddressSpace :=
  AddressSpace.fill (fun _ => none) (2 ^ 21) (roundUp len (2 ^ 21)) (some .huge)

theorem exists_runs_new_bytes (len : ℕ) (hpos : len ≠ 0) (hlen : checkedLen .w32 byteType len = .ok len)
    (hround : alignUp .w32 len hugepageBytes = some len)
    (hfits : 2 ^ 21 + roundUp len (2 ^ 21) ≤ 2 ^ 32) :
    ∃ tr, (memEnv host32 UInt8).Runs (HugeAllocation.new .w32 byteType len) (fun _ => none) tr
      (.ok (some ⟨2 ^ 21, len, len⟩)) (hugeRange len) := by
  have hmmap : (memEnv host32 UInt8).serve (.mmap len true) (fun _ => none) (.ok (2 ^ 21))
      (hugeRange len) :=
    ⟨Nat.dvd_refl _, hfits, fun _ _ _ => rfl, rfl⟩
  have hloop : ∃ tr, (memEnv host32 UInt8).Runs (initElements byteType ⟨2 ^ 21, len, 0⟩ 0 len)
      (hugeRange len) tr (.ok ()) (hugeRange len) :=
    exists_runs_initElements 0 rfl (fun _ => rfl) _
  obtain ⟨tr, hinit⟩ := hloop
  exact ⟨_, runs_new_of_init .w32 (not_or.mpr ⟨hpos, by decide⟩) hlen hround hmmap (by decide)
    (by decide) hinit⟩

/-- The slice over one huge page of bytes is valid. -/
theorem hugeAllocation_new_sliceValid_iff_page : ∃ tr, (memEnv host32 UInt8).Runs
    (HugeAllocation.new .w32 byteType (2 ^ 21)) (fun _ => none) tr
      (.ok (some ⟨2 ^ 21, 2 ^ 21, 2 ^ 21⟩)) (hugeRange (2 ^ 21)) ∧
    SliceValid .w32 byteType tr ⟨2 ^ 21, 2 ^ 21, 2 ^ 21⟩ := by
  obtain ⟨tr, hrun⟩ := exists_runs_new_bytes (2 ^ 21) (by decide) (by decide) (by decide)
    (by decide)
  exact ⟨tr, hrun, (hugeAllocation_new_sliceValid_iff .w32 byteType (2 ^ 21) _ _ _ _ _ hrun).mpr (by decide)⟩

/-- Half of a 32-bit address space is more than a slice may have. -/
theorem not_hugeAllocation_new_sliceValid :
    ¬ ∀ (T : Type) (elem : ElemType) (count : ℕ) (space space' : AddressSpace) (tr : List (MemCall T))
      (allocation : HugeAllocation),
      (memEnv host32 T).Runs (HugeAllocation.new .w32 elem count) space tr (.ok (some allocation))
        space' → SliceValid .w32 elem tr allocation := by
  intro hclaim
  obtain ⟨tr, hrun⟩ := exists_runs_new_bytes (2 ^ 31) (by decide) (by decide) (by decide)
    (by decide)
  have hsize := (hclaim _ _ _ _ _ _ _ hrun).size_le
  revert hsize
  decide

end KernelKit
