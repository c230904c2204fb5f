import KernelKit.HugePageVec
import KernelKit.MmapBlock
import KernelKit.NumaPlacement

/-!
# Where page-granular requests start

`madvise`, `mbind` and the migration of libnuma work on whole pages. What `mmap` returns starts on a page,
and a block hands out nothing else; the vectors hand out the buffer the allocator gave them, which is
aligned for the element type only.
-/

namespace KernelKit
open Interaction Numa

variable {σ T : Type}

/-- The start of the range of a page-granular request. -/
def requestStart : MemOp T → Option ℕ
  | .madviseHugepage addr _ | .mbind addr _ _ _ _ _ | .tonodeMemory addr _ _ => some addr
  | _ => none

def StartsAligned (pageSize : ℕ) (tr : List (Call σ (MemOp T) MemOp.Ans)) : Prop :=
  ∀ c ∈ tr, ∀ addr ∈ requestStart c.op, pageSize ∣ addr

/-- The allocator's answers in the run are multiples of the page size. -/
def BuffersAligned (pageSize : ℕ) (tr : List (Call σ (MemOp T) MemOp.Ans)) : Prop :=
  ∀ addr ∈ buffers tr, pageSize ∣ addr

variable {E : Env σ (MemOp T) MemOp.Ans} {s s' : σ} {tr tr' : List (Call σ (MemOp T) MemOp.Ans)}
  {room : Room} {w : Width} {elem : ElemType} {count pageSize : ℕ}

theorem startsAligned_append :
    StartsAligned pageSize (tr ++ tr') ↔ StartsAligned pageSize tr ∧ StartsAligned pageSize tr' :=
  List.forall_mem_append

theorem startsAligned_of_none (h : ∀ c ∈ tr, requestStart c.op = none) : StartsAligned pageSize tr := by
  intro c hc addr haddr
  rw [h c hc] at haddr
  cases haddr

theorem startsAligned_cons_of_none {c : Call σ (MemOp T) MemOp.Ans} (h : requestStart c.op = none) :
    StartsAligned pageSize (c :: tr) ↔ StartsAligned pageSize tr := by
  rw [StartsAligned, List.forall_mem_cons, h]
  exact and_iff_right (by rintro _ ⟨⟩)

theorem startsAligned_singleton {c : Call σ (MemOp T) MemOp.Ans} {addr : ℕ}
    (h : requestStart c.op = some addr) : StartsAligned pageSize [c] ↔ pageSize ∣ addr := by
  rw [StartsAligned, List.forall_mem_singleton, h]
  simp

theorem MemOp.OfDrop.requestStart_eq {op : MemOp T} (h : op.OfDrop) : requestStart op = none := by
  cases op with
  | dealloc | dropInPlace => rfl
  | _ => exact h.elim

theorem filled_requestStart {refused : TryReserveError → Exit} :
    (RustVec.filled room refused w elem count : MemProg T _).Only fun op => requestStart op = none := by
  refine RustVec.filled_only (fun op hop => ?_) fun op hop => ?_
  · cases op with
    | tryReserve => rfl
    | _ => exact hop.elim
  · cases op with
    | dealloc | makeDefault | dropInPlace => rfl
    | _ => exact hop.elim

theorem hugeAllocation_only : (HugeAllocation.new w elem count : MemProg T _).Only
    fun op => requestStart op = none ∧ ¬ IsReserve op := by
  refine HugeAllocation.new_only (fun len => ⟨rfl, id⟩) fun op hop => ?_
  cases op with
  | munmap | lastOsError | makeDefault | write | dropInPlace => exact ⟨rfl, id⟩
  | _ => exact hop.elim

/-! ### Vectors -/

theorem runs_adviseThp {values : RustVec T} {r : Except Exit Unit} (hlen : values.len ≠ 0)
    (h : E.Runs (adviseThp elem values) s tr r s') :
    (StartsAligned pageSize tr ↔ pageSize ∣ values.ptr) ∧ buffers tr = [] ∧ defaults tr = [] := by
  unfold adviseThp at h
  rw [if_neg hlen] at h
  obtain ⟨s₁, answer, s₂, tr', _, _, hend, rfl⟩ := Env.runs_ask_iff.mp h
  obtain ⟨rfl, _, _⟩ := Env.runs_ret_iff.mp hend
  exact ⟨startsAligned_singleton rfl, rfl, rfl⟩

/-- Where no vector was filled, and no `T::default` unwound, the allocator had handed out nothing. -/
theorem buffersAligned_of_filled_error {refused : TryReserveError → Exit} {exit : Exit}
    (hcount : count ≠ 0) (hsize : elem.size ≠ 0)
    (h : E.Runs (RustVec.filled room refused w elem count) s tr (.error exit) s')
    (hnone : none ∉ defaults tr) : BuffersAligned pageSize tr := by
  obtain ⟨_, hbuffers | hmem⟩ | ⟨_, ⟨⟩, _⟩ := runs_filled_buffer hcount hsize h
  · rw [BuffersAligned, hbuffers]
    exact List.forall_mem_nil _
  · exact absurd hmem hnone

theorem runs_newStandard_aligned {refused : TryReserveError → Exit} {r : Except Exit (HugePageVec T)}
    (hcount : count ≠ 0) (hsize : elem.size ≠ 0)
    (h : E.Runs (HugePageVec.newStandard room refused w elem count) s tr r s') :
    StartsAligned pageSize tr ↔ (none ∉ defaults tr → BuffersAligned pageSize tr) := by
  rcases Env.runs_bind_iff.mp h with ⟨_, rfl, hfill⟩ | ⟨values, s₁, t₁, t₂, hfill, hhint, rfl⟩
  · exact iff_of_true (startsAligned_of_none (hfill.ops_only filled_requestStart))
      (buffersAligned_of_filled_error hcount hsize hfill)
  obtain ⟨⟨_, ⟨⟩⟩, _⟩ | ⟨_, ⟨⟩, hbuffers, hdefaults⟩ := runs_filled_buffer hcount hsize hfill
  have hlen : values.len ≠ 0 := (runs_filled hfill).2 ▸ hcount
  have hstarts : StartsAligned pageSize t₁ := startsAligned_of_none (hfill.ops_only filled_requestStart)
  have hadvised : (StartsAligned pageSize t₂ ↔ pageSize ∣ values.ptr) ∧ buffers t₂ = [] ∧
      defaults t₂ = [] := by
    rcases Env.runs_bind_iff.mp hhint with ⟨_, _, hadvise⟩ | ⟨_, _, t₃, t₄, hadvise, hend, rfl⟩
    · exact runs_adviseThp hlen hadvise
    · obtain ⟨rfl, _, _⟩ := Env.runs_ret_iff.mp hend
      rw [List.append_nil]
      exact runs_adviseThp hlen hadvise
  obtain ⟨hstart, hbuffers', hdefaults'⟩ := hadvised
  rw [startsAligned_append, and_iff_right hstarts, hstart, BuffersAligned, buffers_append, hbuffers,
    hbuffers', defaults_append, hdefaults', List.append_nil, List.append_nil, imp_iff_right hdefaults,
    List.forall_mem_singleton]

theorem runs_newWith_aligned {refused : TryReserveError → Exit} {r : Except Exit (HugePageVec T)}
    (hcount : count ≠ 0) (hsize : elem.size ≠ 0)
    (h : E.Runs (HugePageVec.newWith room refused w elem count) s tr r s') :
    StartsAligned pageSize tr ↔ (none ∉ defaults tr → BuffersAligned pageSize tr) := by
  have hhuge : ∀ {t : List (Call σ (MemOp T) MemOp.Ans)} {s₁ : σ}
      {r : Except Exit (Except Error (Option HugeAllocation))},
      E.Runs (catchErr (HugeAllocation.new w elem count)) s t r s₁ →
        StartsAligned pageSize t ∧ buffers t = [] := by
    intro t s₁ r hrun
    have hops := hrun.ops_only (catchErr_only hugeAllocation_only)
    exact ⟨startsAligned_of_none fun c hc => (hops c hc).1, buffers_eq_nil fun c hc => (hops c hc).2⟩
  have hnone : ∀ {t : List (Call σ (MemOp T) MemOp.Ans)}, StartsAligned pageSize t ∧ buffers t = [] →
      (StartsAligned pageSize t ↔ (none ∉ defaults t → BuffersAligned pageSize t)) := by
    rintro t ⟨hstarts, hbuffers⟩
    refine iff_of_true hstarts fun _ => ?_
    rw [BuffersAligned, hbuffers]
    exact List.forall_mem_nil _
  have hstandard : ∀ {t₁ t₂ : List (Call σ (MemOp T) MemOp.Ans)} {s₁ : σ},
      StartsAligned pageSize t₁ ∧ buffers t₁ = [] → defaults t₁ = [] →
      E.Runs (HugePageVec.newStandard room refused w elem count) s₁ t₂ r s' →
      (StartsAligned pageSize (t₁ ++ t₂) ↔
        (none ∉ defaults (t₁ ++ t₂) → BuffersAligned pageSize (t₁ ++ t₂))) := by
    rintro t₁ t₂ s₁ ⟨hstarts, hbuffers⟩ hdefaults hrun
    rw [startsAligned_append, and_iff_right hstarts, BuffersAligned, buffers_append, hbuffers,
      defaults_append, hdefaults, List.nil_append, List.nil_append]
    exact runs_newStandard_aligned hcount hsize hrun
  rcases Env.runs_bind_iff.mp h with ⟨_, rfl, hcaught⟩ | ⟨allocation, s₁, t₁, t₂, hcaught, hrest, rfl⟩
  · exact hnone (hhuge hcaught)
  rcases runs_catchErr hcaught with ⟨found, hfound, hnew⟩ | ⟨error, herror, hnew⟩ | ⟨_, ⟨⟩, _⟩
  · cases hfound
    cases found with
    | none => exact hstandard (hhuge hcaught) (runs_hugeAllocation_none hnew (.inl rfl)) hrest
    | some found =>
        obtain ⟨rfl, _, _⟩ := Env.runs_ret_iff.mp hrest
        rw [List.append_nil]
        exact hnone (hhuge hcaught)
  · cases herror
    exact hstandard (hhuge hcaught) (runs_hugeAllocation_none hnew (.inr ⟨error, rfl⟩)) hrest

/-! ### Vectors on a node -/

theorem startsAligned_migration {env : NumaEnv} {ptr len : ℕ} {node : UInt32} {r : Except Exit Unit}
    (h : Migration env ptr len node tr r) :
    (StartsAligned pageSize tr ↔ (Migrates env → pageSize ∣ ptr)) ∧ buffers tr = [] ∧
      defaults tr = [] := by
  have hnone : ¬ Migrates env → (StartsAligned pageSize ([] : List (Call σ (MemOp T) MemOp.Ans)) ↔
      (Migrates env → pageSize ∣ ptr)) := fun hidle =>
    iff_of_true (List.forall_mem_nil _) fun hmigrates => absurd hmigrates hidle
  cases h with
  | failed hload =>
      refine ⟨hnone ?_, rfl, rfl⟩
      rintro ⟨library, hsome, _⟩
      cases hload.symm.trans hsome
  | idle hidle => exact ⟨hnone fun hmigrates => hmigrates.not_idle hidle, rfl, rfl⟩
  | asked hmigrates hplaces _ =>
      obtain ⟨n, rfl, _⟩ := hplaces
      rw [startsAligned_singleton rfl]
      exact ⟨(imp_iff_right hmigrates).symm, rfl, rfl⟩

theorem runs_allocOnNode_aligned {env : NumaEnv} {node : UInt32} {r : Except Exit (RustVec T)}
    (hcount : count ≠ 0) (hsize : elem.size ≠ 0)
    (h : E.Runs (allocOnNode w env elem count node) s tr r s') :
    StartsAligned pageSize tr ↔
      (none ∉ defaults tr → Migrates env → BuffersAligned pageSize tr) := by
  have hlen : count * elem.size ≠ 0 := Nat.mul_ne_zero hcount hsize
  rcases runs_allocOnNode hlen h with ⟨rfl, _⟩ | ⟨hnode, refused, s₁, t₁, r₁, hfill, hrest⟩
  · exact iff_of_true (List.forall_mem_nil _) fun _ _ => List.forall_mem_nil _
  have hstarts : StartsAligned pageSize t₁ := startsAligned_of_none (hfill.ops_only filled_requestStart)
  rcases hrest with ⟨rfl, ⟨_, rfl⟩, _⟩ | ⟨values, t₂, t₃, r₀, s₂, rfl, rfl, hdrop, hmigrate, _⟩
  · exact iff_of_true hstarts fun hnone _ => buffersAligned_of_filled_error hcount hsize hfill hnone
  obtain ⟨⟨_, ⟨⟩⟩, _⟩ | ⟨_, ⟨⟩, hbuffers, hdefaults⟩ := runs_filled_buffer hcount hsize hfill
  obtain ⟨hstart, hbuffers₂, hdefaults₂⟩ :=
    startsAligned_migration (runs_migrateToNode hnode hlen hmigrate)
  have hdropped : StartsAligned pageSize t₃ := startsAligned_of_none fun c hc => (hdrop c hc).requestStart_eq
  have hbuffers₃ : buffers t₃ = [] :=
    buffers_eq_nil fun c hc => (hdrop c hc).ofElems.not_isReserve
  have hdefaults₃ : defaults t₃ = [] := defaults_eq_nil fun c hc => (hdrop c hc).not_isDefault
  rw [startsAligned_append, startsAligned_append, and_iff_right hstarts, and_iff_left hdropped, hstart,
    BuffersAligned]
  simp only [buffers_append, defaults_append, hbuffers, hbuffers₂, hbuffers₃, hdefaults₂, hdefaults₃,
    List.append_nil, imp_iff_right hdefaults, List.forall_mem_singleton]

/-! ### Blocks -/

theorem requestStart_of_concerns {addr len : ℕ} {op : MemOp T} (h : op.Concerns addr len) :
    requestStart op = some addr := by
  cases op with
  | madviseHugepage | mbind => exact congrArg some h.1
  | _ => exact h.elim

theorem pageSize_dvd_of_serve {host : Host} {space space' : AddressSpace} {len addr : ℕ}
    (h : (memEnv host T).serve (.mmap len false) space (.ok addr) space') : host.pageSize ∣ addr := h.1

theorem startsAligned_of_concerns {addr len : ℕ} (haddr : pageSize ∣ addr)
    (h : ∀ c ∈ tr, c.op.Concerns addr len) : StartsAligned pageSize tr := by
  intro c hc start hstart
  rw [requestStart_of_concerns (h c hc)] at hstart
  cases hstart
  exact haddr

theorem startsAligned_creation {host : Host} {space space' : AddressSpace} {len : ℕ}
    {tr : List (MemCall T)} {r : Except Exit MmapBlock}
    (h : Creation (memEnv host T) len space tr r space') : StartsAligned host.pageSize tr := by
  cases h with
  | empty => exact List.forall_mem_nil _
  | failed | null => exact (startsAligned_cons_of_none rfl).mpr (List.forall_mem_nil _)
  | undone hserve hquiet _ =>
      rw [List.cons_append, startsAligned_cons_of_none rfl, startsAligned_append]
      exact ⟨startsAligned_of_concerns (pageSize_dvd_of_serve hserve) hquiet,
        (startsAligned_cons_of_none rfl).mpr (List.forall_mem_nil _)⟩
  | kept hserve hquiet =>
      rw [startsAligned_cons_of_none rfl]
      exact startsAligned_of_concerns (pageSize_dvd_of_serve hserve) hquiet

/-- Requests about blocks start on a page. Those about vectors do exactly if the allocator's answers
do: for the hint in all runs that come to it, and on a node where libnuma migrates. -/
theorem starts_aligned_iff (host : Host) (elem : ElemType) (T : Type) (count : ℕ) (hcount : count ≠ 0)
    (hsize : elem.size ≠ 0) :
    (∀ make ∈ [HugePageVec.new host.width elem count, HugePageVec.newFallible host.width elem count,
        HugePageVec.tryNew host.width elem count], ∀ space (tr : List (MemCall T)) r space',
      (memEnv host T).Runs make space tr r space' →
        (StartsAligned host.pageSize tr ↔
          (none ∉ defaults tr → BuffersAligned host.pageSize tr))) ∧
      (∀ env node space (tr : List (MemCall T)) r space',
        (memEnv host T).Runs (allocOnNode host.width env elem count node) space tr r space' →
          (StartsAligned host.pageSize tr ↔
            (none ∉ defaults tr → Migrates env → BuffersAligned host.pageSize tr))) ∧
      (∀ len space (tr : List (MemCall T)) r space',
        (memEnv host T).Runs (MmapBlock.new len) space tr r space' →
          StartsAligned host.pageSize tr) ∧
      ∀ env len node space (tr : List (MemCall T)) r space',
        (memEnv host T).Runs (MmapBlock.newOnNode host.width env len node) space tr r space' →
          StartsAligned host.pageSize tr := by
  refine ⟨?_, ?_, ?_, ?_⟩
  · intro make hmake space tr r space' hrun
    simp only [List.mem_cons, List.not_mem_nil, or_false] at hmake
    rcases hmake with rfl | rfl | rfl <;> exact runs_newWith_aligned hcount hsize hrun
  · intro env node space tr r space' hrun
    exact runs_allocOnNode_aligned hcount hsize hrun
  · intro len space tr r space' hrun
    exact startsAligned_creation (runs_new memEnv_mapsOnly hrun)
  · intro env len node space tr r space' hrun
    exact startsAligned_creation (runs_newOnNode memEnv_mapsOnly hrun)

def byteVecTrace (addr : ℕ) : List (MemCall UInt8) :=
  [⟨fun _ => none, .mmap hugepageBytes true, .error (.os 12)⟩, ⟨fun _ => none, .tryReserve 8, some addr⟩,
    ⟨fun _ => none, .makeDefault, some 0⟩, ⟨fun _ => none, .madviseHugepage addr 1, .ok ()⟩]

theorem runs_tryNew_byte (addr : ℕ) :
    (memEnv (hugeHost 21) UInt8).Runs (HugePageVec.tryNew .w64 byteType 1) (fun _ => none)
      (byteVecTrace addr) (.ok ⟨.standard ⟨addr, 8, [0]⟩⟩) (fun _ => none) :=
  .ask .refl rfl (.ask .refl rfl (.ask .refl rfl (.ask .refl rfl (.ret _ _))))

def pageSpace : AddressSpace := AddressSpace.fill (fun _ => none) 8192 (roundUp 4096 4096) (some .base)

def blockTrace : List (MemCall UInt8) :=
  [⟨fun _ => none, .mmap 4096 false, .ok 8192⟩, ⟨pageSpace, .madviseHugepage 8192 4096, .ok ()⟩,
    ⟨pageSpace, .mbind 8192 4096 mpolBind [2] 2 mpolMfMove, .ok ()⟩]

theorem runs_newOnNode_page :
    (memEnv (hugeHost 21) UInt8).Runs (MmapBlock.newOnNode .w64 twoNodes 4096 1) (fun _ => none)
      blockTrace (.ok ⟨⟨8192, by decide⟩, 4096, some 1⟩) pageSpace := by
  have hmmap : (memEnv (hugeHost 21) UInt8).serve (.mmap 4096 false) (fun _ => none) (.ok 8192)
      pageSpace := ⟨by decide, by decide, fun _ _ _ => rfl, rfl⟩
  have hbind : (memEnv (hugeHost 21) UInt8).Runs
      (bindToNumaNode .w64 twoNodes ⟨8192, by decide⟩ 4096 1) pageSpace
      [⟨pageSpace, .mbind 8192 4096 mpolBind [2] 2 mpolMfMove, .ok ()⟩] (.ok ()) pageSpace := by
    unfold bindToNumaNode bindMemoryToNode
    rw [validateNode_twoNodes]
    exact .ask .refl rfl (.ret _ _)
  exact .ask .refl hmmap (.ask .refl rfl ((runs_catchErr_ok hbind).bind (.ret _ _)))

/-- The allocator answers with page boundaries, and so does `mmap`. -/
theorem starts_aligned_iff_byte : StartsAligned 4096 (byteVecTrace 8192) ∧
    StartsAligned 4096 (allocTrace 8192) ∧ StartsAligned 4096 blockTrace := by
  obtain ⟨hvec, halloc, _, hblock⟩ :=
    starts_aligned_iff (hugeHost 21) byteType UInt8 1 (by decide) (by decide)
  have hpage : ∀ addr ∈ [8192], 4096 ∣ addr := List.forall_mem_singleton.mpr ⟨2, rfl⟩
  refine ⟨?_, ?_, hblock _ _ _ _ _ _ _ runs_newOnNode_page⟩
  · exact (hvec _ (.tail _ (.tail _ (.head _))) _ _ _ _ (runs_tryNew_byte 8192)).mpr fun _ => hpage
  · exact (halloc _ _ _ _ _ _ (runs_allocOnNode_twoNodes 8192)).mpr fun _ _ => hpage

/-- The allocator answers with an address inside a page. -/
theorem not_starts_aligned :
    ¬ ∀ (host : Host) (elem : ElemType) (T : Type) (count : ℕ) (space space' : AddressSpace)
      (tr : List (MemCall T)) (r : Except Exit (HugePageVec T)), count ≠ 0 → elem.size ≠ 0 →
      (memEnv host T).Runs (HugePageVec.tryNew host.width elem count) space tr r space' →
        StartsAligned host.pageSize tr := by
  intro hclaim
  have haligned := hclaim (hugeHost 21) _ _ _ _ _ _ _ (by decide) (by decide) (runs_tryNew_byte 4112)
  have hdvd := haligned _ (.tail _ (.tail _ (.tail _ (.head _)))) 4112 rfl
  revert hdvd
  decide

end KernelKit
