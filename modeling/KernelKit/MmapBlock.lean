import KernelKit.Numa

/-!
# Anonymous memory blocks

`MmapBlock.new` and `MmapBlock.newOnNode` map anonymous memory, advise huge pages, and for a node bind
the memory to it; dropping a block unmaps it. The rules below take a run of a constructor apart in any
environment whose other calls keep the state.
-/

namespace KernelKit
open Interaction Numa

abbrev NonNull : Type := { ptr : ℕ // ptr ≠ 0 }

structure MmapBlock where
  ptr : NonNull
  len : ℕ
  numaNode : Option UInt32
  deriving DecidableEq

variable {T : Type}

def mapRegion (len : ℕ) : MemProg T NonNull := do
  let rawPtr ← Prog.call (MemOp.mmap len false)
  match (rawPtr : Except IoError ℕ) with
  | .error source => throw (.system "mmap" source)
  | .ok rawPtr => if hnull : rawPtr = 0 then throw .nullPointer else pure ⟨rawPtr, hnull⟩

def unmapRegion (ptr : NonNull) (len : ℕ) : MemProg T Unit := unmap ptr len

def adviseHugepage (ptr : NonNull) (len : ℕ) : MemProg T Unit := do
  let result ← Prog.call (MemOp.madviseHugepage ptr len)
  match (result : Except IoError Unit) with
  | .error source => throw (.system "madvise(HUGEPAGE)" source)
  | .ok () => pure ()

def bindToNumaNode (w : Width) (env : NumaEnv) (ptr : NonNull) (len : ℕ) (node : UInt32) :
    MemProg T Unit :=
  bindMemoryToNode w env ptr len node

def MmapBlock.new (len : ℕ) : MemProg T MmapBlock :=
  if len = 0 then throw .nullPointer
  else do
    let ptr ← mapRegion len
    let _ ← catchErr (adviseHugepage ptr len)
    pure ⟨ptr, len, none⟩

def MmapBlock.newOnNode (w : Width) (env : NumaEnv) (len : ℕ) (node : UInt32) : MemProg T MmapBlock :=
  if len = 0 then throw .nullPointer
  else do
    let ptr ← mapRegion len
    let _ ← catchErr (adviseHugepage ptr len)
    let bound ← catchErr (bindToNumaNode w env ptr len node)
    match bound with
    | .error error => do
      unmapRegion ptr len
      throw error
    | .ok () => pure ⟨ptr, len, some node⟩

def MmapBlock.drop (block : MmapBlock) : MemProg T Unit := unmapRegion block.ptr block.len

/-! ### Runs of the constructors -/

def MemOp.Concerns (addr len : ℕ) : MemOp T → Prop
  | .madviseHugepage addr' len' => addr' = addr ∧ len' = len
  | .mbind addr' len' _ _ _ _ => addr' = addr ∧ len' = len
  | _ => False

variable {σ α : Type} {E : Env σ (MemOp T) MemOp.Ans} {s s' : σ}
  {tr : List (Call σ (MemOp T) MemOp.Ans)}

/-- How a constructor of blocks of `len` bytes may run from `s`. -/
inductive Creation (E : Env σ (MemOp T) MemOp.Ans) (len : ℕ) (s : σ) :
    List (Call σ (MemOp T) MemOp.Ans) → Except Exit MmapBlock → σ → Prop
  | empty : len = 0 → Creation E len s [] (.error (.err .nullPointer)) s
  | failed {source : IoError} {s' : σ} : E.serve (.mmap len false) s (.error source) s' →
      Creation E len s [⟨s, .mmap len false, .error source⟩]
        (.error (.err (.system "mmap" source))) s'
  | null {s' : σ} : E.serve (.mmap len false) s (.ok 0) s' →
      Creation E len s [⟨s, .mmap len false, .ok 0⟩] (.error (.err .nullPointer)) s'
  | undone {ptr : NonNull} {s₁ s' : σ} {tr : List (Call σ (MemOp T) MemOp.Ans)}
      {answer : Except IoError Unit} {error : Error} :
      E.serve (.mmap len false) s (.ok ptr.val) s₁ → (∀ c ∈ tr, c.op.Concerns ptr len) →
      E.serve (.munmap ptr len) s₁ answer s' →
      Creation E len s (⟨s, .mmap len false, .ok ptr.val⟩ :: tr ++ [⟨s₁, .munmap ptr len, answer⟩])
        (.error (.err error)) s'
  | kept {ptr : NonNull} {numaNode : Option UInt32} {s' : σ}
      {tr : List (Call σ (MemOp T) MemOp.Ans)} :
      E.serve (.mmap len false) s (.ok ptr.val) s' → (∀ c ∈ tr, c.op.Concerns ptr len) →
      Creation E len s (⟨s, .mmap len false, .ok ptr.val⟩ :: tr) (.ok ⟨ptr, len, numaNode⟩) s'

theorem runs_mapRegion_bind (hE : E.Quiet) {len : ℕ} {f : NonNull → MemProg T α}
    {r : Except Exit α} (h : E.Runs ((mapRegion len).bind f) s tr r s') :
    (∃ source, E.serve (.mmap len false) s (.error source) s' ∧
        tr = [⟨s, .mmap len false, .error source⟩] ∧
        r = .error (.err (.system "mmap" source))) ∨
      (E.serve (.mmap len false) s (.ok 0) s' ∧ tr = [⟨s, .mmap len false, .ok 0⟩] ∧
        r = .error (.err .nullPointer)) ∨
      ∃ (ptr : NonNull) (s₁ : σ) (tr' : _), E.serve (.mmap len false) s (.ok ptr.val) s₁ ∧
        tr = ⟨s, .mmap len false, .ok ptr.val⟩ :: tr' ∧ E.Runs (f ptr) s₁ tr' r s' := by
  obtain ⟨answer, s₁, tr', hserve, hrest, rfl⟩ := hE.runs_ask_iff.mp h
  cases answer with
  | error source =>
      obtain ⟨rfl, rfl, rfl⟩ := Env.runs_fail_iff.mp hrest
      exact .inl ⟨source, hserve, rfl, rfl⟩
  | ok addr =>
      simp only [Prog.ret_bind] at hrest
      split_ifs at hrest with hnull
      · obtain ⟨rfl, rfl, rfl⟩ := Env.runs_fail_iff.mp hrest
        subst hnull
        exact .inr (.inl ⟨hserve, rfl, rfl⟩)
      · exact .inr (.inr ⟨⟨addr, hnull⟩, s₁, tr', hserve, rfl, hrest⟩)

theorem runs_catchErr_adviseHugepage (hE : MapsOnly E) {ptr : NonNull} {len : ℕ}
    {r : Except Exit (Except Error Unit)}
    (h : E.Runs (catchErr (adviseHugepage ptr len)) s tr r s') :
    (∃ result, r = .ok result) ∧ s' = s ∧ ∀ c ∈ tr, c.op.Concerns ptr len := by
  obtain ⟨answer, s₁, tr', hserve, hrest, rfl⟩ := hE.quiet.runs_ask_iff.mp h
  obtain rfl := hE.keeps _ _ _ _ id hserve
  cases answer with
  | error | ok =>
      obtain ⟨rfl, rfl, rfl⟩ := Env.runs_ret_iff.mp hrest
      exact ⟨⟨_, rfl⟩, rfl, List.forall_mem_singleton.mpr ⟨rfl, rfl⟩⟩

theorem runs_catchErr_bindToNumaNode (hE : MapsOnly E) {w : Width} {env : NumaEnv} {ptr : NonNull}
    {len : ℕ} {node : UInt32} {r : Except Exit (Except Error Unit)}
    (h : E.Runs (catchErr (bindToNumaNode w env ptr len node)) s tr r s') :
    (∃ result, r = .ok result) ∧ s' = s ∧ ∀ c ∈ tr, c.op.Concerns ptr len := by
  unfold bindToNumaNode bindMemoryToNode at h
  cases hvalid : validateNode w env node with
  | error error =>
      rw [hvalid] at h
      obtain ⟨rfl, rfl, rfl⟩ := Env.runs_ret_iff.mp h
      exact ⟨⟨_, rfl⟩, rfl, List.forall_mem_nil _⟩
  | ok _ =>
      rw [hvalid] at h
      obtain ⟨answer, s₁, tr', hserve, hrest, rfl⟩ := hE.quiet.runs_ask_iff.mp h
      obtain rfl := hE.keeps _ _ _ _ id hserve
      cases answer with
      | error | ok =>
          obtain ⟨rfl, rfl, rfl⟩ := Env.runs_ret_iff.mp hrest
          exact ⟨⟨_, rfl⟩, rfl, List.forall_mem_singleton.mpr ⟨rfl, rfl⟩⟩

theorem runs_new (hE : MapsOnly E) {len : ℕ} {r : Except Exit MmapBlock}
    (h : E.Runs (MmapBlock.new len) s tr r s') : Creation E len s tr r s' := by
  unfold MmapBlock.new at h
  split_ifs at h with hlen
  · obtain ⟨rfl, rfl, rfl⟩ := runs_throw_iff.mp h
    exact .empty hlen
  rcases runs_mapRegion_bind hE.quiet h with ⟨source, hserve, rfl, rfl⟩ | ⟨hserve, rfl, rfl⟩ |
    ⟨ptr, s₁, tr', hserve, rfl, hrest⟩
  · exact .failed hserve
  · exact .null hserve
  rcases Env.runs_bind_iff.mp hrest with ⟨_, rfl, hadvise⟩ | ⟨_, s₂, t₁, t₂, hadvise, hend, rfl⟩
  · obtain ⟨⟨_, ⟨⟩⟩, _⟩ := runs_catchErr_adviseHugepage hE hadvise
  · obtain ⟨_, rfl, hquiet⟩ := runs_catchErr_adviseHugepage hE hadvise
    obtain ⟨rfl, rfl, rfl⟩ := Env.runs_ret_iff.mp hend
    rw [List.append_nil]
    exact .kept hserve hquiet

theorem runs_newOnNode (hE : MapsOnly E) {w : Width} {env : NumaEnv} {len : ℕ} {node : UInt32}
    {r : Except Exit MmapBlock} (h : E.Runs (MmapBlock.newOnNode w env len node) s tr r s') :
    Creation E len s tr r s' := by
  unfold MmapBlock.newOnNode at h
  split_ifs at h with hlen
  · obtain ⟨rfl, rfl, rfl⟩ := runs_throw_iff.mp h
    exact .empty hlen
  rcases runs_mapRegion_bind hE.quiet h with ⟨source, hserve, rfl, rfl⟩ | ⟨hserve, rfl, rfl⟩ |
    ⟨ptr, s₁, tr', hserve, rfl, hrest⟩
  · exact .failed hserve
  · exact .null hserve
  rcases Env.runs_bind_iff.mp hrest with ⟨_, rfl, hadvise⟩ | ⟨_, s₂, t₁, t₂, hadvise, hbound, rfl⟩
  · obtain ⟨⟨_, ⟨⟩⟩, _⟩ := runs_catchErr_adviseHugepage hE hadvise
  obtain ⟨_, rfl, hquiet⟩ := runs_catchErr_adviseHugepage hE hadvise
  rcases Env.runs_bind_iff.mp hbound with ⟨_, rfl, hbind⟩ | ⟨bound, s₃, t₃, t₄, hbind, hend, rfl⟩
  · obtain ⟨⟨_, ⟨⟩⟩, _⟩ := runs_catchErr_bindToNumaNode hE hbind
  obtain ⟨_, rfl, hquiet'⟩ := runs_catchErr_bindToNumaNode hE hbind
  have hboth := List.forall_mem_append.mpr ⟨hquiet, hquiet'⟩
  cases bound with
  | error error =>
      obtain ⟨answer, s₄, tr', hunmap, hthrow, rfl⟩ := hE.quiet.runs_ask_iff.mp hend
      obtain ⟨rfl, rfl, rfl⟩ := Env.runs_fail_iff.mp hthrow
      rw [← List.append_assoc, ← List.cons_append]
      exact .undone hserve hboth hunmap
  | ok _ =>
      obtain ⟨rfl, rfl, rfl⟩ := Env.runs_ret_iff.mp hend
      rw [List.append_nil]
      exact .kept hserve hboth

end KernelKit
