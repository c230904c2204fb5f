import KernelKit.MmapBlockOwnership
import KernelKit.NumaMask

/-!
# No block is bound to a node

Linux refuses a binding to no node at all, and that is what it decodes from every mask it is given. So
`MmapBlock.newOnNode` never returns a block: it unmaps what it mapped and fails, and whatever blocks a
process creates and drops, those that live are bound to no node.
-/

namespace KernelKit
open Interaction Numa

/-- A call of `mbind` that decodes to no node is refused with `EINVAL`. -/
def RefusesEmpty (w : Width) (c : TableCall) : Prop :=
  match c with
  | ⟨_, .mbind _ _ mode nodemask maxnode _, answer⟩ =>
    mode = mpolBind → decodedNodes w nodemask maxnode = ∅ → answer = .error (.os 22)
  | _ => True

inductive Refused (w : Width) (env : NumaEnv) (len : ℕ) (node : UInt32) (tr : List TableCall) : Error → Prop
  | empty : len = 0 → Refused w env len node tr .nullPointer
  | notMapped {held : MappingTable} {source : IoError} :
      ⟨held, .mmap len false, .error source⟩ ∈ tr → Refused w env len node tr (.system "mmap" source)
  | null : NullAnswered tr → Refused w env len node tr .nullPointer
  | invalidNode : nodeCount w env ≤ node.toNat →
      Refused w env len node tr (.invalidNode node.toNat (nodeCount w env))
  | notBound : node.toNat < nodeCount w env → Refused w env len node tr (.system "mbind" (.os 22))

variable {w : Width} {env : NumaEnv} {held held' : MappingTable} {tr tr' : List TableCall}
  {len : ℕ} {node : UInt32}

theorem decodedNodes_nodemaskForNode :
    decodedNodes w (nodemaskForNode w node).1 (nodemaskForNode w node).2 = ∅ := by
  rw [decodedNodes_nodemask]
  exact if_neg (Nat.lt_irrefl _)

theorem runs_bindToNumaNode_refused {ptr : NonNull} {r : Except Exit Unit}
    (h : tableEnv.Runs (bindToNumaNode w env ptr len node) held tr r held')
    (hlinux : ∀ c ∈ tr, RefusesEmpty w c) :
    ∃ error, r = .error (.err error) ∧ ∀ tr', Refused w env len node tr' error := by
  unfold bindToNumaNode bindMemoryToNode at h
  by_cases hnode : node.toNat < nodeCount w env
  · have hvalid : validateNode w env node = .ok () := if_pos hnode
    rw [hvalid] at h
    obtain ⟨answer, held₁, tr', -, hrest, rfl⟩ := tableEnv_mapsOnly.quiet.runs_ask_iff.mp h
    have hrefused : answer = .error (.os 22) :=
      hlinux _ List.mem_cons_self rfl decodedNodes_nodemaskForNode
    subst hrefused
    obtain ⟨-, rfl, -⟩ := Env.runs_fail_iff.mp hrest
    exact ⟨_, rfl, fun _ => .notBound hnode⟩
  · have hvalid : validateNode w env node = .error (.invalidNode node.toNat (nodeCount w env)) :=
      if_neg hnode
    rw [hvalid] at h
    obtain ⟨-, rfl, -⟩ := runs_throw_iff.mp h
    exact ⟨_, rfl, fun _ => .invalidNode (not_lt.mp hnode)⟩

/-- A block on a node is refused, wherever its constructor fails. -/
theorem runs_newOnNode_refused {r : Except Exit MmapBlock}
    (h : tableEnv.Runs (MmapBlock.newOnNode w env len node) held tr r held')
    (hlinux : ∀ c ∈ tr, RefusesEmpty w c) :
    ∃ error, r = .error (.err error) ∧ Refused w env len node tr error := by
  unfold MmapBlock.newOnNode at h
  split_ifs at h with hlen
  · obtain ⟨-, rfl, -⟩ := runs_throw_iff.mp h
    exact ⟨_, rfl, .empty hlen⟩
  rcases runs_mapRegion_bind tableEnv_mapsOnly.quiet h with ⟨source, -, rfl, rfl⟩ | ⟨-, rfl, rfl⟩ |
    ⟨ptr, held₁, tr', -, rfl, hrest⟩
  · exact ⟨_, rfl, .notMapped List.mem_cons_self⟩
  · exact ⟨_, rfl, .null ⟨_, _, _, List.mem_cons_self⟩⟩
  rcases Env.runs_bind_iff.mp hrest with ⟨_, rfl, hadvise⟩ | ⟨_, held₂, t₁, t₂, hadvise, hbound, rfl⟩
  · obtain ⟨⟨_, ⟨⟩⟩, -⟩ := runs_catchErr_adviseHugepage tableEnv_mapsOnly hadvise
  have hlinux₂ : ∀ c ∈ t₂, RefusesEmpty w c := fun c hc => hlinux c (by simp [hc])
  rcases Env.runs_bind_iff.mp hbound with ⟨_, rfl, hbind⟩ | ⟨bound, held₃, t₃, t₄, hbind, hend, rfl⟩
  · obtain ⟨⟨_, ⟨⟩⟩, -⟩ := runs_catchErr_bindToNumaNode tableEnv_mapsOnly hbind
  have hlinux₃ : ∀ c ∈ t₃, RefusesEmpty w c := fun c hc => hlinux₂ c (List.mem_append_left _ hc)
  rcases runs_catchErr hbind with ⟨_, -, hrun⟩ | ⟨error, hbound', hrun⟩ | ⟨_, hbound', -⟩
  · obtain ⟨_, ⟨⟩, -⟩ := runs_bindToNumaNode_refused hrun hlinux₃
  · cases hbound'
    obtain ⟨_, herror, hrefused⟩ := runs_bindToNumaNode_refused hrun hlinux₃
    cases herror
    obtain ⟨answer, held₄, t₅, -, hthrow, rfl⟩ := tableEnv_mapsOnly.quiet.runs_ask_iff.mp hend
    obtain ⟨-, rfl, -⟩ := Env.runs_fail_iff.mp hthrow
    exact ⟨_, rfl, hrefused _⟩
  · cases hbound'

theorem numaNode_of_runs_new {block : MmapBlock}
    (h : tableEnv.Runs (MmapBlock.new len) held tr (.ok block) held') : block.numaNode = none := by
  unfold MmapBlock.new at h
  split_ifs at h
  · obtain ⟨-, ⟨⟩, -⟩ := runs_throw_iff.mp h
  obtain ⟨ptr, _, _, _, -, hrest, -⟩ := Env.runs_bind_ok_iff.mp h
  obtain ⟨_, _, _, _, -, hend, -⟩ := Env.runs_bind_ok_iff.mp hrest
  obtain ⟨-, hblock, -⟩ := Env.runs_ret_iff.mp hend
  cases hblock
  rfl

/-- One request adds no block with a node. -/
theorem numaNode_of_produced {request : Request} {r : Except Exit MmapBlock}
    (h : tableEnv.Runs (request.run w) held tr r held') (hlinux : ∀ c ∈ tr, RefusesEmpty w c) :
    ∀ block ∈ produced r, block.numaNode = none := by
  intro block hblock
  cases r with
  | error exit => exact absurd hblock (Multiset.notMem_zero _)
  | ok block' =>
      obtain rfl := Multiset.mem_singleton.mp hblock
      cases request with
      | new len => exact numaNode_of_runs_new h
      | newOnNode env len node =>
          obtain ⟨_, ⟨⟩, -⟩ := runs_newOnNode_refused h hlinux

/-- In no run of a process does a block on a node come to life. Every call for one fails, for a reason of
its own or else with the `EINVAL` of `mbind`, and leaves the mappings as they were unless one was made at
the null address. -/
theorem mmapBlocks_never_bound (w : Width) (p : Process) (tr : List TableCall)
    (h : BlockRuns w .initial tr p) (hlinux : ∀ c ∈ tr, RefusesEmpty w c) :
    (∀ block ∈ p.live, block.numaNode = none) ∧
      ∀ env len node tr' r held', tableEnv.Runs (MmapBlock.newOnNode w env len node) p.held tr' r held' →
        (∀ c ∈ tr', RefusesEmpty w c) →
        (∃ error, r = .error (.err error) ∧ Refused w env len node tr' error) ∧
          (held' = p.held ↔ ¬ NullAnswered tr') := by
  constructor
  · induction h with
    | refl => exact fun block hblock => absurd hblock (Multiset.notMem_zero _)
    | tail _ hstep ih =>
        obtain ⟨hlinux, hlinux'⟩ := List.forall_mem_append.mp hlinux
        have hlive := ih hlinux
        cases hstep with
        | create hrun =>
            intro block hblock
            rcases Multiset.mem_add.mp hblock with hblock | hblock
            · exact numaNode_of_produced hrun hlinux' block hblock
            · exact hlive block hblock
        | drop hrun => exact fun block hblock => hlive block (Multiset.mem_cons_of_mem hblock)
  · intro env len node tr' r held' hrun hlinux'
    obtain ⟨error, rfl, hrefused⟩ := runs_newOnNode_refused hrun hlinux'
    exact ⟨⟨error, rfl, hrefused⟩, held_eq_iff_of_creation (runs_newOnNode tableEnv_mapsOnly hrun)⟩

/-- A page on the only node of a machine: `mbind` refuses, and the page is unmapped again. -/
theorem mmapBlocks_never_bound_page : ∃ tr,
    tableEnv.Runs (MmapBlock.newOnNode .w64 bareEnv 4096 0) 0 tr
      (.error (.err (.system "mbind" (.os 22)))) 0 ∧
    Refused .w64 bareEnv 4096 0 tr (.system "mbind" (.os 22)) ∧ ¬ NullAnswered tr := by
  let ptr : NonNull := ⟨4096, by decide⟩
  have hregion : tableEnv.Runs (mapRegion 4096) 0 [⟨0, .mmap 4096 false, .ok ptr.val⟩] (.ok ptr)
      {(ptr.val, 4096)} := by
    refine .ask .refl rfl ?_
    simp only [Prog.ret_bind, dif_neg ptr.2]
    exact .ret _ _
  have hrun : tableEnv.Runs (MmapBlock.newOnNode .w64 bareEnv 4096 0) 0
      [⟨0, .mmap 4096 false, .ok ptr.val⟩, ⟨{(ptr.val, 4096)}, .madviseHugepage ptr 4096, .ok ()⟩,
        ⟨{(ptr.val, 4096)}, .mbind ptr 4096 mpolBind [1] 1 mpolMfMove, .error (.os 22)⟩,
        ⟨{(ptr.val, 4096)}, .munmap ptr 4096, .ok ()⟩]
      (.error (.err (.system "mbind" (.os 22)))) 0 := by
    rw [MmapBlock.newOnNode, if_neg (by decide)]
    refine hregion.bind (.ask .refl rfl (.ask .refl rfl (.ask .refl ?_ (.fail _ _))))
    exact ⟨Multiset.mem_singleton_self _, (Multiset.erase_singleton _).symm⟩
  have hlinux : ∀ c ∈ ([⟨0, .mmap 4096 false, .ok ptr.val⟩,
      ⟨{(ptr.val, 4096)}, .madviseHugepage ptr 4096, .ok ()⟩,
      ⟨{(ptr.val, 4096)}, .mbind ptr 4096 mpolBind [1] 1 mpolMfMove, .error (.os 22)⟩,
      ⟨{(ptr.val, 4096)}, .munmap ptr 4096, .ok ()⟩] : List TableCall), RefusesEmpty .w64 c := by
    simp [RefusesEmpty]
  obtain ⟨⟨_, herror, hrefused⟩, hheld⟩ := (mmapBlocks_never_bound .w64 .initial [] .refl
    (List.forall_mem_nil _)).2 bareEnv 4096 0 _ _ _ hrun hlinux
  cases herror
  exact ⟨_, hrun, hrefused, hheld.mp rfl⟩

end KernelKit
