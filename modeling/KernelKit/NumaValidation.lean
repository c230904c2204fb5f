import KernelKit.MmapBlockOwnership
import KernelKit.NumaPlacement

/-!
# Nodes are validated before any effect

Every entry point compares its node with `nodeCount`. Five of them do it first; `MmapBlock.newOnNode` has
mapped its memory by then, and unmaps it. Nodes that pass reach libnuma as the same number.
-/

namespace KernelKit.Numa
open Interaction

variable {T α : Type} {w : Width} {env : NumaEnv} {node : UInt32}

def Rejects (p : MemProg T α) (error : Error) : Prop :=
  ∀ (σ : Type) (E : Env σ (MemOp T) MemOp.Ans) (s s' : σ) tr r, E.Runs p s tr r s' →
    tr = [] ∧ r = .error (.err error) ∧ s' = s

theorem rejects_throw (error : Error) : Rejects (throw error : MemProg T α) error :=
  fun _ _ _ _ _ _ => runs_throw_iff.mp

/-- The call gives libnuma the node as it is, or is no call of libnuma. -/
def PassesNode (node : UInt32) : MemOp T → Prop
  | .runOnNode n | .tonodeMemory _ _ n => n.toInt = node.toNat
  | _ => True

def HasEffect : MemOp T → Prop
  | .runOnNode _ | .tonodeMemory _ _ _ | .mbind _ _ _ _ _ _ => True
  | _ => False

/-! ### Node counts -/

theorem one_le_sysfsOrOne : 1 ≤ sysfsOrOne w env := by
  unfold sysfsOrOne
  cases sysfsNodeCount w env with
  | none => exact le_rfl
  | some count => exact le_max_right _ _

theorem one_le_nodeCount : 1 ≤ nodeCount w env := by
  unfold nodeCount
  cases tryLoad env with
  | error _ => exact one_le_sysfsOrOne
  | ok library =>
      cases library with
      | none => exact one_le_sysfsOrOne
      | some library =>
          dsimp only
          split_ifs
          · exact le_max_right _ _
          · exact one_le_sysfsOrOne

theorem validateNode_zero : validateNode w env 0 = .ok () := by
  unfold validateNode
  exact if_pos one_le_nodeCount

theorem validateNode_of_le (h : nodeCount w env ≤ node.toNat) :
    validateNode w env node = .error (.invalidNode node.toNat (nodeCount w env)) := by
  unfold validateNode
  exact if_neg (not_lt_of_ge h)

/-! ### What libnuma is given -/

theorem callWithNode_only {operation : String} {P : MemOp T → Prop}
    {call : Int32 → MemProg T (ℤ × IoError)}
    (h : ∀ n : Int32, n.toInt = node.toNat → (call n).Only P) :
    (callWithNode w env operation node call).Only P := by
  unfold callWithNode
  cases hnode : cIntTryFrom node with
  | none => trivial
  | some n =>
      refine (h n (toInt_of_cIntTryFrom hnode)).bind ?_
      rintro ⟨result, source⟩
      dsimp only
      split_ifs <;> trivial

theorem pinToNode_passes : (pinToNode w env node : MemProg T Unit).Only (PassesNode node) := by
  unfold pinToNode
  cases validateNode w env node with
  | error error => trivial
  | ok _ =>
      dsimp only
      cases tryLoad env with
      | error error => trivial
      | ok library =>
          cases library with
          | none => trivial
          | some library => exact callWithNode_only fun n hn => ⟨hn, fun _ => trivial⟩

theorem migrateToNode_passes {ptr len : ℕ} :
    (migrateToNode w env ptr len node : MemProg T Unit).Only (PassesNode node) := by
  unfold migrateToNode
  cases validateNode w env node with
  | error error => trivial
  | ok _ =>
      dsimp only
      split_ifs
      · trivial
      cases tryLoad env with
      | error error => trivial
      | ok library =>
          cases library with
          | none => trivial
          | some library =>
              dsimp only
              split_ifs
              · exact callWithNode_only fun n hn => ⟨hn, fun _ => trivial⟩
              · trivial

theorem allocOnNode_passes {elem : ElemType} {count : ℕ} :
    (allocOnNode w env elem count node : MemProg T _).Only (PassesNode node) := by
  have hdrop : ∀ op : MemOp T, op.OfDrop → PassesNode node op := by
    intro op hop
    cases op with
    | dealloc | dropInPlace => trivial
    | _ => exact hop.elim
  have hfilled : ∀ refused,
      (RustVec.filled .amortized refused w elem count : MemProg T _).Only (PassesNode node) := by
    refine fun refused => RustVec.filled_only (fun op hop => ?_) fun op hop => ?_
    all_goals
      cases op with
      | tonodeMemory | runOnNode => exact hop.elim
      | _ => trivial
  unfold allocOnNode
  cases validateNode w env node with
  | error error => trivial
  | ok _ =>
      dsimp only
      cases checkedLen w elem count with
      | error error => trivial
      | ok byteLen =>
          refine (hfilled _).bind fun values => ?_
          unfold migrateValues
          split_ifs
          · trivial
          refine (catchErr_only ?_).bind fun migrated => ?_
          · cases checkedLen w elem count with
            | error error => trivial
            | ok byteLen => exact migrateToNode_passes
          · cases migrated with
            | error error => exact (RustVec.drop_ofDrop.imp hdrop).bind fun _ => trivial
            | ok _ => trivial

/-! ### Nodes that do not exist -/

theorem rejects_of_le (h : nodeCount w env ≤ node.toNat) :
    let error := Error.invalidNode node.toNat (nodeCount w env)
    Rejects (pinToNode w env node : MemProg T Unit) error ∧
      Rejects (pinToNumaNode w env node : MemProg T Unit) error ∧
      (∀ ptr len, Rejects (bindMemoryToNode w env ptr len node : MemProg T Unit) error) ∧
      (∀ ptr len, Rejects (migrateToNode w env ptr len node : MemProg T Unit) error) ∧
      ∀ elem count, Rejects (allocOnNode w env elem count node : MemProg T (RustVec T)) error := by
  have hnode := validateNode_of_le h
  unfold pinToNumaNode pinToNode bindMemoryToNode migrateToNode allocOnNode
  rw [hnode]
  exact ⟨rejects_throw _, rejects_throw _, fun _ _ => rejects_throw _, fun _ _ => rejects_throw _,
    fun _ _ => rejects_throw _⟩

/-- `newOnNode` has mapped and advised its memory when it finds that the node does not exist. -/
theorem newOnNode_only {len : ℕ} (h : nodeCount w env ≤ node.toNat) :
    (MmapBlock.newOnNode w env len node : MemProg T MmapBlock).Only fun op => ¬ HasEffect op := by
  have hregion : (mapRegion len : MemProg T NonNull).Only fun op => ¬ HasEffect op := by
    refine ⟨id, fun answer => ?_⟩
    cases answer with
    | error _ => trivial
    | ok addr =>
        dsimp only [Prog.ret_bind]
        split_ifs <;> trivial
  have hadvise : ∀ ptr, (adviseHugepage ptr len : MemProg T Unit).Only fun op => ¬ HasEffect op := by
    refine fun ptr => ⟨id, fun answer => ?_⟩
    cases answer <;> trivial
  unfold MmapBlock.newOnNode bindToNumaNode bindMemoryToNode
  rw [validateNode_of_le h]
  split_ifs
  · trivial
  refine hregion.bind fun ptr => (catchErr_only (hadvise ptr)).bind fun _ => ?_
  exact ⟨id, fun _ => trivial⟩

def Mapped (tr : List TableCall) : Prop :=
  ∃ held len hugetlb addr, addr ≠ 0 ∧ (⟨held, .mmap len hugetlb, .ok addr⟩ : TableCall) ∈ tr

theorem runs_newOnNode_rejected {held held' : MappingTable} {len : ℕ} {tr : List TableCall}
    {r : Except Exit MmapBlock} (hnode : nodeCount w env ≤ node.toNat)
    (h : tableEnv.Runs (MmapBlock.newOnNode w env len node) held tr r held') :
    (∃ error, r = .error (.err error)) ∧
      (Mapped tr → r = .error (.err (.invalidNode node.toNat (nodeCount w env)))) := by
  unfold MmapBlock.newOnNode bindToNumaNode bindMemoryToNode at h
  rw [validateNode_of_le hnode] at h
  split_ifs at h with hlen
  · obtain ⟨rfl, rfl, _⟩ := runs_throw_iff.mp h
    refine ⟨⟨_, rfl⟩, ?_⟩
    rintro ⟨_, _, _, _, _, ⟨⟩⟩
  rcases runs_mapRegion_bind tableEnv_mapsOnly.quiet h with ⟨source, _, rfl, rfl⟩ | ⟨_, rfl, rfl⟩ |
    ⟨ptr, s₁, tr', _, rfl, hrest⟩
  · refine ⟨⟨_, rfl⟩, ?_⟩
    rintro ⟨_, _, _, _, _, _ | ⟨_, ⟨⟩⟩⟩
  · refine ⟨⟨_, rfl⟩, ?_⟩
    rintro ⟨_, _, _, _, hne, _ | ⟨_, ⟨⟩⟩⟩
    exact absurd rfl hne
  · rcases Env.runs_bind_iff.mp hrest with ⟨_, rfl, hadvise⟩ | ⟨_, s₂, t₁, t₂, _, hbound, rfl⟩
    · obtain ⟨⟨_, ⟨⟩⟩, _⟩ := runs_catchErr_adviseHugepage tableEnv_mapsOnly hadvise
    obtain ⟨_, _, _, _, hthrow, _⟩ := tableEnv_mapsOnly.quiet.runs_ask_iff.mp hbound
    obtain ⟨_, rfl, _⟩ := Env.runs_fail_iff.mp hthrow
    exact ⟨⟨_, rfl⟩, fun _ => rfl⟩

/-- Node 0 exists always, no entry point has an effect for a node that does not exist, and libnuma gets
the nodes as they are. The table of mappings is as before exactly if `mmap` did not answer with the null
address. -/
theorem nodes_validated_iff (w : Width) (env : NumaEnv) (T : Type) :
    1 ≤ nodeCount w env ∧ validateNode w env 0 = .ok () ∧
      (∀ node : UInt32, (pinToNode w env node : MemProg T Unit).Only (PassesNode node) ∧
        (pinToNumaNode w env node : MemProg T Unit).Only (PassesNode node) ∧
        (∀ ptr len, (migrateToNode w env ptr len node : MemProg T Unit).Only (PassesNode node)) ∧
        ∀ elem count, (allocOnNode w env elem count node : MemProg T _).Only (PassesNode node)) ∧
      ∀ node : UInt32, nodeCount w env ≤ node.toNat →
        let error := Error.invalidNode node.toNat (nodeCount w env)
        Rejects (pinToNode w env node : MemProg T Unit) error ∧
        Rejects (pinToNumaNode w env node : MemProg T Unit) error ∧
        (∀ ptr len, Rejects (bindMemoryToNode w env ptr len node : MemProg T Unit) error) ∧
        (∀ ptr len, Rejects (migrateToNode w env ptr len node : MemProg T Unit) error) ∧
        (∀ elem count, Rejects (allocOnNode w env elem count node : MemProg T (RustVec T)) error) ∧
        ∀ len held tr r held', tableEnv.Runs (MmapBlock.newOnNode w env len node) held tr r held' →
          (∃ error, r = .error (.err error)) ∧ (Mapped tr → r = .error (.err error)) ∧
            (∀ c ∈ tr, ¬ HasEffect c.op) ∧ (held' = held ↔ ¬ NullAnswered tr) := by
  refine ⟨one_le_nodeCount, validateNode_zero, fun node => ?_, fun node hnode => ?_⟩
  · exact ⟨pinToNode_passes, pinToNode_passes, fun _ _ => migrateToNode_passes,
      fun _ _ => allocOnNode_passes⟩
  · obtain ⟨hpin, hpinNuma, hbind, hmigrate, halloc⟩ := rejects_of_le (T := T) hnode
    refine ⟨hpin, hpinNuma, hbind, hmigrate, halloc, fun len held tr r held' hrun => ?_⟩
    obtain ⟨⟨error, rfl⟩, hreached⟩ := runs_newOnNode_rejected hnode hrun
    exact ⟨⟨error, rfl⟩, hreached, hrun.ops_only (newOnNode_only hnode),
      held_eq_iff_of_creation (runs_newOnNode tableEnv_mapsOnly hrun)⟩

/-- On a machine with two nodes a block on the third is mapped and unmapped. -/
theorem nodes_validated_iff_twoNodes : ∃ tr, Mapped tr ∧
    tableEnv.Runs (MmapBlock.newOnNode .w64 twoNodes 4096 2) 0 tr (.error (.err (.invalidNode 2 2))) 0 ∧
      (∀ c ∈ tr, ¬ HasEffect c.op) ∧ ¬ NullAnswered tr := by
  have hunmap : tableEnv.serve (.munmap 4096 4096) {(4096, 4096)} (.ok ()) 0 :=
    ⟨Multiset.mem_singleton_self _, (Multiset.erase_singleton _).symm⟩
  have hrun : tableEnv.Runs (MmapBlock.newOnNode .w64 twoNodes 4096 2) 0
      [⟨0, .mmap 4096 false, .ok 4096⟩, ⟨{(4096, 4096)}, .madviseHugepage 4096 4096, .ok ()⟩,
        ⟨{(4096, 4096)}, .munmap 4096 4096, .ok ()⟩] (.error (.err (.invalidNode 2 2))) 0 :=
    .ask .refl rfl (.ask .refl rfl (.ask .refl hunmap (.fail _ _)))
  obtain ⟨_, _, _, hinvalid⟩ := nodes_validated_iff .w64 twoNodes UInt8
  obtain ⟨_, _, _, _, _, hblock⟩ := hinvalid 2 (by decide)
  obtain ⟨_, _, hquiet, hheld⟩ := hblock _ _ _ _ _ hrun
  exact ⟨_, ⟨0, 4096, false, 4096, by decide, .head _⟩, hrun, hquiet, hheld.mp rfl⟩

/-- The mapping at the null address stays. -/
theorem not_nodes_validated : ¬ ∀ (w : Width) (env : NumaEnv) (node : UInt32) (len : ℕ)
    (held held' : MappingTable) (tr : List TableCall) (r : Except Exit MmapBlock),
    nodeCount w env ≤ node.toNat →
      tableEnv.Runs (MmapBlock.newOnNode w env len node) held tr r held' → held' = held := by
  intro hclaim
  have hrun : tableEnv.Runs (MmapBlock.newOnNode .w64 twoNodes 4096 2) 0
      [⟨0, .mmap 4096 false, .ok 0⟩] (.error (.err .nullPointer)) {(0, 4096)} :=
    .ask .refl rfl (.fail _ _)
  exact Multiset.singleton_ne_zero _ (hclaim .w64 twoNodes 2 _ _ _ _ _ (by decide) hrun)

end KernelKit.Numa
