import KernelKit.Numa
import KernelKit.RustVec

/-!
# Pinning threads and migrating pages

`pinToNode` and `migrateToNode` go through libnuma, `allocOnNode` migrates the buffer of a `Vec` it
filled. A machine without libnuma, or on which libnuma knows one node only, is left as it is: the
functions then succeed without a call. In all other runs that succeed the placement was asked for, with
the buffer and the node of the caller.
-/

namespace KernelKit.Numa
open Interaction

variable {T : Type}

def cIntTryFrom (node : UInt32) : Option Int32 :=
  if node.toNat < 2 ^ 31 then some (.ofNat node.toNat) else none

def hasMultipleNodes (library : SharedLibrary) : Bool := 0 < library.maxNode

/-- A call of libnuma with a node, whose result other than zero counts as failure. -/
def callWithNode (w : Width) (env : NumaEnv) (operation : String) (node : UInt32)
    (call : Int32 → MemProg T (ℤ × IoError)) : MemProg T Unit :=
  match cIntTryFrom node with
  | none => throw (.invalidNode node.toNat (nodeCount w env))
  | some node => do
    let (result, source) ← call node
    if result = 0 then pure () else throw (.system operation source)

def runOnNode (w : Width) (env : NumaEnv) (node : UInt32) : MemProg T Unit :=
  callWithNode w env "numa_run_on_node" node fun node => Prog.call (MemOp.runOnNode node)

def tonodeMemory (w : Width) (env : NumaEnv) (ptr len : ℕ) (node : UInt32) : MemProg T Unit :=
  callWithNode w env "numa_tonode_memory" node fun node => Prog.call (MemOp.tonodeMemory ptr len node)

def pinToNode (w : Width) (env : NumaEnv) (node : UInt32) : MemProg T Unit :=
  match validateNode w env node with
  | .error error => throw error
  | .ok () =>
    match tryLoad env with
    | .error error => throw error
    | .ok none => pure ()
    | .ok (some _) => runOnNode w env node

def pinToNumaNode (w : Width) (env : NumaEnv) (node : UInt32) : MemProg T Unit := pinToNode w env node

def migrateToNode (w : Width) (env : NumaEnv) (ptr byteLen : ℕ) (node : UInt32) : MemProg T Unit :=
  match validateNode w env node with
  | .error error => throw error
  | .ok () =>
    if byteLen = 0 then pure ()
    else
      match tryLoad env with
      | .error error => throw error
      | .ok none => pure ()
      | .ok (some library) =>
        if hasMultipleNodes library then tonodeMemory w env ptr byteLen node else pure ()

/-- Elements that were made are dropped with their vector if the migration fails. -/
def migrateValues (w : Width) (env : NumaEnv) (elem : ElemType) (count : ℕ) (node : UInt32)
    (values : RustVec T) : MemProg T (RustVec T) :=
  if values.len = 0 then pure values
  else do
    let migrated ← catchErr (match checkedLen w elem count with
      | .error error => throw error
      | .ok byteLen => migrateToNode w env values.ptr byteLen node)
    match migrated with
    | .error error => do
      values.drop elem
      throw error
    | .ok () => pure values

def allocOnNode (w : Width) (env : NumaEnv) (elem : ElemType) (count : ℕ) (node : UInt32) :
    MemProg T (RustVec T) :=
  match validateNode w env node with
  | .error error => throw error
  | .ok () =>
    match checkedLen w elem count with
    | .error error => throw error
    | .ok _ => do
      let values ← RustVec.filled .amortized
        (fun error => .err (.system "numa alloc try_reserve" (.custom .other error.message))) w elem count
      migrateValues w env elem count node values

/-! ### What a run asks of libnuma -/

/-- libnuma cannot be loaded or is not available, or it knows no node above 0. -/
def LibnumaIdle (env : NumaEnv) : Prop :=
  tryLoad env = .ok none ∨ ∃ library, tryLoad env = .ok (some library) ∧ library.maxNode ≤ 0

def Migrates (env : NumaEnv) : Prop :=
  ∃ library, tryLoad env = .ok (some library) ∧ 0 < library.maxNode

def IsPlacement : MemOp T → Prop
  | .tonodeMemory _ _ _ | .mbind _ _ _ _ _ _ => True
  | _ => False

def Places (ptr len : ℕ) (node : UInt32) (op : MemOp T) : Prop :=
  ∃ n : Int32, op = .tonodeMemory ptr len n ∧ n.toInt = node.toNat

variable {room : Room} {w : Width} {env : NumaEnv} {node : UInt32} {σ : Type} {E : Env σ (MemOp T) MemOp.Ans}
  {s s' : σ} {tr : List (Call σ (MemOp T) MemOp.Ans)}

theorem Migrates.not_idle (h : Migrates env) : ¬ LibnumaIdle env := by
  obtain ⟨library, hload, hmany⟩ := h
  rintro (hnone | ⟨_, hsome, hle⟩)
  · cases hload.symm.trans hnone
  · cases hload.symm.trans hsome
    rw [Int32.lt_iff_toInt_lt] at hmany
    rw [Int32.le_iff_toInt_le] at hle
    omega

theorem toInt_of_cIntTryFrom {n : Int32} (h : cIntTryFrom node = some n) : n.toInt = node.toNat := by
  unfold cIntTryFrom at h
  split_ifs at h with hlt
  cases h
  exact Int32.toInt_ofNat_of_lt hlt

theorem lt_nodeCount_of_validateNode (h : validateNode w env node = .ok ()) :
    node.toNat < nodeCount w env := by
  unfold validateNode at h
  dsimp only at h
  split_ifs at h with hlt
  exact hlt

/-- Where libnuma counts the nodes, every valid node is a `c_int`. -/
theorem exists_cIntTryFrom (hnode : validateNode w env node = .ok ()) (h : Migrates env) :
    ∃ n, cIntTryFrom node = some n := by
  obtain ⟨library, hload, hmany⟩ := h
  have hlt := lt_nodeCount_of_validateNode hnode
  rw [Int32.lt_iff_toInt_lt, Int32.toInt_zero] at hmany
  have hle : (0 : Int32) ≤ library.maxNode := by
    rw [Int32.le_iff_toInt_le, Int32.toInt_zero]
    omega
  unfold nodeCount at hlt
  rw [hload] at hlt
  dsimp only at hlt
  rw [if_pos hle] at hlt
  exact ⟨_, if_pos (by omega)⟩

theorem runs_tonodeMemory {ptr len : ℕ} {r : Except Exit Unit} {n : Int32}
    (hnode : cIntTryFrom node = some n) (h : E.Runs (tonodeMemory w env ptr len node) s tr r s') :
    ∃ s₁ op answer, tr = [⟨s₁, op, answer⟩] ∧ Places ptr len node op ∧
      (r = .ok () ∨ ∃ error, r = .error (.err error)) := by
  unfold tonodeMemory callWithNode at h
  rw [hnode] at h
  obtain ⟨s₁, ⟨result, source⟩, s₂, tr', _, _, hrest, rfl⟩ := Env.runs_ask_iff.mp h
  rw [Prog.ret_bind] at hrest
  dsimp only at hrest
  have hend : tr' = [] ∧ (r = .ok () ∨ ∃ error, r = .error (.err error)) := by
    split_ifs at hrest
    · obtain ⟨rfl, rfl, _⟩ := Env.runs_ret_iff.mp hrest
      exact ⟨rfl, .inl rfl⟩
    · obtain ⟨rfl, rfl, _⟩ := runs_throw_iff.mp hrest
      exact ⟨rfl, .inr ⟨_, rfl⟩⟩
  obtain ⟨rfl, hr⟩ := hend
  exact ⟨s₁, _, (result, source), rfl, ⟨n, rfl, toInt_of_cIntTryFrom hnode⟩, hr⟩

inductive Migration (env : NumaEnv) (ptr len : ℕ) (node : UInt32) :
    List (Call σ (MemOp T) MemOp.Ans) → Except Exit Unit → Prop
  | failed {error : Error} : tryLoad env = .error error →
      Migration env ptr len node [] (.error (.err error))
  | idle : LibnumaIdle env → Migration env ptr len node [] (.ok ())
  | asked {s : σ} {op : MemOp T} {answer : op.Ans} {r : Except Exit Unit} : Migrates env →
      Places ptr len node op → (r = .ok () ∨ ∃ error, r = .error (.err error)) →
      Migration env ptr len node [⟨s, op, answer⟩] r

theorem runs_migrateToNode {ptr len : ℕ} {r : Except Exit Unit} (hnode : validateNode w env node = .ok ())
    (hlen : len ≠ 0) (h : E.Runs (migrateToNode w env ptr len node) s tr r s') :
    Migration env ptr len node tr r := by
  unfold migrateToNode at h
  rw [hnode] at h
  dsimp only at h
  rw [if_neg hlen] at h
  cases hload : tryLoad env with
  | error error =>
      rw [hload] at h
      obtain ⟨rfl, rfl, _⟩ := runs_throw_iff.mp h
      exact .failed hload
  | ok library =>
      rw [hload] at h
      cases library with
      | none =>
          obtain ⟨rfl, rfl, _⟩ := Env.runs_ret_iff.mp h
          exact .idle (.inl hload)
      | some library =>
          dsimp only at h
          unfold hasMultipleNodes at h
          split_ifs at h with hmany
          · have hmigrates : Migrates env := ⟨library, hload, of_decide_eq_true hmany⟩
            obtain ⟨n, hn⟩ := exists_cIntTryFrom hnode hmigrates
            obtain ⟨s₁, op, answer, rfl, hplaces, hr⟩ := runs_tonodeMemory hn h
            exact .asked hmigrates hplaces hr
          · obtain ⟨rfl, rfl, _⟩ := Env.runs_ret_iff.mp h
            rw [decide_eq_true_eq, Int32.lt_iff_toInt_lt, not_lt, ← Int32.le_iff_toInt_le] at hmany
            exact .idle (.inr ⟨library, hload, hmany⟩)

theorem filled_not_isPlacement {refused : TryReserveError → Exit} {elem : ElemType} {count : ℕ} :
    (RustVec.filled room refused w elem count : MemProg T _).Only fun op => ¬ IsPlacement op := by
  refine RustVec.filled_only (fun op hop => ?_) fun op hop => ?_
  all_goals
    cases op with
    | tonodeMemory | mbind => exact hop.elim
    | _ => exact id

theorem runs_migrateValues {elem : ElemType} {count byteLen : ℕ} {values : RustVec T}
    {r : Except Exit (RustVec T)} (hchecked : checkedLen w elem count = .ok byteLen)
    (hlen : values.len ≠ 0)
    (h : E.Runs (migrateValues w env elem count node values) s tr r s') :
    ∃ s₁ t₁ t₂ r₀, tr = t₁ ++ t₂ ∧ (∀ c ∈ t₂, c.op.OfDrop) ∧
      E.Runs (migrateToNode w env values.ptr (count * elem.size) node) s t₁ r₀ s₁ ∧
      ∀ vec, r = .ok vec → vec = values ∧ r₀ = .ok () ∧ t₂ = [] := by
  unfold migrateValues at h
  rw [if_neg hlen, hchecked, checkedLen_eq_ok hchecked] at h
  rcases Env.runs_bind_iff.mp h with ⟨exit, rfl, hcaught⟩ | ⟨migrated, s₁, t₁, t₂, hcaught, hend, rfl⟩
  · rcases runs_catchErr hcaught with ⟨_, ⟨⟩, _⟩ | ⟨_, ⟨⟩, _⟩ | ⟨_, ⟨⟩, _, hrun⟩
    exact ⟨s', tr, [], _, (List.append_nil tr).symm, List.forall_mem_nil _, hrun, by rintro _ ⟨⟩⟩
  cases migrated with
  | error error =>
      rcases runs_catchErr hcaught with ⟨_, ⟨⟩, _⟩ | ⟨_, ⟨⟩, hrun⟩ | ⟨_, ⟨⟩, _⟩
      have hops : ∀ c ∈ t₂, c.op.OfDrop := by
        refine hend.ops_only ?_
        exact RustVec.drop_ofDrop.bind fun _ => trivial
      refine ⟨s₁, t₁, t₂, _, rfl, hops, hrun, ?_⟩
      rintro vec rfl
      obtain ⟨_, _, _, _, _, hthrow, _⟩ := Env.runs_bind_ok_iff.mp hend
      obtain ⟨_, ⟨⟩, _⟩ := runs_throw_iff.mp hthrow
  | ok _ =>
      obtain ⟨rfl, rfl, rfl⟩ := Env.runs_ret_iff.mp hend
      rcases runs_catchErr hcaught with ⟨_, ⟨⟩, hrun⟩ | ⟨_, ⟨⟩, _⟩ | ⟨_, ⟨⟩, _⟩
      refine ⟨s', t₁, [], _, rfl, List.forall_mem_nil _, hrun, ?_⟩
      rintro vec ⟨⟩
      exact ⟨rfl, rfl, rfl⟩

/-- A run of `allocOnNode` fails before the vector is filled, or it fills a vector and migrates it. -/
theorem runs_allocOnNode {elem : ElemType} {count : ℕ} {r : Except Exit (RustVec T)}
    (hcount : count * elem.size ≠ 0) (h : E.Runs (allocOnNode w env elem count node) s tr r s') :
    (tr = [] ∧ ∃ exit, r = .error exit) ∨ validateNode w env node = .ok () ∧
      ∃ refused s₁ t₁ r₁, E.Runs (RustVec.filled .amortized refused w elem count) s t₁ r₁ s₁ ∧
        ((tr = t₁ ∧ (∃ exit, r₁ = .error exit) ∧ ∃ exit, r = .error exit) ∨
          ∃ values t₂ t₃ r₀ s₂, r₁ = .ok values ∧ tr = t₁ ++ (t₂ ++ t₃) ∧ (∀ c ∈ t₃, c.op.OfDrop) ∧
            E.Runs (migrateToNode w env values.ptr (count * elem.size) node) s₁ t₂ r₀ s₂ ∧
            ∀ vec, r = .ok vec → vec = values ∧ r₀ = .ok () ∧ t₃ = []) := by
  unfold allocOnNode at h
  cases hnode : validateNode w env node with
  | error error =>
      rw [hnode] at h
      obtain ⟨rfl, rfl, _⟩ := runs_throw_iff.mp h
      exact .inl ⟨rfl, _, rfl⟩
  | ok _ =>
      rw [hnode] at h
      dsimp only at h
      cases hchecked : checkedLen w elem count with
      | error error =>
          rw [hchecked] at h
          obtain ⟨rfl, rfl, _⟩ := runs_throw_iff.mp h
          exact .inl ⟨rfl, _, rfl⟩
      | ok byteLen =>
          rw [hchecked] at h
          rcases Env.runs_bind_iff.mp h with ⟨exit, rfl, hfill⟩ | ⟨values, s₁, t₁, t₂, hfill, hmigrate, rfl⟩
          · exact .inr ⟨rfl, _, _, _, _, hfill, .inl ⟨rfl, ⟨_, rfl⟩, _, rfl⟩⟩
          have hlen : values.len ≠ 0 := (runs_filled hfill).2 ▸ left_ne_zero_of_mul hcount
          obtain ⟨s₂, t₃, t₄, r₀, rfl, hdrop, hrun, hok⟩ := runs_migrateValues hchecked hlen hmigrate
          exact .inr ⟨rfl, _, _, _, _, hfill, .inr ⟨values, t₃, t₄, r₀, s₂, rfl, rfl, hdrop, hrun, hok⟩⟩

/-! ### Reports -/

/-- The calls of the run that place memory, if any, are about this buffer and this node. -/
def PlacesOnly (tr : List (Call σ (MemOp T) MemOp.Ans)) (ptr len : ℕ) (node : UInt32) : Prop :=
  ∀ c ∈ tr, IsPlacement c.op → Places ptr len node c.op

theorem Migration.reports {ptr len : ℕ} {r : Except Exit Unit} (h : Migration env ptr len node tr r) :
    (r = .ok () → (∃ c ∈ tr, Places ptr len node c.op) ∨ LibnumaIdle env) ∧
      (LibnumaIdle env → r = .ok () ∧ tr = []) ∧ PlacesOnly tr ptr len node := by
  cases h with
  | failed hload =>
      refine ⟨by rintro ⟨⟩, ?_, List.forall_mem_nil _⟩
      rintro (hnone | ⟨_, hsome, _⟩)
      · cases hload.symm.trans hnone
      · cases hload.symm.trans hsome
  | idle hidle => exact ⟨fun _ => .inr hidle, fun _ => ⟨rfl, rfl⟩, List.forall_mem_nil _⟩
  | asked hmigrates hplaces _ =>
      refine ⟨fun _ => .inl ⟨_, List.mem_singleton_self _, hplaces⟩,
        fun hidle => absurd hidle hmigrates.not_idle, ?_⟩
      exact List.forall_mem_singleton.mpr fun _ => hplaces

/-- The two functions succeed only if the placement of the buffer on the node was asked for, or if
libnuma is idle, in which case nothing is asked for. -/
theorem placement_reported (w : Width) (env : NumaEnv) (node : UInt32) {σ T : Type}
    (E : Env σ (MemOp T) MemOp.Ans) :
    (∀ ptr len s tr r s', validateNode w env node = .ok () → len ≠ 0 →
        E.Runs (migrateToNode w env ptr len node) s tr r s' →
        (r = .ok () → (∃ c ∈ tr, Places ptr len node c.op) ∨ LibnumaIdle env) ∧
          (LibnumaIdle env → r = .ok () ∧ tr = []) ∧ PlacesOnly tr ptr len node) ∧
      ∀ (elem : ElemType) count s tr vec s', count * elem.size ≠ 0 →
        E.Runs (allocOnNode w env elem count node) s tr (.ok vec) s' →
        ((∃ c ∈ tr, Places vec.ptr (count * elem.size) node c.op) ∨ LibnumaIdle env) ∧
          (LibnumaIdle env → ∀ c ∈ tr, ¬ IsPlacement c.op) ∧
          PlacesOnly tr vec.ptr (count * elem.size) node := by
  constructor
  · intro ptr len s tr r s' hnode hlen hrun
    exact (runs_migrateToNode hnode hlen hrun).reports
  · intro elem count s tr vec s' hcount hrun
    obtain ⟨_, _, ⟨⟩⟩ | ⟨hnode, refused, s₁, t₁, r₁, hfill, ⟨_, _, _, ⟨⟩⟩ |
      ⟨values, t₂, t₃, r₀, s₂, rfl, rfl, hdrop, hmigrate, hret⟩⟩ := runs_allocOnNode hcount hrun
    obtain ⟨rfl, rfl, rfl⟩ := hret vec rfl
    rw [List.append_nil]
    obtain ⟨hok, hidle, honly⟩ := (runs_migrateToNode hnode hcount hmigrate).reports
    have hvec : ∀ c ∈ t₁, ¬ IsPlacement c.op := hfill.ops_only filled_not_isPlacement
    refine ⟨?_, fun h => ?_, ?_⟩
    · rcases hok rfl with ⟨c, hc, hplaces⟩ | hidle
      · exact .inl ⟨c, List.mem_append_right _ hc, hplaces⟩
      · exact .inr hidle
    · rw [(hidle h).2, List.append_nil]
      exact hvec
    · refine List.forall_mem_append.mpr ⟨fun c hc hplaces => ?_, honly⟩
      exact absurd hplaces (hvec c hc)

def twoNodes : NumaEnv where
  library name := if name = "libnuma.so.1" then some ⟨librarySymbols, 0, 1⟩ else none
  online := some ['0', '-', '1']
  listing := none

theorem validateNode_twoNodes : validateNode .w64 twoNodes 1 = .ok () := by decide

theorem tryLoad_twoNodes : tryLoad twoNodes = .ok (some ⟨librarySymbols, 0, 1⟩) := by decide

theorem runs_migrateToNode_twoNodes {ptr len : ℕ} (hlen : len ≠ 0) :
    (memEnv (hugeHost 21) UInt8).Runs (migrateToNode .w64 twoNodes ptr len 1) (fun _ => none)
      [⟨fun _ => none, .tonodeMemory ptr len 1, (0, .os 0)⟩] (.ok ()) (fun _ => none) := by
  unfold migrateToNode
  rw [validateNode_twoNodes]
  dsimp only
  rw [if_neg hlen, tryLoad_twoNodes]
  exact .ask .refl rfl (.ret _ _)

def allocTrace (addr : ℕ) : List (MemCall UInt8) :=
  [⟨fun _ => none, .tryReserve 8, some addr⟩, ⟨fun _ => none, .makeDefault, some 0⟩,
    ⟨fun _ => none, .tonodeMemory addr 1 1, (0, .os 0)⟩]

theorem runs_allocOnNode_twoNodes (addr : ℕ) :
    (memEnv (hugeHost 21) UInt8).Runs (allocOnNode .w64 twoNodes byteType 1 1) (fun _ => none)
      (allocTrace addr) (.ok ⟨addr, 8, [0]⟩) (fun _ => none) := by
  unfold allocOnNode
  rw [validateNode_twoNodes]
  refine .ask .refl rfl (.ask .refl rfl ?_)
  exact (runs_catchErr_ok (runs_migrateToNode_twoNodes (by decide))).bind (.ret _ _)

theorem placement_reported_twoNodes :
    (∃ tr, (memEnv (hugeHost 21) UInt8).Runs (migrateToNode .w64 twoNodes 4096 4096 1) (fun _ => none) tr
        (.ok ()) (fun _ => none) ∧ ∃ c ∈ tr, Places 4096 4096 1 c.op) ∧
      ∃ c ∈ allocTrace 4096, Places 4096 1 1 c.op := by
  have hmany : (0 : Int32) < 1 := by decide
  have hbusy : ¬ LibnumaIdle twoNodes := Migrates.not_idle ⟨_, tryLoad_twoNodes, hmany⟩
  have hplaced := placement_reported .w64 twoNodes 1 (memEnv (hugeHost 21) UInt8)
  have hfirst := (hplaced.1 4096 4096 _ _ _ _ validateNode_twoNodes (by decide)
    (runs_migrateToNode_twoNodes (by decide))).1 rfl
  have hsecond := (hplaced.2 byteType 1 _ _ _ _ (by decide) (runs_allocOnNode_twoNodes 4096)).1
  exact ⟨⟨_, runs_migrateToNode_twoNodes (by decide), hfirst.resolve_right hbusy⟩,
    hsecond.resolve_right hbusy⟩

/-- On two nodes without libnuma a migration succeeds without a call. -/
theorem not_placement_reported :
    ¬ ∀ (w : Width) (env : NumaEnv) (hostNodes : ℕ) (node : UInt32)
      (carriedOut : Call AddressSpace (MemOp UInt8) MemOp.Ans → Prop) (host : Host) (ptr len : ℕ)
      (space space' : AddressSpace) (tr : List (MemCall UInt8)) (r : Except Exit Unit),
      validateNode w env node = .ok () → len ≠ 0 →
      (memEnv host UInt8).Runs (migrateToNode w env ptr len node) space tr r space' →
        (r = .ok () → (∃ c ∈ tr, Places ptr len node c.op ∧ carriedOut c) ∨ hostNodes = 1) ∧
          ((∃ c ∈ tr, Places ptr len node c.op ∧ carriedOut c) → r = .ok ()) := by
  intro hclaim
  have hrun : (memEnv (hugeHost 21) UInt8).Runs
      (migrateToNode .w64 { twoNodes with library := fun _ => none } 4096 4096 1) (fun _ => none) []
      (.ok ()) (fun _ => none) := .ret _ _
  obtain ⟨hok, _⟩ := hclaim .w64 { twoNodes with library := fun _ => none } 2 1 (fun _ => True) _ _ _ _ _
    _ _ (by decide) (by decide) hrun
  obtain ⟨_, ⟨⟩, _⟩ | htwo := hok rfl
  cases htwo

end KernelKit.Numa
