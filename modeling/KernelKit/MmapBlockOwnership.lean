import KernelKit.MmapBlock
import Mathlib.Algebra.Order.Group.Multiset
import Mathlib.Tactic.Abel

/-!
# Who owns the anonymous mappings

The process holds a multiset of mappings, and the program a multiset of live blocks. Blocks are created
and dropped in any order, with any answers of the kernel. What `mapRegion` loses is the mapping at the
null address, which it reports as an error without unmapping it; everything else is accounted for.
-/

namespace KernelKit
open Interaction Numa

def MmapBlock.range (block : MmapBlock) : ℕ × ℕ := (block.ptr, block.len)

abbrev MappingTable := Multiset (ℕ × ℕ)

abbrev TableCall := Call MappingTable (MemOp UInt8) MemOp.Ans

/-- `mmap` may answer any address; a mapping that is held can be unmapped, and nothing else can. -/
def tableServe (op : MemOp UInt8) (held : MappingTable) (answer : op.Ans) (held' : MappingTable) :
    Prop :=
  match op, answer with
  | .mmap len _, .ok addr => held' = (addr, len) ::ₘ held
  | .munmap addr len, .ok () => (addr, len) ∈ held ∧ held' = held.erase (addr, len)
  | .munmap addr len, .error _ => (addr, len) ∉ held ∧ held' = held
  | _, _ => held' = held

def tableEnv : Env MappingTable (MemOp UInt8) MemOp.Ans where
  serve := tableServe
  interfere _ _ := False

inductive Request
  | new (len : ℕ)
  | newOnNode (env : NumaEnv) (len : ℕ) (node : UInt32)

def Request.run (w : Width) : Request → MemProg UInt8 MmapBlock
  | .new len => MmapBlock.new len
  | .newOnNode env len node => MmapBlock.newOnNode w env len node

structure Process where
  held : MappingTable
  live : Multiset MmapBlock

def Process.initial : Process := ⟨0, 0⟩

def produced : Except Exit MmapBlock → Multiset MmapBlock
  | .ok block => {block}
  | .error _ => 0

inductive BlockStep (w : Width) : Process → List TableCall → Process → Prop
  | create {held held' : MappingTable} {live : Multiset MmapBlock} {request : Request}
      {tr : List TableCall} {r : Except Exit MmapBlock} :
      tableEnv.Runs (request.run w) held tr r held' →
      BlockStep w ⟨held, live⟩ tr ⟨held', produced r + live⟩
  | drop {held held' : MappingTable} {live : Multiset MmapBlock} {block : MmapBlock}
      {tr : List TableCall} {r : Except Exit Unit} :
      tableEnv.Runs block.drop held tr r held' → BlockStep w ⟨held, block ::ₘ live⟩ tr ⟨held', live⟩

inductive BlockRuns (w : Width) (p : Process) : List TableCall → Process → Prop
  | refl : BlockRuns w p [] p
  | tail {p₁ p₂ : Process} {tr tr' : List TableCall} :
      BlockRuns w p tr p₁ → BlockStep w p₁ tr' p₂ → BlockRuns w p (tr ++ tr') p₂

def mappedBy : TableCall → Option (ℕ × ℕ)
  | ⟨_, .mmap len _, .ok addr⟩ => some (addr, len)
  | _ => none

def unmappedBy : TableCall → Option (ℕ × ℕ)
  | ⟨_, .munmap addr len, _⟩ => some (addr, len)
  | _ => none

def created (tr : List TableCall) : MappingTable := tr.filterMap mappedBy

/-- The ranges passed to `munmap` in a run. -/
def unmapped (tr : List TableCall) : MappingTable := tr.filterMap unmappedBy

def UnmapsHeld (tr : List TableCall) : Prop := ∀ c ∈ tr, ∀ range ∈ unmappedBy c, range ∈ c.state

def NullAnswered (tr : List TableCall) : Prop :=
  ∃ held len hugetlb, (⟨held, .mmap len hugetlb, .ok 0⟩ : TableCall) ∈ tr

/-- The mappings held are those of the live blocks, and each of the others that were made was unmapped,
once and as it was made. -/
structure Process.Exact (p : Process) (tr : List TableCall) : Prop where
  held_eq : p.held = p.live.map MmapBlock.range
  created_eq : created tr = unmapped tr + p.live.map MmapBlock.range
  unmaps_held : UnmapsHeld tr

/-- The mappings made at the null address, which nothing unmaps. -/
def lost (tr : List TableCall) : MappingTable := (created tr).filter fun range => range.1 = 0

structure Process.Accounted (p : Process) (tr : List TableCall) : Prop where
  held_eq : p.held = p.live.map MmapBlock.range + lost tr
  created_eq : created tr = unmapped tr + p.held
  unmaps_held : UnmapsHeld tr

variable {w : Width} {held held' : MappingTable} {tr tr' : List TableCall}

theorem tableEnv_mapsOnly : MapsOnly tableEnv := by
  refine ⟨fun _ _ => id, fun op held answer held' hop hserve => ?_⟩
  cases op with
  | mmap | munmap => exact absurd trivial hop
  | _ => exact hserve

/-! ### Reading a trace -/

@[simp] theorem created_nil : created [] = 0 := rfl

@[simp] theorem unmapped_nil : unmapped [] = 0 := rfl

@[simp] theorem lost_nil : lost [] = 0 := rfl

@[simp] theorem created_append : created (tr ++ tr') = created tr + created tr' := by
  rw [created, List.filterMap_append, ← Multiset.coe_add]
  rfl

@[simp] theorem unmapped_append : unmapped (tr ++ tr') = unmapped tr + unmapped tr' := by
  rw [unmapped, List.filterMap_append, ← Multiset.coe_add]
  rfl

@[simp] theorem lost_append : lost (tr ++ tr') = lost tr + lost tr' := by
  rw [lost, created_append, Multiset.filter_add]
  rfl

@[simp] theorem created_mmap {len addr : ℕ} {hugetlb : Bool} :
    created (⟨held, .mmap len hugetlb, .ok addr⟩ :: tr) = (addr, len) ::ₘ created tr := rfl

@[simp] theorem created_mmap_failed {len : ℕ} {hugetlb : Bool} {source : IoError} :
    created (⟨held, .mmap len hugetlb, .error source⟩ :: tr) = created tr := rfl

@[simp] theorem created_munmap {addr len : ℕ} {answer : Except IoError Unit} :
    created (⟨held, .munmap addr len, answer⟩ :: tr) = created tr := by
  cases answer <;> rfl

@[simp] theorem unmapped_mmap {len : ℕ} {hugetlb : Bool} {answer : Except IoError ℕ} :
    unmapped (⟨held, .mmap len hugetlb, answer⟩ :: tr) = unmapped tr := rfl

@[simp] theorem unmapped_munmap {addr len : ℕ} {answer : Except IoError Unit} :
    unmapped (⟨held, .munmap addr len, answer⟩ :: tr) = (addr, len) ::ₘ unmapped tr := rfl

@[simp] theorem lost_mmap_null {len : ℕ} {hugetlb : Bool} :
    lost (⟨held, .mmap len hugetlb, .ok 0⟩ :: tr) = (0, len) ::ₘ lost tr := by
  rw [lost, created_mmap]
  exact Multiset.filter_cons_of_pos (p := fun range : ℕ × ℕ => range.1 = 0) _ rfl

@[simp] theorem lost_mmap (ptr : NonNull) {len : ℕ} {hugetlb : Bool} :
    lost (⟨held, .mmap len hugetlb, .ok ptr.val⟩ :: tr) = lost tr := by
  rw [lost, created_mmap]
  exact Multiset.filter_cons_of_neg (p := fun range : ℕ × ℕ => range.1 = 0) _ ptr.2

@[simp] theorem lost_mmap_failed {len : ℕ} {hugetlb : Bool} {source : IoError} :
    lost (⟨held, .mmap len hugetlb, .error source⟩ :: tr) = lost tr := rfl

@[simp] theorem lost_munmap {addr len : ℕ} {answer : Except IoError Unit} :
    lost (⟨held, .munmap addr len, answer⟩ :: tr) = lost tr := by
  rw [lost, created_munmap, lost]

@[simp] theorem unmapsHeld_nil : UnmapsHeld [] := List.forall_mem_nil _

@[simp] theorem unmapsHeld_mmap {len : ℕ} {hugetlb : Bool} {answer : Except IoError ℕ} :
    UnmapsHeld (⟨held, .mmap len hugetlb, answer⟩ :: tr) ↔ UnmapsHeld tr := by
  rw [UnmapsHeld, List.forall_mem_cons]
  exact and_iff_right (by rintro _ ⟨⟩)

@[simp] theorem unmapsHeld_munmap {addr len : ℕ} {answer : Except IoError Unit} :
    UnmapsHeld (⟨held, .munmap addr len, answer⟩ :: tr) ↔ (addr, len) ∈ held ∧ UnmapsHeld tr := by
  rw [UnmapsHeld, List.forall_mem_cons]
  refine and_congr_left fun _ => ⟨fun h => h _ rfl, ?_⟩
  rintro h _ ⟨⟩
  exact h

@[simp] theorem unmapsHeld_append : UnmapsHeld (tr ++ tr') ↔ UnmapsHeld tr ∧ UnmapsHeld tr' :=
  List.forall_mem_append

theorem accounts_of_concerns {addr len : ℕ} (h : ∀ c ∈ tr, c.op.Concerns addr len) :
    created tr = 0 ∧ unmapped tr = 0 ∧ lost tr = 0 ∧ UnmapsHeld tr := by
  have hnone : ∀ c ∈ tr, mappedBy c = none ∧ unmappedBy c = none := by
    rintro ⟨held, op, answer⟩ hc
    cases op with
    | madviseHugepage | mbind => exact ⟨rfl, rfl⟩
    | _ => exact (h _ hc).elim
  have hcreated : created tr = 0 := by
    rw [created, List.filterMap_eq_nil_iff.mpr fun c hc => (hnone c hc).1]
    rfl
  refine ⟨hcreated, ?_, ?_, fun c hc range hrange => ?_⟩
  · rw [unmapped, List.filterMap_eq_nil_iff.mpr fun c hc => (hnone c hc).2]
    rfl
  · rw [lost, hcreated]
    rfl
  · rw [(hnone c hc).2] at hrange
    cases hrange

theorem lost_eq_zero_iff : lost tr = 0 ↔ ¬ NullAnswered tr := by
  rw [lost, Multiset.filter_eq_nil]
  constructor
  · rintro h ⟨held, len, hugetlb, hc⟩
    exact h (0, len) (Multiset.mem_coe.mpr (List.mem_filterMap.mpr ⟨_, hc, rfl⟩)) rfl
  · rintro h ⟨addr, len⟩ hrange hnull
    obtain ⟨⟨held, op, answer⟩, hc, hmapped⟩ := List.mem_filterMap.mp (Multiset.mem_coe.mp hrange)
    cases op with
    | mmap len' hugetlb =>
        cases answer with
        | error source => cases hmapped
        | ok addr' =>
            cases hmapped
            cases hnull
            exact h ⟨held, len, hugetlb, hc⟩
    | _ => cases hmapped

/-! ### One operation -/

theorem held_of_unmap {addr len : ℕ} {answer : Except IoError Unit}
    (h : tableEnv.serve (.munmap addr len) ((addr, len) ::ₘ held) answer held') : held' = held := by
  cases answer with
  | ok _ =>
      obtain ⟨_, rfl⟩ : _ ∧ held' = ((addr, len) ::ₘ held).erase (addr, len) := h
      exact Multiset.erase_cons_head _ _
  | error source =>
      obtain ⟨hnot, _⟩ : (addr, len) ∉ (addr, len) ::ₘ held ∧ _ := h
      exact absurd (Multiset.mem_cons_self _ _) hnot

/-- What a constructor adds to the mappings is the block it returns, and what it lost. -/
theorem accounts_of_creation {len : ℕ} {r : Except Exit MmapBlock}
    (h : Creation tableEnv len held tr r held') :
    held' = held + ((produced r).map MmapBlock.range + lost tr) ∧
      created tr = unmapped tr + ((produced r).map MmapBlock.range + lost tr) ∧ UnmapsHeld tr := by
  cases h with
  | empty => simp [produced]
  | failed hserve =>
      obtain rfl : held' = held := hserve
      simp [produced]
  | null hserve =>
      obtain rfl : held' = (0, len) ::ₘ held := hserve
      simp [produced, add_comm held]
  | @undone ptr s₁ _ tr answer error hserve hquiet hunmap =>
      obtain rfl : s₁ = (ptr.val, len) ::ₘ held := hserve
      obtain rfl := held_of_unmap hunmap
      obtain ⟨hcreated, hunmapped, hlost, hheld⟩ := accounts_of_concerns hquiet
      simp [produced, hcreated, hunmapped, hlost, hheld]
  | @kept ptr _ _ tr hserve hquiet =>
      obtain rfl : held' = (ptr.val, len) ::ₘ held := hserve
      obtain ⟨hcreated, hunmapped, hlost, hheld⟩ := accounts_of_concerns hquiet
      simp [produced, MmapBlock.range, hcreated, hunmapped, hlost, hheld, add_comm held]

/-- A failed constructor leaves the table as it was, unless `mmap` answered with the null address. -/
theorem held_eq_iff_of_creation {len : ℕ} {exit : Exit}
    (h : Creation tableEnv len held tr (.error exit) held') : held' = held ↔ ¬ NullAnswered tr := by
  obtain ⟨hheld', _⟩ := accounts_of_creation h
  rw [← lost_eq_zero_iff, hheld', produced, Multiset.map_zero, zero_add, add_eq_left]

theorem accounts_of_drop {block : MmapBlock} {r : Except Exit Unit}
    (h : tableEnv.Runs block.drop (block.range ::ₘ held) tr r held') :
    held' = held ∧ created tr = 0 ∧ unmapped tr = {block.range} ∧ lost tr = 0 ∧ UnmapsHeld tr := by
  obtain ⟨answer, held₁, tr', hserve, hrest, rfl⟩ := tableEnv_mapsOnly.quiet.runs_ask_iff.mp h
  obtain ⟨rfl, rfl, rfl⟩ := Env.runs_ret_iff.mp hrest
  exact ⟨held_of_unmap hserve, created_munmap, rfl, lost_munmap, by simp [MmapBlock.range]⟩

theorem creation_of_run {request : Request} {r : Except Exit MmapBlock}
    (h : tableEnv.Runs (request.run w) held tr r held') : ∃ len, Creation tableEnv len held tr r held' := by
  cases request with
  | new len => exact ⟨len, runs_new tableEnv_mapsOnly h⟩
  | newOnNode env len node => exact ⟨len, runs_newOnNode tableEnv_mapsOnly h⟩

theorem Process.Accounted.step {p p' : Process} (hp : p.Accounted tr) (h : BlockStep w p tr' p') :
    p'.Accounted (tr ++ tr') := by
  obtain ⟨hheld, hcreated, hunmaps⟩ := hp
  cases h with
  | create hrun =>
      obtain ⟨len, hcreation⟩ := creation_of_run hrun
      obtain ⟨hheld', hcreated', hunmaps'⟩ := accounts_of_creation hcreation
      dsimp only at hheld hcreated
      refine ⟨?_, ?_, unmapsHeld_append.mpr ⟨hunmaps, hunmaps'⟩⟩ <;> dsimp only
      · rw [hheld', hheld, Multiset.map_add, lost_append]
        abel
      · rw [created_append, unmapped_append, hcreated, hcreated', hheld']
        abel
  | @drop held held' live block _ _ hrun =>
      dsimp only at hheld hcreated
      have hsplit : held = block.range ::ₘ (live.map MmapBlock.range + lost tr) := by
        rw [hheld, Multiset.map_cons, Multiset.cons_add]
      subst hsplit
      obtain ⟨rfl, hcreated', hunmapped', hlost', hunmaps'⟩ := accounts_of_drop hrun
      refine ⟨?_, ?_, unmapsHeld_append.mpr ⟨hunmaps, hunmaps'⟩⟩ <;> dsimp only
      · rw [lost_append, hlost', add_zero]
      · rw [created_append, unmapped_append, hcreated, hcreated', hunmapped', ← Multiset.singleton_add]
        abel

/-- Induction over the run: the initial process holds nothing, and every operation keeps the account. -/
theorem accounted_of_runs {p : Process} (h : BlockRuns w .initial tr p) : p.Accounted tr := by
  induction h with
  | refl => exact ⟨rfl, rfl, unmapsHeld_nil⟩
  | tail _ hstep ih => exact ih.step hstep

/-! ### Whole runs -/

/-- The table is exact in every state a run reaches, and a failed constructor leaves it as it was, unless
some `mmap` of the run was answered with the null address, and only then. -/
theorem mmapBlock_table_exact_iff (w : Width) :
    (∀ p tr, BlockRuns w .initial tr p → (p.Exact tr ↔ ¬ NullAnswered tr)) ∧
      ∀ p tr (request : Request) exit tr' held', BlockRuns w .initial tr p →
        tableEnv.Runs (request.run w) p.held tr' (.error exit) held' →
        (held' = p.held ↔ ¬ NullAnswered tr') := by
  constructor
  · intro p tr h
    obtain ⟨hheld, hcreated, hunmaps⟩ := accounted_of_runs h
    rw [← lost_eq_zero_iff]
    constructor
    · intro hexact
      have hsum := hheld
      rw [hexact.held_eq, eq_comm, add_eq_left] at hsum
      exact hsum
    · intro hlost
      rw [hlost, add_zero] at hheld
      exact ⟨hheld, hheld ▸ hcreated, hunmaps⟩
  · intro p tr request exit tr' held' _ hrun
    obtain ⟨len, hcreation⟩ := creation_of_run hrun
    exact held_eq_iff_of_creation hcreation

def pageTrace (ptr : NonNull) : List TableCall :=
  [⟨0, .mmap 4096 false, .ok ptr.val⟩, ⟨{(ptr.val, 4096)}, .madviseHugepage ptr 4096, .ok ()⟩]

theorem runs_new_page (ptr : NonNull) : tableEnv.Runs (Request.run .w64 (.new 4096)) 0 (pageTrace ptr)
    (.ok ⟨ptr, 4096, none⟩) {(ptr.val, 4096)} := by
  have hregion : tableEnv.Runs (mapRegion 4096) 0 [⟨0, .mmap 4096 false, .ok ptr.val⟩] (.ok ptr)
      {(ptr.val, 4096)} := by
    refine .ask .refl rfl ?_
    simp only [Prog.ret_bind, dif_neg ptr.2]
    exact .ret _ _
  rw [Request.run, MmapBlock.new, if_neg (by decide)]
  exact hregion.bind (.ask .refl rfl (.ret _ _))

/-- A block of one page is created and dropped: the table is exact at the end of the run. And `mmap` may
refuse the page, which leaves the table as it was. -/
theorem mmapBlock_table_exact_iff_page :
    (∃ tr, BlockRuns .w64 .initial tr .initial ∧ (4096, 4096) ∈ unmapped tr ∧
      Process.initial.Exact tr) ∧
      ∃ source tr, tableEnv.Runs (Request.run .w64 (.new 4096)) 0 tr (.error (.err source)) 0 ∧
        ¬ NullAnswered tr := by
  let ptr : NonNull := ⟨4096, by decide⟩
  have hdrop : tableEnv.Runs (MmapBlock.drop ⟨ptr, 4096, none⟩) {(ptr.val, 4096)}
      [⟨{(ptr.val, 4096)}, .munmap ptr 4096, .ok ()⟩] (.ok ()) 0 :=
    .ask .refl ⟨Multiset.mem_singleton_self _, (Multiset.erase_singleton _).symm⟩ (.ret _ _)
  have hcreate : BlockStep .w64 .initial (pageTrace ptr)
      ⟨{(ptr.val, 4096)}, ⟨ptr, 4096, none⟩ ::ₘ 0⟩ := .create (runs_new_page ptr)
  have hruns : BlockRuns .w64 .initial _ .initial := .tail (.tail .refl hcreate) (.drop hdrop)
  have hfailed : tableEnv.Runs (Request.run .w64 (.new 4096)) 0
      [⟨0, .mmap 4096 false, .error (.os 12)⟩] (.error (.err (.system "mmap" (.os 12)))) 0 := by
    rw [Request.run, MmapBlock.new, if_neg (by decide)]
    exact .ask .refl rfl (.fail _ _)
  refine ⟨⟨_, hruns, ?_, ?_⟩, _, _, hfailed, ?_⟩
  · exact Multiset.mem_coe.mpr (List.mem_filterMap.mpr ⟨_, .tail _ (.tail _ (.head _)), rfl⟩)
  · refine ((mmapBlock_table_exact_iff .w64).1 _ _ hruns).mpr ?_
    rintro ⟨held, len, hugetlb, hmem⟩
    simp [pageTrace, ptr] at hmem
  · exact ((mmapBlock_table_exact_iff .w64).2 _ _ _ _ _ _ hruns hfailed).mp rfl

/-- A mapping at the null address is reported as an error and stays. -/
theorem not_mmapBlock_table_exact :
    ¬ ∀ (w : Width) (p : Process) (tr : List TableCall), BlockRuns w .initial tr p → p.Exact tr := by
  intro hclaim
  have hnull : tableEnv.Runs (Request.run .w64 (.new 4096)) 0 [⟨0, .mmap 4096 false, .ok 0⟩]
      (.error (.err .nullPointer)) {(0, 4096)} := by
    rw [Request.run, MmapBlock.new, if_neg (by decide)]
    exact .ask .refl rfl (.fail _ _)
  have hexact := hclaim .w64 _ _ (.tail .refl (.create hnull))
  exact Multiset.singleton_ne_zero _ hexact.held_eq

end KernelKit
