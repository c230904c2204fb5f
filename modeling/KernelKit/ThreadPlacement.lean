import KernelKit.NumaPlacement

/-!
# Where a pinned thread runs

A thread is pinned to a core or to a node, asks on which node it is, and is moved by the scheduler between
any two calls among the cpus it is confined to. In every run it is confined to what the last pin that
succeeded asked for, and what it is told is the node of such a cpu. A pin to a node without libnuma
succeeds and leaves the thread as it is.
-/

namespace KernelKit.Numa
open Interaction Relation

inductive SchedOp
  | schedSetaffinity (pid cpusetsize : ℕ) (mask : List ℕ)
  | getcpu
  | lastOsError
  deriving DecidableEq, Repr

/-- `getcpu` answers with its result and what it stores for the cpu and the node. -/
abbrev SchedOp.Ans : SchedOp → Type
  | .schedSetaffinity _ _ _ => ℤ
  | .getcpu => ℤ × ℕ × ℕ
  | .lastOsError => IoError

abbrev SchedProg (α : Type) := Prog SchedOp SchedOp.Ans Exit α

def cpuSetsize : ℕ := 1024

def cpuSetWords (w : Width) : ℕ := (cpuSetsize + w.bits - 1) / w.bits

def coreMask (w : Width) (coreId : ℕ) : List ℕ :=
  (List.replicate (cpuSetWords w) 0).modify (coreId / w.bits) (· ||| 1 <<< (coreId % w.bits))

/-- The error built from the bare kind reads as the kind does. -/
def pinToCore (w : Width) (coreId : ℕ) : SchedProg Unit :=
  let maxCore := cpuSetWords w * w.bits
  if maxCore ≤ coreId then
    throw (.system "sched_setaffinity" (.custom .invalidInput "invalid input parameter"))
  else do
    let mask := coreMask w coreId
    let result ← Prog.call (SchedOp.schedSetaffinity 0 (mask.length * (w.bits / 8)) mask)
    if result ≠ 0 then do
      let source ← Prog.call SchedOp.lastOsError
      throw (.system "sched_setaffinity" source)
    else pure ()

def currentNode : SchedProg (Option ℕ) := do
  let (result, _, node) ← Prog.call SchedOp.getcpu
  if result = 0 then pure (some node) else pure none

/-! ### The machine -/

/-- The node of each cpu, and the cpus the process may use at all. -/
structure Topology where
  nodeOf : ℕ → ℕ
  allowed : ℕ → Prop

structure Thread where
  affinity : ℕ → Prop
  cpu : ℕ
  errno : ℕ

/-- The cpus the kernel reads off a mask of so many bytes. -/
def MaskCpus (w : Width) (cpusetsize : ℕ) (mask : List ℕ) (cpu : ℕ) : Prop :=
  cpu < 8 * cpusetsize ∧ (mask.getD (cpu / w.bits) 0).testBit (cpu % w.bits) = true

/-- The thread is confined to the cpus it may use of those it asks for, and runs on one of them. -/
def Confined (topology : Topology) (wanted : ℕ → Prop) (t' : Thread) : Prop :=
  (t'.affinity = fun cpu => topology.allowed cpu ∧ wanted cpu) ∧ t'.affinity t'.cpu

def Moved (t t' : Thread) : Prop :=
  t'.affinity = t.affinity ∧ t'.affinity t'.cpu ∧ t'.errno = t.errno

def schedEnv (topology : Topology) (w : Width) : Env Thread SchedOp SchedOp.Ans where
  serve
    | .schedSetaffinity pid cpusetsize mask, t, result, t' =>
      result = -1 ∧ (∃ errno, t' = { t with errno := errno }) ∨
        result = 0 ∧ pid = 0 ∧ Confined topology (MaskCpus w cpusetsize mask) t'
    | .getcpu, t, (result, cpu, node), t' =>
      result = -1 ∧ (∃ errno, t' = { t with errno := errno }) ∨
        result = 0 ∧ cpu = t.cpu ∧ node = topology.nodeOf t.cpu ∧ t' = t
    | .lastOsError, t, source, t' => source = .os t.errno ∧ t' = t
  interfere := Moved

def libnumaEnv (topology : Topology) : Env Thread (MemOp Unit) MemOp.Ans where
  serve
    | .runOnNode node, t, (result, _), t' =>
      result ≠ 0 ∧ t' = t ∨
        result = 0 ∧ Confined topology (fun cpu => (topology.nodeOf cpu : ℤ) = node.toInt) t'
    | _, t, _, t' => t' = t
  interfere := Moved

/-! ### Runs of a thread -/

inductive Act
  | core (coreId : ℕ) (r : Except Exit Unit)
  | node (node : UInt32) (r : Except Exit Unit)
  | asked (r : Except Exit (Option ℕ))

inductive ThreadRuns (topology : Topology) (w : Width) (env : NumaEnv) (t : Thread) :
    List Act → Thread → Prop
  | refl : ThreadRuns topology w env t [] t
  | core {t₁ t₂ : Thread} {acts : List Act} {coreId : ℕ} {r : Except Exit Unit}
      {tr : List (Call Thread SchedOp SchedOp.Ans)} : ThreadRuns topology w env t acts t₁ →
      (schedEnv topology w).Runs (pinToCore w coreId) t₁ tr r t₂ →
      ThreadRuns topology w env t (acts ++ [.core coreId r]) t₂
  | node {t₁ t₂ : Thread} {acts : List Act} {node : UInt32} {r : Except Exit Unit}
      {tr : List (Call Thread (MemOp Unit) MemOp.Ans)} : ThreadRuns topology w env t acts t₁ →
      (libnumaEnv topology).Runs (pinToNumaNode w env node) t₁ tr r t₂ →
      ThreadRuns topology w env t (acts ++ [.node node r]) t₂
  | asked {t₁ t₂ : Thread} {acts : List Act} {r : Except Exit (Option ℕ)}
      {tr : List (Call Thread SchedOp SchedOp.Ans)} : ThreadRuns topology w env t acts t₁ →
      (schedEnv topology w).Runs currentNode t₁ tr r t₂ →
      ThreadRuns topology w env t (acts ++ [.asked r]) t₂
  | elsewhere {t₁ t₂ : Thread} {acts : List Act} (errno : ℕ) : ThreadRuns topology w env t acts t₁ →
      Moved t₁ t₂ → ThreadRuns topology w env t acts { t₂ with errno := errno }

def Act.confines (topology : Topology) (env : NumaEnv) (affinity : ℕ → Prop) : Act → ℕ → Prop
  | .core coreId (.ok ()), cpu => topology.allowed cpu ∧ cpu = coreId
  | .node n (.ok ()), cpu =>
    match tryLoad env with
    | .ok (some _) => topology.allowed cpu ∧ topology.nodeOf cpu = n.toNat
    | _ => affinity cpu
  | _, cpu => affinity cpu

def affinityAfter (topology : Topology) (env : NumaEnv) : (ℕ → Prop) → List Act → ℕ → Prop :=
  List.foldl (Act.confines topology env)

variable {topology : Topology} {w : Width} {env : NumaEnv} {t t' : Thread} {cpu : ℕ}

/-! ### One act -/

theorem cpuSetWords_mul (w : Width) : cpuSetWords w * w.bits = cpuSetsize := by cases w <;> rfl

theorem maskCpus_coreMask {coreId : ℕ} (h : coreId < cpuSetsize) :
    MaskCpus w ((coreMask w coreId).length * (w.bits / 8)) (coreMask w coreId) cpu ↔ cpu = coreId := by
  have hsize : 8 * (cpuSetWords w * (w.bits / 8)) = cpuSetsize := by cases w <;> rfl
  have hword : cpu < cpuSetsize → cpu / w.bits < cpuSetWords w := fun hcpu =>
    Nat.div_lt_of_lt_mul (by rwa [Nat.mul_comm, cpuSetWords_mul])
  have hbit : ∀ k j : ℕ, (0 ||| 1 <<< k).testBit j = true ↔ j = k := fun k j => by
    rw [Nat.zero_or, Nat.one_shiftLeft, Nat.testBit_two_pow, decide_eq_true_eq, eq_comm]
  unfold MaskCpus coreMask
  rw [List.length_modify, List.length_replicate, hsize, List.getD_eq_getElem?_getD, List.getElem?_modify,
    List.getElem?_replicate]
  constructor
  · rintro ⟨hcpu, hset⟩
    rw [if_pos (hword hcpu), Option.map_eq_map, Option.map_some, Option.getD_some] at hset
    split_ifs at hset with hsame
    · rw [← Nat.div_add_mod cpu w.bits, ← Nat.div_add_mod coreId w.bits, hsame, (hbit _ _).mp hset]
    · rw [Nat.zero_testBit] at hset
      cases hset
  · rintro rfl
    rw [if_pos (hword h), Option.map_eq_map, Option.map_some, Option.getD_some, if_pos rfl]
    exact ⟨h, (hbit _ _).mpr rfl⟩

theorem moved_of_interfere (hrun : t.affinity t.cpu) (h : ReflTransGen Moved t t') : Moved t t' := by
  induction h with
  | refl => exact ⟨rfl, hrun, rfl⟩
  | tail _ hstep ih => exact ⟨hstep.1.trans ih.1, hstep.2.1, hstep.2.2.trans ih.2.2⟩

/-- A pin to a core confines the thread to it, or leaves it where it may be. -/
theorem runs_pinToCore {coreId : ℕ} {r : Except Exit Unit} {tr : List (Call Thread SchedOp SchedOp.Ans)}
    (hrun : t.affinity t.cpu) (h : (schedEnv topology w).Runs (pinToCore w coreId) t tr r t') :
    (r = .ok () → coreId < cpuSetsize ∧
        t'.affinity = fun cpu => topology.allowed cpu ∧ cpu = coreId) ∧
      (r ≠ .ok () → t'.affinity = t.affinity) ∧ t'.affinity t'.cpu := by
  unfold pinToCore at h
  rw [cpuSetWords_mul] at h
  dsimp only at h
  split_ifs at h with hcore
  · obtain ⟨-, rfl, rfl⟩ := runs_throw_iff.mp h
    exact ⟨nofun, fun _ => rfl, hrun⟩
  obtain ⟨t₁, result, t₂, tr', hrely, hserve, hrest, rfl⟩ := Env.runs_ask_iff.mp h
  have hmoved := moved_of_interfere hrun hrely
  rcases hserve with ⟨rfl, errno, rfl⟩ | ⟨rfl, -, hconfined, hcpu⟩
  · rw [Prog.ret_bind, if_pos (by decide : (-1 : ℤ) ≠ 0)] at hrest
    obtain ⟨t₃, source, t₄, tr₃, hrely', ⟨-, rfl⟩, hthrow, rfl⟩ := Env.runs_ask_iff.mp hrest
    obtain ⟨-, rfl, rfl⟩ := runs_throw_iff.mp hthrow
    have hmoved' : Moved { t₁ with errno := errno } t' := moved_of_interfere hmoved.2.1 hrely'
    exact ⟨nofun, fun _ => hmoved'.1.trans hmoved.1, hmoved'.2.1⟩
  · rw [Prog.ret_bind, if_neg (by decide : ¬ (0 : ℤ) ≠ 0)] at hrest
    obtain ⟨-, rfl, rfl⟩ := Env.runs_ret_iff.mp hrest
    refine ⟨fun _ => ⟨not_le.mp hcore, ?_⟩, fun hr => absurd rfl hr, hcpu⟩
    rw [hconfined]
    funext cpu
    rw [maskCpus_coreMask (not_le.mp hcore)]

theorem runs_pinToNumaNode {node : UInt32} {r : Except Exit Unit}
    {tr : List (Call Thread (MemOp Unit) MemOp.Ans)} (hrun : t.affinity t.cpu)
    (h : (libnumaEnv topology).Runs (pinToNumaNode w env node) t tr r t') :
    t'.affinity = Act.confines topology env t.affinity (.node node r) ∧ t'.affinity t'.cpu := by
  unfold pinToNumaNode pinToNode at h
  cases hnode : validateNode w env node with
  | error error =>
      rw [hnode] at h
      obtain ⟨-, rfl, rfl⟩ := runs_throw_iff.mp h
      exact ⟨rfl, hrun⟩
  | ok _ =>
      rw [hnode] at h
      dsimp only at h
      cases hload : tryLoad env with
      | error error =>
          rw [hload] at h
          obtain ⟨-, rfl, rfl⟩ := runs_throw_iff.mp h
          exact ⟨rfl, hrun⟩
      | ok library =>
          rw [hload] at h
          cases library with
          | none =>
              obtain ⟨-, rfl, rfl⟩ := Env.runs_ret_iff.mp h
              refine ⟨?_, hrun⟩
              funext cpu
              simp only [Act.confines, hload]
          | some library =>
              dsimp only [runOnNode, callWithNode] at h
              cases hn : cIntTryFrom node with
              | none =>
                  rw [hn] at h
                  obtain ⟨-, rfl, rfl⟩ := runs_throw_iff.mp h
                  exact ⟨rfl, hrun⟩
              | some n =>
                  rw [hn] at h
                  obtain ⟨t₁, ⟨result, source⟩, t₂, tr', hrely, hserve, hrest, rfl⟩ := Env.runs_ask_iff.mp h
                  have hmoved := moved_of_interfere hrun hrely
                  dsimp only [Prog.ret_bind] at hrest
                  rcases hserve with ⟨hfailed, rfl⟩ | ⟨rfl, hconfined, hcpu⟩
                  · rw [if_neg hfailed] at hrest
                    obtain ⟨-, rfl, rfl⟩ := runs_throw_iff.mp hrest
                    exact ⟨hmoved.1, hmoved.2.1⟩
                  · rw [if_pos rfl] at hrest
                    obtain ⟨-, rfl, rfl⟩ := Env.runs_ret_iff.mp hrest
                    refine ⟨?_, hcpu⟩
                    rw [hconfined]
                    funext cpu
                    simp only [Act.confines, hload, toInt_of_cIntTryFrom hn, Nat.cast_inj]

theorem runs_currentNode {r : Except Exit (Option ℕ)} {tr : List (Call Thread SchedOp SchedOp.Ans)}
    (hrun : t.affinity t.cpu) (h : (schedEnv topology w).Runs currentNode t tr r t') :
    t'.affinity = t.affinity ∧ t'.affinity t'.cpu ∧
      ∀ node, r = .ok (some node) → ∃ cpu, t.affinity cpu ∧ topology.nodeOf cpu = node := by
  obtain ⟨t₁, ⟨result, cpu, node⟩, t₂, tr', hrely, hserve, hrest, rfl⟩ := Env.runs_ask_iff.mp h
  have hmoved := moved_of_interfere hrun hrely
  rcases hserve with ⟨rfl, errno, rfl⟩ | ⟨rfl, rfl, rfl, rfl⟩
  · obtain ⟨-, rfl, rfl⟩ := Env.runs_ret_iff.mp hrest
    exact ⟨hmoved.1, hmoved.2.1, nofun⟩
  · obtain ⟨-, rfl, rfl⟩ := Env.runs_ret_iff.mp hrest
    refine ⟨hmoved.1, hmoved.2.1, ?_⟩
    rintro node ⟨⟩
    exact ⟨t'.cpu, hmoved.1 ▸ hmoved.2.1, rfl⟩

/-! ### Whole runs -/

theorem affinityAfter_append {affinity : ℕ → Prop} {acts acts' : List Act} :
    affinityAfter topology env affinity (acts ++ acts') =
      affinityAfter topology env (affinityAfter topology env affinity acts) acts' :=
  List.foldl_append

theorem affinityAfter_singleton {affinity : ℕ → Prop} {act : Act} :
    affinityAfter topology env affinity [act] = act.confines topology env affinity := rfl

/-- The acts an `Ok` of a pin to a core and an answer of `current_node` tell something about. -/
def Act.Sound (topology : Topology) (affinity : ℕ → Prop) : Act → Prop
  | .core coreId r => r = .ok () → coreId < cpuSetsize
  | .node _ _ => True
  | .asked r => ∀ node, r = .ok (some node) → ∃ cpu, affinity cpu ∧ topology.nodeOf cpu = node

def SoundActs (topology : Topology) (env : NumaEnv) (affinity : ℕ → Prop) (acts : List Act) : Prop :=
  ∀ pre act post, acts = pre ++ act :: post → act.Sound topology (affinityAfter topology env affinity pre)

theorem soundActs_snoc {affinity : ℕ → Prop} {acts : List Act} {act : Act}
    (h : SoundActs topology env affinity acts)
    (hact : act.Sound topology (affinityAfter topology env affinity acts)) :
    SoundActs topology env affinity (acts ++ [act]) := by
  intro pre act' post hsplit
  rcases List.eq_nil_or_concat post with rfl | ⟨post', last, rfl⟩
  · obtain ⟨rfl, hlast⟩ := List.append_inj' hsplit rfl
    obtain ⟨rfl, -⟩ := List.cons.inj hlast
    exact hact
  · rw [List.concat_eq_append, ← List.cons_append, ← List.append_assoc] at hsplit
    exact h pre act' post' (List.append_inj' hsplit rfl).1

/-- In every run the thread is confined to what the last pin that took effect asked for, and runs on one
of these cpus; and each node it was told is the node of a cpu it was confined to at that time. -/
theorem pins_exact (topology : Topology) (w : Width) (env : NumaEnv) (t t' : Thread) (acts : List Act)
    (hrun : t.affinity t.cpu) (h : ThreadRuns topology w env t acts t') :
    t'.affinity = affinityAfter topology env t.affinity acts ∧ t'.affinity t'.cpu ∧
      SoundActs topology env t.affinity acts := by
  induction h with
  | refl => exact ⟨rfl, hrun, fun pre act post hsplit => by simp at hsplit⟩
  | @core _ _ acts coreId r _ _ hpin ih =>
      obtain ⟨haffinity, hcpu, hsound⟩ := ih
      obtain ⟨hok, hfailed, hcpu'⟩ := runs_pinToCore hcpu hpin
      refine ⟨?_, hcpu', soundActs_snoc hsound fun hr => (hok hr).1⟩
      rw [affinityAfter_append, affinityAfter_singleton, ← haffinity]
      by_cases hr : r = .ok ()
      · subst hr
        exact (hok rfl).2
      · rw [hfailed hr]
        match r, hr with
        | .error _, _ => rfl
        | .ok (), hr => exact absurd rfl hr
  | node _ hpin ih =>
      obtain ⟨haffinity, hcpu, hsound⟩ := ih
      obtain ⟨haffinity', hcpu'⟩ := runs_pinToNumaNode hcpu hpin
      refine ⟨?_, hcpu', soundActs_snoc hsound trivial⟩
      rw [affinityAfter_append, affinityAfter_singleton, ← haffinity]
      exact haffinity'
  | asked _ hasked ih =>
      obtain ⟨haffinity, hcpu, hsound⟩ := ih
      obtain ⟨haffinity', hcpu', htold⟩ := runs_currentNode hcpu hasked
      refine ⟨?_, hcpu', soundActs_snoc hsound (haffinity ▸ htold)⟩
      rw [affinityAfter_append, affinityAfter_singleton, ← haffinity]
      exact haffinity'
  | elsewhere errno _ hmoved ih =>
      obtain ⟨haffinity, hcpu, hsound⟩ := ih
      exact ⟨hmoved.1.trans haffinity, hmoved.2.1, hsound⟩

def fourEach : Topology := ⟨fun cpu => cpu / 4, fun cpu => cpu < 8⟩

/-- A thread pinned to the sixth cpu and then told that it is on the second node. -/
theorem pins_exact_fourEach : ∃ t', ThreadRuns fourEach .w64 twoNodes ⟨fourEach.allowed, 0, 0⟩
      [.core 5 (.ok ()), .asked (.ok (some 1))] t' ∧
    t'.affinity = affinityAfter fourEach twoNodes fourEach.allowed [.core 5 (.ok ()), .asked (.ok (some 1))] ∧
      t'.affinity t'.cpu := by
  have hcpu : (⟨fourEach.allowed, 0, 0⟩ : Thread).affinity 0 := by show (0 : ℕ) < 8; decide
  have hconfined : Confined fourEach (MaskCpus .w64 128 (coreMask .w64 5))
      ⟨fun cpu => fourEach.allowed cpu ∧ cpu = 5, 5, 0⟩ := by
    refine ⟨funext fun cpu => ?_, by show (5 : ℕ) < 8; decide, rfl⟩
    have hmask : MaskCpus .w64 128 (coreMask .w64 5) cpu ↔ cpu = 5 :=
      maskCpus_coreMask (show 5 < cpuSetsize by decide)
    exact propext (and_congr_right fun _ => hmask.symm)
  have hpin : (schedEnv fourEach .w64).Runs (pinToCore .w64 5) ⟨fourEach.allowed, 0, 0⟩
      [⟨⟨fourEach.allowed, 0, 0⟩, .schedSetaffinity 0 128 (coreMask .w64 5), (0 : ℤ)⟩] (.ok ())
      ⟨fun cpu => fourEach.allowed cpu ∧ cpu = 5, 5, 0⟩ :=
    .ask .refl (.inr ⟨rfl, rfl, hconfined⟩) (.ret _ _)
  have hasked : (schedEnv fourEach .w64).Runs currentNode ⟨fun cpu => fourEach.allowed cpu ∧ cpu = 5, 5, 0⟩
      [⟨⟨fun cpu => fourEach.allowed cpu ∧ cpu = 5, 5, 0⟩, .getcpu, ((0 : ℤ), 5, 1)⟩] (.ok (some 1))
      ⟨fun cpu => fourEach.allowed cpu ∧ cpu = 5, 5, 0⟩ :=
    .ask .refl (.inr ⟨rfl, rfl, rfl, rfl⟩) (.ret _ _)
  have hstart : ThreadRuns fourEach .w64 twoNodes ⟨fourEach.allowed, 0, 0⟩ [] _ := .refl
  have hruns := ThreadRuns.asked (ThreadRuns.core hstart hpin) hasked
  obtain ⟨haffinity, hon, -⟩ := pins_exact fourEach .w64 twoNodes _ _ _ hcpu hruns
  exact ⟨_, hruns, haffinity, hon⟩

end KernelKit.Numa
