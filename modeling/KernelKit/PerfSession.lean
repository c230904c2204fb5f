import KernelKit.PerfCounter
import KernelKit.Tally

/-!
# Who owns the counters' descriptors

A session is a process with its live counters, which it opens, reads, resets and drops in any order while
the rest of the process goes on. Every counter of the kernel belongs to one live counter, each descriptor
that was opened is closed once, by its owner, and no other descriptor ever is; so what a counter reads is
what it counted since it was opened or last reset.
-/

namespace KernelKit.Perf
open Interaction Relation

abbrev PerfCall := Call Kernel PerfOp PerfOp.Ans

def openedBy : PerfCall → Option ℤ
  | ⟨_, .perfEventOpen .., result⟩ => if 0 ≤ result then some result else none
  | _ => none

def closedBy : PerfCall → Option ℤ
  | ⟨_, .close fd, _⟩ => some fd
  | _ => none

def opened (tr : List PerfCall) : Multiset ℤ := tally openedBy tr

def closed (tr : List PerfCall) : Multiset ℤ := tally closedBy tr

/-- Every `close` is of a descriptor that is open on a counter at that moment. -/
def ClosesCounters (tr : List PerfCall) : Prop :=
  ∀ c ∈ tr, ∀ fd ∈ closedBy c, (c.state.counting fd).isSome

structure Session where
  kernel : Kernel
  live : Multiset PerfCounter

inductive Action
  | opened (counter : HwCounter) (r : Except Failure PerfCounter)
  | read (self : PerfCounter) (r : Except Failure UInt64)
  | reset (self : PerfCounter) (r : Except Failure Unit)
  | dropped (self : PerfCounter)
  | elsewhere

def produced : Except Failure PerfCounter → Multiset PerfCounter
  | .ok self => {self}
  | .error _ => 0

inductive SessionStep (host : PerfHost) : Session → Action → List PerfCall → Session → Prop
  | opened {k k' : Kernel} {live : Multiset PerfCounter} {tr : List PerfCall} {counter : HwCounter}
      {r : Except Failure PerfCounter} :
      (perfEnv host).Runs (PerfCounter.openOn host.order counter) k tr r k' →
      SessionStep host ⟨k, live⟩ (.opened counter r) tr ⟨k', produced r + live⟩
  | read {k k' : Kernel} {live : Multiset PerfCounter} {tr : List PerfCall} {self : PerfCounter}
      {r : Except Failure UInt64} : self ∈ live → (perfEnv host).Runs self.read k tr r k' →
      SessionStep host ⟨k, live⟩ (.read self r) tr ⟨k', live⟩
  | reset {k k' : Kernel} {live : Multiset PerfCounter} {tr : List PerfCall} {self : PerfCounter}
      {r : Except Failure Unit} : self ∈ live → (perfEnv host).Runs self.reset k tr r k' →
      SessionStep host ⟨k, live⟩ (.reset self r) tr ⟨k', live⟩
  | dropped {k k' : Kernel} {live : Multiset PerfCounter} {tr : List PerfCall} {self : PerfCounter}
      {r : Except Failure Unit} : (perfEnv host).Runs self.drop k tr r k' →
      SessionStep host ⟨k, self ::ₘ live⟩ (.dropped self) tr ⟨k', live⟩
  | elsewhere {k k' : Kernel} {live : Multiset PerfCounter} (errno : ℕ) : ReflTransGen Elsewhere k k' →
      SessionStep host ⟨k, live⟩ .elsewhere [] ⟨{ k' with errno := errno }, live⟩

inductive SessionRuns (host : PerfHost) (s : Session) : List Action → List PerfCall → Session → Prop
  | refl : SessionRuns host s [] [] s
  | tail {s₁ s₂ : Session} {acts : List Action} {act : Action} {tr tr' : List PerfCall} :
      SessionRuns host s acts tr s₁ → SessionStep host s₁ act tr' s₂ →
      SessionRuns host s (acts ++ [act]) (tr ++ tr') s₂

/-- Every live counter has a descriptor of its own, which is open on its event, and no other descriptor is
open on a counter. -/
structure Owners (host : PerfHost) (k : Kernel) (live : Multiset PerfCounter) : Prop where
  distinct : (live.map PerfCounter.fd).Nodup
  backed : ∀ self ∈ live, ∃ c, k.counting self.fd = some c ∧
    c.event = host.hardware self.counterType ∧ c.base ≤ c.total
  owned : ∀ fd, (k.counting fd).isSome → fd ∈ live.map PerfCounter.fd

/-- The descriptors that were opened are those that were closed and those of the live counters. -/
structure Session.Exact (host : PerfHost) (s : Session) (tr : List PerfCall) : Prop where
  owners : Owners host s.kernel s.live
  ledger : opened tr = closed tr + s.live.map PerfCounter.fd
  closesCounters : ClosesCounters tr

variable {host : PerfHost} {k k' : Kernel} {live : Multiset PerfCounter} {tr tr' : List PerfCall}
  {self : PerfCounter}

/-! ### One operation -/

@[simp] theorem opened_append : opened (tr ++ tr') = opened tr + opened tr' := tally_append

@[simp] theorem closed_append : closed (tr ++ tr') = closed tr + closed tr' := tally_append

theorem closesCounters_append : ClosesCounters (tr ++ tr') ↔ ClosesCounters tr ∧ ClosesCounters tr' :=
  List.forall_mem_append

theorem closesCounters_of_closed (h : closed tr = 0) : ClosesCounters tr := by
  intro c hc fd hfd
  have hmem : fd ∈ closed tr := mem_tally.mpr ⟨c, hc, hfd⟩
  rw [h] at hmem
  exact absurd hmem (Multiset.notMem_zero fd)

theorem runs_failLastOsError {α : Type} {operation : String} {r : Except Failure α}
    (h : (perfEnv host).Runs (failLastOsError operation) k tr r k') :
    ∃ errno, r = .error (.system operation (.os errno)) ∧ CountsOn k k' ∧ opened tr = 0 ∧
      closed tr = 0 := by
  obtain ⟨k₁, errno, k₂, tr', hrely, ⟨-, rfl⟩, hrest, rfl⟩ := Env.runs_ask_iff.mp h
  obtain ⟨rfl, rfl, rfl⟩ := Env.runs_fail_iff.mp hrest
  exact ⟨errno, rfl, .of_elsewhere hrely, rfl, rfl⟩

theorem i32TryFrom_of_fd {fd : ℤ} (hnonneg : 0 ≤ fd) (hlt : fd < 2 ^ 31) :
    (i32TryFrom fd).getD (-1) = fd := by
  rw [i32TryFrom, if_pos ⟨by omega, hlt⟩, Option.getD_some]

/-- An opened counter's descriptor was not open before, and is open on the counter's event. -/
theorem runs_openOn {counter : HwCounter} {r : Except Failure PerfCounter}
    (h : (perfEnv host).Runs (PerfCounter.openOn host.order counter) k tr r k') :
    closed tr = 0 ∧ ((∃ errno, r = .error (.system "perf_event_open" (.os errno)) ∧ CountsOn k k' ∧
        opened tr = 0) ∨
      ∃ fd k₁, r = .ok ⟨fd, counter⟩ ∧ CountsOn k k₁ ∧ k₁.counting fd = none ∧ opened tr = {fd} ∧
        k' = k₁.install fd (some (.counting ⟨host.hardware counter, 0, 0⟩))) := by
  obtain ⟨k₁, result, k₂, tr', hrely, hserve, hrest, rfl⟩ := Env.runs_ask_iff.mp h
  have hcounts := CountsOn.of_elsewhere hrely
  rcases hserve with hrefused | ⟨image, hcopy, hfree, hnonneg, hlt, rfl⟩
  · obtain rfl := hrefused.1
    obtain ⟨errno, rfl, hcounts', hopened, hclosed⟩ := runs_failLastOsError hrest
    refine ⟨hclosed, .inl ⟨errno, rfl, (hcounts.trans (.of_refused hrefused)).trans hcounts', hopened⟩⟩
  · rw [Prog.ret_bind, i32TryFrom_of_fd hnonneg hlt, if_neg (not_lt.mpr hnonneg)] at hrest
    obtain ⟨rfl, rfl, rfl⟩ := Env.runs_ret_iff.mp hrest
    obtain ⟨image', hcopy', hevent⟩ := copyAttr_attr host counter
    obtain rfl : image = image' := Option.some.inj (hcopy.symm.trans hcopy')
    refine ⟨rfl, .inr ⟨result, k₁, rfl, hcounts, ?_, tally_cons_of_some (if_pos hnonneg), ?_⟩⟩
    · rw [Kernel.counting, hfree]
    · rw [hevent]

/-- What a read returns is what the counter counted since its last reset. -/
theorem runs_read {c : Counting} {r : Except Failure UInt64} (hc : k.counting self.fd = some c)
    (h : (perfEnv host).Runs self.read k tr r k') :
    CountsOn k k' ∧ opened tr = 0 ∧ closed tr = 0 ∧ ∀ v, r = .ok v →
      ∃ c', k'.counting self.fd = some c' ∧ v = UInt64.ofNat (c'.total - c'.base) := by
  obtain ⟨k₁, ⟨n, value⟩, k₂, tr', hrely, hserve, hrest, rfl⟩ := Env.runs_ask_iff.mp h
  have hcounts := CountsOn.of_elsewhere hrely
  obtain ⟨c₁, hc₁, -⟩ := hcounts.counting hc
  have hserve' : Refused n k₁ k₂ ∨ n = 0 ∧ k₂ = k₁ ∨
      8 ≤ 8 ∧ n = 8 ∧ value = UInt64.ofNat (c₁.total - c₁.base) ∧ k₂ = k₁ := by
    have hfile := counting_eq_some_iff.mp hc₁
    simpa only [perfEnv, perfServe, hfile] using hserve
  rcases hserve' with hrefused | ⟨rfl, rfl⟩ | ⟨-, rfl, rfl, rfl⟩
  · obtain rfl := hrefused.1
    obtain ⟨errno, rfl, hcounts', hopened, hclosed⟩ := runs_failLastOsError hrest
    exact ⟨(hcounts.trans (.of_refused hrefused)).trans hcounts', hopened, hclosed, by rintro v ⟨⟩⟩
  · obtain ⟨rfl, rfl, rfl⟩ := Env.runs_fail_iff.mp hrest
    exact ⟨hcounts, rfl, rfl, by rintro v ⟨⟩⟩
  · obtain ⟨rfl, rfl, rfl⟩ := Env.runs_ret_iff.mp hrest
    refine ⟨hcounts, rfl, rfl, ?_⟩
    rintro v ⟨⟩
    exact ⟨c₁, hc₁, rfl⟩

theorem runs_reset {c : Counting} {r : Except Failure Unit} (hc : k.counting self.fd = some c)
    (h : (perfEnv host).Runs self.reset k tr r k') :
    opened tr = 0 ∧ closed tr = 0 ∧ ((∃ failure, r = .error failure ∧ CountsOn k k') ∨
      ∃ k₁ c₁, r = .ok () ∧ CountsOn k k₁ ∧ k₁.counting self.fd = some c₁ ∧
        k' = k₁.install self.fd (some (.counting { c₁ with base := c₁.total }))) := by
  obtain ⟨k₁, result, k₂, tr', hrely, hserve, hrest, rfl⟩ := Env.runs_ask_iff.mp h
  have hcounts := CountsOn.of_elsewhere hrely
  obtain ⟨c₁, hc₁, -⟩ := hcounts.counting hc
  have hserve' : Refused result k₁ k₂ ∨ PerfCounter.perfEventIocReset = iocReset ∧ (0 : ℤ) = 0 ∧
      result = 0 ∧ k₂ = k₁.install self.fd (some (.counting { c₁ with base := c₁.total })) := by
    have hfile := counting_eq_some_iff.mp hc₁
    simpa only [perfEnv, perfServe, hfile] using hserve
  rcases hserve' with hrefused | ⟨-, -, rfl, rfl⟩
  · obtain rfl := hrefused.1
    obtain ⟨errno, rfl, hcounts', hopened, hclosed⟩ := runs_failLastOsError hrest
    exact ⟨hopened, hclosed, .inl ⟨_, rfl, (hcounts.trans (.of_refused hrefused)).trans hcounts'⟩⟩
  · obtain ⟨rfl, rfl, rfl⟩ := Env.runs_ret_iff.mp hrest
    exact ⟨rfl, rfl, .inr ⟨k₁, c₁, rfl, hcounts, hc₁, rfl⟩⟩

theorem runs_drop {c : Counting} {r : Except Failure Unit} (hc : k.counting self.fd = some c)
    (h : (perfEnv host).Runs self.drop k tr r k') :
    opened tr = 0 ∧ closed tr = {self.fd} ∧ ClosesCounters tr ∧ ∃ k₁, CountsOn k k₁ ∧
      CountsOn (k₁.install self.fd none) k' := by
  obtain ⟨k₁, result, k₂, tr', hrely, hserve, hrest, rfl⟩ := Env.runs_ask_iff.mp h
  obtain ⟨rfl, rfl, rfl⟩ := Env.runs_ret_iff.mp hrest
  have hcounts := CountsOn.of_elsewhere hrely
  obtain ⟨c₁, hc₁, -⟩ := hcounts.counting hc
  have hserve' : k'.files = Function.update k₁.files self.fd none := by
    have hfile := counting_eq_some_iff.mp hc₁
    simpa only [perfEnv, perfServe, hfile] using hserve
  refine ⟨rfl, rfl, ?_, k₁, hcounts, .of_files hserve'⟩
  refine List.forall_mem_cons.mpr ⟨?_, by simp⟩
  rintro fd ⟨⟩
  rw [hc₁, Option.isSome_some]

/-! The kernel may grant every operation. -/

theorem openOn_runs (host : PerfHost) {fd : ℤ} (counter : HwCounter) (hfree : k.files fd = none)
    (hnonneg : 0 ≤ fd) (hlt : fd < 2 ^ 31) : ∃ tr, opened tr = {fd} ∧
      (perfEnv host).Runs (PerfCounter.openOn host.order counter) k tr (.ok ⟨fd, counter⟩)
        (k.install fd (some (.counting ⟨host.hardware counter, 0, 0⟩))) := by
  obtain ⟨image, hcopy, hevent⟩ := copyAttr_attr host counter
  refine ⟨[⟨k, .perfEventOpen (counter.attr.image host.order) 0 (-1) (-1) 0, fd⟩],
    tally_cons_of_some (if_pos hnonneg), ?_⟩
  refine .ask .refl (.inr ⟨image, hcopy, hfree, hnonneg, hlt, by rw [hevent]⟩) ?_
  rw [Prog.ret_bind, i32TryFrom_of_fd hnonneg hlt, if_neg (not_lt.mpr hnonneg)]
  exact .ret _ _

theorem read_runs (host : PerfHost) (self : PerfCounter) {c : Counting}
    (hc : k.counting self.fd = some c) : ∃ tr,
    (perfEnv host).Runs self.read k tr (.ok (UInt64.ofNat (c.total - c.base))) k := by
  refine ⟨[⟨k, .read self.fd 8, (8, UInt64.ofNat (c.total - c.base))⟩], .ask .refl ?_ (.ret _ _)⟩
  have hfile := counting_eq_some_iff.mp hc
  simp [perfEnv, perfServe, hfile]

theorem drop_runs (host : PerfHost) (self : PerfCounter) {c : Counting}
    (hc : k.counting self.fd = some c) : ∃ tr, opened tr = 0 ∧
    (perfEnv host).Runs self.drop k tr (.ok ()) (k.install self.fd none) := by
  refine ⟨[⟨k, .close self.fd, (0 : ℤ)⟩], rfl, .ask .refl ?_ (.ret _ _)⟩
  have hfile := counting_eq_some_iff.mp hc
  simp [perfEnv, perfServe, hfile, Kernel.install]

/-! ### Whole sessions -/

namespace Owners

theorem countsOn (hk : Owners host k live) (h : CountsOn k k') : Owners host k' live := by
  refine ⟨hk.distinct, fun self hself => ?_, fun fd hfd => hk.owned fd (h.isSome_iff.mp hfd)⟩
  obtain ⟨c, hc, hevent, hbase⟩ := hk.backed self hself
  obtain ⟨c', hc', honward⟩ := h.counting hc
  refine ⟨c', hc', honward.event_eq.trans hevent, ?_⟩
  rw [honward.base_eq]
  exact hbase.trans honward.total_le

theorem fd_ne (hk : Owners host k (self ::ₘ live)) {other : PerfCounter} (h : other ∈ live) :
    other.fd ≠ self.fd := by
  have hdistinct := hk.distinct
  rw [Multiset.map_cons, Multiset.nodup_cons] at hdistinct
  intro hfd
  exact hdistinct.1 (hfd ▸ Multiset.mem_map_of_mem _ h)

theorem opened (hk : Owners host k live) {fd : ℤ} {counter : HwCounter} (hfree : k.counting fd = none) :
    Owners host (k.install fd (some (.counting ⟨host.hardware counter, 0, 0⟩)))
      (⟨fd, counter⟩ ::ₘ live) := by
  have hother : ∀ self ∈ live, self.fd ≠ fd := by
    rintro self hself rfl
    obtain ⟨c, hc, -⟩ := hk.backed self hself
    rw [hc] at hfree
    cases hfree
  refine ⟨?_, ?_, ?_⟩
  · rw [Multiset.map_cons, Multiset.nodup_cons]
    refine ⟨fun hmem => ?_, hk.distinct⟩
    obtain ⟨self, hself, hfd⟩ := Multiset.mem_map.mp hmem
    exact hother self hself hfd
  · intro self hself
    rcases Multiset.mem_cons.mp hself with rfl | hself
    · exact ⟨_, counting_install_counter, rfl, le_rfl⟩
    · obtain ⟨c, hc, hevent, hbase⟩ := hk.backed self hself
      exact ⟨c, (counting_install_of_ne (hother self hself)).trans hc, hevent, hbase⟩
  · intro fd' hsome
    rw [Multiset.map_cons, Multiset.mem_cons]
    by_cases hfd : fd' = fd
    · exact .inl hfd
    · rw [counting_install, if_neg hfd] at hsome
      exact .inr (hk.owned fd' hsome)

theorem rebased (hk : Owners host k live) {fd : ℤ} {c : Counting} (hc : k.counting fd = some c) :
    Owners host (k.install fd (some (.counting { c with base := c.total }))) live := by
  refine ⟨hk.distinct, fun self hself => ?_, fun fd' hsome => hk.owned fd' ?_⟩
  · obtain ⟨c', hc', hevent, hbase⟩ := hk.backed self hself
    by_cases hfd : self.fd = fd
    · subst hfd
      obtain rfl : c' = c := Option.some.inj (hc'.symm.trans hc)
      exact ⟨_, counting_install_counter, hevent, le_rfl⟩
    · exact ⟨c', (counting_install_of_ne hfd).trans hc', hevent, hbase⟩
  · by_cases hfd : fd' = fd
    · rw [hfd, hc, Option.isSome_some]
    · rwa [counting_install_of_ne hfd] at hsome

theorem dropped (hk : Owners host k (self ::ₘ live)) : Owners host (k.install self.fd none) live := by
  have hdistinct := hk.distinct
  rw [Multiset.map_cons, Multiset.nodup_cons] at hdistinct
  refine ⟨hdistinct.2, fun other hother => ?_, fun fd hsome => ?_⟩
  · obtain ⟨c, hc, hevent, hbase⟩ := hk.backed other (Multiset.mem_cons_of_mem hother)
    exact ⟨c, (counting_install_of_ne (hk.fd_ne hother)).trans hc, hevent, hbase⟩
  · have hfd : fd ≠ self.fd := by
      rintro rfl
      rw [counting_install, if_pos rfl] at hsome
      cases hsome
    rw [counting_install_of_ne hfd] at hsome
    have hmem := hk.owned fd hsome
    rw [Multiset.map_cons, Multiset.mem_cons] at hmem
    exact hmem.resolve_left hfd

end Owners

variable {s s' s'' : Session} {act : Action} {acts : List Action}

/-- A step whose calls account for what the live counters gained and lost keeps the ledger. -/
theorem Session.Exact.account (hs : s.Exact host tr) (howners : Owners host s'.kernel s'.live)
    (hledger : opened tr' + s.live.map PerfCounter.fd = closed tr' + s'.live.map PerfCounter.fd)
    (hcloses : ClosesCounters tr') : s'.Exact host (tr ++ tr') := by
  refine ⟨howners, ?_, closesCounters_append.mpr ⟨hs.closesCounters, hcloses⟩⟩
  rw [opened_append, closed_append, hs.ledger, add_assoc, add_comm _ (opened tr'), hledger, add_assoc]

theorem Session.Exact.step (hs : s.Exact host tr) (h : SessionStep host s act tr' s') :
    s'.Exact host (tr ++ tr') := by
  have howners := hs.owners
  cases h with
  | opened hrun =>
      obtain ⟨hclosed, ⟨errno, rfl, hcounts, hopened⟩ | ⟨fd, k₁, rfl, hcounts, hfree, hopened, rfl⟩⟩ :=
        runs_openOn hrun
      · refine hs.account ?_ ?_ (closesCounters_of_closed hclosed)
        · simpa only [produced, zero_add] using howners.countsOn hcounts
        · simp only [hopened, hclosed, produced, zero_add]
      · refine hs.account ((howners.countsOn hcounts).opened hfree) ?_ (closesCounters_of_closed hclosed)
        simp only [hopened, hclosed, produced, Multiset.map_add, Multiset.map_singleton, zero_add]
  | read hself hrun =>
      obtain ⟨c, hc, -⟩ := howners.backed _ hself
      obtain ⟨hcounts, hopened, hclosed, -⟩ := runs_read hc hrun
      exact hs.account (howners.countsOn hcounts) (by rw [hopened, hclosed])
        (closesCounters_of_closed hclosed)
  | reset hself hrun =>
      obtain ⟨c, hc, -⟩ := howners.backed _ hself
      obtain ⟨hopened, hclosed, ⟨_, rfl, hcounts⟩ | ⟨k₁, c₁, rfl, hcounts, hc₁, rfl⟩⟩ := runs_reset hc hrun
      · exact hs.account (howners.countsOn hcounts) (by rw [hopened, hclosed])
          (closesCounters_of_closed hclosed)
      · exact hs.account ((howners.countsOn hcounts).rebased hc₁) (by rw [hopened, hclosed])
          (closesCounters_of_closed hclosed)
  | dropped hrun =>
      obtain ⟨c, hc, -⟩ := howners.backed _ (Multiset.mem_cons_self _ _)
      obtain ⟨hopened, hclosed, hcloses, k₁, hcounts, hcounts'⟩ := runs_drop hc hrun
      refine hs.account (((howners.countsOn hcounts).dropped).countsOn hcounts') ?_ hcloses
      rw [hopened, hclosed, Multiset.map_cons, zero_add, Multiset.singleton_add]
  | elsewhere errno hrely =>
      exact hs.account (howners.countsOn ((CountsOn.of_elsewhere hrely).trans (.of_files rfl))) rfl
        (closesCounters_of_closed rfl)

/-- Induction over the run, from any session whose ledger is exact. -/
theorem Session.Exact.runs (hs : s.Exact host tr) (h : SessionRuns host s acts tr' s') :
    s'.Exact host (tr ++ tr') := by
  induction h with
  | refl => rwa [List.append_nil]
  | tail _ hstep ih =>
      rw [← List.append_assoc]
      exact ih.step hstep

theorem exact_of_initial (h : ∀ fd, k.counting fd = none) : Session.Exact host ⟨k, 0⟩ [] := by
  refine ⟨⟨Multiset.nodup_zero, by simp, fun fd hsome => ?_⟩, rfl, closesCounters_of_closed rfl⟩
  rw [h fd] at hsome
  cases hsome

/-- In every session the live counters have descriptors of their own, each open on the counter's event;
each descriptor that was opened was closed once or belongs to a live counter, and nothing else of the
process was closed. -/
theorem perf_descriptors_exact (host : PerfHost) {k : Kernel} {s : Session} {acts : List Action}
    {tr : List PerfCall} (hk : ∀ fd, k.counting fd = none) (h : SessionRuns host ⟨k, 0⟩ acts tr s) :
    s.Exact host tr :=
  (exact_of_initial hk).runs h

def smallHost : PerfHost := ⟨.little, 4096, 112, by decide, by decide⟩

def noFiles : Kernel := ⟨fun _ => none, 0⟩

def oneCounter : Session :=
  ⟨noFiles.install 3 (some (.counting ⟨smallHost.hardware .cycles, 0, 0⟩)), {⟨3, .cycles⟩}⟩

theorem oneCounter_opened : ∃ tr, opened tr = {3} ∧
    SessionStep smallHost ⟨noFiles, 0⟩ (.opened .cycles (.ok ⟨3, .cycles⟩)) tr oneCounter := by
  obtain ⟨tr, hopened, hopen⟩ := openOn_runs smallHost .cycles (show noFiles.files 3 = none from rfl)
    (by decide) (by decide)
  exact ⟨tr, hopened, .opened hopen⟩

/-- The counter is dropped, and its descriptor is closed. -/
theorem perf_descriptors_exact_dropped : ∃ acts tr s, SessionRuns smallHost ⟨noFiles, 0⟩ acts tr s ∧
    opened tr = {3} ∧ closed tr = {3} ∧ s.Exact smallHost tr := by
  obtain ⟨tr₁, hopened, hopen⟩ := oneCounter_opened
  obtain ⟨tr₂, hnone, hdrop⟩ := drop_runs smallHost ⟨3, .cycles⟩ (k := oneCounter.kernel)
    counting_install_counter
  have hdropped : SessionStep smallHost oneCounter (.dropped ⟨3, .cycles⟩) tr₂ ⟨_, 0⟩ := .dropped hdrop
  have hruns := (SessionRuns.refl.tail hopen).tail hdropped
  have hexact := perf_descriptors_exact smallHost (fun _ => rfl) hruns
  have hsum : opened ([] ++ tr₁ ++ tr₂) = {3} := by
    rw [opened_append, opened_append, hopened, hnone]
    rfl
  have hledger := hexact.ledger
  rw [Multiset.map_zero, add_zero] at hledger
  exact ⟨_, _, _, hruns, hsum, hledger ▸ hsum, hexact⟩

/-! ### What a counter reads -/

def Since (self : PerfCounter) (start : ℕ) (s : Session) : Prop :=
  self ∈ s.live ∧ ∃ c, s.kernel.counting self.fd = some c ∧ c.base = start

theorem Since.countsOn {start : ℕ} (h : Since self start ⟨k, live⟩) (hcounts : CountsOn k k') :
    Since self start ⟨k', live⟩ := by
  obtain ⟨hself, c, hc, hbase⟩ := h
  obtain ⟨c', hc', honward⟩ := hcounts.counting hc
  exact ⟨hself, c', hc', honward.base_eq.trans hbase⟩

/-- What happens at another descriptor is nothing to the counter. -/
theorem Since.install {start : ℕ} {fd : ℤ} (h : Since self start ⟨k, live⟩) (file : Option OpenFile)
    (hfd : self.fd ≠ fd) : Since self start ⟨k.install fd file, live⟩ := by
  obtain ⟨hself, c, hc, hbase⟩ := h
  exact ⟨hself, c, (counting_install_of_ne hfd).trans hc, hbase⟩

/-- Only a reset of the counter itself starts it anew, and only its drop ends it. -/
theorem Since.step {start : ℕ} (hs : s.Exact host tr) (hsince : Since self start s)
    (h : SessionStep host s act tr' s') (hreset : act ≠ .reset self (.ok ()))
    (hdrop : act ≠ .dropped self) : Since self start s' := by
  have howners := hs.owners
  cases h with
  | opened hrun =>
      obtain ⟨-, ⟨errno, rfl, hcounts, -⟩ | ⟨fd, k₁, rfl, hcounts, hfree, -, rfl⟩⟩ := runs_openOn hrun
      · simpa only [produced, zero_add] using hsince.countsOn hcounts
      · have hsince₁ := hsince.countsOn hcounts
        have hfd : self.fd ≠ fd := by
          rintro rfl
          obtain ⟨-, c, hc, -⟩ := hsince₁
          cases hfree.symm.trans hc
        obtain ⟨hself, hc⟩ := hsince₁.install (some (.counting ⟨host.hardware _, 0, 0⟩)) hfd
        exact ⟨Multiset.mem_add.mpr (.inr hself), hc⟩
  | read hself hrun =>
      obtain ⟨c, hc, -⟩ := howners.backed _ hself
      exact hsince.countsOn (runs_read hc hrun).1
  | @reset _ _ _ _ other _ hother hrun =>
      obtain ⟨c, hc, -⟩ := howners.backed _ hother
      obtain ⟨-, -, ⟨_, rfl, hcounts⟩ | ⟨k₁, c₁, rfl, hcounts, hc₁, rfl⟩⟩ := runs_reset hc hrun
      · exact hsince.countsOn hcounts
      · refine (hsince.countsOn hcounts).install _ fun hfd => hreset ?_
        rw [Multiset.inj_on_of_nodup_map howners.distinct self hsince.1 other hother hfd]
  | @dropped _ _ live _ other _ hrun =>
      obtain ⟨c, hc, -⟩ := howners.backed _ (Multiset.mem_cons_self _ _)
      obtain ⟨-, -, -, k₁, hcounts, hcounts'⟩ := runs_drop hc hrun
      have hself : self ∈ live := by
        rcases Multiset.mem_cons.mp hsince.1 with rfl | hself
        · exact absurd rfl hdrop
        · exact hself
      obtain ⟨-, hsome⟩ := hsince
      have hsince' : Since self start ⟨_, live⟩ := ⟨hself, hsome⟩
      exact ((hsince'.countsOn hcounts).install none (howners.fd_ne hself)).countsOn hcounts'
  | elsewhere errno hrely => exact hsince.countsOn ((CountsOn.of_elsewhere hrely).trans (.of_files rfl))

theorem Since.runs {start : ℕ} (hs : s.Exact host tr) (hsince : Since self start s)
    (h : SessionRuns host s acts tr' s') (hacts : ∀ act ∈ acts, act ≠ .reset self (.ok ()) ∧
      act ≠ .dropped self) : Since self start s' := by
  induction h with
  | refl => exact hsince
  | tail hruns hstep ih =>
      obtain ⟨hbefore, hlast⟩ := List.forall_mem_append.mp hacts
      obtain ⟨hreset, hdrop⟩ := hlast _ (List.mem_singleton_self _)
      exact Since.step (hs.runs hruns) (ih hbefore) hstep hreset hdrop

/-- A counter that was just opened or reset starts from what it has counted. -/
theorem since_of_start (hs : s.Exact host tr) (h : SessionStep host s act tr' s')
    (hact : act = .opened self.counterType (.ok self) ∨ act = .reset self (.ok ())) :
    ∃ c, s'.kernel.counting self.fd = some c ∧ Since self c.total s' := by
  rcases hact with rfl | rfl
  · cases h with
    | opened hrun =>
        obtain ⟨-, ⟨_, ⟨⟩, -⟩ | ⟨fd, k₁, hself, -, -, -, rfl⟩⟩ := runs_openOn hrun
        obtain rfl : self.fd = fd := congrArg PerfCounter.fd (Except.ok.inj hself)
        exact ⟨_, counting_install_counter, Multiset.mem_add.mpr (.inl (Multiset.mem_singleton_self _)),
          _, counting_install_counter, rfl⟩
  · cases h with
    | reset hself hrun =>
        obtain ⟨c, hc, -⟩ := hs.owners.backed _ hself
        obtain ⟨-, -, ⟨_, ⟨⟩, -⟩ | ⟨k₁, c₁, -, -, -, rfl⟩⟩ := runs_reset hc hrun
        exact ⟨_, counting_install_counter, hself, _, counting_install_counter, rfl⟩

/-- What a counter reads is what its event counted since the counter was opened or last reset, whatever
was done to other counters in between. -/
theorem perf_read_counts_since (host : PerfHost) {k : Kernel} {s s₁ s₂ s₃ : Session} {self : PerfCounter}
    {acts acts' : List Action} {start : Action} {tr tr₁ tr₂ tr₃ : List PerfCall} {v : UInt64}
    (hk : ∀ fd, k.counting fd = none) (hbefore : SessionRuns host ⟨k, 0⟩ acts tr s)
    (hstart : SessionStep host s start tr₁ s₁)
    (hact : start = .opened self.counterType (.ok self) ∨ start = .reset self (.ok ()))
    (hbetween : SessionRuns host s₁ acts' tr₂ s₂)
    (hacts : ∀ act ∈ acts', act ≠ .reset self (.ok ()) ∧ act ≠ .dropped self)
    (hread : SessionStep host s₂ (.read self (.ok v)) tr₃ s₃) :
    ∃ c₁ c₃, s₁.kernel.counting self.fd = some c₁ ∧ s₃.kernel.counting self.fd = some c₃ ∧
      c₃.event = host.hardware self.counterType ∧ c₁.total ≤ c₃.total ∧
      v = UInt64.ofNat (c₃.total - c₁.total) := by
  have hexact := (exact_of_initial hk).runs hbefore
  have hexact₁ := hexact.step hstart
  obtain ⟨c₁, hc₁, hsince₁⟩ := since_of_start hexact hstart hact
  have hexact₂ := hexact₁.runs hbetween
  have hsince₂ := hsince₁.runs hexact₁ hbetween hacts
  have hsince₃ := hsince₂.step hexact₂ hread (by simp) (by simp)
  have howners₃ := (hexact₂.step hread).owners
  cases hread with
  | read hself hrun =>
      obtain ⟨c, hc, -⟩ := hexact₂.owners.backed _ hself
      obtain ⟨-, -, -, hvalue⟩ := runs_read hc hrun
      obtain ⟨c₃, hc₃, rfl⟩ := hvalue v rfl
      obtain ⟨-, c', hc', hbase⟩ := hsince₃
      obtain rfl : c' = c₃ := Option.some.inj (hc'.symm.trans hc₃)
      obtain ⟨c', hc', hevent, hle⟩ := howners₃.backed _ hself
      obtain rfl : c' = _ := Option.some.inj (hc'.symm.trans hc₃)
      rw [hbase] at hle
      exact ⟨c₁, _, hc₁, hc₃, hevent, hle, by rw [hbase]⟩

def five : Counting := ⟨smallHost.hardware .cycles, 5, 0⟩

theorem perf_read_counts_since_five : ∃ s₃ c₁ c₃ tr₁ tr₃,
    SessionStep smallHost ⟨noFiles, 0⟩ (.opened .cycles (.ok ⟨3, .cycles⟩)) tr₁ oneCounter ∧
    SessionRuns smallHost oneCounter [.elsewhere, .read ⟨3, .cycles⟩ (.ok 5)] tr₃ s₃ ∧
    oneCounter.kernel.counting 3 = some c₁ ∧ s₃.kernel.counting 3 = some c₃ ∧
    (5 : UInt64) = UInt64.ofNat (c₃.total - c₁.total) := by
  obtain ⟨tr₁, -, hopen⟩ := oneCounter_opened
  have hcounted : Elsewhere oneCounter.kernel (oneCounter.kernel.install 3 (some (.counting five))) :=
    .counted 5 (counting_eq_some_iff.mp counting_install_counter)
  have helsewhere : SessionStep smallHost oneCounter .elsewhere [] ⟨_, {⟨3, .cycles⟩}⟩ :=
    .elsewhere 0 (.single hcounted)
  have hbetween := SessionRuns.refl.tail helsewhere
  have hfive : (oneCounter.kernel.install 3 (some (.counting five))).counting 3 = some five :=
    counting_install_counter
  obtain ⟨tr₃, hrun⟩ := read_runs smallHost ⟨3, .cycles⟩ (k := ⟨_, 0⟩) hfive
  have hread : SessionStep smallHost _ (.read ⟨3, .cycles⟩ (.ok 5)) tr₃ ⟨_, {⟨3, .cycles⟩}⟩ :=
    .read (Multiset.mem_singleton_self _) hrun
  obtain ⟨c₁, c₃, hc₁, hc₃, -, -, hv⟩ := perf_read_counts_since smallHost (fun _ => rfl) .refl hopen
    (.inl rfl) hbetween (by simp) hread
  exact ⟨_, c₁, c₃, _, _, hopen, hbetween.tail hread, hc₁, hc₃, hv⟩

end KernelKit.Perf
