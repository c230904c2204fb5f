import KernelKit.PartialWrites
import KernelKit.Readahead

/-!
# Histories of page cache hints

A scan asks for pages in advance, gives up pages it has read and announces sequential reads. The kernel
follows the hints about pages as far as it likes. What a history of hints may leave in the cache, and
which files have a larger window, is stated exactly, together with the results each hint may have.
-/

namespace KernelKit.Readahead
open Interaction Relation

inductive ReadaheadOp
  | readahead (fd offset count : ℕ)
  | lastOsError
  deriving DecidableEq, Repr

abbrev ReadaheadOp.Ans : ReadaheadOp → Type
  | .readahead _ _ _ => ℤ
  | .lastOsError => IoError

def off64Max : ℕ := 2 ^ 63 - 1

def off64TryFrom (v : UInt64) : Option ℕ := if v.toNat ≤ off64Max then some v.toNat else none

def readahead (fd : ℕ) (offset : UInt64) (count : ℕ) : Prog ReadaheadOp ReadaheadOp.Ans Exit Unit :=
  match off64TryFrom offset with
  | none => throw (.system "readahead" (.custom .invalidInput "offset too large for off64_t"))
  | some off => do
    let result ← Prog.call (ReadaheadOp.readahead fd off count)
    if result ≠ 0 then do
      let source ← Prog.call ReadaheadOp.lastOsError
      throw (.system "readahead" source)
    else pure ()

def adviseSequential (fd : ℕ) : Prog FadviseOp FadviseOp.Ans Exit Unit := do
  let result ← Prog.call (FadviseOp.posixFadvise fd 0 0 .sequential)
  if result ≠ 0 then throw (.system "posix_fadvise(SEQUENTIAL)" (.os result)) else pure ()

/-! ### The kernel -/

inductive Cell
  | page (file page : ℕ)
  | window (file : ℕ)
  deriving DecidableEq, Repr

structure Hinted where
  cells : Cell → Bool
  errno : ℕ

/-- The pages the kernel may read in: those with a byte of the range, where a count of zero stands for all
that follows. -/
def MayRead (host : Host) (fd offset count file page : ℕ) : Prop :=
  file = fd ∧ offset / host.pageSize ≤ page ∧ (count = 0 ∨ page * host.pageSize < offset + count)

def reads (host : Host) (fd offset count : ℕ) : Write Cell Bool where
  covers
    | .page file page => MayRead host fd offset count file page
    | .window _ => False
  value := true
  whole := False

def drops (host : Host) (fd offset len : ℕ) : Write Cell Bool where
  covers
    | .page file page => MayDrop host (.posixFadvise fd offset len .dontneed) file page
    | .window _ => False
  value := false
  whole := False

/-- A call that fails leaves the window as it is. -/
def doubles (fd : ℕ) (done : Prop) : Write Cell Bool := ⟨fun cell => cell = .window fd ∧ done, true, True⟩

/-- The rest of the system leaves the cells in `own` alone. -/
def Elsewhere (own : Cell → Prop) (s s' : Hinted) : Prop :=
  s'.errno = s.errno ∧ ∀ cell, own cell → s'.cells cell = s.cells cell

def readaheadEnv (host : Host) (own : Cell → Prop) : Env Hinted ReadaheadOp ReadaheadOp.Ans where
  serve
    | .readahead fd offset count, s, answer, s' =>
      (answer = 0 ∨ answer = -1 ∧ s'.errno ≠ 0) ∧ (reads host fd offset count).Acts s.cells s'.cells
    | .lastOsError, s, source, s' => source = .os s.errno ∧ s' = s
  interfere := Elsewhere own

def hintEnv (host : Host) (own : Cell → Prop) : Env Hinted FadviseOp FadviseOp.Ans where
  serve
    | .posixFadvise fd offset len .dontneed, s, _, s' =>
      (drops host fd offset len).Acts s.cells s'.cells ∧ s'.errno = s.errno
    | .posixFadvise fd _ _ .sequential, s, answer, s' =>
      (doubles fd (answer = 0)).Acts s.cells s'.cells ∧ s'.errno = s.errno
  interfere := Elsewhere own

/-! ### Histories of hints -/

inductive Hint
  | readahead (fd : ℕ) (offset : UInt64) (count : ℕ)
  | evictPages (fd : ℕ) (offset len : UInt64)
  | adviseSequential (fd : ℕ)

structure HintRequest where
  hint : Hint
  result : Except Exit Unit

def HintRequest.Runs (host : Host) (own : Cell → Prop) (q : HintRequest) (s s' : Hinted) : Prop :=
  match q.hint with
  | .readahead fd offset count =>
    ∃ tr, (readaheadEnv host own).Runs (readahead fd offset count) s tr q.result s'
  | .evictPages fd offset len =>
    ∃ tr, (hintEnv host own).Runs (evictPages host.width fd offset len) s tr q.result s'
  | .adviseSequential fd => ∃ tr, (hintEnv host own).Runs (adviseSequential fd) s tr q.result s'

def Hint.operation : Hint → String
  | .readahead _ _ _ => "readahead"
  | .evictPages _ _ _ => "posix_fadvise(DONTNEED)"
  | .adviseSequential _ => "posix_fadvise(SEQUENTIAL)"

def Hint.misfit (w : Width) : Hint → Option String
  | .readahead _ offset _ => if offset.toNat ≤ off64Max then none else some "offset too large for off64_t"
  | .evictPages _ offset len =>
    if offset.toNat ≤ offMax w then if len.toNat ≤ offMax w then none else some "len too large for off_t"
    else some "offset too large for off_t"
  | .adviseSequential _ => none

def HintRequest.Admissible (w : Width) (q : HintRequest) : Prop :=
  match q.hint.misfit w with
  | some message =>
    q.result = .error (.err (.system q.hint.operation (.custom .invalidInput message)))
  | none => q.result = .ok () ∨
    ∃ errno ≠ 0, q.result = .error (.err (.system q.hint.operation (.os errno)))

def HintRequest.Reads (host : Host) (q : HintRequest) (file page : ℕ) : Prop :=
  q.hint.misfit host.width = none ∧ ∃ fd offset count, q.hint = .readahead fd offset count ∧
    MayRead host fd offset.toNat count file page

def HintRequest.Drops (host : Host) (q : HintRequest) (file page : ℕ) : Prop :=
  q.hint.misfit host.width = none ∧ ∃ fd offset len, q.hint = .evictPages fd offset len ∧
    MayDrop host (.posixFadvise fd offset.toNat len.toNat .dontneed) file page

def HintRequest.Doubles (q : HintRequest) (file : ℕ) : Prop :=
  q.hint = .adviseSequential file ∧ q.result = .ok ()

abbrev HintRuns (host : Host) (own : Cell → Prop) : Hinted → List HintRequest → Hinted → Prop :=
  Served (HintRequest.Runs host own) fun s s' => ∀ cell, own cell → s'.cells cell = s.cells cell

def HintRequest.write (host : Host) (q : HintRequest) : Write Cell Bool :=
  match q.hint.misfit host.width, q.hint with
  | some _, _ => ⟨fun _ => False, false, False⟩
  | none, .readahead fd offset count => reads host fd offset.toNat count
  | none, .evictPages fd offset len => drops host fd offset.toNat len.toNat
  | none, .adviseSequential fd => doubles fd (q.result = .ok ())

variable {host : Host} {own : Cell → Prop} {s s' : Hinted} {q : HintRequest} {fd : ℕ} {cell : Cell}
  {hist : List HintRequest} {f : Cell → Bool}

/-! ### One hint -/

theorem elsewhere_of_interfere (h : ReflTransGen (Elsewhere own) s s') : Elsewhere own s s' := by
  induction h with
  | refl => exact ⟨rfl, fun _ _ => rfl⟩
  | tail _ hstep ih =>
      exact ⟨hstep.1.trans ih.1, fun cell hcell => (hstep.2 cell hcell).trans (ih.2 cell hcell)⟩

/-- The hint ended in an admissible way and acted as its write on the cells in `own`. -/
def HintRequest.Acted (host : Host) (own : Cell → Prop) (q : HintRequest) (s s' : Hinted) : Prop :=
  q.Admissible host.width ∧ ∀ cell, own cell → (q.write host).May cell (s.cells cell) (s'.cells cell)

theorem acted_of_misfit {message : String} (hmisfit : q.hint.misfit host.width = some message)
    (hresult : q.result =
      .error (.err (.system q.hint.operation (.custom .invalidInput message)))) :
    q.Acted host own s s := by
  unfold HintRequest.Acted HintRequest.Admissible HintRequest.write
  rw [hmisfit]
  exact ⟨hresult, fun _ _ => .inl ⟨rfl, fun hcovers => hcovers.elim⟩⟩

theorem may_of_acts {w : Write Cell Bool} {s₁ s₂ : Hinted} (hbefore : Elsewhere own s s₁)
    (hacts : w.Acts s₁.cells s₂.cells) (hbehind : Elsewhere own s₂ s') :
    ∀ cell, own cell → w.May cell (s.cells cell) (s'.cells cell) := by
  intro cell hcell
  rw [hbehind.2 cell hcell, ← hbefore.2 cell hcell]
  exact hacts cell

theorem runs_readahead {offset : UInt64} {count : ℕ} {r : Except Exit Unit}
    {tr : List (Call Hinted ReadaheadOp ReadaheadOp.Ans)}
    (h : (readaheadEnv host own).Runs (readahead fd offset count) s tr r s') :
    HintRequest.Acted host own ⟨.readahead fd offset count, r⟩ s s' := by
  unfold readahead off64TryFrom at h
  split_ifs at h with hoffset
  · have hmisfit : Hint.misfit host.width (.readahead fd offset count) = none := if_pos hoffset
    unfold HintRequest.Acted HintRequest.Admissible HintRequest.write
    rw [hmisfit]
    obtain ⟨s₁, answer, s₂, tr', hrely, ⟨hanswer, hacts⟩, hrest, rfl⟩ := Env.runs_ask_iff.mp h
    have hbefore := elsewhere_of_interfere hrely
    rw [Prog.ret_bind] at hrest
    split_ifs at hrest with hzero
    · obtain ⟨s₃, source, s₄, tr₃, hrely', ⟨rfl, rfl⟩, hthrow, rfl⟩ := Env.runs_ask_iff.mp hrest
      obtain ⟨-, rfl, rfl⟩ := runs_throw_iff.mp hthrow
      have hbehind := elsewhere_of_interfere hrely'
      have herrno : s₂.errno ≠ 0 := (hanswer.resolve_left hzero).2
      exact ⟨.inr ⟨_, hbehind.1 ▸ herrno, rfl⟩, may_of_acts hbefore hacts hbehind⟩
    · obtain ⟨-, rfl, rfl⟩ := Env.runs_ret_iff.mp hrest
      exact ⟨.inl rfl, may_of_acts hbefore hacts ⟨rfl, fun _ _ => rfl⟩⟩
  · obtain ⟨-, rfl, rfl⟩ := runs_throw_iff.mp h
    exact acted_of_misfit (if_neg hoffset) rfl

theorem runs_evictPages_acted {offset len : UInt64} {r : Except Exit Unit}
    {tr : List (Call Hinted FadviseOp FadviseOp.Ans)}
    (h : (hintEnv host own).Runs (evictPages host.width fd offset len) s tr r s') :
    HintRequest.Acted host own ⟨.evictPages fd offset len, r⟩ s s' := by
  unfold evictPages offTryFrom at h
  split_ifs at h with hoffset hlen
  · have hmisfit : Hint.misfit host.width (.evictPages fd offset len) = none :=
      (if_pos hoffset).trans (if_pos hlen)
    unfold HintRequest.Acted HintRequest.Admissible HintRequest.write
    rw [hmisfit]
    obtain ⟨s₁, answer, s₂, tr', hrely, ⟨hacts, -⟩, hrest, rfl⟩ := Env.runs_ask_iff.mp h
    have hmay := may_of_acts (elsewhere_of_interfere hrely) hacts ⟨rfl, fun _ _ => rfl⟩
    dsimp only [Prog.pure_eq_ret, Prog.ret_bind] at hrest
    split_ifs at hrest with hzero
    · obtain ⟨-, rfl, rfl⟩ := runs_throw_iff.mp hrest
      exact ⟨.inr ⟨answer, hzero, rfl⟩, hmay⟩
    · obtain ⟨-, rfl, rfl⟩ := Env.runs_ret_iff.mp hrest
      exact ⟨.inl rfl, hmay⟩
  · obtain ⟨-, rfl, rfl⟩ := runs_throw_iff.mp h
    exact acted_of_misfit ((if_pos hoffset).trans (if_neg hlen)) rfl
  · obtain ⟨-, rfl, rfl⟩ := runs_throw_iff.mp h
    exact acted_of_misfit (if_neg hoffset) rfl
  · obtain ⟨-, rfl, rfl⟩ := runs_throw_iff.mp h
    exact acted_of_misfit (if_neg hoffset) rfl

theorem runs_adviseSequential {r : Except Exit Unit} {tr : List (Call Hinted FadviseOp FadviseOp.Ans)}
    (h : (hintEnv host own).Runs (adviseSequential fd) s tr r s') :
    HintRequest.Acted host own ⟨.adviseSequential fd, r⟩ s s' := by
  obtain ⟨s₁, answer, s₂, tr', hrely, ⟨hacts, -⟩, hrest, rfl⟩ := Env.runs_ask_iff.mp h
  have hmay := may_of_acts (elsewhere_of_interfere hrely) hacts ⟨rfl, fun _ _ => rfl⟩
  dsimp only [Prog.pure_eq_ret, Prog.ret_bind] at hrest
  split_ifs at hrest with hzero
  · obtain ⟨-, rfl, rfl⟩ := runs_throw_iff.mp hrest
    refine ⟨.inr ⟨answer, hzero, rfl⟩, fun cell hcell => ?_⟩
    rcases hmay cell hcell with ⟨hsame, -⟩ | ⟨-, -, hdone⟩
    · exact .inl ⟨hsame, fun hcovers => absurd hcovers.2 nofun⟩
    · exact absurd hdone hzero
  · obtain ⟨-, rfl, rfl⟩ := Env.runs_ret_iff.mp hrest
    rw [not_not] at hzero
    refine ⟨.inl rfl, fun cell hcell => ?_⟩
    rcases hmay cell hcell with ⟨hsame, hpart⟩ | ⟨hset, hwindow, -⟩
    · exact .inl ⟨hsame, fun hcovers => hpart ⟨hcovers.1, hzero⟩⟩
    · exact .inr ⟨hset, hwindow, rfl⟩

theorem readahead_runs {offset : UInt64} {count : ℕ} {r : Except Exit Unit} (own : Cell → Prop)
    (hadm : HintRequest.Admissible host.width ⟨.readahead fd offset count, r⟩)
    (hacts : (HintRequest.write host ⟨.readahead fd offset count, r⟩).Acts s.cells f) :
    ∃ s', HintRequest.Runs host own ⟨.readahead fd offset count, r⟩ s s' ∧ s'.cells = f := by
  unfold HintRequest.Runs readahead off64TryFrom
  unfold HintRequest.Admissible Hint.misfit at hadm
  unfold HintRequest.write Hint.misfit at hacts
  dsimp only at hadm hacts ⊢
  split_ifs at hadm hacts ⊢ with hoffset
  · rcases hadm with rfl | ⟨errno, herrno, rfl⟩
    · exact ⟨⟨f, s.errno⟩, ⟨_, .ask .refl ⟨.inl rfl, hacts⟩ (.ret _ _)⟩, rfl⟩
    · refine ⟨⟨f, errno⟩, ⟨[⟨s, .readahead fd offset.toNat count, (-1 : ℤ)⟩,
        ⟨⟨f, errno⟩, .lastOsError, .os errno⟩], ?_⟩, rfl⟩
      exact .ask .refl ⟨.inr ⟨rfl, herrno⟩, hacts⟩ (.ask .refl ⟨rfl, rfl⟩ (.fail _ _))
  · obtain rfl := hadm
    exact ⟨s, ⟨[], .fail _ s⟩, hacts.eq_of_not_covers fun _ => id⟩

theorem evictPages_runs_acted {offset len : UInt64} {r : Except Exit Unit} (own : Cell → Prop)
    (hadm : HintRequest.Admissible host.width ⟨.evictPages fd offset len, r⟩)
    (hacts : (HintRequest.write host ⟨.evictPages fd offset len, r⟩).Acts s.cells f) :
    ∃ s', HintRequest.Runs host own ⟨.evictPages fd offset len, r⟩ s s' ∧ s'.cells = f := by
  unfold HintRequest.Runs evictPages offTryFrom
  unfold HintRequest.Admissible Hint.misfit at hadm
  unfold HintRequest.write Hint.misfit at hacts
  dsimp only at hadm hacts ⊢
  split_ifs at hadm hacts ⊢ with hoffset hlen
  · have hserve : ∀ answer : ℕ, (hintEnv host own).serve
        (.posixFadvise fd offset.toNat len.toNat .dontneed) s answer ⟨f, s.errno⟩ := fun _ => ⟨hacts, rfl⟩
    rcases hadm with rfl | ⟨errno, herrno, rfl⟩
    · exact ⟨⟨f, s.errno⟩, ⟨_, .ask .refl (hserve 0) (.ret _ _)⟩, rfl⟩
    · refine ⟨⟨f, s.errno⟩, ⟨[⟨s, .posixFadvise fd offset.toNat len.toNat .dontneed, errno⟩],
        .ask .refl (hserve errno) ?_⟩, rfl⟩
      rw [Prog.ret_bind, if_pos herrno]
      exact .fail _ _
  all_goals
    obtain rfl := hadm
    exact ⟨s, ⟨[], .fail _ s⟩, hacts.eq_of_not_covers fun _ => id⟩

theorem adviseSequential_runs {r : Except Exit Unit} (own : Cell → Prop)
    (hadm : HintRequest.Admissible host.width ⟨.adviseSequential fd, r⟩)
    (hacts : (HintRequest.write host ⟨.adviseSequential fd, r⟩).Acts s.cells f) :
    ∃ s', HintRequest.Runs host own ⟨.adviseSequential fd, r⟩ s s' ∧ s'.cells = f := by
  have hserve : ∀ answer : ℕ, (r = .ok () ↔ answer = 0) → (hintEnv host own).serve
      (.posixFadvise fd 0 0 .sequential) s answer ⟨f, s.errno⟩ := by
    refine fun answer hr => ⟨fun cell => ?_, rfl⟩
    rcases hacts cell with ⟨hsame, hpart⟩ | ⟨hset, hwindow, hdone⟩
    · exact .inl ⟨hsame, fun hcovers => hpart ⟨hcovers.1, hr.mpr hcovers.2⟩⟩
    · exact .inr ⟨hset, hwindow, hr.mp hdone⟩
  rcases hadm with rfl | ⟨errno, herrno, hr⟩
  · exact ⟨⟨f, s.errno⟩, ⟨_, .ask .refl (hserve 0 (iff_of_true rfl rfl)) (.ret _ _)⟩, rfl⟩
  · dsimp only at hr
    subst hr
    refine ⟨⟨f, s.errno⟩, ⟨[⟨s, .posixFadvise fd 0 0 .sequential, errno⟩],
      .ask .refl (hserve errno (iff_of_false nofun herrno)) ?_⟩, rfl⟩
    rw [Prog.ret_bind, if_pos herrno]
    exact .fail _ _

/-! ### Histories -/

theorem hints_actAs (host : Host) (own : Cell → Prop) :
    ActsAs (HintRequest.Runs host own) (fun s s' => ∀ cell, own cell → s'.cells cell = s.cells cell)
      Hinted.cells own (HintRequest.Admissible host.width) (HintRequest.write host) := by
  have hacted : ∀ {q : HintRequest} {s s' : Hinted}, q.Runs host own s s' → q.Acted host own s s' := by
    rintro ⟨_ | _ | _, r⟩ s s' ⟨tr, hrun⟩
    · exact runs_readahead hrun
    · exact runs_evictPages_acted hrun
    · exact runs_adviseSequential hrun
  refine ⟨fun h => (hacted h).1, fun h hown => (hacted h).2 _ hown, ?_, fun h hown => h _ hown⟩
  rintro ⟨_ | _ | _, r⟩ s f hadm hacts
  · exact readahead_runs own hadm hacts
  · exact evictPages_runs_acted own hadm hacts
  · exact adviseSequential_runs own hadm hacts

/-! What the writes say, cell by cell. -/

theorem covers_page_iff {file page : ℕ} {b : Bool} :
    ((q.write host).covers (.page file page) ∧ (q.write host).value = b) ↔
      b = true ∧ q.Reads host file page ∨ b = false ∧ q.Drops host file page := by
  unfold HintRequest.write HintRequest.Reads HintRequest.Drops
  cases q.hint.misfit host.width with
  | some message => simp
  | none =>
      cases q.hint with
      | readahead fd offset count => simp [reads, eq_comm, and_comm]
      | evictPages fd offset len => simp [drops, eq_comm, and_comm]
      | adviseSequential fd => simp [doubles]

theorem not_whole_of_page {file page : ℕ} (h : (q.write host).covers (.page file page)) :
    ¬ (q.write host).whole := by
  revert h
  unfold HintRequest.write
  cases q.hint.misfit host.width with
  | some message => exact False.elim
  | none =>
      cases q.hint with
      | readahead fd offset count => exact fun _ => id
      | evictPages fd offset len => exact fun _ => id
      | adviseSequential fd => simp [doubles]

theorem covers_window_iff {file : ℕ} : (q.write host).covers (.window file) ↔ q.Doubles file := by
  unfold HintRequest.write HintRequest.Doubles
  cases hhint : q.hint with
  | readahead fd offset count => cases Hint.misfit host.width (.readahead fd offset count) <;> simp [reads]
  | evictPages fd offset len => cases Hint.misfit host.width (.evictPages fd offset len) <;> simp [drops]
  | adviseSequential fd => simp [Hint.misfit, doubles, eq_comm]

theorem whole_of_window {file : ℕ} (h : q.Doubles file) :
    (q.write host).whole ∧ (q.write host).value = true := by
  unfold HintRequest.write
  rw [h.1]
  exact ⟨trivial, rfl⟩

/-- No hint about a page is binding, so what may have become of it does not depend on their order. -/
theorem page_mayEnd_iff {file page : ℕ} {b b' : Bool} :
    Write.MayEnd (HintRequest.write host) (.page file page) hist b b' ↔
      b' = b ∨ b' = true ∧ (∃ q ∈ hist, q.Reads host file page) ∨
        b' = false ∧ ∃ q ∈ hist, q.Drops host file page := by
  have hunsettled : ∀ qs, Write.Unsettled (HintRequest.write host) (.page file page) qs :=
    fun _ _ _ hcovers => not_whole_of_page hcovers
  rw [Write.mayEnd_iff, and_iff_left (hunsettled hist)]
  refine or_congr_right ?_
  constructor
  · rintro ⟨pre, q, post, rfl, hcovers, hvalue, -⟩
    rcases covers_page_iff.mp ⟨hcovers, hvalue⟩ with ⟨hb, hreads⟩ | ⟨hb, hdrops⟩
    · exact .inl ⟨hb, q, by simp, hreads⟩
    · exact .inr ⟨hb, q, by simp, hdrops⟩
  · have hmem : ∀ q ∈ hist, (q.write host).covers (.page file page) ∧ (q.write host).value = b' →
        ∃ pre q post, hist = pre ++ q :: post ∧ (q.write host).covers (.page file page) ∧
          (q.write host).value = b' ∧
          Write.Unsettled (HintRequest.write host) (.page file page) post := by
      rintro q hq ⟨hcovers, hvalue⟩
      obtain ⟨pre, post, rfl⟩ := List.append_of_mem hq
      exact ⟨pre, q, post, rfl, hcovers, hvalue, hunsettled post⟩
    rintro (⟨hb, q, hq, hreads⟩ | ⟨hb, q, hq, hdrops⟩)
    · exact hmem q hq (covers_page_iff.mpr (.inl ⟨hb, hreads⟩))
    · exact hmem q hq (covers_page_iff.mpr (.inr ⟨hb, hdrops⟩))

theorem window_mayEnd_iff {file : ℕ} {b b' : Bool} :
    Write.MayEnd (HintRequest.write host) (.window file) hist b b' ↔
      (b' = true ↔ b = true ∨ ∃ q ∈ hist, q.Doubles file) := by
  rw [Write.mayEnd_iff]
  by_cases hunsettled : Write.Unsettled (HintRequest.write host) (.window file) hist
  · have hnone : ¬ ∃ q ∈ hist, q.Doubles file := by
      rintro ⟨q, hq, hdoubles⟩
      exact hunsettled q hq (covers_window_iff.mpr hdoubles) (whole_of_window hdoubles).1
    rw [and_iff_left hunsettled, or_iff_left hnone, ← Bool.eq_iff_iff]
    refine or_iff_left ?_
    rintro ⟨pre, q, post, rfl, hcovers, -⟩
    exact hnone ⟨q, by simp, covers_window_iff.mp hcovers⟩
  · obtain ⟨pre, q, post, rfl, hcovers, hwhole, hpost⟩ := Write.not_unsettled_iff.mp hunsettled
    have hdoubles := covers_window_iff.mp hcovers
    have hdone : b = true ∨ ∃ q' ∈ pre ++ q :: post, q'.Doubles file := .inr ⟨q, by simp, hdoubles⟩
    rw [iff_true_right hdone, iff_false_intro hunsettled, and_false, false_or]
    constructor
    · rintro ⟨_, q', _, -, hcovers', rfl, -⟩
      exact (whole_of_window (covers_window_iff.mp hcovers')).2
    · rintro rfl
      exact ⟨pre, q, post, rfl, hcovers, (whole_of_window hdoubles).2, hpost⟩

/-- A history of hints with their results is possible exactly if each result is one its hint may have; a
page may then be cached that was or that a hint asked for, and may be missing that was or that a hint gave
up, in whatever order they came; and the windows that are doubled are those that were and those of the
files announced. -/
theorem hintHistory_iff (host : Host) (own : Cell → Prop) (s : Hinted) (hist : List HintRequest)
    (f : Cell → Bool) :
    (∃ s', HintRuns host own s hist s' ∧ ∀ cell, own cell → s'.cells cell = f cell) ↔
      (∀ q ∈ hist, q.Admissible host.width) ∧
      (∀ file page, own (.page file page) → f (.page file page) = s.cells (.page file page) ∨
        f (.page file page) = true ∧ (∃ q ∈ hist, q.Reads host file page) ∨
        f (.page file page) = false ∧ ∃ q ∈ hist, q.Drops host file page) ∧
      ∀ file, own (.window file) → (f (.window file) = true ↔
        s.cells (.window file) = true ∨ ∃ q ∈ hist, q.Doubles file) := by
  rw [(hints_actAs host own).served_iff_mayEnd]
  refine and_congr_right fun _ => ?_
  constructor
  · intro h
    exact ⟨fun file page hown => page_mayEnd_iff.mp (h _ hown),
      fun file hown => window_mayEnd_iff.mp (h _ hown)⟩
  · rintro ⟨hpages, hwindows⟩ (⟨file, page⟩ | file) hown
    · exact page_mayEnd_iff.mpr (hpages file page hown)
    · exact window_mayEnd_iff.mpr (hwindows file hown)

end KernelKit.Readahead
