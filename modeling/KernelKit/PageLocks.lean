import KernelKit.Memory
import KernelKit.PartialWrites

/-!
# Locking and unlocking regions

Locks are held by pages and do not nest: `mlock` locks every page that holds a byte of the region, and
`munlock` unlocks every such page whoever locked it. A call that fails may have acted on some of the pages.
Between the calls the process locks and unlocks other pages. What a history of calls leaves behind on the
pages that are only locked through them is stated exactly.
-/

namespace KernelKit.Mlock
open Interaction Relation

inductive LockOp
  | mlock (addr len : ℕ)
  | munlock (addr len : ℕ)
  | lastOsError
  deriving DecidableEq, Repr

abbrev LockOp.Ans : LockOp → Type
  | .mlock _ _ => ℤ
  | .munlock _ _ => ℤ
  | .lastOsError => IoError

abbrev LockProg (α : Type) := Prog LockOp LockOp.Ans Exit α

def nonZeroLen (len : ℕ) : Option ℕ := if len = 0 then none else some len

def regionCall (ptr len : ℕ) (operation : ℕ → ℕ → LockProg ℤ) (operationName : String) : LockProg Unit :=
  if (nonZeroLen len).isNone then pure ()
  else if ptr = 0 then throw .nullPointer
  else do
    let result ← operation ptr len
    if result = 0 then pure ()
    else do
      let source ← Prog.call LockOp.lastOsError
      throw (.system operationName source)

def mlock (addr len : ℕ) : LockProg ℤ := Prog.call (LockOp.mlock addr len)

def munlock (addr len : ℕ) : LockProg ℤ := Prog.call (LockOp.munlock addr len)

def lockRegion (ptr len : ℕ) : LockProg Unit := regionCall ptr len mlock "mlock"

def unlockRegion (ptr len : ℕ) : LockProg Unit := regionCall ptr len munlock "munlock"

/-! ### The kernel -/

structure Process where
  locked : ℕ → Bool
  errno : ℕ

/-- The page holds a byte of the range. A range that reaches into the last page of the address space is on
no page: its rounded length wraps around, and the kernel refuses it or acts on nothing. -/
def OnPage (host : Host) (addr len page : ℕ) : Prop :=
  addr + len + host.pageSize ≤ 2 ^ host.width.bits ∧
    ∃ byte, addr ≤ byte ∧ byte < addr + len ∧ byte / host.pageSize = page

/-- The pages of the range are set, all of them if the answer is zero; any other leaves an errno. -/
def Sets (host : Host) (value : Bool) (addr len : ℕ) (answer : ℤ) (k k' : Process) : Prop :=
  (answer = 0 ∨ answer = -1 ∧ k'.errno ≠ 0) ∧
    Write.Acts ⟨OnPage host addr len, value, answer = 0⟩ k.locked k'.locked

/-- Linux, while the rest of the process leaves the pages in `own` alone. -/
def lockEnv (host : Host) (own : ℕ → Prop) : Env Process LockOp LockOp.Ans where
  serve
    | .mlock addr len, k, answer, k' => Sets host true addr len answer k k'
    | .munlock addr len, k, answer, k' => Sets host false addr len answer k k'
    | .lastOsError, k, source, k' => source = .os k.errno ∧ k' = k
  interfere k k' := k'.errno = k.errno ∧ ∀ page, own page → k'.locked page = k.locked page

/-! ### Histories of calls -/

inductive LockKind
  | lock
  | unlock
  deriving DecidableEq, Repr

def LockKind.operation : LockKind → ℕ → ℕ → LockProg ℤ
  | .lock => mlock
  | .unlock => munlock

def LockKind.operationName : LockKind → String
  | .lock => "mlock"
  | .unlock => "munlock"

def LockKind.locks : LockKind → Bool
  | .lock => true
  | .unlock => false

structure Request where
  kind : LockKind
  ptr : ℕ
  len : ℕ
  result : Except Exit Unit

def Request.program (q : Request) : LockProg Unit :=
  match q.kind with
  | .lock => lockRegion q.ptr q.len
  | .unlock => unlockRegion q.ptr q.len

def Request.Admissible (q : Request) : Prop :=
  if q.len = 0 then q.result = .ok ()
  else if q.ptr = 0 then q.result = .error (.err .nullPointer)
  else q.result = .ok () ∨
    ∃ errno ≠ 0, q.result = .error (.err (.system q.kind.operationName (.os errno)))

def Request.Touches (host : Host) (q : Request) (page : ℕ) : Prop :=
  q.ptr ≠ 0 ∧ OnPage host q.ptr q.len page

/-- None of the calls that touch the page succeeded. -/
def Unsettled (host : Host) (page : ℕ) (hist : List Request) : Prop :=
  ∀ q ∈ hist, q.Touches host page → q.result ≠ .ok ()

abbrev LockRuns (host : Host) (own : ℕ → Prop) : Process → List Request → Process → Prop :=
  Served (fun q k k' => ∃ tr, (lockEnv host own).Runs q.program k tr q.result k')
    fun k k' => ∀ page, own page → k'.locked page = k.locked page

variable {host : Host} {own : ℕ → Prop} {k k' : Process} {q : Request} {hist : List Request}
  {tr : List (Call Process LockOp LockOp.Ans)} {page : ℕ}

/-! ### One call -/

def Request.write (host : Host) (q : Request) : Write ℕ Bool :=
  ⟨q.Touches host, q.kind.locks, q.result = .ok ()⟩

theorem not_onPage_zero {addr : ℕ} : ¬ OnPage host addr 0 page := by
  rintro ⟨-, byte, hle, hlt, -⟩
  omega

theorem not_touches (h : q.len = 0 ∨ q.ptr = 0) : ¬ q.Touches host page := by
  rintro ⟨hptr, hpage⟩
  rcases h with hlen | hnull
  · rw [hlen] at hpage
    exact not_onPage_zero hpage
  · exact hptr hnull

theorem program_eq : q.program = regionCall q.ptr q.len q.kind.operation q.kind.operationName := by
  unfold Request.program
  cases q.kind <;> rfl

/-- A call for no bytes, or at no address, does not get to the kernel. -/
theorem program_of_len_eq_zero (hlen : q.len = 0) : q.program = .ret () := by
  rw [program_eq, regionCall, nonZeroLen, if_pos hlen]
  rfl

theorem program_of_ptr_eq_zero (hlen : q.len ≠ 0) (hptr : q.ptr = 0) :
    q.program = throw .nullPointer := by
  rw [program_eq, regionCall, nonZeroLen, if_neg hlen]
  exact if_pos hptr

theorem program_of_ne_zero (hlen : q.len ≠ 0) (hptr : q.ptr ≠ 0) : q.program =
    (q.kind.operation q.ptr q.len).bind fun result => if result = 0 then pure () else
      .ask .lastOsError fun source => throw (.system q.kind.operationName source) := by
  rw [program_eq, regionCall, nonZeroLen, if_neg hlen]
  exact if_neg hptr

theorem runs_operation {kind : LockKind} {addr len : ℕ} {r : Except Exit ℤ}
    (h : (lockEnv host own).Runs (kind.operation addr len) k tr r k') : ∃ k₁ answer,
      ReflTransGen (lockEnv host own).interfere k k₁ ∧ Sets host kind.locks addr len answer k₁ k' ∧
        r = .ok answer := by
  cases kind with
  | lock | unlock =>
      obtain ⟨k₁, answer, k₂, tr', hrely, hserve, hret, rfl⟩ := Env.runs_ask_iff.mp h
      obtain ⟨rfl, rfl, rfl⟩ := Env.runs_ret_iff.mp hret
      exact ⟨k₁, answer, hrely, hserve, rfl⟩

theorem operation_runs {kind : LockKind} {addr len : ℕ} {answer : ℤ} (own : ℕ → Prop)
    (h : Sets host kind.locks addr len answer k k') :
    ∃ tr, (lockEnv host own).Runs (kind.operation addr len) k tr (.ok answer) k' := by
  cases kind with
  | lock | unlock => exact ⟨_, .ask .refl h (.ret answer k')⟩

theorem errno_eq_of_interfere (h : ReflTransGen (lockEnv host own).interfere k k') :
    k'.errno = k.errno := by
  induction h with
  | refl => rfl
  | tail _ hstep ih => exact hstep.1.trans ih

theorem locked_eq_of_interfere (h : ReflTransGen (lockEnv host own).interfere k k') (hpage : own page) :
    k'.locked page = k.locked page := by
  induction h with
  | refl => rfl
  | tail _ hstep ih => exact (hstep.2 page hpage).trans ih

/-- What is set on the pages of the range is set as the write of the call says, if the call succeeds
exactly when the answer is zero. -/
theorem may_of_sets {answer : ℤ} (h : Sets host q.kind.locks q.ptr q.len answer k k')
    (hptr : q.ptr ≠ 0) (hresult : q.result = .ok () ↔ answer = 0) (page : ℕ) :
    (q.write host).May page (k.locked page) (k'.locked page) := by
  rcases h.2 page with ⟨hsame, hpart⟩ | ⟨hset, hpage⟩
  · exact .inl ⟨hsame, fun hcovers => mt hresult.mp (hpart hcovers.2)⟩
  · exact .inr ⟨hset, hptr, hpage⟩

theorem runs_request (h : (lockEnv host own).Runs q.program k tr q.result k') :
    q.Admissible ∧ ∀ page, own page → (q.write host).May page (k.locked page) (k'.locked page) := by
  unfold Request.Admissible
  split_ifs with hlen hptr
  · rw [program_of_len_eq_zero hlen] at h
    obtain ⟨-, hresult, rfl⟩ := Env.runs_ret_iff.mp h
    exact ⟨hresult, fun page _ => .inl ⟨rfl, fun hcovers => absurd hcovers (not_touches (.inl hlen))⟩⟩
  · rw [program_of_ptr_eq_zero hlen hptr] at h
    obtain ⟨-, hresult, rfl⟩ := runs_throw_iff.mp h
    exact ⟨hresult, fun page _ => .inl ⟨rfl, fun hcovers => absurd hcovers (not_touches (.inr hptr))⟩⟩
  · rw [program_of_ne_zero hlen hptr] at h
    rcases Env.runs_bind_iff.mp h with ⟨_, _, hop⟩ | ⟨result, k₂, t₁, t₂, hop, hrest, rfl⟩
    · obtain ⟨_, _, _, _, ⟨⟩⟩ := runs_operation hop
    obtain ⟨k₁, answer, hrely, hsets, hanswer⟩ := runs_operation hop
    cases hanswer
    split_ifs at hrest with hzero
    · obtain ⟨-, hresult, rfl⟩ := Env.runs_ret_iff.mp hrest
      refine ⟨.inl hresult, fun page hpage => ?_⟩
      rw [← locked_eq_of_interfere hrely hpage]
      exact may_of_sets hsets hptr (iff_of_true hresult hzero) page
    · obtain ⟨k₃, source, k₄, t₃, hrely', ⟨rfl, rfl⟩, hthrow, rfl⟩ := Env.runs_ask_iff.mp hrest
      obtain ⟨-, hresult, rfl⟩ := runs_throw_iff.mp hthrow
      have herrno : k₂.errno ≠ 0 := (hsets.1.resolve_left hzero).2
      refine ⟨.inr ⟨_, errno_eq_of_interfere hrely' ▸ herrno, hresult⟩, fun page hpage => ?_⟩
      rw [← locked_eq_of_interfere hrely hpage, locked_eq_of_interfere hrely' hpage]
      refine may_of_sets hsets hptr (iff_of_false ?_ hzero) page
      rw [hresult]
      rintro ⟨⟩

theorem request_runs {f : ℕ → Bool} (own : ℕ → Prop) (hadm : q.Admissible)
    (hacts : (q.write host).Acts k.locked f) :
    ∃ k', (∃ tr, (lockEnv host own).Runs q.program k tr q.result k') ∧ k'.locked = f := by
  unfold Request.Admissible at hadm
  split_ifs at hadm with hlen hptr
  · rw [program_of_len_eq_zero hlen, hadm]
    exact ⟨k, ⟨[], .ret () k⟩, hacts.eq_of_not_covers fun _ => not_touches (.inl hlen)⟩
  · rw [program_of_ptr_eq_zero hlen hptr, hadm]
    exact ⟨k, ⟨[], .fail _ k⟩, hacts.eq_of_not_covers fun _ => not_touches (.inr hptr)⟩
  have hsets : ∀ (answer : ℤ) (errno : ℕ), (answer = 0 ∨ answer = -1 ∧ errno ≠ 0) →
      (q.result = .ok () ↔ answer = 0) → Sets host q.kind.locks q.ptr q.len answer k ⟨f, errno⟩ := by
    refine fun answer errno hanswer hresult => ⟨hanswer, fun page => ?_⟩
    rcases hacts page with ⟨hsame, hpart⟩ | ⟨hset, hcovers⟩
    · exact .inl ⟨hsame, fun hpage => mt hresult.mpr (hpart ⟨hptr, hpage⟩)⟩
    · exact .inr ⟨hset, hcovers.2⟩
  rw [program_of_ne_zero hlen hptr]
  rcases hadm with hok | ⟨errno, herrno, herr⟩
  · obtain ⟨tr, hop⟩ := operation_runs own (hsets 0 0 (.inl rfl) (iff_of_true hok rfl))
    rw [hok]
    exact ⟨_, ⟨tr ++ [], hop.bind (.ret () _)⟩, rfl⟩
  · have hne : q.result ≠ .ok () := by
      rw [herr]
      rintro ⟨⟩
    obtain ⟨tr, hop⟩ := operation_runs own
      (hsets (-1) errno (.inr ⟨rfl, herrno⟩) (iff_of_false hne (by decide)))
    rw [herr]
    exact ⟨_, ⟨_, hop.bind (.ask .refl ⟨rfl, rfl⟩ (.fail _ _))⟩, rfl⟩

/-! ### Histories -/

theorem lock_actsAs (host : Host) (own : ℕ → Prop) :
    ActsAs (fun q k k' => ∃ tr, (lockEnv host own).Runs q.program k tr q.result k')
      (fun k k' => ∀ page, own page → k'.locked page = k.locked page) Process.locked own
      Request.Admissible (Request.write host) where
  admissible := fun ⟨_, h⟩ => (runs_request h).1
  may := fun ⟨_, h⟩ hown => (runs_request h).2 _ hown
  exists_step := request_runs own
  idle_eq h hown := h _ hown

/-- A history of calls with their results is possible exactly if each result is one its call may have;
and a page that only these calls lock may end locked or not as the last successful call that touches it
left it, or as a later call that touches it and failed asked for. -/
theorem lockHistory_iff (host : Host) (own : ℕ → Prop) (k : Process) (hist : List Request) (f : ℕ → Bool) :
    (∃ k', LockRuns host own k hist k' ∧ ∀ page, own page → k'.locked page = f page) ↔
      (∀ q ∈ hist, q.Admissible) ∧ ∀ page, own page →
        (f page = k.locked page ∧ Unsettled host page hist) ∨ ∃ pre q post, hist = pre ++ q :: post ∧
          q.Touches host page ∧ q.kind.locks = f page ∧ Unsettled host page post :=
  (lock_actsAs host own).served_iff

/-- After a call to unlock that no successful call to lock follows, a last call to unlock may have been
what the page was left by. -/
theorem exists_last_unlock {pre post : List Request} (hsplit : hist = pre ++ q :: post)
    (hkind : q.kind = .unlock) (htouches : q.Touches host page)
    (hnone : ∀ q' ∈ post, q'.kind = .lock → q'.result = .ok () → ¬ q'.Touches host page) :
    ∃ pre q post, hist = pre ++ q :: post ∧ q.Touches host page ∧ q.kind.locks = false ∧
      Unsettled host page post := by
  by_cases hunsettled : Unsettled host page post
  · exact ⟨pre, q, post, hsplit, htouches, by rw [hkind]; rfl, hunsettled⟩
  obtain ⟨pre', q', post', rfl, htouches', hok, hlast⟩ :=
    Write.not_unsettled_iff.mp (show ¬ Write.Unsettled (Request.write host) page post from hunsettled)
  refine ⟨pre ++ q :: pre', q', post', by simp [hsplit], htouches', ?_, hlast⟩
  cases hkind' : q'.kind with
  | lock => exact absurd htouches' (hnone q' (by simp) hkind' hok)
  | unlock => rfl

/-- A region that was locked: its bytes are all on locked pages in every run of a later history exactly
if every later call to unlock, for whatever region, that shares a page with it is followed by a successful
call to lock that touches the page. -/
theorem region_staysLocked_iff (host : Host) (own : ℕ → Prop) (ptr len : ℕ) (hist : List Request)
    (hptr : ptr ≠ 0) (hfits : ptr + len + host.pageSize ≤ 2 ^ host.width.bits)
    (hown : ∀ byte, ptr ≤ byte → byte < ptr + len → own (byte / host.pageSize))
    (hadm : ∀ q ∈ hist, q.Admissible) :
    (∀ k k', LockRuns host own k (⟨.lock, ptr, len, .ok ()⟩ :: hist) k' →
        ∀ byte, ptr ≤ byte → byte < ptr + len → k'.locked (byte / host.pageSize) = true) ↔
      ∀ byte, ptr ≤ byte → byte < ptr + len → ∀ pre q post, hist = pre ++ q :: post →
        q.kind = .unlock → q.Touches host (byte / host.pageSize) → ∃ q' ∈ post, q'.kind = .lock ∧
          q'.result = .ok () ∧ q'.Touches host (byte / host.pageSize) := by
  have htouches : ∀ byte, ptr ≤ byte → byte < ptr + len →
      Request.Touches host ⟨.lock, ptr, len, .ok ()⟩ (byte / host.pageSize) := fun byte hle hlt =>
    ⟨hptr, hfits, byte, hle, hlt, rfl⟩
  constructor
  · intro h byte hle hlt pre q post hsplit hkind hq
    by_contra hnone
    obtain ⟨pre', q', post', rfl, hlast⟩ := exists_last_unlock hsplit hkind hq
      fun q' hq' hkind' hok ht => hnone ⟨q', hq', hkind', hok, ht⟩
    have hadmissible : Request.Admissible ⟨.lock, ptr, len, .ok ()⟩ := by
      unfold Request.Admissible
      rw [if_neg (by dsimp only; omega), if_neg hptr]
      exact .inl rfl
    obtain ⟨k', hruns, hlocked⟩ := (lock_actsAs host own).exists_served_cell (b := false)
      (s := ⟨fun _ => false, 0⟩) (List.forall_mem_cons.mpr ⟨hadmissible, hadm⟩)
      (Write.mayEnd_iff.mpr (.inr ⟨_ :: pre', q', post', rfl, hlast⟩))
    have hstays := h _ k' hruns byte hle hlt
    rw [hlocked (hown byte hle hlt)] at hstays
    cases hstays
  · intro h k k' hruns byte hle hlt
    rcases Write.mayEnd_iff.mp (((lock_actsAs host own).mayEnd hruns).2 _ (hown byte hle hlt)) with
      ⟨-, hunsettled⟩ | ⟨pre, q, post, hsplit, hq, hlocks, hunsettled⟩
    · exact absurd rfl (hunsettled _ (.head _) (htouches byte hle hlt))
    rw [← hlocks]
    cases hkind : q.kind with
    | lock => exact congrArg LockKind.locks hkind
    | unlock =>
        cases pre with
        | nil =>
            obtain ⟨rfl, rfl⟩ := List.cons.inj hsplit
            cases hkind
        | cons _ pre =>
            obtain ⟨-, rfl⟩ := List.cons.inj hsplit
            obtain ⟨q', hmem, -, hok, ht⟩ := h byte hle hlt pre q post rfl hkind hq
            exact absurd hok (hunsettled q' hmem ht)

/-- Unlocking a region on the next page leaves sixteen locked bytes alone, and unlocking one on their own
page does not. -/
theorem region_staysLocked_iff_sixteen :
    (∀ k k', LockRuns (hugeHost 21) (fun _ => True) k
        [⟨.lock, 4096, 16, .ok ()⟩, ⟨.unlock, 8192, 16, .ok ()⟩] k' →
        ∀ byte, 4096 ≤ byte → byte < 4096 + 16 → k'.locked (byte / 4096) = true) ∧
      ¬ ∀ k k', LockRuns (hugeHost 21) (fun _ => True) k
        [⟨.lock, 4096, 16, .ok ()⟩, ⟨.unlock, 4200, 16, .ok ()⟩] k' →
        ∀ byte, 4096 ≤ byte → byte < 4096 + 16 → k'.locked (byte / 4096) = true := by
  have hadm : ∀ ptr, ptr ≠ 0 → ∀ q ∈ [(⟨.unlock, ptr, 16, .ok ()⟩ : Request)], q.Admissible := by
    intro ptr hptr
    rw [List.forall_mem_singleton, Request.Admissible, if_neg (by decide : ¬ (16 : ℕ) = 0), if_neg hptr]
    exact .inl rfl
  have hiff := fun ptr hptr => region_staysLocked_iff (hugeHost 21) (fun _ => True) 4096 16
    [⟨.unlock, ptr, 16, .ok ()⟩] (by decide) (by decide) (fun _ _ _ => trivial) (hadm ptr hptr)
  refine ⟨(hiff 8192 (by decide)).mpr ?_, fun hstays => ?_⟩
  · rintro byte - hlt pre q post hsplit - ⟨-, -, byte', hle', -, hsame⟩
    obtain ⟨-, hq⟩ | ⟨-, ⟨⟩⟩ := List.singleton_eq_append_iff.mp hsplit
    obtain ⟨rfl, rfl⟩ := List.cons.inj hq
    simp only [hugeHost] at hle' hsame
    omega
  · obtain ⟨q', hmem, -⟩ := (hiff 4200 (by decide)).mp hstays 4096 (by decide) (by decide) [] _ [] rfl rfl
      ⟨by decide, by decide, 4200, by decide, by decide, by decide⟩
    exact absurd hmem (List.not_mem_nil)

end KernelKit.Mlock
