import KernelKit.ThreadPool

/-!
# Cells that are initialized once

`getOrInit init` hands out what a cell holds, and runs `init` to fill it if it is empty. A thread that
finds another one at work waits for it. The initializer cannot fail, but it is a program over a world
that may change between its calls. Whatever the interleaving, at most one thread starts the initializer,
every thread gets the one result of its run, and some thread can always go on.
-/

namespace Interaction
open Relation

variable {ι σ Op V : Type} {Ans : Op → Type}

inductive OnceOp (Op V : Type)
  | get
  | enter
  | call (op : Op)
  | finish (value : V)
  | read

def OnceAns (Ans : Op → Type) (V : Type) : OnceOp Op V → Type
  | .get => Option V
  | .enter => Bool
  | .call op => Ans op
  | .finish _ => Unit
  | .read => V

abbrev OnceProg (Ans : Op → Type) (V : Type) := Prog (OnceOp Op V) (OnceAns Ans V) Empty V

namespace OnceCell

def readCell : OnceProg Ans V := .ask .read .ret

def initializing : Prog Op Ans Empty V → OnceProg Ans V
  | .ret v => .ask (.finish v) fun _ => readCell
  | .fail e => .fail e
  | .ask op next => .ask (.call op) fun x => initializing (next x)

def fill (init : Prog Op Ans Empty V) : OnceProg Ans V :=
  .ask .enter fun run => bif run then initializing init else readCell

def getOrInit (init : Prog Op Ans Empty V) : OnceProg Ans V :=
  .ask .get fun
    | some v => .ret v
    | none => fill init

inductive Cell (ι V : Type)
  | empty
  | running (holder : ι)
  | full (value : V)

def Cell.value : Cell ι V → Option V
  | .full v => some v
  | _ => none

structure State (ι σ V : Type) where
  cell : Cell ι V
  world : σ

/-- A thread enters an empty cell or a full one, and waits while another thread is filling it. -/
def serve (E : Env σ Op Ans) (i : ι) :
    (op : OnceOp Op V) → State ι σ V → OnceAns Ans V op → State ι σ V → Prop
  | .get, s, x, s' => x = s.cell.value ∧ s' = s
  | .enter, s, run, s' => s.cell = .empty ∧ run = true ∧ s' = { s with cell := .running i } ∨
      (∃ v, s.cell = .full v) ∧ run = false ∧ s' = s
  | .call op, s, x, s' => ∃ w w', ReflTransGen E.interfere s.world w ∧ E.serve op w x w' ∧
      s' = { s with world := w' }
  | .finish v, s, _, s' => s' = { s with cell := .full v }
  | .read, s, v, s' => s.cell = .full v ∧ s' = s

abbrev OncePool (ι σ : Type) (Ans : Op → Type) (V : Type) :=
  Pool ι (State ι σ V) (OnceOp Op V) (OnceAns Ans V) Empty V

abbrev OnceEvent (ι σ : Type) (Ans : Op → Type) (V : Type) :=
  Event ι (State ι σ V) (OnceOp Op V) (OnceAns Ans V)

def start (ι : Type) (init : Prog Op Ans Empty V) (w₀ : σ) : OncePool ι σ Ans V :=
  ⟨⟨.empty, w₀⟩, fun _ => getOrInit init⟩

def entered : OnceEvent ι σ Ans V → Bool
  | ⟨_, _, .enter, run⟩ => run
  | _ => false

/-! ### The points of `getOrInit` -/

inductive Point (Ans : Op → Type) (V : Type)
  | start
  | entering
  | running (rest : Prog Op Ans Empty V)
  | reading
  | done (value : V)

variable {E : Env σ Op Ans} {init : Prog Op Ans Empty V} {w₀ : σ}

def Point.code (init : Prog Op Ans Empty V) : Point Ans V → OnceProg Ans V
  | .start => getOrInit init
  | .entering => fill init
  | .running rest => initializing rest
  | .reading => readCell
  | .done v => .ret v

inductive Advance (init : Prog Op Ans Empty V) :
    Point Ans V → (op : OnceOp Op V) → OnceAns Ans V op → Point Ans V → Prop
  | cached (v) : Advance init .start .get (some v) (.done v)
  | missing : Advance init .start .get none .entering
  | entered : Advance init .entering .enter true (.running init)
  | filled : Advance init .entering .enter false .reading
  | called {op next} (x) : Advance init (.running (.ask op next)) (.call op) x (.running (next x))
  | finished (v) : Advance init (.running (.ret v)) (.finish v) () .reading
  | read (v) : Advance init .reading .read v (.done v)

theorem advance_of_code {pt : Point Ans V} {op : OnceOp Op V} {next : OnceAns Ans V op → OnceProg Ans V}
    {x : OnceAns Ans V op} (h : pt.code init = .ask op next) :
    ∃ pt', Advance init pt op x pt' ∧ next x = pt'.code init := by
  cases pt with
  | start =>
      cases h
      cases x with
      | none => exact ⟨_, .missing, rfl⟩
      | some v => exact ⟨_, .cached v, rfl⟩
  | entering =>
      cases h
      cases x with
      | true => exact ⟨_, .entered, rfl⟩
      | false => exact ⟨_, .filled, rfl⟩
  | running rest =>
      cases rest with
      | ret v =>
          cases h
          exact ⟨_, .finished v, rfl⟩
      | fail e => exact e.elim
      | ask op next =>
          cases h
          exact ⟨_, .called x, rfl⟩
  | reading =>
      cases h
      exact ⟨_, .read x, rfl⟩
  | done v => cases h

theorem Point.eq_done_of_code {pt : Point Ans V} {v : V} (h : pt.code init = .ret v) : pt = .done v := by
  cases pt with
  | running rest =>
      cases rest with
      | fail e => exact e.elim
      | ret | ask => cases h
  | start | entering | reading => cases h
  | done v' =>
      cases h
      rfl

/-! ### The invariant -/

/-- A run of `rest` from the world as it is completes a run of the initializer. -/
def Completes (E : Env σ Op Ans) (init : Prog Op Ans Empty V) (w₀ : σ) (rest : Prog Op Ans Empty V)
    (w : σ) : Prop :=
  ∃ tr, ∀ tr' r w', E.Runs rest w tr' r w' → E.Runs init w₀ (tr ++ tr') r w'

theorem Completes.refl : Completes E init w₀ init w₀ := ⟨[], fun _ _ _ => id⟩

theorem Completes.call {op : Op} {next : Ans op → Prog Op Ans Empty V} {x : Ans op} {w w₁ w₂ : σ}
    (h : Completes E init w₀ (.ask op next) w) (hrely : ReflTransGen E.interfere w w₁)
    (hserve : E.serve op w₁ x w₂) : Completes E init w₀ (next x) w₂ := by
  obtain ⟨tr, htr⟩ := h
  refine ⟨tr ++ [⟨w₁, op, x⟩], fun tr' r w' hrun => ?_⟩
  rw [List.append_assoc]
  exact htr _ _ _ (.ask hrely hserve hrun)

def Point.Running : Point Ans V → Prop
  | .running _ => True
  | _ => False

/-- What a thread at the point knows of the cell and the world. -/
def Point.Fits (E : Env σ Op Ans) (init : Prog Op Ans Empty V) (w₀ : σ) :
    Point Ans V → State ι σ V → Prop
  | .running rest, s => Completes E init w₀ rest s.world
  | .reading, s => ∃ v, s.cell = .full v
  | .done v, s => s.cell = .full v
  | _, _ => True

/-- What the cell says of the world and of the run so far. -/
def Cell.Fits (E : Env σ Op Ans) (init : Prog Op Ans Empty V) (w₀ : σ)
    (events : List (OnceEvent ι σ Ans V)) (w : σ) : Cell ι V → Prop
  | .empty => w = w₀ ∧ events.countP entered = 0
  | .running _ => events.countP entered = 1
  | .full v => events.countP entered = 1 ∧ ∃ tr w', E.Runs init w₀ tr (.ok v) w'

structure Consistent (E : Env σ Op Ans) (init : Prog Op Ans Empty V) (w₀ : σ)
    (events : List (OnceEvent ι σ Ans V)) (s : State ι σ V) (pc : ι → Point Ans V) : Prop where
  holder : ∀ i, (pc i).Running ↔ s.cell = .running i
  fits : ∀ i, (pc i).Fits E init w₀ s
  cell : s.cell.Fits E init w₀ events s.world

variable {events : List (OnceEvent ι σ Ans V)} {ev : OnceEvent ι σ Ans V} {s s' : State ι σ V}
  {pc : ι → Point Ans V} {i : ι} {pt : Point Ans V}

theorem Cell.Fits.append {cell : Cell ι V} {w : σ} (h : cell.Fits E init w₀ events w)
    (ev : OnceEvent ι σ Ans V) (hentered : entered ev = false) : cell.Fits E init w₀ (events ++ [ev]) w := by
  have hcount : (events ++ [ev]).countP entered = events.countP entered := by
    rw [List.countP_append, List.countP_singleton, hentered]
    rfl
  cases cell with
  | empty => exact ⟨h.1, hcount.trans h.2⟩
  | running => exact hcount.trans h
  | full v => exact ⟨hcount.trans h.1, h.2⟩

/-- While `i` fills the cell the others know nothing of it. -/
theorem Consistent.others (h : Consistent E init w₀ events s pc) (hi : s.cell = .running i) {j : ι}
    (hj : j ≠ i) (s' : State ι σ V) : ¬ (pc j).Running ∧ (pc j).Fits E init w₀ s' := by
  have hnot : ¬ (pc j).Running := by
    rw [h.holder j, hi]
    rintro ⟨⟩
    exact hj rfl
  refine ⟨hnot, ?_⟩
  have hfits := h.fits j
  revert hnot hfits
  cases pc j with
  | start | entering => exact fun _ _ => trivial
  | running => exact fun hnot _ => absurd trivial hnot
  | reading =>
      rintro - ⟨v, hv⟩
      cases hi.symm.trans hv
  | done v =>
      intro _ hv
      cases hi.symm.trans hv

section Steps

variable [DecidableEq ι]

theorem Consistent.move (h : Consistent E init w₀ events s pc) (hrunning : pt.Running ↔ (pc i).Running)
    (hfits : pt.Fits E init w₀ s) (hentered : entered ev = false) :
    Consistent E init w₀ (events ++ [ev]) s (Function.update pc i pt) := by
  refine ⟨?_, ?_, h.cell.append ev hentered⟩
  · rw [Function.forall_update_iff pc fun j pt => pt.Running ↔ s.cell = .running j]
    exact ⟨hrunning.trans (h.holder i), fun j _ => h.holder j⟩
  · rw [Function.forall_update_iff pc fun _ pt => pt.Fits E init w₀ s]
    exact ⟨hfits, fun j _ => h.fits j⟩

theorem Consistent.holderStep (h : Consistent E init w₀ events s pc) (hi : s.cell = .running i)
    (hrunning : pt.Running ↔ s'.cell = .running i) (hcell : ∀ j, j ≠ i → s'.cell ≠ .running j)
    (hfits : pt.Fits E init w₀ s') (hcell' : s'.cell.Fits E init w₀ (events ++ [ev]) s'.world) :
    Consistent E init w₀ (events ++ [ev]) s' (Function.update pc i pt) := by
  refine ⟨?_, ?_, hcell'⟩
  · rw [Function.forall_update_iff pc fun j pt => pt.Running ↔ s'.cell = .running j]
    exact ⟨hrunning, fun j hj => iff_of_false (h.others hi hj s').1 (hcell j hj)⟩
  · rw [Function.forall_update_iff pc fun _ pt => pt.Fits E init w₀ s']
    exact ⟨hfits, fun j hj => (h.others hi hj s').2⟩

theorem Consistent.enter (h : Consistent E init w₀ events s pc) (hempty : s.cell = .empty) :
    Consistent E init w₀ (events ++ [⟨i, s, .enter, true⟩]) { s with cell := .running i }
      (Function.update pc i (.running init)) := by
  have hcell := h.cell
  rw [hempty] at hcell
  obtain ⟨hworld, hcount⟩ := hcell
  have hidle : ∀ j, ¬ (pc j).Running ∧ (pc j).Fits E init w₀ { s with cell := .running i } := by
    intro j
    have hrunning := h.holder j
    have hfits := h.fits j
    revert hrunning hfits
    cases pc j with
    | start | entering => exact fun _ _ => ⟨not_false, trivial⟩
    | running =>
        intro hrunning _
        cases hempty.symm.trans (hrunning.mp trivial)
    | reading =>
        rintro - ⟨v, hv⟩
        cases hempty.symm.trans hv
    | done v =>
        intro _ hv
        cases hempty.symm.trans hv
  refine ⟨?_, ?_, ?_⟩
  · rw [Function.forall_update_iff pc fun j pt => pt.Running ↔ (Cell.running i : Cell ι V) = .running j]
    exact ⟨iff_of_true trivial rfl, fun j hj => iff_of_false (hidle j).1 fun heq => hj (by cases heq; rfl)⟩
  · rw [Function.forall_update_iff pc fun _ pt => pt.Fits E init w₀ { s with cell := .running i }]
    refine ⟨?_, fun j _ => (hidle j).2⟩
    change Completes E init w₀ init s.world
    rw [hworld]
    exact .refl
  · change (events ++ [_]).countP entered = 1
    rw [List.countP_append, hcount]
    rfl

theorem Consistent.step (h : Consistent E init w₀ events s pc) {op : OnceOp Op V} {x : OnceAns Ans V op}
    (hadvance : Advance init (pc i) op x pt) (hserve : serve E i op s x s') :
    Consistent E init w₀ (events ++ [⟨i, s, op, x⟩]) s' (Function.update pc i pt) := by
  have hfits := h.fits i
  have hholder := h.holder i
  have hmove : (pt.Running ↔ (pc i).Running) → pt.Fits E init w₀ s → entered ⟨i, s, op, x⟩ = false →
      Consistent E init w₀ (events ++ [⟨i, s, op, x⟩]) s (Function.update pc i pt) := h.move
  generalize pc i = pt₀ at hadvance hfits hholder hmove
  cases hadvance with
  | cached v =>
      obtain ⟨hvalue, rfl⟩ := hserve
      refine hmove .rfl ?_ rfl
      change s'.cell = .full v
      revert hvalue
      cases s'.cell with
      | empty | running => rintro ⟨⟩
      | full v' =>
          rintro ⟨⟩
          rfl
  | missing =>
      obtain ⟨-, rfl⟩ := hserve
      exact hmove .rfl trivial rfl
  | entered =>
      rcases hserve with ⟨hempty, -, rfl⟩ | ⟨-, hrun, -⟩
      · exact h.enter hempty
      · cases hrun
  | filled =>
      rcases hserve with ⟨-, hrun, -⟩ | ⟨hfull, -, rfl⟩
      · cases hrun
      · exact hmove .rfl hfull rfl
  | called x =>
      obtain ⟨w, w', hrely, hcall, rfl⟩ := hserve
      have hi := hholder.mp trivial
      refine h.holderStep hi (iff_of_true trivial hi) (fun j hj heq => hj ?_) (hfits.call hrely hcall) ?_
      · cases hi.symm.trans heq
        rfl
      · have hcell := h.cell.append ⟨i, s, .call _, x⟩ rfl
        rw [hi] at hcell
        rw [hi]
        exact hcell
  | finished v =>
      obtain rfl := hserve
      have hi := hholder.mp trivial
      obtain ⟨tr, htr⟩ := hfits
      refine h.holderStep hi (iff_of_false not_false nofun) (fun _ _ => nofun) ⟨v, rfl⟩ ⟨?_, ?_⟩
      · have hcell := h.cell.append ⟨i, s, .finish v, ()⟩ rfl
        rw [hi] at hcell
        exact hcell
      · exact ⟨_, _, htr _ _ _ (.ret v s.world)⟩
  | read v =>
      obtain ⟨hfull, rfl⟩ := hserve
      exact hmove .rfl hfull rfl

theorem runs_points {pool : OncePool ι σ Ans V} (hrun : Pool.Runs (serve E) (start ι init w₀) events pool) :
    ∃ pc, Pool.At (Point.code init) pool pc ∧ Consistent E init w₀ events pool.shared pc := by
  refine hrun.invariant (I := fun events pool => ∃ pc, Pool.At (Point.code init) pool pc ∧
    Consistent E init w₀ events pool.shared pc) ?_ ?_
  · exact ⟨fun _ => .start, fun _ => rfl, fun _ => iff_of_false not_false nofun, fun _ => trivial, rfl, rfl⟩
  · rintro events p ⟨i, s, op, x⟩ q ⟨pc, hat, hcons⟩ hstep
    obtain ⟨pt, hadvance, hat', rfl, hserve⟩ := hat.step (fun _ _ _ _ => advance_of_code) hstep
    exact ⟨_, hat', hcons.step hadvance hserve⟩

theorem step_of_running {pool : OncePool ι σ Ans V} {rest : Prog Op Ans Empty V}
    (htotal : ∀ op w, ∃ x w', E.serve op w x w') (hprog : pool.prog i = initializing rest) :
    ∃ ev next, Pool.Step (serve E) pool ev next := by
  obtain ⟨s, prog⟩ := pool
  cases rest with
  | ret v => exact ⟨⟨i, s, .finish v, ()⟩, _, .call hprog rfl⟩
  | fail e => exact e.elim
  | ask op next =>
      obtain ⟨x, w', hx⟩ := htotal op s.world
      exact ⟨_, _, .call hprog ⟨s.world, w', .refl, hx, rfl⟩⟩

/-- A thread that waits, waits for one that can go on. -/
theorem Consistent.progress {pool : OncePool ι σ Ans V} (h : Consistent E init w₀ events pool.shared pc)
    (htotal : ∀ op w, ∃ x w', E.serve op w x w') (hat : Pool.At (Point.code init) pool pc)
    (hi : ∀ v, pool.prog i ≠ .ret v) : ∃ ev next, Pool.Step (serve E) pool ev next := by
  obtain ⟨⟨cell, w⟩, prog⟩ := pool
  have hprog := hat i
  have hfits := h.fits i
  generalize pc i = pt at hprog hfits
  cases pt with
  | start => exact ⟨_, _, .call hprog ⟨rfl, rfl⟩⟩
  | entering =>
      cases cell with
      | empty => exact ⟨_, _, .call hprog (.inl ⟨rfl, rfl, rfl⟩)⟩
      | full v => exact ⟨_, _, .call hprog (.inr ⟨⟨v, rfl⟩, rfl, rfl⟩)⟩
      | running j =>
          have hj := (h.holder j).mpr rfl
          have hprogj := hat j
          generalize pc j = pt at hj hprogj
          cases pt with
          | running rest => exact step_of_running htotal hprogj
          | start | entering | reading | done => exact hj.elim
  | running rest => exact step_of_running htotal hprog
  | reading =>
      obtain ⟨v, hv⟩ := hfits
      exact ⟨_, _, .call hprog ⟨hv, rfl⟩⟩
  | done v => exact absurd hprog (hi v)

/-- A pool that got there has started the initializer at most once, and every value it handed out is the
one result of its run. Unless all threads have theirs, one of them can go on. -/
theorem getOrInit_once {pool : OncePool ι σ Ans V}
    (hrun : Pool.Runs (serve E) (start ι init w₀) events pool) :
    events.countP entered ≤ 1 ∧
      (∀ i v, pool.prog i = .ret v → pool.shared.cell = .full v) ∧
      (∀ v, pool.shared.cell = .full v → ∃ tr w', E.Runs init w₀ tr (.ok v) w') ∧
      ((∀ op w, ∃ x w', E.serve op w x w') → (∃ i, ∀ v, pool.prog i ≠ .ret v) →
        ∃ ev next, Pool.Step (serve E) pool ev next) := by
  obtain ⟨pc, hat, hcons⟩ := runs_points hrun
  have hcell := hcons.cell
  refine ⟨?_, fun i v hret => ?_, fun v hfull => ?_, fun htotal => ?_⟩
  · revert hcell
    cases pool.shared.cell with
    | empty => exact fun h => h.2 ▸ Nat.zero_le 1
    | running => exact fun h => Nat.le_of_eq h
    | full => exact fun h => Nat.le_of_eq h.1
  · have hfits := hcons.fits i
    rw [Point.eq_done_of_code ((hat i).symm.trans hret)] at hfits
    exact hfits
  · rw [hfull] at hcell
    exact hcell.2
  · rintro ⟨i, hi⟩
    exact hcons.progress htotal hat hi

/-- A thread that is left alone at the initializer fills the cell and gets the value. -/
theorem run_of_running {rest : Prog Op Ans Empty V} {w w' : σ} {tr : List (Call σ Op Ans)} {v : V}
    (h : E.Runs rest w tr (.ok v) w') {pool₀ pool : OncePool ι σ Ans V}
    (hpool : Pool.Runs (serve E) pool₀ events pool) (hprog : pool.prog i = initializing rest)
    (hworld : pool.shared.world = w) :
    ∃ events' pool', Pool.Runs (serve E) pool₀ events' pool' ∧ pool'.prog i = .ret v := by
  generalize hr : (Except.ok v : Except Empty V) = r at h
  induction h generalizing events pool with
  | ret v' w =>
      cases hr
      have hfinish := hpool.call (show serve E i (.finish v) pool.shared ()
        { pool.shared with cell := .full v } from rfl) hprog
      have hread := hfinish.call (show serve E i .read { pool.shared with cell := .full v } v
        { pool.shared with cell := .full v } from ⟨rfl, rfl⟩) (Function.update_self ..)
      exact ⟨_, _, hread, Function.update_self ..⟩
  | fail e => exact e.elim
  | @ask op _ _ _ w₂ _ x _ _ hrely hserve _ ih =>
      have hcall := hpool.call (show serve E i (.call op) pool.shared x { pool.shared with world := w₂ } from
        ⟨_, _, hworld ▸ hrely, hserve, rfl⟩) hprog
      exact ih hcall (Function.update_self ..) rfl hr

/-- Whatever a run of the initializer gives, a thread may be the first to get. -/
theorem exists_run_alone {w' : σ} {tr : List (Call σ Op Ans)} {v : V}
    (h : E.Runs init w₀ tr (.ok v) w') (i : ι) : ∃ events pool,
    Pool.Runs (serve E) (start ι init w₀) events pool ∧ pool.prog i = .ret v := by
  have hget := (Pool.Runs.refl : Pool.Runs (serve E) (start ι init w₀) [] _).call
    (show serve E i .get ⟨.empty, w₀⟩ none ⟨.empty, w₀⟩ from ⟨rfl, rfl⟩) rfl
  have henter := hget.call (show serve E i .enter ⟨.empty, w₀⟩ true ⟨.running i, w₀⟩ from
    .inl ⟨rfl, rfl, rfl⟩) (Function.update_self ..)
  exact run_of_running h henter (Function.update_self ..) rfl

end Steps

end OnceCell
end Interaction
