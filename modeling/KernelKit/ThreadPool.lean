import KernelKit.Interaction
import Mathlib.Logic.Function.Basic

/-!
# Programs run by many threads on one shared state

A pool has a program for each thread and one state they all call. A step is one call of one thread,
so a run of the pool is an interleaving of the threads' calls. `Pool.Runs` keeps the calls in the
order they happened in. The threads may be any type: finitely many, or one for each number.
-/

namespace Interaction

variable {ι σ Op Point : Type} {Ans : Op → Type} {ε α : Type}

structure Pool (ι σ Op : Type) (Ans : Op → Type) (ε α : Type) where
  shared : σ
  prog : ι → Prog Op Ans ε α

structure Event (ι σ Op : Type) (Ans : Op → Type) where
  thread : ι
  state : σ
  op : Op
  answer : Ans op

namespace Pool

variable [DecidableEq ι] (serve : ι → (op : Op) → σ → Ans op → σ → Prop)

inductive Step : Pool ι σ Op Ans ε α → Event ι σ Op Ans → Pool ι σ Op Ans ε α → Prop
  | call {prog : ι → Prog Op Ans ε α} {i : ι} {op : Op} {next : Ans op → Prog Op Ans ε α} {s s' : σ}
      {x : Ans op} : prog i = .ask op next → serve i op s x s' →
      Step ⟨s, prog⟩ ⟨i, s, op, x⟩ ⟨s', Function.update prog i (next x)⟩

inductive Runs (start : Pool ι σ Op Ans ε α) :
    List (Event ι σ Op Ans) → Pool ι σ Op Ans ε α → Prop
  | refl : Runs start [] start
  | step {events : List (Event ι σ Op Ans)} {p q : Pool ι σ Op Ans ε α} {ev : Event ι σ Op Ans} :
      Runs start events p → Step serve p ev q → Runs start (events ++ [ev]) q

variable {serve} {start p q : Pool ι σ Op Ans ε α} {ev : Event ι σ Op Ans}
  {events : List (Event ι σ Op Ans)}

/-- What holds of the start and is kept by every step holds of every run. -/
theorem Runs.invariant {I : List (Event ι σ Op Ans) → Pool ι σ Op Ans ε α → Prop}
    (hinit : I [] start)
    (hstep : ∀ events p ev q, I events p → Step serve p ev q → I (events ++ [ev]) q)
    (hrun : Runs serve start events p) : I events p := by
  induction hrun with
  | refl => exact hinit
  | step _ hs ih => exact hstep _ _ _ _ ih hs

theorem Runs.call {i : ι} {op : Op} {next : Ans op → Prog Op Ans ε α} {x : Ans op} {s' : σ}
    (hrun : Runs serve start events p) (hserve : serve i op p.shared x s')
    (hprog : p.prog i = .ask op next) :
    Runs serve start (events ++ [⟨i, p.shared, op, x⟩]) ⟨s', Function.update p.prog i (next x)⟩ :=
  hrun.step (.call hprog hserve)

/-! ### Pools whose threads stand at the points of a program -/

def At (code : Point → Prog Op Ans ε α) (p : Pool ι σ Op Ans ε α) (pc : ι → Point) : Prop :=
  ∀ i, p.prog i = code (pc i)

/-- A step takes one thread from its point to another, when the calls at the points and what they
go on with are known. -/
theorem At.step {code : Point → Prog Op Ans ε α} {Advance : Point → (op : Op) → Ans op → Point → Prop}
    (hcode : ∀ pt op next x, code pt = .ask op next → ∃ pt', Advance pt op x pt' ∧ next x = code pt')
    {pc : ι → Point} (hat : At code p pc) (hs : Step serve p ev q) :
    ∃ pt, Advance (pc ev.thread) ev.op ev.answer pt ∧ At code q (Function.update pc ev.thread pt) ∧
      ev.state = p.shared ∧ serve ev.thread ev.op p.shared ev.answer q.shared := by
  cases hs with
  | @call prog i op next s s' x hprog hserve =>
      obtain ⟨pt, hadvance, hnext⟩ := hcode (pc i) op next x ((hat i).symm.trans hprog)
      refine ⟨pt, hadvance, fun j => ?_, rfl, hserve⟩
      by_cases hj : j = i
      · subst hj
        simp only [Function.update_self, hnext]
      · simp only [Function.update_of_ne hj]
        exact hat j

end Pool
end Interaction
