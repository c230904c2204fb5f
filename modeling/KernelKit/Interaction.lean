import Mathlib.Logic.Relation
import Mathlib.Data.List.Basic

/-!
# Programs that call an environment, and their interleaved runs

A program returns, fails, or makes a call and goes on with the answer. An environment serves calls
on its state and may also change that state on its own between any two calls of the program.
`Env.Runs` relates a program and a start state to the calls made, each with the state it was served
in, the result, and the final state; one derivation is one interleaving. The rules below take a run
apart along the structure of the program, and carry invariants and call-site facts along a run.
-/

namespace Interaction
open Relation

/-- Programs over the calls `Op`, where `Ans op` is what the environment answers to `op`. -/
inductive Prog (Op : Type) (Ans : Op → Type) (ε α : Type) : Type
  | ret (value : α)
  | fail (error : ε)
  | ask (op : Op) (next : Ans op → Prog Op Ans ε α)

variable {Op : Type} {Ans : Op → Type} {σ ε δ α β γ : Type}

namespace Prog

def bind : Prog Op Ans ε α → (α → Prog Op Ans ε β) → Prog Op Ans ε β
  | .ret a, f => f a
  | .fail e, _ => .fail e
  | .ask op next, f => .ask op (fun x => (next x).bind f)

instance : Monad (Prog Op Ans ε) where
  pure := .ret
  bind := bind

def call (op : Op) : Prog Op Ans ε (Ans op) := .ask op .ret

def attempt : Prog Op Ans ε α → Prog Op Ans δ (Except ε α)
  | .ret a => .ret (.ok a)
  | .fail e => .ret (.error e)
  | .ask op next => .ask op (fun x => (next x).attempt)

@[simp] theorem pure_eq_ret (a : α) : (pure a : Prog Op Ans ε α) = .ret a := rfl

@[simp] theorem ret_bind (a : α) (f : α → Prog Op Ans ε β) : (ret a).bind f = f a := rfl

@[simp] theorem fail_bind (e : ε) (f : α → Prog Op Ans ε β) :
    (fail e : Prog Op Ans ε α).bind f = .fail e := rfl

@[simp] theorem ask_bind (op : Op) (next : Ans op → Prog Op Ans ε α) (f : α → Prog Op Ans ε β) :
    (ask op next).bind f = .ask op (fun x => (next x).bind f) := rfl

theorem bind_ret (p : Prog Op Ans ε α) : p.bind .ret = p := by
  induction p with
  | ret a => rfl
  | fail e => rfl
  | ask op next ih => simp only [ask_bind, ih]

@[simp] theorem call_bind (op : Op) (f : Ans op → Prog Op Ans ε β) :
    (call op).bind f = .ask op f := rfl

/-- How the program ends if every call is answered by `answer`. -/
def eval (answer : (op : Op) → Ans op) : Prog Op Ans ε α → Except ε α
  | .ret a => .ok a
  | .fail e => .error e
  | .ask op next => (next (answer op)).eval answer

theorem eval_call_bind {answer : (op : Op) → Ans op} (op : Op) (f : Ans op → Prog Op Ans ε β) :
    ((call op).bind f).eval answer = (f (answer op)).eval answer := rfl

theorem eval_bind {answer : (op : Op) → Ans op} (p : Prog Op Ans ε α) (f : α → Prog Op Ans ε β) :
    (p.bind f).eval answer = (p.eval answer).bind fun a => (f a).eval answer := by
  induction p with
  | ret | fail => rfl
  | ask op next ih => exact ih (answer op)

/-- Every call the program can make satisfies `P`, whatever it is answered. -/
def Only (P : Op → Prop) : Prog Op Ans ε α → Prop
  | .ret _ => True
  | .fail _ => True
  | .ask op next => P op ∧ ∀ x, (next x).Only P

theorem Only.bind {P : Op → Prop} {p : Prog Op Ans ε α} {f : α → Prog Op Ans ε β} (hp : p.Only P)
    (hf : ∀ a, (f a).Only P) : (p.bind f).Only P := by
  induction p with
  | ret a => exact hf a
  | fail e => trivial
  | ask op next ih => exact ⟨hp.1, fun x => ih x (hp.2 x)⟩

theorem Only.attempt {P : Op → Prop} {p : Prog Op Ans ε α} (hp : p.Only P) :
    (p.attempt (δ := δ)).Only P := by
  induction p with
  | ret | fail => trivial
  | ask op next ih => exact ⟨hp.1, fun x => ih x (hp.2 x)⟩

theorem Only.imp {P Q : Op → Prop} {p : Prog Op Ans ε α} (hp : p.Only P) (h : ∀ op, P op → Q op) :
    p.Only Q := by
  induction p with
  | ret | fail => trivial
  | ask op next ih => exact ⟨h op hp.1, fun x => ih x (hp.2 x)⟩

theorem only_true (p : Prog Op Ans ε α) : p.Only fun _ => True := by
  induction p with
  | ret | fail => trivial
  | ask op next ih => exact ⟨trivial, ih⟩

def FailsOnly (Q : ε → Prop) : Prog Op Ans ε α → Prop
  | .ret _ => True
  | .fail e => Q e
  | .ask _ next => ∀ x, (next x).FailsOnly Q

theorem FailsOnly.bind {Q : ε → Prop} {p : Prog Op Ans ε α} {f : α → Prog Op Ans ε β}
    (hp : p.FailsOnly Q) (hf : ∀ a, (f a).FailsOnly Q) : (p.bind f).FailsOnly Q := by
  induction p with
  | ret a => exact hf a
  | fail e => exact hp
  | ask op next ih => exact fun x => ih x (hp x)

theorem failsOnly_attempt {Q : δ → Prop} {p : Prog Op Ans ε α} :
    (p.attempt (δ := δ)).FailsOnly Q := by
  induction p with
  | ret | fail => trivial
  | ask op next ih => exact fun x => ih x

end Prog

/-- An environment: which answers and next states a call may have, and what it may do by itself. -/
structure Env (σ Op : Type) (Ans : Op → Type) where
  serve : (op : Op) → σ → Ans op → σ → Prop
  interfere : σ → σ → Prop

structure Call (σ Op : Type) (Ans : Op → Type) where
  state : σ
  op : Op
  answer : Ans op

namespace Env

variable (E : Env σ Op Ans)

/-- `E.Runs p s tr r s'`: from state `s`, with any interference of the environment before each
call, `p` makes the calls `tr`, ends with `r` and leaves `s'`. -/
inductive Runs : Prog Op Ans ε α → σ → List (Call σ Op Ans) → Except ε α → σ → Prop
  | ret (a : α) (s : σ) : Runs (.ret a) s [] (.ok a) s
  | fail (e : ε) (s : σ) : Runs (.fail e) s [] (.error e) s
  | ask {op : Op} {next : Ans op → Prog Op Ans ε α} {s s₁ s₂ s' : σ} {x : Ans op}
      {tr : List (Call σ Op Ans)} {r : Except ε α} :
      ReflTransGen E.interfere s s₁ → E.serve op s₁ x s₂ → Runs (next x) s₂ tr r s' →
      Runs (.ask op next) s (⟨s₁, op, x⟩ :: tr) r s'

variable {E} {s s' : σ} {tr : List (Call σ Op Ans)}

theorem runs_ret_iff {a : α} {r : Except ε α} :
    E.Runs (.ret a) s tr r s' ↔ tr = [] ∧ r = .ok a ∧ s' = s := by
  constructor
  · intro h
    cases h
    exact ⟨rfl, rfl, rfl⟩
  · rintro ⟨rfl, rfl, rfl⟩
    exact .ret a s'

theorem runs_fail_iff {e : ε} {r : Except ε α} :
    E.Runs (.fail e) s tr r s' ↔ tr = [] ∧ r = .error e ∧ s' = s := by
  constructor
  · intro h
    cases h
    exact ⟨rfl, rfl, rfl⟩
  · rintro ⟨rfl, rfl, rfl⟩
    exact .fail e s'

theorem runs_ask_iff {op : Op} {next : Ans op → Prog Op Ans ε α} {r : Except ε α} :
    E.Runs (.ask op next) s tr r s' ↔ ∃ s₁ x s₂ tr', ReflTransGen E.interfere s s₁ ∧
      E.serve op s₁ x s₂ ∧ E.Runs (next x) s₂ tr' r s' ∧ tr = ⟨s₁, op, x⟩ :: tr' := by
  constructor
  · intro h
    cases h with
    | ask hrely hserve hrest => exact ⟨_, _, _, _, hrely, hserve, hrest, rfl⟩
  · rintro ⟨s₁, x, s₂, tr', hrely, hserve, hrest, rfl⟩
    exact .ask hrely hserve hrest

theorem runs_bind_iff {p : Prog Op Ans ε α} {f : α → Prog Op Ans ε β} {r : Except ε β} :
    E.Runs (p.bind f) s tr r s' ↔
      (∃ e, r = .error e ∧ E.Runs p s tr (.error e) s') ∨
      ∃ a s₁ tr₁ tr₂, E.Runs p s tr₁ (.ok a) s₁ ∧ E.Runs (f a) s₁ tr₂ r s' ∧ tr = tr₁ ++ tr₂ := by
  induction p generalizing s tr with
  | ret a => simp [runs_ret_iff]
  | fail e =>
      simp only [Prog.fail_bind, runs_fail_iff, Except.error.injEq, reduceCtorEq, false_and, and_false,
        exists_false, or_false]
      constructor
      · rintro ⟨rfl, rfl, rfl⟩
        exact ⟨e, rfl, rfl, rfl, rfl⟩
      · rintro ⟨_, rfl, rfl, rfl, rfl⟩
        exact ⟨rfl, rfl, rfl⟩
  | ask op next ih =>
      simp only [Prog.ask_bind, runs_ask_iff, ih]
      constructor
      · rintro ⟨s₁, x, s₂, tr', hrely, hserve, ⟨e, rfl, hp⟩ | ⟨a, s₃, tr₁, tr₂, hp, hf, rfl⟩, rfl⟩
        · exact Or.inl ⟨e, rfl, s₁, x, s₂, tr', hrely, hserve, hp, rfl⟩
        · exact Or.inr ⟨a, s₃, _, tr₂, ⟨s₁, x, s₂, tr₁, hrely, hserve, hp, rfl⟩, hf, rfl⟩
      · rintro (⟨e, rfl, s₁, x, s₂, tr', hrely, hserve, hp, rfl⟩ |
          ⟨a, s₃, _, tr₂, ⟨s₁, x, s₂, tr₁, hrely, hserve, hp, rfl⟩, hf, rfl⟩)
        · exact ⟨s₁, x, s₂, tr', hrely, hserve, Or.inl ⟨e, rfl, hp⟩, rfl⟩
        · exact ⟨s₁, x, s₂, tr₁ ++ tr₂, hrely, hserve, Or.inr ⟨a, s₃, tr₁, tr₂, hp, hf, rfl⟩, rfl⟩

theorem runs_bind_ok_iff {p : Prog Op Ans ε α} {f : α → Prog Op Ans ε β} {b : β} :
    E.Runs (p.bind f) s tr (.ok b) s' ↔
      ∃ a s₁ tr₁ tr₂, E.Runs p s tr₁ (.ok a) s₁ ∧ E.Runs (f a) s₁ tr₂ (.ok b) s' ∧
        tr = tr₁ ++ tr₂ := by
  rw [runs_bind_iff]
  exact or_iff_right (by rintro ⟨_, ⟨⟩, _⟩)

/-- Programs that go on alike towards a result have the same runs to it. -/
theorem runs_bind_ok_congr {p : Prog Op Ans ε α} {f g : α → Prog Op Ans ε β} {b : β}
    (h : ∀ a s tr s', E.Runs (f a) s tr (.ok b) s' ↔ E.Runs (g a) s tr (.ok b) s') :
    E.Runs (p.bind f) s tr (.ok b) s' ↔ E.Runs (p.bind g) s tr (.ok b) s' := by
  simp only [runs_bind_ok_iff, h]

theorem Runs.bind {p : Prog Op Ans ε α} {f : α → Prog Op Ans ε β} {a : α} {s₁ : σ}
    {tr' : List (Call σ Op Ans)} {r : Except ε β} (hp : E.Runs p s tr (.ok a) s₁)
    (hf : E.Runs (f a) s₁ tr' r s') : E.Runs (p.bind f) s (tr ++ tr') r s' :=
  runs_bind_iff.mpr (Or.inr ⟨a, s₁, tr, tr', hp, hf, rfl⟩)

theorem runs_attempt_iff {p : Prog Op Ans ε α} {r : Except δ (Except ε α)} :
    E.Runs (p.attempt (δ := δ)) s tr r s' ↔ ∃ r₀, r = .ok r₀ ∧ E.Runs p s tr r₀ s' := by
  induction p generalizing s tr with
  | ret a =>
      simp only [Prog.attempt, runs_ret_iff]
      constructor
      · rintro ⟨rfl, rfl, rfl⟩
        exact ⟨_, rfl, rfl, rfl, rfl⟩
      · rintro ⟨_, rfl, rfl, rfl, rfl⟩
        exact ⟨rfl, rfl, rfl⟩
  | fail e =>
      simp only [Prog.attempt, runs_ret_iff, runs_fail_iff]
      constructor
      · rintro ⟨rfl, rfl, rfl⟩
        exact ⟨_, rfl, rfl, rfl, rfl⟩
      · rintro ⟨_, rfl, rfl, rfl, rfl⟩
        exact ⟨rfl, rfl, rfl⟩
  | ask op next ih =>
      simp only [Prog.attempt, runs_ask_iff, ih]
      constructor
      · rintro ⟨s₁, x, s₂, tr', hrely, hserve, ⟨r₀, rfl, hp⟩, rfl⟩
        exact ⟨r₀, rfl, s₁, x, s₂, tr', hrely, hserve, hp, rfl⟩
      · rintro ⟨r₀, rfl, s₁, x, s₂, tr', hrely, hserve, hp, rfl⟩
        exact ⟨s₁, x, s₂, tr', hrely, hserve, ⟨r₀, rfl, hp⟩, rfl⟩

theorem Runs.ops_only {P : Op → Prop} {p : Prog Op Ans ε α} {r : Except ε α} (hp : p.Only P)
    (h : E.Runs p s tr r s') : ∀ c ∈ tr, P c.op := by
  induction h with
  | ret | fail => simp
  | ask _ _ _ ih => exact List.forall_mem_cons.mpr ⟨hp.1, ih (hp.2 _)⟩

theorem Runs.of_failsOnly {Q : ε → Prop} {p : Prog Op Ans ε α} {e : ε} (hp : p.FailsOnly Q)
    (h : E.Runs p s tr (.error e) s') : Q e := by
  generalize hr : (Except.error e : Except ε α) = r at h
  induction h with
  | ret => cases hr
  | fail =>
      cases hr
      exact hp
  | ask _ _ _ ih => exact ih (hp _) hr

/-- When no call changes the state, what the environment did by itself is all that changed it. -/
theorem Runs.interfered {p : Prog Op Ans ε α} {r : Except ε α}
    (h : E.Runs p s tr r s') (hkeep : ∀ op s x s', E.serve op s x s' → s' = s) :
    ReflTransGen E.interfere s s' := by
  induction h with
  | ret | fail => exact .refl
  | ask hrely hserve _ ih =>
      obtain rfl := hkeep _ _ _ _ hserve
      exact hrely.trans ih

/-- A run carries over to an environment that serves its calls alike and may interfere as much. -/
theorem Runs.mono {E' : Env σ Op Ans} {P : Op → Prop} {p : Prog Op Ans ε α} {r : Except ε α}
    (hp : p.Only P) (hserve : ∀ op s x s', P op → E.serve op s x s' → E'.serve op s x s')
    (hinterfere : ∀ s s', E.interfere s s' → E'.interfere s s') (h : E.Runs p s tr r s') :
    E'.Runs p s tr r s' := by
  induction h with
  | ret a s => exact .ret a s
  | fail e s => exact .fail e s
  | ask hrely hs _ ih =>
      exact .ask (ReflTransGen.mono hinterfere _ _ hrely) (hserve _ _ _ _ hp.1 hs) (ih (hp.2 _))

/-- A program that is answered whatever it may call, in a state that stays, has a run. -/
theorem exists_run {P : Op → Prop} (hserve : ∀ op, P op → ∃ x, E.serve op s x s)
    {p : Prog Op Ans ε α} (hp : p.Only P) : ∃ tr r, E.Runs p s tr r s := by
  induction p with
  | ret a => exact ⟨[], _, .ret a s⟩
  | fail e => exact ⟨[], _, .fail e s⟩
  | ask op next ih =>
      obtain ⟨x, hx⟩ := hserve op hp.1
      obtain ⟨tr, r, hrest⟩ := ih x (hp.2 x)
      exact ⟨_, r, .ask .refl hx hrest⟩

theorem eq_of_stays {s₁ : σ} (hstay : ∀ s₁, E.interfere s s₁ → s₁ = s)
    (h : ReflTransGen E.interfere s s₁) : s₁ = s := by
  induction h with
  | refl => rfl
  | tail _ hstep ih =>
      rw [ih] at hstep
      exact hstay _ hstep

/-- Where every call is answered alike and nothing changes, a run ends with the program's value. -/
theorem Runs.eval {p : Prog Op Ans ε α} {r : Except ε α} (h : E.Runs p s tr r s')
    (answer : (op : Op) → Ans op) (hstay : ∀ s₁, E.interfere s s₁ → s₁ = s)
    (hserve : ∀ op x s₁, E.serve op s x s₁ → x = answer op ∧ s₁ = s) :
    r = p.eval answer ∧ s' = s := by
  induction h with
  | ret | fail => exact ⟨rfl, rfl⟩
  | @ask _ _ s s₁ _ _ _ _ _ hrely hs _ ih =>
      obtain rfl := eq_of_stays hstay hrely
      obtain ⟨rfl, rfl⟩ := hserve _ _ _ hs
      exact ih hstay hserve

/-! ### Environments that change nothing on their own -/

variable (E) in
def Quiet : Prop := ∀ s s', ¬ E.interfere s s'

theorem Quiet.eq_of_interfere (hE : E.Quiet) {s s₁ : σ} (h : ReflTransGen E.interfere s s₁) :
    s₁ = s := by
  induction h with
  | refl => rfl
  | tail _ hstep => exact absurd hstep (hE _ _)

theorem Quiet.runs_ask_iff (hE : E.Quiet) {op : Op} {next : Ans op → Prog Op Ans ε α}
    {r : Except ε α} : E.Runs (.ask op next) s tr r s' ↔
      ∃ x s₁ tr', E.serve op s x s₁ ∧ E.Runs (next x) s₁ tr' r s' ∧ tr = ⟨s, op, x⟩ :: tr' := by
  rw [Env.runs_ask_iff]
  constructor
  · rintro ⟨s₁, x, s₂, tr', hrely, hserve, hrest, rfl⟩
    obtain rfl := hE.eq_of_interfere hrely
    exact ⟨x, s₂, tr', hserve, hrest, rfl⟩
  · rintro ⟨x, s₁, tr', hserve, hrest, rfl⟩
    exact ⟨s, x, s₁, tr', .refl, hserve, hrest, rfl⟩

theorem Quiet.runs_only (hE : E.Quiet) {P : Op → Prop} {p : Prog Op Ans ε α} {r : Except ε α}
    (hkeep : ∀ op s x s', P op → E.serve op s x s' → s' = s) (hp : p.Only P)
    (h : E.Runs p s tr r s') : s' = s := by
  induction h with
  | ret | fail => rfl
  | ask hrely hserve _ ih =>
      rw [ih (hp.2 _), hkeep _ _ _ _ hp.1 hserve, hE.eq_of_interfere hrely]

end Env
end Interaction
