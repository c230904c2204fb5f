import KernelKit.Error
import KernelKit.Interaction

/-!
# System calls that answer with a result or an `io::Error`

Every call of the model answers with `Except IoError`. `sys` is the idiom
`call.map_err(|source| Error::System { operation, source })?` of the sources: it hands out the
result or ends the function with the named operation and the source error.
-/

namespace KernelKit
open Interaction Relation

/-- How a function of the crate may end other than by returning a value: with an `Err`, by
unwinding, by aborting the process, or, in a recursion the model bounds, by using up the bound. -/
inductive Exit
  | err (error : Error)
  | panicked
  | aborted
  | outOfFuel
  deriving DecidableEq, Repr

abbrev Answer {Op : Type} (Res : Op → Type) (op : Op) : Type := Except IoError (Res op)

variable {Op : Type} {Res : Op → Type} {σ α : Type}

abbrev SysProg (Res : Op → Type) (α : Type) := Prog Op (Answer Res) Exit α

def sys (operation : String) (op : Op) : SysProg Res (Res op) :=
  .ask op fun answer =>
    match answer with
    | .ok value => .ret value
    | .error source => .fail (.err (.system operation source))

def throw {Ans : Op → Type} (error : Error) : Prog Op Ans Exit α := .fail (.err error)

def catchErr {Ans : Op → Type} (p : Prog Op Ans Exit α) : Prog Op Ans Exit (Except Error α) := do
  let result ← p.attempt
  match result with
  | .ok a => pure (.ok a)
  | .error (.err error) => pure (.error error)
  | .error exit => .fail exit

def Succeeded (c : Call σ Op (Answer Res)) : Prop := ∃ value, c.answer = .ok value

variable {E : Env σ Op (Answer Res)} {s s' : σ} {tr : List (Call σ Op (Answer Res))}
  {r : Except Exit α}

theorem runs_sys_bind_iff {operation : String} {op : Op} {f : Res op → SysProg Res α} :
    E.Runs ((sys operation op).bind f) s tr r s' ↔
      ∃ s₁ s₂, ReflTransGen E.interfere s s₁ ∧
        ((∃ source, E.serve op s₁ (.error source) s₂ ∧ tr = [⟨s₁, op, .error source⟩] ∧
            r = .error (.err (.system operation source)) ∧ s' = s₂) ∨
          ∃ value tr', E.serve op s₁ (.ok value) s₂ ∧ tr = ⟨s₁, op, .ok value⟩ :: tr' ∧
            E.Runs (f value) s₂ tr' r s') := by
  unfold sys
  simp only [Prog.ask_bind, Env.runs_ask_iff]
  constructor
  · rintro ⟨s₁, x, s₂, tr', hrely, hserve, hrest, rfl⟩
    refine ⟨s₁, s₂, hrely, ?_⟩
    cases x with
    | error source =>
        obtain ⟨rfl, rfl, rfl⟩ := Env.runs_fail_iff.mp hrest
        exact Or.inl ⟨source, hserve, rfl, rfl, rfl⟩
    | ok value => exact Or.inr ⟨value, tr', hserve, rfl, hrest⟩
  · rintro ⟨s₁, s₂, hrely, ⟨source, hserve, rfl, rfl, rfl⟩ | ⟨value, tr', hserve, rfl, hrest⟩⟩
    · exact ⟨s₁, _, s', [], hrely, hserve, .fail _ _, rfl⟩
    · exact ⟨s₁, _, s₂, tr', hrely, hserve, hrest, rfl⟩

theorem runs_sys_bind_ok_iff {operation : String} {op : Op} {f : Res op → SysProg Res α} {a : α} :
    E.Runs ((sys operation op).bind f) s tr (.ok a) s' ↔
      ∃ s₁ s₂ value tr', ReflTransGen E.interfere s s₁ ∧ E.serve op s₁ (.ok value) s₂ ∧
        tr = ⟨s₁, op, .ok value⟩ :: tr' ∧ E.Runs (f value) s₂ tr' (.ok a) s' := by
  rw [runs_sys_bind_iff]
  constructor
  · rintro ⟨s₁, s₂, hrely, ⟨_, _, _, ⟨⟩, _⟩ | ⟨value, tr', hserve, htr, hrest⟩⟩
    exact ⟨s₁, s₂, value, tr', hrely, hserve, htr, hrest⟩
  · rintro ⟨s₁, s₂, value, tr', hrely, hserve, htr, hrest⟩
    exact ⟨s₁, s₂, hrely, Or.inr ⟨value, tr', hserve, htr, hrest⟩⟩

theorem runs_sys_iff {operation : String} {op : Op} {r : Except Exit (Res op)} :
    E.Runs (sys operation op) s tr r s' ↔
      ∃ s₁, ReflTransGen E.interfere s s₁ ∧
        ((∃ source, E.serve op s₁ (.error source) s' ∧ tr = [⟨s₁, op, .error source⟩] ∧
            r = .error (.err (.system operation source))) ∨
          ∃ value, E.serve op s₁ (.ok value) s' ∧ tr = [⟨s₁, op, .ok value⟩] ∧ r = .ok value) := by
  rw [← Prog.bind_ret (sys operation op), runs_sys_bind_iff]
  simp only [Env.runs_ret_iff]
  constructor
  · rintro ⟨s₁, s₂, hrely, ⟨source, hserve, rfl, rfl, rfl⟩ | ⟨v, _, hserve, rfl, rfl, rfl, rfl⟩⟩
    · exact ⟨s₁, hrely, Or.inl ⟨source, hserve, rfl, rfl⟩⟩
    · exact ⟨s₁, hrely, Or.inr ⟨v, hserve, rfl, rfl⟩⟩
  · rintro ⟨s₁, hrely, ⟨source, hserve, rfl, rfl⟩ | ⟨v, hserve, rfl, rfl⟩⟩
    · exact ⟨s₁, s', hrely, Or.inl ⟨source, hserve, rfl, rfl, rfl⟩⟩
    · exact ⟨s₁, s', hrely, Or.inr ⟨v, [], hserve, rfl, rfl, rfl, rfl⟩⟩

theorem runs_throw_iff {Ans : Op → Type} {E : Env σ Op Ans} {s s' : σ} {tr : List (Call σ Op Ans)}
    {r : Except Exit α} {error : Error} :
    E.Runs (throw error) s tr r s' ↔ tr = [] ∧ r = .error (.err error) ∧ s' = s :=
  Env.runs_fail_iff

theorem sys_only {P : Op → Prop} {operation : String} {op : Op} (h : P op) :
    (sys operation op : SysProg Res (Res op)).Only P := by
  refine ⟨h, fun answer => ?_⟩
  cases answer <;> trivial

theorem runs_call_bind_iff {op : Op} {f : Answer Res op → SysProg Res α} :
    E.Runs ((Prog.call op).bind f) s tr r s' ↔
      ∃ s₁ x s₂ tr', ReflTransGen E.interfere s s₁ ∧ E.serve op s₁ x s₂ ∧
        E.Runs (f x) s₂ tr' r s' ∧ tr = ⟨s₁, op, x⟩ :: tr' :=
  Env.runs_ask_iff

theorem catchErr_only {Ans : Op → Type} {P : Op → Prop} {p : Prog Op Ans Exit α} (hp : p.Only P) :
    (catchErr p).Only P := by
  refine hp.attempt.bind fun result => ?_
  cases result with
  | ok a => trivial
  | error exit => cases exit <;> trivial

/-- A caught program runs as the program itself, and ends with its result or its `Err` as a value, or
with its panic. -/
theorem runs_catchErr {Ans : Op → Type} {E : Env σ Op Ans} {s s' : σ} {tr : List (Call σ Op Ans)}
    {p : Prog Op Ans Exit α} {r : Except Exit (Except Error α)} (h : E.Runs (catchErr p) s tr r s') :
    (∃ a, r = .ok (.ok a) ∧ E.Runs p s tr (.ok a) s') ∨
      (∃ error, r = .ok (.error error) ∧ E.Runs p s tr (.error (.err error)) s') ∨
      ∃ exit, r = .error exit ∧ (∀ error, exit ≠ .err error) ∧ E.Runs p s tr (.error exit) s' := by
  rcases Env.runs_bind_iff.mp h with ⟨_, rfl, hrun⟩ | ⟨result, s₁, t₁, t₂, hrun, hrest, rfl⟩
  · obtain ⟨_, ⟨⟩, _⟩ := Env.runs_attempt_iff.mp hrun
  obtain ⟨_, hresult, hrun⟩ := Env.runs_attempt_iff.mp hrun
  cases hresult
  cases result with
  | ok a =>
      obtain ⟨rfl, rfl, rfl⟩ := Env.runs_ret_iff.mp hrest
      rw [List.append_nil]
      exact .inl ⟨a, rfl, hrun⟩
  | error exit =>
      cases exit with
      | err error =>
          obtain ⟨rfl, rfl, rfl⟩ := Env.runs_ret_iff.mp hrest
          rw [List.append_nil]
          exact .inr (.inl ⟨error, rfl, hrun⟩)
      | panicked | aborted | outOfFuel =>
          obtain ⟨rfl, rfl, rfl⟩ := Env.runs_fail_iff.mp hrest
          rw [List.append_nil]
          exact .inr (.inr ⟨_, rfl, by rintro error ⟨⟩, hrun⟩)

theorem runs_catchErr_ok {Ans : Op → Type} {E : Env σ Op Ans} {s s' : σ} {tr : List (Call σ Op Ans)}
    {p : Prog Op Ans Exit α} {a : α} (h : E.Runs p s tr (.ok a) s') :
    E.Runs (catchErr p) s tr (.ok (.ok a)) s' := by
  have hattempt := (Env.runs_attempt_iff (δ := Exit)).mpr ⟨_, rfl, h⟩
  exact Env.runs_bind_iff.mpr (.inr ⟨_, _, _, _, hattempt, .ret _ _, (List.append_nil tr).symm⟩)

theorem runs_catchErr_error {Ans : Op → Type} {E : Env σ Op Ans} {s s' : σ} {tr : List (Call σ Op Ans)}
    {p : Prog Op Ans Exit α} {error : Error} (h : E.Runs p s tr (.error (.err error)) s') :
    E.Runs (catchErr p) s tr (.ok (.error error)) s' := by
  have hattempt := (Env.runs_attempt_iff (δ := Exit)).mpr ⟨_, rfl, h⟩
  exact Env.runs_bind_iff.mpr (.inr ⟨_, _, _, _, hattempt, .ret _ _, (List.append_nil tr).symm⟩)

end KernelKit
