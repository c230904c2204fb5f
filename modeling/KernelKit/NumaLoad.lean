import KernelKit.Numa
import KernelKit.ThreadPool

/-!
# Loading libnuma once

`load` keeps its result in a cell that is written once, under a lock that only the threads that found
the cell empty take. Here the cell, the lock and the attempts are calls, and any number of threads
run `load` with their calls interleaved in any order. A call of `load` is a thread of its own, so
that calls a thread makes one after the other are among the interleavings. An attempt may end any way.
-/

namespace KernelKit.Numa
open Interaction

/-- The steps of `load` on `LIBRARY` and `INIT_LOCK`, and `try_load`. -/
inductive LoadOp
  | get
  | lock
  | tryLoad
  | set (value : Option SharedLibrary)
  | unlock

def LoadOp.Ans : LoadOp → Type
  | .get => Option (Option SharedLibrary)
  | .lock => Unit
  | .tryLoad => Except Error (Option SharedLibrary)
  | .set _ => Except (Option SharedLibrary) Unit
  | .unlock => Unit

abbrev LoadProg := Prog LoadOp LoadOp.Ans Error (Option SharedLibrary)

def notInitialized : Error :=
  .system "numa library load" (.custom .other "OnceLock initialization failed unexpectedly")

/-- The part of `load` that runs while the guard lives. -/
def loadLocked : LoadProg := do
  match ← Prog.call LoadOp.get with
  | some value => pure value
  | none =>
    match ← Prog.call LoadOp.tryLoad with
    | .error error => .fail error
    | .ok value =>
      let _ ← Prog.call (LoadOp.set value)
      match ← Prog.call LoadOp.get with
      | some l => pure l
      | none => .fail notInitialized

def withGuard (body : LoadProg) : LoadProg := do
  let () ← Prog.call LoadOp.lock
  let result ← body.attempt
  let () ← Prog.call LoadOp.unlock
  match result with
  | .ok value => pure value
  | .error error => .fail error

def load : LoadProg := do
  match ← Prog.call LoadOp.get with
  | some value => pure value
  | none => withGuard loadLocked

structure LoadState (ι : Type) where
  cell : Option (Option SharedLibrary)
  holder : Option ι

def loadServe {ι : Type} (i : ι) : (op : LoadOp) → LoadState ι → op.Ans → LoadState ι → Prop
  | .get, s, x, s' => x = s.cell ∧ s' = s
  | .lock, s, _, s' => s.holder = none ∧ s' = { s with holder := some i }
  | .tryLoad, s, _, s' => s' = s
  | .set value, s, x, s' =>
    (s.cell = none ∧ x = .ok () ∧ s' = { s with cell := some value }) ∨
      (s.cell.isSome ∧ x = .error value ∧ s' = s)
  | .unlock, s, _, s' => s' = { s with holder := none }

section Serve

variable {ι : Type} (i : ι) (s : LoadState ι)

theorem serve_get : loadServe i .get s s.cell s := ⟨rfl, rfl⟩

theorem serve_lock (hfree : s.holder = none) :
    loadServe i .lock s () { s with holder := some i } := ⟨hfree, rfl⟩

theorem serve_tryLoad (x : Except Error (Option SharedLibrary)) : loadServe i .tryLoad s x s := rfl

theorem serve_set (value : Option SharedLibrary) (hempty : s.cell = none) :
    loadServe i (.set value) s (.ok ()) { s with cell := some value } := Or.inl ⟨hempty, rfl, rfl⟩

theorem serve_unlock : loadServe i .unlock s () { s with holder := none } := rfl

end Serve

abbrev LoadPool (ι : Type) := Pool ι (LoadState ι) LoadOp LoadOp.Ans Error (Option SharedLibrary)

abbrev LoadEvent (ι : Type) := Event ι (LoadState ι) LoadOp LoadOp.Ans

def loadStart (ι : Type) : LoadPool ι := ⟨⟨none, none⟩, fun _ => load⟩

variable {ι : Type}

def wrote : LoadEvent ι → Bool
  | ⟨_, _, .set _, .ok _⟩ => true
  | _ => false

/-- An attempt found libnuma, or found that it is not there. -/
def settled : LoadEvent ι → Bool
  | ⟨_, _, .tryLoad, .ok _⟩ => true
  | _ => false

def readsEmpty : LoadEvent ι → Bool
  | ⟨_, _, .get, none⟩ => true
  | _ => false

def Attempt (i : ι) (result : Except Error (Option SharedLibrary)) : LoadEvent ι → Prop
  | ⟨j, _, .tryLoad, x⟩ => j = i ∧ x = result
  | _ => False

/-- Attempts and writes are made by the holder of the lock and find the cell empty. -/
def Guarded : LoadEvent ι → Prop
  | ⟨i, s, .tryLoad, _⟩ => s.holder = some i ∧ s.cell = none
  | ⟨i, s, .set _, x⟩ => s.holder = some i ∧ s.cell = none ∧ x = .ok ()
  | _ => True

/-! ### The points of `load` -/

inductive Point
  | start
  | locking
  | checking
  | trying
  | setting (value : Option SharedLibrary)
  | reading
  | unlocking (result : Except Error (Option SharedLibrary))
  | done (result : Except Error (Option SharedLibrary))

namespace Point

def ended : Except Error (Option SharedLibrary) → LoadProg
  | .ok value => .ret value
  | .error error => .fail error

def release (result : Except Error (Option SharedLibrary)) : LoadProg :=
  .ask .unlock fun _ => ended result

def reread : LoadProg :=
  .ask .get fun
    | some value => release (.ok value)
    | none => release (.error notInitialized)

def attempted : Except Error (Option SharedLibrary) → LoadProg
  | .ok value => .ask (.set value) fun _ => reread
  | .error error => release (.error error)

def check : LoadProg :=
  .ask .get fun
    | some value => release (.ok value)
    | none => .ask .tryLoad attempted

/-- What `load` still does from the point on. -/
def code : Point → LoadProg
  | start => load
  | locking => .ask .lock fun _ => check
  | checking => check
  | trying => .ask .tryLoad attempted
  | setting value => .ask (.set value) fun _ => reread
  | reading => reread
  | unlocking result => release result
  | done result => ended result

end Point

theorem load_eq : load = .ask .get fun
    | some value => .ret value
    | none => Point.code .locking := by
  unfold load withGuard loadLocked
  refine congrArg (Prog.ask LoadOp.get) (funext fun x => ?_)
  cases x with
  | some value => rfl
  | none =>
    refine congrArg (Prog.ask LoadOp.lock) (funext fun _ => ?_)
    refine congrArg (Prog.ask LoadOp.get) (funext fun x => ?_)
    cases x with
    | some value => rfl
    | none =>
      refine congrArg (Prog.ask LoadOp.tryLoad) (funext fun x => ?_)
      cases x with
      | error error => rfl
      | ok value =>
        refine congrArg (Prog.ask (LoadOp.set value)) (funext fun _ => ?_)
        refine congrArg (Prog.ask LoadOp.get) (funext fun x => ?_)
        cases x <;> rfl

inductive Advance : Point → (op : LoadOp) → op.Ans → Point → Prop
  | cached (value) : Advance .start .get (some value) (.done (.ok value))
  | empty : Advance .start .get none .locking
  | locked : Advance .locking .lock () .checking
  | found (value) : Advance .checking .get (some value) (.unlocking (.ok value))
  | missing : Advance .checking .get none .trying
  | failed (error) : Advance .trying .tryLoad (.error error) (.unlocking (.error error))
  | loaded (value) : Advance .trying .tryLoad (.ok value) (.setting value)
  | set (value x) : Advance (.setting value) (.set value) x .reading
  | reread (value) : Advance .reading .get (some value) (.unlocking (.ok value))
  | lost : Advance .reading .get none (.unlocking (.error notInitialized))
  | unlocked (result) : Advance (.unlocking result) .unlock () (.done result)

theorem advance_of_code {pt : Point} {op : LoadOp} {next : op.Ans → LoadProg} {x : op.Ans}
    (h : pt.code = .ask op next) : ∃ pt', Advance pt op x pt' ∧ next x = pt'.code := by
  cases pt with
  | start =>
    rw [Point.code, load_eq] at h
    cases h
    cases x with
    | none => exact ⟨_, .empty, rfl⟩
    | some value => exact ⟨_, .cached value, rfl⟩
  | locking =>
    cases h
    exact ⟨_, .locked, rfl⟩
  | checking =>
    cases h
    cases x with
    | none => exact ⟨_, .missing, rfl⟩
    | some value => exact ⟨_, .found value, rfl⟩
  | trying =>
    cases h
    cases x with
    | error error => exact ⟨_, .failed error, rfl⟩
    | ok value => exact ⟨_, .loaded value, rfl⟩
  | setting value =>
    cases h
    exact ⟨_, .set value x, rfl⟩
  | reading =>
    cases h
    cases x with
    | none => exact ⟨_, .lost, rfl⟩
    | some value => exact ⟨_, .reread value, rfl⟩
  | unlocking result =>
    cases h
    exact ⟨_, .unlocked result, rfl⟩
  | done result => cases result <;> cases h

theorem Point.eq_done_of_code {pt : Point} {result : Except Error (Option SharedLibrary)}
    (h : pt.code = ended result) : pt = .done result := by
  cases pt with
  | start =>
    rw [code, load_eq] at h
    cases result <;> cases h
  | locking | checking | trying | setting | reading | unlocking => cases result <;> cases h
  | done result' => cases result <;> cases result' <;> cases h <;> rfl

end KernelKit.Numa
