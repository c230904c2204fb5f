import KernelKit.CorpusOrder

/-!
# File systems of any sizes whose calls succeed

`sizedEnv` answers every call with success. It holds a tree nothing changes, and reports as the sizes
of the files in it any numbers a `u64` can hold, whether or not an `off_t` could.
-/

namespace KernelKit
open Interaction Relation NamedTree

def World.answersSized (size : Ino → UInt64) (w : World) : (op : FileOp) → op.Res → Prop
  | .metadata file, md =>
    md.dev = w.dev file.ino ∧ md.ino = file.ino ∧ md.len = (size file.ino).toNat
  | .fileLen file, len => len = (size file.ino).toNat
  | .mmap file len _, m => m.ino = file.ino ∧ m.len = len
  | op, value => w.answers op value ∧ w.enumerates op value

/-- The file system in which nothing below `base` changes and every call succeeds. -/
def sizedEnv (base : Path) (size : Ino → UInt64) : Env World FileOp (Answer FileOp.Res) where
  serve op w answer w' := w' = w ∧ ∃ value, answer = .ok value ∧ w.answersSized size op value
  interfere := Undisturbed base

variable {base : Path} {size : Ino → UInt64} {w w₁ w₂ : World} {tr : List FileCall}

theorem serve_sized (op : FileOp) (value : op.Res) (h : w.answersSized size op value) :
    (sizedEnv base size).serve op w (.ok value) w :=
  ⟨rfl, value, rfl, h⟩

theorem runs_sys_bind_sized {α : Type} {operation : String} {op : FileOp} {f : op.Res → FileProg α}
    {r : Except Exit α} (h : (sizedEnv base size).Runs ((sys operation op).bind f) w₁ tr r w₂) :
    ∃ w₃ value tr', ReflTransGen (Undisturbed base) w₁ w₃ ∧ w₃.answersSized size op value ∧
      (sizedEnv base size).Runs (f value) w₃ tr' r w₂ ∧ tr = ⟨w₃, op, .ok value⟩ :: tr' := by
  obtain ⟨w₃, _, hrely, ⟨_, ⟨rfl, _, ⟨⟩, _⟩, _⟩ | ⟨value, tr', ⟨rfl, _, hvalue, hans⟩, rfl, hrest⟩⟩ :=
    runs_sys_bind_iff.mp h
  cases hvalue
  exact ⟨_, value, tr', hrely, hans, hrest, rfl⟩

theorem succeeded_sized {α : Type} {p : FileProg α} {r : Except Exit α}
    (h : (sizedEnv base size).Runs p w₁ tr r w₂) : ∀ c ∈ tr, Succeeded c := by
  induction h with
  | ret | fail => exact fun c hc => absurd hc List.not_mem_nil
  | ask _ hserve _ ih =>
      obtain ⟨_, value, rfl, _⟩ := hserve
      exact List.forall_mem_cons.mpr ⟨⟨value, rfl⟩, ih⟩

theorem runs_sized_interfere {α : Type} {p : FileProg α} {r : Except Exit α}
    (h : (sizedEnv base size).Runs p w₁ tr r w₂) : ReflTransGen (Undisturbed base) w₁ w₂ :=
  h.interfered fun _ _ _ _ hserve => hserve.1

def FileOp.Unsized : FileOp → Prop
  | .metadata _ | .fileLen _ | .mmap _ _ _ => False
  | _ => True

theorem runs_of_unsized {α : Type} {p : FileProg α} {r : Except Exit α} (hp : p.Only FileOp.Unsized)
    (h : (sizedEnv base size).Runs p w₁ tr r w₂) : (treeEnv base).Runs p w₁ tr r w₂ := by
  refine Env.Runs.mono (E := sizedEnv base size) hp (fun op s x s' hop hserve => ?_) (fun _ _ => id) h
  obtain ⟨rfl, value, rfl, hans⟩ := hserve
  refine ⟨rfl, ?_⟩
  rintro _ ⟨⟩
  cases op with
  | openFile | madvise | readDir | getdents | entryType => exact hans
  | metadata | fileLen | mmap => cases hop

theorem collectFiles_unsized (fuel : ℕ) (dir : Path) (out : List Path) :
    (collectFiles fuel dir out).Only FileOp.Unsized :=
  ((collect_only fuel).1 dir out).imp fun op hop => by
    cases op <;> trivial

theorem servesWalk_sized : ServesWalk (sizedEnv base size) w := by
  intro op value hop hans henum
  refine serve_sized op value ?_
  cases op with
  | readDir | getdents | entryType => exact ⟨hans, henum⟩
  | openFile | metadata | fileLen | mmap | madvise => cases hop

end KernelKit
