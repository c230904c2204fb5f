import KernelKit.FileSystem
import Mathlib.Tactic.Tauto

/-!
# Detecting a file that changes under a mapping

`validateFileIdentity` is the re-stat both mapping paths end with. Its specification lemma says what
a successful validation has observed.
-/

namespace KernelKit
open Interaction Relation

structure FileIdentity where
  len : ℕ
  dev : ℕ
  ino : ℕ
  deriving DecidableEq, Repr

def FileIdentity.fromMetadata (metadata : Metadata) : FileIdentity :=
  ⟨metadata.len, metadata.dev, metadata.ino⟩

def sameInode (expected current : FileIdentity) : Bool :=
  expected.dev = current.dev && expected.ino = current.ino

def validateFileIdentity (file : File) (expected : FileIdentity) (expectedLen : ℕ)
    (changedMsg : String) : FileProg Unit := do
  let currentMetadata ← sys "metadata(revalidate)" (FileOp.metadata file)
  let current := FileIdentity.fromMetadata currentMetadata
  if current.len ≠ expectedLen ∨ current.len ≠ expected.len ∨ ¬ sameInode expected current then
    throw (.system "mmap(revalidate)" (.custom .invalidData changedMsg))
  else
    pure ()

def FileIdentity.Confirmed (expected : FileIdentity) (expectedLen : ℕ) (md : Metadata) : Prop :=
  md.len = expectedLen ∧ md.len = expected.len ∧ md.dev = expected.dev ∧ md.ino = expected.ino

theorem not_confirmed_iff {expected : FileIdentity} {expectedLen : ℕ} {md : Metadata} :
    ¬ expected.Confirmed expectedLen md ↔
      (FileIdentity.fromMetadata md).len ≠ expectedLen ∨
        (FileIdentity.fromMetadata md).len ≠ expected.len ∨
        ¬ sameInode expected (.fromMetadata md) := by
  simp only [FileIdentity.Confirmed, FileIdentity.fromMetadata, sameInode, Bool.and_eq_true,
    decide_eq_true_eq, eq_comm (a := expected.dev), eq_comm (a := expected.ino)]
  tauto

variable {E : Env World FileOp (Answer FileOp.Res)} {s s' : World} {tr : List FileCall}

/-- Validation makes one call, the re-stat, and succeeds exactly when that confirms the file. -/
theorem runs_validate {file : File} {expected : FileIdentity} {expectedLen : ℕ} {msg : String}
    {r : Except Exit Unit}
    (h : E.Runs (validateFileIdentity file expected expectedLen msg) s tr r s') :
    ∃ s₁ answer, ReflTransGen E.interfere s s₁ ∧ E.serve (.metadata file) s₁ answer s' ∧
      tr = [⟨s₁, .metadata file, answer⟩] ∧
      ((∃ error, r = .error (.err error) ∧
          ∀ md, answer = .ok md → ¬ expected.Confirmed expectedLen md) ∨
        r = .ok () ∧ ∃ md, answer = .ok md ∧ expected.Confirmed expectedLen md) := by
  obtain ⟨s₁, s₂, hrely, ⟨source, hserve, rfl, rfl, rfl⟩ | ⟨md, tr', hserve, rfl, hrest⟩⟩ :=
    runs_sys_bind_iff.mp h
  · exact ⟨s₁, _, hrely, hserve, rfl, Or.inl ⟨_, rfl, by rintro md ⟨⟩⟩⟩
  · dsimp only at hrest
    split_ifs at hrest with hc
    · obtain ⟨rfl, rfl, rfl⟩ := runs_throw_iff.mp hrest
      refine ⟨s₁, _, hrely, hserve, rfl, Or.inl ⟨_, rfl, ?_⟩⟩
      rintro md' ⟨⟩
      exact not_confirmed_iff.mpr hc
    · obtain ⟨rfl, rfl, rfl⟩ := Env.runs_ret_iff.mp hrest
      refine ⟨s₁, _, hrely, hserve, rfl, Or.inr ⟨rfl, md, rfl, ?_⟩⟩
      by_contra hn
      exact hc (not_confirmed_iff.mp hn)

theorem runs_validate_of_confirmed {file : File} {expected : FileIdentity} {expectedLen : ℕ}
    {msg : String} {md : Metadata} (hserve : E.serve (.metadata file) s (.ok md) s')
    (hconf : expected.Confirmed expectedLen md) :
    E.Runs (validateFileIdentity file expected expectedLen msg) s [⟨s, .metadata file, .ok md⟩]
      (.ok ()) s' := by
  refine .ask .refl hserve ?_
  dsimp only [Prog.ret_bind]
  rw [if_neg fun hchanged => not_confirmed_iff.mpr hchanged hconf]
  exact .ret () s'

end KernelKit
