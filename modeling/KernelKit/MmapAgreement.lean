import KernelKit.MmapFile

/-!
# The checked open and the plain one

`openReadWithSize` refuses a file before it maps it, and `openRead` afterwards. Whatever happens to the
file in between, a mapping of the expected length comes out of both by the same calls.
-/

namespace KernelKit
open Interaction Relation

variable {E : Env World FileOp (Answer FileOp.Res)} {w w' : World} {tr : List FileCall} {m : Mmap}

theorem runs_validate_advise_ok {file : File} {expected : FileIdentity} {expectedLen : ℕ} {m' : Mmap}
    {msg operation : String} {flag : Madv}
    (h : E.Runs (do
      validateFileIdentity file expected expectedLen msg
      adviseMapping m' operation flag
      pure m') w tr (.ok m) w') : m' = m ∧ expected.len = expectedLen := by
  obtain ⟨_, w₁, t₁, t₂, hval, hrest, rfl⟩ := Env.runs_bind_ok_iff.mp h
  obtain ⟨w₂, answer, _, _, _, ⟨_, ⟨⟩, _⟩ | ⟨_, md, _, hlen, hlen', _⟩⟩ := runs_validate hval
  obtain ⟨_, w₃, t₃, t₄, _, hend, rfl⟩ := Env.runs_bind_ok_iff.mp hrest
  obtain ⟨-, hm, -⟩ := Env.runs_ret_iff.mp hend
  exact ⟨(Except.ok.inj hm).symm, hlen'.symm.trans hlen⟩

/-- From a mapping on the two go on alike, as far as they hand out one of the expected length. -/
theorem runs_mapped_iff {file : File} {md : Metadata} (hsize : m.len < 2 ^ 64) (m' : Mmap) :
    E.Runs (do
      validateFileIdentity file (.fromMetadata md) m.len changedDuringOpen
      adviseMapping m' "madvise(SEQUENTIAL)" .sequential
      pure m') w tr (.ok m) w' ↔
    E.Runs (if ¬ m'.len < 2 ^ 64 then
        throw (.system "open_with_advice" (.custom .other "mapped region length does not fit in u64"))
      else do
        validateFileIdentity file (.fromMetadata md) m'.len changedDuringOpen
        adviseMapping m' "madvise(SEQUENTIAL)" .sequential
        pure m') w tr (.ok m) w' := by
  constructor
  · intro h
    obtain ⟨rfl, -⟩ := runs_validate_advise_ok h
    rwa [if_neg (not_not.mpr hsize)]
  · intro h
    split_ifs at h
    · obtain ⟨rfl, -⟩ := runs_validate_advise_ok h
      exact h
    · obtain ⟨-, hok, -⟩ := runs_throw_iff.mp h
      cases hok

/-- In any environment, a mapping of the expected size is handed out by `openReadWithSize` in exactly the
runs in which `openRead` hands it out. -/
theorem openReadWithSize_agrees (width : Width) (E : Env World FileOp (Answer FileOp.Res)) (path : Path)
    (expectedSize : ℕ) (hsize : expectedSize < 2 ^ 64) (w w' : World) (tr : List FileCall) (m : Mmap)
    (hlen : m.len = expectedSize) :
    E.Runs (openReadWithSize width path expectedSize) w tr (.ok m) w' ↔
      E.Runs (openRead width path) w tr (.ok m) w' := by
  subst hlen
  refine Env.runs_bind_ok_congr fun file w tr w' => Env.runs_bind_ok_congr fun md w tr w' => ?_
  dsimp only
  split_ifs with hmd
  · refine iff_of_false (fun h => ?_) fun h => ?_
    · obtain ⟨-, hok, -⟩ := runs_throw_iff.mp h
      cases hok
    · obtain ⟨m', w₁, t₁, t₂, _, hrest, rfl⟩ := Env.runs_bind_ok_iff.mp h
      obtain ⟨-, hconfirmed⟩ := runs_validate_advise_ok ((runs_mapped_iff hsize m').mpr hrest)
      exact hmd hconfirmed
  · exact Env.runs_bind_ok_congr fun m' _ _ _ => runs_mapped_iff hsize m'

theorem openReadWithSize_agrees_three : ∃ tr,
    (fileEnv Resizes).Runs (openReadWithSize .w64 [[97]] 3) (singleFile [97] ⟨[1, 2, 3], by decide⟩) tr
      (.ok ⟨1, [1, 2, 3]⟩) (singleFile [97] ⟨[1, 2, 3], by decide⟩) := by
  have hn : (singleFile [97] ⟨[1, 2, 3], by decide⟩).node 1 = some (.file ⟨[1, 2, 3], by decide⟩) := rfl
  have hopen : ∃ tr, (fileEnv Resizes).Runs (openRead .w64 [[97]])
      (singleFile [97] ⟨[1, 2, 3], by decide⟩) tr (.ok ⟨1, [1, 2, 3]⟩)
      (singleFile [97] ⟨[1, 2, 3], by decide⟩) :=
    exists_openWithAdvice_quiet .sequential rfl hn (by decide)
  obtain ⟨tr, h⟩ := hopen
  exact ⟨tr, (openReadWithSize_agrees .w64 _ _ 3 (by decide) _ _ _ _ rfl).mpr h⟩

end KernelKit
