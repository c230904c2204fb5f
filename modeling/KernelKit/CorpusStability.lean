import KernelKit.Corpus
import Mathlib.Data.List.Chain

/-!
# Recorded sizes against mapped lengths

The limits of `openWithLimits` are enforced on the first stat of each file, and the re-stat after the
mapping is compared with that stat. memmap2's own query is compared with neither, so the recorded
size is the mapped length exactly in the schedules in which every query sees what the stat before
it saw.
-/

namespace KernelKit
open Interaction Relation

variable {width : Width} {interfere : World → World → Prop} {w w' : World} {tr : List FileCall}

theorem runs_adviseSequential_ok {m : Mmap} {path : Path}
    (h : (fileEnv interfere).Runs (adviseSequential m path) w tr (.ok ()) w') :
    ∀ c ∈ tr, ∃ m' advice, c.op = .madvise m' advice := by
  unfold adviseSequential at h
  split_ifs at h
  · obtain ⟨rfl, _, _⟩ := Env.runs_ret_iff.mp h
    simp
  · obtain ⟨w₁, x, w₂, tr₁, _, _, h₁, rfl⟩ := runs_call_bind_iff.mp h
    cases x with
    | error source =>
        obtain ⟨_, ⟨⟩, _⟩ := runs_throw_iff.mp h₁
    | ok _ =>
        obtain ⟨w₃, y, w₄, tr₂, _, _, h₂, rfl⟩ := runs_call_bind_iff.mp h₁
        obtain ⟨rfl, _, _⟩ := Env.runs_ret_iff.mp h₂
        simp

theorem runs_mapFile_ok {maxFile maxTotal total total' : ℕ} {path : Path} {region : MmapRegion}
    (h : (fileEnv interfere).Runs (mapFile width maxFile maxTotal path total) w tr
      (.ok (total', region)) w') :
    ∃ file md md' ta w₁ w₂ w₃ w₄ w₅,
      tr = ⟨w₁, .openFile path, .ok file⟩ :: ⟨w₂, .metadata file, .ok md⟩ ::
        Mapped.calls file true region.mmap md' w₃ w₄ w₅ ++ ta ∧
      ReflTransGen interfere w w₁ ∧ w₁.answers (.openFile path) file ∧
      ReflTransGen interfere w₁ w₂ ∧ w₂.LenOf file.ino md.len ∧
      Mapped interfere file true region.mmap md' w₂ w₃ w₄ w₅ ∧
      md'.len = md.len ∧ (∀ c ∈ ta, ∃ m' advice, c.op = .madvise m' advice) ∧
      region.path = path ∧ region.size = md.len ∧ md.len ≤ maxFile ∧
      total' = saturatingAdd u64Max total md.len ∧ total' ≤ maxTotal := by
  obtain ⟨w₁, w₁', file, tr₁, hrely, ⟨rfl, hopen⟩, rfl, h₁⟩ := runs_sys_bind_ok_iff.mp h
  obtain ⟨w₂, w₂', md, tr₂, hrely', ⟨rfl, hmd⟩, rfl, h₂⟩ := runs_sys_bind_ok_iff.mp h₁
  dsimp only at h₂
  split_ifs at h₂ with hmax htotal
  · obtain ⟨_, ⟨⟩, _⟩ := runs_throw_iff.mp h₂
  · obtain ⟨_, ⟨⟩, _⟩ := runs_throw_iff.mp h₂
  obtain ⟨m, md', w₃, w₄, w₅, tr₃, hmapped, hconf, h₃, rfl⟩ := runs_map_validate_ok h₂
  obtain ⟨_, w₆, ta, tr₄, hadv, h₄, rfl⟩ := Env.runs_bind_ok_iff.mp h₃
  obtain ⟨rfl, hret, _⟩ := Env.runs_ret_iff.mp h₄
  cases hret
  rw [List.append_nil]
  exact ⟨file, md, md', ta, _, _, w₃, w₄, w₅, rfl, hrely, hopen _ rfl, hrely', (hmd _ rfl).2.2,
    hmapped, hconf.1, runs_adviseSequential_ok hadv, rfl, rfl, not_lt.mp hmax, rfl,
    not_lt.mp htotal⟩

/-! ### The length observations of a whole run -/

/-- A look at a file's length, with the length it has: the crate's own stat, or memmap2's query. -/
inductive LengthLook
  | stat (size : Option ℕ)
  | query (size : Option ℕ)
  deriving DecidableEq, Repr

def lengthLook (c : FileCall) : Option LengthLook :=
  match c.op with
  | .metadata file => some (.stat (c.state.sizeOf file.ino))
  | .fileLen file => some (.query (c.state.sizeOf file.ino))
  | _ => none

def lengthLooks (tr : List FileCall) : List LengthLook := tr.filterMap lengthLook

def LengthLook.Agree : LengthLook → LengthLook → Prop
  | .stat size, .query size' => size' = size
  | _, _ => True

/-- No writer changes a file's length between its first stat and memmap2's query without undoing it. -/
def QueriesAgree (tr : List FileCall) : Prop := (lengthLooks tr).IsChain LengthLook.Agree

@[simp] theorem lengthLooks_append {tr tr' : List FileCall} :
    lengthLooks (tr ++ tr') = lengthLooks tr ++ lengthLooks tr' :=
  List.filterMap_append

theorem lengthLooks_eq_nil {tr : List FileCall} (h : ∀ c ∈ tr, c.op.lengthLook = none) :
    lengthLooks tr = [] := by
  apply List.filterMap_eq_nil_iff.mpr
  intro c hc
  have hnone := h c hc
  unfold lengthLook
  split
  · next f hop =>
      rw [hop] at hnone
      cases hnone
  · next f hop =>
      rw [hop] at hnone
      cases hnone
  · rfl

def MmapRegion.looks (region : MmapRegion) : List LengthLook :=
  [.stat (some region.size), .query (some region.mmap.len), .stat (some region.size)]

theorem lengthLooks_mapFile {maxFile maxTotal total total' : ℕ} {path : Path} {region : MmapRegion}
    (h : (fileEnv Resizes).Runs (mapFile width maxFile maxTotal path total) w tr
      (.ok (total', region)) w') : lengthLooks tr = region.looks := by
  obtain ⟨file, md, md', ta, w₁, w₂, w₃, w₄, w₅, rfl, _, _, _, hstat, hmapped, hlen, hta, _, hsize,
    _⟩ := runs_mapFile_ok h
  have hnil : lengthLooks ta = [] := by
    apply lengthLooks_eq_nil
    intro c hc
    obtain ⟨m', advice, hop⟩ := hta c hc
    rw [hop]
    rfl
  obtain ⟨hsome, hquery, hrestat⟩ := hmapped.sizes
  calc lengthLooks _ = .stat (w₂.sizeOf file.ino) :: .query (w₃.sizeOf file.ino) ::
        .stat (w₅.sizeOf file.ino) :: lengthLooks ta := rfl
    _ = _ := by rw [hnil, hstat.sizeOf_eq hsome, hquery, hrestat, hlen, MmapRegion.looks, hsize]

/-- Invariant of the mapping loop: new regions are appended, each under the file limit, together
with the running total under the total limit, and the looks are those of the new regions. -/
theorem runs_mapFiles_ok {maxFile maxTotal total : ℕ} {paths : List Path}
    {mappings out : List MmapRegion}
    (h : (fileEnv Resizes).Runs (mapFiles width maxFile maxTotal paths total mappings) w tr
      (.ok out) w') :
    ∃ new, out = mappings ++ new ∧ new.map MmapRegion.path = paths ∧
      (∀ region ∈ new, region.size ≤ maxFile) ∧
      (maxTotal < u64Max → total ≤ maxTotal → total + (new.map MmapRegion.size).sum ≤ maxTotal) ∧
      lengthLooks tr = new.flatMap MmapRegion.looks := by
  induction paths generalizing total mappings w tr with
  | nil =>
      obtain ⟨rfl, hret, _⟩ := Env.runs_ret_iff.mp h
      cases hret
      exact ⟨[], by simp, rfl, by simp, fun _ ht => by simpa using ht, rfl⟩
  | cons path paths ih =>
      obtain ⟨⟨total', region⟩, w₁, tr₁, tr₂, hone, hrest, rfl⟩ := Env.runs_bind_ok_iff.mp h
      obtain ⟨new, rfl, hpaths, hsizes, hsum, hlooks⟩ := ih hrest
      obtain ⟨_, md, _, _, _, _, _, _, _, _, _, _, _, _, _, _, _, hpath, hsize, hmax, ht', hle⟩ :=
        runs_mapFile_ok hone
      refine ⟨region :: new, by simp, by simp [hpath, hpaths], ?_, ?_, ?_⟩
      · simp only [List.forall_mem_cons, hsize]
        exact ⟨hmax, hsizes⟩
      · -- below `u64::MAX` the accumulator cannot have saturated
        intro hlt _
        have hnew := hsum hlt hle
        simp only [saturatingAdd] at ht'
        simp only [List.map_cons, List.sum_cons, hsize]
        omega
      · rw [lengthLooks_append, lengthLooks_mapFile hone, hlooks, List.flatMap_cons]

theorem chain_looks_iff {regions : List MmapRegion} :
    (regions.flatMap MmapRegion.looks).IsChain LengthLook.Agree ↔
      ∀ region ∈ regions, region.asSlice.length = region.size := by
  induction regions with
  | nil => simp
  | cons region regions ih =>
      have hjoin : ∀ l ∈ (regions.flatMap MmapRegion.looks).head?,
          LengthLook.Agree (.stat (some region.size)) l := by
        intro l hl
        cases regions with
        | nil => cases hl
        | cons region' _ =>
            cases hl
            trivial
      rw [List.flatMap_cons, List.isChain_append, ih, List.forall_mem_cons]
      simp only [MmapRegion.looks, List.isChain_cons_cons, List.isChain_singleton]
      constructor
      · rintro ⟨⟨hq, _⟩, hrest, _⟩
        exact ⟨Option.some.inj hq, hrest⟩
      · rintro ⟨hq, hrest⟩
        refine ⟨⟨congrArg some hq, trivial, trivial⟩, hrest, ?_⟩
        rintro l ⟨⟩
        exact hjoin

theorem lengthLooks_collect {fuel : ℕ} {dir : Path} {out : List Path}
    {r : Except Exit (List Path)}
    (h : (fileEnv interfere).Runs (collectFiles fuel dir out) w tr r w') : lengthLooks tr = [] := by
  apply lengthLooks_eq_nil
  intro c hc
  have hop := h.ops_only ((collect_only fuel).1 dir out) c hc
  generalize c.op = op at hop ⊢
  cases op <;> first | rfl | cases hop

theorem runs_openWithLimits_ok {fuel maxFile maxTotal : ℕ} {dir : Path} {corpus : MmapCorpus}
    (h : (fileEnv interfere).Runs (openWithLimits width fuel dir maxFile maxTotal) w tr (.ok corpus) w') :
    ∃ filePaths w₁ tr₁ tr₂, tr = tr₁ ++ tr₂ ∧ corpus.base = dir ∧
      (fileEnv interfere).Runs (collectFiles fuel dir []) w tr₁ (.ok filePaths) w₁ ∧
      (fileEnv interfere).Runs (mapFiles width maxFile maxTotal (sortPaths filePaths) 0 []) w₁ tr₂
        (.ok corpus.mappings) w' := by
  obtain ⟨filePaths, w₁, tr₁, tr₂, hwalk, h₁, rfl⟩ := Env.runs_bind_ok_iff.mp h
  obtain ⟨mappings, w₂, tr₃, tr₄, hmap, h₂, rfl⟩ := Env.runs_bind_ok_iff.mp h₁
  obtain ⟨rfl, hret, rfl⟩ := Env.runs_ret_iff.mp h₂
  cases hret
  exact ⟨filePaths, w₁, tr₁, tr₃, by rw [List.append_nil], rfl, hwalk, hmap⟩

/-- What the limits are meant to give: the recorded sizes are the mapped lengths, and the mapped
slices keep both limits. -/
def MmapCorpus.Bounded (corpus : MmapCorpus) (maxFile maxTotal : ℕ) : Prop :=
  (∀ region ∈ corpus.mappings, region.asSlice.length = region.size) ∧
    (∀ region ∈ corpus.mappings, region.asSlice.length ≤ maxFile) ∧
    (maxTotal < u64Max → (corpus.mappings.map fun region => region.asSlice.length).sum ≤ maxTotal)

/-- Whenever `openWithLimits` returns a corpus, the corpus is bounded by its limits exactly if every
query of memmap2 saw the length of the stat before it. -/
theorem corpus_bounded_iff (width : Width) (fuel maxFile maxTotal : ℕ) (dir : Path) {corpus : MmapCorpus}
    (h : (fileEnv Resizes).Runs (openWithLimits width fuel dir maxFile maxTotal) w tr (.ok corpus) w') :
    corpus.Bounded maxFile maxTotal ↔ QueriesAgree tr := by
  obtain ⟨filePaths, w₁, tr₁, tr₂, rfl, _, hwalk, hmap⟩ := runs_openWithLimits_ok h
  obtain ⟨new, hnew, _, hsizes, hsum, hlooks⟩ := runs_mapFiles_ok hmap
  rw [List.nil_append] at hnew
  have hagree : QueriesAgree (tr₁ ++ tr₂) ↔
      ∀ region ∈ corpus.mappings, region.asSlice.length = region.size := by
    rw [QueriesAgree, lengthLooks_append, lengthLooks_collect hwalk, hlooks, List.nil_append, hnew]
    exact chain_looks_iff
  rw [hagree]
  constructor
  · exact fun hbounded => hbounded.1
  · intro hlen
    rw [← hnew] at hsizes hsum
    refine ⟨hlen, fun region hr => (hlen region hr).le.trans (hsizes region hr), fun hlt => ?_⟩
    have htotal := hsum hlt (Nat.zero_le _)
    rw [Nat.zero_add] at htotal
    rwa [List.map_congr_left hlen]

/-- The root directory's four-byte file, extended for the moment of memmap2's query: the corpus
records four bytes and maps eight, over both limits. -/
theorem runs_openWithLimits_swapped :
    ∃ tr w', (fileEnv Resizes).Runs (openWithLimits .w64 3 [] 4 4)
      (singleFile [97] ⟨[1, 2, 3, 4], by decide⟩) tr
      (.ok ⟨[], [⟨⟨1, [1, 2, 3, 4, 0, 0, 0, 0]⟩, [[97]], 4⟩]⟩) w' := by
  have hn : World.node (singleFile [97] ⟨[1, 2, 3, 4], by decide⟩) 1 =
      some (.file ⟨[1, 2, 3, 4], by decide⟩) := rfl
  have hmmap : ∃ tr w, (fileEnv Resizes).Runs (mmapMap .w64 ⟨1⟩ true)
      (singleFile [97] ⟨[1, 2, 3, 4], by decide⟩) tr (.ok ⟨1, [1, 2, 3, 4, 0, 0, 0, 0]⟩) w ∧
      w.node 1 = some (.file ⟨[1, 2, 3, 4, 0, 0, 0, 0], by decide⟩) ∧ w.dev 1 = 0 :=
    ⟨_, _, runs_mmapMap_resized true hn (show 8 < 2 ^ 63 by decide) (by decide), rfl, rfl⟩
  obtain ⟨tm, w₁, hmmap, hlarge, hdev⟩ := hmmap
  have hvalid : ∃ tr w, (fileEnv Resizes).Runs (validateMappingStability ⟨1⟩ ⟨4, 0, 1⟩ 4) w₁ tr
      (.ok ()) w :=
    ⟨_, _, runs_validate_resized hlarge (show 4 < 2 ^ 63 by decide) ⟨rfl, rfl, hdev, rfl⟩⟩
  obtain ⟨tv, w₂, hvalid⟩ := hvalid
  have hopen : World.answers (singleFile [97] ⟨[1, 2, 3, 4], by decide⟩) (.openFile [[97]]) ⟨1⟩ :=
    ⟨rfl, rfl⟩
  have hstat : World.answers (singleFile [97] ⟨[1, 2, 3, 4], by decide⟩) (.metadata ⟨1⟩) ⟨4, 0, 1⟩ :=
    ⟨rfl, rfl, rfl⟩
  have hmap : ∃ tr, (fileEnv Resizes).Runs (mapFiles .w64 4 4 (sortPaths [[[97]]]) 0 [])
      (singleFile [97] ⟨[1, 2, 3, 4], by decide⟩) tr
      (.ok [⟨⟨1, [1, 2, 3, 4, 0, 0, 0, 0]⟩, [[97]], 4⟩]) w₂ := by
    rw [sortPaths_singleton]
    exact ⟨_, (runs_mapFile_of_mapped hopen hstat (by decide) (by decide) hmmap hvalid
      runs_adviseSequential_quiet).bind (.ret _ w₂)⟩
  obtain ⟨tr, hmap⟩ := hmap
  exact ⟨_, w₂, runs_openWithLimits_of_ok (runs_collectFiles_quiet _ (by decide) (by decide)) hmap⟩

theorem corpus_bounded_iff_swapped :
    ∃ tr w', (fileEnv Resizes).Runs (openWithLimits .w64 3 [] 4 4)
      (singleFile [97] ⟨[1, 2, 3, 4], by decide⟩) tr
      (.ok ⟨[], [⟨⟨1, [1, 2, 3, 4, 0, 0, 0, 0]⟩, [[97]], 4⟩]⟩) w' ∧ ¬ QueriesAgree tr := by
  obtain ⟨tr, w', h⟩ := runs_openWithLimits_swapped
  refine ⟨tr, w', h, fun hagree => ?_⟩
  have hlen := ((corpus_bounded_iff _ _ _ _ _ h).mpr hagree).1 _ (List.mem_singleton.mpr rfl)
  simp [MmapRegion.asSlice] at hlen

theorem not_corpus_bounded :
    ¬ ∀ width fuel maxFile maxTotal dir w tr corpus w',
      (fileEnv Resizes).Runs (openWithLimits width fuel dir maxFile maxTotal) w tr (.ok corpus) w' →
        corpus.Bounded maxFile maxTotal := by
  intro hclaim
  obtain ⟨tr, w', h⟩ := runs_openWithLimits_swapped
  have hlen := (hclaim _ _ _ _ _ _ _ _ _ h).1 _ (List.mem_singleton.mpr rfl)
  simp [MmapRegion.asSlice] at hlen

end KernelKit
