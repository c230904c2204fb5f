import KernelKit.CorpusTotals
import Mathlib.Data.UInt

/-!
# The two limits of a corpus

Whatever the sizes of the files are, `openWithLimits` returns a corpus exactly if every file and the exact
sum keep the limits and memmap2 maps every file, and otherwise ends at the first file in path order that
is not so. A size above `isize::MAX` keeps the limits where these are higher, and is refused all the same.
-/

namespace KernelKit
open Interaction Relation NamedTree

/-- The run ends at the first of the files, in path order, with which they are not mappable. -/
def EndsAtBreach (width : Width) (size : Ino → UInt64) (w : World) (maxFile maxTotal : ℕ)
    (files : List Path) (tr : List FileCall) (r : Except Exit MmapCorpus) : Prop :=
  ∀ before path after, files = before ++ path :: after →
    Mappable width maxFile maxTotal (before.map (w.sizeAt size)) →
    ¬ Mappable width maxFile maxTotal ((before ++ [path]).map (w.sizeAt size)) →
    r = .error (.err (refusal maxFile maxTotal (before.map (w.sizeAt size)).sum
        (w.sizeAt size path))) ∧
      openedPaths tr = before ++ [path]

variable {width : Width} {base : Path} {size : Ino → UInt64} {w w₁ w₂ : World} {tr : List FileCall}
  {maxFile maxTotal : ℕ}

theorem runs_collect_sorted {fuel : ℕ} {i : Ino} {entries : Entries}
    {r : Except Exit (List Path)} (hroot : w.Finds base [] i) (htree : w.Holds i (.dir entries))
    (hord : (Tree.dir entries).Ordered) (hclean : (Tree.dir entries).Clean)
    (hfuel : (Tree.dir entries).effort ≤ fuel)
    (h : (sizedEnv base size).Runs (collectFiles fuel base []) w tr r w₁) :
    openedPaths tr = [] ∧
      ∃ paths, r = .ok paths ∧ sortPaths paths = ((Tree.dir entries).walk base).map Prod.fst := by
  refine ⟨openedPaths_of_only (((collect_only fuel).1 base []).imp fun op hop => ?_) h, ?_⟩
  · cases op <;> first | rfl | cases hop
  · rcases runs_collectFiles_undisturbed hroot htree hord hfuel
      (runs_of_unsized (collectFiles_unsized ..) h) (.of_all (succeeded_sized h)) with
      ⟨_, hpaths⟩ | ⟨hother, _⟩
    · exact hpaths
    · exact absurd hclean hother

theorem Tree.hasFile_of_mem_paths {i : Ino} {entries : Entries} (hroot : w.Finds base [] i)
    (htree : w.Holds i (.dir entries)) :
    ∀ path ∈ ((Tree.dir entries).walk base).map Prod.fst, ∃ data, HasFile base w path data :=
  List.forall_mem_map.mpr fun x hx => ⟨x.2, Tree.hasFile_of_mem hroot htree x hx⟩

theorem HasFile.open_answered {path : Path} {data : FileData} (h : HasFile base w path data) :
    ∃ file, w.answersSized size (.openFile path) file := by
  obtain ⟨_, i, -, -, -, hresolve, hn⟩ := h.resolve
  exact ⟨⟨i⟩, ⟨hresolve, by rw [hn]; rfl⟩, trivial⟩

theorem covers_answered :
    CoversFileCalls fun op => ∃ x, (sizedEnv base size).serve op w x w := by
  intro op hopened hwalk
  cases op with
  | openFile => cases hopened
  | readDir | getdents | entryType => exact absurd trivial hwalk
  | metadata file =>
    exact ⟨_, serve_sized (.metadata file) ⟨(size file.ino).toNat, w.dev file.ino, file.ino⟩
      ⟨rfl, rfl, rfl⟩⟩
  | fileLen file => exact ⟨_, serve_sized (.fileLen file) (size file.ino).toNat rfl⟩
  | mmap file len populate =>
    exact ⟨_, serve_sized (.mmap file len populate) ⟨file.ino, List.replicate len 0⟩
      ⟨rfl, List.length_replicate⟩⟩
  | madvise m advice => exact ⟨_, serve_sized (.madvise m advice) () ⟨trivial, trivial⟩⟩

variable {fuel : ℕ} {i : Ino} {entries : Entries}

/-- A run there is, whatever the sizes and the limits. -/
theorem exists_openWithLimits_sized (hroot : w.Finds base [] i) (htree : w.Holds i (.dir entries))
    (hord : (Tree.dir entries).Ordered) (hclean : (Tree.dir entries).Clean)
    (hfuel : (Tree.dir entries).effort ≤ fuel) (width : Width) (maxFile maxTotal : ℕ) :
    ∃ tr r w', (sizedEnv base size).Runs (openWithLimits width fuel base maxFile maxTotal) w tr r w' := by
  obtain ⟨tr₁, r₁, hcollect, _⟩ :=
    (hasWalk servesWalk_sized base fuel).1 [] i entries [] hroot htree hord hfuel
  rw [List.append_nil] at hcollect
  obtain ⟨_, paths, rfl, hsort⟩ := runs_collect_sorted hroot htree hord hclean hfuel hcollect
  have honly : ((mapFiles width maxFile maxTotal (sortPaths paths) 0 []).bind fun mappings =>
      (pure ⟨base, mappings⟩ : FileProg MmapCorpus)).Only
        fun op => ∃ x, (sizedEnv base size).serve op w x w := by
    refine (mapFiles_only covers_answered (fun path hpath => ?_) []).bind fun _ => trivial
    rw [hsort] at hpath
    obtain ⟨data, hfile⟩ := Tree.hasFile_of_mem_paths hroot htree path hpath
    obtain ⟨file, hopen⟩ := hfile.open_answered
    exact ⟨_, serve_sized (.openFile path) file hopen⟩
  obtain ⟨tr₂, r, hrest⟩ := Env.exists_run (fun _ hop => hop) honly
  exact ⟨_, r, w, hcollect.bind hrest⟩

theorem runs_openWithLimits_sized {r : Except Exit MmapCorpus} (hroot : w.Finds base [] i)
    (htree : w.Holds i (.dir entries)) (hord : (Tree.dir entries).Ordered)
    (hclean : (Tree.dir entries).Clean) (hfuel : (Tree.dir entries).effort ≤ fuel)
    {files : List Path} (hfiles : ((Tree.dir entries).walk base).map Prod.fst = files)
    (hmaxTotal : maxTotal < u64Max)
    (h : (sizedEnv base size).Runs (openWithLimits width fuel base maxFile maxTotal) w tr r w₂) :
    (Mappable width maxFile maxTotal (files.map (w.sizeAt size)) → ∃ corpus, r = .ok corpus) ∧
      EndsAtBreach width size w maxFile maxTotal files tr r := by
  have hhas := Tree.hasFile_of_mem_paths hroot htree
  rw [hfiles] at hhas
  rcases Env.runs_bind_iff.mp h with ⟨e, rfl, hcollect⟩ | ⟨paths, w₁, t₁, t₂, hcollect, h₁, rfl⟩
  · obtain ⟨_, _, ⟨⟩, _⟩ := runs_collect_sorted hroot htree hord hclean hfuel hcollect
  obtain ⟨hopened, _, hpaths, hsort⟩ := runs_collect_sorted hroot htree hord hclean hfuel hcollect
  cases hpaths
  simp only [hsort, hfiles] at h₁
  have hund : Undisturbed base w w₁ :=
    (Undisturbed.refl base w).many (runs_sized_interfere hcollect)
  rw [EndsAtBreach, openedPaths_append, hopened, List.nil_append]
  rcases Env.runs_bind_iff.mp h₁ with ⟨e, rfl, hmap⟩ | ⟨mappings, w₃, t₃, t₄, hmap, h₂, rfl⟩
  · constructor
    · intro hmappable
      obtain ⟨_, ⟨⟩⟩ := runs_mapFiles_mappable hmaxTotal hhas hmappable hund hmap
    · rintro before path after rfl hbefore hbreach
      obtain ⟨herror, hopened'⟩ := runs_mapFiles_breach hmaxTotal hhas hbefore hbreach hund hmap
      exact ⟨by cases herror; rfl, hopened'⟩
  · obtain ⟨rfl, rfl, rfl⟩ := Env.runs_ret_iff.mp h₂
    refine ⟨fun _ => ⟨_, rfl⟩, ?_⟩
    rintro before path after rfl hbefore hbreach
    cases (runs_mapFiles_breach hmaxTotal hhas hbefore hbreach hund hmap).1

/-- A property that the empty list has and a list has not is lost at some element of the list. -/
theorem exists_first_loss {α : Type} {P : List α → Prop} (hnil : P []) (l : List α) (h : ¬ P l) :
    ∃ before a after, l = before ++ a :: after ∧ P before ∧ ¬ P (before ++ [a]) := by
  induction l using List.reverseRecOn with
  | nil => exact absurd hnil h
  | append_singleton l a ih =>
      by_cases hl : P l
      · exact ⟨l, a, [], rfl, hl, h⟩
      · obtain ⟨before, b, after, rfl, hbefore, hb⟩ := ih hl
        exact ⟨before, b, after ++ [a], by simp, hbefore, hb⟩

theorem ok_iff_of_cases {r : Except Exit MmapCorpus} {files : List Path}
    (h : (Mappable width maxFile maxTotal (files.map (w.sizeAt size)) → ∃ corpus, r = .ok corpus) ∧
      EndsAtBreach width size w maxFile maxTotal files tr r) :
    (∃ corpus, r = .ok corpus) ↔ Mappable width maxFile maxTotal (files.map (w.sizeAt size)) := by
  refine ⟨?_, h.1⟩
  rintro ⟨corpus, rfl⟩
  by_contra hnot
  obtain ⟨before, path, after, hfiles, hbefore, hbreach⟩ := exists_first_loss
    (P := fun files => Mappable width maxFile maxTotal (files.map (w.sizeAt size)))
    (by simp [Mappable, WithinLimits]) files hnot
  cases (h.2 before path after hfiles hbefore hbreach).1

/-- For files of any sizes, whatever order the directories are enumerated in: `openWithLimits` returns
a corpus exactly if all of them are mappable, ends at the first that is not, and with higher limits
returns a corpus as well. -/
theorem corpus_limits_iff (width : Width) (fuel maxFile maxTotal : ℕ) (size : Ino → UInt64)
    {files : List Path} (hbase : w.resolve base = some i) (htree : w.Holds i (.dir entries))
    (hord : (Tree.dir entries).Ordered) (hclean : (Tree.dir entries).Clean)
    (hfuel : (Tree.dir entries).effort ≤ fuel)
    (hfiles : ((Tree.dir entries).walk base).map Prod.fst = files) (hmaxTotal : maxTotal < u64Max) :
    (∃ tr r w', (sizedEnv base size).Runs (openWithLimits width fuel base maxFile maxTotal) w tr r w') ∧
      (∀ tr r w', (sizedEnv base size).Runs (openWithLimits width fuel base maxFile maxTotal) w tr r w' →
        ((∃ corpus, r = .ok corpus) ↔
            Mappable width maxFile maxTotal (files.map (w.sizeAt size))) ∧
          EndsAtBreach width size w maxFile maxTotal files tr r) ∧
      ∀ maxFile' maxTotal', maxFile ≤ maxFile' → maxTotal ≤ maxTotal' → maxTotal' < u64Max →
        (∃ tr corpus w', (sizedEnv base size).Runs (openWithLimits width fuel base maxFile maxTotal) w tr
          (.ok corpus) w') →
        ∀ tr r w', (sizedEnv base size).Runs (openWithLimits width fuel base maxFile' maxTotal') w tr r w' →
          ∃ corpus, r = .ok corpus := by
  have hroot : w.Finds base [] i := ⟨i, hbase, rfl⟩
  have hcases {maxFile maxTotal : ℕ} {tr r w'} (hmaxTotal : maxTotal < u64Max)
      (hrun : (sizedEnv base size).Runs (openWithLimits width fuel base maxFile maxTotal) w tr r w') :=
    runs_openWithLimits_sized hroot htree hord hclean hfuel hfiles hmaxTotal hrun
  refine ⟨exists_openWithLimits_sized hroot htree hord hclean hfuel width maxFile maxTotal,
    fun tr r w' hrun => ⟨ok_iff_of_cases (hcases hmaxTotal hrun), (hcases hmaxTotal hrun).2⟩, ?_⟩
  rintro maxFile' maxTotal' hfile htotal hmaxTotal' ⟨tr₁, corpus, w₁, haccepted⟩ tr r w' hrun
  have hmappable := (ok_iff_of_cases (hcases hmaxTotal haccepted)).mp ⟨corpus, rfl⟩
  exact (hcases hmaxTotal' hrun).1 (hmappable.mono hfile htotal)

theorem dottedWorld_sizeAt (size : Ino → UInt64) :
    dottedWorld.sizeAt size [[97], [98]] = (size 3).toNat ∧
      dottedWorld.sizeAt size [[97, 46, 98]] = (size 1).toNat := by
  constructor
  · rw [World.sizeAt, show dottedWorld.resolve [[97], [98]] = some 3 from rfl, Option.elim_some]
  · rw [World.sizeAt, show dottedWorld.resolve [[97, 46, 98]] = some 1 from rfl, Option.elim_some]

theorem corpus_limits_iff_huge : (∃ tr r w', (sizedEnv [] fun _ => 2 ^ 63 - 1).Runs
      (openWithLimits .w64 7 [] (2 ^ 63) (2 ^ 63)) dottedWorld tr r w') ∧
    ∀ tr r w', (sizedEnv [] fun _ => 2 ^ 63 - 1).Runs (openWithLimits .w64 7 [] (2 ^ 63) (2 ^ 63))
      dottedWorld tr r w' → r = .error (.err (corpusTooLarge (2 ^ 63))) := by
  obtain ⟨hrun, hruns, _⟩ := corpus_limits_iff (w := dottedWorld) .w64 7 (2 ^ 63) (2 ^ 63)
    (fun _ => 2 ^ 63 - 1) (show dottedWorld.resolve [] = some 0 from rfl) dottedWorld_holds
    dottedEntries_ordered dottedEntries_clean (by decide) rfl (by decide)
  refine ⟨hrun, fun tr r w' h => ?_⟩
  obtain ⟨hfirst, hsecond⟩ := dottedWorld_sizeAt fun _ => 2 ^ 63 - 1
  have hsize : (2 ^ 63 - 1 : UInt64).toNat = 2 ^ 63 - 1 := by decide +kernel
  have hend := ((hruns tr r w' h).2 [[[97], [98]]] [[97, 46, 98]] [] rfl
    (by simp [Mappable, WithinLimits, hfirst, hsize, Width.isizeMax, Width.bits])
    (by simp [Mappable, WithinLimits, hfirst, hsecond, hsize])).1
  rw [hend, List.map_singleton, hfirst, hsecond, hsize]
  rfl

def oneHuge (i : Ino) : UInt64 := if i = 3 then 2 ^ 63 else 0

/-- A file of 2⁶³ bytes and an empty one keep limits of 2⁶³ bytes, but no slice is that long. -/
theorem not_corpus_limits_iff :
    WithinLimits (2 ^ 63) (2 ^ 63) ([[[97], [98]], [[97, 46, 98]]].map (dottedWorld.sizeAt oneHuge)) ∧
      (∃ tr r w', (sizedEnv [] oneHuge).Runs (openWithLimits .w64 7 [] (2 ^ 63) (2 ^ 63)) dottedWorld
        tr r w') ∧
      ∀ tr r w', (sizedEnv [] oneHuge).Runs (openWithLimits .w64 7 [] (2 ^ 63) (2 ^ 63)) dottedWorld
        tr r w' → r = .error (.err mmapLengthOverflow) := by
  obtain ⟨hfirst, hsecond⟩ := dottedWorld_sizeAt oneHuge
  have hlarge : (oneHuge 3).toNat = 2 ^ 63 := by decide +kernel
  have hempty : (oneHuge 1).toNat = 0 := by decide +kernel
  have hroot : dottedWorld.Finds [] [] 0 := ⟨0, rfl, rfl⟩
  refine ⟨?_, exists_openWithLimits_sized hroot dottedWorld_holds dottedEntries_ordered
    dottedEntries_clean (by decide) .w64 _ _, fun tr r w' h => ?_⟩
  · simp [WithinLimits, hfirst, hsecond, hlarge, hempty]
  · have hend := ((runs_openWithLimits_sized hroot dottedWorld_holds dottedEntries_ordered
      dottedEntries_clean (by decide) rfl (by decide) h).2 [] [[97], [98]] [[[97, 46, 98]]] rfl
      (by simp [Mappable, WithinLimits])
      (by simp [Mappable, hfirst, hlarge, Width.isizeMax, Width.bits])).1
    rw [hend, hfirst, hlarge, List.map_nil, List.sum_nil, refusal, Nat.zero_add,
      if_neg (Nat.lt_irrefl _), if_neg (Nat.lt_irrefl _)]

end KernelKit
