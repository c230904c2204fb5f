import KernelKit.WalkExistence

/-!
# The corpus of an unchanging tree

Every file the walk collected is mapped with its contents, since nothing can fail but a call. The corpus
is then the depth-first walk of the tree, whatever order its directories were enumerated in.
-/

namespace KernelKit
open Interaction Relation NamedTree

variable {width : Width} {base : Path} {w w₁ w₂ : World} {tr : List FileCall}

theorem runs_adviseSequential {interfere : World → World → Prop} {m : Mmap} {path : Path}
    {r : Except Exit Unit}
    (h : (fileEnv interfere).Runs (adviseSequential m path) w₁ tr r w₂) (hok : OnlyHintFails tr) :
    r = .ok () := by
  unfold adviseSequential at h
  split_ifs at h
  · exact (Env.runs_ret_iff.mp h).2.1
  · obtain ⟨w₃, x, w₄, tr₁, _, _, h₁, rfl⟩ := runs_call_bind_iff.mp h
    cases x with
    | error source =>
        obtain ⟨m', hm⟩ | ⟨_, ⟨⟩⟩ := (onlyHintFails_cons.mp hok).1
        cases hm
    | ok _ =>
        obtain ⟨w₅, y, w₆, tr₂, _, _, h₂, _⟩ := runs_call_bind_iff.mp h₁
        exact (Env.runs_ret_iff.mp h₂).2.1

def HasFile (base : Path) (w : World) (path : Path) (data : FileData) : Prop :=
  ∃ q i, path = base ++ q ∧ w.Finds base q i ∧ w.node i = some (.file data)

theorem HasFile.resolve {path : Path} {data : FileData} (h : HasFile base w path data) :
    ∃ q i, path = base ++ q ∧ w.Finds base q i ∧ ¬ w.IsSymlink i ∧ w.resolve path = some i ∧
      w.node i = some (.file data) := by
  obtain ⟨q, i, rfl, hi, hn⟩ := h
  have hsym : ¬ w.IsSymlink i := by
    rintro ⟨absolute, target, hsym⟩
    cases hn.symm.trans hsym
  exact ⟨q, i, rfl, hi, hsym, (Undisturbed.refl base w).resolve hi hsym, hn⟩

theorem len_undisturbed {q : Path} {i : Ino} {data : FileData} {n : ℕ} (hi : w.Finds base q i)
    (hn : w.node i = some (.file data)) (hund : Undisturbed base w w₁) (h : w₁.LenOf i n) :
    n = data.len := by
  have hsize : w₁.sizeOf i = some data.len := by rw [World.sizeOf, (hund q i hi).2.1, hn]
  rwa [World.LenOf, hsize] at h

theorem metadata_undisturbed {q : Path} {file : File} {data : FileData} {md : Metadata}
    (hi : w.Finds base q file.ino) (hn : w.node file.ino = some (.file data))
    (hund : Undisturbed base w w₁) (h : w₁.answers (.metadata file) md) :
    md = ⟨data.len, w.dev file.ino, file.ino⟩ := by
  obtain ⟨hdev, hino, hlen⟩ := h
  rw [(hund q _ hi).2.2] at hdev
  obtain ⟨len, dev, ino⟩ := md
  cases hdev
  cases hino
  cases len_undisturbed hi hn hund hlen
  rfl

theorem runs_validate_undisturbed {q : Path} {file : File} {data : FileData} {md : Metadata}
    {r : Except Exit Unit} (hi : w.Finds base q file.ino)
    (hn : w.node file.ino = some (.file data)) (hund : Undisturbed base w w₁)
    (hmd : md = ⟨data.len, w.dev file.ino, file.ino⟩)
    (h : (fileEnv (Undisturbed base)).Runs
      (validateMappingStability file (.fromMetadata md) md.len) w₁ tr r w₂)
    (hok : OnlyHintFails tr) : r = .ok () := by
  obtain ⟨w₃, answer, hrely, ⟨_, hans⟩, rfl, ⟨_, _, hnot⟩ | ⟨hr, _⟩⟩ := runs_validate h
  · cases answer with
    | error source =>
        obtain ⟨m', hm⟩ | ⟨_, ⟨⟩⟩ := (onlyHintFails_cons.mp hok).1
        cases hm
    | ok md' =>
        have hmd' := metadata_undisturbed hi hn (hund.many hrely) (hans md' rfl)
        rw [hmd, hmd'] at hnot
        exact absurd ⟨rfl, rfl, rfl, rfl⟩ (hnot _ rfl)
  · exact hr

theorem runs_mmapMap_undisturbed {q : Path} {file : File} {data : FileData} {r : Except Exit Mmap}
    (hi : w.Finds base q file.ino) (hn : w.node file.ino = some (.file data))
    (hfits : data.len ≤ width.isizeMax) (hund : Undisturbed base w w₁)
    (h : (fileEnv (Undisturbed base)).Runs (mmapMap width file true) w₁ tr r w₂)
    (hok : OnlyHintFails tr) : ∃ m, r = .ok m ∧ m.bytes = data.bytes := by
  obtain ⟨w₃, _, n, tr₁, hbefore, ⟨rfl, hquery⟩, h₁, hok₁, rfl⟩ :=
    runs_sys_bind_of_onlyHintFails (by rintro m ⟨⟩) h hok
  have hlen := len_undisturbed hi hn (hund.many hbefore) (hquery n rfl)
  rw [if_neg (Nat.not_lt.mpr (hlen ▸ hfits)), ← Prog.bind_ret (sys _ _)] at h₁
  obtain ⟨w₄, _, m, tr₂, hbetween, ⟨rfl, hmap⟩, h₂, _, rfl⟩ :=
    runs_sys_bind_of_onlyHintFails (by rintro m ⟨⟩) h₁ hok₁
  obtain ⟨_, rfl, _⟩ := Env.runs_ret_iff.mp h₂
  obtain ⟨_, _, _, hbytes⟩ := hmap m rfl
  rw [((hund.many hbefore).many hbetween q _ hi).2.1] at hbytes
  have hbytes := hbytes data hn
  rw [hlen, FileData.len, fitBytes_self] at hbytes
  exact ⟨m, rfl, hbytes⟩

theorem runs_mapOpened_undisturbed {q path : Path} {file : File} {data : FileData} {md : Metadata}
    {total : ℕ} {r : Except Exit (ℕ × MmapRegion)} (hi : w.Finds base q file.ino)
    (hn : w.node file.ino = some (.file data)) (hfits : data.len ≤ width.isizeMax)
    (hund : Undisturbed base w w₁) (hmd : md = ⟨data.len, w.dev file.ino, file.ino⟩)
    (h : (fileEnv (Undisturbed base)).Runs (mapOpened width file md path total) w₁ tr r w₂)
    (hok : OnlyHintFails tr) :
    ∃ region, r = .ok (total, region) ∧ region.path = path ∧ region.asSlice = data.bytes := by
  rcases Env.runs_bind_iff.mp h with ⟨e, rfl, hmap⟩ | ⟨m, w₃, t₁, t₂, hmap, h₁, rfl⟩
  · obtain ⟨_, ⟨⟩, _⟩ := runs_mmapMap_undisturbed hi hn hfits hund hmap hok
  obtain ⟨hok₁, hok₂⟩ := onlyHintFails_append.mp hok
  obtain ⟨_, hm, hbytes⟩ := runs_mmapMap_undisturbed hi hn hfits hund hmap hok₁
  cases hm
  have hund₃ := hund.many (runs_interfere hmap)
  rcases Env.runs_bind_iff.mp h₁ with ⟨e, rfl, hval⟩ | ⟨_, w₄, t₃, t₄, hval, h₂, rfl⟩
  · cases runs_validate_undisturbed hi hn hund₃ hmd hval hok₂
  obtain ⟨_, hok₃⟩ := onlyHintFails_append.mp hok₂
  rcases Env.runs_bind_iff.mp h₂ with ⟨e, rfl, hadv⟩ | ⟨_, w₅, t₅, t₆, hadv, h₃, rfl⟩
  · cases runs_adviseSequential hadv hok₃
  obtain ⟨_, rfl, _⟩ := Env.runs_ret_iff.mp h₃
  exact ⟨_, rfl, rfl, hbytes⟩

/-- An undisturbed file within the limits is mapped with its contents. -/
theorem runs_mapFile_undisturbed {maxFile maxTotal total : ℕ} {path : Path} {data : FileData}
    {r : Except Exit (ℕ × MmapRegion)} (hfile : HasFile base w path data)
    (hfits : data.len ≤ width.isizeMax) (hmax : data.len ≤ maxFile)
    (htotal : total + data.len ≤ maxTotal) (hund : Undisturbed base w w₁)
    (h : (fileEnv (Undisturbed base)).Runs (mapFile width maxFile maxTotal path total) w₁ tr r w₂)
    (hok : OnlyHintFails tr) :
    ∃ total' region, r = .ok (total', region) ∧ region.path = path ∧
      region.asSlice = data.bytes ∧ total' ≤ total + data.len := by
  obtain ⟨q, i, rfl, hi, hsym, -, hn⟩ := hfile.resolve
  obtain ⟨w₃, _, file, tr₁, hrely, ⟨rfl, hopen⟩, h₁, hok₁, rfl⟩ :=
    runs_sys_bind_of_onlyHintFails (by rintro m ⟨⟩) h hok
  have hund₃ := hund.many hrely
  have hino : i = file.ino := Option.some.inj ((hund₃.resolve hi hsym).symm.trans (hopen file rfl).1)
  subst hino
  obtain ⟨w₄, _, md, tr₂, hrely', ⟨rfl, hmd⟩, h₂, hok₂, rfl⟩ :=
    runs_sys_bind_of_onlyHintFails (by rintro m ⟨⟩) h₁ hok₁
  have hund₄ := hund₃.many hrely'
  have hmd := metadata_undisturbed hi hn hund₄ (hmd md rfl)
  have hlen : md.len = data.len := by rw [hmd]
  have htotal' : saturatingAdd u64Max total md.len ≤ total + data.len := by
    rw [hlen]
    exact min_le_left _ _
  dsimp only at h₂
  rw [if_neg (by omega), if_neg (by omega)] at h₂
  obtain ⟨region, hret, hpath, hslice⟩ := runs_mapOpened_undisturbed hi hn hfits hund₄ hmd h₂ hok₂
  exact ⟨_, region, hret, hpath, hslice, htotal'⟩

theorem runs_mapFiles_undisturbed {maxFile maxTotal total : ℕ} {files : List (Path × FileData)}
    {mappings : List MmapRegion} {r : Except Exit (List MmapRegion)}
    (hfiles : ∀ x ∈ files, HasFile base w x.1 x.2) (hfits : ∀ x ∈ files, x.2.len ≤ width.isizeMax)
    (hmax : ∀ x ∈ files, x.2.len ≤ maxFile)
    (htotal : total + (files.map fun x => x.2.len).sum ≤ maxTotal) (hund : Undisturbed base w w₁)
    (h : (fileEnv (Undisturbed base)).Runs
      (mapFiles width maxFile maxTotal (files.map Prod.fst) total mappings) w₁ tr r w₂)
    (hok : OnlyHintFails tr) :
    ∃ new, r = .ok (mappings ++ new) ∧
      new.map (fun region => (region.path, region.asSlice)) = files.map fun x => (x.1, x.2.bytes) := by
  induction files generalizing total mappings w₁ tr with
  | nil =>
      obtain ⟨_, rfl, _⟩ := Env.runs_ret_iff.mp h
      exact ⟨[], by rw [List.append_nil], rfl⟩
  | cons x files ih =>
      obtain ⟨hx, hfiles⟩ := List.forall_mem_cons.mp hfiles
      obtain ⟨hxfits, hfits⟩ := List.forall_mem_cons.mp hfits
      obtain ⟨hxmax, hmax⟩ := List.forall_mem_cons.mp hmax
      rw [List.map_cons, List.sum_cons] at htotal
      rcases Env.runs_bind_iff.mp h with ⟨e, rfl, hone⟩ | ⟨⟨total', region⟩, w₃, t₁, t₂, hone, hrest, rfl⟩
      · obtain ⟨_, _, ⟨⟩, _⟩ := runs_mapFile_undisturbed hx hxfits hxmax (by omega) hund hone hok
      · obtain ⟨hok₁, hok₂⟩ := onlyHintFails_append.mp hok
        obtain ⟨_, _, hret, hpath, hslice, hle⟩ :=
          runs_mapFile_undisturbed hx hxfits hxmax (by omega) hund hone hok₁
        cases hret
        obtain ⟨new, rfl, hnew⟩ :=
          ih hfiles hfits hmax (by omega) (hund.many (runs_interfere hone)) hrest hok₂
        refine ⟨region :: new, by rw [List.append_assoc, List.singleton_append], ?_⟩
        rw [List.map_cons, List.map_cons, hnew, hpath, hslice]

/-! ### Opening a corpus -/

variable {fuel : ℕ} {i : Ino} {entries : Entries}

theorem Tree.hasFile_of_mem (hroot : w.Finds base [] i) (htree : w.Holds i (.dir entries)) :
    ∀ x ∈ (Tree.dir entries).walk base, HasFile base w x.1 x.2 := by
  intro x hx
  rw [← List.append_nil base] at hx
  exact htree.walk_finds hroot x hx

/-- A walk from `base` on gives, once sorted, the paths of the tree in order, unless the tree holds
anything but files and directories. -/
theorem runs_collectFiles_undisturbed {r : Except Exit (List Path)} (hroot : w.Finds base [] i)
    (htree : w.Holds i (.dir entries)) (hord : (Tree.dir entries).Ordered)
    (hfuel : (Tree.dir entries).effort ≤ fuel)
    (h : (treeEnv base).Runs (collectFiles fuel base []) w tr r w₂)
    (hok : OnlyHintFails tr) :
    ((Tree.dir entries).Clean ∧ ∃ paths, r = .ok paths ∧
        sortPaths paths = ((Tree.dir entries).walk base).map Prod.fst) ∨
      ¬ (Tree.dir entries).Clean ∧ ∃ e, r = .error (.err e) := by
  have hwalk := (@walks_undisturbed base w fuel).1 [] i entries [] w tr r w₂
  rw [List.append_nil] at hwalk
  rcases hwalk hroot htree hord hfuel (.refl _ _) h hok with ⟨hclean, new, hret, hperm⟩ | hother
  · exact Or.inl ⟨hclean, new, hret, Tree.mergeSort_eq_walk _ hord hperm⟩
  · exact Or.inr hother

theorem exists_mapFiles {maxFile maxTotal total : ℕ} {files : List (Path × FileData)}
    (hfiles : ∀ x ∈ files, HasFile base w x.1 x.2) (hfits : ∀ x ∈ files, x.2.len ≤ width.isizeMax)
    (hmax : ∀ x ∈ files, x.2.len ≤ maxFile)
    (htotal : total + (files.map fun x => x.2.len).sum ≤ maxTotal) (mappings : List MmapRegion) :
    ∃ tr new, (treeEnv base).Runs
      (mapFiles width maxFile maxTotal (files.map Prod.fst) total mappings) w tr (.ok new) w ∧
        ∀ c ∈ tr, Succeeded c := by
  suffices hquiet : ∃ tr new, (fileEnv (Undisturbed base)).Runs
      (mapFiles width maxFile maxTotal (files.map Prod.fst) total mappings) w tr (.ok new) w ∧
        ∀ c ∈ tr, Succeeded c by
    obtain ⟨tr, new, hrun, hall⟩ := hquiet
    exact ⟨tr, new, tree_of_runs (mapFiles_only (fun _ _ => id) (fun _ _ => id) _) hrun, hall⟩
  induction files generalizing total mappings with
  | nil => exact ⟨[], _, .ret _ w, List.forall_mem_nil _⟩
  | cons x files ih =>
      obtain ⟨hx, hfiles⟩ := List.forall_mem_cons.mp hfiles
      obtain ⟨hxfits, hfits⟩ := List.forall_mem_cons.mp hfits
      obtain ⟨hxmax, hmax⟩ := List.forall_mem_cons.mp hmax
      rw [List.map_cons, List.sum_cons] at htotal
      have hle : saturatingAdd u64Max total x.2.len ≤ total + x.2.len := min_le_left _ _
      obtain ⟨_, i, -, -, -, hresolve, hn⟩ := hx.resolve
      obtain ⟨tr, new, hrest, hall⟩ := ih hfiles hfits hmax
        (show saturatingAdd u64Max total x.2.len + (files.map fun x => x.2.len).sum ≤ maxTotal by omega)
        (mappings ++ [⟨⟨i, x.2.bytes⟩, x.1, x.2.len⟩])
      exact ⟨_, new, (runs_mapFile_quiet hresolve hn hxfits hxmax (by omega)).bind hrest,
        List.forall_mem_append.mpr ⟨quietCalls_succeeded, hall⟩⟩

/-- A run there is in which no call fails, whether or not the tree is accepted. -/
theorem exists_openWithLimits {maxFile maxTotal : ℕ} (hroot : w.Finds base [] i)
    (htree : w.Holds i (.dir entries)) (hord : (Tree.dir entries).Ordered)
    (hfuel : (Tree.dir entries).effort ≤ fuel)
    (hfits : ∀ x ∈ (Tree.dir entries).walk base, x.2.len ≤ width.isizeMax)
    (hmax : ∀ x ∈ (Tree.dir entries).walk base, x.2.len ≤ maxFile)
    (htotal : (((Tree.dir entries).walk base).map fun x => x.2.len).sum ≤ maxTotal) :
    ∃ tr r w', (treeEnv base).Runs (openWithLimits width fuel base maxFile maxTotal) w tr r w' ∧
      OnlyHintFails tr := by
  obtain ⟨tr₁, r₁, hcollect, hall₁⟩ :=
    (hasWalk servesWalk_tree base fuel).1 [] i entries [] hroot htree hord hfuel
  rw [List.append_nil] at hcollect
  rcases runs_collectFiles_undisturbed hroot htree hord hfuel hcollect (.of_all hall₁) with
    ⟨_, paths, rfl, hsort⟩ | ⟨_, e, rfl⟩
  · rw [← Nat.zero_add (List.sum _)] at htotal
    obtain ⟨tr₂, new, hmap, hall₂⟩ :=
      exists_mapFiles (Tree.hasFile_of_mem hroot htree) hfits hmax htotal []
    rw [← hsort] at hmap
    exact ⟨_, _, w, runs_openWithLimits_of_ok hcollect hmap,
      .of_all (List.forall_mem_append.mpr ⟨hall₁, hall₂⟩)⟩
  · exact ⟨tr₁, _, w, Env.runs_bind_iff.mpr (.inl ⟨_, rfl, hcollect⟩), .of_all hall₁⟩

/-- What a run does in which no call fails but a hint. -/
theorem runs_openWithLimits_undisturbed {maxFile maxTotal : ℕ} {r : Except Exit MmapCorpus}
    (hroot : w.Finds base [] i) (htree : w.Holds i (.dir entries)) (hord : (Tree.dir entries).Ordered)
    (hfuel : (Tree.dir entries).effort ≤ fuel)
    (hfits : ∀ x ∈ (Tree.dir entries).walk base, x.2.len ≤ width.isizeMax)
    (hmax : ∀ x ∈ (Tree.dir entries).walk base, x.2.len ≤ maxFile)
    (htotal : (((Tree.dir entries).walk base).map fun x => x.2.len).sum ≤ maxTotal)
    (h : (treeEnv base).Runs (openWithLimits width fuel base maxFile maxTotal) w tr r w₂)
    (hok : OnlyHintFails tr) :
    (Tree.dir entries).Clean ∧ (∃ corpus, r = .ok corpus ∧
        corpus.iter = ((Tree.dir entries).walk base).map fun x => (x.1, x.2.bytes)) ∨
      ¬ (Tree.dir entries).Clean ∧ ∃ e, r = .error (.err e) := by
  rcases Env.runs_bind_iff.mp h with ⟨e, rfl, hrun⟩ | ⟨paths, w₁, t₁, t₂, hrun, h₁, rfl⟩
  · rcases runs_collectFiles_undisturbed hroot htree hord hfuel hrun hok with
      ⟨_, _, ⟨⟩, _⟩ | ⟨hclean, e', he⟩
    cases he
    exact .inr ⟨hclean, e', rfl⟩
  obtain ⟨hok₁, hok₂⟩ := onlyHintFails_append.mp hok
  rcases runs_collectFiles_undisturbed hroot htree hord hfuel hrun hok₁ with
    ⟨hclean, _, hret, hsort⟩ | ⟨_, _, ⟨⟩⟩
  cases hret
  simp only [hsort] at h₁
  have hund₁ := (Undisturbed.refl base w).many (runs_tree_interfere hrun)
  have hmapping : ∀ {t r' w'}, (treeEnv base).Runs
      (mapFiles width maxFile maxTotal (((Tree.dir entries).walk base).map Prod.fst) 0 []) w₁ t r' w' →
      OnlyHintFails t → ∃ new, r' = .ok new ∧
        new.map (fun region => (region.path, region.asSlice)) =
          ((Tree.dir entries).walk base).map fun x => (x.1, x.2.bytes) := by
    intro t r' w' hrun' hokt
    exact runs_mapFiles_undisturbed (Tree.hasFile_of_mem hroot htree) hfits hmax (by rwa [Nat.zero_add])
      hund₁ (runs_of_tree hrun') hokt
  rcases Env.runs_bind_iff.mp h₁ with ⟨e, rfl, hmap⟩ | ⟨mappings, w₃, t₃, t₄, hmap, h₂, rfl⟩
  · obtain ⟨_, ⟨⟩, _⟩ := hmapping hmap hok₂
  obtain ⟨_, hret, hiter⟩ := hmapping hmap (onlyHintFails_append.mp hok₂).1
  cases hret
  obtain ⟨_, rfl, _⟩ := Env.runs_ret_iff.mp h₂
  exact .inl ⟨hclean, _, rfl, hiter⟩

/-- For a tree of any shape that stays undisturbed, limits that admit it, and any order its directories
are enumerated in: where files of these lengths can be mapped, there is a run of `openWithLimits` in
which no call fails, and every such run succeeds exactly if the tree holds nothing but files and
directories. The corpus is then its depth-first walk in name order. -/
theorem openWithLimits_walk (width : Width) (fuel maxFile maxTotal : ℕ) {i : Ino} {entries : Entries}
    (hbase : w.resolve base = some i) (htree : w.Holds i (.dir entries))
    (hord : (Tree.dir entries).Ordered) (hfuel : (Tree.dir entries).effort ≤ fuel)
    (hfits : ∀ x ∈ (Tree.dir entries).walk base, x.2.len ≤ width.isizeMax)
    (hmax : ∀ x ∈ (Tree.dir entries).walk base, x.2.len ≤ maxFile)
    (htotal : (((Tree.dir entries).walk base).map fun x => x.2.len).sum ≤ maxTotal) :
    (∃ tr r w', (treeEnv base).Runs (openWithLimits width fuel base maxFile maxTotal) w tr r w' ∧
        OnlyHintFails tr) ∧
      ∀ tr r w', (treeEnv base).Runs (openWithLimits width fuel base maxFile maxTotal) w tr r w' →
        OnlyHintFails tr →
        ((∃ corpus, r = .ok corpus) ↔ (Tree.dir entries).Clean) ∧
          (¬ (Tree.dir entries).Clean → ∃ e, r = .error (.err e)) ∧
          ∀ corpus, r = .ok corpus →
            corpus.iter = ((Tree.dir entries).walk base).map fun x => (x.1, x.2.bytes) := by
  have hroot : w.Finds base [] i := ⟨i, hbase, rfl⟩
  refine ⟨exists_openWithLimits hroot htree hord hfuel hfits hmax htotal, fun tr r w' h hok => ?_⟩
  rcases runs_openWithLimits_undisturbed hroot htree hord hfuel hfits hmax htotal h hok with
    ⟨hclean, corpus, rfl, hiter⟩ | ⟨hclean, e, rfl⟩
  · refine ⟨⟨fun _ => hclean, fun _ => ⟨corpus, rfl⟩⟩, fun hnot => absurd hclean hnot, ?_⟩
    rintro _ ⟨⟩
    exact hiter
  · exact ⟨⟨by rintro ⟨_, ⟨⟩⟩, fun hc => absurd hc hclean⟩, fun _ => ⟨e, rfl⟩, by rintro _ ⟨⟩⟩

/-- A root directory that lists `a.b` before the directory `a`, which holds `b`. -/
def dottedWorld : World where
  root := 0
  dev := fun _ => 0
  node := fun i =>
    if i = 0 then some (.dir 0 [([97, 46, 98], 1), ([97], 2)])
    else if i = 1 then some (.file ⟨[1], by decide⟩)
    else if i = 2 then some (.dir 0 [([98], 3)])
    else if i = 3 then some (.file ⟨[2, 3], by decide⟩) else none

def dottedEntries : Entries :=
  [([97], .dir [([98], .file ⟨[2, 3], by decide⟩)]), ([97, 46, 98], .file ⟨[1], by decide⟩)]

theorem dottedWorld_holds : dottedWorld.Holds 0 (.dir dottedEntries) := by
  refine .dir (fun name => if name = [97] then 2 else 1) rfl (by decide) ?_ ?_
  · simp only [dottedEntries, List.forall_mem_cons, List.not_mem_nil, false_imp_iff, implies_true,
      and_true]
    decide
  · simp only [dottedEntries, List.forall_mem_cons, List.not_mem_nil, false_imp_iff, implies_true,
      and_true]
    constructor
    · refine .dir (fun _ => 3) rfl (by decide) ?_ ?_
      · simp only [List.forall_mem_cons, List.not_mem_nil, false_imp_iff, implies_true, and_true]
        decide
      · simp only [List.forall_mem_cons, List.not_mem_nil, false_imp_iff, implies_true, and_true]
        exact .file rfl
    · exact .file rfl

theorem dottedEntries_ordered : (Tree.dir dottedEntries).Ordered := by
  refine .dir _ ?_ ?_
  · simp only [dottedEntries, List.pairwise_cons, List.forall_mem_cons, List.not_mem_nil,
      false_imp_iff, implies_true, and_true, List.Pairwise.nil]
    decide
  · simp only [dottedEntries, List.forall_mem_cons, List.not_mem_nil, false_imp_iff, implies_true,
      and_true]
    refine ⟨.dir _ (List.pairwise_singleton _ _) ?_, .file _⟩
    simp only [List.forall_mem_cons, List.not_mem_nil, false_imp_iff, implies_true, and_true]
    exact .file _

theorem dottedEntries_clean : (Tree.dir dottedEntries).Clean := by
  refine .dir _ ?_
  simp only [dottedEntries, List.forall_mem_cons, List.not_mem_nil, false_imp_iff, implies_true,
    and_true]
  exact ⟨.dir _ (by simp [Tree.Clean.file]), .file _⟩

theorem openWithLimits_walk_dotted :
    (∃ tr r w', (treeEnv []).Runs (openWithLimits .w64 7 [] 2 3) dottedWorld tr r w' ∧
        OnlyHintFails tr) ∧
      ∀ tr r w', (treeEnv []).Runs (openWithLimits .w64 7 [] 2 3) dottedWorld tr r w' →
        OnlyHintFails tr → ∃ corpus, r = .ok corpus ∧
          corpus.iter = [([[97], [98]], [2, 3]), ([[97, 46, 98]], [1])] := by
  obtain ⟨hexists, hruns⟩ := openWithLimits_walk .w64 7 2 3
    (show dottedWorld.resolve [] = some 0 from rfl) dottedWorld_holds dottedEntries_ordered
    (by decide) (by decide) (by decide) (by decide)
  refine ⟨hexists, fun tr r w' h hok => ?_⟩
  obtain ⟨hiff, _, hiter⟩ := hruns tr r w' h hok
  obtain ⟨corpus, hcorpus⟩ := hiff.mpr dottedEntries_clean
  exact ⟨corpus, hcorpus, hiter corpus hcorpus⟩

end KernelKit
