import KernelKit.CorpusStability
import KernelKit.PathResolution

/-!
# Symbolic links put in place during the walk

The walk checks the type of every entry before it descends or collects, but descending and opening
resolve the whole path anew. A mapped file lies below the base directory, with no symbolic link on the
way, as long as at every open the checked entries on the path are what the check saw.
-/

namespace KernelKit
open Interaction Relation

/-- Another process at work below `base`: it renames and removes directory entries and replaces them
by symbolic links. A rename is an entry added and an entry removed. -/
inductive Tampers (base : Path) : World → World → Prop
  | relink {w : World} {q : Path} {d parent parent' : Ino} {es es' : List (Name × Ino)} :
      w.Finds base q d → w.node d = some (.dir parent es) →
      (∀ e ∈ es', e ∈ es ∨ w.IsSymlink e.2 ∨ ∃ q', w.Finds base q' e.2) →
      Tampers base w (w.setNode d (.dir parent' es'))
  | makeSymlink {w : World} {i : Ino} (absolute : Bool) (target : Path) : w.node i = none →
      Tampers base w (w.setNode i (.symlink absolute target))

/-- The types a call told the walk: those of the entries it read ahead, or that of one entry. -/
def typesTold (c : FileCall) : List (Path × FileType) :=
  match c with
  | ⟨_, .getdents _, .ok found⟩ => found.filterMap fun e => e.dType.map (e.path, ·)
  | ⟨_, .entryType entry, .ok t⟩ => [(entry.path, t)]
  | _ => []

def checkedTypes (tr : List FileCall) : List (Path × FileType) := tr.flatMap typesTold

theorem checkedTypes_append {tr tr' : List FileCall} :
    checkedTypes (tr ++ tr') = checkedTypes tr ++ checkedTypes tr' :=
  List.flatMap_append

/-- A checked entry is still of the type the check saw, if there is one by its path at all. -/
def World.Keeps (w : World) (base : Path) (x : Path × FileType) : Prop :=
  ∀ q i n, x.1 = base ++ q → w.Finds base q i → w.node i = some n → n.fileType = x.2

/-- Whenever a file is opened, the entries checked before on the way to it are what they were. -/
def ChecksHold (base : Path) (tr : List FileCall) : Prop :=
  ∀ tr₁ c tr₂ path, tr = tr₁ ++ c :: tr₂ → c.op = .openFile path →
    ∀ x ∈ checkedTypes tr₁, x.1 <+: path → c.state.Keeps base x

def Proper (name : Name) : Prop := name ≠ dot ∧ name ≠ dotDot

def World.RegularBelow (w : World) (base path : Path) (i : Ino) : Prop :=
  ∃ q, path = base ++ q ∧ (∀ name ∈ q, Proper name) ∧ w.Finds base q i ∧
    ∃ data, w.node i = some (.file data)

/-- The region maps what its path led to when it was opened, a regular file below `base`. -/
def MmapRegion.FromBelow (base : Path) (tr : List FileCall) (region : MmapRegion) : Prop :=
  ∃ w file, ⟨w, .openFile region.path, .ok file⟩ ∈ tr ∧ region.mmap.ino = file.ino ∧
    w.RegularBelow base region.path file.ino

/-! ### What the walk has checked -/

def VettedDir (base : Path) (seen : List (Path × FileType)) (q : Path) : Prop :=
  (∀ name ∈ q, Proper name) ∧ ∀ q₁ q₂, q = q₁ ++ q₂ → q₁ ≠ [] → (base ++ q₁, FileType.dir) ∈ seen

def VettedFile (base : Path) (seen : List (Path × FileType)) (path : Path) : Prop :=
  ∃ q name, path = base ++ (q ++ [name]) ∧ VettedDir base seen q ∧ Proper name ∧
    (path, FileType.file) ∈ seen

variable {base : Path} {seen seen' : List (Path × FileType)} {w w' : World} {tr : List FileCall}

theorem vettedDir_nil : VettedDir base seen [] := by
  refine ⟨by simp, fun q₁ q₂ h hne => ?_⟩
  exact absurd (List.append_eq_nil_iff.mp h.symm).1 hne

theorem VettedDir.mono {q : Path} (h : VettedDir base seen q) (hsub : seen ⊆ seen') :
    VettedDir base seen' q :=
  ⟨h.1, fun q₁ q₂ hq hne => hsub (h.2 q₁ q₂ hq hne)⟩

theorem VettedFile.mono {path : Path} (h : VettedFile base seen path) (hsub : seen ⊆ seen') :
    VettedFile base seen' path := by
  obtain ⟨q, name, hpath, hdir, hname, hmem⟩ := h
  exact ⟨q, name, hpath, hdir.mono hsub, hname, hsub hmem⟩

theorem VettedDir.snoc {q : Path} {name : Name} (h : VettedDir base seen q) (hname : Proper name)
    (hmem : (base ++ (q ++ [name]), FileType.dir) ∈ seen) : VettedDir base seen (q ++ [name]) := by
  refine ⟨?_, fun q₁ q₂ hq hne => ?_⟩
  · intro name' hname'
    rcases List.mem_append.mp hname' with hold | hnew
    · exact h.1 name' hold
    · rwa [List.mem_singleton.mp hnew]
  · rcases List.eq_nil_or_concat q₂ with rfl | ⟨q₂', last, rfl⟩
    · rw [List.append_nil] at hq
      rwa [← hq]
    · rw [List.concat_eq_append, ← List.append_assoc] at hq
      exact h.2 q₁ q₂' (List.append_inj_left' hq rfl) hne

/-- An open that finds the checks still true reaches a regular file below `base`. -/
theorem VettedFile.regularBelow {path : Path} {i : Ino} (h : VettedFile base seen path)
    (hkeeps : ∀ x ∈ seen, x.1 <+: path → w.Keeps base x) (hres : w.resolve path = some i)
    (hi : (w.node i).isSome) : w.RegularBelow base path i := by
  obtain ⟨q, name, rfl, hdir, hname, hfile⟩ := h
  obtain ⟨b, hbase⟩ := World.resolve_base hres
  have hno : w.NoSymlinks b (q ++ [name]) := by
    intro q₁ q₂ m hq hne hm
    rintro ⟨absolute, target, hsym⟩
    have hpre : base ++ q₁ <+: base ++ (q ++ [name]) := ⟨q₂, by rw [hq, List.append_assoc]⟩
    rcases List.eq_nil_or_concat q₂ with rfl | ⟨q₂', last, rfl⟩
    · rw [List.append_nil] at hq
      subst hq
      cases hkeeps _ hfile hpre _ m _ rfl ⟨b, hbase, hm⟩ hsym
    · rw [List.concat_eq_append, ← List.append_assoc] at hq
      have hmem := hdir.2 q₁ q₂' (List.append_inj_left' hq rfl) hne
      cases hkeeps _ hmem hpre _ m _ rfl ⟨b, hbase, hm⟩ hsym
  rw [World.resolve_append hbase hno] at hres
  refine ⟨q ++ [name], rfl, ?_, ⟨b, hbase, hres⟩, ?_⟩
  · intro name' hname'
    rcases List.mem_append.mp hname' with hold | hnew
    · exact hdir.1 name' hold
    · rwa [List.mem_singleton.mp hnew]
  · obtain ⟨n, hn⟩ := Option.isSome_iff_exists.mp hi
    have htype := hkeeps _ hfile (List.prefix_refl _) _ i n rfl ⟨b, hbase, hres⟩ hn
    cases n with
    | file data => exact ⟨data, hn⟩
    | dir | symlink | special => cases htype

/-! ### The runs -/

variable {width : Width} {interfere : World → World → Prop}

/-- An entry of a directory at `base ++ q`, with its type among those seen if it was told one. -/
structure VettedEntry (base : Path) (seen : List (Path × FileType)) (q : Path) (e : DirEntry) : Prop where
  root_eq : e.root = base ++ q
  proper : Proper e.name
  told : ∀ t, e.dType = some t → (e.path, t) ∈ seen

theorem VettedEntry.mono {q : Path} {e : DirEntry} (h : VettedEntry base seen q e) (hsub : seen ⊆ seen') :
    VettedEntry base seen' q e :=
  ⟨h.root_eq, h.proper, fun t ht => hsub (h.told t ht)⟩

def VettedStream (base : Path) (seen : List (Path × FileType)) (q : Path) (entries : ReadDir) : Prop :=
  entries.root = base ++ q ∧ ∀ e ∈ entries.buffer, VettedEntry base seen q e

/-- What a stream hands out was told by the calls so far, whenever the entries were read. -/
theorem VettedStream.next {q : Path} {entries entries' : ReadDir} {entry : DirEntry}
    (hstream : VettedStream base seen q entries)
    (h : (fileEnv interfere).Runs entries.next w tr (.ok (some (entry, entries'))) w') :
    VettedEntry base (seen ++ checkedTypes tr) q entry ∧
      VettedStream base (seen ++ checkedTypes tr) q entries' := by
  obtain ⟨hroot, hbuffer⟩ := hstream
  unfold ReadDir.next at h
  cases hb : entries.buffer with
  | cons first buffer =>
      rw [hb] at h hbuffer
      obtain ⟨rfl, hret, _⟩ := Env.runs_ret_iff.mp h
      cases hret
      have hsub : seen ⊆ seen ++ checkedTypes [] := List.subset_append_left _ _
      obtain ⟨hfirst, hrest⟩ := List.forall_mem_cons.mp hbuffer
      exact ⟨hfirst.mono hsub, hroot, fun e he => (hrest e he).mono hsub⟩
  | nil =>
      rw [hb] at h
      obtain ⟨w₁, w₂, found, tr', _, ⟨rfl, hans⟩, rfl, hrest⟩ := runs_sys_bind_ok_iff.mp h
      have hfound : ∀ e ∈ found,
          VettedEntry base (seen ++ checkedTypes [⟨w₂, .getdents entries, .ok found⟩]) q e := by
        intro e he
        obtain ⟨_, hentry, hdot, hdotDot, _⟩ := hans found rfl e he
        refine ⟨hentry.trans hroot, ⟨hdot, hdotDot⟩, fun t ht => ?_⟩
        rw [checkedTypes, List.flatMap_singleton]
        exact List.mem_append_right _ (List.mem_filterMap.mpr ⟨e, he, by rw [ht]; rfl⟩)
      cases found with
      | nil =>
          obtain ⟨_, hret, _⟩ := Env.runs_ret_iff.mp hrest
          cases hret
      | cons first buffer =>
          obtain ⟨rfl, hret, _⟩ := Env.runs_ret_iff.mp hrest
          cases hret
          obtain ⟨hfirst, hrest⟩ := List.forall_mem_cons.mp hfound
          exact ⟨hfirst, hroot, hrest⟩

theorem VettedEntry.fileType {q : Path} {entry : DirEntry} {t : FileType}
    (hentry : VettedEntry base seen q entry)
    (h : (fileEnv interfere).Runs entry.fileType w tr (.ok t) w') :
    (entry.path, t) ∈ seen ++ checkedTypes tr := by
  unfold DirEntry.fileType at h
  cases ht : entry.dType with
  | some told =>
      rw [ht] at h
      obtain ⟨_, hret, _⟩ := Env.runs_ret_iff.mp h
      cases hret
      exact List.mem_append_left _ (hentry.told _ ht)
  | none =>
      rw [ht] at h
      obtain ⟨w₁, _, ⟨_, _, _, ⟨⟩⟩ | ⟨_, _, rfl, hret⟩⟩ := runs_sys_iff.mp h
      cases hret
      exact List.mem_append_right _ (List.mem_singleton.mpr rfl)

/-- The walk of a vetted directory adds vetted files only, whatever happens meanwhile. -/
def VetsDir (interfere : World → World → Prop) (base : Path) (fuel : ℕ) : Prop :=
  ∀ q seen out w tr out' w', VettedDir base seen q → (∀ p ∈ out, VettedFile base seen p) →
    (fileEnv interfere).Runs (collectFiles fuel (base ++ q) out) w tr (.ok out') w' →
    ∀ p ∈ out', VettedFile base (seen ++ checkedTypes tr) p

def VetsEntries (interfere : World → World → Prop) (base : Path) (fuel : ℕ) : Prop :=
  ∀ entries q seen out w tr out' w', VettedStream base seen q entries → VettedDir base seen q →
    (∀ p ∈ out, VettedFile base seen p) →
    (fileEnv interfere).Runs (collectEntries fuel entries out) w tr (.ok out') w' →
    ∀ p ∈ out', VettedFile base (seen ++ checkedTypes tr) p

theorem vetsDir_succ {fuel : ℕ} (hentries : VetsEntries interfere base fuel) :
    VetsDir interfere base (fuel + 1) := by
  intro q seen out w tr out' w' hq hout h
  obtain ⟨w₁, w₂, entries, tr', _, ⟨rfl, hans⟩, rfl, hrest⟩ := runs_sys_bind_ok_iff.mp h
  obtain ⟨_, hroot, _, hbuffer, _⟩ := hans _ rfl
  have hstream : VettedStream base seen q entries := ⟨hroot, by rw [hbuffer]; exact List.forall_mem_nil _⟩
  exact hentries entries q seen out _ tr' out' w' hstream hq hout hrest

theorem vetsEntries_succ {fuel : ℕ} (hdir : VetsDir interfere base fuel)
    (hentries : VetsEntries interfere base fuel) : VetsEntries interfere base (fuel + 1) := by
  intro entries q seen out w tr out' w' hstream hq hout h
  obtain ⟨next, w₁, tr₁, tr₂, hnext, h₁, rfl⟩ := Env.runs_bind_ok_iff.mp h
  cases next with
  | none =>
      obtain ⟨rfl, hret, _⟩ := Env.runs_ret_iff.mp h₁
      cases hret
      exact fun p hp => (hout p hp).mono (List.subset_append_left _ _)
  | some next =>
      obtain ⟨entry, entries'⟩ := next
      obtain ⟨hentry, hstream₁⟩ := hstream.next hnext
      obtain ⟨t, w₂, tr₃, tr₄, htype, h₂, rfl⟩ := Env.runs_bind_ok_iff.mp h₁
      have hmem := hentry.fileType htype
      have hpath : entry.path = base ++ (q ++ [entry.name]) := by
        rw [DirEntry.path, hentry.root_eq, List.append_assoc]
      rw [checkedTypes_append, checkedTypes_append, ← List.append_assoc, ← List.append_assoc]
      have hsub₁ := List.subset_append_left (seen ++ checkedTypes tr₁) (checkedTypes tr₃)
      have hsub : seen ⊆ seen ++ checkedTypes tr₁ ++ checkedTypes tr₃ :=
        List.Subset.trans (List.subset_append_left _ _) hsub₁
      generalize seen ++ checkedTypes tr₁ ++ checkedTypes tr₃ = seen' at hmem hsub₁ hsub ⊢
      have hstream' : VettedStream base seen' q entries' :=
        ⟨hstream₁.1, fun e he => (hstream₁.2 e he).mono hsub₁⟩
      have hout' : ∀ p ∈ out, VettedFile base seen' p := fun p hp => (hout p hp).mono hsub
      cases t with
      | symlink | special => obtain ⟨_, ⟨⟩, _⟩ := runs_throw_iff.mp h₂
      | file =>
          refine hentries _ q _ _ _ _ _ _ hstream' (hq.mono hsub) ?_ h₂
          intro p hp
          rcases List.mem_append.mp hp with hold | hnew
          · exact hout' p hold
          · obtain rfl := List.mem_singleton.mp hnew
            exact ⟨q, entry.name, hpath, hq.mono hsub, hentry.proper, hmem⟩
      | dir =>
          obtain ⟨out₁, w₃, t₁, t₂, hwalk, hrest, rfl⟩ := Env.runs_bind_ok_iff.mp h₂
          have hq' : VettedDir base seen' (q ++ [entry.name]) :=
            (hq.mono hsub).snoc hentry.proper (hpath ▸ hmem)
          rw [hpath] at hwalk
          have hout₁ := hdir _ _ _ _ _ _ _ hq' hout' hwalk
          have hlater := List.subset_append_left seen' (checkedTypes t₁)
          rw [checkedTypes_append, ← List.append_assoc]
          exact hentries _ q _ _ _ _ _ _ ⟨hstream'.1, fun e he => (hstream'.2 e he).mono hlater⟩
            ((hq.mono hsub).mono hlater) hout₁ hrest

theorem vets (fuel : ℕ) : VetsDir interfere base fuel ∧ VetsEntries interfere base fuel := by
  induction fuel with
  | zero =>
      constructor
      · intro q seen out w tr out' w' _ _ h
        obtain ⟨_, ⟨⟩, _⟩ := Env.runs_fail_iff.mp h
      · intro entries q seen out w tr out' w' _ _ _ h
        obtain ⟨_, ⟨⟩, _⟩ := Env.runs_fail_iff.mp h
  | succ fuel ih => exact ⟨vetsDir_succ ih.2, vetsEntries_succ ih.1 ih.2⟩

theorem runs_mapFiles_opens {maxFile maxTotal total : ℕ} {paths : List Path}
    {mappings out : List MmapRegion}
    (h : (fileEnv interfere).Runs (mapFiles width maxFile maxTotal paths total mappings) w tr
      (.ok out) w') :
    ∀ region ∈ out, region ∈ mappings ∨ region.path ∈ paths ∧
      ∃ w₁ file tr₁ tr₂, tr = tr₁ ++ ⟨w₁, .openFile region.path, .ok file⟩ :: tr₂ ∧
        region.mmap.ino = file.ino ∧ w₁.answers (.openFile region.path) file := by
  induction paths generalizing total mappings w tr with
  | nil =>
      obtain ⟨_, hret, _⟩ := Env.runs_ret_iff.mp h
      cases hret
      exact fun region hr => .inl hr
  | cons path paths ih =>
      obtain ⟨⟨total', region⟩, w₁, t₁, t₂, hone, hrest, rfl⟩ := Env.runs_bind_ok_iff.mp h
      obtain ⟨file, _, _, _, w₂, _, _, _, _, ht₁, _, hopen, _, _, hmapped, _, _, rfl, _⟩ :=
        runs_mapFile_ok hone
      intro region' hr
      rcases ih hrest region' hr with hold | ⟨hpath, w₃, file', t₃, t₄, rfl, hino, hans⟩
      · rcases List.mem_append.mp hold with hold | hnew
        · exact .inl hold
        · obtain rfl := List.mem_singleton.mp hnew
          obtain ⟨later, rfl⟩ : ∃ later, t₁ = ⟨w₂, .openFile region'.path, .ok file⟩ :: later :=
            ⟨_, ht₁⟩
          exact .inr ⟨List.mem_cons_self, w₂, file, [], later ++ t₂, rfl, hmapped.mapped.1, hopen⟩
      · exact .inr ⟨List.mem_cons_of_mem _ hpath, w₃, file', t₁ ++ t₃, t₄,
          by rw [List.append_assoc], hino, hans⟩

/-- In every run against a tampering process in which the checks still hold at each open, every mapped
region is a regular file reached from the base through directories only. -/
theorem openWithLimits_fromBelow (width : Width) (fuel maxFile maxTotal : ℕ) {corpus : MmapCorpus}
    (h : (fileEnv (Tampers base)).Runs (openWithLimits width fuel base maxFile maxTotal) w tr
      (.ok corpus) w') (hchecks : ChecksHold base tr) :
    ∀ region ∈ corpus.mappings, region.FromBelow base tr := by
  obtain ⟨paths, w₁, tr₁, tr₂, rfl, _, hwalk, hmap⟩ := runs_openWithLimits_ok h
  have hvets := (vets fuel).1 [] [] [] w tr₁ paths w₁ vettedDir_nil (by simp)
    (by rwa [List.append_nil])
  rw [List.nil_append] at hvets
  intro region hr
  rcases runs_mapFiles_opens hmap region hr with hnil | ⟨hpath, w₂, file, t₁, t₂, rfl, hino, hans⟩
  · cases hnil
  have hmem : region.path ∈ paths := (List.mergeSort_perm paths _).mem_iff.mp hpath
  refine ⟨w₂, file, by simp, hino, ?_⟩
  refine (hvets _ hmem).regularBelow ?_ hans.1 hans.2
  intro x hx hpre
  refine hchecks (tr₁ ++ t₁) _ t₂ _ (by rw [List.append_assoc]) rfl x ?_ hpre
  rw [checkedTypes_append]
  exact List.mem_append_left _ hx

theorem runs_openWithLimits_untouched :
    ∃ tr corpus, (fileEnv (Tampers [])).Runs (openWithLimits .w64 3 [] 1 1)
      (singleFile [97] ⟨[7], by decide⟩) tr (.ok corpus) (singleFile [97] ⟨[7], by decide⟩) ∧
      corpus.mappings.map MmapRegion.path = [[[97]]] ∧
      (∀ c ∈ tr, c.state = singleFile [97] ⟨[7], by decide⟩) ∧
      checkedTypes tr = [([[97]], .file)] := by
  refine ⟨_, _, runs_openWithLimits_of_ok (runs_collectFiles_quiet _ (by decide) (by decide))
    (runs_mapFiles_quiet rfl rfl (by decide) (by decide) (by decide)), rfl, ?_, rfl⟩
  intro c hc
  rcases List.mem_append.mp hc with hc | hc
  · simp only [quietWalk, List.mem_cons, List.not_mem_nil, or_false] at hc
    rcases hc with rfl | rfl | rfl <;> rfl
  · exact quietCalls_state c hc

theorem openWithLimits_fromBelow_untouched :
    ∃ tr corpus, (fileEnv (Tampers [])).Runs (openWithLimits .w64 3 [] 1 1)
      (singleFile [97] ⟨[7], by decide⟩) tr (.ok corpus) (singleFile [97] ⟨[7], by decide⟩) ∧
      corpus.mappings.map MmapRegion.path = [[[97]]] ∧
      ∀ region ∈ corpus.mappings, region.FromBelow [] tr := by
  obtain ⟨tr, corpus, h, hpaths, hstates, hchecks⟩ := runs_openWithLimits_untouched
  refine ⟨tr, corpus, h, hpaths, openWithLimits_fromBelow .w64 3 1 1 h ?_⟩
  rintro tr₁ c tr₂ path rfl _ x hx _ q i n hq ⟨b, hb, hi⟩ hn
  rw [checkedTypes_append] at hchecks
  have hmem := hchecks ▸ List.mem_append_left _ hx
  obtain rfl := List.mem_singleton.mp hmem
  rw [hstates c (by simp)] at hb hi hn
  cases hb
  cases hq
  cases hi
  cases hn
  rfl

def plainWorld : World where
  root := 0
  dev := fun _ => 0
  node := fun i =>
    if i = 0 then some (.dir 0 [([98], 1), ([111], 2)])
    else if i = 1 then some (.dir 0 [([100], 3)])
    else if i = 2 then some (.dir 0 [([102], 4)])
    else if i = 3 then some (.dir 1 [])
    else if i = 4 then some (.file ⟨[7], by decide⟩) else none

def redirectedWorld : World :=
  (plainWorld.setNode 5 (.symlink true [[111]])).setNode 1 (.dir 0 [([100], 5)])

theorem tampers_redirected : ReflTransGen (Tampers [[98]]) plainWorld redirectedWorld := by
  refine .tail (.single (.makeSymlink true [[111]] (i := 5) rfl))
    (.relink (q := []) ⟨1, rfl, rfl⟩ rfl ?_)
  simp only [List.forall_mem_cons, List.not_mem_nil, false_imp_iff, implies_true, and_true]
  exact .inr (.inl ⟨true, _, rfl⟩)

/-- The directory is replaced after the walk has read its entry, and before the descent. -/
theorem runs_openWithLimits_redirected :
    ∃ tr region, (fileEnv (Tampers [[98]])).Runs (openWithLimits .w64 5 [[98]] 1 1) plainWorld tr
      (.ok ⟨[[98]], [region]⟩) redirectedWorld ∧ region.path = [[98], [100], [102]] ∧
      region.mmap.ino = 4 ∧ ∀ c ∈ tr, c.op = .openFile region.path → c.state = redirectedWorld := by
  have hwalk : ∃ tr, (fileEnv (Tampers [[98]])).Runs (collectFiles 5 [[98]] []) plainWorld tr
      (.ok [[[98], [100], [102]]]) redirectedWorld := by
    refine ⟨_, .ask .refl (serve_ok (.readDir [[98]]) ⟨1, [[98]], [], []⟩ ⟨rfl, rfl, rfl, rfl, 0, _, rfl⟩) <|
      .ask .refl (serve_ok (.getdents ⟨1, [[98]], [], []⟩) [⟨1, [[98]], [100], some .dir⟩] ?_) <|
      .ask tampers_redirected (serve_ok (.readDir [[98], [100]]) ⟨2, [[98], [100]], [], []⟩
        ⟨rfl, rfl, rfl, rfl, 0, _, rfl⟩) <|
      .ask .refl (serve_ok (.getdents ⟨2, [[98], [100]], [], []⟩)
        [⟨2, [[98], [100]], [102], some .file⟩] ?_) <|
      .ask .refl (serve_ok (.getdents ⟨2, [[98], [100]], [[102]], []⟩) [] (List.forall_mem_nil _)) <|
      .ask .refl (serve_ok (.getdents ⟨1, [[98]], [[100]], []⟩) [] (List.forall_mem_nil _)) (.ret _ _)⟩
    · refine List.forall_mem_singleton.mpr
        ⟨rfl, rfl, by decide, by decide, 3, rfl, ?_⟩
      rintro _ ⟨⟩
      exact ⟨_, rfl, rfl⟩
    · refine List.forall_mem_singleton.mpr
        ⟨rfl, rfl, by decide, by decide, 4, rfl, ?_⟩
      rintro _ ⟨⟩
      exact ⟨_, rfl, rfl⟩
  obtain ⟨tr, hwalk⟩ := hwalk
  refine ⟨_, _, runs_openWithLimits_of_ok hwalk
    (runs_mapFiles_quiet rfl rfl (by decide) (by decide) (by decide)), rfl, rfl, ?_⟩
  intro c hc hop
  rcases List.mem_append.mp hc with hc | hc
  · have hwalkOp := hwalk.ops_only ((collect_only 5).1 _ _) c hc
    rw [hop] at hwalkOp
    cases hwalkOp
  · exact quietCalls_state c hc

theorem not_openWithLimits_fromBelow :
    ¬ ∀ width fuel maxFile maxTotal base w tr corpus w',
      (fileEnv (Tampers base)).Runs (openWithLimits width fuel base maxFile maxTotal) w tr (.ok corpus) w' →
        ∀ region ∈ corpus.mappings, region.FromBelow base tr := by
  intro hclaim
  obtain ⟨tr, region, h, hpath, hino, hstates⟩ := runs_openWithLimits_redirected
  obtain ⟨w, file, hmem, hfile, q, hq, _, hfinds, _⟩ :=
    hclaim _ _ _ _ _ _ _ _ _ h region (List.mem_singleton.mpr rfl)
  have hw : w = redirectedWorld := hstates _ hmem rfl
  subst hw
  rw [hpath] at hq
  cases hq
  obtain ⟨b, hb, hlook⟩ := hfinds
  cases hb
  cases hlook

end KernelKit
