import KernelKit.Corpus
import KernelKit.NamedTree
import KernelKit.PathResolution
import Mathlib.Data.List.Nodup

/-!
# The walk of a tree that does not change

Against a file system in which nothing under the base directory changes, the collected paths are those
of the regular files of the tree in some order that depends on the enumeration of the directories.
Sorted, they are in the order of the depth-first walk, and each is mapped with its contents.
-/

namespace KernelKit
open Interaction Relation NamedTree

/-- A directory tree as a corpus sees it: symbolic links and special files are `other`. -/
abbrev DirTree := Tree Name FileData

abbrev Entries := List (Name × DirTree)

/-- The file system holds the tree `t` at the inode `i`, each directory listing it in its own order. -/
inductive World.Holds (w : World) : Ino → DirTree → Prop
  | file {i : Ino} {data : FileData} : w.node i = some (.file data) → Holds w i (.file data)
  | other {i : Ino} {n : Node} : w.node i = some n →
      n.fileType = .symlink ∨ n.fileType = .special → Holds w i .other
  | dir {i parent : Ino} {es : List (Name × Ino)} {entries : Entries} (child : Name → Ino) :
      w.node i = some (.dir parent es) → (∀ e ∈ es, e.1 ∈ entries.map Prod.fst) →
      (∀ e ∈ entries, e.1 ≠ dot ∧ e.1 ≠ dotDot ∧ es.lookup e.1 = some (child e.1)) →
      (∀ e ∈ entries, Holds w (child e.1) e.2) → Holds w i (.dir entries)

/-- What another process does leaves everything below `base` as it is. -/
def Undisturbed (base : Path) (w w' : World) : Prop :=
  ∀ q i, w.Finds base q i → w'.Finds base q i ∧ w'.node i = w.node i ∧ w'.dev i = w.dev i

/-- The file system in which nothing below `base` changes, so that its directories are read in full. -/
def treeEnv (base : Path) : Env World FileOp (Answer FileOp.Res) where
  serve op w answer w' :=
    w' = w ∧ ∀ value, answer = .ok value → w.answers op value ∧ w.enumerates op value
  interfere := Undisturbed base

variable {base : Path} {w w₁ w₂ : World} {tr : List FileCall}

theorem runs_of_tree {α : Type} {p : FileProg α} {r : Except Exit α}
    (h : (treeEnv base).Runs p w tr r w₂) : (fileEnv (Undisturbed base)).Runs p w tr r w₂ := by
  refine Env.Runs.mono (E := treeEnv base) p.only_true (fun op s x s' _ hserve => ?_) (fun _ _ => id) h
  exact ⟨hserve.1, fun value hvalue => (hserve.2 value hvalue).1⟩

theorem tree_of_runs {α : Type} {p : FileProg α} {r : Except Exit α}
    (hp : p.Only fun op => ¬ IsWalkOp op) (h : (fileEnv (Undisturbed base)).Runs p w tr r w₂) :
    (treeEnv base).Runs p w tr r w₂ := by
  refine Env.Runs.mono (E := fileEnv (Undisturbed base)) hp (fun op s x s' hop hserve => ?_) (fun _ _ => id) h
  refine ⟨hserve.1, fun value hvalue => ⟨hserve.2 value hvalue, ?_⟩⟩
  cases op with
  | getdents => exact absurd trivial hop
  | openFile | metadata | fileLen | mmap | madvise | readDir | entryType => trivial

theorem Undisturbed.refl (base : Path) (w : World) : Undisturbed base w w :=
  fun _ _ h => ⟨h, rfl, rfl⟩

theorem Undisturbed.trans (h : Undisturbed base w w₁) (h' : Undisturbed base w₁ w₂) :
    Undisturbed base w w₂ := by
  intro q i hi
  obtain ⟨hi₁, hn₁, hd₁⟩ := h q i hi
  obtain ⟨hi₂, hn₂, hd₂⟩ := h' q i hi₁
  exact ⟨hi₂, hn₂.trans hn₁, hd₂.trans hd₁⟩

theorem Undisturbed.many (h : Undisturbed base w w₁) (h' : ReflTransGen (Undisturbed base) w₁ w₂) :
    Undisturbed base w w₂ := by
  induction h' with
  | refl => exact h
  | tail _ hstep ih => exact ih.trans hstep

theorem World.Holds.not_isSymlink {i : Ino} {t : DirTree} (h : w.Holds i t) (ht : t ≠ .other) :
    ¬ w.IsSymlink i := by
  rintro ⟨absolute, target, hsym⟩
  cases h with
  | file hn => rw [hn] at hsym; cases hsym
  | other => exact ht rfl
  | dir child hn => rw [hn] at hsym; cases hsym

theorem Undisturbed.resolve {q : Path} {i : Ino} (h : Undisturbed base w w₁)
    (hi : w.Finds base q i) (hsym : ¬ w.IsSymlink i) : w₁.resolve (base ++ q) = some i := by
  obtain ⟨hi₁, hn, _⟩ := h q i hi
  apply hi₁.resolve
  rwa [World.IsSymlink, hn]

theorem lookup_entry {i j parent : Ino} {es : List (Name × Ino)} {name : Name}
    (hn : w.node i = some (.dir parent es))
    (hname : name ≠ dot ∧ name ≠ dotDot ∧ es.lookup name = some j) : w.lookup i name = some j := by
  rw [World.lookup, hn]
  simp only [hname, if_false]

theorem mem_walkEntries {path : Path} {entries : Entries} {x : Path × FileData}
    (h : x ∈ Tree.walkEntries path entries) : ∃ e ∈ entries, x ∈ e.2.walk (path ++ [e.1]) := by
  induction entries with
  | nil => cases h
  | cons e entries ih =>
      rcases List.mem_append.mp h with h | h
      · exact ⟨e, List.mem_cons_self, h⟩
      · obtain ⟨e', he', hx⟩ := ih h
        exact ⟨e', List.mem_cons_of_mem _ he', hx⟩

/-- Every file of the walk is found by its path. -/
theorem World.Holds.walk_finds {i : Ino} {t : DirTree} (h : w.Holds i t) {q : Path}
    (hq : w.Finds base q i) : ∀ x ∈ t.walk (base ++ q),
      ∃ q' j, x.1 = base ++ q' ∧ w.Finds base q' j ∧ w.node j = some (.file x.2) := by
  induction h generalizing q with
  | @file i data hn =>
      intro x hx
      obtain rfl := List.mem_singleton.mp hx
      exact ⟨q, i, rfl, hq, hn⟩
  | other => exact fun x hx => absurd hx List.not_mem_nil
  | dir child hn _ hentry _ ih =>
      intro x hx
      obtain ⟨e, he, hx⟩ := mem_walkEntries hx
      rw [List.append_assoc] at hx
      exact ih e he (hq.child (lookup_entry hn (hentry e he))) x hx

/-! ### Collecting the paths -/

/-- The end of a walk over `rest`: the paths of its files in some order, or an error if there is
anything but files and directories. -/
def Collected (dir : Path) (rest : Entries) (out : List Path) (r : Except Exit (List Path)) : Prop :=
  (Tree.Clean (.dir rest) ∧ ∃ new, r = .ok (out ++ new) ∧
      new.Perm ((Tree.walkEntries dir rest).map Prod.fst)) ∨
    ¬ Tree.Clean (.dir rest) ∧ ∃ e, r = .error (.err e)

theorem mem_of_lookup {es : List (Name × Ino)} {name : Name} {i : Ino} (h : es.lookup name = some i) :
    (name, i) ∈ es := by
  obtain ⟨l₁, l₂, rfl, _⟩ := List.lookup_eq_some_iff.mp h
  exact List.mem_append_right _ List.mem_cons_self

/-- An open directory of the tree of which the entries `rest` have not been handed out. -/
structure Listing (base : Path) (w : World) (entries : ReadDir) (rest : Entries) where
  parent : Ino
  es : List (Name × Ino)
  child : Name → Ino
  below : Path
  root_eq : entries.root = base ++ below
  finds : w.Finds base below entries.ino
  node : w.node entries.ino = some (.dir parent es)
  left : ∀ e ∈ es, e.1 ∈ entries.seen ∨ e.1 ∈ rest.map Prod.fst
  read : ∀ e ∈ rest, e.1 ∈ entries.seen → e.1 ∈ entries.buffer.map DirEntry.name
  buffered : ∀ e ∈ entries.buffer, w.ReadsEntry entries e ∧ e.name ∈ entries.seen ∧
    e.name ∈ rest.map Prod.fst
  nodup_buffer : (entries.buffer.map DirEntry.name).Nodup
  nodup : (rest.map Prod.fst).Nodup
  entry : ∀ e ∈ rest, e.1 ≠ dot ∧ e.1 ≠ dotDot ∧ es.lookup e.1 = some (child e.1)
  holds : ∀ e ∈ rest, w.Holds (child e.1) e.2
  ordered : ∀ e ∈ rest, e.2.Ordered

theorem mem_middle_of_mem {a b : Entries} {e e' : Name × DirTree} (h : e ∈ a ++ b) :
    e ∈ a ++ e' :: b :=
  List.mem_append.mpr ((List.mem_append.mp h).imp_right (List.mem_cons_of_mem _))

theorem mem_map_middle {a b : Entries} {name name' : Name} {t : DirTree}
    (h : name' ∈ (a ++ (name, t) :: b).map Prod.fst) : name' = name ∨ name' ∈ (a ++ b).map Prod.fst := by
  simp only [List.map_append, List.map_cons, List.mem_append, List.mem_cons] at h ⊢
  tauto

theorem nodup_middle {a b : Entries} {name : Name} {t : DirTree}
    (h : ((a ++ (name, t) :: b).map Prod.fst).Nodup) :
    name ∉ (a ++ b).map Prod.fst ∧ ((a ++ b).map Prod.fst).Nodup := by
  rw [List.map_append, List.map_cons, List.nodup_middle, List.nodup_cons] at h
  rwa [List.map_append]

def Listing.advance {entries : ReadDir} {first : DirEntry} {buffer : List DirEntry} {a b : Entries}
    {t : DirTree} (h : Listing base w entries (a ++ (first.name, t) :: b))
    (hbuffer : entries.buffer = first :: buffer) :
    Listing base w { entries with buffer := buffer } (a ++ b) where
  parent := h.parent
  es := h.es
  child := h.child
  below := h.below
  root_eq := h.root_eq
  finds := h.finds
  node := h.node
  left := by
    have hseen : first.name ∈ entries.seen :=
      (h.buffered first (hbuffer ▸ List.mem_cons_self)).2.1
    intro e he
    rcases h.left e he with hold | hrest
    · exact .inl hold
    · rcases mem_map_middle hrest with hname | hrest
      · exact .inl (hname ▸ hseen)
      · exact .inr hrest
  read := by
    intro e he hseen
    have hread := h.read e (mem_middle_of_mem he) hseen
    rw [hbuffer, List.map_cons, List.mem_cons] at hread
    refine hread.resolve_left fun hname => (nodup_middle h.nodup).1 ?_
    exact hname ▸ List.mem_map.mpr ⟨e, he, rfl⟩
  buffered := by
    have hnodup := h.nodup_buffer
    rw [hbuffer, List.map_cons, List.nodup_cons] at hnodup
    intro e he
    obtain ⟨hentry, hseen, hrest⟩ := h.buffered e (hbuffer ▸ List.mem_cons_of_mem _ he)
    refine ⟨hentry, hseen, (mem_map_middle hrest).resolve_left fun hname => hnodup.1 ?_⟩
    exact hname ▸ List.mem_map.mpr ⟨e, he, rfl⟩
  nodup_buffer := by
    have hnodup := h.nodup_buffer
    rw [hbuffer, List.map_cons, List.nodup_cons] at hnodup
    exact hnodup.2
  nodup := (nodup_middle h.nodup).2
  entry e he := h.entry e (mem_middle_of_mem he)
  holds e he := h.holds e (mem_middle_of_mem he)
  ordered e he := h.ordered e (mem_middle_of_mem he)

theorem exists_listing {q : Path} {i : Ino} {rest : Entries} (hi : w.Finds base q i)
    (hholds : w.Holds i (.dir rest)) (hord : (Tree.dir rest).Ordered) :
    Nonempty (Listing base w ⟨i, base ++ q, [], []⟩ rest) := by
  obtain ⟨hnames, hsub⟩ := Tree.ordered_dir_iff.mp hord
  cases hholds with
  | dir child hn hleft hentry hholds =>
      refine ⟨⟨_, _, _, q, rfl, hi, hn, fun e he => .inr (hleft e he), ?_, List.forall_mem_nil _, .nil, ?_,
        hentry, hholds, hsub⟩⟩
      · exact fun e _ hseen => absurd hseen List.not_mem_nil
      · exact List.pairwise_map.mpr (hnames.imp fun h => ne_of_lt h)

theorem Listing.finds_entry {entries : ReadDir} {rest : Entries} (h : Listing base w entries rest)
    {e : Name × DirTree} (he : e ∈ rest) : w.Finds base (h.below ++ [e.1]) (h.child e.1) :=
  h.finds.child (lookup_entry h.node (h.entry e he))

theorem Listing.lookup {entries : ReadDir} {rest : Entries} (h : Listing base w entries rest)
    (hund : Undisturbed base w w₁) {e : Name × DirTree} (he : e ∈ rest) {i : Ino}
    (hlook : (w₁.entries entries.ino).lookup e.1 = some i) :
    i = h.child e.1 ∧ w₁.node i = w.node i := by
  rw [World.entries, (hund _ _ h.finds).2.1, h.node] at hlook
  obtain rfl : h.child e.1 = i := Option.some.inj ((h.entry e he).2.2.symm.trans hlook)
  exact ⟨rfl, (hund _ _ (h.finds_entry he)).2.1⟩

/-- What a read of an undisturbed directory finds are names that are left. -/
def Listing.fill {entries : ReadDir} {rest : Entries} {found : List DirEntry}
    (h : Listing base w entries rest) (hbuffer : entries.buffer = []) (hund : Undisturbed base w w₁)
    (hans : w₁.answers (.getdents entries) found) (henum : w₁.enumerates (.getdents entries) found) :
    Listing base w
      { entries with seen := entries.seen ++ found.map DirEntry.name, buffer := found } rest where
  parent := h.parent
  es := h.es
  child := h.child
  below := h.below
  root_eq := h.root_eq
  finds := h.finds
  node := h.node
  left e he := (h.left e he).imp_left (List.mem_append_left _)
  read := by
    intro e he hseen
    rcases List.mem_append.mp hseen with hold | hfound
    · have hnone := h.read e he hold
      rw [hbuffer] at hnone
      cases hnone
    · exact hfound
  buffered := by
    intro e he
    obtain ⟨hdir, hroot, hdot, hdotDot, i, hlook, htype⟩ := hans e he
    have hmem : (e.name, i) ∈ h.es := by
      rw [World.entries, (hund _ _ h.finds).2.1, h.node] at hlook
      exact mem_of_lookup hlook
    have hrest := (h.left _ hmem).resolve_left (henum.2.1 e he)
    obtain ⟨⟨name, t⟩, hname, heq⟩ := List.mem_map.mp hrest
    obtain rfl : name = e.name := heq
    obtain ⟨rfl, hnode⟩ := h.lookup hund hname hlook
    rw [hnode] at htype
    refine ⟨⟨hdir, hroot, hdot, hdotDot, _, ?_, htype⟩,
      List.mem_append_right _ (List.mem_map.mpr ⟨e, he, rfl⟩), hrest⟩
    rw [World.entries, h.node]
    exact (h.entry _ hname).2.2
  nodup_buffer := henum.1
  nodup := h.nodup
  entry := h.entry
  holds := h.holds
  ordered := h.ordered

/-- A read that finds nothing finds nothing left. -/
theorem Listing.rest_eq_nil {entries : ReadDir} {rest : Entries} (h : Listing base w entries rest)
    (hbuffer : entries.buffer = []) (hund : Undisturbed base w w₁)
    (henum : w₁.enumerates (.getdents entries) []) : rest = [] := by
  apply List.eq_nil_iff_forall_not_mem.mpr
  intro e he
  have hes : (e.1, h.child e.1) ∈ w₁.entries entries.ino := by
    rw [World.entries, (hund _ _ h.finds).2.1, h.node]
    exact mem_of_lookup (h.entry e he).2.2
  have hnone := h.read e he (henum.2.2 rfl _ hes)
  rw [hbuffer] at hnone
  cases hnone

theorem Listing.exists_middle {entries : ReadDir} {rest : Entries} (h : Listing base w entries rest)
    {first : DirEntry} {buffer : List DirEntry} (hbuffer : entries.buffer = first :: buffer) :
    ∃ a b t, rest = a ++ (first.name, t) :: b := by
  have hrest := (h.buffered first (hbuffer ▸ List.mem_cons_self)).2.2
  obtain ⟨⟨name, t⟩, he, heq⟩ := List.mem_map.mp hrest
  obtain rfl : name = first.name := heq
  obtain ⟨a, b, hab⟩ := List.append_of_mem he
  exact ⟨a, b, t, hab⟩

/-- How the loop of the walk goes on: at its end nothing is left, and else with an entry that is. -/
inductive Listing.Next (base : Path) (w : World) (entries : ReadDir) (rest : Entries) :
    Option (DirEntry × ReadDir) → Prop
  | ends : rest = [] → Next base w entries rest none
  | entry {entry : DirEntry} {entries' : ReadDir} {a b : Entries} {t : DirTree} :
      rest = a ++ (entry.name, t) :: b → entries'.root = entries.root → w.ReadsEntry entries entry →
      Nonempty (Listing base w entries' (a ++ b)) → Next base w entries rest (some (entry, entries'))

theorem Listing.next_of_buffer {entries : ReadDir} {rest : Entries} (h : Listing base w entries rest)
    {first : DirEntry} {buffer : List DirEntry} (hbuffer : entries.buffer = first :: buffer) :
    Listing.Next base w entries rest (some (first, { entries with buffer := buffer })) := by
  obtain ⟨a, b, t, rfl⟩ := h.exists_middle hbuffer
  exact .entry rfl rfl (h.buffered first (hbuffer ▸ List.mem_cons_self)).1 ⟨h.advance hbuffer⟩

/-- The next entry, whether it was read ahead or is read now. -/
theorem Listing.runs_next {entries : ReadDir} {rest : Entries}
    {r : Except Exit (Option (DirEntry × ReadDir))} (h : Listing base w entries rest)
    (hund : Undisturbed base w w₁) (hrun : (treeEnv base).Runs entries.next w₁ tr r w₂)
    (hok : OnlyHintFails tr) : ∃ next, r = .ok next ∧ Listing.Next base w entries rest next := by
  unfold ReadDir.next at hrun
  cases hbuffer : entries.buffer with
  | cons first buffer =>
      rw [hbuffer] at hrun
      obtain ⟨_, rfl, _⟩ := Env.runs_ret_iff.mp hrun
      exact ⟨_, rfl, h.next_of_buffer hbuffer⟩
  | nil =>
      rw [hbuffer] at hrun
      obtain ⟨w₃, _, found, tr', hrely, ⟨rfl, hans⟩, hrest, _, rfl⟩ :=
        runs_sys_bind_of_onlyHintFails (by rintro m ⟨⟩) hrun hok
      obtain ⟨hans, henum⟩ := hans found rfl
      have hund₃ := hund.many hrely
      cases found with
      | nil =>
          obtain ⟨_, rfl, _⟩ := Env.runs_ret_iff.mp hrest
          exact ⟨none, rfl, .ends (h.rest_eq_nil hbuffer hund₃ henum)⟩
      | cons first buffer =>
          obtain ⟨_, rfl, _⟩ := Env.runs_ret_iff.mp hrest
          cases (h.fill hbuffer hund₃ hans henum).next_of_buffer rfl with
          | entry hrest hroot hentry listing => exact ⟨_, rfl, .entry hrest hroot hentry listing⟩

/-- The type the walk sees of an entry is that of the inode its name leads to. -/
theorem Listing.runs_fileType {entries : ReadDir} {rest : Entries} {entry : DirEntry} {t : DirTree}
    {r : Except Exit FileType} (h : Listing base w entries rest) (hentry : w.ReadsEntry entries entry)
    (hmem : (entry.name, t) ∈ rest) (hund : Undisturbed base w w₁)
    (hrun : (treeEnv base).Runs entry.fileType w₁ tr r w₂) (hok : OnlyHintFails tr) :
    ∃ n, r = .ok n.fileType ∧ w.node (h.child entry.name) = some n := by
  obtain ⟨hdir, _, _, _, i, hlook, htold⟩ := hentry
  unfold DirEntry.fileType at hrun
  cases htype : entry.dType with
  | some told =>
      obtain ⟨n, hn, rfl⟩ := htold told htype
      rw [htype] at hrun
      obtain ⟨_, rfl, _⟩ := Env.runs_ret_iff.mp hrun
      obtain rfl := (h.lookup (.refl base w) hmem hlook).1
      exact ⟨n, rfl, hn⟩
  | none =>
      rw [htype, ← Prog.bind_ret (sys _ _)] at hrun
      obtain ⟨w₃, _, ft, tr', hrely, ⟨rfl, hans⟩, hrest, _, rfl⟩ :=
        runs_sys_bind_of_onlyHintFails (by rintro m ⟨⟩) hrun hok
      obtain ⟨_, rfl, _⟩ := Env.runs_ret_iff.mp hrest
      obtain ⟨⟨j, n, hj, hn, rfl⟩, _⟩ := hans ft rfl
      rw [hdir] at hj
      obtain ⟨rfl, hnode⟩ := h.lookup (hund.many hrely) hmem hj
      exact ⟨n, rfl, hnode.symm.trans hn⟩

/-- One name of the directory, found to be an `other`, ends the walk. -/
theorem Collected.of_other {dir : Path} {a b : Entries} {name : Name} {out : List Path} {e : Error} :
    Collected dir (a ++ (name, .other) :: b) out (.error (.err e)) :=
  .inr ⟨fun h => Tree.not_clean_other (Tree.clean_dir_middle.mp h).1, e, rfl⟩

theorem Collected.of_file {dir : Path} {a b : Entries} {name : Name} {data : FileData}
    {out : List Path} {r : Except Exit (List Path)}
    (h : Collected dir (a ++ b) (out ++ [dir ++ [name]]) r) :
    Collected dir (a ++ (name, .file data) :: b) out r := by
  rcases h with ⟨hclean, new, rfl, hperm⟩ | ⟨hclean, e, rfl⟩
  · refine .inl ⟨Tree.clean_dir_middle.mpr ⟨.file data, hclean⟩, (dir ++ [name]) :: new, ?_, ?_⟩
    · rw [List.append_assoc, List.singleton_append]
    · have hmiddle := (Tree.walkEntries_perm_middle dir a b name (.file data)).map Prod.fst
      exact (hperm.cons _).trans hmiddle.symm
  · exact .inr ⟨fun h => hclean (Tree.clean_dir_middle.mp h).2, e, rfl⟩

theorem Collected.of_dir {dir : Path} {a b sub : Entries} {name : Name} {out : List Path}
    {r r' : Except Exit (List Path)} (h : Collected (dir ++ [name]) sub out r)
    (herr : ∀ e, r = .error e → r' = .error e)
    (hok : ∀ out', r = .ok out' → Collected dir (a ++ b) out' r') :
    Collected dir (a ++ (name, .dir sub) :: b) out r' := by
  rcases h with ⟨hclean, new, rfl, hperm⟩ | ⟨hclean, e, rfl⟩
  · rcases hok _ rfl with ⟨hclean', new', rfl, hperm'⟩ | ⟨hclean', e, rfl⟩
    · refine .inl ⟨Tree.clean_dir_middle.mpr ⟨hclean, hclean'⟩, new ++ new', ?_, ?_⟩
      · rw [List.append_assoc]
      · have hmiddle := (Tree.walkEntries_perm_middle dir a b name (.dir sub)).map Prod.fst
        rw [List.map_append] at hmiddle
        exact (hperm.append hperm').trans hmiddle.symm
    · exact .inr ⟨fun h => hclean' (Tree.clean_dir_middle.mp h).2, e, rfl⟩
  · exact .inr ⟨fun h => hclean (Tree.clean_dir_middle.mp h).1, e, herr _ rfl⟩

def WalksDir (base : Path) (w : World) (fuel : ℕ) : Prop :=
  ∀ q i rest out w₁ tr r w₂, w.Finds base q i → w.Holds i (.dir rest) → (Tree.dir rest).Ordered →
    (Tree.dir rest).effort ≤ fuel → Undisturbed base w w₁ →
    (treeEnv base).Runs (collectFiles fuel (base ++ q) out) w₁ tr r w₂ →
    OnlyHintFails tr → Collected (base ++ q) rest out r

def WalksEntries (base : Path) (w : World) (fuel : ℕ) : Prop :=
  ∀ entries rest out w₁ tr r w₂, Listing base w entries rest → Tree.effortEntries rest ≤ fuel →
    Undisturbed base w w₁ →
    (treeEnv base).Runs (collectEntries fuel entries out) w₁ tr r w₂ →
    OnlyHintFails tr → Collected entries.root rest out r

theorem walksDir_succ {fuel : ℕ} (hentries : WalksEntries base w fuel) :
    WalksDir base w (fuel + 1) := by
  intro q i rest out w₁ tr r w₂ hi hholds hord hfuel hund h hok
  obtain ⟨w₃, _, entries, tr', hrely, ⟨rfl, hans⟩, h', hok', rfl⟩ :=
    runs_sys_bind_of_onlyHintFails (by rintro m ⟨⟩) h hok
  obtain ⟨⟨hino, hroot, hseen, hbuffer, _⟩, _⟩ := hans entries rfl
  have hund₃ := hund.many hrely
  rw [hund₃.resolve hi (hholds.not_isSymlink (by rintro ⟨⟩))] at hino
  cases hino
  obtain ⟨ino, root, seen, buffer⟩ := entries
  cases hroot
  cases hseen
  cases hbuffer
  obtain ⟨listing⟩ := exists_listing hi hholds hord
  rw [Tree.effort] at hfuel
  exact hentries _ _ _ _ _ _ _ listing (by omega) hund₃ h' hok'

theorem runs_tree_interfere {α : Type} {p : FileProg α} {r : Except Exit α}
    (h : (treeEnv base).Runs p w₁ tr r w₂) : ReflTransGen (Undisturbed base) w₁ w₂ :=
  h.interfered fun _ _ _ _ hserve => hserve.1

theorem walks_subdirectory {fuel : ℕ} (hdir : WalksDir base w fuel)
    (hentries : WalksEntries base w fuel) {entries entries' : ReadDir} {a b sub : Entries} {name : Name}
    {out : List Path} {r : Except Exit (List Path)}
    (listing : Listing base w entries (a ++ (name, .dir sub) :: b))
    (listing' : Listing base w entries' (a ++ b)) (hroot : entries'.root = entries.root)
    (hfuel : (Tree.dir sub).effort + Tree.effortEntries (a ++ b) ≤ fuel + 1)
    (hund : Undisturbed base w w₁)
    (h : (treeEnv base).Runs (do
      let out ← collectFiles fuel (entries.root ++ [name]) out
      collectEntries fuel entries' out) w₁ tr r w₂)
    (hok : OnlyHintFails tr) : Collected entries.root (a ++ (name, .dir sub) :: b) out r := by
  have hmem : (name, .dir sub) ∈ a ++ (name, Tree.dir sub) :: b :=
    List.mem_append_right _ List.mem_cons_self
  have hpos := Tree.effort_pos (.dir sub)
  have hpos' := Tree.effortEntries_pos (a ++ b)
  have hcollect : ∀ {t r' w'}, (treeEnv base).Runs
      (collectFiles fuel (entries.root ++ [name]) out) w₁ t r' w' → OnlyHintFails t →
      Collected (entries.root ++ [name]) sub out r' := by
    intro t r' w' hrun hokt
    rw [listing.root_eq, List.append_assoc] at hrun ⊢
    exact hdir _ _ _ _ _ _ _ _ (listing.finds_entry hmem) (listing.holds _ hmem)
      (listing.ordered _ hmem) (by omega) hund hrun hokt
  rcases Env.runs_bind_iff.mp h with ⟨e, rfl, hrun⟩ | ⟨out', w₃, t₁, t₂, hrun, hrest, rfl⟩
  · exact .of_dir (hcollect hrun hok) (fun _ => id) (by rintro _ ⟨⟩)
  · obtain ⟨hok₁, hok₂⟩ := onlyHintFails_append.mp hok
    have hund₃ := hund.many (runs_tree_interfere hrun)
    refine .of_dir (hcollect hrun hok₁) (by rintro _ ⟨⟩) ?_
    rintro _ ⟨⟩
    rw [← hroot]
    exact hentries _ _ _ _ _ _ _ listing' (by omega) hund₃ hrest hok₂

/-- One round of the loop: the next name is one that is left, and its type decides. -/
theorem walksEntries_succ {fuel : ℕ} (hdir : WalksDir base w fuel)
    (hentries : WalksEntries base w fuel) : WalksEntries base w (fuel + 1) := by
  intro entries rest out w₁ tr r w₂ listing hfuel hund h hok
  rcases Env.runs_bind_iff.mp h with ⟨_, rfl, hrun⟩ | ⟨next, w₃, tr₁, tr₂, hrun, h', rfl⟩
  · obtain ⟨_, ⟨⟩, _⟩ := listing.runs_next hund hrun hok
  obtain ⟨hok₁, hok₂⟩ := onlyHintFails_append.mp hok
  obtain ⟨_, hret, hnext⟩ := listing.runs_next hund hrun hok₁
  cases hret
  have hund₃ := hund.many (runs_tree_interfere hrun)
  cases hnext with
  | ends hrest =>
      obtain rfl := hrest
      obtain ⟨_, rfl, _⟩ := Env.runs_ret_iff.mp h'
      exact .inl ⟨.dir [] (by simp), [], by rw [List.append_nil], .nil⟩
  | @entry entry entries' a b t hrest hroot hentry listing' =>
      obtain rfl := hrest
      obtain ⟨listing'⟩ := listing'
      have hmem : (entry.name, t) ∈ a ++ (entry.name, t) :: b :=
        List.mem_append_right _ List.mem_cons_self
      rw [Tree.effortEntries_middle] at hfuel
      have hpos := Tree.effort_pos t
      rcases Env.runs_bind_iff.mp h' with ⟨_, rfl, htype⟩ | ⟨ft, w₄, tr₃, tr₄, htype, h'', rfl⟩
      · obtain ⟨_, ⟨⟩, _⟩ := listing.runs_fileType hentry hmem hund₃ htype hok₂
      obtain ⟨hok₃, hok₄⟩ := onlyHintFails_append.mp hok₂
      obtain ⟨n, hret, hn⟩ := listing.runs_fileType hentry hmem hund₃ htype hok₃
      cases hret
      have hund₄ := hund₃.many (runs_tree_interfere htype)
      have hpath : entry.path = entries.root ++ [entry.name] := by rw [DirEntry.path, hentry.2.1]
      rw [hpath] at h''
      cases hsub : listing.holds _ hmem with
      | file hn' =>
          cases hn.symm.trans hn'
          have hcoll := hentries _ _ _ _ _ _ _ listing' (by omega) hund₄ h'' hok₄
          rw [hroot] at hcoll
          exact .of_file hcoll
      | other hn' hother =>
          cases hn.symm.trans hn'
          rcases hother with hother | hother
          · rw [hother] at h''
            obtain ⟨_, rfl, _⟩ := runs_throw_iff.mp h''
            exact .of_other
          · rw [hother] at h''
            obtain ⟨_, rfl, _⟩ := runs_throw_iff.mp h''
            exact .of_other
      | dir child hn' =>
          cases hn.symm.trans hn'
          exact walks_subdirectory hdir hentries listing listing' hroot hfuel hund₄ h'' hok₄

theorem walks_undisturbed (fuel : ℕ) : WalksDir base w fuel ∧ WalksEntries base w fuel := by
  induction fuel with
  | zero =>
      constructor
      · intro q i rest out w₁ tr r w₂ _ _ _ hfuel
        exact absurd hfuel (Nat.not_le.mpr (Tree.effort_pos _))
      · intro entries rest out w₁ tr r w₂ _ hfuel
        exact absurd hfuel (Nat.not_le.mpr (Tree.effortEntries_pos _))
  | succ fuel ih => exact ⟨walksDir_succ ih.2, walksEntries_succ ih.1 ih.2⟩

end KernelKit
