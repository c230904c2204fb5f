import KernelKit.CorpusStability
import KernelKit.CorpusWalk

/-!
# A walk there is

Any tree has a run of the walk in which no call fails, whether or not the walk then ends in an error: the
directories are read one entry at a time, each with its type.
-/

namespace KernelKit
open Interaction Relation NamedTree

variable {E : Env World FileOp (Answer FileOp.Res)} {base : Path} {w : World} {fuel : ℕ}

def ServesWalk (E : Env World FileOp (Answer FileOp.Res)) (w : World) : Prop :=
  ∀ op value, IsWalkOp op → w.answers op value → w.enumerates op value → E.serve op w (.ok value) w

theorem servesWalk_tree : ServesWalk (treeEnv base) w := by
  intro op value _ hans henum
  exact ⟨rfl, by rintro _ ⟨⟩; exact ⟨hans, henum⟩⟩

/-- With this fuel a directory of the tree has a walk. -/
def HasWalk (E : Env World FileOp (Answer FileOp.Res)) (base : Path) (w : World) (fuel : ℕ) : Prop :=
  ∀ q i rest out, w.Finds base q i → w.Holds i (.dir rest) → (Tree.dir rest).Ordered →
    (Tree.dir rest).effort ≤ fuel →
    ∃ tr r, E.Runs (collectFiles fuel (base ++ q) out) w tr r w ∧ ∀ c ∈ tr, Succeeded c

def HasWalkEntries (E : Env World FileOp (Answer FileOp.Res)) (base : Path) (w : World) (fuel : ℕ) : Prop :=
  ∀ ino root seen rest out, Nonempty (Listing base w ⟨ino, root, seen, []⟩ rest) →
    Tree.effortEntries rest ≤ fuel →
    ∃ tr r, E.Runs (collectEntries fuel ⟨ino, root, seen, []⟩ out) w tr r w ∧ ∀ c ∈ tr, Succeeded c

theorem readDir_answered {q : Path} {i : Ino} {rest : Entries} (hi : w.Finds base q i)
    (hholds : w.Holds i (.dir rest)) : w.answers (.readDir (base ++ q)) ⟨i, base ++ q, [], []⟩ := by
  have hresolve := (Undisturbed.refl base w).resolve hi (hholds.not_isSymlink nofun)
  cases hholds with
  | dir child hn => exact ⟨hresolve, rfl, rfl, rfl, _, _, hn⟩

theorem Listing.none_enumerated {ino : Ino} {root : Path} {seen : List Name}
    (h : Listing base w ⟨ino, root, seen, []⟩ []) :
    w.enumerates (.getdents ⟨ino, root, seen, []⟩) [] := by
  refine ⟨.nil, List.forall_mem_nil _, fun _ e he => ?_⟩
  rw [World.entries, h.node] at he
  exact (h.left e he).resolve_right List.not_mem_nil

theorem Listing.one_answered {ino : Ino} {root : Path} {seen : List Name} {rest : Entries}
    (h : Listing base w ⟨ino, root, seen, []⟩ rest) {e : Name × DirTree} (he : e ∈ rest) {n : Node}
    (hn : w.node (h.child e.1) = some n) :
    w.answers (.getdents ⟨ino, root, seen, []⟩) [⟨ino, root, e.1, some n.fileType⟩] ∧
      w.enumerates (.getdents ⟨ino, root, seen, []⟩) [⟨ino, root, e.1, some n.fileType⟩] := by
  obtain ⟨hdot, hdotDot, hlook⟩ := h.entry e he
  constructor
  · refine List.forall_mem_singleton.mpr ⟨rfl, rfl, hdot, hdotDot, h.child e.1, ?_, ?_⟩
    · rw [World.entries, h.node]
      exact hlook
    · rintro _ ⟨⟩
      exact ⟨n, hn, rfl⟩
  · refine ⟨List.nodup_singleton _, List.forall_mem_singleton.mpr fun hseen => ?_, nofun⟩
    exact absurd (h.read e he hseen) List.not_mem_nil

theorem hasWalk_succ (hserves : ServesWalk E w) (hentries : HasWalkEntries E base w fuel) :
    HasWalk E base w (fuel + 1) := by
  intro q i rest out hi hholds hord hfuel
  rw [Tree.effort] at hfuel
  obtain ⟨tr, r, hrun, hall⟩ := hentries _ _ _ rest out (exists_listing hi hholds hord) (by omega)
  exact ⟨_, r, .ask .refl (hserves (.readDir _) _ trivial (readDir_answered hi hholds) trivial) hrun,
    List.forall_mem_cons.mpr ⟨⟨_, rfl⟩, hall⟩⟩

variable {ino : Ino} {root : Path} {seen : List Name} {name : Name} {t : DirTree} {rest b : Entries}
  {out : List Path}

/-- The first entry that is left is read alone, and handed out. -/
theorem Listing.serves_next (hserves : ServesWalk E w)
    (h : Listing base w ⟨ino, root, seen, []⟩ ((name, t) :: b)) {n : Node}
    (hn : w.node (h.child name) = some n) :
    E.serve (.getdents ⟨ino, root, seen, []⟩) w (.ok [⟨ino, root, name, some n.fileType⟩]) w ∧
      Nonempty (Listing base w ⟨ino, root, seen ++ [name], []⟩ b) := by
  obtain ⟨hans, henum⟩ := h.one_answered List.mem_cons_self hn
  have hfilled := h.fill rfl (.refl base w) hans henum
  exact ⟨hserves (.getdents _) _ trivial hans henum,
    ⟨@Listing.advance base w _ ⟨ino, root, name, _⟩ [] [] b t hfilled rfl⟩⟩

theorem exists_subdirectory (hdir : HasWalk E base w fuel) (hentries : HasWalkEntries E base w fuel)
    (h : Listing base w ⟨ino, root, seen, []⟩ ((name, .dir rest) :: b))
    (hnext : Nonempty (Listing base w ⟨ino, root, seen ++ [name], []⟩ b))
    (hrest : (Tree.dir rest).effort ≤ fuel) (hb : Tree.effortEntries b ≤ fuel) :
    ∃ tr r, E.Runs ((collectFiles fuel (root ++ [name]) out).bind
      (collectEntries fuel ⟨ino, root, seen ++ [name], []⟩)) w tr r w ∧ ∀ c ∈ tr, Succeeded c := by
  have hmem : (name, Tree.dir rest) ∈ (name, Tree.dir rest) :: b := List.mem_cons_self
  have hwalk := hdir _ _ rest out (h.finds_entry hmem) (h.holds _ hmem) (h.ordered _ hmem) hrest
  rw [← List.append_assoc, ← h.root_eq] at hwalk
  obtain ⟨tr₁, r₁, hrun₁, hall₁⟩ := hwalk
  cases r₁ with
  | error exit => exact ⟨tr₁, _, Env.runs_bind_iff.mpr (.inl ⟨exit, rfl, hrun₁⟩), hall₁⟩
  | ok out₁ =>
      obtain ⟨tr₂, r₂, hrun₂, hall₂⟩ := hentries _ _ _ b out₁ hnext hb
      exact ⟨_, r₂, hrun₁.bind hrun₂, List.forall_mem_append.mpr ⟨hall₁, hall₂⟩⟩

theorem hasWalkEntries_succ (hserves : ServesWalk E w) (hdir : HasWalk E base w fuel)
    (hentries : HasWalkEntries E base w fuel) : HasWalkEntries E base w (fuel + 1) := by
  rintro ino root seen rest out ⟨listing⟩ hfuel
  cases rest with
  | nil =>
      have hnone := hserves (.getdents _) [] trivial (List.forall_mem_nil _) listing.none_enumerated
      exact ⟨_, _, .ask .refl hnone (.ret out w), List.forall_mem_singleton.mpr ⟨_, rfl⟩⟩
  | cons e b =>
      obtain ⟨name, t⟩ := e
      rw [Tree.effortEntries] at hfuel
      have hpos := Tree.effort_pos t
      have hpos' := Tree.effortEntries_pos b
      cases listing.holds _ List.mem_cons_self with
      | file hn =>
          obtain ⟨hnext, listing'⟩ := listing.serves_next hserves hn
          obtain ⟨tr, r, hrun, hall⟩ := hentries _ _ _ b (out ++ [root ++ [name]]) listing' (by omega)
          exact ⟨_, r, .ask .refl hnext hrun, List.forall_mem_cons.mpr ⟨⟨_, rfl⟩, hall⟩⟩
      | @other _ n hn hother =>
          obtain ⟨hnext, _⟩ := listing.serves_next hserves hn
          cases n with
          | symlink absolute target =>
              exact ⟨_, _, .ask .refl hnext (.fail _ w), List.forall_mem_singleton.mpr ⟨_, rfl⟩⟩
          | special => exact ⟨_, _, .ask .refl hnext (.fail _ w), List.forall_mem_singleton.mpr ⟨_, rfl⟩⟩
          | file | dir => rcases hother with hother | hother <;> cases hother
      | @dir _ _ _ sub child hn =>
          obtain ⟨hnext, listing'⟩ := listing.serves_next hserves hn
          obtain ⟨tr, r, hrun, hall⟩ :=
            exists_subdirectory hdir hentries listing listing' (by omega) (by omega)
          exact ⟨_, r, .ask .refl hnext hrun, List.forall_mem_cons.mpr ⟨⟨_, rfl⟩, hall⟩⟩

theorem hasWalk (hserves : ServesWalk E w) (base : Path) (fuel : ℕ) :
    HasWalk E base w fuel ∧ HasWalkEntries E base w fuel := by
  induction fuel with
  | zero =>
      constructor
      · intro q i rest out _ _ _ hfuel
        exact absurd hfuel (Nat.not_le.mpr (Tree.effort_pos _))
      · intro ino root seen rest out _ hfuel
        exact absurd hfuel (Nat.not_le.mpr (Tree.effortEntries_pos _))
  | succ fuel ih => exact ⟨hasWalk_succ hserves ih.2, hasWalkEntries_succ hserves ih.1 ih.2⟩

end KernelKit
