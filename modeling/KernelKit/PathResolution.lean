import KernelKit.FileSystem

/-!
# Resolving a path against looking its names up

Opening a path follows symbolic links, and the lookups of its names one after the other do not. The two
agree below a resolved directory as long as no name on the way leads to a symbolic link.
-/

namespace KernelKit
namespace World

variable {w : World}

/-- Look names up one after the other. A symbolic link has no entries, so none is traversed. -/
def lookups (w : World) : Ino → Path → Option Ino
  | i, [] => some i
  | i, name :: rest =>
    match w.lookup i name with
    | none => none
    | some j => lookups w j rest

def IsSymlink (w : World) (i : Ino) : Prop := ∃ absolute target, w.node i = some (.symlink absolute target)

theorem walkWith_cons_of_not_symlink {follow : Ino → Path → Option Ino} {i j : Ino} {name : Name}
    {rest : Path} (hj : w.lookup i name = some j) (hn : ¬ w.IsSymlink j) :
    w.walkWith follow i (name :: rest) = w.walkWith follow j rest := by
  rw [walkWith, hj]
  dsimp only
  split
  · next absolute target hsym => exact absurd ⟨absolute, target, hsym⟩ hn
  · rfl

theorem walkWith_append_isSome {follow : Ino → Path → Option Ino}
    (hfollow : ∀ i p q, (follow i (p ++ q)).isSome → (follow i p).isSome) (p q : Path) (i : Ino)
    (h : (w.walkWith follow i (p ++ q)).isSome) : (w.walkWith follow i p).isSome := by
  induction p generalizing i with
  | nil => rfl
  | cons name rest ih =>
      rw [List.cons_append, walkWith] at h
      rw [walkWith]
      cases hj : w.lookup i name with
      | none => rw [hj] at h; cases h
      | some j =>
          rw [hj] at h
          dsimp only at h ⊢
          split at h
          · rw [← List.append_assoc] at h
            exact hfollow _ _ _ h
          · exact ih _ h

theorem walk_append_isSome (links : ℕ) (p q : Path) (i : Ino)
    (h : (w.walk links i (p ++ q)).isSome) : (w.walk links i p).isSome := by
  induction links generalizing p q i with
  | zero => exact walkWith_append_isSome (fun _ _ _ h => by cases h) p q i h
  | succ links ih => exact walkWith_append_isSome (fun i p q h => ih p q i h) p q i h

theorem walkWith_snoc {follow : Ino → Path → Option Ino} {k : Ino} {name : Name}
    (hn : ∀ m, w.lookup k name = some m → ¬ w.IsSymlink m)
    (hfollow : ∀ i p, follow i p = some k → follow i (p ++ [name]) = w.lookup k name)
    (p : Path) (i : Ino) (h : w.walkWith follow i p = some k) :
    w.walkWith follow i (p ++ [name]) = w.lookup k name := by
  induction p generalizing i with
  | nil =>
      cases h
      cases hm : w.lookup k name with
      | none => rw [List.nil_append, walkWith, hm]
      | some m => rw [List.nil_append, walkWith_cons_of_not_symlink hm (hn m hm), walkWith]
  | cons name' rest ih =>
      rw [walkWith] at h
      rw [List.cons_append, walkWith]
      cases hj : w.lookup i name' with
      | none => rw [hj] at h; cases h
      | some j =>
          rw [hj] at h
          dsimp only at h ⊢
          split at h
          · rw [← List.append_assoc]
            exact hfollow _ _ h
          · exact ih _ h

/-- A name that does not lead to a symbolic link is resolved by one lookup. -/
theorem walk_snoc {k : Ino} {name : Name} (hn : ∀ m, w.lookup k name = some m → ¬ w.IsSymlink m)
    (links : ℕ) (p : Path) (i : Ino) (h : w.walk links i p = some k) :
    w.walk links i (p ++ [name]) = w.lookup k name := by
  induction links generalizing p i with
  | zero => exact walkWith_snoc hn (by rintro _ _ ⟨⟩) p i h
  | succ links ih => exact walkWith_snoc hn (fun i p hp => ih p i hp) p i h

/-- No name of `q`, looked up from `i` on, leads to a symbolic link. -/
def NoSymlinks (w : World) (i : Ino) (q : Path) : Prop :=
  ∀ q₁ q₂ m, q = q₁ ++ q₂ → q₁ ≠ [] → w.lookups i q₁ = some m → ¬ w.IsSymlink m

theorem NoSymlinks.cons {i j : Ino} {name : Name} {q : Path} (h : w.NoSymlinks i (name :: q))
    (hj : w.lookup i name = some j) : ¬ w.IsSymlink j ∧ w.NoSymlinks j q := by
  have hlook : ∀ q₁, w.lookups i (name :: q₁) = w.lookups j q₁ := by
    intro q₁
    rw [lookups, hj]
  refine ⟨h [name] q j rfl (List.cons_ne_nil _ _) (hlook []), ?_⟩
  rintro q₁ q₂ m rfl _ hm
  exact h (name :: q₁) q₂ m rfl (List.cons_ne_nil _ _) ((hlook q₁).trans hm)

/-- Below a resolved directory, and without symbolic links on the way, resolving is looking up. -/
theorem resolve_append {base q : Path} {b : Ino} (hbase : w.resolve base = some b)
    (hq : w.NoSymlinks b q) : w.resolve (base ++ q) = w.lookups b q := by
  induction q generalizing base b with
  | nil => rw [List.append_nil, hbase, lookups]
  | cons name q ih =>
      have hsnoc : w.resolve (base ++ [name]) = w.lookup b name :=
        walk_snoc (fun m hm => (hq.cons hm).1) maxLinks base w.root hbase
      rw [List.append_cons]
      cases hm : w.lookup b name with
      | none =>
          rw [hm] at hsnoc
          have hnone : ¬ (w.resolve (base ++ [name] ++ q)).isSome := by
            intro hsome
            have hpre : (w.resolve (base ++ [name])).isSome := walk_append_isSome _ _ _ _ hsome
            rw [hsnoc] at hpre
            cases hpre
          rw [lookups, hm, Option.not_isSome_iff_eq_none.mp hnone]
      | some m =>
          rw [hm] at hsnoc
          rw [ih hsnoc (hq.cons hm).2, lookups, hm]

theorem resolve_base {base q : Path} {j : Ino} (h : w.resolve (base ++ q) = some j) :
    ∃ b, w.resolve base = some b :=
  Option.isSome_iff_exists.mp (walk_append_isSome _ _ q _ (by rw [resolve] at h; rw [h]; rfl))

theorem lookups_snoc (i : Ino) (q : Path) (name : Name) :
    w.lookups i (q ++ [name]) = (w.lookups i q).bind fun j => w.lookup j name := by
  induction q generalizing i with
  | nil =>
      rw [List.nil_append, lookups, lookups, Option.bind_some]
      cases w.lookup i name <;> rfl
  | cons name' q ih =>
      rw [List.cons_append, lookups, lookups]
      cases w.lookup i name' with
      | none => rfl
      | some j => exact ih j

theorem lookups_of_isSymlink {i : Ino} (h : w.IsSymlink i) {q : Path} (hq : q ≠ []) :
    w.lookups i q = none := by
  obtain ⟨absolute, target, hsym⟩ := h
  cases q with
  | nil => exact absurd rfl hq
  | cons name q =>
      have hnone : w.lookup i name = none := by rw [lookup, hsym]
      rw [lookups, hnone]

theorem lookups_append {i k : Ino} {q₁ q₂ : Path} (h : w.lookups i q₁ = some k) :
    w.lookups i (q₁ ++ q₂) = w.lookups k q₂ := by
  induction q₁ generalizing i with
  | nil => cases h; rfl
  | cons name q ih =>
      rw [lookups] at h
      rw [List.cons_append, lookups]
      cases hj : w.lookup i name with
      | none => rw [hj] at h; cases h
      | some j =>
          rw [hj] at h
          exact ih h

theorem noSymlinks_of_lookups {i j : Ino} {q : Path} (h : w.lookups i q = some j)
    (hj : ¬ w.IsSymlink j) : w.NoSymlinks i q := by
  rintro q₁ q₂ m rfl _ hm
  rw [lookups_append hm] at h
  cases q₂ with
  | nil =>
      cases h
      exact hj
  | cons name q₂ =>
      intro hsym
      rw [lookups_of_isSymlink hsym (List.cons_ne_nil _ _)] at h
      cases h

/-- The names `q`, looked up below the directory that `base` leads to, lead to `i`. -/
def Finds (w : World) (base q : Path) (i : Ino) : Prop :=
  ∃ b, w.resolve base = some b ∧ w.lookups b q = some i

theorem Finds.resolve {base q : Path} {i : Ino} (h : w.Finds base q i) (hi : ¬ w.IsSymlink i) :
    w.resolve (base ++ q) = some i := by
  obtain ⟨b, hbase, hq⟩ := h
  rw [resolve_append hbase (noSymlinks_of_lookups hq hi), hq]

theorem Finds.child {base q : Path} {i j : Ino} {name : Name} (h : w.Finds base q i)
    (hj : w.lookup i name = some j) : w.Finds base (q ++ [name]) j := by
  obtain ⟨b, hbase, hq⟩ := h
  exact ⟨b, hbase, by rw [lookups_snoc, hq, Option.bind_some, hj]⟩

end World
end KernelKit
