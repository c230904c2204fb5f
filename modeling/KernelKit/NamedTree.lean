import Mathlib.Data.List.Lex
import Mathlib.Order.Lattice
import Mathlib.Order.Nat
import Mathlib.Tactic.SplitIfs

/-!
# Finite trees with named branches

A directory lists named subtrees. In an `Ordered` tree every directory lists them by increasing name,
and then the depth-first walk meets the paths of its files in increasing lexicographic order. Sorting
those paths from any other enumeration therefore restores the walk.
-/

namespace NamedTree

/-- A leaf holding `content`, an `other` leaf without any, or a directory. -/
inductive Tree (κ φ : Type)
  | file (content : φ)
  | other
  | dir (entries : List (κ × Tree κ φ))

variable {κ φ : Type}

namespace Tree

mutual

/-- The files met by a depth-first walk of the tree at `path`, each with its path. -/
def walk (path : List κ) : Tree κ φ → List (List κ × φ)
  | .file content => [(path, content)]
  | .other => []
  | .dir entries => walkEntries path entries

def walkEntries (path : List κ) : List (κ × Tree κ φ) → List (List κ × φ)
  | [] => []
  | (name, t) :: entries => walk (path ++ [name]) t ++ walkEntries path entries

end

mutual

/-- The number of nodes, directories counted twice: they are opened and then listed. -/
def effort : Tree κ φ → ℕ
  | .file _ | .other => 1
  | .dir entries => 1 + effortEntries entries

def effortEntries : List (κ × Tree κ φ) → ℕ
  | [] => 1
  | (_, t) :: entries => effort t + effortEntries entries

end

theorem walkEntries_append (path : List κ) (es es' : List (κ × Tree κ φ)) :
    walkEntries path (es ++ es') = walkEntries path es ++ walkEntries path es' := by
  induction es with
  | nil => rfl
  | cons e es ih =>
      obtain ⟨name, t⟩ := e
      simp only [List.cons_append, walkEntries, ih, List.append_assoc]

theorem walkEntries_perm_middle (path : List κ) (es es' : List (κ × Tree κ φ)) (name : κ)
    (t : Tree κ φ) :
    (walkEntries path (es ++ (name, t) :: es')).Perm
      (walk (path ++ [name]) t ++ walkEntries path (es ++ es')) := by
  rw [walkEntries_append, walkEntries_append, walkEntries]
  exact List.perm_append_comm_assoc _ _ _

theorem effortEntries_middle (es es' : List (κ × Tree κ φ)) (name : κ) (t : Tree κ φ) :
    effortEntries (es ++ (name, t) :: es') = effort t + effortEntries (es ++ es') := by
  induction es with
  | nil => rfl
  | cons e es ih =>
      obtain ⟨name', t'⟩ := e
      simp only [List.cons_append, effortEntries, ih]
      omega

theorem effortEntries_pos (es : List (κ × Tree κ φ)) : 0 < effortEntries es := by
  induction es with
  | nil => exact Nat.one_pos
  | cons e es ih =>
      obtain ⟨name, t⟩ := e
      simp only [effortEntries]
      omega

theorem effort_pos (t : Tree κ φ) : 0 < t.effort := by
  cases t with
  | file | other => exact Nat.one_pos
  | dir es => exact Nat.add_pos_left Nat.one_pos _

inductive Clean : Tree κ φ → Prop
  | file (content : φ) : Clean (.file content)
  | dir (entries : List (κ × Tree κ φ)) : (∀ e ∈ entries, Clean e.2) → Clean (.dir entries)

theorem clean_dir_iff {es : List (κ × Tree κ φ)} :
    Clean (.dir es) ↔ ∀ e ∈ es, Clean e.2 := by
  constructor
  · rintro ⟨⟩
    assumption
  · exact .dir es

theorem clean_dir_middle {es es' : List (κ × Tree κ φ)} {name : κ} {t : Tree κ φ} :
    Clean (.dir (es ++ (name, t) :: es')) ↔ Clean t ∧ Clean (.dir (es ++ es')) := by
  simp only [clean_dir_iff, List.mem_append, List.mem_cons]
  constructor
  · intro h
    exact ⟨h _ (.inr (.inl rfl)), fun e he => h e (he.imp_right .inr)⟩
  · rintro ⟨ht, hrest⟩ e (he | rfl | he)
    · exact hrest e (.inl he)
    · exact ht
    · exact hrest e (.inr he)

theorem not_clean_other : ¬ Clean (.other : Tree κ φ) := by
  rintro ⟨⟩

mutual

theorem walk_extends (path : List κ) :
    (t : Tree κ φ) → ∀ x ∈ t.walk path, ∃ rest, x.1 = path ++ rest
  | .file _, x, hx => ⟨[], by rw [walk, List.mem_singleton] at hx; simp [hx]⟩
  | .other, x, hx => absurd hx List.not_mem_nil
  | .dir es, x, hx => by
      obtain ⟨name, _, rest, h⟩ := walkEntries_extends path es x hx
      exact ⟨name :: rest, by simp [h]⟩

theorem walkEntries_extends (path : List κ) : (es : List (κ × Tree κ φ)) →
    ∀ x ∈ walkEntries path es, ∃ name ∈ es.map Prod.fst, ∃ rest, x.1 = path ++ [name] ++ rest
  | [], x, hx => absurd hx List.not_mem_nil
  | (name, t) :: es, x, hx => by
      rw [walkEntries, List.mem_append] at hx
      rcases hx with hx | hx
      · exact ⟨name, List.mem_cons_self, walk_extends (path ++ [name]) t x hx⟩
      · obtain ⟨name', hmem, hrest⟩ := walkEntries_extends path es x hx
        exact ⟨name', List.mem_cons_of_mem _ hmem, hrest⟩

end

variable [LinearOrder κ]

inductive Ordered : Tree κ φ → Prop
  | file (content : φ) : Ordered (.file content)
  | other : Ordered .other
  | dir (entries : List (κ × Tree κ φ)) : entries.Pairwise (fun e e' => e.1 < e'.1) →
      (∀ e ∈ entries, Ordered e.2) → Ordered (.dir entries)

theorem ordered_dir_iff {es : List (κ × Tree κ φ)} :
    Ordered (.dir es) ↔ es.Pairwise (fun e e' => e.1 < e'.1) ∧ ∀ e ∈ es, Ordered e.2 := by
  constructor
  · rintro ⟨⟩
    exact ⟨by assumption, by assumption⟩
  · rintro ⟨hnames, hsub⟩
    exact .dir es hnames hsub

/-- Different names decide the order of two paths, whatever follows the names. -/
theorem append_name_lt {a b : κ} (h : a < b) (path x y : List κ) :
    path ++ [a] ++ x < path ++ [b] ++ y := by
  induction path with
  | nil => exact List.cons_lt_cons_iff.mpr (.inl h)
  | cons c path ih => exact List.cons_lt_cons_iff.mpr (.inr ⟨rfl, ih⟩)

mutual

theorem walk_sorted (path : List κ) :
    (t : Tree κ φ) → t.Ordered → (t.walk path).Pairwise (fun x y => x.1 < y.1)
  | .file _, _ => List.pairwise_singleton _ _
  | .other, _ => .nil
  | .dir es, h => walkEntries_sorted path es (ordered_dir_iff.mp h).1 (ordered_dir_iff.mp h).2

theorem walkEntries_sorted (path : List κ) : (es : List (κ × Tree κ φ)) →
    es.Pairwise (fun e e' => e.1 < e'.1) → (∀ e ∈ es, e.2.Ordered) →
      (walkEntries path es).Pairwise (fun x y => x.1 < y.1)
  | [], _, _ => .nil
  | (name, t) :: es, hnames, hsub => by
      obtain ⟨hfirst, hnames⟩ := List.pairwise_cons.mp hnames
      obtain ⟨ht, hsub⟩ := List.forall_mem_cons.mp hsub
      refine List.pairwise_append.mpr ⟨walk_sorted _ t ht, walkEntries_sorted path es hnames hsub, ?_⟩
      intro x hx y hy
      obtain ⟨rest, hx⟩ := walk_extends _ t x hx
      obtain ⟨name', hmem, rest', hy⟩ := walkEntries_extends path es y hy
      obtain ⟨e, he, rfl⟩ := List.mem_map.mp hmem
      rw [hx, hy]
      exact append_name_lt (hfirst e he) path rest rest'

end

/-- Sorting the paths of an ordered tree, however they were enumerated, gives the order of the
depth-first walk. -/
theorem mergeSort_eq_walk (path : List κ) {t : Tree κ φ} (ht : t.Ordered) {paths : List (List κ)}
    (hperm : paths.Perm ((t.walk path).map Prod.fst)) :
    paths.mergeSort (fun a b => decide (a ≤ b)) = (t.walk path).map Prod.fst := by
  have hperm' := (List.mergeSort_perm paths fun a b => decide (a ≤ b)).trans hperm
  have hsorted : (paths.mergeSort fun a b => decide (a ≤ b)).Pairwise (· ≤ ·) := by
    refine (List.pairwise_mergeSort (fun a b c hab hbc => ?_) (fun a b => ?_) paths).imp
      fun h => of_decide_eq_true h
    · simp only [decide_eq_true_eq] at hab hbc ⊢
      exact le_trans hab hbc
    · simp only [Bool.or_eq_true, decide_eq_true_eq]
      exact le_total a b
  have hwalk : ((t.walk path).map Prod.fst).Pairwise (· ≤ ·) :=
    List.pairwise_map.mpr ((walk_sorted path t ht).imp fun h => le_of_lt h)
  exact hperm'.eq_of_pairwise (fun a b _ _ => le_antisymm) hsorted hwalk

end Tree
end NamedTree
