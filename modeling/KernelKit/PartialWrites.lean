import Mathlib.Data.List.Basic
import Mathlib.Logic.Function.Basic
import Mathlib.Tactic.ByContra

/-!
# Cells overwritten by requests that may act in part

A write covers some cells and is for one value. A whole write reaches every cell it covers, any other
write may reach any part of them. A system that serves requests, each of which acts on the cells as a
write, is described exactly: what a cell may hold after a list of requests is what it held at first, if no
whole write covered it, or the value of a write that covered it and that no whole write followed.
-/

namespace Interaction

structure Write (ι β : Type) where
  covers : ι → Prop
  value : β
  whole : Prop

namespace Write

variable {ι β Q σ : Type} {w : Write ι β} {i : ι} {b b' : β} {f g : ι → β}

/-- From `b` the cell may come to hold `b'`. -/
def May (w : Write ι β) (i : ι) (b b' : β) : Prop :=
  b' = b ∧ (w.covers i → ¬ w.whole) ∨ b' = w.value ∧ w.covers i

def Acts (w : Write ι β) (f g : ι → β) : Prop := ∀ i, w.May i (f i) (g i)

theorem exists_may (w : Write ι β) (i : ι) (b : β) : ∃ b', w.May i b b' := by
  by_cases h : w.covers i
  · exact ⟨w.value, .inr ⟨rfl, h⟩⟩
  · exact ⟨b, .inl ⟨rfl, fun hcovers => absurd hcovers h⟩⟩

theorem Acts.eq_of_not_covers (h : w.Acts f g) (hnone : ∀ i, ¬ w.covers i) : f = g :=
  funext fun i => (h i).elim (fun hsame => hsame.1.symm) fun hset => absurd hset.2 (hnone i)

/-! ### Lists of requests -/

def MayEnd (write : Q → Write ι β) (i : ι) : List Q → β → β → Prop
  | [], b, b' => b' = b
  | q :: qs, b, b' => ∃ b₁, (write q).May i b b₁ ∧ MayEnd write i qs b₁ b'

def Unsettled (write : Q → Write ι β) (i : ι) (qs : List Q) : Prop :=
  ∀ q ∈ qs, (write q).covers i → ¬ (write q).whole

variable {write : Q → Write ι β} {q : Q} {qs : List Q}

theorem unsettled_cons : Unsettled write i (q :: qs) ↔
    ((write q).covers i → ¬ (write q).whole) ∧ Unsettled write i qs := List.forall_mem_cons

theorem exists_mayEnd (write : Q → Write ι β) (i : ι) (qs : List Q) (b : β) :
    ∃ b', MayEnd write i qs b b' := by
  induction qs generalizing b with
  | nil => exact ⟨b, rfl⟩
  | cons q qs ih =>
      obtain ⟨b₁, hmay⟩ := exists_may (write q) i b
      obtain ⟨b', hend⟩ := ih b₁
      exact ⟨b', b₁, hmay, hend⟩

/-- A cell ends as it started and no whole write covered it, or as a write left it that no whole write
followed. -/
theorem mayEnd_iff : MayEnd write i qs b b' ↔ (b' = b ∧ Unsettled write i qs) ∨
    ∃ pre q post, qs = pre ++ q :: post ∧ (write q).covers i ∧ (write q).value = b' ∧
      Unsettled write i post := by
  induction qs generalizing b with
  | nil => simp [MayEnd, Unsettled]
  | cons v qs ih =>
      simp only [MayEnd, ih, unsettled_cons]
      constructor
      · rintro ⟨b₁, ⟨rfl, hv⟩ | ⟨rfl, hv⟩, ⟨rfl, hunsettled⟩ | ⟨pre, q, post, rfl, hq⟩⟩
        · exact .inl ⟨rfl, hv, hunsettled⟩
        · exact .inr ⟨v :: pre, q, post, rfl, hq⟩
        · exact .inr ⟨[], v, qs, rfl, hv, rfl, hunsettled⟩
        · exact .inr ⟨v :: pre, q, post, rfl, hq⟩
      · rintro (⟨rfl, hv, hunsettled⟩ | ⟨pre, q, post, hsplit, hcovers, rfl, hunsettled⟩)
        · exact ⟨b', .inl ⟨rfl, hv⟩, .inl ⟨rfl, hunsettled⟩⟩
        · cases pre with
          | nil =>
              obtain ⟨rfl, rfl⟩ := List.cons.inj hsplit
              exact ⟨_, .inr ⟨rfl, hcovers⟩, .inl ⟨rfl, hunsettled⟩⟩
          | cons v' pre =>
              obtain ⟨rfl, rfl⟩ := List.cons.inj hsplit
              obtain ⟨b₁, hmay⟩ := exists_may (write v) i b
              exact ⟨b₁, hmay, .inr ⟨pre, q, post, rfl, hcovers, rfl, hunsettled⟩⟩

theorem not_unsettled_iff : ¬ Unsettled write i qs ↔ ∃ pre q post, qs = pre ++ q :: post ∧
    (write q).covers i ∧ (write q).whole ∧ Unsettled write i post := by
  constructor
  · intro h
    induction qs with
    | nil => exact absurd (List.forall_mem_nil _) h
    | cons v qs ih =>
        by_cases hrest : Unsettled write i qs
        · rw [unsettled_cons, and_iff_left hrest] at h
          push Not at h
          exact ⟨[], v, qs, rfl, h.1, h.2, hrest⟩
        · obtain ⟨pre, q, post, rfl, hq⟩ := ih hrest
          exact ⟨v :: pre, q, post, rfl, hq⟩
  · rintro ⟨pre, q, post, rfl, hcovers, hwhole, -⟩ hunsettled
    exact hunsettled q (by simp) hcovers hwhole

theorem exists_acts {own : ι → Prop} (h : ∀ i, own i → MayEnd write i (q :: qs) (f i) (g i)) :
    ∃ f₁, (write q).Acts f f₁ ∧ ∀ i, own i → MayEnd write i qs (f₁ i) (g i) := by
  have hcell : ∀ i, ∃ b, (write q).May i (f i) b ∧ (own i → MayEnd write i qs b (g i)) := by
    intro i
    by_cases hi : own i
    · obtain ⟨b, hmay, hend⟩ := h i hi
      exact ⟨b, hmay, fun _ => hend⟩
    · obtain ⟨b, hmay⟩ := exists_may (write q) i (f i)
      exact ⟨b, hmay, fun hown => absurd hown hi⟩
  choose f₁ hacts hend using hcell
  exact ⟨f₁, hacts, hend⟩

end Write

/-! ### Systems that serve requests -/

variable {ι β Q σ : Type}

/-- Requests served one after another, while the system may also go on by itself. -/
inductive Served (step : Q → σ → σ → Prop) (idle : σ → σ → Prop) : σ → List Q → σ → Prop
  | refl (s : σ) : Served step idle s [] s
  | step {q : Q} {qs : List Q} {s s₁ s' : σ} :
      step q s s₁ → Served step idle s₁ qs s' → Served step idle s (q :: qs) s'
  | idle {qs : List Q} {s s₁ s' : σ} :
      idle s s₁ → Served step idle s₁ qs s' → Served step idle s qs s'

/-- The admissible requests are those that are served, and a request acts on the cells of `own` as its
write. -/
structure ActsAs (step : Q → σ → σ → Prop) (idle : σ → σ → Prop) (cells : σ → ι → β) (own : ι → Prop)
    (adm : Q → Prop) (write : Q → Write ι β) : Prop where
  admissible : ∀ {q s s'}, step q s s' → adm q
  may : ∀ {q s s' i}, step q s s' → own i → (write q).May i (cells s i) (cells s' i)
  exists_step : ∀ {q s f}, adm q → (write q).Acts (cells s) f → ∃ s', step q s s' ∧ cells s' = f
  idle_eq : ∀ {s s' i}, idle s s' → own i → cells s' i = cells s i

namespace ActsAs

variable {step : Q → σ → σ → Prop} {idle : σ → σ → Prop} {cells : σ → ι → β} {own : ι → Prop}
  {adm : Q → Prop} {write : Q → Write ι β} {qs : List Q} {s s' : σ}

theorem mayEnd (h : ActsAs step idle cells own adm write) (hs : Served step idle s qs s') :
    (∀ q ∈ qs, adm q) ∧
      ∀ i, own i → Write.MayEnd write i qs (cells s i) (cells s' i) := by
  induction hs with
  | refl => exact ⟨List.forall_mem_nil _, fun i _ => rfl⟩
  | step hq _ ih =>
      exact ⟨List.forall_mem_cons.mpr ⟨h.admissible hq, ih.1⟩, fun i hi => ⟨_, h.may hq hi, ih.2 i hi⟩⟩
  | idle hidle _ ih =>
      refine ⟨ih.1, fun i hi => ?_⟩
      rw [← h.idle_eq hidle hi]
      exact ih.2 i hi

theorem exists_served (h : ActsAs step idle cells own adm write) {f : ι → β}
    (hadm : ∀ q ∈ qs, adm q) (hend : ∀ i, own i → Write.MayEnd write i qs (cells s i) (f i)) :
    ∃ s', Served step idle s qs s' ∧ ∀ i, own i → cells s' i = f i := by
  induction qs generalizing s with
  | nil => exact ⟨s, .refl s, fun i hi => (hend i hi).symm⟩
  | cons q qs ih =>
      obtain ⟨hq, hrest⟩ := List.forall_mem_cons.mp hadm
      obtain ⟨f₁, hacts, hend₁⟩ := Write.exists_acts hend
      obtain ⟨s₁, hstep, rfl⟩ := h.exists_step hq hacts
      obtain ⟨s', hserved, hcells⟩ := ih hrest hend₁
      exact ⟨s', .step hstep hserved, hcells⟩

theorem exists_served_cell (h : ActsAs step idle cells own adm write) {i : ι} {b : β}
    (hadm : ∀ q ∈ qs, adm q) (hend : Write.MayEnd write i qs (cells s i) b) :
    ∃ s', Served step idle s qs s' ∧ (own i → cells s' i = b) := by
  classical
  choose f hf using fun j => Write.exists_mayEnd write j qs (cells s j)
  obtain ⟨s', hserved, hcells⟩ := h.exists_served hadm (f := Function.update f i b) fun j _ => by
    by_cases hj : j = i
    · subst hj
      rwa [Function.update_self]
    · rw [Function.update_of_ne hj]
      exact hf j
  exact ⟨s', hserved, fun hi => (hcells i hi).trans (Function.update_self i b f)⟩

theorem served_iff_mayEnd (h : ActsAs step idle cells own adm write) {f : ι → β} :
    (∃ s', Served step idle s qs s' ∧ ∀ i, own i → cells s' i = f i) ↔
      (∀ q ∈ qs, adm q) ∧ ∀ i, own i → Write.MayEnd write i qs (cells s i) (f i) := by
  constructor
  · rintro ⟨s', hserved, hcells⟩
    obtain ⟨hadm, hend⟩ := h.mayEnd hserved
    exact ⟨hadm, fun i hi => hcells i hi ▸ hend i hi⟩
  · rintro ⟨hadm, hend⟩
    exact h.exists_served hadm hend

/-- The cells a list of requests may leave behind, cell by cell. -/
theorem served_iff (h : ActsAs step idle cells own adm write) {f : ι → β} :
    (∃ s', Served step idle s qs s' ∧ ∀ i, own i → cells s' i = f i) ↔
      (∀ q ∈ qs, adm q) ∧ ∀ i, own i → (f i = cells s i ∧ Write.Unsettled write i qs) ∨
        ∃ pre q post, qs = pre ++ q :: post ∧ (write q).covers i ∧ (write q).value = f i ∧
          Write.Unsettled write i post := by
  simp only [← Write.mayEnd_iff]
  exact h.served_iff_mayEnd

end ActsAs
end Interaction
