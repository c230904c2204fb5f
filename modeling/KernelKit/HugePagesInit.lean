import KernelKit.HugePagesEffects
import KernelKit.HugePagesRelease
import KernelKit.RustVec

/-!
# Exception safety of the initialization

While the elements are made the guard owns the mapping and knows how many elements there are, so if
`T::default` unwinds it drops these and unmaps the range. In each other case it is the allocation that
is returned that owns them, or there is nothing to release.
-/

namespace KernelKit
open Interaction

variable {σ T : Type} {w : Width} {elem : ElemType} {count index remaining : ℕ}
  {E : Env σ (MemOp T) MemOp.Ans} {s s' : σ} {tr : List (Call σ (MemOp T) MemOp.Ans)}

/-- What the loop has done when it ends: it made all elements, or `T::default` unwound after `values`
and the guard released everything, or a destructor unwound in the guard. -/
def InitEnds (elem : ElemType) (guard : InitGuard) (index remaining : ℕ)
    (tr : List (Call σ (MemOp T) MemOp.Ans)) (r : Except Exit Unit) : Prop :=
  r = .ok () ∧ effects tr = { written := slots elem guard.ptr index remaining } ∨
    r = .error .panicked ∧ (∃ values : List T, defaults tr = values.map some ++ [none] ∧ effects tr =
      { unmapped := [(guard.ptr, guard.mapLen)]
        written := slots elem guard.ptr index values.length
        dropped := slots elem guard.ptr 0 (index + values.length) }) ∨
    r = .error .aborted ∧ (effects tr).unwound ≠ []

theorem InitEnds.cons {guard : InitGuard} {value : T} {s₁ s₂ : σ} {r : Except Exit Unit}
    (h : InitEnds elem { guard with initialized := guard.initialized + 1 } (index + 1) remaining tr r) :
    InitEnds elem guard index (remaining + 1)
      (⟨s₁, .makeDefault, some value⟩ :: ⟨s₂, .write (guard.ptr + index * elem.size) value, ()⟩ :: tr) r := by
  rcases h with ⟨hr, heffects⟩ | ⟨hr, values, hvalues, heffects⟩ | ⟨hr, hunwound⟩
  · refine .inl ⟨hr, ?_⟩
    rw [effects_cons, effects_cons, heffects]
    rfl
  · refine .inr (.inl ⟨hr, value :: values, ?_, ?_⟩)
    · rw [defaults_makeDefault, defaults_cons id, hvalues, List.map_cons, List.cons_append]
    · rw [effects_cons, effects_cons, heffects, List.length_cons, slots_succ, Nat.add_right_comm index,
        Nat.add_assoc]
      rfl
  · exact .inr (.inr ⟨hr, hunwound⟩)

theorem allocation_drop_not_isDefault {allocation : HugeAllocation} :
    (allocation.drop elem : MemProg T Unit).Only fun op => ¬ IsDefault op :=
  (dropElements_only fun _ => id).bind fun _ => ⟨id, fun _ => trivial⟩

theorem runs_initElements_ends {guard : InitGuard} {r : Except Exit Unit}
    (hguard : guard.initialized = index)
    (h : E.Runs (initElements elem guard index remaining) s tr r s') :
    InitEnds elem guard index remaining tr r := by
  induction remaining generalizing guard index s tr with
  | zero =>
      obtain ⟨rfl, rfl, _⟩ := Env.runs_ret_iff.mp h
      exact .inl ⟨rfl, rfl⟩
  | succ remaining ih =>
      cases runs_initElements_succ h with
      | made _ _ _ _ hloop => exact (ih (by rw [hguard]) hloop).cons
      | unwound _ _ hdrop =>
          rw [InitGuard.drop_eq, hguard] at hdrop
          rcases runs_allocation_drop hdrop with ⟨rfl, heffects⟩ | ⟨_, hunwound, hexit⟩
          · refine .inr (.inl ⟨rfl, [], ?_, ?_⟩)
            · have hnone := defaults_of_only allocation_drop_not_isDefault hdrop
              rw [defaults_makeDefault, hnone]
              rfl
            · rw [effects_cons, heffects]
              rfl
          · refine .inr (.inr ⟨?_, hunwound⟩)
            rcases hexit with ⟨rfl, _⟩ | ⟨rfl, _⟩
            · rfl
            · rfl

/-! ### The allocation -/

/-- What each way to end leaves behind. A returned allocation owns its elements and its mapping, none of
which was released before, and its drop releases them if no destructor unwinds. Where `T::default`
unwinds, the elements made before are dropped and `munmap` is called for the mapping, as it is after an
error. The process is aborted only when a destructor unwinds in the guard. -/
def ExceptionSafe (E : Env σ (MemOp T) MemOp.Ans) (elem : ElemType) (count : ℕ)
    (tr : List (Call σ (MemOp T) MemOp.Ans)) : Except Exit (Option HugeAllocation) → Prop
  | .ok none => effects tr = {}
  | .ok (some allocation) => allocation.count = count ∧ (slots elem allocation.ptr 0 count).Nodup ∧
    effects tr =
      { mapped := [(allocation.ptr, allocation.mapLen)]
        written := slots elem allocation.ptr 0 count } ∧
    ∀ s tr' r s', E.Runs (allocation.drop elem) s tr' r s' → (effects tr').unwound = [] →
      r = .ok () ∧ effects tr' = allocation.release elem
  | .error .panicked => ∃ (ptr mapLen : ℕ) (values : List T), defaults tr = values.map some ++ [none] ∧
    (slots elem ptr 0 values.length).Nodup ∧
    effects tr =
      { mapped := [(ptr, mapLen)]
        unmapped := [(ptr, mapLen)]
        written := slots elem ptr 0 values.length
        dropped := slots elem ptr 0 values.length }
  | .error (.err _) => ∃ ranges, ranges.length ≤ 1 ∧ effects tr = { mapped := ranges, unmapped := ranges }
  | .error .aborted => (effects tr).unwound ≠ []
  | .error .outOfFuel => False

theorem runs_unmap_throw_effects {α : Type} {ptr len : ℕ} {error : Error} {r : Except Exit α}
    (h : E.Runs (do
      unmap ptr len
      throw error) s tr r s') :
    r = .error (.err error) ∧ effects tr = { unmapped := [(ptr, len)] } := by
  rcases Env.runs_bind_iff.mp h with ⟨_, rfl, hunmap⟩ | ⟨_, s₁, t₁, t₂, hunmap, hthrow, rfl⟩
  · obtain ⟨⟨⟩, _⟩ := runs_unmap_effects hunmap
  · obtain ⟨rfl, rfl, rfl⟩ := runs_throw_iff.mp hthrow
    rw [List.append_nil]
    exact ⟨rfl, (runs_unmap_effects hunmap).2⟩

theorem release_of_not_unwound {allocation : HugeAllocation} {r : Except Exit Unit}
    (h : E.Runs (allocation.drop elem) s tr r s') (hunwound : (effects tr).unwound = []) :
    r = .ok () ∧ effects tr = allocation.release elem := by
  rcases runs_allocation_drop h with hreleased | ⟨_, hne, _⟩
  · exact hreleased
  · exact absurd hunwound hne

/-- What `HugeAllocation.new` does with a mapping is safe. -/
theorem runs_ofMapping {ptr mapLen : ℕ} {s₁ : σ} {r : Except Exit (Option HugeAllocation)}
    (hsize : elem.size ≠ 0)
    (h : E.Runs (HugeAllocation.ofMapping elem count mapLen ptr) s tr r s') :
    ExceptionSafe E elem count (⟨s₁, .mmap mapLen true, .ok ptr⟩ :: tr) r := by
  unfold HugeAllocation.ofMapping at h
  split_ifs at h
  · obtain ⟨_, _, _, _, _, _, hthrow, rfl⟩ := Env.runs_ask_iff.mp h
    obtain ⟨rfl, heffects⟩ := runs_unmap_throw_effects hthrow
    refine ⟨[(ptr, mapLen)], le_rfl, ?_⟩
    rw [effects_cons, effects_cons, heffects]
    rfl
  · rcases Env.runs_bind_iff.mp h with ⟨exit, rfl, hloop⟩ | ⟨_, s₂, t₁, t₂, hloop, hend, rfl⟩
    · obtain ⟨⟨⟩, _⟩ | ⟨⟨⟩, values, hvalues, heffects⟩ | ⟨⟨⟩, hunwound⟩ := runs_initElements_ends rfl hloop
      · refine ⟨ptr, mapLen, values, ?_, nodup_slots hsize, ?_⟩
        · rw [defaults_cons id, hvalues]
        · rw [effects_cons, heffects, Nat.zero_add]
          rfl
      · exact hunwound
    · obtain ⟨_, heffects⟩ | ⟨⟨⟩, _⟩ | ⟨⟨⟩, _⟩ := runs_initElements_ends rfl hloop
      obtain ⟨rfl, rfl, _⟩ := Env.runs_ret_iff.mp hend
      refine ⟨rfl, nodup_slots hsize, ?_, fun _ _ _ _ => release_of_not_unwound⟩
      rw [List.append_nil, effects_cons, heffects]
      rfl
  · obtain ⟨rfl, heffects⟩ := runs_unmap_throw_effects h
    refine ⟨[(ptr, mapLen)], le_rfl, ?_⟩
    rw [effects_cons, heffects]
    rfl

/-- Whatever `mmap` answers and wherever `T::default` unwinds, an allocation is made safely. -/
theorem hugeAllocation_new_exceptionSafe (w : Width) (elem : ElemType) (count : ℕ)
    (E : Env σ (MemOp T) MemOp.Ans) (s s' : σ) (tr : List (Call σ (MemOp T) MemOp.Ans))
    (r : Except Exit (Option HugeAllocation))
    (h : E.Runs (HugeAllocation.new w elem count) s tr r s') : ExceptionSafe E elem count tr r := by
  rcases HugeAllocation.new_cases w elem count with heq | ⟨error, heq⟩ | ⟨mapLen, hmapLen, hpos, heq⟩
  · rw [heq] at h
    obtain ⟨rfl, rfl, _⟩ := Env.runs_ret_iff.mp h
    rfl
  · rw [heq] at h
    obtain ⟨rfl, rfl, _⟩ := Env.runs_fail_iff.mp h
    exact ⟨[], Nat.zero_le _, rfl⟩
  rw [heq] at h
  obtain ⟨s₁, answer, s₂, tr', _, _, hrest, rfl⟩ := Env.runs_ask_iff.mp h
  cases answer with
  | error _ =>
      obtain ⟨rfl, rfl, _⟩ := Env.runs_ret_iff.mp hrest
      rfl
  | ok ptr =>
      refine runs_ofMapping (fun hsize => ?_) hrest
      rw [hmapLen, hsize, Nat.mul_zero, roundUp_eq_self (dvd_zero _)] at hpos
      exact lt_irrefl 0 hpos

/-- `T::default` unwinds at the second of two elements: the first is dropped and `munmap` called. -/
theorem hugeAllocation_new_exceptionSafe_panic : ∃ tr space',
    (memEnv (hugeHost 21) UInt8).Runs (HugeAllocation.new .w64 byteType 2) (fun _ => none) tr
        (.error .panicked) space' ∧
      ExceptionSafe (memEnv (hugeHost 21) UInt8) byteType 2 tr (.error .panicked) := by
  have hcleanup : (memEnv (hugeHost 21) UInt8).Runs
      (InitGuard.drop byteType ⟨2 ^ 21, hugepageBytes, 1⟩) (onePage 21 (2 ^ 21))
      [⟨onePage 21 (2 ^ 21), .dropInPlace (2 ^ 21), false⟩,
        ⟨onePage 21 (2 ^ 21), .munmap (2 ^ 21) hugepageBytes, .ok ()⟩]
      (.ok ()) ((onePage 21 (2 ^ 21)).fill (2 ^ 21) hugepageBytes none) :=
    .ask .refl rfl (.ask .refl munmap_onePage (.ret () _))
  have hinit : (memEnv (hugeHost 21) UInt8).Runs
      (initElements byteType ⟨2 ^ 21, hugepageBytes, 0⟩ 0 2) (onePage 21 (2 ^ 21))
      (⟨onePage 21 (2 ^ 21), .makeDefault, some 0⟩ :: ⟨onePage 21 (2 ^ 21), .write (2 ^ 21) 0, ()⟩ ::
        ⟨onePage 21 (2 ^ 21), .makeDefault, none⟩ :: _)
      (.error .panicked) _ :=
    .ask .refl rfl (.ask .refl rfl (.ask .refl rfl
      ((Env.runs_attempt_iff.mpr ⟨_, rfl, hcleanup⟩).bind (.fail _ _))))
  have hmmap : (memEnv (hugeHost 21) UInt8).serve (.mmap hugepageBytes true) (fun _ => none)
      (.ok (2 ^ 21)) (onePage 21 (2 ^ 21)) :=
    ⟨by decide, by decide, fun _ _ _ => rfl, rfl⟩
  have hlen : checkedLen .w64 byteType 2 = .ok 2 := by decide
  have hround : alignUp .w64 2 hugepageBytes = some hugepageBytes := by decide
  have hrun := runs_new_of_init .w64 (by decide) hlen hround hmmap (by decide) (by decide) hinit
  exact ⟨_, _, hrun, hugeAllocation_new_exceptionSafe .w64 byteType 2 _ _ _ _ _ hrun⟩

end KernelKit
