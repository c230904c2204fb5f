import KernelKit.HugePages
import Mathlib.Data.List.Nodup

/-!
# What a run does with mappings and elements

`effects` reads off a run which ranges it mapped, which it called `munmap` for, which places it wrote
elements to, which it dropped, and whose destructors unwound. The drop of elements ends in one of three
ways, by how many destructors unwind: it returns, it unwinds after all elements, or it aborts at the second
one.
-/

namespace KernelKit
open Interaction

/-- Ranges by address and length, and elements by address, each in the order of the run. -/
structure Effects where
  mapped : List (ℕ × ℕ) := []
  /-- The ranges `munmap` was called for, whatever it answered. -/
  unmapped : List (ℕ × ℕ) := []
  written : List ℕ := []
  dropped : List ℕ := []
  unwound : List ℕ := []
  freed : List ℕ := []
  deriving DecidableEq, Repr

def Effects.append (e e' : Effects) : Effects :=
  ⟨e.mapped ++ e'.mapped, e.unmapped ++ e'.unmapped, e.written ++ e'.written, e.dropped ++ e'.dropped,
    e.unwound ++ e'.unwound, e.freed ++ e'.freed⟩

instance : Append Effects := ⟨Effects.append⟩

theorem Effects.append_def (e e' : Effects) : e ++ e' =
    ⟨e.mapped ++ e'.mapped, e.unmapped ++ e'.unmapped, e.written ++ e'.written, e.dropped ++ e'.dropped,
      e.unwound ++ e'.unwound, e.freed ++ e'.freed⟩ := rfl

@[simp] theorem Effects.append_empty (e : Effects) : e ++ {} = e := by
  simp [append_def]

theorem Effects.append_assoc (e e' e'' : Effects) : e ++ e' ++ e'' = e ++ (e' ++ e'') := by
  simp [append_def]

variable {σ T : Type}

def effectOf : Call σ (MemOp T) MemOp.Ans → Effects
  | ⟨_, .mmap len _, .ok addr⟩ => { mapped := [(addr, len)] }
  | ⟨_, .munmap addr len, _⟩ => { unmapped := [(addr, len)] }
  | ⟨_, .write addr _, _⟩ => { written := [addr] }
  | ⟨_, .dropInPlace addr, unwinds⟩ => { dropped := [addr], unwound := if unwinds then [addr] else [] }
  | ⟨_, .dealloc addr, _⟩ => { freed := [addr] }
  | _ => {}

def effects : List (Call σ (MemOp T) MemOp.Ans) → Effects
  | [] => {}
  | c :: tr => effectOf c ++ effects tr

@[simp] theorem effects_nil : effects ([] : List (Call σ (MemOp T) MemOp.Ans)) = {} := rfl

@[simp] theorem effects_cons (c : Call σ (MemOp T) MemOp.Ans) (tr : List (Call σ (MemOp T) MemOp.Ans)) :
    effects (c :: tr) = effectOf c ++ effects tr := rfl

@[simp] theorem effects_append (tr tr' : List (Call σ (MemOp T) MemOp.Ans)) :
    effects (tr ++ tr') = effects tr ++ effects tr' := by
  induction tr with
  | nil => rfl
  | cons c tr ih => rw [List.cons_append, effects_cons, effects_cons, ih, Effects.append_assoc]

theorem effects_flatMap {β : Type} (field : Effects → List β) (hempty : field {} = [])
    (happend : ∀ e e', field (e ++ e') = field e ++ field e')
    (tr : List (Call σ (MemOp T) MemOp.Ans)) :
    field (effects tr) = tr.flatMap fun c => field (effectOf c) := by
  induction tr with
  | nil => exact hempty
  | cons c tr ih => rw [effects_cons, happend, List.flatMap_cons, ih]

def slots (elem : ElemType) (ptr start n : ℕ) : List ℕ :=
  (List.range' start n).map fun index => ptr + index * elem.size

variable {elem : ElemType} {ptr len index remaining n : ℕ}

theorem slots_succ : slots elem ptr index (n + 1) =
    (ptr + index * elem.size) :: slots elem ptr (index + 1) n := rfl

theorem nodup_slots (hsize : elem.size ≠ 0) : (slots elem ptr index n).Nodup := by
  refine List.Nodup.map (fun a b hab => ?_) (List.nodup_range' ..)
  exact Nat.eq_of_mul_eq_mul_right (Nat.pos_of_ne_zero hsize) (Nat.add_left_cancel hab)

/-! ### Drops -/

variable {E : Env σ (MemOp T) MemOp.Ans} {s s' : σ} {tr : List (Call σ (MemOp T) MemOp.Ans)}
  {r : Except Exit Unit}

/-- The drop of the elements at `places`, when a destructor is already unwinding or not: all of them are
dropped unless a second destructor unwinds. -/
def DropEnds (places : List ℕ) (unwinding : Bool) (e : Effects) (r : Except Exit Unit) : Prop :=
  ∃ dropped unwound, e = { dropped := dropped, unwound := unwound } ∧
    (r = .ok () ∧ unwinding.toNat + unwound.length = 0 ∧ dropped = places ∨
      r = .error .panicked ∧ unwinding.toNat + unwound.length = 1 ∧ dropped = places ∨
        r = .error .aborted ∧ unwinding.toNat + unwound.length = 2)

theorem DropEnds.cons {places : List ℕ} {unwinding unwinds : Bool} {addr : ℕ} {e : Effects}
    (hboth : (unwinding && unwinds) = false) (h : DropEnds places (unwinding || unwinds) e r) (s : σ) :
    DropEnds (addr :: places) unwinding
      (effectOf (⟨s, .dropInPlace addr, unwinds⟩ : Call σ (MemOp T) MemOp.Ans) ++ e) r := by
  obtain ⟨dropped, unwound, rfl, hends⟩ := h
  have hcount : unwinding.toNat + ((if unwinds then [addr] else []) ++ unwound).length =
      (unwinding || unwinds).toNat + unwound.length := by
    revert hboth
    cases unwinding <;> cases unwinds <;> simp [Nat.add_comm]
  refine ⟨addr :: dropped, (if unwinds then [addr] else []) ++ unwound, rfl, ?_⟩
  rw [hcount, List.cons.injEq, and_iff_right rfl]
  exact hends

theorem runs_dropElements_ends {unwinding : Bool}
    (h : E.Runs (dropElements elem ptr index remaining unwinding) s tr r s') :
    DropEnds (slots elem ptr index remaining) unwinding (effects tr) r := by
  induction remaining generalizing index unwinding s tr with
  | zero =>
      cases unwinding with
      | false =>
          obtain ⟨rfl, rfl, _⟩ := Env.runs_ret_iff.mp h
          exact ⟨[], [], rfl, .inl ⟨rfl, rfl, rfl⟩⟩
      | true =>
          obtain ⟨rfl, rfl, _⟩ := Env.runs_fail_iff.mp h
          exact ⟨[], [], rfl, .inr (.inl ⟨rfl, rfl, rfl⟩)⟩
  | succ remaining ih =>
      obtain ⟨_, unwinds, _, tr', _, _, hrest, rfl⟩ := Env.runs_ask_iff.mp h
      dsimp only [Prog.pure_eq_ret, Prog.ret_bind] at hrest
      split_ifs at hrest with hboth
      · obtain ⟨rfl, rfl, _⟩ := Env.runs_fail_iff.mp hrest
        obtain ⟨rfl, rfl⟩ := Bool.and_eq_true_iff.mp hboth
        exact ⟨_, _, rfl, .inr (.inr ⟨rfl, rfl⟩)⟩
      · exact (ih hrest).cons (Bool.eq_false_of_not_eq_true hboth) _

theorem runs_unmap_effects (h : E.Runs (unmap ptr len) s tr r s') :
    r = .ok () ∧ effects tr = { unmapped := [(ptr, len)] } := by
  obtain ⟨_, answer, _, _, _, _, hrest, rfl⟩ := Env.runs_ask_iff.mp h
  obtain ⟨rfl, rfl, _⟩ := Env.runs_ret_iff.mp hrest
  exact ⟨rfl, rfl⟩

def HugeAllocation.release (elem : ElemType) (allocation : HugeAllocation) : Effects :=
  { unmapped := [(allocation.ptr, allocation.mapLen)]
    dropped := slots elem allocation.ptr 0 allocation.count }

/-- The drop of an allocation: all elements and then the mapping, which a destructor that unwinds
leaves behind. -/
theorem runs_allocation_drop {allocation : HugeAllocation}
    (h : E.Runs (allocation.drop elem) s tr r s') :
    r = .ok () ∧ effects tr = allocation.release elem ∨
      (effects tr).unmapped = [] ∧ (effects tr).unwound ≠ [] ∧
        (r = .error .panicked ∧ (effects tr).dropped = slots elem allocation.ptr 0 allocation.count ∧
            (effects tr).unwound.length = 1 ∨
          r = .error .aborted ∧ (effects tr).unwound.length = 2) := by
  rcases Env.runs_bind_iff.mp h with ⟨exit, rfl, hdrop⟩ | ⟨_, s₁, t₁, t₂, hdrop, hunmap, rfl⟩
  · obtain ⟨dropped, unwound, heffects, hends⟩ := runs_dropElements_ends hdrop
    rw [heffects]
    simp only [Bool.toNat_false, Nat.zero_add] at hends
    rcases hends with ⟨⟨⟩, _⟩ | ⟨hr, hone, hdropped⟩ | ⟨hr, htwo⟩
    · have hne : unwound ≠ [] := List.ne_nil_of_length_pos (by omega)
      exact .inr ⟨rfl, hne, .inl ⟨hr, hdropped, hone⟩⟩
    · have hne : unwound ≠ [] := List.ne_nil_of_length_pos (by omega)
      exact .inr ⟨rfl, hne, .inr ⟨hr, htwo⟩⟩
  · obtain ⟨dropped, unwound, heffects, ⟨_, hnone, rfl⟩ | ⟨⟨⟩, _⟩ | ⟨⟨⟩, _⟩⟩ := runs_dropElements_ends hdrop
    obtain ⟨rfl, hunmapped⟩ := runs_unmap_effects hunmap
    obtain rfl := List.eq_nil_of_length_eq_zero (Nat.eq_zero_of_add_eq_zero_left hnone)
    rw [effects_append, heffects, hunmapped]
    refine .inl ⟨rfl, ?_⟩
    simp only [HugeAllocation.release, Effects.append_def, List.nil_append, List.append_nil]

/-- The guard drops like an allocation of the elements initialized so far. -/
theorem InitGuard.drop_eq (guard : InitGuard) : (guard.drop elem : MemProg T Unit) =
    HugeAllocation.drop elem ⟨guard.ptr, guard.initialized, guard.mapLen⟩ := by
  obtain ⟨ptr, mapLen, initialized⟩ := guard
  unfold InitGuard.drop HugeAllocation.drop
  cases initialized with
  | zero => rfl
  | succ n => rfl

end KernelKit
