import KernelKit.RustVec
import KernelKit.ByteMemory

/-!
# Vectors that prefer huge pages

A `HugePageVec` is backed by a huge page allocation or by a `Vec`. Its three constructors take the same
two paths and differ in how they report that the `Vec` has no room: `new` panics or aborts, as `Vec`
itself does, `newFallible` and `tryNew` return an error each.
-/

namespace KernelKit
open Interaction ByteMemory

inductive Backing (T : Type)
  | standard (values : RustVec T)
  | huge (allocation : HugeAllocation)

structure HugePageVec (T : Type) where
  backing : Backing T

variable {T : Type}

def adviseThp (elem : ElemType) (values : RustVec T) : MemProg T Unit :=
  if values.len = 0 then pure ()
  else do
    let _ ← Prog.call (MemOp.madviseHugepage values.ptr (values.len * elem.size))
    pure ()

namespace HugePageVec

def newStandard (room : Room) (refused : TryReserveError → Exit) (w : Width) (elem : ElemType) (count : ℕ) :
    MemProg T (HugePageVec T) := do
  let values ← RustVec.filled room refused w elem count
  adviseThp elem values
  pure ⟨.standard values⟩

/-- The body of the constructors. The standard path is taken for empty vectors, for zero sized types,
and whenever no huge pages were obtained, be it with an error or without. -/
def newWith (room : Room) (refused : TryReserveError → Exit) (w : Width) (elem : ElemType) (count : ℕ) :
    MemProg T (HugePageVec T) := do
  let allocation ← catchErr (HugeAllocation.new w elem count)
  match allocation with
  | .ok (some allocation) => pure ⟨.huge allocation⟩
  | _ => newStandard room refused w elem count

def new (w : Width) (elem : ElemType) (count : ℕ) : MemProg T (HugePageVec T) :=
  newWith .exact (fun
    | .capacityOverflow => .panicked
    | .allocError => .aborted) w elem count

def newFallible (w : Width) (elem : ElemType) (count : ℕ) : MemProg T (HugePageVec T) :=
  newWith .amortized (fun _ => .err (.allocationOverflow count elem.name)) w elem count

def tryNew (w : Width) (elem : ElemType) (count : ℕ) : MemProg T (HugePageVec T) :=
  newWith .amortized (fun _ => .err (.allocationFailed count elem.name)) w elem count

def len (vec : HugePageVec T) : ℕ :=
  match vec.backing with
  | .standard values => values.len
  | .huge allocation => allocation.count

def isEmpty (vec : HugePageVec T) : Bool := vec.len = 0

variable {elem : ElemType} (codec : Codec T elem.size)

/-- What `as_slice` shows: the elements of the `Vec`, or the values that lie in the mapping. -/
def asSlice (vec : HugePageVec T) (mem : Memory) : List T :=
  match vec.backing with
  | .standard values => values.values
  | .huge allocation => readArray codec mem allocation.ptr allocation.count

def write (vec : HugePageVec T) (mem : Memory) (index : ℕ) (value : T) :
    Option (HugePageVec T × Memory) :=
  if index < vec.len then
    match vec.backing with
    | .standard values =>
      some (⟨.standard { values with values := values.values.set index value }⟩, mem)
    | .huge allocation =>
      some (vec, store mem (allocation.ptr + index * elem.size) (codec.encode value))
  else none

def read (vec : HugePageVec T) (mem : Memory) (index : ℕ) : Option T :=
  if index < vec.len then
    match vec.backing with
    | .standard values => values.values[index]?
    | .huge allocation => some (readValue codec mem (allocation.ptr + index * elem.size))
  else none

end HugePageVec

/-! ### Runs without elements -/

variable {w : Width} {elem : ElemType} {σ : Type} {E : Env σ (MemOp T) MemOp.Ans} {s s' : σ}
  {tr : List (Call σ (MemOp T) MemOp.Ans)}

theorem adviseThp_only {values : RustVec T} :
    (adviseThp elem values).Only fun op => ¬ IsDefault op := by
  unfold adviseThp
  split_ifs
  · trivial
  · exact ⟨id, fun _ => trivial⟩

theorem initElements_failsOnly {guard : InitGuard} {index remaining : ℕ} :
    (initElements elem guard index remaining : MemProg T Unit).FailsOnly
      fun exit => ∀ error, exit ≠ .err error := by
  induction remaining generalizing guard index with
  | zero => trivial
  | succ remaining ih =>
      intro value
      cases value with
      | some value => exact fun _ => ih
      | none =>
          dsimp only [Prog.ret_bind]
          refine Prog.FailsOnly.bind Prog.failsOnly_attempt fun cleanup => ?_
          cases cleanup with
          | ok | error => rintro error ⟨⟩

/-- Without an allocation, and without unwinding, no element was made. -/
theorem runs_hugeAllocation_none {count : ℕ} {r : Except Exit (Option HugeAllocation)}
    (h : E.Runs (HugeAllocation.new w elem count) s tr r s')
    (hr : r = .ok none ∨ ∃ error, r = .error (.err error)) : defaults tr = [] := by
  rcases HugeAllocation.new_cases w elem count with heq | ⟨_, heq⟩ | ⟨mapLen, _, _, heq⟩
  · rw [heq] at h
    rw [(Env.runs_ret_iff.mp h).1, defaults_nil]
  · rw [heq] at h
    rw [(Env.runs_fail_iff.mp h).1, defaults_nil]
  rw [heq] at h
  obtain ⟨s₁, answer, s₂, tr', _, _, hrest, rfl⟩ := Env.runs_ask_iff.mp h
  rw [defaults_cons id]
  cases answer with
  | error _ => rw [(Env.runs_ret_iff.mp hrest).1, defaults_nil]
  | ok addr =>
      dsimp only at hrest
      unfold HugeAllocation.ofMapping at hrest
      split_ifs at hrest
      · refine defaults_of_only ?_ hrest
        exact ⟨id, fun _ => ⟨id, fun _ => trivial⟩⟩
      · rcases Env.runs_bind_iff.mp hrest with ⟨exit, rfl, hloop⟩ | ⟨_, _, _, _, _, hend, _⟩
        · obtain ⟨⟨⟩⟩ | ⟨error, ⟨⟩⟩ := hr
          exact absurd rfl (hloop.of_failsOnly initElements_failsOnly error)
        · obtain ⟨_, rfl, _⟩ := Env.runs_ret_iff.mp hend
          obtain ⟨⟨⟩⟩ | ⟨error, ⟨⟩⟩ := hr
      · refine defaults_of_only ?_ hrest
        exact ⟨id, fun _ => trivial⟩

end KernelKit
