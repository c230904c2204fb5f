import KernelKit.Syscall
import Mathlib.Tactic.NormNum

/-!
# Memory under the allocating functions

An `AddressSpace` says of every byte whether it is mapped and with which page size. `MemOp` lists the
calls of the allocating functions: the system calls on address ranges, the global allocator, libnuma,
and the code of the element type, whose `default` and destructor may unwind.
-/

namespace KernelKit
open Interaction

inductive PageKind
  | base
  | huge
  deriving DecidableEq, Repr

/-- The machine: the width of `usize`, and the sizes of its base pages and default huge pages. -/
structure Host where
  width : Width
  pageSize : ℕ
  hugePageSize : ℕ
  pageSize_pos : 0 < pageSize
  hugePageSize_pow : ∃ k, hugePageSize = 2 ^ k

def Host.granule (host : Host) : PageKind → ℕ
  | .base => host.pageSize
  | .huge => host.hugePageSize

theorem Host.granule_pos (host : Host) (kind : PageKind) : 0 < host.granule kind := by
  cases kind with
  | base => exact host.pageSize_pos
  | huge =>
      obtain ⟨k, hk⟩ := host.hugePageSize_pow
      rw [Host.granule, hk]
      exact Nat.two_pow_pos k

def hugeHost (k : ℕ) : Host := ⟨.w64, 4096, 2 ^ k, by decide, k, rfl⟩

def roundUp (n g : ℕ) : ℕ := (n + g - 1) / g * g

theorem roundUp_eq_self {n g : ℕ} (h : g ∣ n) : roundUp n g = n := by
  obtain ⟨k, rfl⟩ := h
  rcases Nat.eq_zero_or_pos g with rfl | hg
  · simp [roundUp]
  · have hdiv : (g * k + g - 1) / g = k := by
      rw [Nat.add_sub_assoc hg, Nat.mul_add_div hg, Nat.div_eq_of_lt (by omega), Nat.add_zero]
    rw [roundUp, hdiv, Nat.mul_comm]

theorem le_roundUp {n g : ℕ} (hg : 0 < g) : n ≤ roundUp n g := by
  have hdiv := Nat.div_add_mod (n + g - 1) g
  have hmod := Nat.mod_lt (n + g - 1) hg
  rw [roundUp, Nat.mul_comm]
  omega

theorem roundUp_of_mod_ne_zero {n g : ℕ} (hg : 0 < g) (h : n % g ≠ 0) :
    roundUp n g = n + (g - n % g) := by
  have hmod := Nat.mod_lt n hg
  have hdiv := Nat.div_add_mod n g
  have hsplit : n + g - 1 = g * (n / g + 1) + (n % g - 1) := by
    rw [Nat.mul_add, Nat.mul_one]
    omega
  have hlt : n % g - 1 < g := by omega
  have hquot : (n + g - 1) / g = n / g + 1 := by
    rw [hsplit, Nat.mul_add_div hg, Nat.div_eq_of_lt hlt, Nat.add_zero]
  rw [roundUp, hquot, Nat.add_mul, Nat.one_mul, Nat.mul_comm (n / g)]
  omega

/-- Rounding up gives the least multiple that is at least `n`. -/
theorem isLeast_roundUp {n g : ℕ} (hg : 0 < g) : IsLeast {m | g ∣ m ∧ n ≤ m} (roundUp n g) := by
  refine ⟨⟨Nat.dvd_mul_left .., le_roundUp hg⟩, ?_⟩
  rintro m ⟨⟨k, rfl⟩, hle⟩
  have hlt : (n + g - 1) / g < k + 1 := by
    rw [Nat.div_lt_iff_lt_mul hg, Nat.succ_mul, Nat.mul_comm]
    omega
  rw [roundUp, Nat.mul_comm]
  exact Nat.mul_le_mul_left g (Nat.le_of_lt_succ hlt)

/-- The page kind of every mapped byte. -/
abbrev AddressSpace := ℕ → Option PageKind

namespace AddressSpace

variable (space : AddressSpace)

def Free (addr len : ℕ) : Prop := ∀ x, addr ≤ x → x < addr + len → space x = none

def fill (addr len : ℕ) (kind : Option PageKind) : AddressSpace :=
  fun x => if addr ≤ x ∧ x < addr + len then kind else space x

/-- `munmap`: a huge page mapping is released in whole huge pages or not at all. -/
def munmap (host : Host) (addr len : ℕ) : Option AddressSpace :=
  match space addr with
  | some .huge =>
    if host.hugePageSize ∣ addr ∧ host.hugePageSize ∣ len then some (space.fill addr len none)
    else none
  | _ =>
    if host.pageSize ∣ addr ∧ 0 < len then
      some (space.fill addr (roundUp len host.pageSize) none)
    else none

variable {space}

theorem fill_fill {addr len : ℕ} {kind : Option PageKind} (hfree : space.Free addr len) :
    (space.fill addr len kind).fill addr len none = space := by
  funext x
  unfold fill
  split_ifs with hx
  · exact (hfree x hx.1 hx.2).symm
  · rfl

theorem fill_of_mem {addr len x : ℕ} {kind : Option PageKind} (h₁ : addr ≤ x) (h₂ : x < addr + len) :
    space.fill addr len kind x = kind :=
  if_pos ⟨h₁, h₂⟩

end AddressSpace

/-- Calls of functions that allocate memory for elements of type `T`. -/
inductive MemOp (T : Type)
  | mmap (len : ℕ) (hugetlb : Bool)
  | munmap (addr len : ℕ)
  | lastOsError
  | madviseHugepage (addr len : ℕ)
  | mbind (addr len mode : ℕ) (nodemask : List ℕ) (maxnode flags : ℕ)
  | runOnNode (node : Int32)
  | tonodeMemory (addr len : ℕ) (node : Int32)
  | tryReserve (count : ℕ)
  | dealloc (addr : ℕ)
  | makeDefault
  | write (addr : ℕ) (value : T)
  | dropInPlace (addr : ℕ)

/-- What a call answers. `makeDefault` answers nothing and `dropInPlace` answers `true` if the code of
the element type unwinds; libnuma's functions answer the integer the crate reads as their result, and
`tryReserve`, a request to the global allocator, answers nothing if it cannot be satisfied. -/
abbrev MemOp.Ans {T : Type} : MemOp T → Type
  | .mmap _ _ => Except IoError ℕ
  | .munmap _ _ => Except IoError Unit
  | .lastOsError => IoError
  | .madviseHugepage _ _ => Except IoError Unit
  | .mbind _ _ _ _ _ _ => Except IoError Unit
  | .runOnNode _ => ℤ × IoError
  | .tonodeMemory _ _ _ => ℤ × IoError
  | .tryReserve _ => Option ℕ
  | .dealloc _ => Unit
  | .makeDefault => Option T
  | .write _ _ => Unit
  | .dropInPlace _ => Bool

abbrev MemProg (T α : Type) := Prog (MemOp T) MemOp.Ans Exit α

abbrev MemCall (T : Type) := Call AddressSpace (MemOp T) MemOp.Ans

def unmap {T : Type} (ptr len : ℕ) : MemProg T Unit := do
  let _ ← Prog.call (MemOp.munmap ptr len)
  pure ()

/-- Linux on `host`: `mmap` maps whole pages of its kind at a free place. Calls other than `mmap` and
`munmap` leave the address space as it is. -/
def memServe (host : Host) {T : Type} (op : MemOp T) (space : AddressSpace) (answer : op.Ans)
    (space' : AddressSpace) : Prop :=
  match op, answer with
  | .mmap len hugetlb, .ok addr =>
    let kind := if hugetlb then PageKind.huge else .base
    let mapped := roundUp len (host.granule kind)
    host.granule kind ∣ addr ∧ addr + mapped ≤ 2 ^ host.width.bits ∧ space.Free addr mapped ∧
      space' = space.fill addr mapped (some kind)
  | .munmap addr len, .ok () => space.munmap host addr len = some space'
  | .munmap addr len, .error _ => space.munmap host addr len = none ∧ space' = space
  | _, _ => space' = space

def memEnv (host : Host) (T : Type) : Env AddressSpace (MemOp T) MemOp.Ans where
  serve := memServe host
  interfere _ _ := False

def MemOp.Maps {T : Type} : MemOp T → Prop
  | .mmap _ _ | .munmap _ _ => True
  | _ => False

structure MapsOnly {σ T : Type} (E : Env σ (MemOp T) MemOp.Ans) : Prop where
  quiet : E.Quiet
  keeps : ∀ op s answer s', ¬ op.Maps → E.serve op s answer s' → s' = s

variable {host : Host} {T α : Type} {space space₁ space' : AddressSpace} {tr : List (MemCall T)}

theorem memEnv_quiet : (memEnv host T).Quiet := fun _ _ => id

theorem eq_of_memEnv_interfere
    (h : Relation.ReflTransGen (memEnv host T).interfere space space₁) : space₁ = space :=
  memEnv_quiet.eq_of_interfere h

theorem eq_of_serve_not_maps {op : MemOp T} {answer : op.Ans} (hop : ¬ op.Maps)
    (h : (memEnv host T).serve op space answer space') : space' = space := by
  cases op with
  | mmap | munmap => exact absurd trivial hop
  | _ => exact h

theorem memEnv_mapsOnly : MapsOnly (memEnv host T) :=
  ⟨memEnv_quiet, fun _ _ _ _ hop => eq_of_serve_not_maps hop⟩

/-- After `munmap` the range is released, or the call failed and all is as it was. -/
theorem serve_munmap {addr len : ℕ} {answer : Except IoError Unit}
    (h : (memEnv host T).serve (.munmap addr len) space answer space') :
    space' = (space.munmap host addr len).getD space := by
  cases answer with
  | ok _ =>
      have hsome : space.munmap host addr len = some space' := h
      rw [hsome, Option.getD_some]
  | error _ =>
      have hnone : space.munmap host addr len = none ∧ space' = space := h
      rw [hnone.1, hnone.2, Option.getD_none]

theorem runs_not_maps_bind {op : MemOp T} {f : op.Ans → MemProg T α} {r : Except Exit α}
    (hop : ¬ op.Maps) (h : (memEnv host T).Runs ((Prog.call op).bind f) space tr r space') :
    ∃ answer tr', (memEnv host T).Runs (f answer) space tr' r space' ∧
      tr = ⟨space, op, answer⟩ :: tr' := by
  rw [Prog.call_bind] at h
  obtain ⟨s, answer, s', tr', hrely, hserve, hrest, rfl⟩ := Env.runs_ask_iff.mp h
  have hs := eq_of_memEnv_interfere hrely
  have hs' := eq_of_serve_not_maps hop hserve
  subst hs hs'
  exact ⟨answer, tr', hrest, rfl⟩

theorem eq_of_runs_not_maps {p : MemProg T α} {r : Except Exit α} (hp : p.Only fun op => ¬ op.Maps)
    (h : (memEnv host T).Runs p space tr r space') : space' = space :=
  memEnv_quiet.runs_only memEnv_mapsOnly.keeps hp h

end KernelKit
