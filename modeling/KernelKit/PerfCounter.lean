import KernelKit.PerfAttr
import KernelKit.Syscall
import Mathlib.Data.Option.Basic
import Mathlib.Logic.Function.Basic

/-!
# Hardware counters behind file descriptors

The four operations of a counter are programs over the raw system calls, whose failures leave an errno
for `last_os_error`. The kernel keeps a table of descriptors. Between any two calls the counters count on,
and the rest of the process opens and closes files of its own, so each operation is described up to that.
-/

namespace KernelKit.Perf
open Interaction Relation

/-- The raw calls; `errno` is what `last_os_error` reads. -/
inductive PerfOp
  | perfEventOpen (attr : List UInt8) (pid cpu groupFd : ℤ) (flags : ℕ)
  | read (fd : ℤ) (count : ℕ)
  | ioctl (fd : ℤ) (request : ℕ) (arg : ℤ)
  | close (fd : ℤ)
  | errno

/-- `read` answers with the number of bytes and with what the buffer then holds. -/
abbrev PerfOp.Ans : PerfOp → Type
  | .perfEventOpen .. => ℤ
  | .read .. => ℤ × UInt64
  | .ioctl .. => ℤ
  | .close _ => ℤ
  | .errno => ℕ

/-- How an operation fails: with an `Error::System` around the operating system's error, or around an
error of kind `UnexpectedEof` the crate builds. -/
inductive Failure
  | system (operation : String) (source : IoError)
  | unexpectedEof (operation message : String)
  deriving DecidableEq, Repr

abbrev PerfProg (α : Type) := Prog PerfOp PerfOp.Ans Failure α

def failLastOsError {α : Type} (operation : String) : PerfProg α :=
  .ask .errno fun errno => .fail (.system operation (.os errno))

structure PerfCounter where
  fd : ℤ
  counterType : HwCounter
  deriving DecidableEq, Repr

def i32TryFrom (v : ℤ) : Option ℤ := if -2 ^ 31 ≤ v ∧ v < 2 ^ 31 then some v else none

namespace PerfCounter

def openOn (order : ByteOrder) (counter : HwCounter) : PerfProg PerfCounter := do
  let result ← Prog.call (PerfOp.perfEventOpen (counter.attr.image order) 0 (-1) (-1) 0)
  let fd := (i32TryFrom result).getD (-1)
  if fd < 0 then failLastOsError "perf_event_open" else pure ⟨fd, counter⟩

def read (self : PerfCounter) : PerfProg UInt64 := do
  let (n, value) ← Prog.call (PerfOp.read self.fd 8)
  if n = 0 then
    .fail (.unexpectedEof "perf counter read" "perf counter returned EOF (counter may have been closed)")
  else if n ≠ 8 then failLastOsError "perf counter read"
  else pure value

def perfEventIocReset : ℕ := 0x2403

def reset (self : PerfCounter) : PerfProg Unit := do
  let result ← Prog.call (PerfOp.ioctl self.fd perfEventIocReset 0)
  if result < 0 then failLastOsError "perf counter reset" else pure ()

def drop (self : PerfCounter) : PerfProg Unit := do
  let _ ← Prog.call (PerfOp.close self.fd)
  pure ()

end PerfCounter

/-! ### The kernel -/

/-- An event the kernel counts: how many it has counted since it was opened, and how many it had at its
last reset. -/
structure Counting where
  event : PerfEvent
  total : ℕ
  base : ℕ

inductive OpenFile
  | counting (c : Counting)
  | other

structure Kernel where
  files : ℤ → Option OpenFile
  errno : ℕ

namespace Kernel

def install (k : Kernel) (fd : ℤ) (file : Option OpenFile) : Kernel :=
  { k with files := Function.update k.files fd file }

def counting (k : Kernel) (fd : ℤ) : Option Counting :=
  match k.files fd with
  | some (.counting c) => some c
  | _ => none

end Kernel

/-- `_IO('$', 3)`, the request that sets a counter to zero. -/
def iocReset : ℕ := 0x24 * 256 + 3

def Refused (result : ℤ) (k k' : Kernel) : Prop := result = -1 ∧ ∃ errno, k' = { k with errno := errno }

/-- Linux: a new descriptor is one that is not open, and a descriptor is free again once it was closed,
whatever `close` answers. Every call but `close` may fail, and a counter in an error state reads as the
end of the file. -/
def perfServe (host : PerfHost) (op : PerfOp) (k : Kernel) (answer : op.Ans) (k' : Kernel) : Prop :=
  match op, answer with
  | .perfEventOpen attr pid cpu groupFd flags, result =>
    Refused result k k' ∨ ∃ image, host.copyAttr attr = some image ∧ k.files result = none ∧
      0 ≤ result ∧ result < 2 ^ 31 ∧
      k' = k.install result (some (.counting ⟨host.event image pid cpu groupFd flags, 0, 0⟩))
  | .read fd count, (n, value) =>
    match k.files fd with
    | some (.counting c) => Refused n k k' ∨ n = 0 ∧ k' = k ∨
        8 ≤ count ∧ n = 8 ∧ value = UInt64.ofNat (c.total - c.base) ∧ k' = k
    | some .other => k'.files = k.files
    | none => Refused n k k'
  | .ioctl fd request arg, result =>
    match k.files fd with
    | some (.counting c) => Refused result k k' ∨ request = iocReset ∧ arg = 0 ∧ result = 0 ∧
        k' = k.install fd (some (.counting { c with base := c.total }))
    | _ => Refused result k k'
  | .close fd, result =>
    match k.files fd with
    | some _ => k'.files = Function.update k.files fd none
    | none => Refused result k k'
  | .errno, errno => errno = k.errno ∧ k' = k

/-- Meanwhile a counter counts on, and the rest of the process opens and closes other files. -/
inductive Elsewhere : Kernel → Kernel → Prop
  | counted {k : Kernel} {fd : ℤ} {c : Counting} (more : ℕ) : k.files fd = some (.counting c) →
      Elsewhere k (k.install fd (some (.counting { c with total := c.total + more })))
  | opened {k : Kernel} {fd : ℤ} : k.files fd = none → Elsewhere k (k.install fd (some .other))
  | closed {k : Kernel} {fd : ℤ} : k.files fd = some .other → Elsewhere k (k.install fd none)

def perfEnv (host : PerfHost) : Env Kernel PerfOp PerfOp.Ans := ⟨perfServe host, Elsewhere⟩

/-! ### The counters of a kernel -/

structure Counting.Onward (c c' : Counting) : Prop where
  event_eq : c'.event = c.event
  base_eq : c'.base = c.base
  total_le : c.total ≤ c'.total

def CountsOn (k k' : Kernel) : Prop := ∀ fd, Option.Rel Counting.Onward (k.counting fd) (k'.counting fd)

theorem Counting.Onward.refl (c : Counting) : c.Onward c := ⟨rfl, rfl, le_rfl⟩

theorem Counting.Onward.trans {c c' c'' : Counting} (h : c.Onward c') (h' : c'.Onward c'') :
    c.Onward c'' :=
  ⟨h'.event_eq.trans h.event_eq, h'.base_eq.trans h.base_eq, h.total_le.trans h'.total_le⟩

variable {host : PerfHost} {k k' k'' : Kernel} {fd : ℤ}

theorem CountsOn.refl (k : Kernel) : CountsOn k k := fun fd => by
  cases k.counting fd with
  | none => exact .none
  | some c => exact .some (.refl c)

theorem CountsOn.trans (h : CountsOn k k') (h' : CountsOn k' k'') : CountsOn k k'' := fun fd => by
  have h₁ := h fd
  have h₂ := h' fd
  revert h₁ h₂
  rcases k.counting fd with - | c <;> rcases k'.counting fd with - | c' <;>
    rcases k''.counting fd with - | c'' <;> rintro (⟨hc⟩ | -) (⟨hc'⟩ | -)
  · exact .none
  · exact .some (hc.trans hc')

theorem CountsOn.of_files (h : k'.files = k.files) : CountsOn k k' := by
  have hcounting : ∀ fd, k'.counting fd = k.counting fd := fun fd => by
    rw [Kernel.counting, h, Kernel.counting]
  intro fd
  rw [hcounting fd]
  exact CountsOn.refl k fd

theorem CountsOn.of_refused {result : ℤ} (h : Refused result k k') : CountsOn k k' := by
  obtain ⟨-, errno, rfl⟩ := h
  exact .of_files rfl

theorem CountsOn.counting {c : Counting} (h : CountsOn k k') (hc : k.counting fd = some c) :
    ∃ c', k'.counting fd = some c' ∧ c.Onward c' := by
  have hfd := h fd
  rw [hc] at hfd
  cases hc' : k'.counting fd with
  | none => rw [hc'] at hfd; cases hfd
  | some c' =>
      rw [hc'] at hfd
      cases hfd with
      | some honward => exact ⟨c', rfl, honward⟩

theorem CountsOn.isSome_iff (h : CountsOn k k') : (k'.counting fd).isSome ↔ (k.counting fd).isSome := by
  have hfd := h fd
  revert hfd
  rcases k.counting fd with - | c <;> rcases k'.counting fd with - | c' <;> rintro (⟨-⟩ | -) <;> simp

theorem counting_eq_some_iff {c : Counting} : k.counting fd = some c ↔ k.files fd = some (.counting c) := by
  unfold Kernel.counting
  split <;> simp_all

@[simp] theorem counting_install {file : Option OpenFile} {fd' : ℤ} : (k.install fd file).counting fd' =
    if fd' = fd then (match file with | some (.counting c) => some c | _ => none)
    else k.counting fd' := by
  unfold Kernel.counting Kernel.install
  by_cases hfd : fd' = fd
  · subst hfd
    simp only [Function.update_self, if_true]
  · simp only [Function.update_of_ne hfd, if_neg hfd]

theorem counting_install_counter {c : Counting} :
    (k.install fd (some (.counting c))).counting fd = some c := by
  rw [counting_install, if_pos rfl]

theorem counting_install_of_ne {file : Option OpenFile} {fd' : ℤ} (h : fd' ≠ fd) :
    (k.install fd file).counting fd' = k.counting fd' := by
  rw [counting_install, if_neg h]

theorem CountsOn.of_install {file : Option OpenFile}
    (h : Option.Rel Counting.Onward (k.counting fd)
      (match file with | some (.counting c) => some c | _ => none)) :
    CountsOn k (k.install fd file) := by
  intro fd'
  rw [counting_install]
  split_ifs with hfd
  · subst hfd
    exact h
  · exact CountsOn.refl k fd'

theorem CountsOn.of_elsewhere (h : ReflTransGen Elsewhere k k') : CountsOn k k' := by
  induction h with
  | refl => exact .refl k
  | tail _ hstep ih =>
      refine ih.trans ?_
      cases hstep with
      | @counted fd c more hfile =>
          refine .of_install ?_
          rw [counting_eq_some_iff.mpr hfile]
          exact .some ⟨rfl, rfl, Nat.le_add_right _ _⟩
      | @opened fd hfile | @closed fd hfile =>
          refine .of_install ?_
          rw [Kernel.counting, hfile]
          exact .none

end KernelKit.Perf
