import KernelKit.Memory

/-!
# Huge page allocations

`HugeAllocation.new` maps huge pages and initializes the elements under an `InitGuard`, which releases
the mapping if `T::default` unwinds; `HugeAllocation.drop` drops the elements and releases the
mapping. Both follow `hugepages.rs`, with the drop of a slice as Rust's drop glue does it.
-/

namespace KernelKit
open Interaction Relation

structure ElemType where
  name : String
  size : ℕ
  align : ℕ
  align_pos : 0 < align
  align_dvd : align ∣ size

def byteType : ElemType := ⟨"u8", 1, 1, by decide, by decide⟩

def checkedLenAt (bits : ℕ) (elem : ElemType) (count : ℕ) : Except Error ℕ :=
  let len := count * elem.size
  if len ≤ 2 ^ bits - 1 then .ok len else .error (.allocationOverflow count elem.name)

def checkedLen (w : Width) (elem : ElemType) (count : ℕ) : Except Error ℕ :=
  checkedLenAt w.bits elem count

def alignUpAt (bits value alignment : ℕ) : Option ℕ :=
  let remainder := value % alignment
  if remainder = 0 then some value
  else
    let sum := value + (alignment - remainder)
    if sum ≤ 2 ^ bits - 1 then some sum else none

def alignUp (w : Width) (value alignment : ℕ) : Option ℕ := alignUpAt w.bits value alignment

def hugepageBytes : ℕ := 2 * 1024 * 1024

structure HugeAllocation where
  ptr : ℕ
  count : ℕ
  mapLen : ℕ
  deriving DecidableEq, Repr

structure InitGuard where
  ptr : ℕ
  mapLen : ℕ
  initialized : ℕ
  deriving DecidableEq, Repr

variable {T : Type}

/-- `ptr::drop_in_place` of a slice. If a destructor unwinds the remaining elements are still dropped
before the drop unwinds, and a second one that unwinds aborts the process. -/
def dropElements (elem : ElemType) (ptr : ℕ) : ℕ → ℕ → Bool → MemProg T Unit
  | _, 0, unwinding => if unwinding then .fail .panicked else pure ()
  | index, remaining + 1, unwinding => do
    let unwinds ← Prog.call (MemOp.dropInPlace (ptr + index * elem.size))
    if unwinding && unwinds then .fail .aborted
    else dropElements elem ptr (index + 1) remaining (unwinding || unwinds)

def dropSlice (elem : ElemType) (ptr count : ℕ) : MemProg T Unit := dropElements elem ptr 0 count false

def InitGuard.drop (elem : ElemType) (guard : InitGuard) : MemProg T Unit := do
  if guard.initialized > 0 then
    dropSlice elem guard.ptr guard.initialized
  unmap guard.ptr guard.mapLen

/-- The initialization loop. If `T::default` unwinds the guard is dropped, and if a destructor unwinds
during that the process is aborted. -/
def initElements (elem : ElemType) : InitGuard → ℕ → ℕ → MemProg T Unit
  | _, _, 0 => pure ()
  | guard, index, remaining + 1 => do
    let value ← Prog.call MemOp.makeDefault
    match (value : Option T) with
    | some value => do
      let () ← Prog.call (MemOp.write (guard.ptr + index * elem.size) value)
      initElements elem { guard with initialized := guard.initialized + 1 } (index + 1) remaining
    | none => do
      let cleanup ← (guard.drop elem).attempt
      match cleanup with
      | .ok () => .fail .panicked
      | .error _ => .fail .aborted

def HugeAllocation.ofMapping (elem : ElemType) (count mapLen rawPtr : ℕ) :
    MemProg T (Option HugeAllocation) :=
  if ¬ elem.align ∣ rawPtr then do
    unmap rawPtr mapLen
    throw (.system "mmap(align)" (.custom .invalidData
      s!"hugepage mapping alignment {rawPtr} does not satisfy type alignment {elem.align}"))
  else if rawPtr = 0 then do
    let source ← Prog.call MemOp.lastOsError
    unmap rawPtr mapLen
    throw (.system "mmap" source)
  else do
    initElements elem ⟨rawPtr, mapLen, 0⟩ 0 count
    pure (some ⟨rawPtr, count, mapLen⟩)

def HugeAllocation.newAt (bits : ℕ) (elem : ElemType) (count : ℕ) : MemProg T (Option HugeAllocation) :=
  if count = 0 ∨ elem.size = 0 then
    pure none
  else
    match checkedLenAt bits elem count with
    | .error error => throw error
    | .ok byteLen =>
      match alignUpAt bits byteLen hugepageBytes with
      | none => throw (.allocationOverflow count elem.name)
      | some mapLen => do
        let rawPtr ← Prog.call (MemOp.mmap mapLen true)
        match (rawPtr : Except IoError ℕ) with
        | .error _ => pure none
        | .ok rawPtr => ofMapping elem count mapLen rawPtr

def HugeAllocation.new (w : Width) (elem : ElemType) (count : ℕ) : MemProg T (Option HugeAllocation) :=
  newAt w.bits elem count

def HugeAllocation.drop (elem : ElemType) (allocation : HugeAllocation) : MemProg T Unit := do
  dropSlice elem allocation.ptr allocation.count
  unmap allocation.ptr allocation.mapLen

def allocateAndDrop (w : Width) (elem : ElemType) (count : ℕ) : MemProg T Unit := do
  let allocation ← HugeAllocation.new w elem count
  match allocation with
  | none => pure ()
  | some allocation => allocation.drop elem

/-! ### Size arithmetic -/

theorem alignUp_eq_some {w : Width} {value alignment n : ℕ} (hpos : 0 < alignment)
    (h : alignUp w value alignment = some n) : n = roundUp value alignment := by
  unfold alignUp alignUpAt at h
  dsimp only at h
  split_ifs at h with hzero
  · cases h
    exact (roundUp_eq_self (Nat.dvd_of_mod_eq_zero hzero)).symm
  · cases h
    exact (roundUp_of_mod_ne_zero hpos hzero).symm

theorem checkedLen_eq_ok {w : Width} {elem : ElemType} {count n : ℕ}
    (h : checkedLen w elem count = .ok n) : n = count * elem.size := by
  unfold checkedLen checkedLenAt at h
  dsimp only at h
  split_ifs at h
  cases h
  rfl

theorem mapLen_spec {w : Width} {elem : ElemType} {count byteLen mapLen : ℕ}
    (hzero : ¬ (count = 0 ∨ elem.size = 0)) (hlen : checkedLen w elem count = .ok byteLen)
    (halign : alignUp w byteLen hugepageBytes = some mapLen) :
    mapLen = roundUp (count * elem.size) hugepageBytes ∧ 0 < mapLen := by
  have hmapLen := alignUp_eq_some (by decide) halign
  rw [checkedLen_eq_ok hlen] at hmapLen
  have hpos : 0 < count * elem.size := by
    rw [not_or] at hzero
    exact Nat.mul_pos (Nat.pos_of_ne_zero hzero.1) (Nat.pos_of_ne_zero hzero.2)
  refine ⟨hmapLen, ?_⟩
  rw [hmapLen]
  exact hpos.trans_le (le_roundUp (by decide))

theorem HugeAllocation.new_eq {w : Width} {elem : ElemType} {count byteLen mapLen : ℕ}
    (hzero : ¬ (count = 0 ∨ elem.size = 0)) (hlen : checkedLen w elem count = .ok byteLen)
    (halign : alignUp w byteLen hugepageBytes = some mapLen) :
    (HugeAllocation.new w elem count : MemProg T _) = .ask (.mmap mapLen true) fun answer =>
      match answer with
      | .error _ => .ret none
      | .ok rawPtr => HugeAllocation.ofMapping elem count mapLen rawPtr := by
  rw [checkedLen] at hlen
  rw [alignUp] at halign
  rw [new, newAt, if_neg hzero, hlen]
  dsimp only
  rw [halign]
  rfl

/-- `HugeAllocation.new` ends before the first call, or it asks for a mapping with room for the elements
and goes on from the answer. -/
theorem HugeAllocation.new_cases (w : Width) (elem : ElemType) (count : ℕ) :
    (HugeAllocation.new w elem count : MemProg T _) = .ret none ∨
      (∃ error, (HugeAllocation.new w elem count : MemProg T _) = .fail (.err error)) ∨
      ∃ mapLen, mapLen = roundUp (count * elem.size) hugepageBytes ∧ 0 < mapLen ∧
        (HugeAllocation.new w elem count : MemProg T _) = .ask (.mmap mapLen true) fun answer =>
          match answer with
          | .error _ => .ret none
          | .ok rawPtr => HugeAllocation.ofMapping elem count mapLen rawPtr := by
  by_cases hzero : count = 0 ∨ elem.size = 0
  · exact .inl (if_pos hzero)
  cases hlen : checkedLen w elem count with
  | error error =>
      refine .inr (.inl ⟨error, ?_⟩)
      rw [checkedLen] at hlen
      rw [new, newAt, if_neg hzero, hlen]
      rfl
  | ok byteLen =>
      cases halign : alignUp w byteLen hugepageBytes with
      | none =>
          refine .inr (.inl ⟨.allocationOverflow count elem.name, ?_⟩)
          rw [checkedLen] at hlen
          rw [alignUp] at halign
          rw [new, newAt, if_neg hzero, hlen]
          dsimp only
          rw [halign]
          rfl
      | some mapLen =>
          obtain ⟨hmapLen, hpos⟩ := mapLen_spec hzero hlen halign
          exact .inr (.inr ⟨mapLen, hmapLen, hpos, new_eq hzero hlen halign⟩)

/-! ### The calls of these functions -/

def MemOp.OfDrop : MemOp T → Prop
  | .dealloc _ | .dropInPlace _ => True
  | _ => False

def MemOp.OfHuge : MemOp T → Prop
  | .munmap _ _ | .lastOsError | .makeDefault | .write _ _ | .dropInPlace _ => True
  | _ => False

variable {elem : ElemType} {ptr len count index remaining : ℕ}

theorem dropElements_only {P : MemOp T → Prop} (h : ∀ addr, P (.dropInPlace addr)) {unwinding : Bool} :
    (dropElements elem ptr index remaining unwinding : MemProg T Unit).Only P := by
  induction remaining generalizing index unwinding with
  | zero => cases unwinding <;> trivial
  | succ remaining ih =>
      refine ⟨h _, fun unwinds => ?_⟩
      dsimp only [Prog.pure_eq_ret, Prog.ret_bind]
      split_ifs
      · trivial
      · exact ih

theorem unmap_ofHuge : (unmap ptr len : MemProg T Unit).Only MemOp.OfHuge := ⟨trivial, fun _ => trivial⟩

theorem dropSlice_ofHuge : (dropSlice elem ptr count : MemProg T Unit).Only MemOp.OfHuge :=
  dropElements_only fun _ => trivial

theorem InitGuard.drop_ofHuge {guard : InitGuard} :
    (guard.drop elem : MemProg T Unit).Only MemOp.OfHuge := by
  unfold InitGuard.drop
  split_ifs
  · exact dropSlice_ofHuge.bind fun _ => unmap_ofHuge
  · exact unmap_ofHuge

theorem initElements_ofHuge {guard : InitGuard} :
    (initElements elem guard index remaining : MemProg T Unit).Only MemOp.OfHuge := by
  induction remaining generalizing guard index with
  | zero => trivial
  | succ remaining ih =>
      refine ⟨trivial, fun value => ?_⟩
      cases value with
      | some value => exact ⟨trivial, fun _ => ih⟩
      | none =>
          refine InitGuard.drop_ofHuge.attempt.bind fun cleanup => ?_
          cases cleanup <;> trivial

theorem HugeAllocation.ofMapping_ofHuge :
    (ofMapping elem count len ptr : MemProg T _).Only MemOp.OfHuge := by
  unfold ofMapping
  split_ifs
  · exact ⟨trivial, fun _ => unmap_ofHuge.bind fun _ => trivial⟩
  · exact initElements_ofHuge.bind fun _ => trivial
  · exact unmap_ofHuge.bind fun _ => trivial

/-- `HugeAllocation.new` asks for a mapping of huge pages, and its other calls are about that. -/
theorem HugeAllocation.new_only {w : Width} {P : MemOp T → Prop} (hmmap : ∀ len, P (.mmap len true))
    (hhuge : ∀ op : MemOp T, op.OfHuge → P op) : (new w elem count : MemProg T _).Only P := by
  rcases new_cases w elem count with heq | ⟨_, heq⟩ | ⟨mapLen, _, _, heq⟩
  · rw [heq]
    trivial
  · rw [heq]
    trivial
  · rw [heq]
    refine ⟨hmmap _, fun answer => ?_⟩
    cases answer with
    | error _ => trivial
    | ok rawPtr => exact ofMapping_ofHuge.imp hhuge

/-! ### The initialization loop -/

section Turn

variable {σ : Type} {E : Env σ (MemOp T) MemOp.Ans} {s s' : σ} {tr : List (Call σ (MemOp T) MemOp.Ans)}

def exitAfterCleanup : Except Exit Unit → Exit
  | .ok () => .panicked
  | .error _ => .aborted

/-- How the loop may go on when there are elements to make: one is made and written, or `T::default`
unwinds and the guard is dropped. -/
inductive InitTurn (E : Env σ (MemOp T) MemOp.Ans) (elem : ElemType) (guard : InitGuard)
    (index remaining : ℕ) (s : σ) :
    List (Call σ (MemOp T) MemOp.Ans) → Except Exit Unit → σ → Prop
  | made {value : T} {s₁ s₂ s₃ s₄ s' : σ} {tr : List (Call σ (MemOp T) MemOp.Ans)}
      {r : Except Exit Unit} :
      ReflTransGen E.interfere s s₁ → E.serve .makeDefault s₁ (some value) s₂ →
      ReflTransGen E.interfere s₂ s₃ →
      E.serve (.write (guard.ptr + index * elem.size) value) s₃ () s₄ →
      E.Runs (initElements elem { guard with initialized := guard.initialized + 1 } (index + 1) remaining)
        s₄ tr r s' →
      InitTurn E elem guard index remaining s (⟨s₁, .makeDefault, some value⟩ ::
        ⟨s₃, .write (guard.ptr + index * elem.size) value, ()⟩ :: tr) r s'
  | unwound {s₁ s₂ s' : σ} {tr : List (Call σ (MemOp T) MemOp.Ans)} {cleanup : Except Exit Unit} :
      ReflTransGen E.interfere s s₁ → E.serve .makeDefault s₁ none s₂ →
      E.Runs (guard.drop elem) s₂ tr cleanup s' →
      InitTurn E elem guard index remaining s (⟨s₁, .makeDefault, none⟩ :: tr)
        (.error (exitAfterCleanup cleanup)) s'

theorem runs_initElements_succ {guard : InitGuard} {r : Except Exit Unit}
    (h : E.Runs (initElements elem guard index (remaining + 1)) s tr r s') :
    InitTurn E elem guard index remaining s tr r s' := by
  obtain ⟨s₁, value, s₂, tr', hrely, hmake, hrest, rfl⟩ := Env.runs_ask_iff.mp h
  cases value with
  | some value =>
      obtain ⟨s₃, _, s₄, tr'', hrely', hwrite, hloop, rfl⟩ := Env.runs_ask_iff.mp hrest
      exact .made hrely hmake hrely' hwrite hloop
  | none =>
      rw [Prog.ret_bind] at hrest
      rcases Env.runs_bind_iff.mp hrest with
        ⟨_, rfl, hcleanup⟩ | ⟨cleanup, s₃, t₁, t₂, hcleanup, hend, rfl⟩
      · obtain ⟨_, ⟨⟩, _⟩ := Env.runs_attempt_iff.mp hcleanup
      obtain ⟨_, hcleanup, hdrop⟩ := Env.runs_attempt_iff.mp hcleanup
      cases hcleanup
      cases cleanup with
      | ok | error =>
          obtain ⟨rfl, rfl, rfl⟩ := Env.runs_fail_iff.mp hend
          rw [List.append_nil]
          exact .unwound hrely hmake hdrop

theorem runs_new_ok {w : Width} {allocation : HugeAllocation}
    (h : E.Runs (HugeAllocation.new w elem count) s tr (.ok (some allocation)) s') :
    allocation.count = count ∧ allocation.ptr ≠ 0 ∧ elem.align ∣ allocation.ptr ∧
      allocation.mapLen = roundUp (count * elem.size) hugepageBytes ∧
      ∃ s₁ s₂ tr', ReflTransGen E.interfere s s₁ ∧
        E.serve (.mmap allocation.mapLen true) s₁ (.ok allocation.ptr) s₂ ∧
        tr = ⟨s₁, .mmap allocation.mapLen true, .ok allocation.ptr⟩ :: tr' ∧
        E.Runs (initElements elem ⟨allocation.ptr, allocation.mapLen, 0⟩ 0 count) s₂ tr' (.ok ()) s' := by
  rcases HugeAllocation.new_cases w elem count with heq | ⟨_, heq⟩ | ⟨mapLen, hmapLen, _, heq⟩
  · rw [heq] at h
    obtain ⟨_, ⟨⟩, _⟩ := Env.runs_ret_iff.mp h
  · rw [heq] at h
    obtain ⟨_, ⟨⟩, _⟩ := Env.runs_fail_iff.mp h
  rw [heq] at h
  obtain ⟨s₁, answer, s₂, tr', hrely, hserve, hrest, rfl⟩ := Env.runs_ask_iff.mp h
  cases answer with
  | error _ => obtain ⟨_, ⟨⟩, _⟩ := Env.runs_ret_iff.mp hrest
  | ok ptr =>
      dsimp only at hrest
      unfold HugeAllocation.ofMapping at hrest
      split_ifs at hrest with halign hptr
      · obtain ⟨_, _, _, _, _, hend, _⟩ := Env.runs_bind_ok_iff.mp hrest
        obtain ⟨_, _, _, _, _, hend, _⟩ := Env.runs_bind_ok_iff.mp hend
        obtain ⟨_, ⟨⟩, _⟩ := runs_throw_iff.mp hend
      · obtain ⟨_, _, t₁, t₂, hloop, hend, rfl⟩ := Env.runs_bind_ok_iff.mp hrest
        obtain ⟨rfl, ⟨⟩, rfl⟩ := Env.runs_ret_iff.mp hend
        rw [List.append_nil]
        exact ⟨rfl, hptr, halign, hmapLen, s₁, s₂, t₁, hrely, hserve, rfl, hloop⟩
      · obtain ⟨_, _, _, _, _, hend, _⟩ := Env.runs_bind_ok_iff.mp hrest
        obtain ⟨_, ⟨⟩, _⟩ := runs_throw_iff.mp hend

theorem runs_new_of_init (w : Width) {byteLen mapLen ptr : ℕ} {s₁ : σ} {r : Except Exit Unit}
    (hzero : ¬ (count = 0 ∨ elem.size = 0)) (hlen : checkedLen w elem count = .ok byteLen)
    (hround : alignUp w byteLen hugepageBytes = some mapLen)
    (hmmap : E.serve (.mmap mapLen true) s (.ok ptr) s₁) (halign : elem.align ∣ ptr) (hptr : ptr ≠ 0)
    (hinit : E.Runs (initElements elem ⟨ptr, mapLen, 0⟩ 0 count) s₁ tr r s') :
    E.Runs (HugeAllocation.new w elem count) s (⟨s, .mmap mapLen true, .ok ptr⟩ :: tr)
      (r.map fun () => some ⟨ptr, count, mapLen⟩) s' := by
  rw [HugeAllocation.new_eq hzero hlen hround]
  refine .ask .refl hmmap ?_
  dsimp only
  rw [HugeAllocation.ofMapping, if_neg (not_not_intro halign), if_neg hptr]
  cases r with
  | error exit => exact Env.runs_bind_iff.mpr (.inl ⟨exit, rfl, hinit⟩)
  | ok _ =>
      rw [← List.append_nil tr]
      exact hinit.bind (.ret _ s')

end Turn

end KernelKit
