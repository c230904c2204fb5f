import KernelKit.HugePages

/-!
# The standard library's `Vec`

What the allocating functions use of `Vec<T>`: the request for a buffer, `resize_with` on an empty
vector, and the destructor. A vector keeps the address of its buffer and its elements; where the
requested size exceeds `isize::MAX` the request fails without asking the allocator.
-/

namespace KernelKit
open Interaction

inductive TryReserveError
  | capacityOverflow
  | allocError
  deriving DecidableEq, Repr

def TryReserveError.message : TryReserveError → String
  | .capacityOverflow =>
    "memory allocation failed because the computed capacity exceeded the collection's maximum"
  | .allocError => "memory allocation failed because the memory allocator returned an error"

structure RustVec (T : Type) where
  ptr : ℕ
  capacity : ℕ
  values : List T

variable {T : Type}

def RustVec.len (vec : RustVec T) : ℕ := vec.values.length

def RustVec.empty (elem : ElemType) : RustVec T := ⟨elem.align, 0, []⟩

/-- How an empty vector is given room: `try_reserve` leaves some to grow into, `collect` does not. -/
inductive Room
  | amortized
  | exact
  deriving DecidableEq, Repr

/-- `RawVec::min_non_zero_cap`. -/
def minNonZeroCap (size : ℕ) : ℕ := if size = 1 then 8 else if size ≤ 1024 then 4 else 1

def Room.capacity (room : Room) (elem : ElemType) (count : ℕ) : ℕ :=
  match room with
  | .amortized => max count (minNonZeroCap elem.size)
  | .exact => count

theorem Room.le_capacity (room : Room) (elem : ElemType) (count : ℕ) :
    count ≤ room.capacity elem count := by
  cases room with
  | amortized => exact le_max_left _ _
  | exact => exact le_rfl

/-- A buffer for `count` elements. Empty buffers, and those of zero sized types, are not allocated. -/
def tryReserve (room : Room) (w : Width) (elem : ElemType) (count : ℕ) :
    MemProg T (Except TryReserveError (RustVec T)) :=
  if count = 0 ∨ elem.size = 0 then pure (.ok (.empty elem))
  else if w.isizeMax - (elem.align - 1) < room.capacity elem count * elem.size then
    pure (.error .capacityOverflow)
  else do
    let buffer ← Prog.call (MemOp.tryReserve (room.capacity elem count))
    match (buffer : Option ℕ) with
    | some ptr => pure (.ok ⟨ptr, room.capacity elem count, []⟩)
    | none => pure (.error .allocError)

def RustVec.free (elem : ElemType) (vec : RustVec T) : MemProg T Unit :=
  if vec.capacity > 0 ∧ elem.size > 0 then Prog.call (MemOp.dealloc vec.ptr) else pure ()

/-- The elements are dropped, and then the buffer is freed whether or not a destructor unwound. -/
def RustVec.drop (elem : ElemType) (vec : RustVec T) : MemProg T Unit := do
  let dropped ← (dropSlice elem vec.ptr vec.len).attempt
  match (dropped : Except Exit Unit) with
  | .ok () => vec.free elem
  | .error .aborted => .fail .aborted
  | .error exit => do
    vec.free elem
    .fail exit

/-- `resize_with(remaining, T::default)` on a vector with room for the new elements. If `T::default`
unwinds the vector is dropped, and if a destructor unwinds during that the process is aborted. -/
def RustVec.resizeWith (elem : ElemType) : RustVec T → ℕ → MemProg T (RustVec T)
  | vec, 0 => pure vec
  | vec, remaining + 1 => do
    let value ← Prog.call MemOp.makeDefault
    match (value : Option T) with
    | some value => resizeWith elem { vec with values := vec.values ++ [value] } remaining
    | none => do
      let cleanup ← (vec.drop elem).attempt
      match cleanup with
      | .ok () => .fail .panicked
      | .error _ => .fail .aborted

def RustVec.filled (room : Room) (refused : TryReserveError → Exit) (w : Width) (elem : ElemType)
    (count : ℕ) : MemProg T (RustVec T) := do
  let reserved ← tryReserve room w elem count
  match reserved with
  | .error error => .fail (refused error)
  | .ok values => values.resizeWith elem count

/-! ### Runs -/

def MemOp.OfElems : MemOp T → Prop
  | .dealloc _ | .makeDefault | .dropInPlace _ => True
  | _ => False

def IsReserve : MemOp T → Prop
  | .tryReserve _ => True
  | _ => False

def IsDefault : MemOp T → Prop
  | .makeDefault => True
  | _ => False

variable {room : Room} {w : Width} {elem : ElemType}

theorem MemOp.OfDrop.ofElems {op : MemOp T} (h : op.OfDrop) : op.OfElems := by
  cases op with
  | dealloc | dropInPlace => trivial
  | _ => exact h.elim

theorem MemOp.OfDrop.not_isDefault {op : MemOp T} (h : op.OfDrop) : ¬ IsDefault op := by
  cases op with
  | makeDefault => exact h.elim
  | _ => exact id

theorem MemOp.OfElems.not_isReserve {op : MemOp T} (h : op.OfElems) : ¬ IsReserve op := by
  cases op with
  | tryReserve => exact h.elim
  | _ => exact id

theorem RustVec.free_ofDrop {vec : RustVec T} : (vec.free elem).Only MemOp.OfDrop := by
  unfold free
  split_ifs
  · exact ⟨trivial, fun _ => trivial⟩
  · trivial

theorem RustVec.drop_ofDrop {vec : RustVec T} : (vec.drop elem).Only MemOp.OfDrop := by
  refine Prog.Only.bind (Prog.Only.attempt (dropElements_only fun _ => trivial)) fun dropped => ?_
  cases dropped with
  | ok _ => exact free_ofDrop
  | error exit =>
      cases exit with
      | aborted => trivial
      | _ => exact free_ofDrop.bind fun _ => trivial

theorem RustVec.resizeWith_ofElems {values : RustVec T} {remaining : ℕ} :
    (values.resizeWith elem remaining).Only MemOp.OfElems := by
  induction remaining generalizing values with
  | zero => trivial
  | succ remaining ih =>
      refine ⟨trivial, fun value => ?_⟩
      cases value with
      | some value => exact ih
      | none =>
          dsimp only [Prog.ret_bind]
          refine Prog.Only.bind (Prog.Only.attempt (drop_ofDrop.imp fun _ => MemOp.OfDrop.ofElems))
            fun cleanup => ?_
          cases cleanup <;> trivial

theorem tryReserve_isReserve {count : ℕ} : (tryReserve room w elem count : MemProg T _).Only IsReserve := by
  unfold tryReserve
  split_ifs
  · trivial
  · trivial
  · refine ⟨trivial, fun buffer => ?_⟩
    cases buffer <;> trivial

theorem RustVec.filled_only {P : MemOp T → Prop} (hreserve : ∀ op, IsReserve op → P op)
    (helems : ∀ op : MemOp T, op.OfElems → P op) {refused : TryReserveError → Exit} {count : ℕ} :
    (filled room refused w elem count : MemProg T _).Only P := by
  refine (tryReserve_isReserve.imp hreserve).bind fun reserved => ?_
  cases reserved with
  | error error => trivial
  | ok values => exact resizeWith_ofElems.imp helems

variable {σ : Type} {E : Env σ (MemOp T) MemOp.Ans} {s s' : σ}
  {tr : List (Call σ (MemOp T) MemOp.Ans)}

/-! ### What the element type produced -/

def answeredBy : Call σ (MemOp T) MemOp.Ans → Option (Option T)
  | ⟨_, .makeDefault, value⟩ => some value
  | _ => none

def defaults (tr : List (Call σ (MemOp T) MemOp.Ans)) : List (Option T) := tr.filterMap answeredBy

def Produces (tr : List (Call σ (MemOp T) MemOp.Ans)) (values : List T) : Prop :=
  defaults tr = values.map some

variable {tr' : List (Call σ (MemOp T) MemOp.Ans)}

@[simp] theorem defaults_nil : defaults ([] : List (Call σ (MemOp T) MemOp.Ans)) = [] := rfl

@[simp] theorem defaults_append : defaults (tr ++ tr') = defaults tr ++ defaults tr' :=
  List.filterMap_append

@[simp] theorem defaults_makeDefault {value : Option T} :
    defaults (⟨s, .makeDefault, value⟩ :: tr) = value :: defaults tr := rfl

theorem defaults_cons {c : Call σ (MemOp T) MemOp.Ans} (h : ¬ IsDefault c.op) :
    defaults (c :: tr) = defaults tr := by
  obtain ⟨s, op, answer⟩ := c
  cases op with
  | makeDefault => exact absurd trivial h
  | _ => rfl

theorem defaults_eq_nil (h : ∀ c ∈ tr, ¬ IsDefault c.op) : defaults tr = [] := by
  induction tr with
  | nil => rfl
  | cons c tr ih =>
      rw [List.forall_mem_cons] at h
      rw [defaults_cons h.1, ih h.2]

theorem defaults_of_only {α : Type} {p : MemProg T α} {r : Except Exit α}
    (hp : p.Only fun op => ¬ IsDefault op) (h : E.Runs p s tr r s') : defaults tr = [] :=
  defaults_eq_nil (h.ops_only hp)

/-- The loop of `resize_with` returns only if every `T::default` did. The vector keeps its buffer and has
the new elements, in their order, behind the old ones. -/
theorem runs_resizeWith {remaining : ℕ} {values result : RustVec T}
    (h : E.Runs (values.resizeWith elem remaining) s tr (.ok result) s') :
    ∃ produced, Produces tr produced ∧ produced.length = remaining ∧
      result = { values with values := values.values ++ produced } := by
  induction remaining generalizing values s tr with
  | zero =>
      obtain ⟨rfl, ⟨⟩, _⟩ := Env.runs_ret_iff.mp h
      refine ⟨[], rfl, rfl, ?_⟩
      rw [List.append_nil]
  | succ remaining ih =>
      obtain ⟨s₁, value, s₂, tr', _, _, hrest, rfl⟩ := Env.runs_ask_iff.mp h
      cases value with
      | some value =>
          obtain ⟨produced, hproduced, hlen, hresult⟩ := ih hrest
          refine ⟨value :: produced, ?_, by rw [List.length_cons, hlen], ?_⟩
          · rw [Produces, defaults_makeDefault, hproduced, List.map_cons]
          · rw [hresult, List.append_assoc, List.singleton_append]
      | none =>
          rw [Prog.ret_bind] at hrest
          obtain ⟨cleanup, _, _, _, _, hend, _⟩ := Env.runs_bind_ok_iff.mp hrest
          cases cleanup with
          | ok | error => obtain ⟨_, ⟨⟩, _⟩ := Env.runs_fail_iff.mp hend

theorem runs_resizeWith_error {remaining : ℕ} {values : RustVec T} {exit : Exit}
    (h : E.Runs (values.resizeWith elem remaining) s tr (.error exit) s') : none ∈ defaults tr := by
  induction remaining generalizing values s tr with
  | zero => obtain ⟨_, ⟨⟩, _⟩ := Env.runs_ret_iff.mp h
  | succ remaining ih =>
      obtain ⟨s₁, value, s₂, tr', _, _, hrest, rfl⟩ := Env.runs_ask_iff.mp h
      rw [defaults_makeDefault]
      cases value with
      | some value => exact List.mem_cons_of_mem _ (ih hrest)
      | none => exact List.mem_cons_self

def bufferOf : Call σ (MemOp T) MemOp.Ans → Option ℕ
  | ⟨_, .tryReserve _, addr⟩ => addr
  | _ => none

def buffers (tr : List (Call σ (MemOp T) MemOp.Ans)) : List ℕ := tr.filterMap bufferOf

@[simp] theorem buffers_append : buffers (tr ++ tr') = buffers tr ++ buffers tr' :=
  List.filterMap_append

theorem buffers_eq_nil (h : ∀ c ∈ tr, ¬ IsReserve c.op) : buffers tr = [] := by
  refine List.filterMap_eq_nil_iff.mpr fun c hc => ?_
  have hop := h c hc
  obtain ⟨_, op, answer⟩ := c
  cases op with
  | tryReserve => exact absurd trivial hop
  | _ => rfl

/-- What a request for a buffer leads to: a new vector, whose address is the allocator's if it was
asked, or an error and no buffer. -/
theorem runs_tryReserve {count : ℕ} {r : Except Exit (Except TryReserveError (RustVec T))}
    (h : E.Runs (tryReserve room w elem count) s tr r s') :
    defaults tr = [] ∧ ((∃ error, r = .ok (.error error)) ∧ buffers tr = [] ∨
      ∃ values, r = .ok (.ok values) ∧ values.values = [] ∧
        (count ≠ 0 → elem.size ≠ 0 → buffers tr = [values.ptr])) := by
  unfold tryReserve at h
  split_ifs at h with hzero
  · obtain ⟨rfl, rfl, _⟩ := Env.runs_ret_iff.mp h
    refine ⟨rfl, .inr ⟨_, rfl, rfl, fun hcount hsize => ?_⟩⟩
    exact absurd hzero (not_or.mpr ⟨hcount, hsize⟩)
  · obtain ⟨rfl, rfl, _⟩ := Env.runs_ret_iff.mp h
    exact ⟨rfl, .inl ⟨⟨_, rfl⟩, rfl⟩⟩
  · obtain ⟨_, buffer, _, _, _, _, hrest, rfl⟩ := Env.runs_ask_iff.mp h
    cases buffer with
    | none =>
        obtain ⟨rfl, rfl, _⟩ := Env.runs_ret_iff.mp hrest
        exact ⟨rfl, .inl ⟨⟨_, rfl⟩, rfl⟩⟩
    | some ptr =>
        obtain ⟨rfl, rfl, _⟩ := Env.runs_ret_iff.mp hrest
        exact ⟨rfl, .inr ⟨_, rfl, rfl, fun _ _ => rfl⟩⟩

theorem runs_filled {refused : TryReserveError → Exit} {count : ℕ} {values : RustVec T}
    (h : E.Runs (RustVec.filled room refused w elem count) s tr (.ok values) s') :
    Produces tr values.values ∧ values.len = count := by
  obtain ⟨reserved, s₁, t₁, t₂, hreserve, hfill, rfl⟩ := Env.runs_bind_ok_iff.mp h
  obtain ⟨hnone, ⟨⟨_, ⟨⟩⟩, _⟩ | ⟨empty, ⟨⟩, hempty, _⟩⟩ := runs_tryReserve hreserve
  · obtain ⟨_, ⟨⟩, _⟩ := Env.runs_fail_iff.mp hfill
  · obtain ⟨produced, hproduced, hlen, rfl⟩ := runs_resizeWith hfill
    rw [Produces, defaults_append, hnone, RustVec.len, hempty, List.nil_append, List.nil_append]
    exact ⟨hproduced, hlen⟩

/-- A vector that is filled has the buffer that was handed out, and every `T::default` returned; else
none was handed out or some `T::default` unwound. -/
theorem runs_filled_buffer {refused : TryReserveError → Exit} {count : ℕ} {r : Except Exit (RustVec T)}
    (hcount : count ≠ 0) (hsize : elem.size ≠ 0)
    (h : E.Runs (RustVec.filled room refused w elem count) s tr r s') :
    (∃ exit, r = .error exit) ∧ (buffers tr = [] ∨ none ∈ defaults tr) ∨
      ∃ values, r = .ok values ∧ buffers tr = [values.ptr] ∧ none ∉ defaults tr := by
  rcases Env.runs_bind_iff.mp h with ⟨_, rfl, hreserve⟩ | ⟨reserved, s₁, t₁, t₂, hreserve, hfill, rfl⟩
  · obtain ⟨_, ⟨⟨_, ⟨⟩⟩, _⟩ | ⟨_, ⟨⟩, _⟩⟩ := runs_tryReserve hreserve
  obtain ⟨hnone, ⟨⟨_, ⟨⟩⟩, hbuffers⟩ | ⟨empty, ⟨⟩, _, hbuffers⟩⟩ := runs_tryReserve hreserve
  · obtain ⟨rfl, rfl, _⟩ := Env.runs_fail_iff.mp hfill
    rw [List.append_nil]
    exact .inl ⟨⟨_, rfl⟩, .inl hbuffers⟩
  · have hfree : buffers t₂ = [] := buffers_eq_nil
      (hfill.ops_only (RustVec.resizeWith_ofElems.imp fun _ => MemOp.OfElems.not_isReserve))
    rw [buffers_append, defaults_append, hnone, hbuffers hcount hsize, hfree, List.nil_append,
      List.append_nil]
    cases r with
    | error exit => exact .inl ⟨⟨exit, rfl⟩, .inr (runs_resizeWith_error hfill)⟩
    | ok values =>
        obtain ⟨produced, hproduced, _, rfl⟩ := runs_resizeWith hfill
        refine .inr ⟨_, rfl, rfl, ?_⟩
        rw [hproduced]
        simp

theorem runs_filled_congr {refused : TryReserveError → Exit} (refused' : TryReserveError → Exit)
    {count : ℕ} {r : Except Exit (RustVec T)}
    (h : E.Runs (RustVec.filled room refused w elem count) s tr r s') :
    E.Runs (RustVec.filled room refused' w elem count) s tr r s' ∨ ∃ error, r = .error (refused error) ∧
      E.Runs (RustVec.filled room refused' w elem count) s tr (.error (refused' error)) s' := by
  rcases Env.runs_bind_iff.mp h with ⟨exit, rfl, hreserve⟩ | ⟨reserved, s₁, t₁, t₂, hreserve, hfill, rfl⟩
  · exact .inl (Env.runs_bind_iff.mpr (.inl ⟨exit, rfl, hreserve⟩))
  · cases reserved with
    | error error =>
        obtain ⟨rfl, rfl, rfl⟩ := Env.runs_fail_iff.mp hfill
        exact .inr ⟨error, rfl, hreserve.bind (.fail _ _)⟩
    | ok values => exact .inl (hreserve.bind hfill)

end KernelKit
