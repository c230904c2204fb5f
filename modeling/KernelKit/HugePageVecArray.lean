import KernelKit.HugePageVec

/-!
# Huge page vectors are arrays

Memory here is a byte for every address, and the process owns the mappings it made: nobody else writes
to them, and a write of an element stores its bytes at its address and changes nothing else. Whichever
backing a constructor chose, the vector then holds what `T::default` produced, in order, and every
sequence of reads and writes gives the results it gives on a plain array.
-/

namespace KernelKit
open Interaction ByteMemory Relation

structure ByteWorld where
  owned : ℕ → Prop
  mem : Memory

def ByteWorld.Kept (world world' : ByteWorld) : Prop :=
  world'.owned = world.owned ∧ ∀ x, world.owned x → world'.mem x = world.mem x

/-- `mmap` may answer any address from which the length fits into the address space. -/
def byteServe (w : Width) {T : Type} {size : ℕ} (codec : Codec T size) (op : MemOp T)
    (world : ByteWorld) (answer : op.Ans) (world' : ByteWorld) : Prop :=
  match op, answer with
  | .mmap len _, .ok addr => addr + len ≤ 2 ^ w.bits ∧
    (∀ x, world'.owned x ↔ world.owned x ∨ addr ≤ x ∧ x < addr + len) ∧
    ∀ x, world.owned x → world'.mem x = world.mem x
  | .munmap addr len, .ok () =>
    (∀ x, world'.owned x ↔ world.owned x ∧ ¬ (addr ≤ x ∧ x < addr + len)) ∧
    ∀ x, world'.owned x → world'.mem x = world.mem x
  | .write addr value, () =>
    world'.owned = world.owned ∧ world'.mem = store world.mem addr (codec.encode value)
  | _, _ => world.Kept world'

def byteEnv (w : Width) {T : Type} {size : ℕ} (codec : Codec T size) :
    Env ByteWorld (MemOp T) MemOp.Ans where
  serve := byteServe w codec
  interfere := ByteWorld.Kept

variable {T σ : Type}

def vecOps {elem : ElemType} (codec : Codec T elem.size) : ArrayOps (HugePageVec T × Memory) T where
  read s index := s.1.read codec s.2 index
  write s index value := s.1.write codec s.2 index value

variable {room : Room} {w : Width} {elem : ElemType} {codec : Codec T elem.size} {world world' : ByteWorld}
  {vec : HugePageVec T} {mem : Memory}

/-! ### Accesses -/

@[simp] theorem length_asSlice : (vec.asSlice codec mem).length = vec.len := by
  obtain ⟨values | allocation⟩ := vec
  · rfl
  · exact length_readArray

theorem read_eq (index : ℕ) : vec.read codec mem index = (vec.asSlice codec mem)[index]? := by
  unfold HugePageVec.read
  split_ifs with hindex
  · obtain ⟨values | allocation⟩ := vec
    · rfl
    · exact (getElem?_readArray hindex).symm
  · rw [List.getElem?_eq_none]
    rw [length_asSlice]
    omega

theorem write_rel {values : List T} (h : vec.asSlice codec mem = values) (index : ℕ) (value : T) :
    Option.Rel (fun s values => s.1.asSlice codec s.2 = values) (vec.write codec mem index value)
      ((plainArray T).write values index value) := by
  subst h
  unfold HugePageVec.write plainArray
  dsimp only
  rw [length_asSlice]
  split_ifs with hindex
  · obtain ⟨values | allocation⟩ := vec
    · exact .some rfl
    · exact .some readArray_store
  · exact .none

theorem results_eq_plain (accesses : List (Access T)) :
    (vecOps codec).results (vec, mem) accesses =
      (plainArray T).results (vec.asSlice codec mem) accesses := by
  refine ArrayOps.results_eq (R := fun s values => s.1.asSlice codec s.2 = values) ?_ ?_ rfl accesses
  · rintro ⟨vec, mem⟩ _ index rfl
    exact read_eq index
  · rintro ⟨vec, mem⟩ values index value h
    exact write_rel h index value

/-! ### The memory of a huge page allocation -/

variable {E : Env σ (MemOp T) MemOp.Ans} {s s' : σ} {tr : List (Call σ (MemOp T) MemOp.Ans)}

theorem ByteWorld.Kept.trans {world₁ world₂ : ByteWorld} (h : world.Kept world₁)
    (h' : world₁.Kept world₂) : world.Kept world₂ := by
  refine ⟨h'.1.trans h.1, fun x hx => ?_⟩
  rw [h'.2 x (h.1 ▸ hx), h.2 x hx]

theorem kept_of_interfere (h : ReflTransGen (byteEnv w codec).interfere world world') :
    world.Kept world' := by
  induction h with
  | refl => exact ⟨rfl, fun _ _ => rfl⟩
  | tail _ hstep ih => exact ih.trans hstep

theorem ByteWorld.Kept.readArray_eq (h : world.Kept world') {base count : ℕ}
    (howned : ∀ x, base ≤ x → x < base + count * elem.size → world.owned x) :
    readArray codec world'.mem base count = readArray codec world.mem base count :=
  readArray_congr fun x hx hx' => h.2 x (howned x hx hx')

/-- The initialization loop extends the array that starts at the mapping by what it produced. -/
theorem runs_initElements_array {guard : InitGuard} {index remaining : ℕ}
    {tr : List (Call ByteWorld (MemOp T) MemOp.Ans)}
    (howned : ∀ x, guard.ptr ≤ x → x < guard.ptr + (index + remaining) * elem.size → world.owned x)
    (h : (byteEnv w codec).Runs (initElements elem guard index remaining) world tr (.ok ()) world') :
    ∃ produced, Produces tr produced ∧ produced.length = remaining ∧
      readArray codec world'.mem guard.ptr (index + remaining) =
        readArray codec world.mem guard.ptr index ++ produced := by
  induction remaining generalizing guard index world tr with
  | zero =>
      obtain ⟨rfl, _, rfl⟩ := Env.runs_ret_iff.mp h
      exact ⟨[], rfl, rfl, (List.append_nil _).symm⟩
  | succ remaining ih =>
      cases runs_initElements_succ h with
      | @made value world₁ world₂ world₃ world₄ _ tr' _ hrely hdefault hrely' hwrite hloop =>
          have hkept := (kept_of_interfere hrely).trans hdefault
          have hkept' := hkept.trans (kept_of_interfere hrely')
          obtain ⟨howned', hmem⟩ :
            world₄.owned = world₃.owned ∧
              world₄.mem = store world₃.mem (guard.ptr + index * elem.size) (codec.encode value) := hwrite
          have hsucc : index + 1 + remaining = index + (remaining + 1) := by omega
          have hindex : index * elem.size ≤ (index + (remaining + 1)) * elem.size :=
            Nat.mul_le_mul_right _ (by omega)
          obtain ⟨produced, hproduced, hlen, harray⟩ := ih (by
            rw [hsucc, howned', hkept'.1]
            exact howned) hloop
          rw [hsucc] at harray
          refine ⟨value :: produced, ?_, by rw [List.length_cons, hlen], ?_⟩
          · rw [Produces, defaults_makeDefault, defaults_cons id, hproduced, List.map_cons]
          · rw [harray, hmem, readArray_store_end, List.append_assoc, List.singleton_append,
              hkept'.readArray_eq fun x hx hx' => howned x hx (by omega)]

theorem runs_hugeAllocation_array {count : ℕ} {allocation : HugeAllocation}
    {tr : List (Call ByteWorld (MemOp T) MemOp.Ans)}
    (h : (byteEnv w codec).Runs (HugeAllocation.new w elem count) world tr (.ok (some allocation))
      world') :
    ∃ produced, Produces tr produced ∧ produced.length = count ∧ allocation.count = count ∧
      readArray codec world'.mem allocation.ptr allocation.count = produced := by
  obtain ⟨hcount, _, _, hmapLen, world₁, world₂, tr', _, hserve, rfl, hloop⟩ := runs_new_ok h
  have hle : count * elem.size ≤ allocation.mapLen := hmapLen ▸ le_roundUp (by decide)
  have howned : ∀ x, allocation.ptr ≤ x → x < allocation.ptr + (0 + count) * elem.size →
      world₂.owned x := by
    intro x hx hx'
    rw [Nat.zero_add] at hx'
    exact (hserve.2.1 x).mpr (.inr ⟨hx, by omega⟩)
  obtain ⟨produced, hproduced, hlen, harray⟩ := runs_initElements_array howned hloop
  refine ⟨produced, ?_, hlen, hcount, ?_⟩
  · rw [Produces, defaults_cons id, hproduced]
  · rw [Nat.zero_add] at harray
    rw [hcount]
    exact harray

/-! ### The constructors -/

theorem runs_newStandard {refused : TryReserveError → Exit} {count : ℕ}
    (h : E.Runs (HugePageVec.newStandard room refused w elem count) s tr (.ok vec) s') :
    ∃ produced, Produces tr produced ∧ produced.length = count ∧
      vec.asSlice codec mem = produced := by
  obtain ⟨values, s₁, t₁, t₂, hfill, hhint, rfl⟩ := Env.runs_bind_ok_iff.mp h
  obtain ⟨_, s₂, t₃, t₄, hadvise, hend, rfl⟩ := Env.runs_bind_ok_iff.mp hhint
  obtain ⟨rfl, ⟨⟩, _⟩ := Env.runs_ret_iff.mp hend
  obtain ⟨hproduced, hlen⟩ := runs_filled hfill
  refine ⟨values.values, ?_, hlen, rfl⟩
  rw [Produces, defaults_append, defaults_append, defaults_of_only adviseThp_only hadvise, defaults_nil,
    List.append_nil, List.append_nil]
  exact hproduced

/-- On either path the vector shows what was produced for it. -/
theorem runs_newWith_array {refused : TryReserveError → Exit} {count : ℕ}
    {tr : List (Call ByteWorld (MemOp T) MemOp.Ans)}
    (h : (byteEnv w codec).Runs (HugePageVec.newWith room refused w elem count) world tr (.ok vec) world') :
    ∃ produced, Produces tr produced ∧ produced.length = count ∧
      vec.asSlice codec world'.mem = produced := by
  obtain ⟨allocation, world₁, t₁, t₂, hcaught, hrest, rfl⟩ := Env.runs_bind_ok_iff.mp h
  have hstandard : defaults t₁ = [] →
      (byteEnv w codec).Runs (HugePageVec.newStandard room refused w elem count) world₁ t₂ (.ok vec) world' →
      ∃ produced, Produces (t₁ ++ t₂) produced ∧ produced.length = count ∧
        vec.asSlice codec world'.mem = produced := by
    intro hnone hrun
    obtain ⟨produced, hproduced, hlen, hslice⟩ := runs_newStandard hrun
    refine ⟨produced, ?_, hlen, hslice⟩
    rw [Produces, defaults_append, hnone]
    exact hproduced
  rcases runs_catchErr hcaught with ⟨found, hfound, hnew⟩ | ⟨error, herror, hnew⟩ | ⟨_, ⟨⟩, _⟩
  · cases hfound
    cases found with
    | none => exact hstandard (runs_hugeAllocation_none hnew (.inl rfl)) hrest
    | some found =>
        obtain ⟨rfl, ⟨⟩, rfl⟩ := Env.runs_ret_iff.mp hrest
        obtain ⟨produced, hproduced, hlen, _, harray⟩ := runs_hugeAllocation_array hnew
        rw [List.append_nil]
        exact ⟨produced, hproduced, hlen, harray⟩
  · cases herror
    exact hstandard (runs_hugeAllocation_none hnew (.inr ⟨error, rfl⟩)) hrest

theorem runs_newStandard_congr {refused : TryReserveError → Exit}
    (refused' : TryReserveError → Exit) {count : ℕ} {r : Except Exit (HugePageVec T)}
    (h : E.Runs (HugePageVec.newStandard room refused w elem count) s tr r s') :
    E.Runs (HugePageVec.newStandard room refused' w elem count) s tr r s' ∨
      ∃ error, E.Runs (HugePageVec.newStandard room refused' w elem count) s tr (.error (refused' error))
        s' := by
  rcases Env.runs_bind_iff.mp h with ⟨exit, rfl, hfill⟩ | ⟨values, s₁, t₁, t₂, hfill, hhint, rfl⟩
  · rcases runs_filled_congr refused' hfill with hrun | ⟨error, _, hrun⟩
    · exact .inl (Env.runs_bind_iff.mpr (.inl ⟨exit, rfl, hrun⟩))
    · exact .inr ⟨error, Env.runs_bind_iff.mpr (.inl ⟨_, rfl, hrun⟩)⟩
  · rcases runs_filled_congr refused' hfill with hrun | ⟨_, ⟨⟩, _⟩
    exact .inl (hrun.bind hhint)

theorem runs_newWith_congr {refused : TryReserveError → Exit} (refused' : TryReserveError → Exit)
    {count : ℕ} {r : Except Exit (HugePageVec T)}
    (h : E.Runs (HugePageVec.newWith room refused w elem count) s tr r s') :
    E.Runs (HugePageVec.newWith room refused' w elem count) s tr r s' ∨
      ∃ error, E.Runs (HugePageVec.newWith room refused' w elem count) s tr (.error (refused' error)) s' := by
  rcases Env.runs_bind_iff.mp h with ⟨exit, rfl, hnew⟩ | ⟨allocation, s₁, t₁, t₂, hnew, hrest, rfl⟩
  · exact .inl (Env.runs_bind_iff.mpr (.inl ⟨exit, rfl, hnew⟩))
  · have hstandard : E.Runs (HugePageVec.newStandard room refused w elem count) s₁ t₂ r s' →
        (∀ t₂ r, E.Runs (HugePageVec.newStandard room refused' w elem count) s₁ t₂ r s' →
          E.Runs (HugePageVec.newWith room refused' w elem count) s (t₁ ++ t₂) r s') →
        E.Runs (HugePageVec.newWith room refused' w elem count) s (t₁ ++ t₂) r s' ∨
          ∃ error, E.Runs (HugePageVec.newWith room refused' w elem count) s (t₁ ++ t₂)
            (.error (refused' error)) s' := by
      intro hrun hback
      rcases runs_newStandard_congr refused' hrun with hrun | ⟨error, hrun⟩
      · exact .inl (hback _ _ hrun)
      · exact .inr ⟨error, hback _ _ hrun⟩
    cases allocation with
    | error error =>
        refine hstandard hrest fun t₂ r hrun => ?_
        exact Env.runs_bind_iff.mpr (.inr ⟨_, _, _, _, hnew, hrun, rfl⟩)
    | ok allocation =>
        cases allocation with
        | none =>
            refine hstandard hrest fun t₂ r hrun => ?_
            exact Env.runs_bind_iff.mpr (.inr ⟨_, _, _, _, hnew, hrun, rfl⟩)
        | some allocation => exact .inl (hnew.bind hrest)

/-- What the three constructors return is an array of the values `T::default` produced, one call for
each place; and the two that return errors do so in the same environments. -/
theorem hugePageVec_array (w : Width) (elem : ElemType) (T : Type) (codec : Codec T elem.size)
    (count : ℕ) :
    (∀ make ∈ [HugePageVec.new w elem count, HugePageVec.newFallible w elem count,
        HugePageVec.tryNew w elem count], ∀ (world world' : ByteWorld)
        (tr : List (Call ByteWorld (MemOp T) MemOp.Ans)) (vec : HugePageVec T),
      (byteEnv w codec).Runs make world tr (.ok vec) world' →
        ∃ produced : List T, defaults tr = produced.map some ∧ produced.length = count ∧
          vec.len = count ∧ vec.asSlice codec world'.mem = produced ∧
          ∀ accesses, (vecOps codec).results (vec, world'.mem) accesses =
            (plainArray T).results produced accesses) ∧
      ∀ (world world' : ByteWorld) (tr : List (Call ByteWorld (MemOp T) MemOp.Ans)),
        (∃ error, (byteEnv w codec).Runs (HugePageVec.newFallible w elem count) world tr
            (.error (.err error)) world') ↔
          ∃ error, (byteEnv w codec).Runs (HugePageVec.tryNew w elem count) world tr
            (.error (.err error)) world' := by
  constructor
  · intro make hmake world world' tr vec hrun
    have harray : ∃ produced, Produces tr produced ∧ produced.length = count ∧
        vec.asSlice codec world'.mem = produced := by
      simp only [List.mem_cons, List.not_mem_nil, or_false] at hmake
      rcases hmake with rfl | rfl | rfl <;> exact runs_newWith_array hrun
    obtain ⟨produced, hproduced, hlen, hslice⟩ := harray
    refine ⟨produced, hproduced, hlen, ?_, hslice, fun accesses => ?_⟩
    · rw [← hlen, ← hslice, length_asSlice]
    · rw [results_eq_plain, hslice]
  · intro world world' tr
    constructor
    · rintro ⟨error, hrun⟩
      rcases runs_newWith_congr (fun _ => .err (.allocationFailed count elem.name)) hrun with
        hrun | ⟨_, hrun⟩
      · exact ⟨error, hrun⟩
      · exact ⟨_, hrun⟩
    · rintro ⟨error, hrun⟩
      rcases runs_newWith_congr (fun _ => .err (.allocationOverflow count elem.name)) hrun with
        hrun | ⟨_, hrun⟩
      · exact ⟨error, hrun⟩
      · exact ⟨_, hrun⟩

def byteCodec : Codec UInt8 byteType.size where
  encode value := [value]
  decode bytes := bytes.headD 0
  length_encode _ := rfl
  decode_encode _ := rfl

def hugeWorld (mem : Memory) : ByteWorld := ⟨fun x => False ∨ 2 ^ 21 ≤ x ∧ x < 2 ^ 21 + hugepageBytes, mem⟩

/-- On huge pages `T::default` produces 5 and then 7; the 5 is overwritten, and there is no third. -/
theorem hugePageVec_array_bytes :
    ∃ world' tr vec, (byteEnv .w64 byteCodec).Runs (HugePageVec.new .w64 byteType 2)
        ⟨fun _ => False, fun _ => 0⟩ tr (.ok vec) world' ∧ vec.asSlice byteCodec world'.mem = [5, 7] ∧
      (vecOps byteCodec).results (vec, world'.mem) [.write 0 9, .read 0, .read 1, .read 2] =
        [.written, .value 9, .value 7, .outOfBounds] := by
  let mem₀ : Memory := fun _ => 0
  let mem₁ : Memory := store mem₀ (2 ^ 21) [5]
  let mem₂ : Memory := store mem₁ (2 ^ 21 + 1) [7]
  let calls : List (Call ByteWorld (MemOp UInt8) MemOp.Ans) :=
    [⟨hugeWorld mem₀, .makeDefault, some 5⟩, ⟨hugeWorld mem₀, .write (2 ^ 21) 5, ()⟩,
      ⟨hugeWorld mem₁, .makeDefault, some 7⟩, ⟨hugeWorld mem₁, .write (2 ^ 21 + 1) 7, ()⟩]
  have hloop : (byteEnv .w64 byteCodec).Runs (initElements byteType ⟨2 ^ 21, hugepageBytes, 0⟩ 0 2)
      (hugeWorld mem₀) calls (.ok ()) (hugeWorld mem₂) := by
    have hkept : ∀ world : ByteWorld, world.Kept world := fun _ => ⟨rfl, fun _ _ => rfl⟩
    have hwrite : ∀ mem addr value, (byteEnv .w64 byteCodec).serve (.write addr value) (hugeWorld mem) ()
        (hugeWorld (store mem addr [value])) := fun _ _ _ => ⟨rfl, rfl⟩
    refine .ask .refl (hkept _) (.ask .refl (hwrite mem₀ _ _) ?_)
    exact .ask .refl (hkept _) (.ask .refl (hwrite mem₁ _ _) (.ret _ _))
  have hmmap : (byteEnv .w64 byteCodec).serve (.mmap hugepageBytes true) ⟨fun _ => False, mem₀⟩
      (.ok (2 ^ 21)) (hugeWorld mem₀) := ⟨by decide, fun _ => Iff.rfl, fun _ h => h.elim⟩
  have hnew : (byteEnv .w64 byteCodec).Runs (HugeAllocation.new .w64 byteType 2)
      ⟨fun _ => False, mem₀⟩ (⟨⟨fun _ => False, mem₀⟩, .mmap hugepageBytes true, .ok (2 ^ 21)⟩ :: calls)
      (.ok (some ⟨2 ^ 21, 2, hugepageBytes⟩)) (hugeWorld mem₂) := by
    have hlen : checkedLen .w64 byteType 2 = .ok 2 := by decide
    have hround : alignUp .w64 2 hugepageBytes = some hugepageBytes := by decide
    exact runs_new_of_init .w64 (by decide) hlen hround hmmap (Nat.one_dvd _) (by decide) hloop
  have hrun : (byteEnv .w64 byteCodec).Runs (HugePageVec.new .w64 byteType 2) ⟨fun _ => False, mem₀⟩ _
      (.ok ⟨.huge ⟨2 ^ 21, 2, hugepageBytes⟩⟩) (hugeWorld mem₂) :=
    (runs_catchErr_ok hnew).bind (.ret _ _)
  obtain ⟨produced, hproduced, _, _, hslice, hresults⟩ :=
    (hugePageVec_array .w64 byteType UInt8 byteCodec 2).1 _ List.mem_cons_self _ _ _ _ hrun
  have hvalues : produced = [5, 7] :=
    List.map_injective_iff.mpr (Option.some_injective _) (hproduced.symm.trans rfl)
  subst hvalues
  exact ⟨_, _, _, hrun, hslice, (hresults _).trans rfl⟩

end KernelKit
