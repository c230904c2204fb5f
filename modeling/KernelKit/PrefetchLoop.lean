import KernelKit.Prefetch
import Mathlib.Algebra.Order.Floor.Div

/-!
# The turns of the prefetch loop

The loop of `prefetchRange` ends after one turn for each stride that starts in the range, however long
the range and whatever the cache line size. Its offsets go up from zero and stay below the length, and
neither the offset nor the address of a turn overflows.
-/

namespace KernelKit.Prefetch

/-- The offsets that `prefetch_range` adds to the pointer, one in each turn of its loop, if the loop
ends within `fuel` turns. -/
def prefetchOffsets (w : Width) (cacheLineSize ptr len fuel : ℕ) : Option (List ℕ) :=
  if ptr = 0 ∨ len = 0 then some []
  else
    let len := min len maxPrefetchBytes
    let cacheLine := max cacheLineSize 1
    WhileLoop.turns (· < len) (nextOffset w cacheLine) fuel 0

/-- The run of `prefetch_range` with these offsets. The loop ends after as many turns as there are
strides in the range, its offsets go up within the range without overflow, and at each of them a prefetch
is asked for. Where the range fits the address space the pointer additions do not wrap, and on a target
that has an instruction one is issued in each turn. -/
structure BoundedRun (w : Width) (arch : Arch) (cacheLineSize ptr len : ℕ) (offsets : List ℕ) :
    Prop where
  ends : ∀ fuel, prefetchOffsets w cacheLineSize ptr len fuel =
    if offsets.length ≤ fuel then some offsets else none
  length_eq : offsets.length = if ptr = 0 ∨ len = 0 then 0
    else min len maxPrefetchBytes ⌈/⌉ max cacheLineSize 1
  increasing : offsets.Pairwise (· < ·)
  lt_len : ∀ offset ∈ offsets, offset < len
  add_le : ∀ offset ∈ offsets, offset + max cacheLineSize 1 ≤ w.usizeMax
  hints_eq : prefetchRange w arch cacheLineSize ptr len =
    offsets.flatMap fun offset => prefetchImpl arch (ptrAdd w ptr offset) false
  ptrAdd_eq : ptr + min len maxPrefetchBytes ≤ 2 ^ w.bits →
    ∀ offset ∈ offsets, ptrAdd w ptr offset = ptr + offset
  addresses_eq : ptr + min len maxPrefetchBytes ≤ 2 ^ w.bits → arch ≠ .other →
    (prefetchRange w arch cacheLineSize ptr len).map Hint.address = offsets.map (ptr + ·)

def strideOffsets (cacheLine len : ℕ) : List ℕ := (List.range (strides cacheLine len)).map (· * cacheLine)

variable {w : Width} {arch : Arch} {cacheLineSize ptr len cacheLine : ℕ}

@[simp] theorem length_strideOffsets : (strideOffsets cacheLine len).length = strides cacheLine len := by
  rw [strideOffsets, List.length_map, List.length_range]

theorem mem_strideOffsets (hline : 0 < cacheLine) {offset : ℕ} :
    offset ∈ strideOffsets cacheLine len ↔ offset < len ∧ ∃ i, offset = i * cacheLine := by
  simp only [strideOffsets, List.mem_map, List.mem_range, lt_strides hline]
  constructor
  · rintro ⟨i, hi, rfl⟩
    exact ⟨hi, i, rfl⟩
  · rintro ⟨hlt, i, rfl⟩
    exact ⟨i, hlt, rfl⟩

theorem pairwise_strideOffsets (hline : 0 < cacheLine) :
    (strideOffsets cacheLine len).Pairwise (· < ·) :=
  List.pairwise_lt_range.map _ fun _ _ hlt => Nat.mul_lt_mul_of_pos_right hlt hline

theorem strides_eq_ceilDiv (hline : 0 < cacheLine) : strides cacheLine len = len ⌈/⌉ cacheLine := by
  rw [strides, Nat.ceilDiv_eq_add_pred_div, Nat.add_sub_assoc hline]

theorem turns_eq_rangeOffsets (hlen : len ≤ w.usizeMax) (hline : 0 < cacheLine) (fuel : ℕ) :
    WhileLoop.turns (· < len) (nextOffset w cacheLine) fuel 0 =
      if (rangeOffsets w hlen hline).length ≤ fuel then some (rangeOffsets w hlen hline) else none :=
  WhileLoop.turns_eq_states ..

theorem prefetchOffsets_eq (hptr : ptr ≠ 0) (hlen : len ≠ 0) (fuel : ℕ) :
    prefetchOffsets w cacheLineSize ptr len fuel =
      let offsets := strideOffsets (max cacheLineSize 1) (min len maxPrefetchBytes)
      if offsets.length ≤ fuel then some offsets else none := by
  have hline : 0 < max cacheLineSize 1 := Nat.le_max_right cacheLineSize 1
  have hmax := min_maxPrefetchBytes_le w len
  rw [prefetchOffsets, if_neg (not_or.mpr ⟨hptr, hlen⟩)]
  dsimp only
  rw [turns_eq_rangeOffsets hmax hline, rangeOffsets_eq, ← strideOffsets]

theorem prefetchRange_eq (hptr : ptr ≠ 0) (hlen : len ≠ 0) :
    prefetchRange w arch cacheLineSize ptr len =
      (strideOffsets (max cacheLineSize 1) (min len maxPrefetchBytes)).flatMap fun offset =>
        prefetchImpl arch (ptrAdd w ptr offset) false := by
  rw [prefetchRange, if_neg (not_or.mpr ⟨hptr, hlen⟩), rangeOffsets_eq, strideOffsets]

/-- No turn saturates the offset: after the first one a stride is shorter than the range. -/
theorem offset_add_le (hsize : cacheLineSize ≤ w.usizeMax) {offset : ℕ}
    (hmem : offset ∈ strideOffsets (max cacheLineSize 1) (min len maxPrefetchBytes)) :
    offset + max cacheLineSize 1 ≤ w.usizeMax := by
  have hmax : 1 ≤ w.usizeMax ∧ maxPrefetchBytes + maxPrefetchBytes ≤ w.usizeMax := by
    cases w <;> decide
  obtain ⟨hlt, i, rfl⟩ := (mem_strideOffsets (Nat.le_max_right cacheLineSize 1)).mp hmem
  cases i with
  | zero =>
      rw [Nat.zero_mul, Nat.zero_add]
      exact Nat.max_le.mpr ⟨hsize, hmax.1⟩
  | succ i =>
      have hle : max cacheLineSize 1 ≤ (i + 1) * max cacheLineSize 1 :=
        Nat.le_mul_of_pos_left _ (Nat.succ_pos i)
      omega

theorem map_address_prefetchImpl (harch : arch ≠ .other) (hptr : ptr ≠ 0) (write : Bool) :
    (prefetchImpl arch ptr write).map Hint.address = [ptr] := by
  obtain ⟨instruction, hinstruction⟩ :=
    Option.ne_none_iff_exists'.mp (mt (instructionOf_eq_none_iff write).mp harch)
  rw [prefetchImpl, if_neg hptr, hinstruction]
  rfl

theorem map_address_flatMap {offsets : List ℕ} (harch : arch ≠ .other) (hptr : ptr ≠ 0)
    (hadd : ∀ offset ∈ offsets, ptrAdd w ptr offset = ptr + offset) :
    (offsets.flatMap fun offset => prefetchImpl arch (ptrAdd w ptr offset) false).map Hint.address =
      offsets.map (ptr + ·) := by
  induction offsets with
  | nil => rfl
  | cons offset offsets ih =>
      have haddress := hadd offset List.mem_cons_self
      have hne : ptr + offset ≠ 0 := by omega
      rw [List.flatMap_cons, List.map_append, haddress, map_address_prefetchImpl harch hne,
        ih fun later hlater => hadd later (List.mem_cons_of_mem _ hlater), List.map_cons]
      rfl

theorem boundedRun_nil (hnone : ptr = 0 ∨ len = 0) : BoundedRun w arch cacheLineSize ptr len [] := by
  have hrange : prefetchRange w arch cacheLineSize ptr len = [] := if_pos hnone
  have hoffsets (fuel : ℕ) : prefetchOffsets w cacheLineSize ptr len fuel = some [] := if_pos hnone
  constructor
  case ends => exact fun fuel => (hoffsets fuel).trans (if_pos (Nat.zero_le fuel)).symm
  case length_eq => exact (if_pos hnone).symm
  case increasing => exact List.Pairwise.nil
  case lt_len => exact List.forall_mem_nil _
  case add_le => exact List.forall_mem_nil _
  case hints_eq => exact hrange
  case ptrAdd_eq => exact fun _ => List.forall_mem_nil _
  case addresses_eq =>
    intro _ _
    rw [hrange]
    rfl

/-- `prefetch_range` runs through the strides of its range and stays within it. -/
theorem prefetchRange_bounded (w : Width) (arch : Arch) (cacheLineSize ptr len : ℕ)
    (hsize : cacheLineSize ≤ w.usizeMax) :
    ∃ offsets, BoundedRun w arch cacheLineSize ptr len offsets := by
  by_cases hnone : ptr = 0 ∨ len = 0
  · exact ⟨[], boundedRun_nil hnone⟩
  obtain ⟨hptr, hlen⟩ := not_or.mp hnone
  have hline : 0 < max cacheLineSize 1 := Nat.le_max_right cacheLineSize 1
  have hadd (hregion : ptr + min len maxPrefetchBytes ≤ 2 ^ w.bits) :
      ∀ offset ∈ strideOffsets (max cacheLineSize 1) (min len maxPrefetchBytes),
        ptrAdd w ptr offset = ptr + offset := by
    intro offset hmem
    have hlt := ((mem_strideOffsets hline).mp hmem).1
    exact Nat.mod_eq_of_lt (by omega)
  refine ⟨strideOffsets (max cacheLineSize 1) (min len maxPrefetchBytes), ?_⟩
  constructor
  case ends => exact prefetchOffsets_eq hptr hlen
  case length_eq => rw [length_strideOffsets, if_neg hnone, strides_eq_ceilDiv hline]
  case increasing => exact pairwise_strideOffsets hline
  case lt_len =>
    intro offset hmem
    exact ((mem_strideOffsets hline).mp hmem).1.trans_le (Nat.min_le_left _ _)
  case add_le => exact fun _ => offset_add_le hsize
  case hints_eq => exact prefetchRange_eq hptr hlen
  case ptrAdd_eq => exact hadd
  case addresses_eq =>
    intro hregion harch
    rw [prefetchRange_eq hptr hlen, map_address_flatMap harch hptr (hadd hregion)]

/-- The longest range and the longest cache line: one prefetch, at the pointer itself. -/
theorem prefetchRange_bounded_longest :
    (prefetchRange .w64 .x86 (2 ^ 64 - 1) 4096 (2 ^ 64 - 1)).map Hint.address = [4096] := by
  obtain ⟨offsets, h⟩ := prefetchRange_bounded .w64 .x86 (2 ^ 64 - 1) 4096 (2 ^ 64 - 1) (by decide)
  have hone : offsets.length = 1 := h.length_eq.trans (by decide)
  have hends := h.ends 1
  rw [hone, if_pos le_rfl] at hends
  have hzero : prefetchOffsets .w64 (2 ^ 64 - 1) 4096 (2 ^ 64 - 1) 1 = some [0] := by decide
  obtain rfl : [0] = offsets := Option.some.inj (hzero.symm.trans hends)
  exact h.addresses_eq (by decide) (by decide)

end KernelKit.Prefetch
