import KernelKit.Error
import KernelKit.WhileLoop
import Mathlib.Data.List.Basic
import Mathlib.Data.Nat.ModEq
import Mathlib.Data.Set.Insert

/-!
# Prefetching a byte range

`prefetchRange` steps through a range in strides of one cache line. It steps from the pointer itself
and not from the start of its line, so the last stride may end before the line of the last byte: that
line is touched exactly when the offsets of the first and the last byte add up to less than a line.
-/

namespace KernelKit.Prefetch

inductive Instruction
  | mmHintT0
  | mmHintT1
  | pldl1keep
  | pstl1keep
  | pld
  deriving DecidableEq, Repr

structure Hint where
  instruction : Instruction
  address : ℕ
  deriving DecidableEq, Repr

def instructionOf (write : Bool) : Arch → Option Instruction
  | .x86 => some (if write then .mmHintT1 else .mmHintT0)
  | .aarch64 => some (if write then .pstl1keep else .pldl1keep)
  | .arm => some .pld
  | .other => none

def prefetchImpl (arch : Arch) (ptr : ℕ) (write : Bool) : List Hint :=
  if ptr = 0 then [] else ((instructionOf write arch).map fun instruction => ⟨instruction, ptr⟩).toList

def maxPrefetchBytes : ℕ := 2 * 1024 * 1024

/-- `ptr.add(offset)`. -/
def ptrAdd (w : Width) (ptr offset : ℕ) : ℕ := (ptr + offset) % 2 ^ w.bits

def nextOffset (w : Width) (cacheLine offset : ℕ) : ℕ := saturatingAdd w.usizeMax offset cacheLine

theorem lt_nextOffset {w : Width} {len offset cacheLine : ℕ} (hlen : len ≤ w.usizeMax)
    (hline : 0 < cacheLine) (h : offset < len) : offset < nextOffset w cacheLine offset := by
  unfold nextOffset saturatingAdd
  omega

def rangeOffsets (w : Width) {len cacheLine : ℕ} (hlen : len ≤ w.usizeMax) (hline : 0 < cacheLine) :
    List ℕ :=
  WhileLoop.states (· < len) (nextOffset w cacheLine) (len - ·)
    (fun _ h => Nat.sub_lt_sub_left h (lt_nextOffset hlen hline h)) 0

theorem min_maxPrefetchBytes_le (w : Width) (len : ℕ) : min len maxPrefetchBytes ≤ w.usizeMax := by
  have hmax : maxPrefetchBytes ≤ w.usizeMax := by cases w <;> decide
  omega

def prefetchRange (w : Width) (arch : Arch) (cacheLineSize ptr len : ℕ) : List Hint :=
  if ptr = 0 ∨ len = 0 then []
  else
    (rangeOffsets w (min_maxPrefetchBytes_le w len) (Nat.le_max_right cacheLineSize 1)).flatMap
      fun offset => prefetchImpl arch (ptrAdd w ptr offset) false

/-! ### The loop -/

/-- How many strides of `cacheLine` bytes start within `len` bytes. -/
def strides (cacheLine len : ℕ) : ℕ := (len + (cacheLine - 1)) / cacheLine

theorem lt_strides {cacheLine len i : ℕ} (hline : 0 < cacheLine) :
    i < strides cacheLine len ↔ i * cacheLine < len := by
  rw [strides, ← Nat.succ_le_iff, Nat.le_div_iff_mul_le hline, Nat.succ_mul]
  omega

theorem nextOffset_iterate (w : Width) (cacheLine i : ℕ) :
    (nextOffset w cacheLine)^[i] 0 = min (i * cacheLine) w.usizeMax := by
  induction i with
  | zero => simp
  | succ i ih =>
      rw [Function.iterate_succ_apply', ih, nextOffset, saturatingAdd, Nat.succ_mul]
      omega

/-- The loop passes its test once for each stride. -/
theorem endsAfter_strides {w : Width} {len cacheLine : ℕ} (hlen : len ≤ w.usizeMax)
    (hline : 0 < cacheLine) :
    WhileLoop.EndsAfter (· < len) (nextOffset w cacheLine) (strides cacheLine len) 0 := by
  constructor
  · intro i hi
    rw [nextOffset_iterate]
    exact (Nat.min_le_left _ _).trans_lt ((lt_strides hline).mp hi)
  · rw [nextOffset_iterate, not_lt, Nat.le_min]
    have hend := mt (lt_strides hline).mpr (lt_irrefl (strides cacheLine len))
    exact ⟨not_lt.mp hend, hlen⟩

/-- Saturation never shows: the offset it stops at is past the range. -/
theorem rangeOffsets_eq {w : Width} {len cacheLine : ℕ} (hlen : len ≤ w.usizeMax)
    (hline : 0 < cacheLine) :
    rangeOffsets w hlen hline = (List.range (strides cacheLine len)).map (· * cacheLine) := by
  rw [rangeOffsets, (endsAfter_strides hlen hline).states_eq, ← List.range_map_iterate]
  refine List.map_congr_left fun i hi => ?_
  have hlt := (lt_strides hline).mp (List.mem_range.mp hi)
  rw [nextOffset_iterate, Nat.min_eq_left (hlt.le.trans hlen)]

/-! ### Cache lines -/

/-- The lines, by their first address, that the prefetches bring in. -/
def linesTouched (lineSize : ℕ) (hints : List Hint) : Set ℕ :=
  {line | ∃ hint ∈ hints, line = hint.address / lineSize * lineSize}

/-- The aligned lines that have a byte of the range. -/
def linesOverlapping (lineSize ptr len : ℕ) : Set ℕ :=
  {line | lineSize ∣ line ∧ line < ptr + len ∧ ptr < line + lineSize}

variable {w : Width} {arch : Arch} {lineSize ptr len : ℕ}

theorem mem_linesOverlapping (hline : 0 < lineSize) (hlen : 0 < len) {line : ℕ} :
    line ∈ linesOverlapping lineSize ptr len ↔
      ∃ n, ptr / lineSize ≤ n ∧ n ≤ (ptr + (len - 1)) / lineSize ∧ line = n * lineSize := by
  constructor
  · rintro ⟨⟨n, rfl⟩, hstart, hend⟩
    refine ⟨n, ?_, (Nat.le_div_iff_mul_le hline).mpr ?_, Nat.mul_comm ..⟩
    · refine Nat.le_of_lt_succ ((Nat.div_lt_iff_lt_mul hline).mpr ?_)
      rw [Nat.succ_mul, Nat.mul_comm]
      exact hend
    · rw [Nat.mul_comm]
      omega
  · rintro ⟨n, hfirst, hlast, rfl⟩
    have hlast := (Nat.le_div_iff_mul_le hline).mp hlast
    have hfirst := (Nat.div_lt_iff_lt_mul hline).mp (Nat.lt_succ_of_le hfirst)
    rw [Nat.succ_mul] at hfirst
    exact ⟨Nat.dvd_mul_left .., by omega, hfirst⟩

theorem mem_prefetchRange {cacheLineSize : ℕ} {hint : Hint} :
    hint ∈ prefetchRange w arch cacheLineSize ptr len ↔
      ptr ≠ 0 ∧ ∃ i, i * max cacheLineSize 1 < min len maxPrefetchBytes ∧
        hint ∈ prefetchImpl arch (ptrAdd w ptr (i * max cacheLineSize 1)) false := by
  have hline : 0 < max cacheLineSize 1 := Nat.le_max_right cacheLineSize 1
  unfold prefetchRange
  split_ifs with hnone
  · rw [iff_false_left List.not_mem_nil]
    rintro ⟨hptr, i, hi, -⟩
    rw [hnone.resolve_left hptr, Nat.zero_min] at hi
    exact Nat.not_lt_zero _ hi
  · rw [not_or] at hnone
    simp only [rangeOffsets_eq, List.flatMap_map, List.mem_flatMap, List.mem_range, lt_strides hline,
      hnone.1, not_false_eq_true, true_and, ne_eq]

theorem mem_prefetchImpl {hint : Hint} {write : Bool} : hint ∈ prefetchImpl arch ptr write ↔
    ptr ≠ 0 ∧ instructionOf write arch = some hint.instruction ∧ hint.address = ptr := by
  unfold prefetchImpl
  split_ifs with hptr
  · simp [hptr]
  · cases hint
    simp [hptr, eq_comm]

theorem instructionOf_eq_none_iff (write : Bool) : instructionOf write arch = none ↔ arch = .other := by
  cases arch <;> simp [instructionOf]

theorem mem_linesTouched (hptr : ptr ≠ 0) (hlen : 0 < len) (hfit : ptr + len ≤ 2 ^ w.bits)
    (hline : 0 < lineSize) {line : ℕ} :
    line ∈ linesTouched lineSize (prefetchRange w arch lineSize ptr len) ↔
      arch ≠ .other ∧ ∃ i, i ≤ (min len maxPrefetchBytes - 1) / lineSize ∧
        line = (ptr / lineSize + i) * lineSize := by
  have hmax : 0 < min len maxPrefetchBytes := Nat.lt_min.mpr ⟨hlen, by decide⟩
  have hstride (i : ℕ) : i * lineSize < min len maxPrefetchBytes ↔
      i ≤ (min len maxPrefetchBytes - 1) / lineSize := by
    rw [Nat.le_div_iff_mul_le hline]
    omega
  have hadd (i : ℕ) (hi : i * lineSize < min len maxPrefetchBytes) :
      ptrAdd w ptr (i * lineSize) = ptr + i * lineSize :=
    Nat.mod_eq_of_lt (by omega)
  have hdiv (i : ℕ) : (ptr + i * lineSize) / lineSize = ptr / lineSize + i :=
    Nat.add_mul_div_right ptr i hline
  constructor
  · rintro ⟨hint, hmem, rfl⟩
    obtain ⟨-, i, hi, hissued⟩ := mem_prefetchRange.mp hmem
    rw [Nat.max_eq_left hline] at hi hissued
    obtain ⟨-, hinstruction, haddress⟩ := mem_prefetchImpl.mp hissued
    refine ⟨fun hother => ?_, i, (hstride i).mp hi, ?_⟩
    · rw [(instructionOf_eq_none_iff false).mpr hother] at hinstruction
      cases hinstruction
    · rw [haddress, hadd i hi, hdiv]
  · rintro ⟨harch, i, hi, rfl⟩
    have hi := (hstride i).mpr hi
    obtain ⟨instruction, hinstruction⟩ :=
      Option.ne_none_iff_exists'.mp (mt (instructionOf_eq_none_iff false).mp harch)
    refine ⟨⟨instruction, ptr + i * lineSize⟩, mem_prefetchRange.mpr ⟨hptr, i, ?_, ?_⟩, ?_⟩
    · rwa [Nat.max_eq_left hline]
    · rw [Nat.max_eq_left hline, hadd i hi]
      exact mem_prefetchImpl.mpr ⟨by omega, hinstruction, rfl⟩
    · rw [hdiv]

/-- The line of the last byte is at most one further than the strides go. -/
theorem last_line (hline : 0 < lineSize) (ptr m : ℕ) :
    ptr / lineSize + m / lineSize ≤ (ptr + m) / lineSize ∧
      ((ptr + m) / lineSize ≤ ptr / lineSize + m / lineSize ↔
        ptr % lineSize + m % lineSize < lineSize) := by
  rw [Nat.add_div hline]
  split_ifs <;> omega

theorem linesTouched_subset (hptr : ptr ≠ 0) (hlen : 0 < len) (hfit : ptr + len ≤ 2 ^ w.bits)
    (hline : 0 < lineSize) : linesTouched lineSize (prefetchRange w arch lineSize ptr len) ⊆
      linesOverlapping lineSize ptr (min len maxPrefetchBytes) := by
  intro line hmem
  obtain ⟨-, i, hi, rfl⟩ := (mem_linesTouched hptr hlen hfit hline).mp hmem
  have hlast := (last_line hline ptr (min len maxPrefetchBytes - 1)).1
  exact (mem_linesOverlapping hline (Nat.lt_min.mpr ⟨hlen, by decide⟩)).mpr
    ⟨_, Nat.le_add_right _ i, by omega, rfl⟩

theorem prefetch_lines_exact_iff (w : Width) (arch : Arch) (ptr len lineSize : ℕ) (hptr : ptr ≠ 0)
    (hlen : 0 < len) (hfit : ptr + len ≤ 2 ^ w.bits) (hline : ∃ k, lineSize = 2 ^ k) :
    linesTouched lineSize (prefetchRange w arch lineSize ptr len) =
        linesOverlapping lineSize ptr (min len maxPrefetchBytes) ↔
      arch ≠ .other ∧
        ptr % lineSize + (min len maxPrefetchBytes - 1) % lineSize < lineSize := by
  have hline : 0 < lineSize := by
    obtain ⟨k, rfl⟩ := hline
    exact Nat.two_pow_pos k
  have hmax : 0 < min len maxPrefetchBytes := Nat.lt_min.mpr ⟨hlen, by decide⟩
  obtain ⟨hle, hreach⟩ := last_line hline ptr (min len maxPrefetchBytes - 1)
  rw [← hreach]
  constructor
  · intro heq
    -- the line of the last byte is among the touched ones
    have hmem : (ptr + (min len maxPrefetchBytes - 1)) / lineSize * lineSize ∈
        linesOverlapping lineSize ptr (min len maxPrefetchBytes) :=
      (mem_linesOverlapping hline hmax).mpr ⟨_, (Nat.le_add_right _ _).trans hle, le_rfl, rfl⟩
    rw [← heq] at hmem
    obtain ⟨harch, i, hi, hlast⟩ := (mem_linesTouched hptr hlen hfit hline).mp hmem
    have hlast := Nat.eq_of_mul_eq_mul_right hline hlast
    exact ⟨harch, by omega⟩
  · rintro ⟨harch, hlast⟩
    refine (linesTouched_subset hptr hlen hfit hline).antisymm fun line hmem => ?_
    obtain ⟨n, hfirst, hn, rfl⟩ := (mem_linesOverlapping hline hmax).mp hmem
    exact (mem_linesTouched hptr hlen hfit hline).mpr
      ⟨harch, n - ptr / lineSize, by omega, by rw [Nat.add_sub_of_le hfirst]⟩

/-- A range of three lines from the start of a line on. -/
theorem prefetch_lines_exact_iff_aligned :
    linesTouched 64 (prefetchRange .w64 .x86 64 4096 130) = linesOverlapping 64 4096 130 :=
  (prefetch_lines_exact_iff .w64 .x86 4096 130 64 (by decide) (by decide) (by decide) ⟨6, rfl⟩).mpr
    ⟨by decide, by decide⟩

/-- Two bytes on both sides of the start of a line: only the line of the first is touched. -/
theorem not_prefetch_lines_exact :
    linesTouched 64 (prefetchRange .w64 .x86 64 4159 2) ≠ linesOverlapping 64 4159 2 := by
  intro heq
  have hsecond : 4160 ∈ linesOverlapping 64 4159 2 := ⟨by decide, by decide, by decide⟩
  rw [← heq] at hsecond
  obtain ⟨-, i, hi, hline⟩ :=
    (mem_linesTouched (by decide) (by decide) (by decide) (by decide)).mp hsecond
  have hzero : i = 0 := Nat.le_zero.mp hi
  rw [hzero] at hline
  exact absurd hline (by decide)

end KernelKit.Prefetch
