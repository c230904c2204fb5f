import KernelKit.BitGroups
import KernelKit.Error
import KernelKit.RustHex

/-!
# The affinity mask of an interrupt

`parseIrqAffinity` reads the text of an `smp_affinity` file: groups of hexadecimal digits, the least
significant last. Each group is parsed as a `u64`, but only its low 32 bits are looked at, and the core
number of a bit is a `usize`, which in a build without overflow checks wraps around. Core numbers are
`u32`s in the source, kept here as the naturals they stand for.
-/

namespace KernelKit.Affinity
open RustString BitGroups

/-- `clean_chunk` without a leading `0x` or `0X`. -/
def stripHexPrefix : List Char → List Char
  | '0' :: 'x' :: hexStr => hexStr
  | '0' :: 'X' :: hexStr => hexStr
  | cleanChunk => cleanChunk

def groupMask (chunk : List Char) : Option ℕ :=
  fromStrRadix16 (2 ^ 64 - 1) (stripHexPrefix (trim chunk))

def malformedChunk (chunk : List Char) : Error :=
  let chunk := String.ofList chunk
  .system "read_irq_affinity" (.custom .invalidData s!"malformed affinity mask chunk: {chunk}")

def coreIndexOverflow : Error :=
  .system "read_irq_affinity" (.custom .invalidData "affinity mask core index overflow")

def coreIndex (w : Width) (groupIdx bit : ℕ) : ℕ := (groupIdx * 32 + bit) % 2 ^ w.bits

/-- The loop over the bits of one group. -/
def scanBits (w : Width) (groupIdx mask : ℕ) : List ℕ → List ℕ → Except Error (List ℕ)
  | [], cores => .ok cores
  | bit :: bits, cores =>
    if mask &&& 1 <<< bit ≠ 0 then
      match u32TryFrom (coreIndex w groupIdx bit) with
      | none => .error coreIndexOverflow
      | some core => scanBits w groupIdx mask bits (cores ++ [core])
    else scanBits w groupIdx mask bits cores

/-- The loop over the groups, from the last one to the first. -/
def scanGroups (w : Width) : ℕ → List (List Char) → List ℕ → Except Error (List ℕ)
  | _, [], cores => .ok cores
  | groupIdx, chunk :: chunks, cores =>
    match groupMask chunk with
    | none => .error (malformedChunk chunk)
    | some mask =>
      match scanBits w groupIdx mask (List.range 32) cores with
      | .error error => .error error
      | .ok cores => scanGroups w (groupIdx + 1) chunks cores

def parseIrqAffinity (w : Width) (content : List Char) : Except Error (List ℕ) :=
  scanGroups w 0 ((trim content).splitOn ',').reverse []

def readIrqAffinity (w : Width) (readToString : String → Except IoError (List Char)) (irq : UInt32) :
    Except Error (List ℕ) :=
  match readToString s!"/proc/irq/{irq}/smp_affinity" with
  | .error source => .error (.system "read_irq_affinity" source)
  | .ok content => parseIrqAffinity w content

example : parseIrqAffinity .w64 "00000001,00000000,80000001".toList = .ok [0, 31, 64] := by decide

/-! ### What the loops return -/

/-- The values of the groups, least significant first, if all of them are well formed. -/
def groupMasks (content : List Char) : Option (List ℕ) :=
  ((trim content).splitOn ',').reverse.mapM groupMask

variable {w : Width} {mask groupIdx : ℕ} {masks cores cores' : List ℕ}

theorem and_shiftLeft_ne_zero_iff (mask bit : ℕ) : mask &&& 1 <<< bit ≠ 0 ↔ mask.testBit bit := by
  rw [Nat.one_shiftLeft, Nat.and_two_pow]
  cases mask.testBit bit <;> simp

theorem scanBits_eq_ok_iff {bits : List ℕ} : scanBits w groupIdx mask bits cores = .ok cores' ↔
    (∀ core ∈ (bits.filter fun bit => mask.testBit bit).map (coreIndex w groupIdx), core < 2 ^ 32) ∧
      cores' = cores ++ (bits.filter fun bit => mask.testBit bit).map (coreIndex w groupIdx) := by
  induction bits generalizing cores with
  | nil => simp [scanBits, eq_comm]
  | cons bit bits ih =>
      rw [scanBits]
      by_cases hbit : mask.testBit bit
      · rw [if_pos ((and_shiftLeft_ne_zero_iff mask bit).mpr hbit), List.filter_cons_of_pos hbit,
          List.map_cons, List.forall_mem_cons, u32TryFrom]
        split_ifs with hcore
        · dsimp only
          rw [ih, List.append_assoc, List.singleton_append, and_iff_right hcore]
        · rw [iff_false_right fun h => hcore h.1.1]
          exact nofun
      · rw [if_neg (mt (and_shiftLeft_ne_zero_iff mask bit).mp hbit), List.filter_cons_of_neg hbit, ih]

theorem coreIndex_groupBits (w : Width) (groupIdx mask : ℕ) :
    ((List.range 32).filter fun bit => mask.testBit bit).map (coreIndex w groupIdx) =
      ((groupBits 32 mask).map (32 * groupIdx + ·)).map (· % 2 ^ w.bits) := by
  rw [List.map_map]
  refine List.map_congr_left fun bit _ => ?_
  rw [coreIndex, Nat.mul_comm, Function.comp_apply]

theorem mapM_groupMask_cons {chunk : List Char} {chunks : List (List Char)} :
    (chunk :: chunks).mapM groupMask = some masks ↔
      ∃ mask masks', groupMask chunk = some mask ∧ chunks.mapM groupMask = some masks' ∧
        masks = mask :: masks' := by
  rw [List.mapM_cons]
  simp [Option.bind_eq_some_iff, eq_comm (a := masks)]

/-- The cores of the groups from `groupIdx` on. -/
theorem scanGroups_eq_ok_iff {chunks : List (List Char)} (hmasks : chunks.mapM groupMask = some masks) :
    scanGroups w groupIdx chunks cores = .ok cores' ↔
      (∀ core ∈ (positions 32 groupIdx masks).map (· % 2 ^ w.bits), core < 2 ^ 32) ∧
        cores' = cores ++ (positions 32 groupIdx masks).map (· % 2 ^ w.bits) := by
  induction chunks generalizing groupIdx masks cores with
  | nil =>
      cases hmasks
      simp [scanGroups, positions, eq_comm]
  | cons chunk chunks ih =>
      obtain ⟨mask, masks, hmask, hmasks', rfl⟩ := mapM_groupMask_cons.mp hmasks
      rw [scanGroups, hmask, positions, List.map_append, List.forall_mem_append,
        ← coreIndex_groupBits]
      dsimp only
      cases hbits : scanBits w groupIdx mask (List.range 32) cores with
      | error error =>
          constructor
          · intro h
            cases h
          · intro h
            rw [scanBits_eq_ok_iff.mpr ⟨h.1.1, rfl⟩] at hbits
            cases hbits
      | ok cores₁ =>
          obtain ⟨hcores, rfl⟩ := scanBits_eq_ok_iff.mp hbits
          dsimp only
          rw [ih hmasks', and_iff_right hcores, List.append_assoc]

/-- A text with a malformed group is not accepted. -/
theorem masks_of_scanGroups {chunks : List (List Char)}
    (h : scanGroups w groupIdx chunks cores = .ok cores') : ∃ masks, chunks.mapM groupMask = some masks := by
  induction chunks generalizing groupIdx cores with
  | nil => exact ⟨[], rfl⟩
  | cons chunk chunks ih =>
      rw [scanGroups] at h
      cases hmask : groupMask chunk with
      | none =>
          rw [hmask] at h
          cases h
      | some mask =>
          rw [hmask] at h
          dsimp only at h
          cases hbits : scanBits w groupIdx mask (List.range 32) cores with
          | error error =>
              rw [hbits] at h
              cases h
          | ok cores₁ =>
              rw [hbits] at h
              obtain ⟨masks, hmasks⟩ := ih h
              exact ⟨mask :: masks, mapM_groupMask_cons.mpr ⟨mask, masks, hmask, hmasks, rfl⟩⟩

theorem parseIrqAffinity_eq_ok_iff {content : List Char} (hmasks : groupMasks content = some masks) :
    parseIrqAffinity w content = .ok cores ↔
      (∀ core ∈ (positions 32 0 masks).map (· % 2 ^ w.bits), core < 2 ^ 32) ∧
        cores = (positions 32 0 masks).map (· % 2 ^ w.bits) := by
  rw [parseIrqAffinity, scanGroups_eq_ok_iff hmasks, List.nil_append]

/-- Of an accepted text the cores are in ascending order and are exactly the set bits of the whole mask
if and only if no group has a bit beyond its 32 and no set bit is at a position a `usize` cannot hold. -/
theorem affinity_exact_iff (w : Width) {content : List Char} {cores : List ℕ}
    (h : parseIrqAffinity w content = .ok cores) :
    ∃ masks, groupMasks content = some masks ∧
      (cores.Pairwise (· < ·) ∧ (cores.map fun core => 2 ^ core).sum = Nat.ofDigits (2 ^ 32) masks ↔
        (∀ mask ∈ masks, mask < 2 ^ 32) ∧ ∀ p ∈ positions 32 0 masks, p < 2 ^ w.bits) := by
  obtain ⟨masks, hmasks⟩ := masks_of_scanGroups h
  refine ⟨masks, hmasks, ?_⟩
  obtain ⟨-, rfl⟩ := (parseIrqAffinity_eq_ok_iff hmasks).mp h
  rw [List.map_map]
  have hsum := sum_mod_eq_iff (b := 32) (Nat.two_pow_pos w.bits) masks
  refine ⟨fun hexact => hsum.mp hexact.2, fun hcond => ⟨?_, hsum.mpr hcond⟩⟩
  have hsame : (positions 32 0 masks).map (· % 2 ^ w.bits) = positions 32 0 masks :=
    (List.map_congr_left fun p hp => Nat.mod_eq_of_lt (hcond.2 p hp)).trans (List.map_id' _)
  rw [hsame]
  exact positions_sorted 32 0 masks

theorem affinity_exact_iff_three : ∃ masks, groupMasks "00000001,00000000,80000001".toList = some masks ∧
    ([0, 31, 64].Pairwise (· < ·) ∧ ([0, 31, 64].map fun core => 2 ^ core).sum =
        Nat.ofDigits (2 ^ 32) masks ↔
      (∀ mask ∈ masks, mask < 2 ^ 32) ∧ ∀ p ∈ positions 32 0 masks, p < 2 ^ Width.w64.bits) :=
  affinity_exact_iff .w64 (by decide)

/-- Nine digits without a comma: bit 32 is set in a mask that is accepted as one without cores. -/
theorem not_affinity_exact : parseIrqAffinity .w64 "100000000".toList = .ok [] ∧
    groupMasks "100000000".toList = some [2 ^ 32] ∧
    (([] : List ℕ).map fun core => 2 ^ core).sum ≠ Nat.ofDigits (2 ^ 32) [2 ^ 32] := by
  refine ⟨by decide, by decide, ?_⟩
  decide

end KernelKit.Affinity
