import KernelKit.CacheSizes

/-!
# The kernel's description of the caches and its reader

Linux describes each cache of a core by files for its type, its size in KiB and its line size, and leaves
out the files of what it does not know. It lists the caches of the first level before those of the others.
`detectCacheSizes` knows the levels by their places in the list alone. Where the first level is split in
two, in either order, it recovers every size that is known.
-/

namespace KernelKit.CpuFeatures
open RustString

inductive CacheKind
  | data
  | instruction
  | unified
  deriving DecidableEq, Repr

def CacheKind.print : CacheKind → List Char
  | .data => ['D', 'a', 't', 'a', '\n']
  | .instruction => ['I', 'n', 's', 't', 'r', 'u', 'c', 't', 'i', 'o', 'n', '\n']
  | .unified => ['U', 'n', 'i', 'f', 'i', 'e', 'd', '\n']

/-- What is known of a cache. The kernel keeps its size in bytes, and the line size, as `unsigned int`s. -/
structure Cache where
  kind : CacheKind
  kib : Option ℕ
  lineSize : Option ℕ
  kib_lt : ∀ n ∈ kib, n * 1024 < 2 ^ 32
  lineSize_lt : ∀ n ∈ lineSize, n < 2 ^ 32

namespace Cache

def printSize (cache : Cache) : Option (List Char) := cache.kib.map fun n => digits n ++ ['K', '\n']

def printLineSize (cache : Cache) : Option (List Char) := cache.lineSize.map fun n => digits n ++ ['\n']

def size (cache : Cache) : Option ℕ := cache.kib.map (· * 1024)

def HoldsData (cache : Cache) : Prop := cache.kind ≠ .instruction

instance (cache : Cache) : Decidable cache.HoldsData := inferInstanceAs (Decidable (_ ≠ _))

end Cache

structure Describes (files : String → Except IoError (List Char)) (caches : List Cache) : Prop where
  type_eq : ∀ index < 4, (files (cachePath index "type")).toOption =
    caches[index]?.map fun cache => cache.kind.print
  size_eq : ∀ index < 4, (files (cachePath index "size")).toOption =
    caches[index]?.bind Cache.printSize
  lineSize_eq : ∀ index < 4, (files (cachePath index "coherency_line_size")).toOption =
    caches[index]?.bind Cache.printLineSize

variable {w : Width} {files : String → Except IoError (List Char)} {n : ℕ}

/-! ### Printed numbers -/

theorem two_pow_le_usizeMax (w : Width) : 2 ^ 32 ≤ w.usizeMax + 1 := by
  cases w <;> decide

theorem toUpper_of_isDigit {c : Char} (h : c.isDigit = true) : c.toUpper = c := by
  simp only [Char.isDigit, Bool.and_eq_true, decide_eq_true_eq, UInt32.le_iff_toNat_le] at h
  have hnine : c.toNat ≤ 57 := h.2
  rcases toUpper_cases c with heq | ⟨hlow, -, -⟩
  · exact heq
  · omega

theorem map_toUpper_digits (n : ℕ) : (digits n).map Char.toUpper = digits n := by
  rw [List.map_congr_left fun c hc => toUpper_of_isDigit (isDigit_of_mem_digits hc), List.map_id']

theorem trim_digits (n : ℕ) : trim (digits n) = digits n :=
  trim_eq_self (isNumeral_digits n).denotes.isWhitespace

theorem trim_digits_kib (n : ℕ) : trim (digits n ++ ['K']) = digits n ++ ['K'] :=
  trim_eq_self (List.forall_mem_append.mpr
    ⟨(isNumeral_digits n).denotes.isWhitespace, List.forall_mem_singleton.mpr rfl⟩)

theorem parseCacheValue_digits (h : n ≤ w.usizeMax) : parseCacheValue w (digits n) = .ok n := by
  rw [parseCacheValue_eq_ok, trim_digits, map_toUpper_digits]
  exact .inr ⟨takeUnit_number (isNumeral_digits n).denotes, parseUnsigned_digits h⟩

theorem parseCacheValue_digits_kib (h : n * 1024 ≤ w.usizeMax) :
    parseCacheValue w (digits n ++ ['K']) = .ok (n * 1024) := by
  have hdenotes : Denotes (digits n) n := (isNumeral_digits n).denotes
  have hupper : (digits n ++ ['K']).map Char.toUpper = digits n ++ [] ++ ['K'] := by
    rw [List.map_append, map_toUpper_digits, List.append_nil]
    rfl
  have htake : takeUnit unitFamilies (digits n ++ [] ++ ['K']) = some (digits n ++ [], 1) :=
    takeUnit_body hdenotes (List.forall_mem_nil _) (by simp [cacheUnits]) (by decide)
  rw [parseCacheValue_eq_ok, trim_digits_kib, hupper]
  refine .inl ⟨digits n ++ [], 1, htake, ?_⟩
  rw [List.append_nil, trim_digits]
  exact parse_scale_iff.mpr ⟨n, hdenotes, by rw [pow_one], h⟩

/-! ### The files of the caches -/

theorem readCacheValue_eq_bind (path : String) : readCacheValue w files path =
    (files path).toOption.bind fun raw => (parseCacheValue w (trim raw)).toOption := by
  rw [readCacheValue]
  cases files path <;> rfl

theorem Cache.parse_printSize (w : Width) (cache : Cache) :
    (cache.printSize.bind fun raw => (parseCacheValue w (trim raw)).toOption) = cache.size := by
  rw [Cache.printSize, Cache.size]
  cases hkib : cache.kib with
  | none => rfl
  | some n =>
      have hmax : n * 1024 ≤ w.usizeMax :=
        Nat.le_of_lt_succ ((cache.kib_lt n hkib).trans_le (two_pow_le_usizeMax w))
      have htrim : trim (digits n ++ ['K', '\n']) = digits n ++ ['K'] := by
        rw [List.append_cons, trim_concat rfl, trim_digits_kib]
      rw [Option.map_some, Option.bind_some, htrim, parseCacheValue_digits_kib hmax]
      rfl

theorem Cache.parse_printLineSize (w : Width) (cache : Cache) :
    (cache.printLineSize.bind fun raw => (parseCacheValue w (trim raw)).toOption) = cache.lineSize := by
  rw [Cache.printLineSize]
  cases hline : cache.lineSize with
  | none => rfl
  | some n =>
      have hmax : n ≤ w.usizeMax :=
        Nat.le_of_lt_succ ((cache.lineSize_lt n hline).trans_le (two_pow_le_usizeMax w))
      rw [Option.map_some, Option.bind_some, trim_concat rfl, trim_digits, parseCacheValue_digits hmax]
      rfl

namespace Describes

variable {caches : List Cache} (h : Describes files caches) {index : ℕ}
include h

theorem cacheSize_eq (hindex : index < 4) :
    cacheSize w files index = caches[index]?.bind Cache.size := by
  rw [cacheSize, readCacheValue_eq_bind, h.size_eq index hindex, Option.bind_assoc]
  simp only [Cache.parse_printSize]

theorem readLineSize_eq (hindex : index < 4) :
    readCacheValue w files (cachePath index "coherency_line_size") = caches[index]?.bind Cache.lineSize := by
  rw [readCacheValue_eq_bind, h.lineSize_eq index hindex, Option.bind_assoc]
  simp only [Cache.parse_printLineSize]

theorem isDataCache_iff (hindex : index < 4) :
    IsDataCache files index ↔ ∃ cache ∈ caches[index]?, cache.HoldsData := by
  rw [IsDataCache, typeOf, h.type_eq index hindex]
  cases caches[index]? with
  | none => simp
  | some cache =>
      obtain ⟨kind, kib, lineSize, hkib, hline⟩ := cache
      cases kind <;> simp [CacheKind.print, Cache.HoldsData] <;> decide

theorem probeIndex_eq (hindex : index < 4) : probeIndex w files index =
    caches[index]?.bind fun cache => if cache.HoldsData then cache.size else none := by
  rw [CpuFeatures.probeIndex_eq, h.cacheSize_eq hindex]
  simp only [h.isDataCache_iff hindex]
  cases caches[index]? with
  | none => simp
  | some cache => simp

end Describes

/-! ### A first level in two -/

/-- The first level is a data and an instruction cache, in either order, before the second and the third. -/
structure SplitLevels where
  l1Data : Cache
  l1Instruction : Cache
  l2 : Cache
  l3 : Option Cache
  dataFirst : Bool
  data_kind : l1Data.kind = .data
  instruction_kind : l1Instruction.kind = .instruction

namespace SplitLevels

variable (levels : SplitLevels)

def first : Cache := if levels.dataFirst then levels.l1Data else levels.l1Instruction
def second : Cache := if levels.dataFirst then levels.l1Instruction else levels.l1Data

def caches : List Cache := levels.first :: levels.second :: levels.l2 :: levels.l3.toList

theorem not_holdsData : ¬ levels.l1Instruction.HoldsData := not_not_intro levels.instruction_kind

theorem holdsData : levels.l1Data.HoldsData := by
  rw [Cache.HoldsData, levels.data_kind]
  decide

theorem order : (levels.first = levels.l1Data ∧ levels.second = levels.l1Instruction) ∨
    (levels.first = levels.l1Instruction ∧ levels.second = levels.l1Data) := by
  rw [first, second]
  cases levels.dataFirst with
  | true => exact .inl ⟨rfl, rfl⟩
  | false => exact .inr ⟨rfl, rfl⟩

/-- The loop finds the data cache in its place, and the fallback has the sizes of both. -/
theorem probeL1CacheSize_eq (h : Describes files levels.caches) :
    probeL1CacheSize w files = levels.l1Data.size.or levels.l1Instruction.size := by
  have hturn (index : ℕ) (cache : Cache) (hindex : index < 4)
      (hcache : levels.caches[index]? = some cache) : probeIndex w files index =
        if cache.HoldsData then cache.size else none := by
    rw [h.probeIndex_eq hindex, hcache, Option.bind_some]
  have hsize (index : ℕ) (cache : Cache) (hindex : index < 4)
      (hcache : levels.caches[index]? = some cache) : cacheSize w files index = cache.size := by
    rw [h.cacheSize_eq hindex, hcache, Option.bind_some]
  rw [probeL1CacheSize_eq_or, findSome?_pair, findSome?_pair, hturn 0 _ (by decide) rfl,
    hturn 1 _ (by decide) rfl, hsize 0 _ (by decide) rfl, hsize 1 _ (by decide) rfl]
  rcases levels.order with ⟨hfirst, hsecond⟩ | ⟨hfirst, hsecond⟩
  · rw [hfirst, hsecond, if_pos levels.holdsData, if_neg levels.not_holdsData, Option.or_none,
      ← Option.or_assoc, Option.or_self]
  · rw [hfirst, hsecond, if_neg levels.not_holdsData, if_pos levels.holdsData, Option.none_or]
    cases levels.l1Data.size with
    | none => exact Option.or_none
    | some n => rfl

end SplitLevels

/-- The size of the data cache, the second and the third level are those the kernel knows, whatever the
order within the first level. What is not known has the default, and for the data cache the size of the
instruction cache before that. -/
theorem detectCacheSizes_splitLevels (w : Width) (files : String → Except IoError (List Char))
    (levels : SplitLevels) (h : Describes files levels.caches) :
    detectCacheSizes w files = ((levels.first.lineSize.or levels.second.lineSize).getD 64,
      (levels.l1Data.size.or levels.l1Instruction.size).getD (32 * 1024),
      levels.l2.size.getD (256 * 1024), (levels.l3.bind Cache.size).getD 0) := by
  have hl3 : cacheSize w files 3 = levels.l3.bind Cache.size := by
    rw [h.cacheSize_eq (by decide), SplitLevels.caches]
    cases levels.l3 <;> rfl
  rw [detectCacheSizes, levels.probeL1CacheSize_eq h, h.readLineSize_eq (by decide),
    h.readLineSize_eq (by decide)]
  change (_, _, (cacheSize w files 2).getD _, (cacheSize w files 3).getD _) = _
  rw [hl3, h.cacheSize_eq (by decide)]
  rfl

/-- The instruction cache is first, and there is no third level. -/
def instructionFirstLevels : SplitLevels where
  l1Data := ⟨.data, some 48, some 64, by decide, by decide⟩
  l1Instruction := ⟨.instruction, some 32, none, by decide, by decide⟩
  l2 := ⟨.unified, some 2048, some 64, by decide, by decide⟩
  l3 := none
  dataFirst := false
  data_kind := rfl
  instruction_kind := rfl

def instructionFirstFiles (path : String) : Except IoError (List Char) :=
  if path = cachePath 0 "type" then .ok "Instruction\n".toList
  else if path = cachePath 0 "size" then .ok "32K\n".toList
  else if path = cachePath 1 "type" then .ok "Data\n".toList
  else if path = cachePath 1 "size" then .ok "48K\n".toList
  else if path = cachePath 1 "coherency_line_size" then .ok "64\n".toList
  else if path = cachePath 2 "type" then .ok "Unified\n".toList
  else if path = cachePath 2 "size" then .ok "2048K\n".toList
  else if path = cachePath 2 "coherency_line_size" then .ok "64\n".toList
  else .error (.os 2)

theorem detectCacheSizes_splitLevels_instructionFirst :
    detectCacheSizes .w64 instructionFirstFiles = (64, 49152, 2097152, 0) := by
  have hdescribes : Describes instructionFirstFiles instructionFirstLevels.caches := by
    constructor <;> decide +kernel
  exact detectCacheSizes_splitLevels .w64 instructionFirstFiles instructionFirstLevels hdescribes

end KernelKit.CpuFeatures
