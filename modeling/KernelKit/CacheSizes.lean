import KernelKit.CacheValue

/-!
# The cache sizes read from sysfs

`detectCacheSizes` takes the line size and the sizes of the three levels from files that may be missing
or malformed, each with alternatives and a default. A file that reads `0` takes none of these.
-/

namespace KernelKit.CpuFeatures
open RustString

def cachePath (index : ℕ) (file : String) : String :=
  s!"/sys/devices/system/cpu/cpu0/cache/index{index}/{file}"

/-- `readToString` answers `std::fs::read_to_string` for the path it is given. -/
def readCacheValue (w : Width) (readToString : String → Except IoError (List Char)) (path : String) :
    Option ℕ :=
  match readToString path with
  | .error _ => none
  | .ok raw => (parseCacheValue w (trim raw)).toOption

/-- One turn of the loop over the indexes. -/
def probeIndex (w : Width) (readToString : String → Except IoError (List Char)) (index : ℕ) :
    Option ℕ :=
  match readToString (cachePath index "type") with
  | .error _ => none
  | .ok cacheType =>
    let cacheType := (trim cacheType).map Char.toLower
    if cacheType = ['d', 'a', 't', 'a'] ∨ cacheType = ['u', 'n', 'i', 'f', 'i', 'e', 'd'] then
      match readToString (cachePath index "size") with
      | .error _ => none
      | .ok raw => (parseCacheValue w (trim raw)).toOption
    else none

def probeL1CacheSize (w : Width) (readToString : String → Except IoError (List Char)) : Option ℕ :=
  (([0, 1].findSome? (probeIndex w readToString)).or
    (readCacheValue w readToString (cachePath 0 "size"))).or
      (readCacheValue w readToString (cachePath 1 "size"))

def detectCacheSizes (w : Width) (readToString : String → Except IoError (List Char)) : ℕ × ℕ × ℕ × ℕ :=
  let lineSize := ((readCacheValue w readToString (cachePath 0 "coherency_line_size")).or
    (readCacheValue w readToString (cachePath 1 "coherency_line_size"))).getD 64
  let l1Size := (probeL1CacheSize w readToString).getD (32 * 1024)
  let l2Size := (readCacheValue w readToString (cachePath 2 "size")).getD (256 * 1024)
  let l3Size := (readCacheValue w readToString (cachePath 3 "size")).getD 0
  (lineSize, l1Size, l2Size, l3Size)

/-! ### The files in the order in which they are tried -/

section Files

variable (w : Width) (readToString : String → Except IoError (List Char))

def typeOf (index : ℕ) : Option (List Char) :=
  (readToString (cachePath index "type")).toOption.map fun text => (trim text).map Char.toLower

/-- A cache that holds data: the type is `Data` or `Unified`, in any case. -/
def IsDataCache (index : ℕ) : Prop :=
  typeOf readToString index = some ['d', 'a', 't', 'a'] ∨
    typeOf readToString index = some ['u', 'n', 'i', 'f', 'i', 'e', 'd']

def IsInstructionCache (index : ℕ) : Prop :=
  typeOf readToString index = some ['i', 'n', 's', 't', 'r', 'u', 'c', 't', 'i', 'o', 'n']

instance (index : ℕ) : Decidable (IsDataCache readToString index) :=
  inferInstanceAs (Decidable (_ ∨ _))

def cacheSize (index : ℕ) : Option ℕ := readCacheValue w readToString (cachePath index "size")

theorem probeIndex_eq (index : ℕ) : probeIndex w readToString index =
    if IsDataCache readToString index then cacheSize w readToString index else none := by
  rw [probeIndex, cacheSize, readCacheValue]
  cases htype : readToString (cachePath index "type") with
  | error error => simp [IsDataCache, typeOf, htype, Except.toOption]
  | ok text => simp [IsDataCache, typeOf, htype, Except.toOption]

/-- The files that may give the size of the first level: those of the data caches, then all. -/
def l1Paths : List String :=
  (([0, 1].filter fun index => IsDataCache readToString index) ++ [0, 1]).map (cachePath · "size")

/-- The first of the files that holds a size does not hold zero. -/
def FirstNonzero (paths : List String) : Prop :=
  ∀ before path after, paths = before ++ path :: after →
    (∀ p ∈ before, readCacheValue w readToString p = none) →
      readCacheValue w readToString path ≠ some 0

variable {w readToString}

theorem findSome?_probeIndex (indexes : List ℕ) : indexes.findSome? (probeIndex w readToString) =
    (indexes.filter fun index => IsDataCache readToString index).findSome?
      (cacheSize w readToString) := by
  induction indexes with
  | nil => rfl
  | cons index indexes ih =>
      rw [List.findSome?_cons, probeIndex_eq, ih]
      by_cases hdata : IsDataCache readToString index
      · rw [if_pos hdata, List.filter_cons, if_pos (decide_eq_true hdata), List.findSome?_cons]
      · rw [if_neg hdata, List.filter_cons, if_neg (by simpa using hdata)]

theorem findSome?_pair {α : Type} (f : α → Option ℕ) (a b : α) :
    [a, b].findSome? f = (f a).or (f b) := by
  rw [List.findSome?_cons, List.findSome?_singleton]
  cases f a <;> rfl

theorem probeL1CacheSize_eq_or : probeL1CacheSize w readToString =
    ([0, 1].findSome? (probeIndex w readToString)).or
      ([0, 1].findSome? (cacheSize w readToString)) := by
  rw [probeL1CacheSize, Option.or_assoc, findSome?_pair (cacheSize w readToString)]
  rfl

theorem probeL1CacheSize_eq : probeL1CacheSize w readToString =
    (l1Paths readToString).findSome? (readCacheValue w readToString) := by
  rw [probeL1CacheSize_eq_or, findSome?_probeIndex, l1Paths, List.map_append, List.findSome?_append,
    List.findSome?_map, List.findSome?_map]
  rfl

theorem getD_findSome?_pos {paths : List String} {default : ℕ} (hdefault : 0 < default) :
    0 < (paths.findSome? (readCacheValue w readToString)).getD default ↔
      FirstNonzero w readToString paths := by
  rw [Nat.pos_iff_ne_zero, ne_eq, Option.getD_eq_iff, List.findSome?_eq_some_iff,
    or_iff_left fun h => hdefault.ne' h.2]
  constructor
  · intro hnone before path after hpaths hbefore hzero
    exact hnone ⟨before, path, after, hpaths, hzero, hbefore⟩
  · rintro hfirst ⟨before, path, after, hpaths, hzero, hbefore⟩
    exact hfirst before path after hpaths hbefore hzero

/-! ### Positive sizes -/

variable (w readToString)

def lineSizePaths : List String :=
  [cachePath 0 "coherency_line_size", cachePath 1 "coherency_line_size"]

/-- The line size and the sizes of the first two levels are positive, and where the first line size
cannot be used the second one is. -/
def CacheSizesUsable : Prop :=
  0 < (detectCacheSizes w readToString).1 ∧ 0 < (detectCacheSizes w readToString).2.1 ∧
    0 < (detectCacheSizes w readToString).2.2.1 ∧
      ((∀ v, readCacheValue w readToString (cachePath 0 "coherency_line_size") = some v → v = 0) →
        ∀ v, readCacheValue w readToString (cachePath 1 "coherency_line_size") = some v → 0 < v →
          (detectCacheSizes w readToString).1 = v)

/-- The detected sizes can be used exactly if for each of the three the file that decides it, the first
one that holds a size, does not hold zero. -/
theorem cacheSizesUsable_iff : CacheSizesUsable w readToString ↔
    FirstNonzero w readToString lineSizePaths ∧
      FirstNonzero w readToString (l1Paths readToString) ∧
        FirstNonzero w readToString [cachePath 2 "size"] := by
  have hline : (detectCacheSizes w readToString).1 =
      (lineSizePaths.findSome? (readCacheValue w readToString)).getD 64 :=
    congrArg (Option.getD · 64) (findSome?_pair ..).symm
  have hl1 : (detectCacheSizes w readToString).2.1 =
      ((l1Paths readToString).findSome? (readCacheValue w readToString)).getD (32 * 1024) :=
    congrArg (Option.getD · (32 * 1024)) probeL1CacheSize_eq
  have hl2 : (detectCacheSizes w readToString).2.2.1 =
      ([cachePath 2 "size"].findSome? (readCacheValue w readToString)).getD (256 * 1024) :=
    congrArg (Option.getD · (256 * 1024)) List.findSome?_singleton.symm
  rw [CacheSizesUsable, hl1, hl2, getD_findSome?_pos (by decide), getD_findSome?_pos (by decide)]
  constructor
  · rintro ⟨hpos, hfirst, hsecond, -⟩
    rw [hline, getD_findSome?_pos (by decide)] at hpos
    exact ⟨hpos, hfirst, hsecond⟩
  · rintro ⟨hpos, hfirst, hsecond⟩
    refine ⟨hline ▸ (getD_findSome?_pos (by decide)).mpr hpos, hfirst, hsecond, fun hzero v hv _ => ?_⟩
    have hnone : readCacheValue w readToString (cachePath 0 "coherency_line_size") = none := by
      rw [Option.eq_none_iff_forall_ne_some]
      intro v hv
      obtain rfl := hzero v hv
      exact hpos [] _ _ rfl (List.forall_mem_nil _) hv
    rw [detectCacheSizes, hnone, Option.none_or, hv, Option.getD_some]

def zeroLineSize (path : String) : Except IoError (List Char) :=
  if path = "/sys/devices/system/cpu/cpu0/cache/index0/coherency_line_size" then .ok ['0', '\n']
  else .ok ['6', '4', '\n']

/-- The zero is reported though the second cache has a line size. -/
theorem not_cacheSizesUsable : ¬ CacheSizesUsable .w64 zeroLineSize := by
  rintro ⟨hpos, -⟩
  revert hpos
  decide

end Files

end KernelKit.CpuFeatures
