import KernelKit.CacheSizes

/-!
# Which cache the first level's size comes from

`probeL1CacheSize` returns the size of the first data or unified cache. Where none of these has a
readable size its loop is followed by a fallback that does not look at the types, so the size of an
instruction cache can be reported.
-/

namespace KernelKit.CpuFeatures

variable (w : Width) (readToString : String → Except IoError (List Char))

/-- The first level's size is that of a cache other than an instruction cache, and that of the first
cache that holds data and has a size, if there is one. -/
def ProbesDataCache : Prop :=
  (∀ v, probeL1CacheSize w readToString = some v → ∃ index ∈ [0, 1],
    cacheSize w readToString index = some v ∧ ¬ IsInstructionCache readToString index) ∧
  ∀ index ∈ [0, 1], ∀ v, IsDataCache readToString index → cacheSize w readToString index = some v →
    (∀ before < index, IsDataCache readToString before → cacheSize w readToString before = none) →
      probeL1CacheSize w readToString = some v

/-- What the fallback needs: the first cache with a size, or else one of the same size, is no
instruction cache. -/
def FallbackIsData : Prop :=
  ∀ index ∈ [0, 1], ∀ v, cacheSize w readToString index = some v →
    (∀ before < index, cacheSize w readToString before = none) → ∃ other ∈ [0, 1],
      cacheSize w readToString other = some v ∧ ¬ IsInstructionCache readToString other

theorem findSome?_indexes {f : ℕ → Option ℕ} {v : ℕ} : [0, 1].findSome? f = some v ↔
    ∃ index ∈ [0, 1], f index = some v ∧ ∀ before < index, f before = none := by
  rw [List.findSome?_cons, List.findSome?_singleton]
  cases h : f 0 with
  | some u => simp [h]
  | none => simp [h]

variable {w readToString}

theorem probeIndex_eq_some {index v : ℕ} : probeIndex w readToString index = some v ↔
    IsDataCache readToString index ∧ cacheSize w readToString index = some v := by
  rw [probeIndex_eq]
  exact Option.ite_none_right_eq_some

theorem probeIndex_eq_none {index : ℕ} : probeIndex w readToString index = none ↔
    (IsDataCache readToString index → cacheSize w readToString index = none) := by
  rw [probeIndex_eq]
  exact ite_eq_right_iff

theorem not_isInstructionCache {index : ℕ} (h : IsDataCache readToString index) :
    ¬ IsInstructionCache readToString index := by
  intro hinstruction
  rcases h with h | h <;>
  · rw [IsInstructionCache, h] at hinstruction
    revert hinstruction
    decide

theorem probeL1CacheSize_of_data {index v : ℕ} (hmem : index ∈ [0, 1])
    (hdata : IsDataCache readToString index) (hsize : cacheSize w readToString index = some v)
    (hfirst : ∀ before < index,
      IsDataCache readToString before → cacheSize w readToString before = none) :
    probeL1CacheSize w readToString = some v := by
  have hloop : [0, 1].findSome? (probeIndex w readToString) = some v :=
    findSome?_indexes.mpr ⟨index, hmem, probeIndex_eq_some.mpr ⟨hdata, hsize⟩,
      fun before hbefore => probeIndex_eq_none.mpr (hfirst before hbefore)⟩
  rw [probeL1CacheSize_eq_or, hloop, Option.some_or]

theorem probeL1CacheSize_of_none
    (hnone : ∀ index ∈ [0, 1], IsDataCache readToString index → cacheSize w readToString index = none) :
    probeL1CacheSize w readToString = [0, 1].findSome? (cacheSize w readToString) := by
  have hloop : [0, 1].findSome? (probeIndex w readToString) = none :=
    List.findSome?_eq_none_iff.mpr fun index hindex => probeIndex_eq_none.mpr (hnone index hindex)
  rw [probeL1CacheSize_eq_or, hloop, Option.none_or]

/-- The probe keeps to data caches exactly if one of them has a size, or else the fallback meets none
of the instruction caches. -/
theorem probesDataCache_iff (w : Width) (readToString : String → Except IoError (List Char)) :
    ProbesDataCache w readToString ↔
      (∃ index ∈ [0, 1], IsDataCache readToString index ∧
        (cacheSize w readToString index).isSome) ∨ FallbackIsData w readToString := by
  have hlowest : ∀ index ∈ [0, 1], ∀ v, IsDataCache readToString index →
      cacheSize w readToString index = some v →
      (∀ before < index, IsDataCache readToString before → cacheSize w readToString before = none) →
      probeL1CacheSize w readToString = some v :=
    fun index hmem v hdata hsize hfirst => probeL1CacheSize_of_data hmem hdata hsize hfirst
  rw [ProbesDataCache, and_iff_left hlowest]
  by_cases hsome : ∃ index ∈ [0, 1], IsDataCache readToString index ∧
      (cacheSize w readToString index).isSome
  · refine iff_of_true (fun v hv => ?_) (Or.inl hsome)
    obtain ⟨index, hmem, hdata, hsize⟩ := hsome
    have hturn : (probeIndex w readToString index).isSome := by
      rwa [probeIndex_eq, if_pos hdata]
    obtain ⟨u, hu⟩ := Option.isSome_iff_exists.mp (List.findSome?_isSome_iff.mpr ⟨index, hmem, hturn⟩)
    obtain ⟨found, hmem, hfound, -⟩ := findSome?_indexes.mp hu
    obtain ⟨hdata, hsize⟩ := probeIndex_eq_some.mp hfound
    rw [probeL1CacheSize_eq_or, hu, Option.some_or] at hv
    exact ⟨found, hmem, hsize.trans hv, not_isInstructionCache hdata⟩
  · have hnone : ∀ index ∈ [0, 1], IsDataCache readToString index →
        cacheSize w readToString index = none := by
      intro index hmem hdata
      rw [← Option.not_isSome_iff_eq_none]
      exact fun hsize => hsome ⟨index, hmem, hdata, hsize⟩
    rw [or_iff_right hsome, probeL1CacheSize_of_none hnone, FallbackIsData]
    simp only [findSome?_indexes]
    constructor
    · intro h index hmem v hsize hfirst
      exact h v ⟨index, hmem, hsize, hfirst⟩
    · rintro h v ⟨index, hmem, hsize, hfirst⟩
      exact h index hmem v hsize hfirst

def instructionFirst (path : String) : Except IoError (List Char) :=
  if path = "/sys/devices/system/cpu/cpu0/cache/index0/type" then
    .ok ['I', 'n', 's', 't', 'r', 'u', 'c', 't', 'i', 'o', 'n', '\n']
  else if path = "/sys/devices/system/cpu/cpu0/cache/index0/size" then .ok ['6', '4', 'K', '\n']
  else if path = "/sys/devices/system/cpu/cpu0/cache/index1/type" then .ok ['D', 'a', 't', 'a', '\n']
  else .error (.os 2)

/-- The size of the instruction cache is reported. -/
theorem not_probesDataCache : ¬ ProbesDataCache .w64 instructionFirst := by
  rintro ⟨hdata, -⟩
  obtain ⟨index, hmem, hsize, htype⟩ := hdata 65536 (by decide)
  simp only [List.mem_cons, List.not_mem_nil, or_false] at hmem
  rcases hmem with rfl | rfl
  · exact htype rfl
  · revert hsize
    decide

end KernelKit.CpuFeatures
