import KernelKit.NumaSpellings

/-!
# The sources of the node count agree

`nodeCount` asks libnuma if it can be loaded, else the file `online`, else the directory of the nodes.
Each tells the same of a machine, if libnuma knows its greatest node and the directory has no gaps, so
which nodes are valid does not depend on what is installed.
-/

namespace KernelKit.Numa
open RustString RangeList

/-- Sysfs tells of the nodes `s`: by a spelling of them, or by directories without a gap. -/
inductive SysfsTells (env : NumaEnv) (s : Finset ℕ) : Prop
  | online {items : List (List Char)} : Spelling s items →
      env.online = some ([','].intercalate items ++ ['\n']) → SysfsTells env s
  | listing {listing extras : List (List Char)} : env.online = none → env.listing = some listing →
      listing.Perm (s.sort.map nodeName ++ extras) → lookalikes extras = 0 →
      s = Finset.range s.card → SysfsTells env s

/-- If libnuma can be used, the greatest node it knows is that of `s`. -/
def LibnumaTells (env : NumaEnv) (s : Finset ℕ) (hs : s.Nonempty) : Prop :=
  ∀ library, tryLoad env = .ok (some library) → library.maxNode.toInt = s.max' hs

variable {w : Width} {env : NumaEnv} {s : Finset ℕ}

theorem max'_add_one_of_dense (hs : s.Nonempty) (h : s = Finset.range s.card) : s.max' hs + 1 = s.card := by
  have hpos := Finset.card_pos.mpr hs
  have hlt : s.max' hs < s.card := by
    rw [← Finset.mem_range, ← h]
    exact s.max'_mem hs
  have hlast : s.card - 1 ∈ s := by
    rw [h, Finset.mem_range, Finset.card_range]
    omega
  have hle := s.le_max' _ hlast
  omega

theorem maxNode_spelling (hs : s.Nonempty) {items : List (List Char)} (h : Spelling s items)
    (hmax : s.max' hs ≤ w.usizeMax) :
    maxNode w ([','].intercalate items ++ ['\n']) = some (s.max' hs) := by
  have hends := h.endsAt hs
  have hne : items ≠ [] := by
    rintro rfl
    obtain ⟨_, hmem, -⟩ := hends.last
    cases hmem
  rw [maxNode_intercalate hends.comma_not_mem hne, hends.max?_eq hmax]

theorem SysfsTells.sysfsOrOne_eq (hs : s.Nonempty) (h : SysfsTells env s)
    (hmax : s.max' hs < w.usizeMax) : sysfsOrOne w env = s.max' hs + 1 := by
  have hcount : sysfsNodeCount w env = some (s.max' hs + 1) := by
    cases h with
    | online hspelling honline =>
        rw [sysfsNodeCount, honline, Option.bind_some, maxNode_spelling hs hspelling hmax.le]
        exact congrArg some (min_eq_left hmax)
    | listing honline hlisting hperm hextras hdense =>
        have hcard := max'_add_one_of_dense hs hdense
        have hall := countP_listing hperm
        have hpos : 0 < s.card := Finset.card_pos.mpr hs
        rw [sysfsNodeCount, honline, Option.bind_none, hlisting, Option.bind_some, countNodeEntries,
          hall, hextras, hcard]
        exact if_pos hpos
  rw [sysfsOrOne, hcount]
  exact max_eq_left (Nat.le_add_left 1 _)

theorem nodeCount_eq (hs : s.Nonempty) (hmax : s.max' hs + 1 < 2 ^ 31) (hlib : LibnumaTells env s hs)
    (hsysfs : SysfsTells env s) : nodeCount w env = s.max' hs + 1 := by
  have husize : s.max' hs < w.usizeMax := by
    cases w with
    | w32 | w64 =>
        rw [Width.usizeMax, Width.bits]
        omega
  have hplain := hsysfs.sysfsOrOne_eq (w := w) hs husize
  rw [nodeCount]
  cases hload : tryLoad env with
  | error error => exact hplain
  | ok library =>
      cases library with
      | none => exact hplain
      | some library =>
          have hnode := hlib library hload
          have hle : (0 : Int32) ≤ library.maxNode := by
            rw [Int32.le_iff_toInt_le, hnode]
            exact Int.natCast_nonneg _
          dsimp only
          rw [if_pos hle, hnode]
          omega

/-- On a machine with the nodes `s`, the nodes up to the greatest of them are valid, and no others, on
whichever source the count rests. -/
theorem validateNode_sources (w : Width) (env : NumaEnv) (s : Finset ℕ) (hs : s.Nonempty)
    (hmax : s.max' hs + 1 < 2 ^ 31) (hlib : LibnumaTells env s hs) (hsysfs : SysfsTells env s)
    (node : UInt32) : validateNode w env node =
      if node.toNat ≤ s.max' hs then .ok ()
      else .error (.invalidNode node.toNat (s.max' hs + 1)) := by
  rw [validateNode, nodeCount_eq hs hmax hlib hsysfs]
  exact if_congr Nat.lt_succ_iff rfl rfl

def pairEnv : NumaEnv :=
  ⟨fun _ => some ⟨librarySymbols, 0, 1⟩, some "0-1\n".toList, none⟩

/-- Node 1 is valid, and node 2 is not. -/
theorem validateNode_sources_pair : validateNode .w64 pairEnv 1 = .ok () ∧
    validateNode .w64 pairEnv 2 = .error (.invalidNode 2 2) := by
  have hsort : ({0, 1} : Finset ℕ).sort = [0, 1] :=
    (@List.toFinset_sort ℕ (· ≤ ·) _ _ _ _ _ [0, 1] (by decide)).mpr (by decide)
  have hspelling : Spelling {0, 1} [printRange (0, 1)] := by
    have h := @Spelling.printed {0, 1}
    rwa [hsort] at h
  have hsources := validateNode_sources .w64 pairEnv {0, 1} (by decide) (by decide)
    (fun library hload => by cases hload; rfl) (.online hspelling (by decide))
  constructor
  · exact hsources 1
  · exact hsources 2

end KernelKit.Numa
