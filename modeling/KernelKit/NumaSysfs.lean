import KernelKit.Numa
import KernelKit.RangeList
import KernelKit.RustNumber

/-!
# The two sysfs sources of the node count

From the file `online` the count is the greatest listed number plus one; from the directory it is the
number of entries. The two agree on a dense numbering only, so with a gap a node that is online
is rejected when the directory answers.
-/

namespace KernelKit.Numa
open RustString RangeList

variable {w : Width}

theorem foldl_takeRange (items : List (List Char)) (m : ℕ) :
    items.foldl (takeRange w) (some m) = some ((items.filterMap (rangeEnd w)).foldl max m) := by
  induction items generalizing m with
  | nil => rfl
  | cons item items ih =>
      rw [List.foldl_cons, takeRange]
      cases hitem : rangeEnd w item with
      | none =>
          rw [List.filterMap_cons_none hitem]
          exact ih m
      | some idx =>
          rw [List.filterMap_cons_some hitem, List.foldl_cons]
          exact ih (max m idx)

theorem maxNode_eq_max (content : List Char) :
    maxNode w content = (((trim content).splitOn ',').filterMap (rangeEnd w)).max? := by
  unfold maxNode
  induction (trim content).splitOn ',' with
  | nil => rfl
  | cons item items ih =>
      rw [List.foldl_cons, takeRange]
      cases hitem : rangeEnd w item with
      | none =>
          rw [List.filterMap_cons_none hitem]
          exact ih
      | some idx =>
          rw [List.filterMap_cons_some hitem, List.max?_cons']
          exact foldl_takeRange items idx

def endText (item : List Char) : List Char :=
  match splitOnce '-' item with
  | some (_, stop) => stop
  | none => item

theorem rangeEnd_eq (item : List Char) :
    rangeEnd w item = parseUnsigned w.usizeMax (endText (trim item)) := by
  rw [rangeEnd, endText]
  cases splitOnce '-' (trim item) <;> rfl

theorem endText_printRange (range : ℕ × ℕ) : endText (printRange range) = digits range.2 := by
  rw [endText, printRange]
  split_ifs with heq
  · rw [splitOnce_eq_none (not_mem_digits rfl _), heq]
  · rw [splitOnce_append (not_mem_digits rfl _)]

theorem rangeEnd_printRange {range : ℕ × ℕ} (h : range.2 ≤ w.usizeMax) :
    rangeEnd w (printRange range) = some range.2 := by
  rw [rangeEnd_eq, trim_eq_self fun c hc => isWhitespace_of_mem_printRange hc, endText_printRange]
  exact parseUnsigned_digits h

/-- The newline behind a list of items does not show, and each item is read by itself. -/
theorem maxNode_intercalate {items : List (List Char)} (hcomma : ∀ item ∈ items, ',' ∉ item)
    (hne : items ≠ []) :
    maxNode w ([','].intercalate items ++ ['\n']) = (items.filterMap (rangeEnd w)).max? := by
  have htrim (l : List (List Char)) : l.filterMap (rangeEnd w) =
      (l.map trim).filterMap fun item => parseUnsigned w.usizeMax (endText item) := by
    rw [List.filterMap_map]
    exact List.filterMap_congr fun item _ => rangeEnd_eq item
  have hnewline : ∀ c ∈ ['\n'], isWhitespace c = true := by
    intro c hc
    rw [List.mem_singleton.mp hc]
    rfl
  rw [maxNode_eq_max, htrim, map_trim_splitOn_trim rfl, map_trim_splitOn_extend rfl hnewline,
    List.splitOn_intercalate ',' hcomma hne, ← htrim]

/-- A printed list of ranges is read back as the greatest of their ends. -/
theorem maxNode_printRanges {ranges : List (ℕ × ℕ)} (hne : ranges ≠ [])
    (hmax : ∀ r ∈ ranges, r.2 ≤ w.usizeMax) :
    maxNode w (printRanges ranges ++ ['\n']) = (ranges.map Prod.snd).max? := by
  have hcomma : ∀ item ∈ ranges.map printRange, ',' ∉ item := by
    intro item hitem
    obtain ⟨r, _, rfl⟩ := List.mem_map.mp hitem
    exact comma_not_mem_printRange r
  have hends : (ranges.map printRange).filterMap (rangeEnd w) = ranges.map Prod.snd := by
    rw [List.filterMap_map, ← List.filterMap_eq_map]
    exact List.filterMap_congr fun r hr => rangeEnd_printRange (hmax r hr)
  rw [printRanges, maxNode_intercalate hcomma (fun hnil => hne (List.map_eq_nil_iff.mp hnil)), hends]

/-! ### The directory -/

def nodeName (k : ℕ) : List Char := ['n', 'o', 'd', 'e'] ++ digits k

theorem isNodeEntry_nodeName (k : ℕ) : isNodeEntry (nodeName k) = true := by
  rw [isNodeEntry, nodeName, Bool.and_eq_true]
  constructor
  · rfl
  · change (digits k).all Char.isDigit = true
    rw [List.all_eq_true]
    exact fun c hc => isDigit_of_mem_digits hc

/-- The entries that are no node directory but pass for one in the count. -/
def lookalikes (extras : List (List Char)) : ℕ := extras.countP isNodeEntry

theorem countP_listing {s : Finset ℕ} {listing extras : List (List Char)}
    (hlisting : listing.Perm (s.sort.map nodeName ++ extras)) :
    listing.countP isNodeEntry = s.card + lookalikes extras := by
  rw [hlisting.countP_eq, List.countP_append, List.countP_map, lookalikes, Nat.add_right_cancel_iff,
    ← s.length_sort (· ≤ ·), List.countP_eq_length]
  exact fun k _ => isNodeEntry_nodeName k

def onlineEnv (content : List Char) (listing : Option (List (List Char))) : NumaEnv :=
  ⟨fun _ => none, some content, listing⟩

def listingEnv (listing : List (List Char)) : NumaEnv := ⟨fun _ => none, none, some listing⟩

theorem sysfsNodeCount_online {s : Finset ℕ} (hs : s.Nonempty) (hmax : ∀ k ∈ s, k < w.usizeMax)
    (listing : Option (List (List Char))) :
    sysfsNodeCount w (onlineEnv (printSet s) listing) = some (s.max' hs + 1) := by
  have hne : s.sort ≠ [] := by
    intro hnil
    obtain ⟨k, hk⟩ := hs
    rw [← Finset.mem_sort (· ≤ ·), hnil] at hk
    exact absurd hk List.not_mem_nil
  have hends : ∀ r ∈ runs s.sort, r.2 ≤ w.usizeMax :=
    fun r hr => (hmax _ ((Finset.mem_sort _).mp ((runs_spec s.sort).1 r hr).2)).le
  have hnode : maxNode w (printSet s) = some (s.max' hs) := by
    rw [printSet, maxNode_printRanges (runs_ne_nil hne) hends, max?_runs s hs]
  have hlt := hmax _ (s.max'_mem hs)
  rw [sysfsNodeCount, onlineEnv, Option.bind_some, hnode]
  exact congrArg some (min_eq_left hlt)

theorem sysfsNodeCount_listing {s : Finset ℕ} (hs : s.Nonempty) {listing extras : List (List Char)}
    (hlisting : listing.Perm (s.sort.map nodeName ++ extras)) :
    sysfsNodeCount w (listingEnv listing) = some (s.card + lookalikes extras) := by
  have hpos : 0 < s.card + lookalikes extras := Nat.add_pos_left (Finset.card_pos.mpr hs) _
  rw [sysfsNodeCount, listingEnv, Option.bind_none, Option.bind_some, countNodeEntries,
    countP_listing hlisting]
  exact if_pos hpos

theorem validateNode_of_sysfs {env : NumaEnv} (hlib : env.library = fun _ => none) {count : ℕ}
    (hcount : sysfsNodeCount w env = some count) {node : UInt32} (hnode : node.toNat < count) :
    validateNode w env node = .ok () := by
  have hload : tryLoad env = .ok none := by
    simp only [tryLoad, tryCandidates, loadFromName, hlib]
  have hall : nodeCount w env = max count 1 := by
    simp only [nodeCount, hload, sysfsOrOne, hcount]
  rw [validateNode, hall]
  exact if_pos (lt_max_of_lt_left hnode)

/-- What the two sources should give for the set `s` of nodes: the same count, under which every node
of the set is accepted. -/
def SourcesAgree (w : Width) (s : Finset ℕ) (hs : s.Nonempty) (listing : List (List Char)) : Prop :=
  ∀ env ∈ [onlineEnv (printSet s) none, onlineEnv (printSet s) (some listing), listingEnv listing],
    sysfsNodeCount w env = some (s.max' hs + 1) ∧
      ∀ node : UInt32, node.toNat ∈ s → validateNode w env node = .ok ()

/-- For every set of nodes and every directory that lists them, the sources agree exactly if the nodes,
with the entries that pass for nodes, are as many as their numbering suggests. -/
theorem sourcesAgree_iff (w : Width) (s : Finset ℕ) (hs : s.Nonempty)
    (hmax : ∀ k ∈ s, k < w.usizeMax) {listing extras : List (List Char)}
    (hlisting : listing.Perm (s.sort.map nodeName ++ extras)) :
    SourcesAgree w s hs listing ↔ s.card + lookalikes extras = s.max' hs + 1 := by
  have hdir := sysfsNodeCount_listing (w := w) hs hlisting
  constructor
  · intro hagree
    have hcount := (hagree (listingEnv listing) (by simp)).1
    rw [hdir] at hcount
    exact Option.some.inj hcount
  · intro hcard env henv
    have hcount : env.library = (fun _ => none) ∧ sysfsNodeCount w env = some (s.max' hs + 1) := by
      simp only [List.mem_cons, List.not_mem_nil, or_false] at henv
      rcases henv with rfl | rfl | rfl
      · exact ⟨rfl, sysfsNodeCount_online hs hmax none⟩
      · exact ⟨rfl, sysfsNodeCount_online hs hmax (some listing)⟩
      · exact ⟨rfl, by rw [hdir, hcard]⟩
    refine ⟨hcount.2, fun node hnode => validateNode_of_sysfs hcount.1 hcount.2 ?_⟩
    exact Nat.lt_succ_of_le (s.le_max' _ hnode)

/-- Two nodes without a gap, and a file of the directory that is no node. -/
theorem sourcesAgree_iff_dense :
    SourcesAgree .w64 {0, 1} (by decide) (({0, 1} : Finset ℕ).sort.map nodeName ++ [['c', 'p', 'u']]) :=
  (sourcesAgree_iff .w64 {0, 1} (by decide) (by decide) (.refl _)).mpr (by decide)

/-- Nodes 0 and 8, as on a POWER machine: the file gives 9 and the directory 2. -/
theorem not_sourcesAgree :
    ¬ ∀ (w : Width) (s : Finset ℕ) (hs : s.Nonempty) (listing extras : List (List Char)),
      (∀ k ∈ s, k < w.usizeMax) → (∀ e ∈ extras, ∀ k, e ≠ nodeName k) →
      listing.Perm (s.sort.map nodeName ++ extras) → SourcesAgree w s hs listing := by
  intro hclaim
  have hagree := hclaim .w64 {0, 8} (by decide) (({0, 8} : Finset ℕ).sort.map nodeName) []
    (by decide) (by simp) (by rw [List.append_nil])
  have hcount := (hagree (listingEnv _) (.tail _ (.tail _ (.head _)))).1
  rw [@sysfsNodeCount_listing _ {0, 8} (by decide) _ [] (by rw [List.append_nil])] at hcount
  revert hcount
  decide

end KernelKit.Numa
