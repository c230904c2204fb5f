import KernelKit.MmapFile
import Mathlib.Data.List.Lex
import Mathlib.Order.Nat

/-!
# Opening a directory tree as a corpus

`collectFiles` walks a directory and rejects anything but files and directories; `openWithLimits`
sorts the collected paths and maps the files one by one under two size limits. Both follow
`corpus.rs`. The recursion of the walk, which in the source is bounded by nothing but the tree
itself, takes a fuel argument: a walk that uses it up ends with `outOfFuel`, never with a value.
-/

namespace KernelKit
open Interaction

/-- Bytes are ordered as numbers, so names and paths are ordered lexicographically. -/
instance instLinearOrderByte : LinearOrder UInt8 where
  le_refl a := Nat.le_refl a.toNat
  le_trans _ _ _ := Nat.le_trans
  le_antisymm _ _ := UInt8.le_antisymm
  le_total := UInt8.le_total
  lt_iff_le_not_ge a b := by
    rw [UInt8.lt_iff_toNat_lt, UInt8.le_iff_toNat_le, UInt8.le_iff_toNat_le]
    omega
  toDecidableLE := inferInstance
  toDecidableEq := inferInstance
  toDecidableLT := inferInstance
  min_def _ _ := rfl
  max_def _ _ := rfl

structure MmapRegion where
  mmap : Mmap
  path : Path
  size : ℕ
  deriving DecidableEq, Repr

def MmapRegion.asSlice (region : MmapRegion) : List UInt8 := region.mmap.bytes

structure MmapCorpus where
  base : Path
  mappings : List MmapRegion
  deriving DecidableEq, Repr

def MmapCorpus.iter (corpus : MmapCorpus) : List (Path × List UInt8) :=
  corpus.mappings.map fun region => (region.path, region.asSlice)

/-- `ReadDir::next`: the entries read ahead are handed out before the directory is read again. -/
def ReadDir.next (entries : ReadDir) : FileProg (Option (DirEntry × ReadDir)) :=
  match entries.buffer with
  | entry :: buffer => pure (some (entry, { entries with buffer := buffer }))
  | [] => do
    let found ← sys "read_dir" (FileOp.getdents entries)
    match found with
    | [] => pure none
    | entry :: buffer =>
      let seen := entries.seen ++ (entry :: buffer).map DirEntry.name
      pure (some (entry, { entries with seen := seen, buffer := buffer }))

/-- `DirEntry::file_type`: the type told with the name, if one was. -/
def DirEntry.fileType (entry : DirEntry) : FileProg FileType :=
  match entry.dType with
  | some fileType => pure fileType
  | none => sys "file_type" (FileOp.entryType entry)

mutual

def collectFiles : ℕ → Path → List Path → FileProg (List Path)
  | 0, _, _ => .fail .outOfFuel
  | fuel + 1, dir, out => do
    let entries ← sys "read_dir" (FileOp.readDir dir)
    collectEntries fuel entries out

/-- The loop over the entries of one open directory. -/
def collectEntries : ℕ → ReadDir → List Path → FileProg (List Path)
  | 0, _, _ => .fail .outOfFuel
  | fuel + 1, entries, out => do
    let next ← entries.next
    match next with
    | none => pure out
    | some (entry, entries) => do
      let path := entry.path
      let fileType ← entry.fileType
      match fileType with
      | .symlink =>
        throw (.system "collect_files"
          (.custom .invalidInput "symlinks are not permitted in corpus"))
      | .dir => do
        let out ← collectFiles fuel path out
        collectEntries fuel entries out
      | .file => collectEntries fuel entries (out ++ [path])
      | .special =>
        throw (.system "collect_files"
          (.customPath .invalidInput "unsupported file type in corpus: " path))

end

def validateMappingStability (file : File) (expected : FileIdentity) (expectedLen : ℕ) :
    FileProg Unit :=
  validateFileIdentity file expected expectedLen
    "corpus file changed during mapping; Fix: run corpus mapping on immutable input"

def adviseSequential (mmap : Mmap) (path : Path) : FileProg Unit :=
  if mmap.isEmpty then
    pure ()
  else do
    let sequentialResult ← Prog.call (FileOp.madvise mmap .sequential)
    match sequentialResult with
    | .error source => throw (.system "madvise(SEQUENTIAL)" (.atPath source path))
    | .ok () => do
      let _ ← Prog.call (FileOp.madvise mmap .hugepage)
      pure ()

/-- The end of a round, for an open file that keeps the limits. -/
def mapOpened (width : Width) (file : File) (metadata : Metadata) (path : Path) (totalBytes : ℕ) :
    FileProg (ℕ × MmapRegion) := do
  let expectedIdentity := FileIdentity.fromMetadata metadata
  let size := metadata.len
  let mmap ← mmapMap width file true
  validateMappingStability file expectedIdentity size
  adviseSequential mmap path
  pure (totalBytes, ⟨mmap, path, size⟩)

/-- One round of the mapping loop: the new total and the region. -/
def mapFile (width : Width) (maxFileBytes maxTotalBytes : ℕ) (path : Path) (totalBytes : ℕ) :
    FileProg (ℕ × MmapRegion) := do
  let file ← sys "open" (FileOp.openFile path)
  let metadata ← sys "metadata" (FileOp.metadata file)
  let size := metadata.len
  if size > maxFileBytes then
    throw (.system "open_with_limits"
      (.custom .invalidData s!"file size {size} exceeds limit of {maxFileBytes}"))
  else
    let totalBytes := saturatingAdd u64Max totalBytes size
    if totalBytes > maxTotalBytes then
      throw (.system "open_with_limits"
        (.custom .invalidData s!"total corpus size exceeds limit of {maxTotalBytes}"))
    else mapOpened width file metadata path totalBytes

def mapFiles (width : Width) (maxFileBytes maxTotalBytes : ℕ) :
    List Path → ℕ → List MmapRegion → FileProg (List MmapRegion)
  | [], _, mappings => pure mappings
  | path :: filePaths, totalBytes, mappings => do
    let (totalBytes, region) ← mapFile width maxFileBytes maxTotalBytes path totalBytes
    mapFiles width maxFileBytes maxTotalBytes filePaths totalBytes (mappings ++ [region])

/-- `Vec<PathBuf>::sort`: paths are compared component by component. -/
def sortPaths (paths : List Path) : List Path := paths.mergeSort (fun a b => decide (a ≤ b))

def openWithLimits (width : Width) (fuel : ℕ) (dir : Path) (maxFileBytes maxTotalBytes : ℕ) :
    FileProg MmapCorpus := do
  let filePaths ← collectFiles fuel dir []
  let mappings ← mapFiles width maxFileBytes maxTotalBytes (sortPaths filePaths) 0 []
  pure ⟨dir, mappings⟩

def openCorpus (width : Width) (fuel : ℕ) (dir : Path) : FileProg MmapCorpus :=
  openWithLimits width fuel dir (1024 * 1024 * 1024) (10 * 1024 * 1024 * 1024)

/-! ### The calls of the walk and of the mapping loop -/

variable {width : Width} {interfere : World → World → Prop} {w : World}

def IsWalkOp : FileOp → Prop
  | .readDir _ | .getdents _ | .entryType _ => True
  | _ => False

theorem ReadDir.next_only (entries : ReadDir) : entries.next.Only IsWalkOp := by
  unfold next
  cases entries.buffer with
  | nil =>
      refine (sys_only trivial).bind fun found => ?_
      cases found <;> trivial
  | cons entry buffer => trivial

theorem DirEntry.fileType_only (entry : DirEntry) : entry.fileType.Only IsWalkOp := by
  unfold fileType
  cases entry.dType with
  | none => exact sys_only trivial
  | some t => trivial

theorem collect_only (fuel : ℕ) :
    (∀ dir out, (collectFiles fuel dir out).Only IsWalkOp) ∧
      ∀ entries out, (collectEntries fuel entries out).Only IsWalkOp := by
  induction fuel with
  | zero => exact ⟨fun _ _ => trivial, fun _ _ => trivial⟩
  | succ fuel ih =>
      refine ⟨fun dir out => (sys_only trivial).bind fun entries => ih.2 entries out,
        fun entries out => entries.next_only.bind fun next => ?_⟩
      cases next with
      | none => trivial
      | some next =>
          refine next.1.fileType_only.bind fun fileType => ?_
          cases fileType with
          | symlink | special => trivial
          | dir => exact (ih.1 _ _).bind fun out => ih.2 _ out
          | file => exact ih.2 _ _

def FileOp.opened : FileOp → Option Path
  | .openFile path => some path
  | _ => none

theorem adviseSequential_only {P : FileOp → Prop} (hP : ∀ m advice, P (.madvise m advice)) (m : Mmap)
    (path : Path) : (adviseSequential m path).Only P := by
  unfold adviseSequential
  split_ifs
  · trivial
  · refine ⟨hP m _, fun x => ?_⟩
    cases x with
    | error source => trivial
    | ok _ => exact ⟨hP m _, fun _ => trivial⟩

def CoversFileCalls (P : FileOp → Prop) : Prop := ∀ op, op.opened = none → ¬ IsWalkOp op → P op

theorem mapOpened_only {P : FileOp → Prop} (hP : CoversFileCalls P) (file : File) (md : Metadata)
    (path : Path) (total : ℕ) : (mapOpened width file md path total).Only P := by
  have hmap : (mmapMap width file true).Only P := by
    refine (sys_only (hP (.fileLen file) rfl id)).bind fun len => ?_
    split_ifs
    · trivial
    · exact sys_only (hP (.mmap file len true) rfl id)
  refine hmap.bind fun m => Prog.Only.bind ?_ fun _ => ?_
  · refine (sys_only (hP (.metadata file) rfl id)).bind fun md => ?_
    dsimp only
    split_ifs <;> trivial
  · exact (adviseSequential_only (fun m advice => hP (.madvise m advice) rfl id) m path).bind
      fun _ => trivial

theorem mapFiles_only {P : FileOp → Prop} (hP : CoversFileCalls P) {maxFile maxTotal total : ℕ}
    {files : List Path} (hopen : ∀ path ∈ files, P (.openFile path)) (mappings : List MmapRegion) :
    (mapFiles width maxFile maxTotal files total mappings).Only P := by
  induction files generalizing total mappings with
  | nil => trivial
  | cons path files ih =>
      obtain ⟨hpath, hfiles⟩ := List.forall_mem_cons.mp hopen
      refine Prog.Only.bind ?_ fun next => ih hfiles _
      refine (sys_only hpath).bind fun file =>
        (sys_only (hP (.metadata file) rfl id)).bind fun md => ?_
      dsimp only
      split_ifs
      · trivial
      · trivial
      · exact mapOpened_only hP ..

/-! ### Runs in which nobody interferes -/

def quietHints (w : World) (m : Mmap) : List FileCall :=
  if m.isEmpty then [] else [⟨w, .madvise m .sequential, .ok ()⟩, ⟨w, .madvise m .hugepage, .ok ()⟩]

def quietCalls (w : World) (path : Path) (i : Ino) (data : FileData) : List FileCall :=
  [⟨w, .openFile path, .ok ⟨i⟩⟩, ⟨w, .metadata ⟨i⟩, .ok ⟨data.len, w.dev i, i⟩⟩,
    ⟨w, .fileLen ⟨i⟩, .ok data.len⟩, ⟨w, .mmap ⟨i⟩ data.len true, .ok ⟨i, data.bytes⟩⟩,
    ⟨w, .metadata ⟨i⟩, .ok ⟨data.len, w.dev i, i⟩⟩] ++ quietHints w ⟨i, data.bytes⟩

theorem quietCalls_succeeded {path : Path} {i : Ino} {data : FileData} :
    ∀ c ∈ quietCalls w path i data, Succeeded c := by
  unfold quietCalls quietHints
  split_ifs <;> simp [Succeeded]

theorem quietCalls_state {path : Path} {i : Ino} {data : FileData} :
    ∀ c ∈ quietCalls w path i data, c.state = w := by
  unfold quietCalls quietHints
  split_ifs <;> simp

theorem runs_adviseSequential_quiet {m : Mmap} {path : Path} :
    (fileEnv interfere).Runs (adviseSequential m path) w (quietHints w m) (.ok ()) w := by
  unfold adviseSequential quietHints
  split_ifs
  · exact .ret () w
  · exact .ask .refl (serve_ok (.madvise m .sequential) () trivial) <|
      .ask .refl (serve_ok (.madvise m .hugepage) () trivial) (.ret () w)

theorem runs_mapFile_of_mapped {maxFile maxTotal total : ℕ} {path : Path} {file : File} {md : Metadata}
    {m : Mmap} {tm tv ta : List FileCall} {w₁ w₂ w₃ : World}
    (hopen : w.answers (.openFile path) file) (hstat : w.answers (.metadata file) md)
    (hmax : md.len ≤ maxFile) (htotal : saturatingAdd u64Max total md.len ≤ maxTotal)
    (hmap : (fileEnv interfere).Runs (mmapMap width file true) w tm (.ok m) w₁)
    (hvalid : (fileEnv interfere).Runs (validateMappingStability file (.fromMetadata md) md.len) w₁ tv
      (.ok ()) w₂)
    (hadvise : (fileEnv interfere).Runs (adviseSequential m path) w₂ ta (.ok ()) w₃) :
    (fileEnv interfere).Runs (mapFile width maxFile maxTotal path total) w
      (⟨w, .openFile path, .ok file⟩ :: ⟨w, .metadata file, .ok md⟩ :: (tm ++ (tv ++ ta)))
      (.ok (saturatingAdd u64Max total md.len, ⟨m, path, md.len⟩)) w₃ := by
  refine .ask .refl (serve_ok (.openFile path) file hopen) <|
    .ask .refl (serve_ok (.metadata file) md hstat) ?_
  dsimp only [Prog.ret_bind]
  rw [if_neg (Nat.not_lt.mpr hmax), if_neg (Nat.not_lt.mpr htotal), ← List.append_nil ta]
  exact hmap.bind (hvalid.bind (hadvise.bind (.ret _ w₃)))

theorem runs_mapFile_quiet {maxFile maxTotal total : ℕ} {path : Path} {i : Ino} {data : FileData}
    (hres : w.resolve path = some i) (hn : w.node i = some (.file data))
    (hfits : data.len ≤ width.isizeMax) (hmax : data.len ≤ maxFile)
    (htotal : saturatingAdd u64Max total data.len ≤ maxTotal) :
    (fileEnv interfere).Runs (mapFile width maxFile maxTotal path total) w (quietCalls w path i data)
      (.ok (saturatingAdd u64Max total data.len, ⟨⟨i, data.bytes⟩, path, data.len⟩)) w := by
  have hstat : w.answers (.metadata ⟨i⟩) ⟨data.len, w.dev i, i⟩ := ⟨rfl, rfl, World.lenOf_of_file hn⟩
  have hvalid : (fileEnv interfere).Runs
      (validateMappingStability ⟨i⟩ ⟨data.len, w.dev i, i⟩ data.len) w
      [⟨w, .metadata ⟨i⟩, .ok ⟨data.len, w.dev i, i⟩⟩] (.ok ()) w :=
    runs_validate_of_confirmed (serve_ok (.metadata ⟨i⟩) ⟨data.len, w.dev i, i⟩ hstat)
      ⟨rfl, rfl, rfl, rfl⟩
  exact runs_mapFile_of_mapped ⟨hres, by rw [hn]; rfl⟩ hstat hmax htotal
    (runs_mmapMap_of_fits .refl (World.lenOf_of_file hn) hfits .refl (World.answers_mmap hn)) hvalid
      runs_adviseSequential_quiet

def quietWalk (name : Name) (data : FileData) : List FileCall :=
  let w := singleFile name data
  [⟨w, .readDir [], .ok ⟨0, [], [], []⟩⟩, ⟨w, .getdents ⟨0, [], [], []⟩, .ok [⟨0, [], name, some .file⟩]⟩,
    ⟨w, .getdents ⟨0, [], [name], []⟩, .ok []⟩]

theorem runs_collectFiles_quiet {name : Name} (data : FileData) (hdot : name ≠ dot)
    (hdotDot : name ≠ dotDot) :
    (fileEnv interfere).Runs (collectFiles 3 [] []) (singleFile name data) (quietWalk name data)
      (.ok [[name]]) (singleFile name data) := by
  refine .ask .refl (serve_ok (.readDir []) ⟨0, [], [], []⟩ ⟨rfl, rfl, rfl, rfl, 0, _, rfl⟩) <|
    .ask .refl (serve_ok (.getdents ⟨0, [], [], []⟩) [⟨0, [], name, some .file⟩] ?_) <|
    .ask .refl (serve_ok (.getdents ⟨0, [], [name], []⟩) [] (List.forall_mem_nil _)) (.ret _ _)
  refine List.forall_mem_singleton.mpr ⟨rfl, rfl, hdot, hdotDot, 1, List.lookup_cons_self, ?_⟩
  rintro _ ⟨⟩
  exact ⟨.file data, rfl, rfl⟩

theorem sortPaths_singleton (path : Path) : sortPaths [path] = [path] :=
  List.mergeSort_singleton path

theorem runs_mapFiles_quiet {maxFile maxTotal : ℕ} {path : Path} {i : Ino} {data : FileData}
    (hres : w.resolve path = some i) (hn : w.node i = some (.file data))
    (hfits : data.len ≤ width.isizeMax) (hmax : data.len ≤ maxFile)
    (htotal : saturatingAdd u64Max 0 data.len ≤ maxTotal) :
    (fileEnv interfere).Runs (mapFiles width maxFile maxTotal (sortPaths [path]) 0 []) w
      (quietCalls w path i data) (.ok [⟨⟨i, data.bytes⟩, path, data.len⟩]) w := by
  rw [sortPaths_singleton, ← List.append_nil (quietCalls w path i data)]
  exact (runs_mapFile_quiet hres hn hfits hmax htotal).bind (.ret _ w)

/-- A walk that succeeds, and then a mapping of the sorted paths that succeeds. -/
theorem runs_openWithLimits_of_ok {E : Env World FileOp (Answer FileOp.Res)} {fuel maxFile maxTotal : ℕ}
    {dir : Path} {paths : List Path} {mappings : List MmapRegion} {w₁ w₂ : World}
    {tr tr' : List FileCall} (hwalk : E.Runs (collectFiles fuel dir []) w tr (.ok paths) w₁)
    (hmap : E.Runs (mapFiles width maxFile maxTotal (sortPaths paths) 0 []) w₁ tr' (.ok mappings) w₂) :
    E.Runs (openWithLimits width fuel dir maxFile maxTotal) w (tr ++ tr') (.ok ⟨dir, mappings⟩) w₂ := by
  rw [← List.append_nil tr']
  exact hwalk.bind (hmap.bind (.ret _ w₂))

end KernelKit
