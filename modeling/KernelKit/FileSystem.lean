import KernelKit.Syscall
import Mathlib.Tactic.NormNum

/-!
# The file system under the file functions

A `World` is an inode table. Directories map names to inodes, symbolic links carry a target path, and
opening a path resolves it component by component, following at most `maxLinks` links. `FileOp` lists
the calls the crate makes on files and directories and `World.answers` what each may answer; an
error is always possible. No call of the crate changes the file system: what changes it is
another process, given by the interference relation of `fileEnv`.
-/

namespace KernelKit
open Interaction

abbrev Name := List UInt8

abbrev Path := List Name

abbrev Ino := ℕ

def dot : Name := [46]

def dotDot : Name := [46, 46]

def fitBytes (n : ℕ) (bytes : List UInt8) : List UInt8 :=
  bytes.take n ++ List.replicate (n - bytes.length) 0

@[simp] theorem fitBytes_length (n : ℕ) (bytes : List UInt8) : (fitBytes n bytes).length = n := by
  simp only [fitBytes, List.length_append, List.length_take, List.length_replicate]
  omega

theorem fitBytes_self (bytes : List UInt8) : fitBytes bytes.length bytes = bytes := by
  simp [fitBytes]

structure FileData where
  bytes : List UInt8
  fits : bytes.length < 2 ^ 63

def FileData.len (data : FileData) : ℕ := data.bytes.length

def FileData.setLen (data : FileData) (n : ℕ) (h : n < 2 ^ 63) : FileData where
  bytes := fitBytes n data.bytes
  fits := by rwa [fitBytes_length]

@[simp] theorem FileData.setLen_len (data : FileData) {n : ℕ} (h : n < 2 ^ 63) :
    (data.setLen n h).len = n := fitBytes_length n data.bytes

inductive FileType
  | file
  | dir
  | symlink
  | special
  deriving DecidableEq, Repr

/-- What an inode holds. `special` stands for pipes, sockets and devices. -/
inductive Node
  | file (data : FileData)
  | dir (parent : Ino) (entries : List (Name × Ino))
  | symlink (absolute : Bool) (target : Path)
  | special

def Node.fileType : Node → FileType
  | .file _ => .file
  | .dir _ _ => .dir
  | .symlink _ _ => .symlink
  | .special => .special

structure World where
  root : Ino
  dev : Ino → ℕ
  node : Ino → Option Node

namespace World

variable (w : World)

def setNode (i : Ino) (n : Node) : World :=
  { w with node := fun j => if j = i then some n else w.node j }

@[simp] theorem setNode_node (i j : Ino) (n : Node) :
    (w.setNode i n).node j = if j = i then some n else w.node j := rfl

def entries (i : Ino) : List (Name × Ino) :=
  match w.node i with
  | some (.dir _ es) => es
  | _ => []

def lookup (i : Ino) (name : Name) : Option Ino :=
  match w.node i with
  | some (.dir parent es) =>
    if name = dot then some i else if name = dotDot then some parent else es.lookup name
  | _ => none

/-- Resolve a path from `i`, leaving what to do at a symbolic link to `follow`. -/
def walkWith (follow : Ino → Path → Option Ino) : Ino → Path → Option Ino
  | i, [] => some i
  | i, name :: rest =>
    match w.lookup i name with
    | none => none
    | some j =>
      match w.node j with
      | some (.symlink absolute target) => follow (if absolute then w.root else i) (target ++ rest)
      | _ => walkWith follow j rest

def walk : ℕ → Ino → Path → Option Ino
  | 0 => w.walkWith fun _ _ => none
  | links + 1 => w.walkWith (walk links)

def maxLinks : ℕ := 40

/-- What `open` and `opendir` resolve a path to. -/
def resolve (path : Path) : Option Ino := w.walk maxLinks w.root path

/-- The length of an inode that can be mapped: Linux reports 0 for pipes, sockets and devices. -/
def sizeOf (i : Ino) : Option ℕ :=
  match w.node i with
  | some (.file data) => some data.len
  | some .special => some 0
  | _ => none

/-- The lengths `fstat` may report for an open inode. -/
def LenOf (i : Ino) (n : ℕ) : Prop :=
  match w.sizeOf i with
  | some size => n = size
  | none => n < 2 ^ 63

variable {w}

theorem LenOf.lt {i : Ino} {n : ℕ} (h : w.LenOf i n) : n < 2 ^ 63 := by
  unfold LenOf at h
  split at h
  · next size hsize =>
      subst h
      unfold sizeOf at hsize
      split at hsize
      · next data _ =>
          cases hsize
          exact data.fits
      · cases hsize
        decide
      · cases hsize
  · exact h

theorem lenOf_of_file {i : Ino} {data : FileData} (h : w.node i = some (.file data)) :
    w.LenOf i data.len := by
  have hsize : w.sizeOf i = some data.len := by rw [sizeOf, h]
  rw [LenOf, hsize]

theorem LenOf.sizeOf_eq {i : Ino} {n : ℕ} (h : w.LenOf i n) (hsome : (w.sizeOf i).isSome) :
    w.sizeOf i = some n := by
  obtain ⟨size, hsize⟩ := Option.isSome_iff_exists.mp hsome
  rw [LenOf, hsize] at h
  rw [h, hsize]

end World

def singleFile (name : Name) (data : FileData) : World where
  root := 0
  dev := fun _ => 0
  node := fun i => if i = 0 then some (.dir 0 [(name, 1)])
    else if i = 1 then some (.file data) else none

/-! ### Calls -/

structure File where
  ino : Ino
  deriving DecidableEq, Repr

structure Metadata where
  len : ℕ
  dev : ℕ
  ino : ℕ
  deriving DecidableEq, Repr

/-- `memmap2::Mmap`: the mapped slice, with the contents the file had when it was mapped. -/
structure Mmap where
  ino : Ino
  bytes : List UInt8
  deriving DecidableEq, Repr

def Mmap.len (m : Mmap) : ℕ := m.bytes.length

def Mmap.isEmpty (m : Mmap) : Bool := m.bytes.isEmpty

/-- `std::fs::DirEntry`: a name read from a directory and, where the file system told it along with the
name, the type it had then. -/
structure DirEntry where
  dir : Ino
  root : Path
  name : Name
  dType : Option FileType
  deriving DecidableEq, Repr

def DirEntry.path (e : DirEntry) : Path := e.root ++ [e.name]

/-- `std::fs::ReadDir`: an open directory, the path it was opened by, the names read from it, and the
entries read ahead that have not been handed out. -/
structure ReadDir where
  ino : Ino
  root : Path
  seen : List Name
  buffer : List DirEntry
  deriving DecidableEq, Repr

inductive Madv
  | sequential
  | random
  | willNeed
  | hugepage
  deriving DecidableEq, Repr

/-- The calls on files: `fileLen` and `mmap` are the two steps of `memmap2::MmapOptions::map`, `getdents`
reads some entries ahead, and `entryType` asks for a type that was not told with the name. -/
inductive FileOp
  | openFile (path : Path)
  | metadata (file : File)
  | fileLen (file : File)
  | mmap (file : File) (len : ℕ) (populate : Bool)
  | madvise (mmap : Mmap) (advice : Madv)
  | readDir (path : Path)
  | getdents (stream : ReadDir)
  | entryType (entry : DirEntry)
  deriving DecidableEq, Repr

abbrev FileOp.Res : FileOp → Type
  | .openFile _ => File
  | .metadata _ => Metadata
  | .fileLen _ => ℕ
  | .mmap _ _ _ => Mmap
  | .madvise _ _ => Unit
  | .readDir _ => ReadDir
  | .getdents _ => List DirEntry
  | .entryType _ => FileType

abbrev FileProg (α : Type) := SysProg FileOp.Res α

abbrev FileCall := Call World FileOp (Answer FileOp.Res)

def World.ReadsEntry (w : World) (stream : ReadDir) (e : DirEntry) : Prop :=
  e.dir = stream.ino ∧ e.root = stream.root ∧ e.name ≠ dot ∧ e.name ≠ dotDot ∧
    ∃ i, (w.entries stream.ino).lookup e.name = some i ∧
      ∀ t, e.dType = some t → ∃ n, w.node i = some n ∧ t = n.fileType

/-- What a successful call may return in `w`. A read of a directory may find any entries it has, and it
may also find none: where a directory changes while it is open, entries are missed and repeated. -/
def World.answers (w : World) : (op : FileOp) → op.Res → Prop
  | .openFile path, file => w.resolve path = some file.ino ∧ (w.node file.ino).isSome
  | .metadata file, md => md.dev = w.dev file.ino ∧ md.ino = file.ino ∧ w.LenOf file.ino md.len
  | .fileLen file, len => w.LenOf file.ino len
  | .mmap file len _, m =>
    m.ino = file.ino ∧ m.len = len ∧ (w.sizeOf file.ino).isSome ∧
      ∀ data, w.node file.ino = some (.file data) → m.bytes = fitBytes len data.bytes
  | .madvise _ _, _ => True
  | .readDir path, stream =>
    w.resolve path = some stream.ino ∧ stream.root = path ∧ stream.seen = [] ∧ stream.buffer = [] ∧
      ∃ parent es, w.node stream.ino = some (.dir parent es)
  | .getdents stream, found => ∀ e ∈ found, w.ReadsEntry stream e
  | .entryType entry, t =>
    ∃ i n, (w.entries entry.dir).lookup entry.name = some i ∧ w.node i = some n ∧ t = n.fileType

/-- What holds besides of a directory that does not change while it is read: every entry is found once,
and the reads end when there is none left. -/
def World.enumerates (w : World) : (op : FileOp) → op.Res → Prop
  | .getdents stream, found =>
    (found.map DirEntry.name).Nodup ∧ (∀ e ∈ found, e.name ∉ stream.seen) ∧
      (found = [] → ∀ e ∈ w.entries stream.ino, e.1 ∈ stream.seen)
  | _, _ => True

/-- The file system with another process that changes it by `interfere` steps. -/
def fileEnv (interfere : World → World → Prop) : Env World FileOp (Answer FileOp.Res) where
  serve op w answer w' := w' = w ∧ ∀ value, answer = .ok value → w.answers op value
  interfere := interfere

theorem World.answers_mmap {w : World} {file : File} {data : FileData} {populate : Bool}
    (h : w.node file.ino = some (.file data)) :
    w.answers (.mmap file data.len populate) ⟨file.ino, data.bytes⟩ := by
  refine ⟨rfl, rfl, ?_, fun data' hdata => ?_⟩
  · rw [sizeOf, h]
    rfl
  · cases h.symm.trans hdata
    exact (fitBytes_self data.bytes).symm

theorem serve_ok {interfere : World → World → Prop} {w : World} (op : FileOp) (value : op.Res)
    (h : w.answers op value) : (fileEnv interfere).serve op w (.ok value) w :=
  ⟨rfl, by rintro _ ⟨⟩; exact h⟩

inductive Resizes : World → World → Prop
  | setLen {w : World} (i : Ino) (data : FileData) (n : ℕ) (h : n < 2 ^ 63) :
      w.node i = some (.file data) → Resizes w (w.setNode i (.file (data.setLen n h)))

def World.resize (w : World) (i : Ino) (data : FileData) (n : ℕ) (h : n < 2 ^ 63) : World :=
  w.setNode i (.file (data.setLen n h))

theorem World.resize_node (w : World) (i : Ino) (data : FileData) {n : ℕ} (h : n < 2 ^ 63) :
    (w.resize i data n h).node i = some (.file (data.setLen n h)) := if_pos rfl

theorem Resizes.resize {w : World} {i : Ino} {data : FileData} {n : ℕ}
    (hn : w.node i = some (.file data)) (h : n < 2 ^ 63) : Resizes w (w.resize i data n h) :=
  .setLen i data n h hn

theorem Resizes.isSome_sizeOf {w w' : World} (h : Resizes w w') (i : Ino) :
    (w'.sizeOf i).isSome = (w.sizeOf i).isSome := by
  obtain ⟨j, data, n, hn, hj⟩ := h
  unfold World.sizeOf
  simp only [World.setNode_node]
  split_ifs with hij
  · subst hij
    rw [hj]
    rfl
  · rfl

theorem Resizes.many_isSome_sizeOf {w w' : World} (h : Relation.ReflTransGen Resizes w w') (i : Ino) :
    (w'.sizeOf i).isSome = (w.sizeOf i).isSome := by
  induction h with
  | refl => rfl
  | tail _ hstep ih => rw [hstep.isSome_sizeOf, ih]

theorem Resizes.dev_eq {w w' : World} (h : Resizes w w') : w'.dev = w.dev := by
  cases h
  rfl

theorem Resizes.many_dev_eq {w w' : World} (h : Relation.ReflTransGen Resizes w w') :
    w'.dev = w.dev := by
  induction h with
  | refl => rfl
  | tail _ hstep ih => rw [hstep.dev_eq, ih]

end KernelKit
