import KernelKit.FileIdentity

/-!
# Opening one file as a read-only mapping

`openWithAdvice`, `openRead` and `openReadWithSize` follow `mmap.rs` call by call. Between any two
calls another process may truncate or extend the file, so each of the three looks at the length,
the first stat, memmap2's own query and the re-stat, may see a different one. `openWithAdvice`
compares all three. `openReadWithSize` compares only the stats with the expected size.
-/

namespace KernelKit
open Interaction Relation

inductive MmapAdvice
  | sequential
  | random
  | willNeed
  deriving DecidableEq, Repr

def MmapAdvice.flag : MmapAdvice → Madv
  | .sequential => .sequential
  | .random => .random
  | .willNeed => .willNeed

def MmapAdvice.operation : MmapAdvice → String
  | .sequential => "madvise(SEQUENTIAL)"
  | .random => "madvise(RANDOM)"
  | .willNeed => "madvise(WILLNEED)"

/-- What memmap2 refuses a length with that a slice cannot have. -/
def mmapLengthOverflow : Error :=
  .system "mmap" (.custom .invalidData "memory map length overflows isize")

/-- `memmap2::MmapOptions::map` without a length: the length is the file's at a query of its own. -/
def mmapMap (width : Width) (file : File) (populate : Bool) : FileProg Mmap := do
  let len ← sys "mmap" (FileOp.fileLen file)
  if len > width.isizeMax then
    throw mmapLengthOverflow
  else
    sys "mmap" (FileOp.mmap file len populate)

def adviseMapping (mmap : Mmap) (operation : String) (flag : Madv) : FileProg Unit :=
  if ¬ mmap.isEmpty then do
    sys operation (FileOp.madvise mmap flag)
    let _ ← Prog.call (FileOp.madvise mmap .hugepage)
    pure ()
  else
    pure ()

def changedDuringOpen : String := "mapped file changed during open"

def openWithAdvice (width : Width) (path : Path) (advice : MmapAdvice) : FileProg Mmap := do
  let file ← sys "open" (FileOp.openFile path)
  let metadata ← sys "metadata" (FileOp.metadata file)
  let expectedIdentity := FileIdentity.fromMetadata metadata
  let mmap ← mmapMap width file false
  if ¬ mmap.len < 2 ^ 64 then
    throw (.system "open_with_advice"
      (.custom .other "mapped region length does not fit in u64"))
  else do
    validateFileIdentity file expectedIdentity mmap.len changedDuringOpen
    adviseMapping mmap advice.operation advice.flag
    pure mmap

def openRead (width : Width) (path : Path) : FileProg Mmap := openWithAdvice width path .sequential

def openReadWithSize (width : Width) (path : Path) (expectedSize : ℕ) : FileProg Mmap := do
  let file ← sys "open" (FileOp.openFile path)
  let metadata ← sys "metadata" (FileOp.metadata file)
  let expectedIdentity := FileIdentity.fromMetadata metadata
  if metadata.len ≠ expectedSize then
    throw (.system "open_read_with_size" (.custom .invalidData
      s!"file size mismatch: expected {expectedSize} bytes, found {metadata.len} bytes"))
  else do
    let mmap ← mmapMap width file false
    validateFileIdentity file expectedIdentity expectedSize changedDuringOpen
    adviseMapping mmap "madvise(SEQUENTIAL)" .sequential
    pure mmap

/-! ### What a schedule shows the calls -/

def observedLength (c : FileCall) : Option ℕ :=
  match c with
  | ⟨_, .metadata _, .ok md⟩ => some md.len
  | ⟨_, .fileLen _, .ok len⟩ => some len
  | _ => none

def observedLengths (tr : List FileCall) : List ℕ := tr.filterMap observedLength

def FileOp.lengthLook : FileOp → Option File
  | .metadata file | .fileLen file => some file
  | _ => none

/-- The lengths the file had, at each look at them, when it was looked at. -/
def lengthsHad (tr : List FileCall) : List (Option ℕ) :=
  tr.filterMap fun c => c.op.lengthLook.map fun file => c.state.sizeOf file.ino

def IsHint (c : FileCall) : Prop := ∃ m, c.op = .madvise m .hugepage

/-- All calls succeed, the ignored hint aside. -/
def OnlyHintFails (tr : List FileCall) : Prop := ∀ c ∈ tr, IsHint c ∨ Succeeded c

theorem OnlyHintFails.of_all {tr : List FileCall} (h : ∀ c ∈ tr, Succeeded c) : OnlyHintFails tr :=
  fun c hc => Or.inr (h c hc)

@[simp] theorem onlyHintFails_nil : OnlyHintFails [] := by simp [OnlyHintFails]

@[simp] theorem onlyHintFails_cons {c : FileCall} {tr : List FileCall} :
    OnlyHintFails (c :: tr) ↔ (IsHint c ∨ Succeeded c) ∧ OnlyHintFails tr := by
  simp [OnlyHintFails]

@[simp] theorem onlyHintFails_append {tr tr' : List FileCall} :
    OnlyHintFails (tr ++ tr') ↔ OnlyHintFails tr ∧ OnlyHintFails tr' := by
  simp only [OnlyHintFails, List.mem_append]
  exact ⟨fun h => ⟨fun c hc => h c (.inl hc), fun c hc => h c (.inr hc)⟩,
    fun h c hc => hc.elim (h.1 c) (h.2 c)⟩

@[simp] theorem observedLengths_append {tr tr' : List FileCall} :
    observedLengths (tr ++ tr') = observedLengths tr ++ observedLengths tr' :=
  List.filterMap_append

variable {width : Width} {interfere : World → World → Prop} {w w' : World} {tr : List FileCall}

/-- The crate never changes the file system: over a run only the other process does. -/
theorem runs_interfere {α : Type} {p : FileProg α} {r : Except Exit α}
    (h : (fileEnv interfere).Runs p w tr r w') : ReflTransGen interfere w w' :=
  h.interfered fun _ _ _ _ hserve => hserve.1

theorem runs_mmapMap_of_fits {file : File} {populate : Bool} {n : ℕ} {m : Mmap} {w₁ : World}
    (hbefore : ReflTransGen interfere w w₁) (hquery : w₁.LenOf file.ino n) (hfits : n ≤ width.isizeMax)
    (hbetween : ReflTransGen interfere w₁ w') (hmap : w'.answers (.mmap file n populate) m) :
    (fileEnv interfere).Runs (mmapMap width file populate) w
      [⟨w₁, .fileLen file, .ok n⟩, ⟨w', .mmap file n populate, .ok m⟩] (.ok m) w' := by
  refine .ask hbefore (serve_ok (.fileLen file) n hquery) ?_
  dsimp only [Prog.ret_bind]
  rw [if_neg (Nat.not_lt.mpr hfits)]
  exact .ask hbetween (serve_ok (.mmap file n populate) m hmap) (.ret m w')

/-- A file that is resized just before the query is mapped with its new length. -/
theorem runs_mmapMap_resized {i : Ino} {data : FileData} {n : ℕ} (populate : Bool)
    (hn : w.node i = some (.file data)) (hlt : n < 2 ^ 63) (hfits : n ≤ width.isizeMax) :
    (fileEnv Resizes).Runs (mmapMap width ⟨i⟩ populate) w
      [⟨w.resize i data n hlt, .fileLen ⟨i⟩, .ok n⟩,
        ⟨w.resize i data n hlt, .mmap ⟨i⟩ n populate, .ok ⟨i, (data.setLen n hlt).bytes⟩⟩]
      (.ok ⟨i, (data.setLen n hlt).bytes⟩) (w.resize i data n hlt) := by
  have hlen := World.lenOf_of_file (w.resize_node i data hlt)
  have hmapped : (w.resize i data n hlt).answers (.mmap ⟨i⟩ (data.setLen n hlt).len populate)
      ⟨i, (data.setLen n hlt).bytes⟩ := World.answers_mmap (w.resize_node i data hlt)
  rw [FileData.setLen_len] at hlen hmapped
  exact runs_mmapMap_of_fits (.single (.resize hn hlt)) hlen hfits .refl hmapped

theorem serve_resized {i : Ino} {data : FileData} {n : ℕ} (hlt : n < 2 ^ 63) :
    (fileEnv Resizes).serve (.metadata ⟨i⟩) (w.resize i data n hlt) (.ok ⟨n, w.dev i, i⟩)
      (w.resize i data n hlt) := by
  have hlen := World.lenOf_of_file (w.resize_node i data hlt)
  rw [FileData.setLen_len] at hlen
  exact serve_ok (.metadata ⟨i⟩) _ ⟨rfl, rfl, hlen⟩

theorem runs_validate_resized {i : Ino} {data : FileData} {n expectedLen : ℕ} {expected : FileIdentity}
    {msg : String} (hn : w.node i = some (.file data)) (hlt : n < 2 ^ 63)
    (hconf : expected.Confirmed expectedLen ⟨n, w.dev i, i⟩) :
    (fileEnv Resizes).Runs (validateFileIdentity ⟨i⟩ expected expectedLen msg) w
      [⟨w.resize i data n hlt, .metadata ⟨i⟩, .ok ⟨n, w.dev i, i⟩⟩] (.ok ()) (w.resize i data n hlt) := by
  refine .ask (.single (.resize hn hlt)) (serve_resized hlt) ?_
  dsimp only [Prog.ret_bind]
  rw [if_neg fun hchanged => not_confirmed_iff.mpr hchanged hconf]
  exact .ret () _

theorem exists_validate_resized {i : Ino} {data : FileData} {n : ℕ} (expected : FileIdentity)
    (expectedLen : ℕ) (msg : String) (hn : w.node i = some (.file data)) (hlt : n < 2 ^ 63) :
    ∃ r, (fileEnv Resizes).Runs (validateFileIdentity ⟨i⟩ expected expectedLen msg) w
      [⟨w.resize i data n hlt, .metadata ⟨i⟩, .ok ⟨n, w.dev i, i⟩⟩] r (w.resize i data n hlt) := by
  by_cases hconf : expected.Confirmed expectedLen ⟨n, w.dev i, i⟩
  · exact ⟨_, runs_validate_resized hn hlt hconf⟩
  · refine ⟨.error (.err (.system "mmap(revalidate)" (.custom .invalidData msg))),
      .ask (.single (.resize hn hlt)) (serve_resized hlt) ?_⟩
    dsimp only [Prog.ret_bind]
    rw [if_pos (not_confirmed_iff.mp hconf)]
    exact .fail _ _

theorem runs_mmapMap_ok {file : File} {populate : Bool} {m : Mmap}
    (h : (fileEnv interfere).Runs (mmapMap width file populate) w tr (.ok m) w') :
    ∃ w₁, ReflTransGen interfere w w₁ ∧ w₁.LenOf file.ino m.len ∧ ReflTransGen interfere w₁ w' ∧
      w'.answers (.mmap file m.len populate) m ∧
      tr = [⟨w₁, .fileLen file, .ok m.len⟩, ⟨w', .mmap file m.len populate, .ok m⟩] := by
  obtain ⟨w₁, w₂, hrely, ⟨source, _, _, ⟨⟩, _⟩ | ⟨n, tr', ⟨rfl, hn⟩, rfl, hk⟩⟩ :=
    runs_sys_bind_iff.mp h
  split_ifs at hk
  · obtain ⟨_, ⟨⟩, _⟩ := runs_throw_iff.mp hk
  obtain ⟨w₃, hrely', ⟨source, _, _, ⟨⟩⟩ | ⟨m', ⟨rfl, hm⟩, rfl, hm'⟩⟩ := runs_sys_iff.mp hk
  cases hm'
  have hmn : n = m.len := ((hm m rfl).2.1).symm
  subst hmn
  exact ⟨w₂, hrely, hn _ rfl, hrely', hm m rfl, rfl⟩

theorem runs_sys_bind_of_onlyHintFails {E : Env World FileOp (Answer FileOp.Res)} {α : Type}
    {operation : String} {op : FileOp} {f : op.Res → FileProg α} {r : Except Exit α}
    (hop : ∀ m, op ≠ .madvise m .hugepage)
    (h : E.Runs ((sys operation op).bind f) w tr r w') (hok : OnlyHintFails tr) :
    ∃ w₁ w₂ value tr', ReflTransGen E.interfere w w₁ ∧ E.serve op w₁ (.ok value) w₂ ∧
      E.Runs (f value) w₂ tr' r w' ∧ OnlyHintFails tr' ∧ tr = ⟨w₁, op, .ok value⟩ :: tr' := by
  obtain ⟨w₁, w₂, hrely, ⟨source, _, rfl, _, _⟩ | ⟨value, tr', hserve, rfl, hrest⟩⟩ :=
    runs_sys_bind_iff.mp h
  · obtain ⟨m, hm⟩ | ⟨_, ⟨⟩⟩ := (onlyHintFails_cons.mp hok).1
    exact absurd hm (hop m)
  · exact ⟨w₁, w₂, value, tr', hrely, hserve, hrest, (onlyHintFails_cons.mp hok).2, rfl⟩

structure Mapped (interfere : World → World → Prop) (file : File) (populate : Bool) (m : Mmap)
    (md : Metadata) (w w₁ w₂ w₃ : World) : Prop where
  before : ReflTransGen interfere w w₁
  queried : w₁.LenOf file.ino m.len
  between : ReflTransGen interfere w₁ w₂
  mapped : w₂.answers (.mmap file m.len populate) m
  after : ReflTransGen interfere w₂ w₃
  restat : w₃.answers (.metadata file) md

def Mapped.calls (file : File) (populate : Bool) (m : Mmap) (md : Metadata) (w₁ w₂ w₃ : World) :
    List FileCall :=
  [⟨w₁, .fileLen file, .ok m.len⟩, ⟨w₂, .mmap file m.len populate, .ok m⟩,
    ⟨w₃, .metadata file, .ok md⟩]

theorem runs_map_validate_ok {α : Type} {file : File} {populate : Bool} {expected : FileIdentity}
    {expectedLen : ℕ} {msg : String} {rest : Mmap → FileProg α} {a : α}
    (h : (fileEnv interfere).Runs (do
      let m ← mmapMap width file populate
      validateFileIdentity file expected expectedLen msg
      rest m) w tr (.ok a) w') :
    ∃ m md w₁ w₂ w₃ tr', Mapped interfere file populate m md w w₁ w₂ w₃ ∧
      expected.Confirmed expectedLen md ∧ (fileEnv interfere).Runs (rest m) w₃ tr' (.ok a) w' ∧
      tr = Mapped.calls file populate m md w₁ w₂ w₃ ++ tr' := by
  obtain ⟨m, w₂, tm, tr₁, hmap, h₁, rfl⟩ := Env.runs_bind_ok_iff.mp h
  obtain ⟨w₁, hbefore, hquery, hbetween, hm, rfl⟩ := runs_mmapMap_ok hmap
  obtain ⟨_, w₃, tv, tr₂, hval, h₂, rfl⟩ := Env.runs_bind_ok_iff.mp h₁
  obtain ⟨w₄, answer, hafter, hserve, rfl, ⟨_, ⟨⟩, _⟩ | ⟨_, md, rfl, hconf⟩⟩ := runs_validate hval
  obtain ⟨rfl, hmd⟩ := hserve
  exact ⟨m, md, w₁, w₂, _, tr₂, ⟨hbefore, hquery, hbetween, hm, hafter, hmd md rfl⟩, hconf, h₂, rfl⟩

/-- A writer that only resizes cannot hide a length from the calls that look at it. -/
theorem Mapped.sizes {file : File} {populate : Bool} {m : Mmap} {md : Metadata} {w₁ w₂ w₃ : World}
    (h : Mapped Resizes file populate m md w w₁ w₂ w₃) :
    (w.sizeOf file.ino).isSome ∧ w₁.sizeOf file.ino = some m.len ∧
      w₃.sizeOf file.ino = some md.len := by
  have hsome : (w₁.sizeOf file.ino).isSome := by
    rw [← Resizes.many_isSome_sizeOf h.between]
    exact h.mapped.2.2.1
  refine ⟨?_, h.queried.sizeOf_eq hsome, h.restat.2.2.sizeOf_eq ?_⟩
  · rwa [← Resizes.many_isSome_sizeOf h.before]
  · rwa [Resizes.many_isSome_sizeOf h.after, Resizes.many_isSome_sizeOf h.between]

/-- A mapping fails with a call, is refused for the length the query saw, or has that length. -/
theorem runs_mmapMap {file : File} {populate : Bool} {r : Except Exit Mmap}
    (h : (fileEnv interfere).Runs (mmapMap width file populate) w tr r w') :
    (∃ e, r = .error (.err e) ∧ (¬ OnlyHintFails tr ∨
        ∃ n, n < 2 ^ 63 ∧ width.isizeMax < n ∧ observedLengths tr = [n])) ∨
      ∃ m, r = .ok m ∧ OnlyHintFails tr ∧ observedLengths tr = [m.len] ∧ m.len < 2 ^ 63 := by
  obtain ⟨w₁, w₂, _, ⟨source, _, rfl, rfl, rfl⟩ | ⟨n, tr', hn, rfl, hk⟩⟩ := runs_sys_bind_iff.mp h
  · exact Or.inl ⟨_, rfl, Or.inl (by simp [IsHint, Succeeded])⟩
  have hlt : n < 2 ^ 63 := (hn.2 n rfl).lt
  split_ifs at hk with hlarge
  · obtain ⟨rfl, rfl, _⟩ := runs_throw_iff.mp hk
    exact Or.inl ⟨_, rfl, Or.inr ⟨n, hlt, hlarge, rfl⟩⟩
  obtain ⟨w₃, _, ⟨source, _, rfl, rfl⟩ | ⟨m, hm, rfl, rfl⟩⟩ := runs_sys_iff.mp hk
  · exact Or.inl ⟨_, rfl, Or.inl (by simp [IsHint, Succeeded])⟩
  have hmn : m.len = n := (hm.2 m rfl).2.1
  refine Or.inr ⟨m, rfl, by simp [Succeeded], ?_, ?_⟩
  · simp [observedLengths, observedLength, hmn]
  · rwa [hmn]

theorem runs_openWithAdvice_of_mapped {path : Path} {advice : MmapAdvice} {file : File} {md : Metadata}
    {m : Mmap} {tm : List FileCall} {r : Except Exit Mmap} {w₁ w₂ : World}
    (hopen : w.answers (.openFile path) file) (hbefore : ReflTransGen interfere w w₁)
    (hstat : w₁.answers (.metadata file) md)
    (hmap : (fileEnv interfere).Runs (mmapMap width file false) w₁ tm (.ok m) w₂)
    (hrest : (fileEnv interfere).Runs (do
      validateFileIdentity file (.fromMetadata md) m.len changedDuringOpen
      adviseMapping m advice.operation advice.flag
      pure m) w₂ tr r w') :
    (fileEnv interfere).Runs (openWithAdvice width path advice) w
      (⟨w, .openFile path, .ok file⟩ :: ⟨w₁, .metadata file, .ok md⟩ :: (tm ++ tr)) r w' := by
  refine .ask .refl (serve_ok (.openFile path) file hopen) <|
    .ask hbefore (serve_ok (.metadata file) md hstat) (hmap.bind ?_)
  obtain ⟨_, ⟨⟩, _⟩ | ⟨_, hm, _, _, hlt⟩ := runs_mmapMap hmap
  cases hm
  rwa [if_neg (not_not.mpr (lt_trans hlt (by norm_num)))]

theorem exists_adviseMapping (interfere : World → World → Prop) (w : World) (m : Mmap)
    (operation : String) (flag : Madv) :
    ∃ ta, (fileEnv interfere).Runs (adviseMapping m operation flag) w ta (.ok ()) w ∧
      (∀ c ∈ ta, Succeeded c) ∧ observedLengths ta = [] := by
  unfold adviseMapping
  split_ifs
  · exact ⟨[], .ret () w, List.forall_mem_nil _, rfl⟩
  · refine ⟨_, .ask .refl (serve_ok (.madvise m flag) () trivial) <|
      .ask .refl (serve_ok (.madvise m .hugepage) () trivial) (.ret () w), ?_, rfl⟩
    simp [Succeeded]

theorem exists_openWithAdvice_quiet {path : Path} {i : Ino} {data : FileData} (advice : MmapAdvice)
    (hres : w.resolve path = some i) (hn : w.node i = some (.file data))
    (hfits : data.len ≤ width.isizeMax) :
    ∃ tr, (fileEnv interfere).Runs (openWithAdvice width path advice) w tr (.ok ⟨i, data.bytes⟩) w := by
  have hstat : w.answers (.metadata ⟨i⟩) ⟨data.len, w.dev i, i⟩ := ⟨rfl, rfl, World.lenOf_of_file hn⟩
  have hvalid : (fileEnv interfere).Runs
      (validateFileIdentity ⟨i⟩ ⟨data.len, w.dev i, i⟩ data.len changedDuringOpen) w
      [⟨w, .metadata ⟨i⟩, .ok ⟨data.len, w.dev i, i⟩⟩] (.ok ()) w :=
    runs_validate_of_confirmed (serve_ok (.metadata ⟨i⟩) _ hstat) ⟨rfl, rfl, rfl, rfl⟩
  have hadvise : ∃ ta, (fileEnv interfere).Runs
      (adviseMapping ⟨i, data.bytes⟩ advice.operation advice.flag) w ta (.ok ()) w :=
    (exists_adviseMapping interfere w _ _ _).imp fun _ h => h.1
  obtain ⟨ta, hadvise⟩ := hadvise
  exact ⟨_, runs_openWithAdvice_of_mapped ⟨hres, by rw [hn]; rfl⟩ .refl hstat
    (runs_mmapMap_of_fits .refl (World.lenOf_of_file hn) hfits .refl (World.answers_mmap hn))
    (hvalid.bind (hadvise.bind (.ret _ w)))⟩

theorem runs_adviseMapping {m : Mmap} {operation : String} {flag : Madv} (hflag : flag ≠ .hugepage)
    {r : Except Exit Unit}
    (h : (fileEnv interfere).Runs (adviseMapping m operation flag) w tr r w') :
    observedLengths tr = [] ∧
      ((∃ e, r = .error (.err e) ∧ ¬ OnlyHintFails tr) ∨ r = .ok () ∧ OnlyHintFails tr) := by
  unfold adviseMapping at h
  split_ifs at h
  · obtain ⟨rfl, rfl, rfl⟩ := Env.runs_ret_iff.mp h
    exact ⟨rfl, Or.inr ⟨rfl, onlyHintFails_nil⟩⟩
  · obtain ⟨w₁, w₂, _, ⟨source, _, rfl, rfl, rfl⟩ | ⟨_, tr', _, rfl, hk⟩⟩ := runs_sys_bind_iff.mp h
    · refine ⟨rfl, Or.inl ⟨_, rfl, ?_⟩⟩
      simp [IsHint, Succeeded, hflag]
    · obtain ⟨w₃, x, w₄, tr'', _, _, hr, rfl⟩ := runs_call_bind_iff.mp hk
      obtain ⟨rfl, rfl, rfl⟩ := Env.runs_ret_iff.mp hr
      refine ⟨by simp [observedLengths, observedLength], Or.inr ⟨rfl, ?_⟩⟩
      simp [IsHint, Succeeded]

theorem lengthsHad_adviseMapping {m : Mmap} {operation : String} {flag : Madv} {r : Except Exit Unit}
    (h : (fileEnv interfere).Runs (adviseMapping m operation flag) w tr r w') :
    lengthsHad tr = [] := by
  have honly : (adviseMapping m operation flag).Only fun op => op.lengthLook = none := by
    unfold adviseMapping
    split_ifs
    · trivial
    · refine (sys_only ?_).bind fun _ => ?_
      · rfl
      · exact ⟨rfl, fun _ => trivial⟩
  apply List.filterMap_eq_nil_iff.mpr
  intro c hc
  rw [h.ops_only honly c hc]
  rfl

/-- Validation in the presence of a writer: it succeeds exactly when the re-stat is answered and
shows the mapped length, which is also the one first seen. -/
theorem runs_validate_resizes {file : File} {expected : FileIdentity} {expectedLen : ℕ}
    {msg : String} {r : Except Exit Unit} (hdev : expected.dev = w.dev file.ino)
    (hino : expected.ino = file.ino)
    (h : (fileEnv Resizes).Runs (validateFileIdentity file expected expectedLen msg) w tr r w') :
    (∃ e, r = .error (.err e) ∧ (¬ OnlyHintFails tr ∨
        ∃ n, observedLengths tr = [n] ∧ ¬ (n = expectedLen ∧ expectedLen = expected.len))) ∨
      r = .ok () ∧ OnlyHintFails tr ∧ observedLengths tr = [expectedLen] ∧
        expectedLen = expected.len := by
  obtain ⟨w₁, answer, hrely, hserve, rfl, hr⟩ := runs_validate h
  cases answer with
  | error source =>
      rcases hr with ⟨e, rfl, _⟩ | ⟨_, md, ⟨⟩, _⟩
      exact Or.inl ⟨e, rfl, Or.inl (by simp [IsHint, Succeeded])⟩
  | ok md =>
      obtain ⟨hd, hi, _⟩ := hserve.2 md rfl
      rw [Resizes.many_dev_eq hrely, ← hdev] at hd
      rw [← hino] at hi
      have hobs : observedLengths [⟨w₁, .metadata file, .ok md⟩] = [md.len] := rfl
      have hconf : expected.Confirmed expectedLen md ↔
          md.len = expectedLen ∧ expectedLen = expected.len := by
        simp only [FileIdentity.Confirmed, hd, hi, and_true]
        constructor
        · rintro ⟨h₁, h₂⟩
          exact ⟨h₁, h₁ ▸ h₂⟩
        · rintro ⟨h₁, h₂⟩
          exact ⟨h₁, h₁.trans h₂⟩
      rw [hobs]
      rcases hr with ⟨e, rfl, hn⟩ | ⟨rfl, md', ⟨⟩, hc⟩
      · exact Or.inl ⟨e, rfl, Or.inr ⟨md.len, rfl, fun hagree => hn md rfl (hconf.mpr hagree)⟩⟩
      · obtain ⟨hl, he⟩ := hconf.mp hc
        exact Or.inr ⟨rfl, by simp [Succeeded], by rw [hl], he⟩

end KernelKit
