import KernelKit.CorpusSizes

/-!
# The mapping loop and the two limits

The loop adds up the sizes of the files with a sum that saturates. Below `u64::MAX` a total limit cannot
tell it from the exact sum: whatever the sizes are, the loop gets past every file that keeps the limits
and that memmap2 maps, with the exact sum as its total, and ends at the first file that is not so.
-/

namespace KernelKit
open Interaction Relation NamedTree

def openedPaths (tr : List FileCall) : List Path := tr.filterMap fun c => c.op.opened

def fileTooLarge (size maxFileBytes : ℕ) : Error :=
  .system "open_with_limits" (.custom .invalidData s!"file size {size} exceeds limit of {maxFileBytes}")

def corpusTooLarge (maxTotalBytes : ℕ) : Error :=
  .system "open_with_limits"
    (.custom .invalidData s!"total corpus size exceeds limit of {maxTotalBytes}")

/-- What `openWithLimits` fails with at a file of size `n`, after files that add up to `total`. -/
def refusal (maxFile maxTotal total n : ℕ) : Error :=
  if maxFile < n then fileTooLarge n maxFile
  else if maxTotal < total + n then corpusTooLarge maxTotal
  else mmapLengthOverflow

def World.sizeAt (size : Ino → UInt64) (w : World) (path : Path) : ℕ :=
  (w.resolve path).elim 0 fun i => (size i).toNat

def WithinLimits (maxFile maxTotal : ℕ) (sizes : List ℕ) : Prop :=
  (∀ n ∈ sizes, n ≤ maxFile) ∧ sizes.sum ≤ maxTotal

/-- Sizes that keep both limits, each of them one a slice can have. -/
def Mappable (width : Width) (maxFile maxTotal : ℕ) (sizes : List ℕ) : Prop :=
  WithinLimits maxFile maxTotal sizes ∧ ∀ n ∈ sizes, n ≤ width.isizeMax

def FitsAfter (width : Width) (maxFile maxTotal total n : ℕ) : Prop :=
  n ≤ maxFile ∧ total + n ≤ maxTotal ∧ n ≤ width.isizeMax

variable {width : Width} {base : Path} {size : Ino → UInt64} {w w₁ w₂ : World} {tr : List FileCall}
  {maxFile maxTotal total : ℕ}

theorem mappable_snoc {sizes : List ℕ} {n : ℕ} : Mappable width maxFile maxTotal (sizes ++ [n]) ↔
    Mappable width maxFile maxTotal sizes ∧ FitsAfter width maxFile maxTotal sizes.sum n := by
  simp only [Mappable, WithinLimits, FitsAfter, List.forall_mem_append, List.forall_mem_singleton,
    List.sum_append, List.sum_singleton]
  constructor
  · rintro ⟨⟨⟨hsizes, hn⟩, hsum⟩, hmapped, hnmapped⟩
    exact ⟨⟨⟨hsizes, by omega⟩, hmapped⟩, hn, hsum, hnmapped⟩
  · rintro ⟨⟨⟨hsizes, _⟩, hmapped⟩, hn, hsum, hnmapped⟩
    exact ⟨⟨⟨hsizes, hn⟩, hsum⟩, hmapped, hnmapped⟩

theorem Mappable.mono {maxFile' maxTotal' : ℕ} {sizes : List ℕ}
    (h : Mappable width maxFile maxTotal sizes) (hfile : maxFile ≤ maxFile')
    (htotal : maxTotal ≤ maxTotal') : Mappable width maxFile' maxTotal' sizes :=
  ⟨⟨fun n hn => (h.1.1 n hn).trans hfile, h.1.2.trans htotal⟩, h.2⟩

@[simp] theorem openedPaths_append {tr tr' : List FileCall} :
    openedPaths (tr ++ tr') = openedPaths tr ++ openedPaths tr' :=
  List.filterMap_append

theorem openedPaths_of_only {α : Type} {E : Env World FileOp (Answer FileOp.Res)} {p : FileProg α}
    {r : Except Exit α} (hp : p.Only fun op => op.opened = none) (h : E.Runs p w₁ tr r w₂) :
    openedPaths tr = [] := by
  refine List.filterMap_eq_nil_iff.mpr fun c hc => ?_
  exact h.ops_only hp c hc

/-- The sum saturates only where it is over the limit anyway. -/
theorem saturatingAdd_le_iff (hmax : maxTotal < u64Max) {n : ℕ} :
    saturatingAdd u64Max total n ≤ maxTotal ↔ total + n ≤ maxTotal := by
  unfold saturatingAdd
  omega

theorem saturatingAdd_of_le (hmax : maxTotal < u64Max) {n : ℕ} (h : total + n ≤ maxTotal) :
    saturatingAdd u64Max total n = total + n := by
  unfold saturatingAdd
  omega

theorem runs_mmapMap_sized {file : File} {populate : Bool} {r : Except Exit Mmap}
    (h : (sizedEnv base size).Runs (mmapMap width file populate) w₁ tr r w₂) :
    ((size file.ino).toNat ≤ width.isizeMax ∧ ∃ m, r = .ok m) ∨
      width.isizeMax < (size file.ino).toNat ∧ r = .error (.err mmapLengthOverflow) := by
  obtain ⟨w₃, len, tr₁, _, rfl, h₁, rfl⟩ := runs_sys_bind_sized h
  split_ifs at h₁ with hlarge
  · exact .inr ⟨hlarge, (runs_throw_iff.mp h₁).2.1⟩
  · rw [← Prog.bind_ret (sys _ _)] at h₁
    obtain ⟨w₄, m, tr₂, _, _, h₂, rfl⟩ := runs_sys_bind_sized h₁
    exact .inl ⟨Nat.not_lt.mp hlarge, m, (Env.runs_ret_iff.mp h₂).2.1⟩

theorem metadata_sized {q : Path} {file : File} {md : Metadata} (hi : w.Finds base q file.ino)
    (hund : Undisturbed base w w₁) (h : w₁.answersSized size (.metadata file) md) :
    md = ⟨(size file.ino).toNat, w.dev file.ino, file.ino⟩ := by
  obtain ⟨hdev, hino, hlen⟩ := h
  rw [(hund q _ hi).2.2] at hdev
  obtain ⟨len, dev, ino⟩ := md
  cases hdev
  cases hino
  cases hlen
  rfl

theorem runs_validate_sized {q : Path} {file : File} {md : Metadata} {r : Except Exit Unit}
    (hi : w.Finds base q file.ino) (hund : Undisturbed base w w₁)
    (hmd : md = ⟨(size file.ino).toNat, w.dev file.ino, file.ino⟩)
    (h : (sizedEnv base size).Runs (validateMappingStability file (.fromMetadata md) md.len) w₁ tr r w₂) :
    r = .ok () := by
  obtain ⟨w₃, answer, hrely, ⟨_, md', rfl, hans⟩, rfl, ⟨_, _, hnot⟩ | ⟨hr, _⟩⟩ := runs_validate h
  · have hmd' := metadata_sized hi (hund.many hrely) hans
    rw [hmd, hmd'] at hnot
    exact absurd ⟨rfl, rfl, rfl, rfl⟩ (hnot _ rfl)
  · exact hr

theorem runs_adviseSequential_sized {m : Mmap} {path : Path} {r : Except Exit Unit}
    (h : (sizedEnv base size).Runs (adviseSequential m path) w₁ tr r w₂) : r = .ok () := by
  have htree := runs_of_unsized (adviseSequential_only (fun _ _ => trivial) m path) h
  exact runs_adviseSequential (runs_of_tree htree) (.of_all (succeeded_sized h))

theorem runs_mapOpened_sized {q : Path} {path : Path} {file : File} {md : Metadata}
    {r : Except Exit (ℕ × MmapRegion)} (hi : w.Finds base q file.ino) (hund : Undisturbed base w w₁)
    (hmd : md = ⟨(size file.ino).toNat, w.dev file.ino, file.ino⟩)
    (h : (sizedEnv base size).Runs (mapOpened width file md path total) w₁ tr r w₂) :
    md.len ≤ width.isizeMax ∧ (∃ region, r = .ok (total, region)) ∨
      width.isizeMax < md.len ∧ r = .error (.err mmapLengthOverflow) := by
  have hlen : md.len = (size file.ino).toNat := by rw [hmd]
  rcases Env.runs_bind_iff.mp h with ⟨e, rfl, hmap⟩ | ⟨m, w₃, t₁, t₂, hmap, h₁, rfl⟩
  · obtain ⟨_, _, ⟨⟩⟩ | ⟨hlarge, herror⟩ := runs_mmapMap_sized hmap
    cases herror
    exact .inr ⟨hlen ▸ hlarge, rfl⟩
  obtain ⟨hfits, _⟩ | ⟨_, ⟨⟩⟩ := runs_mmapMap_sized hmap
  have hund₃ := hund.many (runs_sized_interfere hmap)
  rcases Env.runs_bind_iff.mp h₁ with ⟨e, rfl, hval⟩ | ⟨_, w₄, t₃, t₄, hval, h₂, rfl⟩
  · cases runs_validate_sized hi hund₃ hmd hval
  rcases Env.runs_bind_iff.mp h₂ with ⟨e, rfl, hadv⟩ | ⟨_, w₅, t₅, t₆, hadv, h₃, rfl⟩
  · cases runs_adviseSequential_sized hadv
  exact .inl ⟨hlen ▸ hfits, _, (Env.runs_ret_iff.mp h₃).2.1⟩

/-- One round on a file of the tree: the per-file limit, then the total, then the mapping. -/
theorem runs_mapFile_sized {path : Path} {data : FileData} {r : Except Exit (ℕ × MmapRegion)} {n : ℕ}
    (hmaxTotal : maxTotal < u64Max) (hfile : HasFile base w path data)
    (hsize : w.sizeAt size path = n) (hund : Undisturbed base w w₁)
    (h : (sizedEnv base size).Runs (mapFile width maxFile maxTotal path total) w₁ tr r w₂) :
    openedPaths tr = [path] ∧
      (FitsAfter width maxFile maxTotal total n ∧ (∃ region, r = .ok (total + n, region)) ∨
        ¬ FitsAfter width maxFile maxTotal total n ∧
          r = .error (.err (refusal maxFile maxTotal total n))) := by
  obtain ⟨q, i, rfl, hi, hsym, hresolve, -⟩ := hfile.resolve
  rw [World.sizeAt, hresolve, Option.elim_some] at hsize
  obtain ⟨w₃, file, tr₁, hrely, ⟨hopen, _⟩, h₁, rfl⟩ := runs_sys_bind_sized h
  have hund₃ := hund.many hrely
  have hino : i = file.ino := Option.some.inj ((hund₃.resolve hi hsym).symm.trans hopen.1)
  subst hino
  obtain ⟨w₄, md, tr₂, hrely', hmd, h₂, rfl⟩ := runs_sys_bind_sized h₁
  have hund₄ := hund₃.many hrely'
  have hmd := metadata_sized hi hund₄ hmd
  have hlen : md.len = n := by rw [hmd, ← hsize]
  dsimp only at h₂
  rw [hlen] at h₂
  unfold refusal
  split_ifs at h₂ with hmax htotal
  · obtain ⟨rfl, rfl, rfl⟩ := runs_throw_iff.mp h₂
    exact ⟨rfl, .inr ⟨fun hfits => absurd hfits.1 (Nat.not_le.mpr hmax), by rw [if_pos hmax]; rfl⟩⟩
  · obtain ⟨rfl, rfl, rfl⟩ := runs_throw_iff.mp h₂
    have hover : maxTotal < total + n :=
      Nat.not_le.mp fun hle => Nat.not_le.mpr htotal ((saturatingAdd_le_iff hmaxTotal).mpr hle)
    refine ⟨rfl, .inr ⟨fun hfits => absurd hfits.2.1 (Nat.not_le.mpr hover), ?_⟩⟩
    rw [if_neg hmax, if_pos hover]
    rfl
  have hle : total + n ≤ maxTotal := (saturatingAdd_le_iff hmaxTotal).mp (Nat.not_lt.mp htotal)
  rw [saturatingAdd_of_le hmaxTotal hle] at h₂
  rw [← hlen] at h₂
  have hopened : openedPaths tr₂ = [] := openedPaths_of_only (mapOpened_only (fun _ hop _ => hop) ..) h₂
  refine ⟨congrArg ((base ++ q) :: ·) hopened, ?_⟩
  rw [if_neg hmax, if_neg (Nat.not_lt.mpr hle)]
  obtain ⟨hfits, hok⟩ | ⟨hlarge, herror⟩ := runs_mapOpened_sized hi hund₄ hmd h₂
  · rw [hlen] at hfits hok
    exact .inl ⟨⟨Nat.not_lt.mp hmax, hle, hfits⟩, hok⟩
  · rw [hlen] at hlarge
    exact .inr ⟨fun hfits => absurd hfits.2.2 (Nat.not_le.mpr hlarge), herror⟩

/-- The loop gets past files that keep the limits and can be mapped, with their exact sum as its total. -/
theorem runs_mapFiles_past {before rest : List Path} {mappings : List MmapRegion}
    {r : Except Exit (List MmapRegion)} (hmaxTotal : maxTotal < u64Max)
    (hfiles : ∀ path ∈ before, ∃ data, HasFile base w path data)
    (hmax : ∀ path ∈ before, w.sizeAt size path ≤ maxFile)
    (hfits : ∀ path ∈ before, w.sizeAt size path ≤ width.isizeMax)
    (htotal : total + (before.map (w.sizeAt size)).sum ≤ maxTotal) (hund : Undisturbed base w w₁)
    (h : (sizedEnv base size).Runs (mapFiles width maxFile maxTotal (before ++ rest) total mappings)
      w₁ tr r w₂) :
    ∃ w₃ tr₁ tr₂ mappings', tr = tr₁ ++ tr₂ ∧ openedPaths tr₁ = before ∧ Undisturbed base w w₃ ∧
      (sizedEnv base size).Runs (mapFiles width maxFile maxTotal rest
        (total + (before.map (w.sizeAt size)).sum) mappings') w₃ tr₂ r w₂ := by
  induction before generalizing total mappings w₁ tr with
  | nil => exact ⟨w₁, [], tr, mappings, rfl, rfl, hund, h⟩
  | cons path before ih =>
      obtain ⟨⟨data, hfile⟩, hfiles⟩ := List.forall_mem_cons.mp hfiles
      obtain ⟨hpath, hmax⟩ := List.forall_mem_cons.mp hmax
      obtain ⟨hpathFits, hfits⟩ := List.forall_mem_cons.mp hfits
      rw [List.map_cons, List.sum_cons, ← Nat.add_assoc] at htotal ⊢
      have hround {t r' w'} (hrun : (sizedEnv base size).Runs (mapFile width maxFile maxTotal path total)
          w₁ t r' w') : openedPaths t = [path] ∧
            ∃ region, r' = .ok (total + w.sizeAt size path, region) := by
        obtain ⟨hopened, ⟨_, hok⟩ | ⟨hnot, _⟩⟩ := runs_mapFile_sized hmaxTotal hfile rfl hund hrun
        · exact ⟨hopened, hok⟩
        · exact absurd ⟨hpath, by omega, hpathFits⟩ hnot
      rcases Env.runs_bind_iff.mp h with ⟨e, rfl, hone⟩ | ⟨⟨total', region⟩, w₃, t₁, t₂, hone, hrest, rfl⟩
      · obtain ⟨_, _, ⟨⟩⟩ := hround hone
      · obtain ⟨hopened, _, hok⟩ := hround hone
        cases hok
        obtain ⟨w₄, tr₁, tr₂, mappings', rfl, hopened', hund₄, hrun⟩ := ih hfiles hmax hfits htotal
          (hund.many (runs_sized_interfere hone)) hrest
        exact ⟨w₄, t₁ ++ tr₁, tr₂, mappings', (List.append_assoc ..).symm,
          by rw [openedPaths_append, hopened, hopened', List.singleton_append], hund₄, hrun⟩

theorem runs_mapFiles_past_mappable {before rest : List Path} {r : Except Exit (List MmapRegion)}
    (hmaxTotal : maxTotal < u64Max) (hfiles : ∀ path ∈ before, ∃ data, HasFile base w path data)
    (hbefore : Mappable width maxFile maxTotal (before.map (w.sizeAt size)))
    (hund : Undisturbed base w w₁)
    (h : (sizedEnv base size).Runs (mapFiles width maxFile maxTotal (before ++ rest) 0 []) w₁ tr r w₂) :
    ∃ w₃ tr₁ tr₂ mappings', tr = tr₁ ++ tr₂ ∧ openedPaths tr₁ = before ∧ Undisturbed base w w₃ ∧
      (sizedEnv base size).Runs (mapFiles width maxFile maxTotal rest
        (before.map (w.sizeAt size)).sum mappings') w₃ tr₂ r w₂ := by
  obtain ⟨⟨hmax, htotal⟩, hfits⟩ := hbefore
  rw [← Nat.zero_add (List.sum _)] at htotal ⊢
  exact runs_mapFiles_past hmaxTotal hfiles (List.forall_mem_map.mp hmax) (List.forall_mem_map.mp hfits)
    htotal hund h

theorem runs_mapFiles_mappable {files : List Path} {r : Except Exit (List MmapRegion)}
    (hmaxTotal : maxTotal < u64Max) (hfiles : ∀ path ∈ files, ∃ data, HasFile base w path data)
    (hmappable : Mappable width maxFile maxTotal (files.map (w.sizeAt size)))
    (hund : Undisturbed base w w₁)
    (h : (sizedEnv base size).Runs (mapFiles width maxFile maxTotal files 0 []) w₁ tr r w₂) :
    ∃ mappings, r = .ok mappings := by
  rw [← List.append_nil files] at h
  obtain ⟨_, _, _, mappings, _, _, _, hrun⟩ :=
    runs_mapFiles_past_mappable hmaxTotal hfiles hmappable hund h
  exact ⟨mappings, (Env.runs_ret_iff.mp hrun).2.1⟩

theorem runs_mapFiles_breach {before after : List Path} {path : Path}
    {r : Except Exit (List MmapRegion)} (hmaxTotal : maxTotal < u64Max)
    (hfiles : ∀ p ∈ before ++ path :: after, ∃ data, HasFile base w p data)
    (hbefore : Mappable width maxFile maxTotal (before.map (w.sizeAt size)))
    (hbreach : ¬ Mappable width maxFile maxTotal ((before ++ [path]).map (w.sizeAt size)))
    (hund : Undisturbed base w w₁)
    (h : (sizedEnv base size).Runs (mapFiles width maxFile maxTotal (before ++ path :: after) 0 [])
      w₁ tr r w₂) :
    r = .error (.err (refusal maxFile maxTotal (before.map (w.sizeAt size)).sum
        (w.sizeAt size path))) ∧
      openedPaths tr = before ++ [path] := by
  rw [List.map_append, List.map_singleton, mappable_snoc, not_and] at hbreach
  have hbreach := hbreach hbefore
  obtain ⟨w₃, tr₁, tr₂, mappings, rfl, hopened, hund₃, hrun⟩ := runs_mapFiles_past_mappable hmaxTotal
    (fun p hp => hfiles p (List.mem_append_left _ hp)) hbefore hund h
  obtain ⟨data, hfile⟩ := hfiles path (List.mem_append_right _ List.mem_cons_self)
  have hround {t r' w'} (hround : (sizedEnv base size).Runs (mapFile width maxFile maxTotal path
      (before.map (w.sizeAt size)).sum) w₃ t r' w') : openedPaths t = [path] ∧
        r' = .error (.err (refusal maxFile maxTotal (before.map (w.sizeAt size)).sum
          (w.sizeAt size path))) := by
    obtain ⟨hopened, ⟨hfits, _⟩ | ⟨_, herror⟩⟩ := runs_mapFile_sized hmaxTotal hfile rfl hund₃ hround
    · exact absurd hfits hbreach
    · exact ⟨hopened, herror⟩
  rcases Env.runs_bind_iff.mp hrun with ⟨e, rfl, hone⟩ | ⟨_, _, _, _, hone, _⟩
  · obtain ⟨hopened', herror⟩ := hround hone
    exact ⟨by cases herror; rfl, by rw [openedPaths_append, hopened, hopened']⟩
  · cases (hround hone).2

end KernelKit
