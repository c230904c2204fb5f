import KernelKit.MmapFile

/-!
# Length observations over all writer schedules

A run of the environment `fileEnv Resizes` is one schedule of a concurrent writer that truncates and
extends files between the calls. For `openWithAdvice` the three observed lengths decide the result;
for `openReadWithSize` they do not, since memmap2's own query is compared with nothing.
-/

namespace KernelKit
open Interaction Relation

variable {width : Width} {interfere : World → World → Prop} {w w' : World} {tr : List FileCall} {α : Type}
  {r : Except Exit Mmap}

theorem runs_validate_advise {file : File} {expected : FileIdentity} {expectedLen : ℕ} {m : Mmap}
    {msg operation : String} {flag : Madv} (hflag : flag ≠ .hugepage)
    (hdev : expected.dev = w.dev file.ino) (hino : expected.ino = file.ino)
    (h : (fileEnv Resizes).Runs (do
      validateFileIdentity file expected expectedLen msg
      adviseMapping m operation flag
      pure m) w tr r w') :
    (∃ e, r = .error (.err e) ∧ (¬ OnlyHintFails tr ∨
        ∃ n, observedLengths tr = [n] ∧ ¬ (n = expectedLen ∧ expectedLen = expected.len))) ∨
      r = .ok m ∧ OnlyHintFails tr ∧ observedLengths tr = [expectedLen] ∧
        expectedLen = expected.len := by
  rcases Env.runs_bind_iff.mp h with ⟨e, rfl, hval⟩ | ⟨_, w₁, tv, tr₁, hval, h₁, rfl⟩
  · obtain ⟨e, he, hbad⟩ | ⟨⟨⟩, _⟩ := runs_validate_resizes hdev hino hval
    cases he
    exact Or.inl ⟨e, rfl, hbad⟩
  obtain ⟨_, ⟨⟩, _⟩ | ⟨_, hokv, hobsv, hlen⟩ := runs_validate_resizes hdev hino hval
  rcases Env.runs_bind_iff.mp h₁ with ⟨e, rfl, hadv⟩ | ⟨_, w₂, ta, tr₂, hadv, h₂, rfl⟩
  · obtain ⟨_, ⟨e, he, hfail⟩ | ⟨⟨⟩, _⟩⟩ := runs_adviseMapping hflag hadv
    cases he
    exact Or.inl ⟨e, rfl, Or.inl fun hn => hfail (onlyHintFails_append.mp hn).2⟩
  obtain ⟨hobsa, ⟨_, ⟨⟩, _⟩ | ⟨_, hoka⟩⟩ := runs_adviseMapping hflag hadv
  obtain ⟨rfl, rfl, rfl⟩ := Env.runs_ret_iff.mp h₂
  refine Or.inr ⟨rfl, ?_, ?_, hlen⟩
  · simp only [onlyHintFails_append, hokv, hoka, onlyHintFails_nil, and_self]
  · simp only [observedLengths_append, hobsv, hobsa, List.append_nil]

/-- The two calls that every open begins with: one of them fails, or the rest of the run goes on from a
handle and the metadata of its inode. -/
theorem runs_open_metadata_bind {α : Type} {path : Path} {f : File → Metadata → FileProg α}
    {r : Except Exit α}
    (h : (fileEnv Resizes).Runs ((sys "open" (FileOp.openFile path)).bind fun file =>
      (sys "metadata" (FileOp.metadata file)).bind (f file)) w tr r w') :
    (∃ e, r = .error (.err e)) ∧ ¬ OnlyHintFails tr ∨
      ∃ file md w₁ tr', md.dev = w₁.dev file.ino ∧ md.ino = file.ino ∧
        (OnlyHintFails tr ↔ OnlyHintFails tr') ∧ observedLengths tr = md.len :: observedLengths tr' ∧
        (fileEnv Resizes).Runs (f file md) w₁ tr' r w' := by
  obtain ⟨w₁, w₁', _, ⟨source, _, rfl, rfl, rfl⟩ | ⟨file, tr₁, hopen, rfl, h₁⟩⟩ :=
    runs_sys_bind_iff.mp h
  · exact Or.inl ⟨⟨_, rfl⟩, by simp [IsHint, Succeeded]⟩
  obtain ⟨w₂, w₂', _, ⟨source, _, rfl, rfl, rfl⟩ | ⟨md, tr₂, ⟨rfl, hmd⟩, rfl, h₂⟩⟩ :=
    runs_sys_bind_iff.mp h₁
  · exact Or.inl ⟨⟨_, rfl⟩, by simp [IsHint, Succeeded]⟩
  obtain ⟨hdev, hino, _⟩ := hmd md rfl
  exact Or.inr ⟨file, md, _, tr₂, hdev, hino, by simp [Succeeded], rfl, h₂⟩

/-- Every schedule of `openWithAdvice` ends in the mapping or in an error, and which of the two is
decided by the calls that fail and by the three observed lengths. Where no call fails all three are
observed, unless memmap2 refuses the second. -/
theorem runs_openWithAdvice {path : Path} {advice : MmapAdvice}
    (h : (fileEnv Resizes).Runs (openWithAdvice width path advice) w tr r w') :
    (∃ e, r = .error (.err e) ∧ (¬ OnlyHintFails tr ∨
        (∃ a b c, observedLengths tr = [a, b, c] ∧ ¬ (a = b ∧ b = c)) ∨
        ∃ a b, observedLengths tr = [a, b] ∧ width.isizeMax < b)) ∨
      ∃ m, r = .ok m ∧ OnlyHintFails tr ∧ observedLengths tr = [m.len, m.len, m.len] := by
  have hflag : advice.flag ≠ .hugepage := by cases advice <;> decide
  obtain ⟨⟨e, he⟩, hbad⟩ | ⟨file, md, w₁, tr₁, hdev, hino, hok₁, hobs, h₁⟩ := runs_open_metadata_bind h
  · exact Or.inl ⟨e, he, Or.inl hbad⟩
  rw [hok₁, hobs]
  rcases Env.runs_bind_iff.mp h₁ with ⟨e, rfl, hmap⟩ | ⟨m, w₃, tm, tr₃, hmap, h₃, rfl⟩
  · obtain ⟨e, he, hfail | ⟨n, _, hlarge, hn⟩⟩ | ⟨m, ⟨⟩, _⟩ := runs_mmapMap hmap
    · cases he
      exact Or.inl ⟨e, rfl, Or.inl hfail⟩
    · cases he
      exact Or.inl ⟨e, rfl, Or.inr (Or.inr ⟨md.len, n, by rw [hn], hlarge⟩)⟩
  obtain ⟨_, ⟨⟩, _⟩ | ⟨m', hm', hokm, hobsm, hlt⟩ := runs_mmapMap hmap
  cases hm'
  have hdev₃ : md.dev = w₃.dev file.ino := by
    rw [hdev, Resizes.many_dev_eq (runs_interfere hmap)]
  rw [if_neg (not_not.mpr (lt_trans hlt (by norm_num)))] at h₃
  rw [onlyHintFails_append, observedLengths_append, hobsm]
  rcases runs_validate_advise hflag hdev₃ hino h₃ with ⟨e, rfl, hbad⟩ | ⟨rfl, hok, hobsv, hlen⟩
  · refine Or.inl ⟨e, rfl, ?_⟩
    rcases hbad with hfail | ⟨c, hobsv, hne⟩
    · exact Or.inl fun hn => hfail hn.2
    · refine Or.inr (Or.inl ⟨md.len, m.len, c, by rw [hobsv]; rfl, ?_⟩)
      rintro ⟨hmd, rfl⟩
      exact hne ⟨rfl, hmd.symm⟩
  · refine Or.inr ⟨m, rfl, ⟨hokm, hok⟩, ?_⟩
    rw [hobsv, hlen]
    rfl

/-- Every schedule of `openReadWithSize`: the stats must show the expected size, and nothing is
required of memmap2's own query in between. -/
theorem runs_openReadWithSize {path : Path} {expectedSize : ℕ}
    (h : (fileEnv Resizes).Runs (openReadWithSize width path expectedSize) w tr r w') :
    (∃ e, r = .error (.err e) ∧
        ¬ (OnlyHintFails tr ∧ ∃ n, observedLengths tr = [expectedSize, n, expectedSize])) ∨
      ∃ m, r = .ok m ∧ OnlyHintFails tr ∧
        observedLengths tr = [expectedSize, m.len, expectedSize] := by
  obtain ⟨⟨e, he⟩, hbad⟩ | ⟨file, md, w₁, tr₁, hdev, hino, hok₁, hobs, h₁⟩ := runs_open_metadata_bind h
  · exact Or.inl ⟨e, he, fun hn => hbad hn.1⟩
  rw [hok₁, hobs]
  dsimp only at h₁
  split_ifs at h₁ with hsize
  · obtain ⟨rfl, rfl, rfl⟩ := runs_throw_iff.mp h₁
    refine Or.inl ⟨_, rfl, ?_⟩
    rintro ⟨_, n, hn⟩
    exact hsize (List.cons.inj hn).1
  have hsize : md.len = expectedSize := not_not.mp hsize
  rcases Env.runs_bind_iff.mp h₁ with ⟨e, rfl, hmap⟩ | ⟨m, w₃, tm, tr₃, hmap, h₃, rfl⟩
  · obtain ⟨e, he, hbad⟩ | ⟨m, ⟨⟩, _⟩ := runs_mmapMap hmap
    cases he
    refine Or.inl ⟨e, rfl, ?_⟩
    rintro ⟨hn, n, hobsm⟩
    rcases hbad with hfail | ⟨n', _, _, hrefused⟩
    · exact hfail hn
    · rw [hrefused] at hobsm
      simp at hobsm
  obtain ⟨_, ⟨⟩, _⟩ | ⟨m', hm', hokm, hobsm, _⟩ := runs_mmapMap hmap
  cases hm'
  have hdev₃ : md.dev = w₃.dev file.ino := by
    rw [hdev, Resizes.many_dev_eq (runs_interfere hmap)]
  rw [onlyHintFails_append, observedLengths_append, hobsm]
  rcases runs_validate_advise (by decide) hdev₃ hino h₃ with ⟨e, rfl, hbad⟩ | ⟨rfl, hok, hobsv, _⟩
  · refine Or.inl ⟨e, rfl, ?_⟩
    rintro ⟨hn, n, hn'⟩
    simp only [List.singleton_append, List.cons.injEq] at hn'
    rcases hbad with hfail | ⟨n', hobsv, hne⟩
    · exact hfail hn.2
    · rw [hobsv] at hn'
      exact hne ⟨List.singleton_inj.mp hn'.2.2, hsize.symm⟩
  · refine Or.inr ⟨m, rfl, ⟨hokm, hok⟩, ?_⟩
    rw [hobsv, hsize]
    rfl

theorem exists_validate_advise {i : Ino} {data : FileData} {n : ℕ} (expected : FileIdentity) (m : Mmap)
    (msg operation : String) (flag : Madv) (hn : w.node i = some (.file data)) (hlt : n < 2 ^ 63) :
    ∃ tr r w', (fileEnv Resizes).Runs (do
      validateFileIdentity ⟨i⟩ expected m.len msg
      adviseMapping m operation flag
      pure m) w tr r w' ∧ (∀ c ∈ tr, Succeeded c) ∧ observedLengths tr = [n] := by
  obtain ⟨r, hvalid⟩ := exists_validate_resized expected m.len msg hn hlt
  cases r with
  | error exit =>
      exact ⟨_, _, _, Env.runs_bind_iff.mpr (.inl ⟨exit, rfl, hvalid⟩), by simp [Succeeded], rfl⟩
  | ok _ =>
      obtain ⟨ta, hadvise, hsucceeded, hnone⟩ :=
        exists_adviseMapping Resizes (w.resize i data n hlt) m operation flag
      refine ⟨_, _, _, hvalid.bind (hadvise.bind (.ret m _)), ?_, ?_⟩
      · simpa [Succeeded] using hsucceeded
      · rw [observedLengths_append, observedLengths_append, hnone]
        rfl

/-- Every three lengths a mapping can have are the ones some schedule shows the calls, and none fails. -/
theorem exists_openWithAdvice {path : Path} {i : Ino} {data : FileData} {a b c : ℕ} (advice : MmapAdvice)
    (hres : w.resolve path = some i) (hn : w.node i = some (.file data)) (ha : a < 2 ^ 63)
    (hb : b < 2 ^ 63) (hc : c < 2 ^ 63) (hfits : b ≤ width.isizeMax) :
    ∃ tr r w', (fileEnv Resizes).Runs (openWithAdvice width path advice) w tr r w' ∧
      (∀ c ∈ tr, Succeeded c) ∧ observedLengths tr = [a, b, c] := by
  have hopen : w.answers (.openFile path) ⟨i⟩ := ⟨hres, by rw [hn]; rfl⟩
  have hna := w.resize_node i data ha
  have hlen := World.lenOf_of_file hna
  rw [FileData.setLen_len] at hlen
  have hstat : (w.resize i data a ha).answers (.metadata ⟨i⟩) ⟨a, w.dev i, i⟩ := ⟨rfl, rfl, hlen⟩
  have hmap := runs_mmapMap_resized false hna hb hfits
  obtain ⟨tr, r, w', hrest, hsucceeded, hobserved⟩ := exists_validate_advise ⟨a, w.dev i, i⟩ _
    changedDuringOpen advice.operation advice.flag (World.resize_node _ _ _ hb) hc
  refine ⟨_, r, w', runs_openWithAdvice_of_mapped hopen (.single (.resize hn ha)) hstat hmap hrest, ?_, ?_⟩
  · simpa [Succeeded] using hsucceeded
  · exact congrArg (a :: b :: ·) hobserved

/-- For every advice and every schedule of a writer, `openWithAdvice` hands out a mapping exactly when
the three observed lengths agree and no call fails but the ignored hint; the mapping then has
that length. In every other schedule it returns an error. Where no call fails the length is looked at
three times, unless memmap2 refuses it at the second, and there are schedules that show any lengths. -/
theorem openWithAdvice_ok_iff_lengths_agree (width : Width) (path : Path) (advice : MmapAdvice) :
    (∀ w tr r w', (fileEnv Resizes).Runs (openWithAdvice width path advice) w tr r w' →
      ((∀ c ∈ tr, Succeeded c) → ((∃ m, r = .ok m) ↔ ∃ n, observedLengths tr = [n, n, n])) ∧
        (∀ m, r = .ok m → observedLengths tr = [m.len, m.len, m.len]) ∧
        (¬ (OnlyHintFails tr ∧ ∃ n, observedLengths tr = [n, n, n]) ↔ ∃ e, r = .error (.err e)) ∧
        ((∀ c ∈ tr, Succeeded c) → (∃ a b c, observedLengths tr = [a, b, c]) ∨
          ∃ a b, observedLengths tr = [a, b] ∧ width.isizeMax < b)) ∧
      ∀ w i data, w.resolve path = some i → w.node i = some (.file data) →
        ∀ a b c, a < 2 ^ 63 → b < 2 ^ 63 → c < 2 ^ 63 → b ≤ width.isizeMax →
          ∃ tr r w', (fileEnv Resizes).Runs (openWithAdvice width path advice) w tr r w' ∧
            (∀ c ∈ tr, Succeeded c) ∧ observedLengths tr = [a, b, c] := by
  constructor
  · intro w tr r w' h
    obtain ⟨e, rfl, hbad⟩ | ⟨m, rfl, hok, hobs⟩ := runs_openWithAdvice h
    · have hn : ¬ (OnlyHintFails tr ∧ ∃ n, observedLengths tr = [n, n, n]) := by
        rintro ⟨hok, n, hobs⟩
        rcases hbad with hfail | ⟨a, b, c, habc, hne⟩ | ⟨a, b, hab, _⟩
        · exact hfail hok
        · rw [habc] at hobs
          simp only [List.cons.injEq, and_true] at hobs
          exact hne ⟨hobs.1.trans hobs.2.1.symm, hobs.2.1.trans hobs.2.2.symm⟩
        · rw [hab] at hobs
          simp at hobs
      refine ⟨fun hall => ⟨?_, ?_⟩, by rintro m ⟨⟩, ⟨fun _ => ⟨e, rfl⟩, fun _ => hn⟩, fun hall => ?_⟩
      · rintro ⟨m, ⟨⟩⟩
      · intro hlen
        exact absurd ⟨.of_all hall, hlen⟩ hn
      · rcases hbad with hfail | ⟨a, b, c, habc, _⟩ | hrefused
        · exact absurd (.of_all hall) hfail
        · exact .inl ⟨a, b, c, habc⟩
        · exact .inr hrefused
    · refine ⟨fun _ => ⟨fun _ => ⟨_, hobs⟩, fun _ => ⟨m, rfl⟩⟩, ?_, ⟨fun hn => ?_, ?_⟩,
        fun _ => .inl ⟨_, _, _, hobs⟩⟩
      · rintro _ ⟨⟩
        exact hobs
      · exact absurd ⟨hok, _, hobs⟩ hn
      · rintro ⟨e, ⟨⟩⟩
  · intro w i data hres hn a b c ha hb hc hfits
    exact exists_openWithAdvice advice hres hn ha hb hc hfits

theorem openWithAdvice_ok_iff_lengths_agree_undisturbed :
    ∃ tr, (fileEnv Resizes).Runs (openWithAdvice .w64 [[97]] .willNeed)
      (singleFile [97] ⟨[1, 2, 3], by decide⟩) tr (.ok ⟨1, [1, 2, 3]⟩)
      (singleFile [97] ⟨[1, 2, 3], by decide⟩) ∧ observedLengths tr = [3, 3, 3] := by
  have hn : (singleFile [97] ⟨[1, 2, 3], by decide⟩).node 1 = some (.file ⟨[1, 2, 3], by decide⟩) := rfl
  have hopen : ∃ tr, (fileEnv Resizes).Runs (openWithAdvice .w64 [[97]] .willNeed)
      (singleFile [97] ⟨[1, 2, 3], by decide⟩) tr (.ok ⟨1, [1, 2, 3]⟩)
      (singleFile [97] ⟨[1, 2, 3], by decide⟩) :=
    exists_openWithAdvice_quiet .willNeed rfl hn (by decide)
  obtain ⟨tr, h⟩ := hopen
  exact ⟨tr, h, ((openWithAdvice_ok_iff_lengths_agree _ _ _).1 _ _ _ _ h).2.1 _ rfl⟩

theorem observedLength_eq_size {c : FileCall} {file : File} {size : ℕ}
    (hserve : (fileEnv interfere).serve c.op c.state c.answer w') (hok : IsHint c ∨ Succeeded c)
    (hlook : c.op.lengthLook = some file) (hsize : c.state.sizeOf file.ino = some size) :
    observedLength c = some size := by
  obtain ⟨s, op, answer⟩ := c
  cases op with
  | metadata f =>
      cases hlook
      cases answer with
      | error source => obtain ⟨m, ⟨⟩⟩ | ⟨md, ⟨⟩⟩ := hok
      | ok md =>
          have hlen : s.LenOf file.ino md.len := (hserve.2 md rfl).2.2
          rw [World.LenOf, hsize] at hlen
          exact congrArg some hlen
  | fileLen f =>
      cases hlook
      cases answer with
      | error source => obtain ⟨m, ⟨⟩⟩ | ⟨len, ⟨⟩⟩ := hok
      | ok len =>
          have hlen : s.LenOf file.ino len := hserve.2 len rfl
          rw [World.LenOf, hsize] at hlen
          exact congrArg some hlen
  | _ => cases hlook

/-- The calls see the lengths the files have, so a schedule without failures in which every look is
at a mappable file observes just these. -/
theorem observedLengths_of_lengthsHad {p : FileProg α} {x : Except Exit α} {sizes : List ℕ}
    (h : (fileEnv interfere).Runs p w tr x w') (hok : OnlyHintFails tr)
    (hsizes : lengthsHad tr = sizes.map some) : observedLengths tr = sizes := by
  induction h generalizing sizes with
  | ret | fail => exact (List.map_eq_nil_iff.mp hsizes.symm).symm
  | @ask op next s s₁ s₂ s' answer tr r _ hserve _ ih =>
      obtain ⟨hc, hok⟩ := onlyHintFails_cons.mp hok
      cases hlook : op.lengthLook with
      | none =>
          have hobs : observedLength ⟨s₁, op, answer⟩ = none := by
            cases op <;> first | rfl | cases hlook
          rw [lengthsHad, List.filterMap_cons_none (by rw [hlook]; rfl)] at hsizes
          rw [observedLengths, List.filterMap_cons_none hobs]
          exact ih hok hsizes
      | some file =>
          rw [lengthsHad, List.filterMap_cons_some (by rw [hlook]; rfl)] at hsizes
          obtain ⟨size, sizes, rfl, hsize, hsizes'⟩ := List.map_eq_cons_iff.mp hsizes.symm
          have hobs : observedLength ⟨s₁, op, answer⟩ = some size :=
            observedLength_eq_size hserve hc hlook hsize.symm
          rw [observedLengths, List.filterMap_cons_some hobs, ← ih hok hsizes'.symm]
          rfl

/-- A mapping `openReadWithSize` hands out has the length the file had at memmap2's query, and the
file had the expected size at both stats. -/
theorem lengthsHad_openReadWithSize_ok {path : Path} {expectedSize : ℕ} {m : Mmap}
    (h : (fileEnv Resizes).Runs (openReadWithSize width path expectedSize) w tr (.ok m) w') :
    lengthsHad tr = [some expectedSize, some m.len, some expectedSize] := by
  obtain ⟨w₁, w₁', file, tr₁, _, _, rfl, h₁⟩ := runs_sys_bind_ok_iff.mp h
  obtain ⟨w₂, w₂', md, tr₂, _, ⟨rfl, hmd⟩, rfl, h₂⟩ := runs_sys_bind_ok_iff.mp h₁
  dsimp only at h₂
  split_ifs at h₂ with hsize
  · obtain ⟨_, ⟨⟩, _⟩ := runs_throw_iff.mp h₂
  obtain ⟨m', md', w₃, w₄, w₅, tr₃, hmapped, hconf, h₃, rfl⟩ := runs_map_validate_ok h₂
  obtain ⟨hsome, hquery, hrestat⟩ := hmapped.sizes
  have hstat := (hmd md rfl).2.2.sizeOf_eq hsome
  obtain ⟨_, w₆, ta, tr₄, hadv, h₄, rfl⟩ := Env.runs_bind_ok_iff.mp h₃
  obtain ⟨rfl, hret, _⟩ := Env.runs_ret_iff.mp h₄
  cases hret
  have hnil : lengthsHad ta = [] := lengthsHad_adviseMapping hadv
  calc lengthsHad _ = w₂'.sizeOf file.ino :: w₃.sizeOf file.ino :: w₅.sizeOf file.ino ::
        lengthsHad (ta ++ []) := rfl
    _ = _ := by rw [hstat, hquery, hrestat, hconf.1, not_not.mp hsize, List.append_nil, hnil]

/-- In a schedule of `openReadWithSize` the mapping has the expected size unless the file had another
length at memmap2's query, and there alone of the three looks. -/
theorem openReadWithSize_len_iff (width : Width) (path : Path) (expectedSize : ℕ)
    (h : (fileEnv Resizes).Runs (openReadWithSize width path expectedSize) w tr r w') :
    (∀ m, r = .ok m → m.len = expectedSize) ↔
      ¬ (OnlyHintFails tr ∧
        ∃ n, n ≠ expectedSize ∧ lengthsHad tr = [some expectedSize, some n, some expectedSize]) := by
  obtain ⟨e, rfl, hn⟩ | ⟨m, rfl, hok, hobs⟩ := runs_openReadWithSize h
  · constructor
    · rintro _ ⟨hok, n, _, hhad⟩
      have hobs := @observedLengths_of_lengthsHad _ _ _ _ _ _ _ [_, _, _] h hok hhad
      exact hn ⟨hok, n, hobs⟩
    · rintro _ m ⟨⟩
  · have hhad := lengthsHad_openReadWithSize_ok h
    constructor
    · rintro hlen ⟨_, n, hne, hhad'⟩
      have hmn := (List.cons.inj (List.cons.inj (hhad.symm.trans hhad')).2).1
      exact hne ((Option.some.inj hmn).symm.trans (hlen m rfl))
    · rintro hsched _ ⟨⟩
      by_contra hne
      exact hsched ⟨hok, m.len, hne, hhad⟩

theorem exists_openReadWithSize_swapped {path : Path} {i : Ino} {data : FileData} {n : ℕ}
    (hres : w.resolve path = some i) (hn : w.node i = some (.file data)) (hlt : n < 2 ^ 63)
    (hfits : n ≤ width.isizeMax) :
    ∃ tr w', (fileEnv Resizes).Runs (openReadWithSize width path data.len) w tr
      (.ok ⟨i, (data.setLen n hlt).bytes⟩) w' := by
  have hopen : w.answers (.openFile path) ⟨i⟩ := ⟨hres, by rw [hn]; rfl⟩
  have hstat : w.answers (.metadata ⟨i⟩) ⟨data.len, w.dev i, i⟩ := ⟨rfl, rfl, World.lenOf_of_file hn⟩
  have hvalid : ∃ tr w', (fileEnv Resizes).Runs
      (validateFileIdentity ⟨i⟩ ⟨data.len, w.dev i, i⟩ data.len changedDuringOpen)
      (w.resize i data n hlt) tr (.ok ()) w' :=
    ⟨_, _, runs_validate_resized (w.resize_node i data hlt) data.fits ⟨rfl, rfl, rfl, rfl⟩⟩
  obtain ⟨tv, w', hvalid⟩ := hvalid
  obtain ⟨ta, hadvise, _⟩ := exists_adviseMapping Resizes w' ⟨i, (data.setLen n hlt).bytes⟩
    "madvise(SEQUENTIAL)" .sequential
  have hrest : ∃ tr, (fileEnv Resizes).Runs (do
      let mmap ← mmapMap width ⟨i⟩ false
      validateFileIdentity ⟨i⟩ ⟨data.len, w.dev i, i⟩ data.len changedDuringOpen
      adviseMapping mmap "madvise(SEQUENTIAL)" .sequential
      pure mmap) w tr (.ok ⟨i, (data.setLen n hlt).bytes⟩) w' :=
    ⟨_, (runs_mmapMap_resized false hn hlt hfits).bind (hvalid.bind (hadvise.bind (.ret _ w')))⟩
  obtain ⟨tr, hrest⟩ := hrest
  refine ⟨_ :: _ :: tr, w', .ask .refl (serve_ok (.openFile path) ⟨i⟩ hopen) <|
    .ask .refl (serve_ok (.metadata ⟨i⟩) _ hstat) ?_⟩
  dsimp only [Prog.ret_bind]
  rw [if_neg (not_not.mpr rfl)]
  exact hrest

/-- The writer extends a four-byte file before memmap2's query and cuts it back before the re-stat. -/
theorem runs_openReadWithSize_swapped :
    ∃ tr w', (fileEnv Resizes).Runs (openReadWithSize .w64 [[97]] 4)
      (singleFile [97] ⟨[1, 2, 3, 4], by decide⟩) tr (.ok ⟨1, [1, 2, 3, 4, 0, 0, 0, 0]⟩) w' := by
  have hn : (singleFile [97] ⟨[1, 2, 3, 4], by decide⟩).node 1 =
      some (.file ⟨[1, 2, 3, 4], by decide⟩) := rfl
  have hlt : 8 < 2 ^ 63 := by decide
  have hfits : 8 ≤ Width.w64.isizeMax := by decide
  exact exists_openReadWithSize_swapped rfl hn hlt hfits

theorem openReadWithSize_len_iff_swapped :
    ∃ tr w', (fileEnv Resizes).Runs (openReadWithSize .w64 [[97]] 4)
      (singleFile [97] ⟨[1, 2, 3, 4], by decide⟩) tr (.ok ⟨1, [1, 2, 3, 4, 0, 0, 0, 0]⟩) w' ∧
      OnlyHintFails tr ∧ ∃ n, n ≠ 4 ∧ lengthsHad tr = [some 4, some n, some 4] := by
  obtain ⟨tr, w', h⟩ := runs_openReadWithSize_swapped
  refine ⟨tr, w', h, ?_⟩
  by_contra hn
  have hlen := (openReadWithSize_len_iff _ _ _ h).mpr hn _ rfl
  simp [Mmap.len] at hlen

theorem not_openReadWithSize_len :
    ¬ ∀ width path expectedSize w tr m w',
      (fileEnv Resizes).Runs (openReadWithSize width path expectedSize) w tr (.ok m) w' →
        m.len = expectedSize := by
  intro hclaim
  obtain ⟨tr, w', h⟩ := runs_openReadWithSize_swapped
  have hlen := hclaim _ _ _ _ _ _ _ h
  simp [Mmap.len] at hlen

end KernelKit
