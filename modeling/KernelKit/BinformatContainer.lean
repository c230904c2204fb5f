import KernelKit.Binformat

/-!
# The container format: a header and then sections

A container is a header followed by length-prefixed sections up to the end of the file. Writing one
is `FileHeader.writeTo` and, for each payload, its length and its bytes; reading one is
`FileHeader.readFrom` and then `readSection` repeated on the rest until the rest is empty. The two
are inverse to each other, in both directions.
-/

namespace KernelKit.Binformat
open Decoding

/-- A section as its writers lay it out: the payload length as a little-endian `u64`, the payload. -/
def encodeSection (payload : List UInt8) : List UInt8 :=
  LittleEndian.ofWord (UInt64.ofNat payload.length) ++ payload

def encodeContainer (magic : List UInt8) (version : UInt64) (payloads : List (List UInt8)) :
    Except IoError (List UInt8) := do
  let header ← FileHeader.writeTo ⟨magic, version⟩ ([] : List UInt8)
  .ok (header ++ payloads.flatMap encodeSection)

def FitsSection (w : Width) (payload : List UInt8) : Prop :=
  payload.length < 2 ^ 64 ∧ payload.length ≤ w.usizeMax

theorem lengthDecoder_inverts (w : Width) :
    Inverts (lengthDecoder w) (fun n => LittleEndian.ofWord (UInt64.ofNat n))
      (fun n => n < 2 ^ 64 ∧ n ≤ w.usizeMax) := by
  have hcheck : ∀ bytes : List UInt8, bytes.length = u64Width →
      Inverts (check (σ := UInt8) (κ := String) (lengthCheck w bytes)) (fun _ => [])
        (fun n => (n < 2 ^ 64 ∧ n ≤ w.usizeMax) ∧ LittleEndian.ofWord (UInt64.ofNat n) = bytes) := by
    intro bytes hlen
    apply check_inverts
    intro n
    have hok : lengthCheck w bytes = .ok n ↔ w.usizeTryFrom (fromLeSlice bytes) = some n := by
      unfold lengthCheck
      cases w.usizeTryFrom (fromLeSlice bytes) <;> simp
    rw [hok, Width.usizeTryFrom_eq_some, ← fromLeSlice_eq_iff hlen]
    constructor
    · rintro ⟨rfl, hle⟩
      exact ⟨⟨UInt64.toNat_lt _, hle⟩, UInt64.ofNat_toNat.symm⟩
    · rintro ⟨⟨hlt, hle⟩, hv⟩
      rw [hv, UInt64.toNat_ofNat', Nat.mod_eq_of_lt hlt]
      exact ⟨rfl, hle⟩
  refine ((take_inverts u64Width _).bind (fun n => LittleEndian.ofWord (UInt64.ofNat n))
    hcheck).congr (fun n => ?_) (fun n _ => (List.append_nil _).symm)
  simp [u64Width]

/-- The section reader accepts exactly the encodings of payloads that fit. -/
theorem sectionDecoder_inverts (w : Width) :
    Inverts (sectionDecoder w) encodeSection (FitsSection w) := by
  refine ((lengthDecoder_inverts w).bind (f := fun n => take n "section payload")
    (Q := fun _ => True) List.length (fun n _ => ?_)).congr (fun payload => ?_)
    (fun payload _ => rfl)
  · exact (take_inverts n _).congr (fun payload => by simp) (fun _ _ => rfl)
  · simp [FitsSection]

theorem versionDecoder_inverts (maxVersion : UInt64) :
    Inverts (versionDecoder maxVersion) LittleEndian.ofWord (fun v => v ≤ maxVersion) := by
  have hcheck : ∀ bytes : List UInt8, bytes.length = u64Width →
      Inverts (check (σ := UInt8) (κ := String) (versionCheck maxVersion bytes)) (fun _ => [])
        (fun v => v ≤ maxVersion ∧ LittleEndian.ofWord v = bytes) := by
    intro bytes hlen
    apply check_inverts
    intro v
    rw [← fromLeSlice_eq_iff hlen, versionCheck]
    split_ifs with h
    · constructor
      · rintro ⟨⟩
      · rintro ⟨hle, rfl⟩
        exact absurd h (UInt64.not_lt.mpr hle)
    · constructor
      · rintro ⟨⟩
        exact ⟨UInt64.not_lt.mp h, rfl⟩
      · rintro ⟨_, rfl⟩
        rfl
  refine ((take_inverts u64Width _).bind LittleEndian.ofWord hcheck).congr (fun v => ?_)
    (fun v _ => (List.append_nil _).symm)
  simp [u64Width]

theorem headerDecoder_inverts (magic : List UInt8) (maxVersion : UInt64) :
    Inverts (headerDecoder magic maxVersion) (fun v => magic ++ LittleEndian.ofWord v)
      (fun v => v ≤ maxVersion) := by
  have hbody : ∀ actual : List UInt8, actual.length = magic.length →
      Inverts ((check (magicCheck magic actual)).bind fun _ => versionDecoder maxVersion)
        LittleEndian.ofWord (fun v => v ≤ maxVersion ∧ magic = actual) := by
    intro actual _
    have hmagic : Inverts (check (σ := UInt8) (κ := String) (magicCheck magic actual))
        (fun _ => []) (fun _ => magic = actual) := by
      apply check_inverts
      intro u
      by_cases h : actual = magic
      · simp [magicCheck, h]
      · simp [magicCheck, h, Ne.symm h]
    refine (hmagic.bind (Q := fun v => v ≤ maxVersion) (fun _ => ()) (fun _ _ => ?_)).congr
      (fun v => And.comm) (fun v _ => rfl)
    exact (versionDecoder_inverts maxVersion).congr (fun v => by simp) (fun _ _ => rfl)
  refine ((take_inverts magic.length _).bind (fun _ => magic) hbody).congr (fun v => ?_)
    (fun v _ => rfl)
  simp

theorem readSection_length_lt {w : Width} {data payload rest : List UInt8}
    (h : readSection w data = .ok (payload, rest)) : rest.length < data.length := by
  unfold readSection at h
  split_ifs at h with hl
  simp only [List.splitAt_eq] at h
  split at h
  · cases h
  · split_ifs at h
    simp only [Except.ok.injEq, Prod.mk.injEq] at h
    rw [← h.2]
    simp only [List.length_drop]
    have : 0 < u64Width := by decide
    omega

/-- `readSection` repeated until nothing is left. Every round shortens the rest, also for an empty
payload. -/
def readSections (w : Width) (data : List UInt8) : Except Error (List (List UInt8)) :=
  if data = [] then
    .ok []
  else
    match _h : readSection w data with
    | .error e => .error e
    | .ok (payload, rest) =>
      match readSections w rest with
      | .error e => .error e
      | .ok payloads => .ok (payload :: payloads)
termination_by data.length
decreasing_by exact readSection_length_lt _h

def decodeContainer (w : Width) (magic : List UInt8) (maxVersion : UInt64) (data : List UInt8) :
    Except Error (UInt64 × List (List UInt8)) := do
  let (version, rest) ← FileHeader.readFrom data magic maxVersion
  let payloads ← readSections w rest
  .ok (version, payloads)

theorem readSection_ok_iff {w : Width} {data payload rest : List UInt8} :
    readSection w data = .ok (payload, rest) ↔ sectionDecoder w data = .done payload rest := by
  rw [readSection_eq_decoder]
  cases sectionDecoder w data <;> simp [Outcome.toExcept]

theorem readFrom_ok_iff {data magic rest : List UInt8} {maxVersion v : UInt64} :
    FileHeader.readFrom data magic maxVersion = .ok (v, rest) ↔
      headerDecoder magic maxVersion data = .done v rest := by
  rw [readFrom_eq_decoder]
  cases headerDecoder magic maxVersion data <;> simp [Outcome.toExcept]

theorem readSections_nil (w : Width) : readSections w [] = .ok [] := by
  rw [readSections, if_pos rfl]

theorem readSections_cons_iff {w : Width} {data : List UInt8} {p : List UInt8}
    {ps : List (List UInt8)} :
    readSections w data = .ok (p :: ps) ↔
      ∃ rest, readSection w data = .ok (p, rest) ∧ readSections w rest = .ok ps := by
  rw [readSections]
  split_ifs with hd
  · subst hd
    constructor
    · rintro ⟨⟩
    · rintro ⟨rest, hr, _⟩
      exact absurd (readSection_length_lt hr) (Nat.not_lt_zero _)
  · split
    · next e he => simp [he]
    · next p' rest hr =>
      split
      · next e he =>
          simp only [hr, Except.ok.injEq, Prod.mk.injEq, reduceCtorEq, false_iff]
          rintro ⟨rest', ⟨_, rfl⟩, hs⟩
          rw [he] at hs
          cases hs
      · next ps' hs =>
          simp only [hr, Except.ok.injEq, List.cons.injEq, Prod.mk.injEq]
          constructor
          · rintro ⟨rfl, rfl⟩
            exact ⟨rest, ⟨rfl, rfl⟩, hs⟩
          · rintro ⟨rest', ⟨rfl, rfl⟩, hs'⟩
            exact ⟨rfl, Except.ok.inj (hs.symm.trans hs')⟩

theorem readSections_nil_iff {w : Width} {data : List UInt8} :
    readSections w data = .ok [] ↔ data = [] := by
  constructor
  · intro h
    by_contra hd
    rw [readSections, if_neg hd] at h
    split at h
    · cases h
    · split at h <;> cases h
  · rintro rfl
    exact readSections_nil w

/-- The repeated reads return exactly the payload lists whose encoding is the input. -/
theorem readSections_eq_ok_iff {w : Width} {data : List UInt8} {payloads : List (List UInt8)} :
    readSections w data = .ok payloads ↔
      (∀ p ∈ payloads, FitsSection w p) ∧ payloads.flatMap encodeSection = data := by
  have hinv := sectionDecoder_inverts w
  induction payloads generalizing data with
  | nil =>
      rw [readSections_nil_iff]
      simp [eq_comm]
  | cons p ps ih =>
      rw [readSections_cons_iff]
      simp only [List.forall_mem_cons, List.flatMap_cons]
      constructor
      · rintro ⟨rest, hr, hs⟩
        obtain ⟨hp, hd⟩ := hinv.writeRead (readSection_ok_iff.mp hr)
        obtain ⟨hps, hrest⟩ := ih.mp hs
        exact ⟨⟨hp, hps⟩, by rw [hrest, hd]⟩
      · rintro ⟨⟨hp, hps⟩, rfl⟩
        exact ⟨_, readSection_ok_iff.mpr (hinv.readWrite _ hp), ih.mpr ⟨hps, rfl⟩⟩

theorem decodeContainer_eq_ok_iff {w : Width} {magic : List UInt8} {maxVersion v : UInt64}
    {data : List UInt8} {payloads : List (List UInt8)} :
    decodeContainer w magic maxVersion data = .ok (v, payloads) ↔
      (v ≤ maxVersion ∧ ∀ p ∈ payloads, FitsSection w p) ∧
        encodeContainer magic v payloads = .ok data := by
  have hinv := headerDecoder_inverts magic maxVersion
  have hdec : decodeContainer w magic maxVersion data = .ok (v, payloads) ↔
      ∃ rest, FileHeader.readFrom data magic maxVersion = .ok (v, rest) ∧
        readSections w rest = .ok payloads := by
    unfold decodeContainer
    cases hh : FileHeader.readFrom data magic maxVersion with
    | error e => simp [bind, Except.bind]
    | ok vr =>
        obtain ⟨v', rest⟩ := vr
        cases hs : readSections w rest with
        | error e => simp +contextual [bind, Except.bind, hs]
        | ok ps => simp +contextual [bind, Except.bind, hs]
  have henc : encodeContainer magic v payloads =
      .ok (magic ++ LittleEndian.ofWord v ++ payloads.flatMap encodeSection) := rfl
  rw [hdec, henc, Except.ok.injEq]
  constructor
  · rintro ⟨rest, hr, hs⟩
    obtain ⟨hv, hd⟩ := hinv.writeRead (readFrom_ok_iff.mp hr)
    obtain ⟨hps, hrest⟩ := readSections_eq_ok_iff.mp hs
    exact ⟨⟨hv, hps⟩, by rw [hrest, hd]⟩
  · rintro ⟨⟨hv, hps⟩, rfl⟩
    exact ⟨_, readFrom_ok_iff.mpr (hinv.readWrite _ hv), readSections_eq_ok_iff.mpr ⟨hps, rfl⟩⟩

/-- Encoding and decoding containers are mutually inverse: what is written for payloads that fit
decodes to the version and the payloads, and whatever decodes is the encoding of its result. -/
theorem container_bijection (w : Width) (magic : List UInt8) (maxVersion : UInt64) :
    (∀ v payloads, v ≤ maxVersion → (∀ p ∈ payloads, FitsSection w p) →
      ∃ bytes, encodeContainer magic v payloads = .ok bytes ∧
        decodeContainer w magic maxVersion bytes = .ok (v, payloads)) ∧
    (∀ bytes v payloads, decodeContainer w magic maxVersion bytes = .ok (v, payloads) →
      encodeContainer magic v payloads = .ok bytes) := by
  constructor
  · intro v payloads hv hps
    exact ⟨_, rfl, decodeContainer_eq_ok_iff.mpr ⟨⟨hv, hps⟩, rfl⟩⟩
  · intro bytes v payloads h
    exact (decodeContainer_eq_ok_iff.mp h).2

end KernelKit.Binformat
