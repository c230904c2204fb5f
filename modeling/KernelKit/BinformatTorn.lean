import KernelKit.BinformatContainer
import KernelKit.BinformatResume
import KernelKit.Interaction

/-!
# Torn headers and truncated containers

A sink may take less than it is given, may be interrupted and may fail, so a header can be left half
written. Whatever was left, the reader does not take it for a header: it asks for the rest. A container
that was cut asks for the rest as well, unless it was cut behind a section, where nothing tells that it
was longer.
-/

namespace KernelKit.Binformat
open Decoding Interaction

/-! ### Writing through `write_all` -/

inductive SinkOp
  | write (buf : List UInt8)
  deriving DecidableEq, Repr

inductive SinkError
  | interrupted
  | failed (source : IoError)
  deriving DecidableEq, Repr

abbrev SinkOp.Ans : SinkOp → Type
  | .write _ => Except SinkError ℕ

inductive WriteFailure
  | writeZero
  | failed (source : IoError)
  | outOfFuel
  deriving DecidableEq, Repr

abbrev SinkProg (α : Type) := Prog SinkOp SinkOp.Ans WriteFailure α

def writeAll : ℕ → List UInt8 → SinkProg Unit
  | _, [] => pure ()
  | 0, _ :: _ => .fail .outOfFuel
  | fuel + 1, b :: bs => do
    let written ← Prog.call (SinkOp.write (b :: bs))
    match written with
    | .ok 0 => .fail .writeZero
    | .ok (n + 1) => writeAll fuel ((b :: bs).drop (n + 1))
    | .error .interrupted => writeAll fuel (b :: bs)
    | .error (.failed source) => .fail (.failed source)

def FileHeader.writeToSink (fuel : ℕ) (self : FileHeader) : SinkProg Unit := do
  writeAll fuel self.magic
  writeAll fuel (LittleEndian.ofWord self.version)

/-- A sink appends as many bytes as it says it took, and none with an error. -/
def sinkEnv : Env (List UInt8) SinkOp SinkOp.Ans where
  serve
    | .write buf, file, .ok n, file' => n ≤ buf.length ∧ file' = file ++ buf.take n
    | .write _, file, .error _, file' => file' = file
  interfere _ _ := False

abbrev SinkCall := Call (List UInt8) SinkOp SinkOp.Ans

def isInterrupted : SinkCall → Bool
  | ⟨_, .write _, .error .interrupted⟩ => true
  | _ => false

def interruptions (tr : List SinkCall) : ℕ := tr.countP isInterrupted

/-- A run of `write_all` on `buf` that wrote `out`. -/
structure Wrote (fuel : ℕ) (buf : List UInt8) (tr : List SinkCall) (r : Except WriteFailure Unit)
    (out : List UInt8) : Prop where
  isPrefix : out <+: buf
  ok_iff : r = .ok () ↔ out = buf
  outOfFuel : r = .error .outOfFuel → fuel ≤ out.length + interruptions tr

variable {file file' buf : List UInt8} {tr tr' : List SinkCall} {r : Except WriteFailure Unit} {fuel : ℕ}

theorem sinkEnv_quiet : sinkEnv.Quiet := fun _ _ => id

theorem interruptions_append : interruptions (tr ++ tr') = interruptions tr + interruptions tr' :=
  List.countP_append

theorem wrote_failed {failure : WriteFailure} (hbuf : buf ≠ []) (h : failure = .outOfFuel → fuel = 0) :
    Wrote fuel buf tr (.error failure) [] where
  isPrefix := List.nil_prefix
  ok_iff := iff_of_false (by rintro ⟨⟩) hbuf.symm
  outOfFuel hr := by
    rw [h (Except.error.inj hr)]
    exact Nat.zero_le _

theorem runs_writeAll (h : sinkEnv.Runs (writeAll fuel buf) file tr r file') :
    ∃ out, file' = file ++ out ∧ Wrote fuel buf tr r out := by
  induction fuel generalizing buf file tr with
  | zero =>
      cases buf with
      | nil =>
          obtain ⟨rfl, rfl, rfl⟩ := Env.runs_ret_iff.mp h
          exact ⟨[], (List.append_nil _).symm, List.prefix_rfl, by simp, by rintro ⟨⟩⟩
      | cons b bs =>
          obtain ⟨rfl, rfl, rfl⟩ := Env.runs_fail_iff.mp h
          exact ⟨[], (List.append_nil _).symm, wrote_failed (List.cons_ne_nil b bs) fun _ => rfl⟩
  | succ fuel ih =>
      cases buf with
      | nil =>
          obtain ⟨rfl, rfl, rfl⟩ := Env.runs_ret_iff.mp h
          exact ⟨[], (List.append_nil _).symm, List.prefix_rfl, by simp, by rintro ⟨⟩⟩
      | cons b bs =>
          obtain ⟨written, file₁, tr', hserve, hrest, rfl⟩ := sinkEnv_quiet.runs_ask_iff.mp h
          rcases written with (_ | source) | (_ | n)
          · obtain rfl : file₁ = file := hserve
            obtain ⟨out, rfl, hout⟩ := ih hrest
            refine ⟨out, rfl, hout.isPrefix, hout.ok_iff, fun hr => ?_⟩
            have hfuel := hout.outOfFuel hr
            rw [interruptions, List.countP_cons_of_pos rfl]
            exact Nat.succ_le_succ hfuel
          · obtain rfl : file₁ = file := hserve
            obtain ⟨rfl, rfl, rfl⟩ := Env.runs_fail_iff.mp hrest
            exact ⟨[], (List.append_nil _).symm, wrote_failed (List.cons_ne_nil b bs) (by rintro ⟨⟩)⟩
          · obtain ⟨-, rfl⟩ := hserve
            obtain ⟨rfl, rfl, rfl⟩ := Env.runs_fail_iff.mp hrest
            exact ⟨[], by simp, wrote_failed (List.cons_ne_nil b bs) (by rintro ⟨⟩)⟩
          · obtain ⟨hle, rfl⟩ := hserve
            obtain ⟨out, rfl, hout⟩ := ih hrest
            have hsplit := List.take_append_drop (n + 1) (b :: bs)
            refine ⟨(b :: bs).take (n + 1) ++ out, List.append_assoc _ _ _, ?_, ?_, fun hr => ?_⟩
            · conv_rhs => rw [← hsplit]
              exact (List.prefix_append_right_inj _).mpr hout.isPrefix
            · rw [hout.ok_iff]
              constructor
              · rintro rfl
                exact hsplit
              · exact fun hall => List.append_cancel_left (hall.trans hsplit.symm)
            · have hfuel := hout.outOfFuel hr
              rw [interruptions, List.countP_cons_of_neg (by simp [isInterrupted]), List.length_append,
                List.length_take_of_le hle]
              rw [interruptions] at hfuel
              omega

theorem Wrote.of_error {buf' out : List UInt8} {failure : WriteFailure}
    (h : Wrote fuel buf tr (.error failure) out) : Wrote fuel (buf ++ buf') tr (.error failure) out where
  isPrefix := h.isPrefix.trans (List.prefix_append buf buf')
  ok_iff := by
    refine iff_of_false (by rintro ⟨⟩) fun hout => ?_
    have hlen := h.isPrefix.length_le
    rw [hout, List.length_append] at hlen
    obtain rfl : buf' = [] := List.length_eq_zero_iff.mp (by omega)
    cases h.ok_iff.mpr (hout.trans (List.append_nil buf))
  outOfFuel := h.outOfFuel

theorem Wrote.append {buf' out out' : List UInt8} (h : Wrote fuel buf tr (.ok ()) out)
    (h' : Wrote fuel buf' tr' r out') : Wrote fuel (buf ++ buf') (tr ++ tr') r (out ++ out') := by
  obtain rfl := h.ok_iff.mp rfl
  refine ⟨(List.prefix_append_right_inj _).mpr h'.isPrefix, ?_, fun hr => ?_⟩
  · rw [h'.ok_iff, List.append_cancel_left_eq]
  · have hfuel := h'.outOfFuel hr
    rw [List.length_append, interruptions_append]
    omega

theorem runs_writeToSink {self : FileHeader} (h : sinkEnv.Runs (self.writeToSink fuel) file tr r file') :
    ∃ out, file' = file ++ out ∧ Wrote fuel (self.magic ++ LittleEndian.ofWord self.version) tr r out := by
  rcases Env.runs_bind_iff.mp h with ⟨failure, rfl, hmagic⟩ | ⟨_, file₁, t₁, t₂, hmagic, hversion, rfl⟩
  · obtain ⟨out, rfl, hout⟩ := runs_writeAll hmagic
    exact ⟨out, rfl, hout.of_error⟩
  · obtain ⟨out, rfl, hout⟩ := runs_writeAll hmagic
    obtain ⟨out', rfl, hout'⟩ := runs_writeAll hversion
    exact ⟨out ++ out', List.append_assoc _ _ _, hout.append hout'⟩

def FileHeader.fields (self : FileHeader) : List (String × List UInt8) :=
  [("file header magic", self.magic), ("file header version", LittleEndian.ofWord self.version)]

/-- The reader asks for the first field that was not written in full: all of it is needed, and what was
written of it remains. -/
def AsksForTornField {α : Type} (fields : List (String × List UInt8)) (out : List UInt8)
    (result : Except Error α) : Prop :=
  ∃ front context field back written, fields = front ++ (context, field) :: back ∧
    out = front.flatMap Prod.snd ++ written ∧ written <+: field ∧ written.length < field.length ∧
    result = .error (.unexpectedEof context field.length written.length)

theorem readFrom_of_cut {self : FileHeader} {out : List UInt8} {maxVersion : UInt64}
    (hfront : out <+: self.magic ++ LittleEndian.ofWord self.version)
    (hcut : out ≠ self.magic ++ LittleEndian.ofWord self.version) :
    AsksForTornField self.fields out (FileHeader.readFrom out self.magic maxVersion) := by
  unfold FileHeader.readFrom
  by_cases hmagic : out.length < self.magic.length
  · have hwritten : out <+: self.magic :=
      List.prefix_of_prefix_length_le hfront (List.prefix_append ..) hmagic.le
    exact ⟨[], _, _, _, out, rfl, rfl, hwritten, hmagic, by rw [if_pos hmagic]⟩
  · obtain ⟨bytes, rfl⟩ := List.prefix_of_prefix_length_le (List.prefix_append self.magic _) hfront
      (not_lt.mp hmagic)
    rw [List.prefix_append_right_inj] at hfront
    rw [Ne, List.append_cancel_left_eq] at hcut
    have hshort : bytes.length < (LittleEndian.ofWord self.version).length :=
      lt_of_le_of_ne hfront.length_le fun hlen => hcut (hfront.eq_of_length hlen)
    refine ⟨[_], _, _, [], bytes, rfl, by simp, hfront, hshort, ?_⟩
    rw [LittleEndian.ofWord_length] at hshort ⊢
    simp [u64Width, hshort]

/-- However the sink behaves, it holds a prefix of the header, all of it exactly if the write returned
`Ok`; the reader accepts what was written exactly then, and asks for the field that was torn where one
was. The write ends unless it is interrupted without end. -/
theorem writeToSink_torn (self : FileHeader) (maxVersion : UInt64) (hversion : self.version ≤ maxVersion)
    (fuel : ℕ) (file file' : List UInt8) (tr : List SinkCall) (r : Except WriteFailure Unit)
    (h : sinkEnv.Runs (self.writeToSink fuel) file tr r file') :
    ∃ out bytes, self.writeTo ([] : List UInt8) = .ok bytes ∧ file' = file ++ out ∧ out <+: bytes ∧
      (r = .ok () → out = bytes ∧
        FileHeader.readFrom out self.magic maxVersion = .ok (self.version, [])) ∧
      (r ≠ .ok () → out.length < bytes.length ∧
        AsksForTornField self.fields out (FileHeader.readFrom out self.magic maxVersion)) ∧
      (r = .error .outOfFuel → fuel < bytes.length + interruptions tr) := by
  obtain ⟨out, rfl, hout⟩ := runs_writeToSink h
  have hlt : r ≠ .ok () → out.length < (self.magic ++ LittleEndian.ofWord self.version).length :=
    fun hr => lt_of_le_of_ne hout.isPrefix.length_le fun hlen =>
      hr (hout.ok_iff.mpr (hout.isPrefix.eq_of_length hlen))
  refine ⟨out, _, rfl, rfl, hout.isPrefix, fun hr => ?_, fun hr => ?_, fun hr => ?_⟩
  · obtain rfl := hout.ok_iff.mp hr
    refine ⟨rfl, readFrom_ok_iff.mpr ?_⟩
    have hread := (headerDecoder_inverts self.magic maxVersion).readWrite [] hversion
    rwa [List.append_nil] at hread
  · exact ⟨hlt hr, readFrom_of_cut hout.isPrefix fun heq => hr (hout.ok_iff.mpr heq)⟩
  · have hfuel := hout.outOfFuel hr
    have hshort := hlt (by rw [hr]; rintro ⟨⟩)
    rw [List.nil_append]
    omega

/-- A sink that takes two bytes, is interrupted and is then full: two of the four bytes of the magic. -/
theorem writeToSink_torn_full :
    (∃ tr failure, sinkEnv.Runs (FileHeader.writeToSink 3 ⟨[75, 73, 84, 49], 2⟩) [] tr (.error failure)
      [75, 73]) ∧
    FileHeader.readFrom [75, 73] [75, 73, 84, 49] 3 =
      .error (.unexpectedEof "file header magic" 4 2) := by
  have hrun : sinkEnv.Runs (FileHeader.writeToSink 3 ⟨[75, 73, 84, 49], 2⟩) []
      [⟨[], .write [75, 73, 84, 49], .ok 2⟩, ⟨[75, 73], .write [84, 49], .error .interrupted⟩,
        ⟨[75, 73], .write [84, 49], .error (.failed (.os 28))⟩] (.error (.failed (.os 28))) [75, 73] :=
    .ask .refl ⟨by decide, rfl⟩ (.ask .refl rfl (.ask .refl rfl (.fail _ _)))
  obtain ⟨out, bytes, -, hout, -, -, htorn, -⟩ :=
    writeToSink_torn ⟨[75, 73, 84, 49], 2⟩ 3 (by decide) 3 _ _ _ _ hrun
  obtain rfl : out = [75, 73] := hout.symm
  obtain ⟨-, front, context, field, back, written, hfields, hwritten, -, -, hread⟩ :=
    htorn (by rintro ⟨⟩)
  refine ⟨⟨_, _, hrun⟩, ?_⟩
  rw [hread]
  cases front with
  | nil =>
      cases hfields
      cases hwritten
      rfl
  | cons first front =>
      obtain ⟨rfl, -⟩ := List.cons.inj hfields
      have hlen := congrArg List.length hwritten
      simp only [List.flatMap_cons, List.length_append, List.length_cons, List.length_nil] at hlen
      omega

/-! ### Truncated containers -/

theorem readSections_of_error {w : Width} {data : List UInt8} {error : Error} (hdata : data ≠ [])
    (h : readSection w data = .error error) : readSections w data = .error error := by
  rw [readSections, if_neg hdata]
  split
  · next h' =>
      cases h'.symm.trans h
      rfl
  · next h' => cases h'.symm.trans h

theorem readSections_of_rest {w : Width} {data payload rest : List UInt8} {error : Error}
    (h : readSection w data = .ok (payload, rest)) (hrest : readSections w rest = .error error) :
    readSections w data = .error error := by
  have hdata : data ≠ [] := by
    rintro rfl
    exact Nat.not_lt_zero _ (readSection_length_lt h)
  rw [readSections, if_neg hdata]
  split
  · next h' => cases h'.symm.trans h
  · next h' =>
      cases h'.symm.trans h
      rw [hrest]

/-- The reader runs out of input, by no more than `cut` bytes. -/
def AsksForRest {α : Type} (cut : ℕ) (result : Except Error α) : Prop :=
  ∃ context needed remaining, result = .error (.unexpectedEof context needed remaining) ∧
    remaining < needed ∧ needed - remaining ≤ cut

theorem AsksForRest.mono {α : Type} {cut cut' : ℕ} {result : Except Error α} (h : AsksForRest cut result)
    (hle : cut ≤ cut') : AsksForRest cut' result := by
  obtain ⟨context, needed, remaining, hresult, hlt, hcut⟩ := h
  exact ⟨context, needed, remaining, hresult, hlt, hcut.trans hle⟩

theorem readSection_of_cut {w : Width} {payload data more : List UInt8} (hfits : FitsSection w payload)
    (hcut : data ++ more = encodeSection payload) (hmore : more ≠ []) :
    AsksForRest more.length (readSection w data) := by
  obtain ⟨context, needed, remaining, hdata, hlt, hle⟩ :=
    (sectionDecoder_inverts w).short_of_cut (sectionDecoder_resumable w) hfits hcut hmore
  refine ⟨context, needed, remaining, ?_, hlt, hle⟩
  rw [readSection_eq_decoder, hdata]
  rfl

/-- Sections that were cut are the first sections, or the reader asks for the rest. -/
theorem readSections_of_cut {w : Width} {payloads : List (List UInt8)} {data more : List UInt8}
    (hfits : ∀ p ∈ payloads, FitsSection w p) (hcut : data ++ more = payloads.flatMap encodeSection) :
    (∃ k, data = (payloads.take k).flatMap encodeSection) ∨
      AsksForRest more.length (readSections w data) := by
  induction payloads generalizing data with
  | nil => exact .inl ⟨0, (List.append_eq_nil_iff.mp hcut).1⟩
  | cons p ps ih =>
      obtain ⟨hp, hps⟩ := List.forall_mem_cons.mp hfits
      rw [List.flatMap_cons] at hcut
      rcases List.append_eq_append_iff.mp hcut with ⟨mid, hsection, rfl⟩ | ⟨data', rfl, hrest⟩
      · -- the cut is inside the first section, or at one of its ends
        by_cases hmid : mid = []
        · rw [hmid, List.append_nil] at hsection
          exact .inl ⟨1, by simp [hsection]⟩
        by_cases hdata : data = []
        · exact .inl ⟨0, hdata⟩
        obtain ⟨context, needed, remaining, hread, hlt, hle⟩ := readSection_of_cut hp hsection.symm hmid
        refine .inr ⟨context, needed, remaining, readSections_of_error hdata hread, hlt, hle.trans ?_⟩
        rw [List.length_append]
        exact Nat.le_add_right _ _
      · have hread : readSection w (encodeSection p ++ data') = .ok (p, data') :=
          readSection_ok_iff.mpr ((sectionDecoder_inverts w).readWrite data' hp)
        rcases ih hps hrest.symm with ⟨k, rfl⟩ | ⟨context, needed, remaining, hsections, hlt, hle⟩
        · exact .inl ⟨k + 1, by rw [List.take_succ_cons, List.flatMap_cons]⟩
        · exact .inr ⟨context, needed, remaining, readSections_of_rest hread hsections, hlt, hle⟩

/-- A container that was cut is decoded as one with the first sections if it was cut behind a section,
and otherwise the reader asks for bytes that were cut. -/
theorem decodeContainer_of_cut (w : Width) (magic : List UInt8) (version maxVersion : UInt64)
    (payloads : List (List UInt8)) (hversion : version ≤ maxVersion)
    (hfits : ∀ p ∈ payloads, FitsSection w p) (data more : List UInt8)
    (hcut : encodeContainer magic version payloads = .ok (data ++ more)) :
    (∀ k, encodeContainer magic version (payloads.take k) = .ok data →
      decodeContainer w magic maxVersion data = .ok (version, payloads.take k)) ∧
    ((∀ k, encodeContainer magic version (payloads.take k) ≠ .ok data) →
      AsksForRest more.length (decodeContainer w magic maxVersion data)) := by
  constructor
  · intro k hk
    exact decodeContainer_eq_ok_iff.mpr ⟨⟨hversion, fun p hp => hfits p (List.mem_of_mem_take hp)⟩, hk⟩
  intro hinside
  have hbytes : (magic ++ LittleEndian.ofWord version) ++ payloads.flatMap encodeSection = data ++ more :=
    Except.ok.inj hcut
  have hheader := headerDecoder_inverts magic maxVersion
  rcases List.append_eq_append_iff.mp hbytes with ⟨sections, rfl, hsections⟩ | ⟨mid, hmid, rfl⟩
  · -- the header is whole
    have hread : FileHeader.readFrom (magic ++ LittleEndian.ofWord version ++ sections) magic maxVersion =
        .ok (version, sections) := readFrom_ok_iff.mpr (hheader.readWrite sections hversion)
    rcases readSections_of_cut hfits hsections.symm with ⟨k, rfl⟩ | ⟨context, needed, remaining, hrest, hle⟩
    · exact absurd rfl (hinside k)
    · refine ⟨context, needed, remaining, ?_, hle⟩
      unfold decodeContainer
      rw [hread]
      dsimp only [bind, Except.bind]
      rw [hrest]
  · have hne : mid ≠ [] := by
      rintro rfl
      rw [List.append_nil] at hmid
      refine hinside 0 (congrArg Except.ok ?_)
      rw [List.take_zero, List.flatMap_nil, List.append_nil]
      exact hmid
    obtain ⟨context, needed, remaining, hread, hlt, hle⟩ :=
      hheader.short_of_cut (headerDecoder_resumable magic maxVersion) hversion hmid.symm hne
    refine ⟨context, needed, remaining, ?_, hlt, hle.trans ?_⟩
    · unfold decodeContainer
      rw [readFrom_eq_decoder, hread]
      rfl
    · rw [List.length_append]
      exact Nat.le_add_right _ _

/-- A container of two sections that lost its second one. -/
theorem decodeContainer_of_cut_lost : ∃ bytes, encodeContainer [75] 1 [[7]] = .ok bytes ∧
    decodeContainer .w64 [75] 1 bytes = .ok (1, [[7]]) :=
  ⟨_, rfl, (decodeContainer_of_cut .w64 [75] 1 1 [[7], [8, 9]] (by decide)
    (by unfold FitsSection; decide) _ (encodeSection [8, 9]) rfl).1 1 rfl⟩

end KernelKit.Binformat
