import KernelKit.Binformat

/-!
# Decoding a growing buffer

A caller that reads from a stream decodes what it has and retries when more has arrived. `ResumesOn`
is what makes that sound for a reader returning `Result`: a success and a rejection survive every
continuation, and an `UnexpectedEof` tells exactly how many bytes are missing at that place.
-/

namespace KernelKit.Binformat
open Decoding

variable {α : Type}

/-- How a reader's result on `data` determines its result on `data ++ more`. -/
structure ResumesOn (read : List UInt8 → Except Error (α × List UInt8)) : Prop where
  ok : ∀ {data value rest} (more : List UInt8), read data = .ok (value, rest) →
    read (data ++ more) = .ok (value, rest ++ more)
  lacking : ∀ {data context needed remaining},
    read data = .error (.unexpectedEof context needed remaining) → remaining < needed
  short : ∀ {data context needed remaining} (more : List UInt8),
    read data = .error (.unexpectedEof context needed remaining) →
    more.length < needed - remaining →
    read (data ++ more) = .error (.unexpectedEof context needed (remaining + more.length))
  enough : ∀ {data context needed remaining} (more : List UInt8),
    read data = .error (.unexpectedEof context needed remaining) →
    needed - remaining ≤ more.length →
    ∀ n r, read (data ++ more) ≠ .error (.unexpectedEof context n r)
  rejected : ∀ {data e} (more : List UInt8), read data = .error e →
    (∀ context n r, e ≠ .unexpectedEof context n r) → read (data ++ more) = .error e

theorem toExcept_eq_ok {o : Outcome UInt8 String Error α} {value : α} {rest : List UInt8} :
    o.toExcept Error.unexpectedEof = .ok (value, rest) ↔ o = .done value rest := by
  cases o <;> simp [Outcome.toExcept]

/-- The checks of a reader never pose as an end of input. -/
def PlainRejects (p : Decoder UInt8 String Error α) : Prop :=
  ∀ data e, p data = .reject e → ∀ context n r, e ≠ .unexpectedEof context n r

theorem toExcept_eq_eof {p : Decoder UInt8 String Error α} (hp : PlainRejects p)
    {data : List UInt8} {context : String} {n r : ℕ} :
    (p data).toExcept Error.unexpectedEof = .error (.unexpectedEof context n r) ↔
      p data = .short context n r := by
  cases h : p data with
  | done value rest => simp [Outcome.toExcept]
  | short c' n' r' => simp [Outcome.toExcept]
  | reject e =>
      simp only [Outcome.toExcept, Except.error.injEq, reduceCtorEq, iff_false]
      exact hp data e h context n r

theorem resumesOn_of_decoder {p : Decoder UInt8 String Error α} (hp : Resumable p)
    (hplain : PlainRejects p) :
    ResumesOn (fun data => (p data).toExcept Error.unexpectedEof) where
  ok more h := toExcept_eq_ok.mpr (hp.done more (toExcept_eq_ok.mp h))
  lacking h := hp.lacking ((toExcept_eq_eof hplain).mp h)
  short more h hlt := (toExcept_eq_eof hplain).mpr (hp.short more ((toExcept_eq_eof hplain).mp h) hlt)
  enough more h hle n r h' :=
    hp.enough more ((toExcept_eq_eof hplain).mp h) hle n r ((toExcept_eq_eof hplain).mp h')
  rejected {data e} more h hne := by
    cases hd : p data with
    | done value rest => simp [hd, Outcome.toExcept] at h
    | short c n r =>
        simp only [hd, Outcome.toExcept, Except.error.injEq] at h
        exact absurd h.symm (hne c n r)
    | reject e' =>
        simp only [hd, Outcome.toExcept, Except.error.injEq] at h
        subst h
        simp only [hp.reject more hd, Outcome.toExcept]

theorem plainRejects_take (n : ℕ) (c : String) : PlainRejects (take n c) :=
  fun _ _ h => (take_ne_reject h).elim

theorem plainRejects_check {v : Except Error α}
    (h : ∀ e, v = .error e → ∀ c n r, e ≠ .unexpectedEof c n r) : PlainRejects (check v) := by
  intro data e hd
  cases v with
  | ok a => cases hd
  | error e' =>
      simp only [check, Outcome.reject.injEq] at hd
      subst hd
      exact h e' rfl

theorem PlainRejects.bind {β : Type} {p : Decoder UInt8 String Error α}
    {f : α → Decoder UInt8 String Error β} (hp : PlainRejects p) (hf : ∀ a, PlainRejects (f a)) :
    PlainRejects (p.bind f) := by
  intro data e h
  rcases bind_reject h with hd | ⟨a, mid, _, hd⟩
  · exact hp data e hd
  · exact hf a mid e hd

theorem magicCheck_error {magic actual : List UInt8} {e : Error}
    (h : magicCheck magic actual = .error e) : e = .invalidMagic := by
  unfold magicCheck at h
  split_ifs at h
  exact (Except.error.inj h).symm

theorem versionCheck_error {maxVersion : UInt64} {bytes : List UInt8} {e : Error}
    (h : versionCheck maxVersion bytes = .error e) :
    e = .unsupportedVersion (fromLeSlice bytes) maxVersion := by
  unfold versionCheck at h
  split_ifs at h
  exact (Except.error.inj h).symm

theorem lengthCheck_error {w : Width} {bytes : List UInt8} {e : Error}
    (h : lengthCheck w bytes = .error e) : e = .sectionTooLarge (fromLeSlice bytes) := by
  unfold lengthCheck at h
  split at h
  · exact (Except.error.inj h).symm
  · cases h

theorem versionDecoder_plainRejects (maxVersion : UInt64) :
    PlainRejects (versionDecoder maxVersion) := by
  refine (plainRejects_take _ _).bind (fun bytes => plainRejects_check ?_)
  rintro e he c n r rfl
  cases versionCheck_error he

theorem headerDecoder_plainRejects (magic : List UInt8) (maxVersion : UInt64) :
    PlainRejects (headerDecoder magic maxVersion) := by
  refine (plainRejects_take _ _).bind (fun actual =>
    (plainRejects_check ?_).bind (fun _ => versionDecoder_plainRejects maxVersion))
  rintro e he c n r rfl
  cases magicCheck_error he

theorem sectionDecoder_plainRejects (w : Width) : PlainRejects (sectionDecoder w) := by
  refine ((plainRejects_take _ _).bind (fun bytes => plainRejects_check ?_)).bind
    (fun n => plainRejects_take n _)
  rintro e he c n r rfl
  cases lengthCheck_error he

theorem reports_versionDecoder {maxVersion : UInt64} {c : String}
    (h : Reports (versionDecoder maxVersion) c) : c = "file header version" := by
  rcases reports_bind h with ht | ⟨bytes, hc⟩
  · exact reports_take ht
  · exact (not_reports_check _ _ hc).elim

theorem versionDecoder_resumable (maxVersion : UInt64) : Resumable (versionDecoder maxVersion) :=
  (take_resumable _ _).bind (fun _ => check_resumable _)
    (fun _ _ _ => not_reports_check _ _)

theorem headerDecoder_resumable (magic : List UInt8) (maxVersion : UInt64) :
    Resumable (headerDecoder magic maxVersion) := by
  refine (take_resumable _ _).bind (fun actual => (check_resumable _).bind
    (fun _ => versionDecoder_resumable maxVersion) ?_) ?_
  · intro c hc
    exact (not_reports_check _ _ hc).elim
  · intro c hc actual hf
    have hmagic := reports_take hc
    rcases reports_bind hf with hcheck | ⟨_, hv⟩
    · exact not_reports_check _ _ hcheck
    · rw [reports_versionDecoder hv] at hmagic
      simp at hmagic

theorem lengthDecoder_resumable (w : Width) : Resumable (lengthDecoder w) :=
  (take_resumable _ _).bind (fun _ => check_resumable _) (fun _ _ _ => not_reports_check _ _)

theorem sectionDecoder_resumable (w : Width) : Resumable (sectionDecoder w) := by
  refine (lengthDecoder_resumable w).bind (fun n => take_resumable n _) ?_
  intro c hc n hf
  have hpayload := reports_take hf
  rcases reports_bind hc with ht | ⟨bytes, hcheck⟩
  · rw [reports_take ht] at hpayload
    simp at hpayload
  · exact not_reports_check _ _ hcheck

/-- Both readers can be resumed: what they return on a buffer, and what they say is missing from
it, is consistent with every longer buffer. -/
theorem readers_resumesOn (w : Width) (magic : List UInt8) (maxVersion : UInt64) :
    ResumesOn (readSection w) ∧
      ResumesOn (fun data => FileHeader.readFrom data magic maxVersion) := by
  constructor
  · rw [show readSection w = _ from funext (readSection_eq_decoder w)]
    exact resumesOn_of_decoder (sectionDecoder_resumable w) (sectionDecoder_plainRejects w)
  · rw [show (fun data => FileHeader.readFrom data magic maxVersion) = _ from
      funext (fun data => readFrom_eq_decoder data magic maxVersion)]
    exact resumesOn_of_decoder (headerDecoder_resumable magic maxVersion)
      (headerDecoder_plainRejects magic maxVersion)

end KernelKit.Binformat
