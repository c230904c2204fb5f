import KernelKit.Error
import KernelKit.Decoding
import KernelKit.LittleEndian

/-!
# Binary headers and length-prefixed sections

`FileHeader.writeTo`, `FileHeader.readFrom` and `readSection` follow `binformat.rs` check by check.
Each reader is then shown to be a sequence of exact reads and checks, from which the laws of
sequential decoders apply to it: it accepts exactly what the writer writes, and an outcome
changes under a growing buffer only by what was missing.
-/

namespace KernelKit.Binformat
open Decoding

/-- `std::io::Write`, as far as the header uses it. -/
class Write (σ : Type) where
  writeAll : σ → List UInt8 → Except IoError σ

instance : Write (List UInt8) where
  writeAll w bytes := .ok (w ++ bytes)

def u64Width : ℕ := 8

/-- `u64::from_le_bytes(bytes.try_into().unwrap_or([0; 8]))`. -/
def fromLeSlice (bytes : List UInt8) : UInt64 :=
  LittleEndian.toWord (if bytes.length = u64Width then bytes else List.replicate u64Width 0)

structure FileHeader where
  magic : List UInt8
  version : UInt64
  deriving DecidableEq, Repr

def FileHeader.writeTo {σ : Type} [Write σ] (self : FileHeader) (w : σ) : Except IoError σ := do
  let w ← Write.writeAll w self.magic
  Write.writeAll w (LittleEndian.ofWord self.version)

def FileHeader.readFrom (data expectedMagic : List UInt8) (maxVersion : UInt64) :
    Except Error (UInt64 × List UInt8) :=
  if data.length < expectedMagic.length then
    .error (.unexpectedEof "file header magic" expectedMagic.length data.length)
  else
    let (actualMagic, afterMagic) := data.splitAt expectedMagic.length
    if actualMagic ≠ expectedMagic then
      .error .invalidMagic
    else if afterMagic.length < u64Width then
      .error (.unexpectedEof "file header version" u64Width afterMagic.length)
    else
      let (versionBytes, rest) := afterMagic.splitAt u64Width
      let version := fromLeSlice versionBytes
      if version > maxVersion then
        .error (.unsupportedVersion version maxVersion)
      else
        .ok (version, rest)

def readSection (w : Width) (data : List UInt8) : Except Error (List UInt8 × List UInt8) :=
  if data.length < u64Width then
    .error (.unexpectedEof "section length" u64Width data.length)
  else
    let (lengthBytes, afterLength) := data.splitAt u64Width
    let declaredLen := fromLeSlice lengthBytes
    match w.usizeTryFrom declaredLen with
    | none => .error (.sectionTooLarge declaredLen)
    | some payloadLen =>
      if afterLength.length < payloadLen then
        .error (.unexpectedEof "section payload" payloadLen afterLength.length)
      else
        .ok (afterLength.splitAt payloadLen)

theorem fromLeSlice_eq_iff {bytes : List UInt8} (h : bytes.length = u64Width) (v : UInt64) :
    fromLeSlice bytes = v ↔ LittleEndian.ofWord v = bytes := by
  rw [fromLeSlice, if_pos h]
  exact LittleEndian.toWord_eq_iff h v

/-! ### The readers as sequences of reads and checks -/

def magicCheck (expectedMagic actualMagic : List UInt8) : Except Error Unit :=
  if actualMagic ≠ expectedMagic then .error .invalidMagic else .ok ()

def versionCheck (maxVersion : UInt64) (bytes : List UInt8) : Except Error UInt64 :=
  if fromLeSlice bytes > maxVersion then .error (.unsupportedVersion (fromLeSlice bytes) maxVersion)
  else .ok (fromLeSlice bytes)

def lengthCheck (w : Width) (bytes : List UInt8) : Except Error ℕ :=
  match w.usizeTryFrom (fromLeSlice bytes) with
  | none => .error (.sectionTooLarge (fromLeSlice bytes))
  | some n => .ok n

def versionDecoder (maxVersion : UInt64) : Decoder UInt8 String Error UInt64 :=
  (take u64Width "file header version").bind fun bytes => check (versionCheck maxVersion bytes)

def headerDecoder (magic : List UInt8) (maxVersion : UInt64) :
    Decoder UInt8 String Error UInt64 :=
  (take magic.length "file header magic").bind fun actual =>
    (check (magicCheck magic actual)).bind fun _ => versionDecoder maxVersion

def lengthDecoder (w : Width) : Decoder UInt8 String Error ℕ :=
  (take u64Width "section length").bind fun bytes => check (lengthCheck w bytes)

def sectionDecoder (w : Width) : Decoder UInt8 String Error (List UInt8) :=
  (lengthDecoder w).bind fun n => take n "section payload"

theorem readFrom_eq_decoder (data magic : List UInt8) (maxVersion : UInt64) :
    FileHeader.readFrom data magic maxVersion =
      (headerDecoder magic maxVersion data).toExcept Error.unexpectedEof := by
  unfold FileHeader.readFrom headerDecoder versionDecoder
  by_cases hm : data.length < magic.length
  · simp only [Decoder.bind, take, if_pos hm, Outcome.toExcept]
  by_cases hmagic : data.take magic.length = magic
  · by_cases hv : (data.drop magic.length).length < u64Width
    · simp only [Decoder.bind, take, check, magicCheck, if_neg hm, List.splitAt_eq, hmagic, hv,
        ne_eq, not_true_eq_false, if_true, if_false, Outcome.toExcept]
    · simp only [Decoder.bind, take, check, magicCheck, versionCheck, if_neg hm, List.splitAt_eq,
        hmagic, if_neg hv, ne_eq, not_true_eq_false, if_false]
      split_ifs <;> rfl
  · simp only [Decoder.bind, take, check, magicCheck, if_neg hm, List.splitAt_eq, ne_eq, hmagic,
      not_false_eq_true, if_true, Outcome.toExcept]

theorem readSection_eq_decoder (w : Width) (data : List UInt8) :
    readSection w data = (sectionDecoder w data).toExcept Error.unexpectedEof := by
  unfold readSection sectionDecoder lengthDecoder
  by_cases hl : data.length < u64Width
  · simp only [Decoder.bind, take, if_pos hl, Outcome.toExcept]
  · cases hn : w.usizeTryFrom (fromLeSlice (data.take u64Width)) with
    | none =>
        simp only [Decoder.bind, take, check, lengthCheck, if_neg hl, List.splitAt_eq, hn,
          Outcome.toExcept]
    | some n =>
        simp only [Decoder.bind, take, check, lengthCheck, if_neg hl, List.splitAt_eq, hn]
        split_ifs <;> rfl

end KernelKit.Binformat
