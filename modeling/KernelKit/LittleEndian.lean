import Mathlib.Data.Nat.Digits.Lemmas

/-!
# Little-endian bytes of fixed width

A number below `256 ^ k` is written as its `k` base-256 digits, least significant first. Mathlib's
`Nat.digitsAppend` and `Nat.ofDigits` are the two directions; here they are carried to `UInt8`
and to 64-bit words.
-/

namespace LittleEndian

def toBytes (k n : ℕ) : List UInt8 := (Nat.digitsAppend 256 k n).map UInt8.ofNat

def ofBytes (bytes : List UInt8) : ℕ := Nat.ofDigits 256 (bytes.map UInt8.toNat)

theorem toBytes_length {k n : ℕ} (h : n < 256 ^ k) : (toBytes k n).length = k := by
  rw [toBytes, List.length_map, Nat.length_digitsAppend (by norm_num) k h]

theorem map_toNat_lt (bytes : List UInt8) : ∀ d ∈ bytes.map UInt8.toNat, d < 256 := by
  intro d hd
  obtain ⟨b, _, rfl⟩ := List.mem_map.mp hd
  exact b.toNat_lt

theorem ofBytes_lt (bytes : List UInt8) : ofBytes bytes < 256 ^ bytes.length := by
  have h := Nat.ofDigits_lt_base_pow_length (by norm_num) (map_toNat_lt bytes)
  rwa [List.length_map] at h

theorem map_toNat_ofNat {l : List ℕ} (h : ∀ d ∈ l, d < 256) :
    (l.map UInt8.ofNat).map UInt8.toNat = l := by
  rw [List.map_map]
  conv_rhs => rw [← List.map_id l]
  apply List.map_congr_left
  intro d hd
  simp only [Function.comp_apply, UInt8.toNat_ofNat', id_eq]
  exact Nat.mod_eq_of_lt (h d hd)

theorem ofBytes_toBytes {k n : ℕ} (h : n < 256 ^ k) : ofBytes (toBytes k n) = n := by
  rw [ofBytes, toBytes, map_toNat_ofNat (fun d hd => Nat.lt_of_mem_digitsAppend (by norm_num) k d hd)]
  exact (Nat.setInvOn_digitsAppend_ofDigits (by norm_num) k).2 h

theorem toBytes_ofBytes (bytes : List UInt8) : toBytes bytes.length (ofBytes bytes) = bytes := by
  have h := (Nat.setInvOn_digitsAppend_ofDigits (b := 256) (by norm_num) bytes.length).1
    (show bytes.map UInt8.toNat ∈ _ from ⟨List.length_map _, map_toNat_lt bytes⟩)
  rw [toBytes, ofBytes, h, List.map_map]
  exact List.map_id'' (fun b => UInt8.ofNat_toNat) bytes

/-- `u64::to_le_bytes`. -/
def ofWord (v : UInt64) : List UInt8 := toBytes 8 v.toNat

def toWord (bytes : List UInt8) : UInt64 := UInt64.ofNat (ofBytes bytes)

@[simp] theorem ofWord_length (v : UInt64) : (ofWord v).length = 8 := toBytes_length v.toNat_lt

@[simp] theorem toWord_ofWord (v : UInt64) : toWord (ofWord v) = v := by
  rw [toWord, ofWord, ofBytes_toBytes v.toNat_lt, UInt64.ofNat_toNat]

theorem ofWord_toWord {bytes : List UInt8} (h : bytes.length = 8) : ofWord (toWord bytes) = bytes := by
  have hlt := ofBytes_lt bytes
  rw [h] at hlt
  rw [ofWord, toWord, UInt64.toNat_ofNat', Nat.mod_eq_of_lt (hlt.trans_le (by norm_num)), ← h,
    toBytes_ofBytes]

theorem toWord_eq_iff {bytes : List UInt8} (h : bytes.length = 8) (v : UInt64) :
    toWord bytes = v ↔ ofWord v = bytes := by
  constructor
  · rintro rfl
    exact ofWord_toWord h
  · rintro rfl
    exact toWord_ofWord v

end LittleEndian
