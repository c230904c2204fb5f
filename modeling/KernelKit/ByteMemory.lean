import Mathlib.Data.List.Basic
import Mathlib.Tactic.SplitIfs

/-!
# Arrays in a flat byte memory

A memory gives every address a byte. `store` and `load` move runs of bytes, a `Codec` turns values into
runs of one size, and `readArray` reads the values that lie one behind the other from a base address.
A store of an encoded value into one place of an array changes that element and no other.
`ArrayOps.results` runs a sequence of accesses on any representation of an array, and
`ArrayOps.results_eq` compares two representations.
-/

namespace ByteMemory

abbrev Memory := ℕ → UInt8

def store (mem : Memory) (addr : ℕ) (bytes : List UInt8) : Memory := fun x =>
  if addr ≤ x then bytes[x - addr]?.getD (mem x) else mem x

def load (mem : Memory) (addr size : ℕ) : List UInt8 := (List.range size).map fun i => mem (addr + i)

variable {mem mem' : Memory} {addr size : ℕ}

theorem load_congr (h : ∀ i < size, mem (addr + i) = mem' (addr + i)) :
    load mem addr size = load mem' addr size :=
  List.map_congr_left fun i hi => h i (List.mem_range.mp hi)

theorem store_outside {bytes : List UInt8} {x : ℕ} (h : x < addr ∨ addr + bytes.length ≤ x) :
    store mem addr bytes x = mem x := by
  unfold store
  split_ifs with hle
  · rw [List.getElem?_eq_none (by omega), Option.getD_none]
  · rfl

theorem load_store (mem : Memory) (addr : ℕ) (bytes : List UInt8) :
    load (store mem addr bytes) addr bytes.length = bytes := by
  refine List.ext_getElem (by simp [load]) fun i hi hi' => ?_
  simp [load, store, hi']

structure Codec (T : Type*) (size : ℕ) where
  encode : T → List UInt8
  decode : List UInt8 → T
  length_encode : ∀ value, (encode value).length = size
  decode_encode : ∀ value, decode (encode value) = value

variable {T : Type*} (codec : Codec T size)

def readValue (mem : Memory) (addr : ℕ) : T := codec.decode (load mem addr size)

def readArray (mem : Memory) (base count : ℕ) : List T :=
  (List.range count).map fun i => readValue codec mem (base + i * size)

variable {codec} {base count index : ℕ} {value : T}

@[simp] theorem length_readArray : (readArray codec mem base count).length = count := by
  simp [readArray]

theorem getElem?_readArray (h : index < count) :
    (readArray codec mem base count)[index]? = some (readValue codec mem (base + index * size)) := by
  simp [readArray, h]

theorem readArray_succ : readArray codec mem base (count + 1) =
    readArray codec mem base count ++ [readValue codec mem (base + count * size)] := by
  rw [readArray, List.range_succ, List.map_append, List.map_singleton, readArray]

theorem place_end_le {other : ℕ} (h : index < other) : index * size + size ≤ other * size := by
  have hle : (index + 1) * size ≤ other * size := Nat.mul_le_mul_right _ h
  rwa [Nat.add_mul, Nat.one_mul] at hle

theorem readArray_congr (h : ∀ x, base ≤ x → x < base + count * size → mem x = mem' x) :
    readArray codec mem base count = readArray codec mem' base count := by
  refine List.map_congr_left fun i hi => ?_
  have hlast : i * size + size ≤ count * size := place_end_le (List.mem_range.mp hi)
  rw [readValue, readValue, load_congr fun j hj => h _ (by omega) (by omega)]

theorem readValue_store : readValue codec (store mem addr (codec.encode value)) addr = value := by
  have hload := load_store mem addr (codec.encode value)
  rw [codec.length_encode] at hload
  rw [readValue, hload, codec.decode_encode]

theorem readValue_store_of_ne {other : ℕ} (h : index ≠ other) :
    readValue codec (store mem (base + index * size) (codec.encode value)) (base + other * size) =
      readValue codec mem (base + other * size) := by
  refine congrArg codec.decode (load_congr fun j hj => store_outside ?_)
  rw [codec.length_encode]
  rcases Nat.lt_or_gt_of_ne h with hlt | hgt
  · have hle : index * size + size ≤ other * size := place_end_le hlt
    omega
  · have hle : other * size + size ≤ index * size := place_end_le hgt
    omega

theorem readArray_store :
    readArray codec (store mem (base + index * size) (codec.encode value)) base count =
      (readArray codec mem base count).set index value := by
  refine List.ext_getElem (by simp) fun i hi _ => ?_
  rw [length_readArray] at hi
  rw [List.getElem_set]
  split_ifs with heq
  · subst heq
    simp [readArray, readValue_store]
  · simp [readArray, readValue_store_of_ne heq]

/-- A store behind the array leaves it, and one right behind it extends it. -/
theorem readArray_store_end :
    readArray codec (store mem (base + count * size) (codec.encode value)) base (count + 1) =
      readArray codec mem base count ++ [value] := by
  rw [readArray_succ, readValue_store]
  refine congrArg (· ++ [value]) (readArray_congr fun x _ hx => store_outside (.inl hx))

/-! ### Sequences of accesses -/

inductive Access (T : Type*)
  | read (index : ℕ)
  | write (index : ℕ) (value : T)

inductive AccessResult (T : Type*)
  | value (value : T)
  | written
  | outOfBounds
  deriving DecidableEq

/-- A representation `S` of arrays; an access fails if its index is out of bounds. -/
structure ArrayOps (S T : Type*) where
  read : S → ℕ → Option T
  write : S → ℕ → T → Option S

def plainArray (T : Type*) : ArrayOps (List T) T where
  read values index := values[index]?
  write values index value := if index < values.length then some (values.set index value) else none

namespace ArrayOps

variable {S S' T : Type*}

def perform (A : ArrayOps S T) (s : S) : Access T → S × AccessResult T
  | .read index =>
    match A.read s index with
    | some value => (s, .value value)
    | none => (s, .outOfBounds)
  | .write index value =>
    match A.write s index value with
    | some s' => (s', .written)
    | none => (s, .outOfBounds)

def results (A : ArrayOps S T) : S → List (Access T) → List (AccessResult T)
  | _, [] => []
  | s, access :: accesses => (A.perform s access).2 :: A.results (A.perform s access).1 accesses

variable {A : ArrayOps S T} {B : ArrayOps S' T} {R : S → S' → Prop}

theorem perform_rel (hread : ∀ s s' index, R s s' → A.read s index = B.read s' index)
    (hwrite : ∀ s s' index value, R s s' →
      Option.Rel R (A.write s index value) (B.write s' index value))
    {s : S} {s' : S'} (h : R s s') (access : Access T) :
    R (A.perform s access).1 (B.perform s' access).1 ∧
      (A.perform s access).2 = (B.perform s' access).2 := by
  cases access with
  | read index =>
      simp only [perform, hread s s' index h]
      cases B.read s' index with
      | none | some => exact ⟨h, rfl⟩
  | write index value =>
      have hrel := hwrite s s' index value h
      simp only [perform]
      generalize A.write s index value = written at hrel ⊢
      generalize B.write s' index value = written' at hrel ⊢
      cases hrel with
      | none => exact ⟨h, rfl⟩
      | some hR => exact ⟨hR, rfl⟩

/-- Representations related by `R` give the same results, if reads give the same values on related
states and writes keep them related. -/
theorem results_eq (hread : ∀ s s' index, R s s' → A.read s index = B.read s' index)
    (hwrite : ∀ s s' index value, R s s' →
      Option.Rel R (A.write s index value) (B.write s' index value))
    {s : S} {s' : S'} (h : R s s') (accesses : List (Access T)) :
    A.results s accesses = B.results s' accesses := by
  induction accesses generalizing s s' with
  | nil => rfl
  | cons access accesses ih =>
      obtain ⟨hnext, hresult⟩ := perform_rel hread hwrite h access
      rw [results, results, hresult, ih hnext]

end ArrayOps

end ByteMemory
