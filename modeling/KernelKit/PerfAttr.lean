import KernelKit.Error
import KernelKit.LittleEndian
import Mathlib.Data.Vector.Basic

/-!
# The attribute handed to `perf_event_open`

`PerfEventAttr` is a C structure in the byte order of the machine, and longer than the structure of many
kernels. A kernel that knows fewer bytes takes the longer one as long as the bytes it does not know are
zero, and one that knows more fills up with zeros. All of them see the event the counter stands for.
-/

namespace KernelKit.Perf
open LittleEndian

inductive ByteOrder
  | little
  | big
  deriving DecidableEq, Repr

def ByteOrder.store : ByteOrder → ℕ → ℕ → List UInt8
  | .little, k, n => toBytes k n
  | .big, k, n => (toBytes k n).reverse

def ByteOrder.load : ByteOrder → List UInt8 → ℕ
  | .little, bytes => ofBytes bytes
  | .big, bytes => ofBytes bytes.reverse

variable {order : ByteOrder}

theorem ByteOrder.store_length {k n : ℕ} (h : n < 256 ^ k) : (order.store k n).length = k := by
  cases order with
  | little => exact toBytes_length h
  | big => exact (List.length_reverse ..).trans (toBytes_length h)

theorem ByteOrder.load_store {k n : ℕ} (h : n < 256 ^ k) : order.load (order.store k n) = n := by
  cases order with
  | little => exact ofBytes_toBytes h
  | big =>
      rw [ByteOrder.store, ByteOrder.load, List.reverse_reverse]
      exact ofBytes_toBytes h

inductive HwCounter
  | cycles
  | instructions
  | cacheMisses
  | branchMisses
  deriving DecidableEq, Repr

def HwCounter.config : HwCounter → UInt64
  | .cycles => 0
  | .instructions => 1
  | .cacheMisses => 3
  | .branchMisses => 5

structure PerfEventAttr where
  type : UInt32
  size : UInt32
  config : UInt64
  rest : List.Vector UInt8 120

/-- `size_of::<PerfEventAttr>()`, which is more than the 128 bytes the source comments on. -/
def PerfEventAttr.sizeOf : ℕ := 4 + 4 + 8 + 120

def PerfEventAttr.zeroed : PerfEventAttr := ⟨0, 0, 0, .replicate 120 0⟩

def HwCounter.attr (counter : HwCounter) : PerfEventAttr :=
  { PerfEventAttr.zeroed with
    type := 0
    size := .ofNat ((u32TryFrom PerfEventAttr.sizeOf).getD 128)
    config := counter.config }

def PerfEventAttr.image (order : ByteOrder) (attr : PerfEventAttr) : List UInt8 :=
  order.store 4 attr.type.toNat ++ order.store 4 attr.size.toNat ++ order.store 8 attr.config.toNat ++
    attr.rest.toList

/-! ### The kernel's copy -/

/-- `PERF_ATTR_SIZE_VER0`, the least size a kernel takes. -/
def attrSizeVer0 : ℕ := 64

structure PerfHost where
  order : ByteOrder
  pageSize : ℕ
  known : ℕ
  sizeOf_le_pageSize : PerfEventAttr.sizeOf ≤ pageSize
  ver0_le_known : attrSizeVer0 ≤ known

/-- `perf_copy_attr`: the size is read first, and a size of zero stands for the first version. Bytes the
kernel does not know have to be zero, and bytes it was not given are. -/
def PerfHost.copyAttr (host : PerfHost) (image : List UInt8) : Option (List UInt8) :=
  let given := host.order.load ((image.drop 4).take 4)
  let size := if given = 0 then attrSizeVer0 else given
  if size < attrSizeVer0 ∨ host.pageSize < size ∨ image.length < size then none
  else if ((image.take size).drop host.known).all (· = 0) then
    some (image.take (min size host.known) ++ List.replicate (host.known - size) 0)
  else none

structure PerfEvent where
  type : ℕ
  config : ℕ
  rest : List UInt8
  pid : ℤ
  cpu : ℤ
  groupFd : ℤ
  flags : ℕ
  deriving DecidableEq

def PerfHost.event (host : PerfHost) (attr : List UInt8) (pid cpu groupFd : ℤ) (flags : ℕ) : PerfEvent :=
  ⟨host.order.load (attr.take 4), host.order.load ((attr.drop 8).take 8), attr.drop 16, pid, cpu, groupFd,
    flags⟩

/-- `PERF_TYPE_HARDWARE` and the counter's event, on the calling thread and any cpu, in no group and
without flags. The other fields are zero: the event is enabled, and counts the user's and the kernel's
code. -/
def PerfHost.hardware (host : PerfHost) (counter : HwCounter) : PerfEvent :=
  ⟨0, counter.config.toNat, List.replicate (host.known - 16) 0, 0, -1, -1, 0⟩

variable {host : PerfHost} {counter : HwCounter}

theorem attr_size (counter : HwCounter) : counter.attr.size.toNat = PerfEventAttr.sizeOf := by
  cases counter <;> rfl

/-- The attribute in memory: its first three fields, and zeros. -/
theorem image_attr (order : ByteOrder) (counter : HwCounter) :
    counter.attr.image order = order.store 4 0 ++ (order.store 4 136 ++
      (order.store 8 counter.config.toNat ++
      List.replicate 120 0)) := by
  simp only [PerfEventAttr.image, attr_size, List.append_assoc]
  rfl

theorem fields_of_image {type size config : ℕ} {image rest : List UInt8} (htype : type < 256 ^ 4)
    (hsize : size < 256 ^ 4) (hconfig : config < 256 ^ 8)
    (himage : image = order.store 4 type ++ (order.store 4 size ++ (order.store 8 config ++ rest))) :
    order.load (image.take 4) = type ∧ order.load ((image.drop 4).take 4) = size ∧
      order.load ((image.drop 8).take 8) = config ∧ image.drop 16 = rest := by
  have htypeLength : (order.store 4 type).length = 4 := order.store_length htype
  have hsizeLength : (order.store 4 size).length = 4 := order.store_length hsize
  have hconfigLength : (order.store 8 config).length = 8 := order.store_length hconfig
  have hdrop₄ : image.drop 4 = order.store 4 size ++ (order.store 8 config ++ rest) := by
    rw [himage, List.drop_left' htypeLength]
  have hdrop₈ : image.drop 8 = order.store 8 config ++ rest := by
    rw [← List.drop_drop (i := 4) (j := 4), hdrop₄, List.drop_left' hsizeLength]
  have hdrop₁₆ : image.drop 16 = rest := by
    rw [← List.drop_drop (i := 8) (j := 8), hdrop₈, List.drop_left' hconfigLength]
  refine ⟨?_, ?_, ?_, hdrop₁₆⟩
  · rw [himage, List.take_left' htypeLength, order.load_store htype]
  · rw [hdrop₄, List.take_left' hsizeLength, order.load_store hsize]
  · rw [hdrop₈, List.take_left' hconfigLength, order.load_store hconfig]

theorem take_append_zeros {head : List UInt8} {known : ℕ} (zeros : ℕ) (hhead : head.length ≤ known) :
    (head ++ List.replicate zeros 0).take (min (head.length + zeros) known) ++
        List.replicate (known - (head.length + zeros)) 0 =
      head ++ List.replicate (known - head.length) (0 : UInt8) := by
  have htake : (head ++ List.replicate zeros 0).take (min (head.length + zeros) known) =
      head ++ List.replicate (min zeros (known - head.length)) (0 : UInt8) := by
    rw [List.take_append, List.take_of_length_le (by omega), List.take_replicate]
    congr 2
    omega
  rw [htake, List.append_assoc, List.replicate_append_replicate]
  congr 2
  omega

/-- Every kernel, whether it knows fewer or more bytes of the attribute, sees the counter's event. -/
theorem copyAttr_attr (host : PerfHost) (counter : HwCounter) :
    ∃ image, host.copyAttr (counter.attr.image host.order) = some image ∧
      host.event image 0 (-1) (-1) 0 = host.hardware counter := by
  have hknown : 64 ≤ host.known := host.ver0_le_known
  have hpage : 136 ≤ host.pageSize := host.sizeOf_le_pageSize
  have hconfig : counter.config.toNat < 256 ^ 8 := counter.config.toNat_lt
  set head := host.order.store 4 0 ++ (host.order.store 4 136 ++ host.order.store 8 counter.config.toNat)
    with hheadDef
  have hhead : head.length = 16 := by
    rw [hheadDef, List.length_append, List.length_append, ByteOrder.store_length (by norm_num),
      ByteOrder.store_length (by norm_num), ByteOrder.store_length hconfig]
  have himage : counter.attr.image host.order = head ++ List.replicate 120 0 := by
    rw [image_attr, hheadDef, List.append_assoc, List.append_assoc]
  have hlength : (counter.attr.image host.order).length = 136 := by
    rw [himage, List.length_append, List.length_replicate, hhead]
  obtain ⟨-, hgiven, -, -⟩ := fields_of_image (by norm_num) (by norm_num) hconfig
    (image_attr host.order counter)
  have hunknown : ∀ b ∈ (counter.attr.image host.order).drop host.known, b = 0 := by
    rw [himage, List.drop_append, List.drop_of_length_le (by omega), List.nil_append, List.drop_replicate]
    exact fun b hb => List.eq_of_mem_replicate hb
  refine ⟨head ++ List.replicate (host.known - 16) 0, ?_, ?_⟩
  · unfold PerfHost.copyAttr
    simp only [hgiven, if_neg (show ¬ (136 = 0) by decide), hlength, attrSizeVer0]
    rw [if_neg (by omega), List.take_of_length_le hlength.le, if_pos (by simpa using hunknown), himage]
    have hfill := take_append_zeros 120 (show head.length ≤ host.known by omega)
    rw [hhead] at hfill
    exact congrArg some hfill
  · have hsplit : head ++ List.replicate (host.known - 16) 0 = host.order.store 4 0 ++
        (host.order.store 4 136 ++ (host.order.store 8 counter.config.toNat ++
          List.replicate (host.known - 16) 0)) := by
      rw [hheadDef, List.append_assoc, List.append_assoc]
    obtain ⟨htype, -, hcfg, hrest⟩ := fields_of_image (by norm_num) (by norm_num) hconfig hsplit
    rw [PerfHost.event, htype, hcfg, hrest, PerfHost.hardware]

end KernelKit.Perf
