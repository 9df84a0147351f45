/-
Pointcloud.Bytes.Core — the values of one dimension (`PCBYTES`, `pc_bytes.c`).

A `PcBytes` holds the values that one dimension has in the points of a
patch: either plain, as an array of words of the dimension's type, or in one
of three encodings. A null `bytes` pointer is written as an empty block:
neither can be read, and no code here tells them apart otherwise.
-/
import Pointcloud.Base.Word
import Pointcloud.Schema

namespace Pointcloud

open Pointcloud.Base

/-- `enum DIMCOMPRESSIONS`: how the values of a dimension are encoded. -/
inductive DimCompression where
  | none
  | rle
  | sigbits
  | zlib
  /-- A number that is none of these. -/
  | unknown (code : Nat)
  deriving DecidableEq, Repr

/-- The encoding with a given number. -/
def DimCompression.ofCode : Nat → DimCompression
  | 0 => .none
  | 1 => .rle
  | 2 => .sigbits
  | 3 => .zlib
  | code => .unknown code

/-- The number of an encoding. -/
def DimCompression.code : DimCompression → Nat
  | .none => 0
  | .rle => 1
  | .sigbits => 2
  | .zlib => 3
  | .unknown code => code

/-- `PCBYTES`. -/
structure PcBytes where
  size : Nat
  npoints : Nat
  interpretation : Interpretation
  compression : DimCompression
  readonly : Bool
  bytes : Bytes
  deriving DecidableEq, Repr

/-- The width of a value, `pc_interpretation_size(pcb.interpretation)`. -/
def PcBytes.width (pcb : PcBytes) : Nat := pcb.interpretation.size

theorem PcBytes.width_pos (pcb : PcBytes) : 0 < pcb.width := Interpretation.size_pos _

/-- `pcalloc(size)`: zeroed memory. An amount that `size_t` cannot mean is not granted. -/
def pcalloc (size : Nat) : Run Bytes :=
  if size < 9223372036854775808 then .ok (zeros size) else fault

theorem pcalloc_ok {size : Nat} (h : size < 9223372036854775808) :
    pcalloc size = .ok (zeros size) := by
  rw [pcalloc, if_pos h]

theorem length_of_pcalloc {size : Nat} {block : Bytes} (h : pcalloc size = .ok block) :
    block.length = size := by
  unfold pcalloc at h
  split at h
  · cases h
    exact length_zeros size
  · exact absurd h (fault_ne_ok block)

/-- `pc_bytes_empty`. -/
def pcBytesEmpty (pcb : PcBytes) : Bool :=
  pcb.npoints == 0 || pcb.bytes == [] || pcb.size == 0

/-- `pc_bytes_make`. The size is a product of two `uint32_t`. -/
def pcBytesMake (dim : PcDimension) (npoints : Nat) : PcBytes where
  size := uint32 (dim.size * npoints)
  npoints := npoints
  interpretation := dim.interpretation
  compression := .none
  readonly := false
  bytes := zeros (uint32 (dim.size * npoints))

/-- `pc_bytes_clone`. -/
def pcBytesClone (pcb : PcBytes) : Run PcBytes := do
  if pcBytesEmpty pcb then
    return { pcb with readonly := false }
  else
    let bytes ← readAt pcb.bytes 0 pcb.size
    return { pcb with bytes := bytes, readonly := false }

/-! ## Plain values -/

/-- The bytes in use: the first `size` of the block. -/
def PcBytes.data (pcb : PcBytes) : Bytes := pcb.bytes.take pcb.size

/-- `pcb` holds `npoints` plain values, and its block is large enough for them. -/
structure PcBytes.Plain (pcb : PcBytes) : Prop where
  known : pcb.interpretation ≠ .unknown
  compression_eq : pcb.compression = .none
  size_eq : pcb.size = pcb.npoints * pcb.width
  size_le : pcb.size ≤ pcb.bytes.length

/-- The bytes of each value of a plain array. -/
def PcBytes.values (pcb : PcBytes) : List Bytes := records pcb.width pcb.npoints pcb.bytes

@[simp] theorem PcBytes.length_values (pcb : PcBytes) : pcb.values.length = pcb.npoints := by
  simp [values]

theorem PcBytes.Plain.room {pcb : PcBytes} (h : pcb.Plain) :
    pcb.npoints * pcb.width ≤ pcb.bytes.length := by
  rw [← h.size_eq]
  exact h.size_le

/-- A plain array is the values one after the other. -/
theorem PcBytes.Plain.flatten_values {pcb : PcBytes} (h : pcb.Plain) :
    pcb.values.flatten = pcb.data := by
  rw [values, flatten_records, data, h.size_eq]

theorem PcBytes.Plain.length_of_mem_values {pcb : PcBytes} (h : pcb.Plain) {v : Bytes}
    (hv : v ∈ pcb.values) : v.length = pcb.width :=
  length_of_mem_records h.room hv

theorem PcBytes.Plain.length_data {pcb : PcBytes} (h : pcb.Plain) :
    pcb.data.length = pcb.size := by
  rw [data, List.length_take, Nat.min_eq_left h.size_le]

/-- The values as words. -/
def PcBytes.words (en : Endian) (pcb : PcBytes) : List (Word pcb.width) :=
  pcb.values.map (en.word pcb.width)

/-- A clone has the same data, in memory of its own. -/
theorem pcBytesClone_ok {pcb : PcBytes} (h : pcb.size ≤ pcb.bytes.length) :
    pcBytesClone pcb = .ok { pcb with
      bytes := if pcBytesEmpty pcb then pcb.bytes else pcb.data
      readonly := false } := by
  unfold pcBytesClone
  split
  · next hempty => simp
  · next hempty =>
      rw [← Int.natCast_zero, readAt_ok (by rw [Nat.zero_add]; exact h), ok_bind,
        List.drop_zero]
      rfl

end Pointcloud
