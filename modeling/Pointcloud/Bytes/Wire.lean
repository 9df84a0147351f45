/-
Pointcloud.Bytes.Wire — a dimension in serialized form (`pc_bytes.c`), and the
numbers at the head of WKB (`pc_util.c`).

A serialized dimension is a segment: one byte for the encoding, four for the
size as an `int`, then the stored bytes. WKB begins with a byte for the byte
order of its writer; a reader of the other order reverses every number.
-/
import Pointcloud.Bytes.Codec
import Pointcloud.Val

namespace Pointcloud

open Pointcloud.Base

/-! ## Numbers in WKB -/

/-- `machine_endian`. -/
def machineEndian : Endian → Byte
  | .big => 0
  | .little => 1

/-- `wkb[0] != machine_endian()`. -/
def wkbIsSwapped (en : Endian) (wkb : Bytes) : Run Bool := do
  let flag ← readAt wkb 0 1
  return flag != [machineEndian en]

/-- `wkb_get_int32` at an offset, as the unsigned number with the same bytes.
The bytes are reversed on request (`int32_flip_endian`). -/
def wkbGetInt32 (en : Endian) (wkb : Bytes) (off : Nat) (flipEndian : Bool) : Run Nat := do
  let bytes ← readAt wkb off 4
  return en.natOf (if flipEndian then bytes.reverse else bytes)

/-- A number of the head, which is reversed when the writer's order is not the
machine's. -/
def wkbGetField (en : Endian) (off : Nat) (wkb : Bytes) : Run Nat := do
  let flipEndian ← wkbIsSwapped en wkb
  wkbGetInt32 en wkb off flipEndian

/-- `pc_wkb_get_pcid`. -/
def pcWkbGetPcid (en : Endian) (wkb : Bytes) : Run Nat := wkbGetField en 1 wkb

/-- `wkb_get_compression`. -/
def wkbGetCompression (en : Endian) (wkb : Bytes) : Run Nat := wkbGetField en 5 wkb

/-- `wkb_get_npoints`. -/
def wkbGetNpoints (en : Endian) (wkb : Bytes) : Run Nat := wkbGetField en 9 wkb

/-- The value a `size_t` holds after `x` is stored in it. -/
def sizeT (x : Int) : Nat := (x % 18446744073709551616).toNat

/-! ## Segments -/

/-- `pc_bytes_serialized_size`. -/
def pcBytesSerializedSize (pcb : PcBytes) : Nat := 1 + 4 + pcb.size

/-- `pc_bytes_serialize` to an offset of a buffer: the buffer, and the size
that it reports, a sum of `int`s. -/
def pcBytesSerialize (en : Endian) (pcb : PcBytes) (buf : Bytes) (off : Int) :
    Run (Bytes × Int) := do
  let pcbsize := int32 pcb.size
  let buf ← writeAt buf off [BitVec.ofNat 8 pcb.compression.code]
  let buf ← writeAt buf (off + 1) (en.bytesOf 4 pcb.size)
  let contents ← readAt pcb.bytes 0 pcb.size
  let buf ← writeAt buf (off + 5) contents
  return (buf, int32 (1 + 4 + pcbsize))

/-- `pc_bytes_deserialize` of the segment at an offset. The caller passes a
zeroed `PCBYTES` and sets `npoints` afterwards. The block of a read-only array
is its segment. -/
def pcBytesDeserialize (en : Endian) (buf : Bytes) (off : Nat) (dim : PcDimension)
    (readonly flipEndian : Bool) : Run PcBytes := do
  let code ← readAt buf off 1
  let size ← wkbGetInt32 en buf (off + 1) flipEndian
  let size := sizeT (int32 size)
  if readonly && flipEndian then
    raise "pc_bytes_deserialize: cannot create a read-only buffer on byteswapped input"
  else if readonly then
    let bytes ← readAt buf (off + 5 : Nat) size
    return {
      size := size
      npoints := 0
      interpretation := dim.interpretation
      compression := .ofCode (en.natOf code)
      readonly := true
      bytes := bytes }
  else
    let _ ← pcalloc size
    let bytes ← readAt buf (off + 5 : Nat) size
    let pcb : PcBytes := {
      size := size
      npoints := 0
      -- set below: neither this nor `npoints` is known yet when the bytes are flipped
      interpretation := .unknown
      compression := .ofCode (en.natOf code)
      readonly := false
      bytes := bytes }
    let pcb ← (if flipEndian then pcBytesFlipEndian pcb else .ok pcb)
    return { pcb with interpretation := dim.interpretation }

/-! ## Minimum, maximum and average -/

/-- The running minimum, maximum and sum. -/
structure MinMax where
  mn : ℚ
  mx : ℚ
  sm : ℚ

/-- What is reported: the minimum, the maximum and the average. -/
structure MinMaxAvg where
  min : ℚ
  max : ℚ
  avg : ℚ

/-- Where the search for the extremes starts. -/
def MinMax.start : MinMax := ⟨fltMax, -fltMax, 0⟩

/-- Take in a number that stands for `count` values. -/
def MinMax.add (m : MinMax) (count : Nat) (d : ℚ) : MinMax :=
  ⟨if d < m.mn then d else m.mn, if m.mx < d then d else m.mx, m.sm + count * d⟩

/-- The report for `npoints` values. -/
def MinMax.report (m : MinMax) (npoints : Nat) : MinMaxAvg := ⟨m.mn, m.mx, m.sm / npoints⟩

/-- `PCDOUBLESTAT`. -/
structure PcDoubleStat where
  min : ℚ
  max : ℚ
  sum : ℚ

/-- Take in a value. -/
def PcDoubleStat.add (st : PcDoubleStat) (val : ℚ) : PcDoubleStat where
  min := if val < st.min then val else st.min
  max := if st.max < val then val else st.max
  sum := st.sum + val

/-- `pc_bytes_uncompressed_minmax`. The offset of a value is a product of two `int`s. -/
def pcBytesUncompressedMinmax (en : Endian) (pcb : PcBytes) : Run MinMaxAvg := do
  let values ← (List.range pcb.npoints).mapM fun i =>
    pcDoubleFromPtr en pcb.bytes (int32 (i * pcb.width : Nat)) pcb.interpretation
  return (values.foldl (fun m d => m.add 1 d) MinMax.start).report pcb.npoints

/-- `pc_bytes_run_length_minmax`. -/
def pcBytesRunLengthMinmax (en : Endian) (pcb : PcBytes) : Run MinMaxAvg := do
  let runs ← (rleEntries pcb).mapM fun entry => do
    let count ← entryCount entry
    let d ← pcDoubleFromPtr en entry 1 pcb.interpretation
    return (count, d)
  return (runs.foldl (fun m r => m.add r.1 r.2) MinMax.start).report pcb.npoints

variable (P : Platform)

/-- `pc_bytes_zlib_minmax`. -/
def pcBytesZlibMinmax (pcb : PcBytes) : Run MinMaxAvg := do
  let zcb ← pcBytesZlibDecode P pcb
  pcBytesUncompressedMinmax P.endian zcb

/-- `pc_bytes_sigbits_minmax`. -/
def pcBytesSigbitsMinmax (pcb : PcBytes) : Run MinMaxAvg := do
  let zcb ← pcBytesSigbitsDecode P.endian P.shift pcb
  pcBytesUncompressedMinmax P.endian zcb

/-- `pc_bytes_minmax`. -/
def pcBytesMinmax (pcb : PcBytes) : Run MinMaxAvg :=
  match pcb.compression with
  | .none => pcBytesUncompressedMinmax P.endian pcb
  | .sigbits => pcBytesSigbitsMinmax P pcb
  | .zlib => pcBytesZlibMinmax P pcb
  | .rle => pcBytesRunLengthMinmax P.endian pcb
  | .unknown _ => raise "pc_bytes_minmax: unknown compression"

end Pointcloud
