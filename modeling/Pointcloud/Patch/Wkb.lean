/-
Pointcloud.Patch.Wkb — points and patches as well-known binary (`pc_point.c`,
`pc_patch.c`, `pc_patch_uncompressed.c`, `pc_patch_dimensional.c`).

The head of a patch has the byte order of the writer, the pcid, the
compression and the number of points; behind it stand the records, or the
segments of the dimensions. A writer returns the bytes and the size that it
reports for them.
-/
import Pointcloud.Patch.Stats

namespace Pointcloud

open Pointcloud.Base

variable (P : Platform)

/-! ## Byte order of records -/

/-- A record with the bytes of each dimension reversed. -/
def flipRecord (s : PcSchema) (record : Bytes) : Bytes :=
  (s.dims.map fun dim => (dim.bytesIn record).reverse).flatten

/-- `uncompressed_bytes_flip_endian`, of the records at an offset: a copy with
every number reversed. -/
def uncompressedBytesFlipEndian (buf : Bytes) (off : Nat) (schema : PcSchema) (npoints : Nat) :
    Run Bytes := do
  let bufsize := schema.size * npoints
  let _ ← pcalloc bufsize
  let copy ← readAt buf off bufsize
  intLoop npoints
  return ((records schema.size npoints copy).map (flipRecord schema)).flatten

/-! ## Points -/

/-- `pc_point_to_wkb`. -/
def pcPointToWkb (pt : PcPoint) : Run (Bytes × Nat) := do
  let size := 1 + 4 + pt.schema.size
  let wkb ← pcalloc size
  let wkb ← writeAt wkb 0 [machineEndian P.endian]
  let wkb ← writeAt wkb 1 (P.endian.bytesOf 4 pt.schema.pcid)
  let data ← readAt pt.data 0 pt.schema.size
  let wkb ← writeAt wkb 5 data
  return (wkb, size)

/-- `pc_point_from_wkb`. -/
def pcPointFromWkb (schema : PcSchema) (wkb : Bytes) (wkblen : Nat) : Run PcPoint := do
  if wkblen = 0 then raise "pc_point_from_wkb: zero length wkb"
  else
    let swapEndian ← wkbIsSwapped P.endian wkb
    if sizeT (wkblen - 5) ≠ schema.size then
      raise "pc_point_from_wkb: wkb size inconsistent with schema size"
    else
      let data ← (if swapEndian then uncompressedBytesFlipEndian wkb 5 schema 1
        else do
          let _ ← pcalloc schema.size
          readAt wkb 5 (sizeT (wkblen - 5)))
      pcPointOf false schema data

/-! ## Writing patches -/

/-- Write the head of a patch. -/
def writeWkbHead (wkb : Bytes) (pcid compression npoints : Nat) : Run Bytes := do
  let wkb ← writeAt wkb 0 [machineEndian P.endian]
  let wkb ← writeAt wkb 1 (P.endian.bytesOf 4 pcid)
  let wkb ← writeAt wkb 5 (P.endian.bytesOf 4 compression)
  writeAt wkb 9 (P.endian.bytesOf 4 npoints)

/-- `pc_patch_uncompressed_to_wkb`. -/
def pcPatchUncompressedToWkb (patch : PcPatchUncompressed) : Run (Bytes × Nat) := do
  let size := 1 + 4 + 4 + 4 + patch.datasize
  let wkb ← pcalloc size
  let wkb ← writeWkbHead P wkb patch.schema.pcid PcCompression.none.code patch.npoints
  let data ← readAt patch.data.content 0 patch.datasize
  let wkb ← writeAt wkb 13 data
  return (wkb, size)

/-- `pc_patch_dimensional_serialized_size`. -/
def pcPatchDimensionalSerializedSize (patch : PcPatchDimensional) : Nat :=
  (patch.bytes.map pcBytesSerializedSize).sum

/-- Serialize the dimensions one after the other: each begins where the size
reported for the one before leads to. -/
def serializeDimensions (en : Endian) : List PcBytes → Bytes → Int → Run Bytes
  | [], buf, _ => .ok buf
  | pcb :: rest, buf, off => do
      let (buf, bsz) ← pcBytesSerialize en pcb buf off
      serializeDimensions en rest buf (off + bsz)

/-- `pc_patch_dimensional_to_wkb`. -/
def pcPatchDimensionalToWkb (patch : PcPatchDimensional) : Run (Bytes × Nat) := do
  let size := 1 + 4 + 4 + 4 + pcPatchDimensionalSerializedSize patch
  let wkb ← pcalloc size
  let wkb ← writeWkbHead P wkb patch.schema.pcid PcCompression.dimensional.code patch.npoints
  let wkb ← serializeDimensions P.endian patch.bytes wkb 13
  return (wkb, size)

/-- `pc_patch_to_wkb`. -/
def pcPatchToWkb : PcPatch → Run (Bytes × Nat)
  | .uncompressed p => pcPatchUncompressedToWkb P p
  | .dimensional p => pcPatchDimensionalToWkb P p
  | .lazperf _ => lazperfNotEnabled "pc_patch_lazperf_to_wkb"

/-! ## Reading patches -/

/-- `pc_patch_uncompressed_from_wkb`. -/
def pcPatchUncompressedFromWkb (s : PcSchema) (wkb : Bytes) (wkbsize : Nat) :
    Run PcPatchUncompressed := do
  let swapEndian ← wkbIsSwapped P.endian wkb
  let compression ← wkbGetCompression P.endian wkb
  if compression ≠ PcCompression.none.code then
    raise "pc_patch_uncompressed_from_wkb: call with wkb that is not uncompressed"
  else
    let npoints ← wkbGetNpoints P.endian wkb
    if sizeT (wkbsize - 13) ≠ s.size * npoints then
      raise "pc_patch_uncompressed_from_wkb: wkb size and expected data size do not match"
    else
      let data ← (if swapEndian then uncompressedBytesFlipEndian wkb 13 s npoints
        else do
          let _ ← pcalloc (npoints * s.size)
          readAt wkb 13 (npoints * s.size))
      return {
        readonly := false
        schema := s
        npoints := npoints
        bounds := ⟨0, 0, 0, 0⟩
        stats := none
        maxpoints := npoints
        datasize := sizeT (wkbsize - 13)
        data := bufOf data }

/-- Deserialize the dimensions one after the other. -/
def deserializeDimensions (en : Endian) (buf : Bytes) (npoints : Nat) (readonly flipEndian : Bool) :
    List PcDimension → Nat → Run (List PcBytes)
  | [], _ => .ok []
  | dim :: dims, off => do
      let pcb ← pcBytesDeserialize en buf off dim readonly flipEndian
      let rest ← deserializeDimensions en buf npoints readonly flipEndian dims
        (off + pcBytesSerializedSize pcb)
      return { pcb with npoints := npoints } :: rest

/-- `pc_patch_dimensional_from_wkb`. -/
def pcPatchDimensionalFromWkb (schema : PcSchema) (wkb : Bytes) : Run PcPatchDimensional := do
  let swapEndian ← wkbIsSwapped P.endian wkb
  let compression ← wkbGetCompression P.endian wkb
  if compression ≠ PcCompression.dimensional.code then
    raise "pc_patch_dimensional_from_wkb: call with wkb that is not dimensionally compressed"
  else
    let npoints ← wkbGetNpoints P.endian wkb
    let bytes ← deserializeDimensions P.endian wkb npoints false swapEndian schema.dims 13
    return {
      readonly := false
      schema := schema
      npoints := npoints
      bounds := ⟨0, 0, 0, 0⟩
      stats := none
      bytes := bytes }

/-- The patch in WKB, by its compression. -/
def patchFromWkb (s : PcSchema) (wkb : Bytes) (wkbsize compression : Nat) : Run PcPatch :=
  match PcCompression.ofCode compression with
  | .none => do
      let p ← pcPatchUncompressedFromWkb P s wkb wkbsize
      return .uncompressed p
  | .dimensional => do
      let p ← pcPatchDimensionalFromWkb P s wkb
      return .dimensional p
  | .lazperf => lazperfNotEnabled "pc_patch_lazperf_from_wkb"
  | .unknown code =>
      raise ("pc_patch_from_wkb: unknown compression '" ++ toString (int32 code) ++ "' requested")

/-- `pc_patch_from_wkb`. -/
def pcPatchFromWkb (s : PcSchema) (wkb : Bytes) (wkbsize : Nat) : Run PcPatch := do
  if wkbsize = 0 then raise "pc_patch_from_wkb: zero length wkb"
  else
    let pcid ← pcWkbGetPcid P.endian wkb
    let compression ← wkbGetCompression P.endian wkb
    if pcid ≠ s.pcid then
      raise ("pc_patch_from_wkb: wkb pcid (" ++ toString (int32 pcid) ++
        ") not consistent with schema pcid (" ++ toString (int32 s.pcid) ++ ")")
    else
      let patch ← patchFromWkb P s wkb wkbsize compression
      let patch ← pcPatchComputeExtent P patch
      pcPatchComputeStats P patch

end Pointcloud
