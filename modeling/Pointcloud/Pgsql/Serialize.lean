/-
Pointcloud.Pgsql.Serialize — patches as PostgreSQL stores them (`pc_pgsql.c`).

A serialized patch is a structure with a header and a data area of variable
length: the three points of the statistics, then the records, or the segments
of the dimensions. PostgreSQL keeps the length of the whole in the first word,
which `SET_VARSIZE` and `VARSIZE` write and read; it has two bits for itself.

The data area begins at the last field of the structure. The memory is asked
for with the size of the structure rounded up to a multiple of 32, less one.
-/
import Pointcloud.Patch.Compress
import Pointcloud.Patch.Wkb

namespace Pointcloud

open Pointcloud.Base

/-! ## The structure -/

/-- `SERIALIZED_PATCH`. `size` is the word of the length; `data` is the memory
from the last field on. -/
structure SerializedPatch where
  size : Nat
  pcid : Nat
  compression : Nat
  npoints : Nat
  bounds : PcBounds
  data : Bytes

/-- `sizeof(SERIALIZED_PATCH)`. -/
def sizeofSerializedPatch : Nat := 56

/-- `offsetof(SERIALIZED_PATCH, data)`. -/
def offsetofData : Nat := 48

/-- `BUFFERALIGN`. -/
def bufferAlign (len : Nat) : Nat := (len + 31) / 32 * 32

/-- `SET_VARSIZE`: the word that is stored for a length. -/
def setVarsize (en : Endian) (len : Nat) : Nat :=
  match en with
  | .little => uint32 (len * 4)
  | .big => len % 1073741824

/-- `VARSIZE`: the length that a word stands for. -/
def varsize (en : Endian) (word : Nat) : Nat :=
  match en with
  | .little => word / 4 % 1073741824
  | .big => word % 1073741824

/-- Lengths below `2 ^ 30` are read back. -/
theorem varsize_setVarsize (en : Endian) {len : Nat} (h : len < 1073741824) :
    varsize en (setVarsize en len) = len := by
  cases en <;> simp only [varsize, setVarsize, uint32] <;> omega

/-! ## Size -/

/-- `pc_stats_size`. -/
def pcStatsSize (schema : PcSchema) : Nat := 3 * schema.size

/-- `pc_patch_serialized_size`. -/
def pcPatchSerializedSize (patch : PcPatch) : Nat :=
  let statsSize := pcStatsSize patch.schema
  let commonSize := bufferAlign sizeofSerializedPatch - 1
  match patch with
  | .uncompressed p => commonSize + statsSize + p.datasize
  | .dimensional p => commonSize + statsSize + pcPatchDimensionalSerializedSize p
  | .lazperf p => commonSize + statsSize + 4 + p.lazperf.length

/-! ## Writing -/

/-- `pc_patch_stats_serialize`, to the begin of a buffer. -/
def pcPatchStatsSerialize (buf : Bytes) (schema : PcSchema) (stats : PcStats) : Run Bytes := do
  let sz := schema.size
  let min ← readAt stats.min.data 0 sz
  let buf ← writeAt buf 0 min
  let max ← readAt stats.max.data 0 sz
  let buf ← writeAt buf sz max
  let avg ← readAt stats.avg.data 0 sz
  writeAt buf (2 * sz : Nat) avg

variable (P : Platform)

/-- The structure with its basic fields, and the payload written by `put` behind
the statistics. -/
def serializeWith (func : String) (patch : PcPatch) (put : Bytes → Nat → Run Bytes) :
    Run SerializedPatch := do
  let serpchSize := pcPatchSerializedSize patch
  let serpch ← pcalloc serpchSize
  match patch.stats with
  | none => raise (func ++ ": stats missing!")
  | some stats => do
      let buf ← pcPatchStatsSerialize (serpch.drop offsetofData) patch.schema stats
      let buf ← put buf (pcStatsSize patch.schema)
      return {
        size := setVarsize P.endian serpchSize
        pcid := patch.schema.pcid
        compression := patch.type.code
        npoints := patch.npoints
        bounds := patch.bounds
        data := buf }

/-- `pc_patch_uncompressed_serialize`. -/
def pcPatchUncompressedSerialize (patch : PcPatchUncompressed) : Run SerializedPatch :=
  serializeWith P "pc_patch_uncompressed_serialize" (.uncompressed patch) fun buf off => do
    let data ← readAt patch.data.content 0 patch.datasize
    writeAt buf off data

/-- `pc_patch_dimensional_serialize`. -/
def pcPatchDimensionalSerialize (patch : PcPatchDimensional) : Run SerializedPatch :=
  serializeWith P "pc_patch_dimensional_serialize" (.dimensional patch) fun buf off =>
    serializeDimensions P.endian patch.bytes buf off

/-- `pc_patch_lazperf_serialize`. -/
def pcPatchLazperfSerialize (patch : PcPatchLazperf) : Run SerializedPatch :=
  serializeWith P "pc_patch_lazperf_serialize" (.lazperf patch) fun buf off => do
    let buf ← writeAt buf off (P.endian.bytesOf 4 patch.lazperf.length)
    writeAt buf (off + 4) patch.lazperf

/-- The patch in the compression of its schema. -/
def patchToSerialize (patch : PcPatch) (userdata : Option PcDimStats) :
    Run (PcPatch × Option PcDimStats) :=
  if patch.type ≠ patch.schema.compression then pcPatchCompress P patch userdata
  else .ok (patch, userdata)

/-- The writer for the type of the patch. -/
def serializeByType : PcPatch → Run SerializedPatch
  | .uncompressed p => pcPatchUncompressedSerialize P p
  | .dimensional p => pcPatchDimensionalSerialize P p
  | .lazperf p => pcPatchLazperfSerialize P p

/-- `pc_patch_serialize`: the serialized patch, and the statistics on dimensions as
they are afterwards. -/
def pcPatchSerialize (patchIn : PcPatch) (userdata : Option PcDimStats) :
    Run (SerializedPatch × Option PcDimStats) := do
  if patchIn.stats.isNone then raise "pc_patch_serialize: patch is missing stats"
  else
    let (patch, userdata) ← patchToSerialize P patchIn userdata
    let serpatch ← serializeByType P patch
    return (serpatch, userdata)

/-! ## Reading -/

/-- `pc_patch_stats_deserialize`. The points keep pointing into the buffer. -/
def pcPatchStatsDeserialize (schema : PcSchema) (buf : Bytes) : Run PcStats := do
  let sz := schema.size
  let min ← pcPointFromData schema buf 0
  let max ← pcPointFromData schema buf sz
  let avg ← pcPointFromData schema buf (2 * sz : Nat)
  return ⟨min, max, avg⟩

/-- `pc_patch_uncompressed_deserialize`. The size of the records is what the length
of the whole leaves for them. -/
def pcPatchUncompressedDeserialize (serpatch : SerializedPatch) (schema : PcSchema) :
    Run PcPatchUncompressed := do
  let stats ← pcPatchStatsDeserialize schema serpatch.data
  let statsSize := pcStatsSize schema
  let datasize := sizeT ((varsize P.endian serpatch.size : Int) -
    bufferAlign sizeofSerializedPatch + 1 - statsSize)
  if datasize ≠ serpatch.npoints * schema.size then
    raise ("pc_patch_uncompressed_deserialize: calculated patch data sizes don't match (" ++
      toString (int32 datasize) ++ " != " ++ toString
        (int32 (serpatch.npoints * schema.size : Nat)) ++
      ")")
  else
    return {
      readonly := true
      schema := schema
      npoints := serpatch.npoints
      bounds := serpatch.bounds
      stats := some stats
      maxpoints := 0
      datasize := datasize
      data := some (serpatch.data.drop statsSize) }

/-- `pc_patch_dimensional_deserialize`. -/
def pcPatchDimensionalDeserialize (serpatch : SerializedPatch) (schema : PcSchema) :
    Run PcPatchDimensional := do
  let stats ← pcPatchStatsDeserialize schema serpatch.data
  let bytes ← deserializeDimensions P.endian serpatch.data serpatch.npoints true false schema.dims
    (pcStatsSize schema)
  return {
    readonly := true
    schema := schema
    npoints := serpatch.npoints
    bounds := serpatch.bounds
    stats := some stats
    bytes := bytes }

/-- `pc_patch_lazperf_deserialize`. -/
def pcPatchLazperfDeserialize (serpatch : SerializedPatch) (schema : PcSchema) :
    Run PcPatchLazperf := do
  let stats ← pcPatchStatsDeserialize schema serpatch.data
  let lazperfsize ← wkbGetInt32 P.endian serpatch.data (pcStatsSize schema) false
  let _ ← pcalloc lazperfsize
  let lazperf ← readAt serpatch.data (pcStatsSize schema + 4 : Nat) lazperfsize
  return {
    readonly := true
    schema := schema
    npoints := serpatch.npoints
    bounds := serpatch.bounds
    stats := some stats
    lazperf := lazperf }

/-- `pc_patch_deserialize`. -/
def pcPatchDeserialize (serpatch : SerializedPatch) (schema : PcSchema) : Run PcPatch :=
  match PcCompression.ofCode serpatch.compression with
  | .none => do
      let p ← pcPatchUncompressedDeserialize P serpatch schema
      return .uncompressed p
  | .dimensional => do
      let p ← pcPatchDimensionalDeserialize P serpatch schema
      return .dimensional p
  | .lazperf => do
      let p ← pcPatchLazperfDeserialize P serpatch schema
      return .lazperf p
  | .unknown _ => raise "pc_patch_deserialize: unsupported compression type"

end Pointcloud
