/-
Pointcloud.Patch.Lazperf — LAZ compression, in a build with laz-perf
(`lazperf_adapter.cpp`, `pc_patch_lazperf.c`).

laz-perf itself is a parameter: an engine is told the fields of a record, takes records
one by one and leaves its output in a buffer, from which another engine returns them.
-/
import Pointcloud.Patch.Core

namespace Pointcloud

open Pointcloud.Base

/-! ## The engine -/

/-- The types of fields that are added to an engine. -/
inductive LazField where
  | i8
  | u8
  | i16
  | u16
  | i32
  | u32
  deriving DecidableEq, Repr

/-- The bytes of a field in a record. -/
def LazField.width : LazField → Nat
  | .i8 | .u8 => 1
  | .i16 | .u16 => 2
  | .i32 | .u32 => 4

/-- The bytes of a record of these fields. -/
def fieldsWidth (fields : List LazField) : Nat := (fields.map LazField.width).sum

/-- laz-perf: a compressor with its coder and a decompressor with its coder, each made for
the fields of a record. -/
structure LazEngine where
  Compressor : Type
  Decompressor : Type
  makeCompressor : List LazField → Compressor
  compress : Compressor → Bytes → Compressor
  /-- The buffer after `done`. -/
  done : Compressor → Bytes
  makeDecompressor : List LazField → Bytes → Decompressor
  decompress : Decompressor → Bytes × Decompressor

namespace LazEngine

variable (E : LazEngine)

/-- The records that a decompressor returns next. -/
def decoded : E.Decompressor → Nat → List Bytes
  | _, 0 => []
  | d, n + 1 => (E.decompress d).1 :: decoded (E.decompress d).2 n

/-- The buffer after records were given to a new engine. -/
def encoded (fields : List LazField) (records : List Bytes) : Bytes :=
  E.done (records.foldl E.compress (E.makeCompressor fields))

/-- An engine returns each record that it was given, in order. -/
def Lossless : Prop :=
  ∀ fields records, (∀ r ∈ records, r.length = fieldsWidth fields) →
    E.decoded (E.makeDecompressor fields (E.encoded fields records)) records.length = records

/-! ## Fields -/

/-- What `LazPerf` keeps of a schema: the fields of its engine, and `_pointsize`. -/
structure Layout where
  fields : List LazField
  pointsize : Nat

/-- The fields of a type. -/
def fieldsOf : Interpretation → Option (List LazField)
  | .int8 => some [.i8]
  | .uint8 => some [.u8]
  | .int16 => some [.i16]
  | .uint16 => some [.u16]
  | .int32 => some [.i32]
  | .uint32 => some [.u32]
  | .int64 => some [.i32, .i32]
  | .uint64 => some [.u32, .u32]
  | .double => some [.u32, .u32]
  | .float => some [.i32]
  | .unknown => none

/-- `LazPerf::addField`. -/
def addField (lay : Layout) (dim : PcDimension) : Layout :=
  match fieldsOf dim.interpretation with
  | some fields => ⟨lay.fields ++ fields, lay.pointsize + dim.size⟩
  | none => lay

/-- `LazPerf::initSchema`. -/
def initSchema (s : PcSchema) : Layout := s.dims.foldl addField ⟨[], 0⟩

/-! ## The adapter -/

/-- The loop of `LazPerfCompressor::compress`. A loop that runs out of turns has a point
size of zero and does not end. -/
def compressLoop (lay : Layout) (data : Bytes) (inputsize : Nat) :
    Nat → Nat → Nat → E.Compressor → Run (Nat × E.Compressor)
  | 0, _, _, _ => fault
  | turns + 1, input, size, c =>
      if input + lay.pointsize ≤ inputsize then do
        let record ← readAt data input (fieldsWidth lay.fields)
        compressLoop lay data inputsize turns (input + lay.pointsize) (size + 1)
          (E.compress c record)
      else return (size, c)

/-- `LazPerfCompressor::compress`: how many records there were, and the output. -/
def compressAll (s : PcSchema) (data : Bytes) (inputsize : Nat) : Run (Nat × Bytes) := do
  let lay := initSchema s
  let (size, c) ← E.compressLoop lay data inputsize (inputsize + 1) 0 0
    (E.makeCompressor lay.fields)
  return (size, E.done c)

/-- `lazperf_compress_from_uncompressed`: the size, and what `*compressed` points to if it
was set. -/
def lazperfCompressFromUncompressed (pa : PcPatchUncompressed) : Run (Nat × Option Bytes) := do
  let (count, buf) ← E.compressAll pa.schema pa.data.content pa.datasize
  if count = pa.npoints then return (buf.length, some buf) else return (1, none)

/-- The loop of `LazPerfDecompressor::decompress`. -/
def decompressLoop (lay : Layout) (outputsize : Nat) :
    Nat → Nat → Nat → E.Decompressor → Bytes → Run (Nat × Bytes)
  | 0, _, _, _, _ => fault
  | turns + 1, output, size, d, block =>
      if output + lay.pointsize ≤ outputsize then do
        let (record, d) := E.decompress d
        let block ← writeAt block output record
        decompressLoop lay outputsize turns (output + lay.pointsize) (size + 1) d block
      else return (size, block)

/-- `(size_t) -1`. -/
def sizeMax : Nat := 18446744073709551615

/-- `lazperf_uncompress_from_compressed`: the size, and what `*decompressed` points to. -/
def lazperfUncompressFromCompressed (pa : PcPatchLazperf) : Run (Nat × Bytes) := do
  let lay := initSchema pa.schema
  let datasize := pa.schema.size * pa.npoints
  let block ← pcalloc datasize
  let (count, decompressed) ← E.decompressLoop lay datasize (datasize + 1) 0 0
    (E.makeDecompressor lay.fields pa.lazperf) block
  if count = pa.npoints then return (pa.lazperf.length, decompressed)
  else return (sizeMax, decompressed)

/-! ## Patches -/

/-- `pc_patch_lazperf_from_uncompressed`. A pointer that was not set cannot be copied from. -/
def pcPatchLazperfFromUncompressed (pa : PcPatchUncompressed) : Run PcPatchLazperf := do
  let (compressSize, compressed) ← E.lazperfCompressFromUncompressed pa
  if compressSize ≠ sizeMax then do
    let _ ← pcalloc compressSize
    match compressed with
    | none => fault
    | some compressed => do
        let lazperf ← readAt compressed 0 compressSize
        return {
          readonly := false
          schema := pa.schema
          npoints := pa.npoints
          bounds := pa.bounds
          stats := pcStatsClone pa.stats
          lazperf := lazperf }
  else raise "pc_patch_lazperf_from_uncompressed: LAZ compressionf failed"

/-- `pc_patch_uncompressed_from_lazperf`. -/
def pcPatchUncompressedFromLazperf (palaz : PcPatchLazperf) : Run PcPatchUncompressed := do
  let (size, decompressed) ← E.lazperfUncompressFromCompressed palaz
  if size ≠ sizeMax then do
    let datasize := palaz.schema.size * palaz.npoints
    let _ ← pcalloc datasize
    let data ← readAt decompressed 0 datasize
    return {
      readonly := false
      schema := palaz.schema
      npoints := palaz.npoints
      bounds := palaz.bounds
      stats := pcStatsClone palaz.stats
      maxpoints := palaz.npoints
      datasize := datasize
      data := bufOf data }
  else raise "pc_patch_uncompressed_from_lazperf: lazperf uncompression failed"

end LazEngine

end Pointcloud
