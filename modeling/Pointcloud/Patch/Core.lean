/-
Pointcloud.Patch.Core — patches and their storage forms (`pc_patch.c`,
`pc_patch_uncompressed.c`, `pc_patch_dimensional.c`, `pc_pointlist.c`).

A patch holds the points of one schema either as an array of records, or
dimension by dimension. This module has the two forms, the conversions
between them, the lists of points they are read as, and access to one point.

Counts are `uint32_t` in the structures, but `int` in many of the functions
here: a loop over `int npoints` is not entered from `2 ^ 31` points on, and
the offset of a value in its array is a product of two 32-bit numbers.
The library is modelled without `HAVE_LAZPERF`: every LAZ function raises the
error that says so.
-/
import Pointcloud.Bytes.Codec
import Pointcloud.Point

namespace Pointcloud

open Pointcloud.Base

/-! ## Patches -/

/-- `PCBOUNDS`. -/
structure PcBounds where
  xmin : ℚ
  xmax : ℚ
  ymin : ℚ
  ymax : ℚ
  deriving DecidableEq

/-- `PCPATCH_UNCOMPRESSED`. -/
structure PcPatchUncompressed where
  readonly : Bool
  schema : PcSchema
  npoints : Nat
  bounds : PcBounds
  stats : Option PcStats
  maxpoints : Nat
  datasize : Nat
  data : Buf

/-- `PCPATCH_DIMENSIONAL`. -/
structure PcPatchDimensional where
  readonly : Bool
  schema : PcSchema
  npoints : Nat
  bounds : PcBounds
  stats : Option PcStats
  bytes : List PcBytes

/-- `PCPATCH_LAZPERF`. -/
structure PcPatchLazperf where
  readonly : Bool
  schema : PcSchema
  npoints : Nat
  bounds : PcBounds
  stats : Option PcStats
  lazperf : Bytes

/-- `PCPATCH`, by its `type`. -/
inductive PcPatch where
  | uncompressed (p : PcPatchUncompressed)
  | dimensional (p : PcPatchDimensional)
  | lazperf (p : PcPatchLazperf)

/-- `patch->type`. -/
def PcPatch.type : PcPatch → PcCompression
  | .uncompressed _ => .none
  | .dimensional _ => .dimensional
  | .lazperf _ => .lazperf

/-- `patch->schema`. -/
def PcPatch.schema : PcPatch → PcSchema
  | .uncompressed p => p.schema
  | .dimensional p => p.schema
  | .lazperf p => p.schema

/-- `patch->npoints`. -/
def PcPatch.npoints : PcPatch → Nat
  | .uncompressed p => p.npoints
  | .dimensional p => p.npoints
  | .lazperf p => p.npoints

/-- `patch->bounds`. -/
def PcPatch.bounds : PcPatch → PcBounds
  | .uncompressed p => p.bounds
  | .dimensional p => p.bounds
  | .lazperf p => p.bounds

/-- `patch->stats`. -/
def PcPatch.stats : PcPatch → Option PcStats
  | .uncompressed p => p.stats
  | .dimensional p => p.stats
  | .lazperf p => p.stats

/-- `pc_bounds_init`. -/
def pcBoundsInit : PcBounds := ⟨dblMax, -dblMax, dblMax, -dblMax⟩

/-- `pc_patch_uncompressed_make`. No memory is asked for when there are no bytes. -/
def pcPatchUncompressedMake (s : PcSchema) (maxpoints : Nat) : Run PcPatchUncompressed :=
  if s.size = 0 then raise "pc_patch_uncompressed_make, invalid size calculation"
  else do
    let data ← pcalloc (s.size * maxpoints)
    return {
      readonly := false
      schema := s
      npoints := 0
      bounds := pcBoundsInit
      stats := none
      maxpoints := maxpoints
      datasize := s.size * maxpoints
      data := bufOf data }

/-- The error of the LAZ functions in a build without laz-perf. -/
def lazperfNotEnabled {α : Type} (func : String) : Run α :=
  raise (func ++ ": lazperf support is not enabled")

/-! ## From records to dimensions -/

/-- `(int) npoints`, as the bound of a loop. -/
def intCount (npoints : Nat) : Nat := (int32 npoints).toNat

/-- The array of one dimension, filled from the records. -/
def dimensionFromRecords (schema : PcSchema) (data : Bytes) (npoints : Nat) (dim : PcDimension) :
    Run PcBytes := do
  let pcb := pcBytesMake dim npoints
  let copies ← (List.range (intCount npoints)).mapM fun j => do
    let src ← readAt data (schema.size * j + dim.byteoffset : Nat) dim.size
    return ((uint32 (dim.size * j) : Int), src)
  let bytes ← writeAll pcb.bytes copies
  return { pcb with bytes := bytes }

/-- `pc_patch_dimensional_from_uncompressed`; none for a patch without points. -/
def pcPatchDimensionalFromUncompressed (pa : PcPatchUncompressed) :
    Run (Option PcPatchDimensional) := do
  if int32 pa.npoints = 0 then return none
  else
    let bytes ← pa.schema.dims.mapM
      (dimensionFromRecords pa.schema pa.data.content pa.npoints)
    return some {
      readonly := false
      schema := pa.schema
      npoints := pa.npoints
      bounds := pa.bounds
      stats := pcStatsClone pa.stats
      bytes := bytes }

/-! ## From dimensions to records -/

variable (P : Platform)

/-- `pc_patch_dimensional_decompress`. -/
def pcPatchDimensionalDecompress (pdl : PcPatchDimensional) : Run PcPatchDimensional := do
  let bytes ← pdl.bytes.mapM (pcBytesDecode P)
  return { pdl with bytes := bytes, stats := pcStatsClone pdl.stats }

/-- What is copied into the records: of every point every dimension, each to
its place. -/
def recordCopies (schema : PcSchema) (bytes : List PcBytes) (npoints : Nat) :
    Run (List (Int × Bytes)) := do
  let copies ← (List.range npoints).mapM fun i =>
    (schema.dims.zip bytes).mapM fun (dim, pcb) => do
      let src ← readAt pcb.bytes (uint32 (dim.size * i)) dim.size
      return (((i * schema.size + dim.byteoffset : Nat) : Int), src)
  return copies.flatten

/-- `pc_patch_uncompressed_from_dimensional`. -/
def pcPatchUncompressedFromDimensional (pdl : PcPatchDimensional) : Run PcPatchUncompressed := do
  let datasize := pdl.schema.size * pdl.npoints
  let data ← pcalloc datasize
  let plain ← pcPatchDimensionalDecompress P pdl
  let copies ← recordCopies pdl.schema plain.bytes (intCount pdl.npoints)
  let data ← writeAll data copies
  return {
    readonly := false
    schema := pdl.schema
    npoints := pdl.npoints
    bounds := pdl.bounds
    stats := pcStatsClone pdl.stats
    maxpoints := pdl.npoints
    datasize := datasize
    data := bufOf data }

/-- `pc_patch_uncompressed_from_lazperf`. -/
def pcPatchUncompressedFromLazperf (_ : PcPatchLazperf) : Run PcPatchUncompressed :=
  lazperfNotEnabled "pc_patch_uncompressed_from_lazperf"

/-- `pc_patch_lazperf_from_uncompressed`. -/
def pcPatchLazperfFromUncompressed (_ : PcPatchUncompressed) : Run PcPatchLazperf :=
  lazperfNotEnabled "pc_patch_lazperf_from_uncompressed"

/-- `pc_patch_uncompress`. -/
def pcPatchUncompress : PcPatch → Run PcPatchUncompressed
  | .dimensional p => pcPatchUncompressedFromDimensional P p
  | .uncompressed p => .ok p
  | .lazperf p => pcPatchUncompressedFromLazperf p

/-! ## Lists of points -/

/-- `pc_pointlist_from_dimensional`. The memory of all points is allocated as
`npoints * size` bytes with `int npoints`, which no allocator grants when it is
negative. -/
def pcPointlistFromDimensional (pdl : PcPatchDimensional) : Run (List PcPoint) := do
  let plain ← pcPatchDimensionalDecompress P pdl
  if int32 pdl.npoints < 0 then fault
  else
    let data ← pcalloc (pdl.npoints * pdl.schema.size)
    let copies ← recordCopies pdl.schema plain.bytes (intCount pdl.npoints)
    let data ← writeAll data copies
    (List.range (intCount pdl.npoints)).mapM fun i =>
      pcPointFromData pdl.schema data (i * pdl.schema.size : Nat)

/-- `pc_pointlist_from_uncompressed`. -/
def pcPointlistFromUncompressed (patch : PcPatchUncompressed) : Run (List PcPoint) := do
  intLoop patch.npoints
  (List.range patch.npoints).mapM fun i =>
    pcPointFromData patch.schema patch.data.content (i * patch.schema.size : Nat)

/-- `pc_pointlist_from_patch`. -/
def pcPointlistFromPatch : PcPatch → Run (List PcPoint)
  | .uncompressed p => pcPointlistFromUncompressed p
  | .dimensional p => pcPointlistFromDimensional P p
  | .lazperf p => do
      let pu ← pcPatchUncompressedFromLazperf p
      pcPointlistFromUncompressed pu

/-! ## One point -/

/-- `pc_patch_uncompressed_pointn`. -/
def pcPatchUncompressedPointn (patch : PcPatchUncompressed) (n : Int) : Run PcPoint :=
  pcPointFromData patch.schema patch.data.content (n * patch.schema.size)

/-- `pc_patch_dimensional_pointn`. -/
def pcPatchDimensionalPointn (pdl : PcPatchDimensional) (n : Int) : Run PcPoint := do
  let pt ← pcPointMake pdl.schema
  let copies ← (pdl.schema.dims.zip pdl.bytes).mapM fun (dim, pcb) => do
    let src ← pcBytesToPtr P pcb n
    return ((dim.byteoffset : Int), src)
  let data ← writeAll pt.data copies
  pcPointOf pt.readonly pt.schema data

/-- `pc_patch_pointn`: counted from 1, or backwards from -1. -/
def pcPatchPointn (patch : PcPatch) (n : Int) : Run (Option PcPoint) := do
  let n := if n < 0 then int32 (patch.npoints + n) else n - 1
  if n < 0 ∨ (patch.npoints : Int) ≤ n then return none
  else
    match patch with
    | .uncompressed p =>
        let pt ← pcPatchUncompressedPointn p n
        return some pt
    | .dimensional p =>
        let pt ← pcPatchDimensionalPointn P p n
        return some pt
    | .lazperf _ => lazperfNotEnabled "pc_patch_lazperf_pointn"

end Pointcloud
