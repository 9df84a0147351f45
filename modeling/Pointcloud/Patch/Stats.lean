/-
Pointcloud.Patch.Stats — the extent and the statistics of a patch (`pc_patch.c`,
`pc_patch_uncompressed.c`, `pc_patch_dimensional.c`, `pc_stats.c`).

The extent of a dimensional patch is found on the stored numbers of x and y,
whatever their encoding; its statistics are those of its uncompressed form.
The average of no values, which the code stores as a NaN, is 0 here.
-/
import Pointcloud.Bytes.Wire
import Pointcloud.Patch.Core

namespace Pointcloud

open Pointcloud.Base

/-! ## Extent -/

/-- `schema->xdim`. -/
def PcSchema.xdimension (s : PcSchema) : Option PcDimension := s.xdim.bind fun i => s.dims[i]?

/-- `schema->ydim`. -/
def PcSchema.ydimension (s : PcSchema) : Option PcDimension := s.ydim.bind fun i => s.dims[i]?

/-- `pc_point_get_x` and `pc_point_get_y`, of a point at an offset of a block.
Without the dimension the caller's variable stays unset, and using it has no
meaning. -/
def pcPointGetCoordinate (en : Endian) (block : Bytes) (off : Int) : Option PcDimension → Run ℚ
  | none => fault
  | some dim => pcPointGetDoubleAt en block off dim

/-- Widen bounds to a point. -/
def PcBounds.widen (b : PcBounds) (x y : ℚ) : PcBounds where
  xmin := if x < b.xmin then x else b.xmin
  xmax := if b.xmax < x then x else b.xmax
  ymin := if y < b.ymin then y else b.ymin
  ymax := if b.ymax < y then y else b.ymax

/-- `pc_patch_uncompressed_compute_extent`. -/
def pcPatchUncompressedComputeExtent (en : Endian) (patch : PcPatchUncompressed) :
    Run PcPatchUncompressed := do
  let xys ← (List.range patch.npoints).mapM fun (i : Nat) => do
    let off := int32 i * patch.schema.size
    let x ← pcPointGetCoordinate en patch.data.content off patch.schema.xdimension
    let y ← pcPointGetCoordinate en patch.data.content off patch.schema.ydimension
    return (x, y)
  return { patch with bounds := xys.foldl (fun b xy => b.widen xy.1 xy.2) pcBoundsInit }

variable (P : Platform)

/-- `pc_patch_dimensional_compute_extent`. -/
def pcPatchDimensionalComputeExtent (pdl : PcPatchDimensional) : Run PcPatchDimensional := do
  assertThat pdl.schema.xdimension.isSome
  assertThat pdl.schema.ydimension.isSome
  match pdl.schema.xdimension, pdl.schema.ydimension with
  | some xdim, some ydim =>
      let pcb ← wordAt pdl.bytes xdim.position
      let x ← pcBytesMinmax P pcb
      let pcb ← wordAt pdl.bytes ydim.position
      let y ← pcBytesMinmax P pcb
      return { pdl with bounds := {
        xmin := pcValueScaleOffset x.min xdim
        xmax := pcValueScaleOffset x.max xdim
        ymin := pcValueScaleOffset y.min ydim
        ymax := pcValueScaleOffset y.max ydim } }
  | _, _ => fault

/-- `pc_patch_compute_extent`. -/
def pcPatchComputeExtent : PcPatch → Run PcPatch
  | .uncompressed p => do
      let p ← pcPatchUncompressedComputeExtent P.endian p
      return .uncompressed p
  | .dimensional p => do
      let p ← pcPatchDimensionalComputeExtent P p
      return .dimensional p
  | .lazperf _ => lazperfNotEnabled "pc_patch_lazperf_compute_extent"

/-! ## Statistics -/

/-- The statistics of no values (`pc_dstats_new`). -/
def pcDstatsNew : PcDoubleStat := ⟨dblMax, -dblMax, 0⟩

/-- A new point with a value for each dimension. -/
def pcPointFromValues (s : PcSchema) (vals : List ℚ) : Run PcPoint := do
  let pt ← pcPointOf false s (zeros s.size)
  (s.dims.zip vals).foldlM (fun pt dv => pcPointSetDouble P pt dv.1 dv.2) pt

/-- `pc_stats_new_from_dstats`. -/
def pcStatsNewFromDstats (s : PcSchema) (dims : List PcDoubleStat) (npoints : Nat) :
    Run PcStats := do
  let min ← pcPointFromValues P s (dims.map PcDoubleStat.min)
  let max ← pcPointFromValues P s (dims.map PcDoubleStat.max)
  let avg ← pcPointFromValues P s (dims.map fun st => st.sum / npoints)
  return ⟨min, max, avg⟩

/-- `pc_patch_uncompressed_compute_stats`. The point moves on through the data. -/
def pcPatchUncompressedComputeStats (pa : PcPatchUncompressed) : Run PcPatchUncompressed := do
  let rows ← (List.range pa.npoints).mapM fun i => pa.schema.dims.mapM fun dim =>
    pcPointGetDoubleAt P.endian pa.data.content (i * pa.schema.size : Nat) dim
  let dstats := rows.foldl (fun dims vals => List.zipWith PcDoubleStat.add dims vals)
    (pa.schema.dims.map fun _ => pcDstatsNew)
  let stats ← pcStatsNewFromDstats P pa.schema dstats pa.npoints
  return { pa with stats := some stats }

/-- `pc_patch_compute_stats`. -/
def pcPatchComputeStats : PcPatch → Run PcPatch
  | .uncompressed p => do
      let p ← pcPatchUncompressedComputeStats P p
      return .uncompressed p
  | .dimensional p => do
      let pu ← pcPatchUncompressedFromDimensional P p
      let pu ← pcPatchUncompressedComputeStats P pu
      return .dimensional { p with stats := pu.stats }
  | .lazperf p => do
      let pu ← pcPatchUncompressedFromLazperf p
      let pu ← pcPatchUncompressedComputeStats P pu
      return .lazperf { p with stats := pcStatsClone pu.stats }

end Pointcloud
