/-
Pointcloud.Patch.Compress — choosing an encoding for every dimension
(`pc_dimstats.c`, `pc_patch_dimensional.c`, `pc_patch.c`).

The statistics on dimensions are a state that the caller keeps from patch to
patch. While fewer than 10000 points have been seen, compressing a patch
counts its runs and its common bits and recommends an encoding for every
dimension; after that the recommendations stay. A function that changes the
state returns the new one.

Sizes are compared as quotients of doubles, which are exact rationals here; a
quotient by zero is the infinity or the NaN that the division gives.
-/
import Pointcloud.Patch.Core

namespace Pointcloud

open Pointcloud.Base

/-! ## Statistics on dimensions -/

/-- `PCDIMSTAT`. -/
structure PcDimStat where
  totalRuns : Nat
  totalCommonbits : Nat
  recommendedCompression : DimCompression
  deriving DecidableEq, Repr

/-- `PCDIMSTATS`; `ndims` is the length of `stats`. -/
structure PcDimStats where
  totalPoints : Nat
  totalPatches : Nat
  stats : List PcDimStat
  deriving DecidableEq, Repr

/-- `pc_dimstats_make`. -/
def pcDimstatsMake (schema : PcSchema) : PcDimStats where
  totalPoints := 0
  totalPatches := 0
  stats := List.replicate schema.ndims ⟨0, 0, .none⟩

/-- `num / den > bound` for doubles with `num` and `bound` not negative. -/
def quotientExceeds (num den bound : ℚ) : Prop := if den = 0 then 0 < num else bound < num / den

instance (num den bound : ℚ) : Decidable (quotientExceeds num den bound) := by
  unfold quotientExceeds
  exact inferInstance

/-- The encoding that the statistics of a dimension recommend. The sizes are
counted in `uint32_t` before they become doubles. -/
def recommend (points patches : Nat) (stat : PcDimStat) (dim : PcDimension) : DimCompression :=
  let rawSize : ℚ := uint32 (points * dim.size)
  let rleSize : ℚ := uint32 (stat.totalRuns * uint32 (dim.size + 1))
  let avgCommonbits := stat.totalCommonbits / patches
  let avgUniquebits : ℚ := uint32 (8 * dim.size) - avgCommonbits
  let sigbitsSize : ℚ := uint32 (uint32 (patches * 2) * dim.size) + points * avgUniquebits / 8
  if dim.interpretation = .double then .zlib
  else if quotientExceeds rawSize rleSize 4 then .rle
  else if quotientExceeds rawSize sigbitsSize (8 / 5) then .sigbits
  else .zlib

variable (P : Platform)

/-- The counts of one dimension, with those of another array added. -/
def countDimension (stat : PcDimStat) (pcb : PcBytes) : Run PcDimStat := do
  let runs ← pcBytesRunCount pcb
  let commonbits ← pcBytesSigbitsCount P.endian P.shift pcb
  return { stat with
    totalRuns := uint32 (stat.totalRuns + runs)
    totalCommonbits := uint32 (stat.totalCommonbits + commonbits) }

/-- The recommendation for one dimension. The average divides by the number of
patches, as integers. -/
def recommendDimension (points patches : Nat) (stat : PcDimStat) (dim : PcDimension) :
    Run PcDimStat :=
  if patches = 0 then fault
  else .ok { stat with recommendedCompression := recommend points patches stat dim }

/-- `pc_dimstats_update`. -/
def pcDimstatsUpdate (pds : PcDimStats) (pdl : PcPatchDimensional) : Run PcDimStats := do
  let totalPoints := uint32 (pds.totalPoints + pdl.npoints)
  let totalPatches := uint32 (pds.totalPatches + 1)
  let counted ← (List.range pds.stats.length).mapM fun i => do
    let stat ← wordAt pds.stats i
    let pcb ← wordAt pdl.bytes i
    countDimension P stat pcb
  let stats ← (List.range counted.length).mapM fun i => do
    let stat ← wordAt counted i
    let dim ← wordAt pdl.schema.dims i
    recommendDimension totalPoints totalPatches stat dim
  return ⟨totalPoints, totalPatches, stats⟩

/-! ## Compressing -/

/-- `PCDIMSTATS_MIN_SAMPLE`. -/
def pcdimstatsMinSample : Nat := 10000

/-- `pc_patch_dimensional_compress`: the patch, and the state that the caller has
passed as it is afterwards. -/
def pcPatchDimensionalCompress (pdl : PcPatchDimensional) (pdsIn : Option PcDimStats) :
    Run (PcPatchDimensional × Option PcDimStats) := do
  let pds := pdsIn.getD (pcDimstatsMake pdl.schema)
  let pds ← (if pds.totalPoints < pcdimstatsMinSample then pcDimstatsUpdate P pds pdl else .ok pds)
  let bytes ← (List.range pdl.schema.ndims).mapM fun i => do
    let pcb ← wordAt pdl.bytes i
    let stat ← wordAt pds.stats i
    pcBytesEncode P pcb stat.recommendedCompression
  return ({ pdl with bytes := bytes, stats := pcStatsClone pdl.stats }, pdsIn.map fun _ => pds)

/-- `pc_patch_compress`. -/
def pcPatchCompress (patch : PcPatch) (userdata : Option PcDimStats) :
    Run (PcPatch × Option PcDimStats) :=
  match patch.schema.compression with
  | .dimensional =>
      match patch with
      | .uncompressed p => do
          match ← pcPatchDimensionalFromUncompressed p with
          | none => raise "pc_patch_compress: dimensional compression failed"
          | some pcdu =>
              let (pcdd, userdata) ← pcPatchDimensionalCompress P pcdu userdata
              return (.dimensional pcdd, userdata)
      | .dimensional p => do
          let (pcdd, userdata) ← pcPatchDimensionalCompress P p userdata
          return (.dimensional pcdd, userdata)
      | .lazperf p => do
          let pcu ← pcPatchUncompressedFromLazperf p
          match ← pcPatchDimensionalFromUncompressed pcu with
          | none => fault
          | some pal =>
              let (palc, _) ← pcPatchDimensionalCompress P pal none
              return (.dimensional palc, userdata)
  | .none =>
      match patch with
      | .uncompressed p => .ok (.uncompressed p, userdata)
      | .dimensional p => do
          let pcu ← pcPatchUncompressedFromDimensional P p
          return (.uncompressed pcu, userdata)
      | .lazperf p => do
          let pcu ← pcPatchUncompressedFromLazperf p
          return (.uncompressed pcu, userdata)
  | .lazperf =>
      match patch with
      | .uncompressed p => do
          let pgc ← pcPatchLazperfFromUncompressed p
          return (.lazperf pgc, userdata)
      | .dimensional p => do
          let pad ← pcPatchUncompressedFromDimensional P p
          let pal ← pcPatchLazperfFromUncompressed pad
          return (.lazperf pal, userdata)
      | .lazperf p => .ok (.lazperf p, userdata)
  | .unknown code =>
      raise ("pc_patch_compress: unknown schema compression type " ++ toString (int32 code))

end Pointcloud
