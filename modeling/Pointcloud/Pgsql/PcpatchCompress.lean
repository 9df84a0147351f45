/-
Pointcloud.Pgsql.PcpatchCompress — PC_Compress (`pc_access.c`).

The patch is uncompressed and brought into the compression that is asked for. With
dimensional compression, a configuration may name an encoding for each dimension;
where it does not, the statistics on the patch decide.

The configuration is a string, of which the code keeps a pointer to what is still to
be read: here, the characters that are left.
-/
import Pointcloud.Pgsql.Serialize

namespace Pointcloud

open Pointcloud.Base

/-! ## The configuration -/

/-- `strncmp(ptr, word, strlen(word)) == 0`. -/
def startsWith (ptr : List Char) (word : String) : Bool := word.toList.isPrefixOf ptr

/-- `stat->recommended_compression`, by what the pointer leads to. -/
def setRecommended (stat : PcDimStat) (ptr : List Char) : Run PcDimStat :=
  if ptr.head? = some ',' ∨ startsWith ptr "auto" then .ok stat
  else if startsWith ptr "rle" then .ok { stat with recommendedCompression := .rle }
  else if startsWith ptr "sigbits" then .ok { stat with recommendedCompression := .sigbits }
  else if startsWith ptr "zlib" then .ok { stat with recommendedCompression := .zlib }
  else
    raise ("Unrecognized dimensional compression '" ++ String.ofList ptr ++
      "'. Please specify 'auto', 'rle', 'sigbits' or 'zlib'")

/-- The loop over the dimensions. -/
def fillRecommended : List PcDimStat → List Char → Run (List PcDimStat)
  | [], _ => .ok []
  | stat :: stats, ptr => do
      let stat ← setRecommended stat ptr
      -- while (*ptr && *ptr != ',') ++ptr
      match ptr.dropWhile fun c => c != ',' with
      | [] => return stat :: stats
      | _ :: ptr => do
          let stats ← fillRecommended stats ptr
          return stat :: stats

/-- Per-dimension compression is filled in unless the configuration is empty. -/
def applyConfig (stats : PcDimStats) (configIn : List Char) : Run PcDimStats :=
  if configIn = [] then .ok stats
  else do
    let filled ← fillRecommended stats.stats configIn
    return { stats with stats := filled }

/-! ## The function -/

variable (P : Platform) (lookup : Nat → Run (Option PcSchema))

/-- `strcasecmp(a, b) == 0`. -/
def sameLetters (a : List Char) (b : String) : Bool :=
  a.map lowerAscii == b.toList.map lowerAscii

/-- The statistics on the dimensions of the patch. More samples are not taken. -/
def sampledStats (schema : PcSchema) (pdl : PcPatchDimensional) : Run PcDimStats := do
  let stats ← pcDimstatsUpdate P (pcDimstatsMake schema) pdl
  return { stats with totalPoints := pcdimstatsMinSample + 1 }

/-- Dimensional compression by a configuration. -/
def compressDimensions (schema : PcSchema) (pa : PcPatchUncompressed) (configIn : List Char) :
    Run (PcPatchDimensional × Option PcDimStats) := do
  match ← pcPatchDimensionalFromUncompressed pa with
  | none => fault
  | some pdl =>
      let stats ← sampledStats P schema pdl
      let stats ← applyConfig stats configIn
      pcPatchDimensionalCompress P pdl (some stats)

/-- `pcpatch_compress`. -/
def pcpatchCompress (serpa : SerializedPatch) (comprIn configIn : List Char) :
    Run SerializedPatch := do
  match ← lookup serpa.pcid with
  | none => fault
  | some schema =>
      let patchIn ← pcPatchDeserialize P serpa schema
      let pa ← pcPatchUncompress P patchIn
      let overridden := pcSchemaClone schema
      if comprIn = [] ∨ sameLetters comprIn "auto" then do
        let (serpaOut, _) ← pcPatchSerialize P (.uncompressed { pa with schema := overridden }) none
        return serpaOut
      else if comprIn = "dimensional".toList then do
        let (pdl, stats) ← compressDimensions P schema pa configIn
        let (serpaOut, _) ← pcPatchSerialize P (.dimensional { pdl with
          schema := { overridden with compression := .dimensional } }) stats
        return serpaOut
      else if comprIn = "laz".toList then do
        let (serpaOut, _) ← pcPatchSerialize P (.uncompressed { pa with
          schema := { overridden with compression := .lazperf } }) none
        return serpaOut
      else
        raise ("Unrecognized compression '" ++ String.ofList comprIn ++
          "'. Please specify 'auto','dimensional' or 'laz'")

end Pointcloud
