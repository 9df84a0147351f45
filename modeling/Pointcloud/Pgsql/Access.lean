/-
Pointcloud.Pgsql.Access — the functions of SQL on points and patches
(`pc_access.c`, `pc_editor.c`, `pc_inout.c`).

A function is called with serialized points and patches. It looks the schema of
the pcid up, reads the patch, does its work and stores what comes of it; NULL
is `none` here. Functions that need no points read the head of a patch only, with
as much of the data area as the statistics take.

The schema of a pcid is what `lookup` gives, one and the same in every call.
-/
import Pointcloud.Patch.Filter
import Pointcloud.Patch.Sort
import Pointcloud.Pgsql.ArrayInput
import Pointcloud.Pgsql.Editor
import Pointcloud.Pgsql.Hexwkb
import Pointcloud.Pgsql.Typmod

namespace Pointcloud

open Pointcloud.Base

variable (P : Platform) (lookup : Nat → Run (Option PcSchema))

/-- The schema of a pcid, which the functions use without looking at it. -/
def schemaFromPcid (pcid : Nat) : Run PcSchema := do
  match ← lookup pcid with
  | none => fault
  | some schema => return schema

/-- The patch that a function is called with. -/
def readPatch (serpa : SerializedPatch) : Run PcPatch := do
  let schema ← schemaFromPcid lookup serpa.pcid
  pcPatchDeserialize P serpa schema

/-- A patch that is stored, unless there is none. -/
def serializeSome (patch : Option PcPatch) : Run (Option SerializedPatch) :=
  match patch with
  | none => return none
  | some patch => do
      let (serpatch, _) ← pcPatchSerialize P patch none
      return some serpatch

/-! ## Points -/

/-- `pc_point_serialize`. Three bytes that the structure ends with are not written. -/
def pcPointSerialize (pcpt : PcPoint) : Run SerializedPoint := do
  let serptSize := sizeofSerializedPoint - 1 + pcpt.schema.size
  palloc P serptSize
  let data ← readAt pcpt.data 0 pcpt.schema.size
  return { size := setVarsize P.endian serptSize, pcid := pcpt.schema.pcid, data := data }

/-- `pc_point_get_double_by_name`; none for a name that no dimension has. -/
def pcPointGetDoubleByName (pt : PcPoint) (name : String) : Run (Option ℚ) :=
  match pcSchemaGetDimensionByName pt.schema name with
  | none => return none
  | some dim => do
      let val ← pcPointGetDouble P.endian pt dim
      return some val

/-- The value of a named dimension, before it is made a `numeric`. -/
def doubleOrError (pt : PcPoint) (dimStr : String) : Run ℚ := do
  match ← pcPointGetDoubleByName P pt dimStr with
  | none => raise ("dimension \"" ++ dimStr ++ "\" does not exist in schema")
  | some val => return val

/-- `pcpoint_get_value`. -/
def pcpointGetValue (serpt : SerializedPoint) (dimName : String) : Run ℚ := do
  let schema ← schemaFromPcid lookup serpt.pcid
  let pt ← pcPointDeserialize P.endian serpt schema
  doubleOrError P pt dimName

/-- `pcpoint_get_values`. -/
def pcpointGetValues (serpt : SerializedPoint) : Run (List ℚ) := do
  let schema ← schemaFromPcid lookup serpt.pcid
  let pt ← pcPointDeserialize P.endian serpt schema
  pcPointToDoubleArray P.endian pt

/-! ## Text -/

/-- `pc_patch_to_hexwkb`, with the null byte at its end. -/
def pcPatchToHexwkb (patch : PcPatch) : Run Bytes := do
  let (wkb, wkbSize) ← pcPatchToWkb P patch
  let bytes ← readAt wkb 0 wkbSize
  pcHexbytesFromBytes bytes

/-- `pcpatch_in`, of a string without its null byte. -/
def pcpatchIn (str : Bytes) (typmod : Option Int) : Run SerializedPatch :=
  let pcid := (typmod.map pcidFromTypmod).getD 0
  match str.head? with
  | none => raise "pcpatch parse error - empty string"
  | some c =>
      if c = 48 then do
        let patch ← pcPatchFromHexwkb P lookup str
        pcidConsistent patch.schema.pcid pcid
        let (serpatch, _) ← pcPatchSerialize P patch none
        return serpatch
      else raise "parse error - support for text format not yet implemented"

/-- `pcpatch_out`. -/
def pcpatchOut (serpatch : SerializedPatch) : Run Bytes := do
  let patch ← readPatch P lookup serpatch
  pcPatchToHexwkb P patch

/-! ## Patches from arrays -/

/-- `pcpatch_from_pcpoint_array`, and the aggregate over points. -/
def pcpatchFromPcpointArray (array : ArrayType) : Run (Option SerializedPatch) := do
  let pa ← pcpatchFromPointArray P lookup array
  serializeSome P (pa.map .uncompressed)

/-- `pcpatch_from_pcpatch_array`, and the aggregate over patches. -/
def pcpatchFromPcpatchArray (array : ArrayType) : Run (Option SerializedPatch) := do
  let pa ← pcpatchFromPatchArray P lookup array
  serializeSome P (pa.map .uncompressed)

/-- The type `float8` of elements. -/
def float8oid : Nat := 701

/-- An array of numbers, with what the function looks at. The number of its elements is
an `int`. -/
structure FloatArray where
  elemtype : Nat
  ndim : Int
  hasnull : Bool
  elems : List ℚ
  length_lt : elems.length < 2147483648

/-- The points that the numbers make, one after the other. -/
def pointsOfFloats (schema : PcSchema) (vals : List ℚ) (npoints : Int) : Run (List PcPoint) :=
  (List.range npoints.toNat).mapM fun i =>
    pcPointFromDoubleArray P schema vals (uint32 (i * schema.ndims)) (uint32 schema.ndims)

/-- The numbers of an array as a list of points. -/
def pointlistOfFloats (pcid : Nat) (arrptr : FloatArray) : Run PcPointlist := do
  match ← lookup pcid with
  | none => raise ("unable to load schema for pcid = " ++ toString (int32 pcid))
  | some schema =>
      let ndims := int32 schema.ndims
      let nelems := (arrptr.elems.length : Int)
      if arrptr.elemtype ≠ float8oid then raise "array must be of float8[]"
      else if arrptr.ndim ≠ 1 then raise "float8[] must have one dimension"
      else if arrptr.hasnull then raise "float8[] must not have null elements"
      else if nelems.tmod ndims ≠ 0 then
        raise ("array dimensions do not match schema dimensions of pcid = " ++
          toString (int32 pcid))
      else do
        let _ ← pcalloc (8 * arrptr.elems.length)
        let pts ← pointsOfFloats P schema arrptr.elems (nelems.tdiv ndims)
        pointlistOf pts

/-- `pcpatch_from_float_array`. -/
def pcpatchFromFloatArray (pcid : Nat) (arrptr : FloatArray) : Run SerializedPatch := do
  let pl ← pointlistOfFloats P lookup pcid arrptr
  let pa ← pcPatchUncompressedFromPointlist P pl
  let (serpa, _) ← pcPatchSerialize P (.uncompressed pa) none
  return serpa

/-! ## Patches from patches -/

/-- `pc_patch_serialize_to_uncompressed`. -/
def pcPatchSerializeToUncompressed (patchIn : PcPatch) : Run SerializedPatch := do
  let patch ← pcPatchUncompress P patchIn
  pcPatchUncompressedSerialize P patch

/-- `pcpatch_uncompress`. -/
def pcpatchUncompress (serpa : SerializedPatch) : Run SerializedPatch := do
  let patch ← readPatch P lookup serpa
  pcPatchSerializeToUncompressed P patch

/-- `pcpatch_range`. -/
def pcpatchRange (serpa : SerializedPatch) (first count : Int) : Run (Option SerializedPatch) := do
  let patch ← readPatch P lookup serpa
  let patchout ← pcPatchRange P patch first count
  serializeSome P patchout

/-- The filter that a mode stands for. -/
def filterOfMode (patch : PcPatch) (dimName : String) (value1 value2 : ℚ) (mode : Int) :
    Run (Option PcPatch) :=
  if mode = 0 then pcPatchFilterLtByName P patch dimName value1
  else if mode = 1 then pcPatchFilterGtByName P patch dimName value1
  else if mode = 2 then pcPatchFilterEqualByName P patch dimName value1
  else if mode = 3 then pcPatchFilterBetweenByName P patch dimName value1 value2
  else raise ("unknown mode \"" ++ toString mode ++ "\"")

/-- `pcpatch_filter`. A patch without points is NULL. -/
def pcpatchFilter (serpatch : SerializedPatch) (dimName : String) (value1 value2 : ℚ)
    (mode : Int) : Run (Option SerializedPatch) := do
  let patch ← readPatch P lookup serpatch
  match ← filterOfMode P patch dimName value1 value2 mode with
  | none => raise ("dimension \"" ++ dimName ++ "\" does not exist")
  | some patchFiltered =>
      if patchFiltered.npoints ≤ 0 then return none else serializeSome P (some patchFiltered)

/-- `pcpatch_sort`, by the strings of an array. -/
def pcpatchSort (S : SortR) (serpatch : SerializedPatch) (dimName : List String) :
    Run SerializedPatch :=
  if dimName = [] then return serpatch
  else do
    let patch ← readPatch P lookup serpatch
    let patchSorted ← pcPatchSort P S patch dimName
    let (serpatchSorted, _) ← pcPatchSerialize P patchSorted none
    return serpatchSorted

/-- `pcpatch_setpcid`. -/
def pcpatchSetpcid (serpa : SerializedPatch) (pcid : Nat) (dflt : ℚ) : Run SerializedPatch := do
  let oschema ← schemaFromPcid lookup serpa.pcid
  let nschema ← schemaFromPcid lookup pcid
  pcpatchSetSchema P serpa oschema nschema dflt

/-- `pcpatch_transform`. -/
def pcpatchTransform (serpa : SerializedPatch) (pcid : Nat) (dflt : ℚ) :
    Run (Option SerializedPatch) := do
  let oschema ← schemaFromPcid lookup serpa.pcid
  let nschema ← schemaFromPcid lookup pcid
  let patch ← pcPatchDeserialize P serpa oschema
  let paout ← pcPatchTransform P patch nschema dflt
  serializeSome P (paout.map .uncompressed)

/-! ## Points of patches -/

/-- `pcpatch_pointn`. -/
def pcpatchPointn (serpa : SerializedPatch) (n : Int) : Run (Option SerializedPoint) := do
  let patch ← readPatch P lookup serpa
  match ← pcPatchPointn P patch n with
  | none => return none
  | some pt =>
      let serpt ← pcPointSerialize P pt
      return some serpt

/-- `pcpatch_unnest`: the points that its calls return one after the other. Their number
is an `int`. -/
def pcpatchUnnest (serpatch : SerializedPatch) : Run (List SerializedPoint) := do
  let patch ← readPatch P lookup serpatch
  let pointlist ← pcPointlistFromPatch P patch
  (List.range (intCount patch.npoints)).mapM fun nextelem => do
    let pt ← wordAt pointlist nextelem
    pcPointSerialize P pt

/-- `pcpatch_is_sorted`. -/
def pcpatchIsSorted (serpatch : SerializedPatch) (dimName : List String) (strict : Bool) :
    Run Bool :=
  if dimName = [] then return true
  else do
    let patch ← readPatch P lookup serpatch
    pcPatchIsSorted P patch dimName (if strict then 1 else 0)

/-! ## Heads -/

/-- `PG_DETOAST_DATUM_SLICE` from the begin: as many bytes behind the word of the length
as are asked for, if there are. -/
def detoastSlice (en : Endian) (serpa : SerializedPatch) (count : Nat) : SerializedPatch :=
  let size := 4 + min count (varsize en serpa.size - 4)
  { serpa with
    size := setVarsize en size
    data := serpa.data.take (size - offsetofData) }

/-- `PG_GETHEADERX_SERPATCH_P`. -/
def getHeaderX (en : Endian) (serpa : SerializedPatch) (extra : Nat) : SerializedPatch :=
  detoastSlice en serpa (sizeofSerializedPatch + extra)

/-- `pcpatch_numpoints`. -/
def pcpatchNumpoints (serpa : SerializedPatch) : Int := int32 (getHeaderX P.endian serpa 0).npoints

/-- `pcpatch_pcid`. -/
def pcpatchPcid (serpa : SerializedPatch) : Int := int32 (getHeaderX P.endian serpa 0).pcid

/-- `pcpatch_compression`. -/
def pcpatchCompression (serpa : SerializedPatch) : Int :=
  int32 (getHeaderX P.endian serpa 0).compression

/-- `pc_bounds_intersects`. -/
def pcBoundsIntersects (b1 b2 : PcBounds) : Bool :=
  !(b2.xmax < b1.xmin || b1.xmax < b2.xmin || b2.ymax < b1.ymin || b1.ymax < b2.ymin)

/-- `pcpatch_intersects`. -/
def pcpatchIntersects (serpa1 serpa2 : SerializedPatch) : Run Bool :=
  let serpa1 := getHeaderX P.endian serpa1 0
  let serpa2 := getHeaderX P.endian serpa2 0
  if serpa1.pcid ≠ serpa2.pcid then
    raise ("pcpatch_intersects: pcid mismatch (" ++ toString (int32 serpa1.pcid) ++ " != " ++
      toString (int32 serpa2.pcid) ++ ")")
  else return pcBoundsIntersects serpa1.bounds serpa2.bounds

/-- The statistics of a patch, of which 400 bytes are fetched at first. -/
def headerStats (serpa : SerializedPatch) : Run PcStats := do
  let statsSizeGuess := 400
  let head := getHeaderX P.endian serpa statsSizeGuess
  let schema ← schemaFromPcid lookup head.pcid
  let head := if statsSizeGuess < pcStatsSize schema then
    getHeaderX P.endian serpa (pcStatsSize schema) else head
  pcPatchStatsDeserialize schema head.data

/-- The point of the statistics that a number stands for. -/
def pointOfStats (stats : PcStats) (statno : Int) : Run PcPoint :=
  if statno = 0 then return stats.min
  else if statno = 1 then return stats.max
  else if statno = 2 then return stats.avg
  else raise ("stat number \"" ++ toString statno ++ "\" is not supported")

/-- `pcpatch_get_stat`, without the name of a dimension. -/
def pcpatchGetStatPoint (serpa : SerializedPatch) (statno : Int) : Run SerializedPoint := do
  let stats ← headerStats P lookup serpa
  let pt ← pointOfStats stats statno
  pcPointSerialize P pt

/-- `pcpatch_get_stat`, with the name of a dimension. -/
def pcpatchGetStat (serpa : SerializedPatch) (statno : Int) (dimStr : String) : Run ℚ := do
  let stats ← headerStats P lookup serpa
  let pt ← pointOfStats stats statno
  doubleOrError P pt dimStr

end Pointcloud
