/-
Pointcloud.Patch.Edit — patches made from points and from other patches
(`pc_patch.c`, `pc_patch_uncompressed.c`).

All of these make an uncompressed patch. What they copy comes from one block
and goes to another, so the copies of a function are collected first and
written then. The bytes that a grown buffer gains, and a buffer that is too
large keeps, are zero here.
-/
import Pointcloud.Patch.Stats

namespace Pointcloud

open Pointcloud.Base

variable (P : Platform)

/-! ## Points -/

/-- `PCPOINTLIST`, the entries that are in use; an entry may be null. -/
structure PcPointlist where
  points : List (Option PcPoint)
  length_lt : points.length < 4294967296

/-- Copy a point behind the ones that were copied before. -/
def copyPoint (s : PcSchema) (pt : PcPoint) : Run Bytes :=
  if pt.schema.pcid ≠ s.pcid then
    raise "pc_patch_uncompressed_from_pointlist: points do not share a schema"
  else readAt pt.data 0 s.size

/-- `pc_patch_uncompressed_from_pointlist`. The schema is that of the first
entry; null entries are skipped. -/
def pcPatchUncompressedFromPointlist (pl : PcPointlist) : Run PcPatchUncompressed :=
  match pl.points with
  | [] => raise "pc_patch_uncompressed_from_pointlist: zero size PCPOINTLIST passed in"
  | none :: _ => fault
  | some pt :: _ => do
      let s := pt.schema
      let datasize := s.size * pl.points.length
      let data ← pcalloc datasize
      intLoop pl.points.length
      let recs ← (pl.points.filterMap id).mapM (copyPoint s)
      let written ← emit datasize [] recs.flatten
      let pch ← pcPatchUncompressedComputeExtent P.endian {
        readonly := false
        schema := s
        npoints := recs.length
        bounds := pcBoundsInit
        stats := none
        maxpoints := pl.points.length
        datasize := datasize
        data := bufOf (written ++ data.drop written.length) }
      pcPatchUncompressedComputeStats P pch

/-- `pcrealloc`. -/
def pcrealloc (data : Bytes) (size : Nat) : Run Bytes := do
  let grown ← pcalloc size
  return (data ++ grown.drop data.length).take size

/-- `pc_patch_uncompressed_add_point`. -/
def pcPatchUncompressedAddPoint (c : PcPatchUncompressed) (p : PcPoint) :
    Run PcPatchUncompressed := do
  if c.schema.pcid ≠ p.schema.pcid then
    raise ("pc_patch_uncompressed_add_point: pcids of point (" ++ toString (int32 c.schema.pcid) ++
      ") and patch (" ++ toString (int32 p.schema.pcid) ++ ") not equal")
  else if c.readonly then
    raise "pc_patch_uncompressed_add_point: cannot add point to readonly patch"
  else
    let sz := c.schema.size
    let c ← (if c.npoints = c.maxpoints then do
        let maxpoints := uint32 (c.maxpoints * 2)
        let data ← pcrealloc c.data.content (maxpoints * sz)
        return { c with maxpoints := maxpoints, datasize := maxpoints * sz, data := bufOf data }
      else return c)
    let src ← readAt p.data 0 sz
    let data ← writeAt c.data.content (sz * c.npoints : Nat) src
    let x ← pcPointGetCoordinate P.endian p.data 0 p.schema.xdimension
    let y ← pcPointGetCoordinate P.endian p.data 0 p.schema.ydimension
    return { c with npoints := c.npoints + 1, bounds := c.bounds.widen x y, data := bufOf data }

/-! ## Patches put together -/

/-- `pc_bounds_merge`. -/
def pcBoundsMerge (b1 b2 : PcBounds) : PcBounds where
  xmin := if b2.xmin < b1.xmin then b2.xmin else b1.xmin
  xmax := if b1.xmax < b2.xmax then b2.xmax else b1.xmax
  ymin := if b2.ymin < b1.ymin then b2.ymin else b1.ymin
  ymax := if b1.ymax < b2.ymax then b2.ymax else b1.ymax

/-- The records of a patch that are copied. -/
def recordsOfPatch (pa : PcPatch) : Run Bytes := do
  let pu ← pcPatchUncompress P pa
  readAt pu.data.content 0 (pu.schema.size * pu.npoints)

/-- `pc_patch_from_patchlist`. The points are counted in 32 bits. -/
def pcPatchFromPatchlist (palist : List PcPatch) : Run PcPatchUncompressed :=
  match palist with
  | [] => .error .assertion
  | first :: _ => do
      let schema := first.schema
      if ∃ pa ∈ palist, schema.pcid ≠ pa.schema.pcid then
        raise "pc_patch_from_patchlist: inconsistent schemas in input"
      else
        let totalpoints := uint32 ((palist.map PcPatch.npoints).sum : Nat)
        let paout ← pcPatchUncompressedMake schema totalpoints
        let recs ← palist.mapM (recordsOfPatch P)
        let written ← emit paout.data.content.length [] recs.flatten
        pcPatchUncompressedComputeStats P { paout with
          npoints := totalpoints
          bounds := (palist.map PcPatch.bounds).foldl pcBoundsMerge paout.bounds
          data := bufOf (written ++ paout.data.content.drop written.length) }

/-- `pc_patch_range`: `count` points from the `first` on, counted from 1; the
null pointer for none. -/
def pcPatchRange (pa : PcPatch) (first count : Int) : Run (Option PcPatch) := do
  let first := int32 (first - 1)
  let countmax := int32 (pa.npoints - first)
  let count := if countmax < count then countmax else count
  if first < 0 ∨ count ≤ 0 then return none
  else if count = pa.npoints then return some pa
  else
    let paout ← pcPatchUncompressedMake pa.schema count.toNat
    let pu ← pcPatchUncompress P pa
    let src ← readAt pu.data.content (pa.schema.size * first) (pa.schema.size * count.toNat)
    let written ← emit paout.data.content.length [] src
    let paout ← pcPatchUncompressedComputeExtent P.endian { paout with
      npoints := count.toNat
      data := bufOf (written ++ paout.data.content.drop written.length) }
    let paout ← pcPatchUncompressedComputeStats P paout
    return some (.uncompressed paout)

/-! ## Other schemas -/

/-- The copies of `pc_patch_point_set`: every dimension from where the old point
has it, or from the default point. -/
def pointCopies (dims : List (PcDimension × Option PcDimension)) (dst : Nat) (data : Bytes)
    (src : Nat) (dflt : Bytes) : Run (List (Int × Bytes)) :=
  dims.mapM fun (pdim, ddim) => do
    let value ← match ddim with
      | some ddim => readAt data (src + ddim.byteoffset : Nat) pdim.size
      | none => readAt dflt pdim.byteoffset pdim.size
    return (((dst + pdim.byteoffset : Nat) : Int), value)

/-- `pc_patch_point_set`, of a new point. -/
def pcPatchPointSet (schema : PcSchema) (dims : List (PcDimension × Option PcDimension))
    (data dflt : Bytes) : Run PcPoint := do
  let copies ← pointCopies dims 0 data 0 dflt
  let set ← writeAll (zeros schema.size) copies
  pcPointOf false schema set

/-- Where a dimension of the new schema comes from, and the point of the default
values. -/
def matchDimension (oldSchema : PcSchema) (dflt : ℚ) (dpt : PcPoint) (ndim : PcDimension) :
    Run (Option PcDimension × PcPoint) := do
  match ← pcSchemaGetDimensionLike oldSchema ndim with
  | some odim =>
      if ndim.interpretation ≠ odim.interpretation then
        raise "dimension interpretations are not matching"
      else return (some odim, dpt)
  | none => do
      let dpt ← pcPointSetDouble P dpt ndim dflt
      return (none, dpt)

/-- All of them in turn. -/
def matchDimensions (oldSchema : PcSchema) (dflt : ℚ) :
    List PcDimension → PcPoint → Run (List (Option PcDimension) × PcPoint)
  | [], dpt => .ok ([], dpt)
  | ndim :: ndims, dpt => do
      let (odim, dpt) ← matchDimension P oldSchema dflt dpt ndim
      let (odims, dpt) ← matchDimensions oldSchema dflt ndims dpt
      return (odim :: odims, dpt)

/-- A coordinate of a point, if its schema has one. -/
def coordinateOr (en : Endian) (pt : PcPoint) (dim : Option PcDimension) (val : ℚ) : Run ℚ :=
  match dim with
  | none => .ok val
  | some dim => pcPointGetDouble en pt dim

/-- The bounds that statistics give. -/
def boundsFromStats (en : Endian) (s : PcSchema) (stats : PcStats) (bounds : PcBounds) :
    Run PcBounds := do
  let xmin ← coordinateOr en stats.min s.xdimension bounds.xmin
  let ymin ← coordinateOr en stats.min s.ydimension bounds.ymin
  let xmax ← coordinateOr en stats.max s.xdimension bounds.xmax
  let ymax ← coordinateOr en stats.max s.ydimension bounds.ymax
  return ⟨xmin, xmax, ymin, ymax⟩

/-- The bounds without statistics: those of the old patch in the terms of the new
schema. The greatest y goes into `xmax`. -/
def boundsRescaled (old new : PcSchema) (bounds out : PcBounds) : Run PcBounds :=
  match new.xdimension, old.xdimension, new.ydimension, old.ydimension with
  | some nx, some ox, some ny, some oy =>
      let xscale := nx.scale / ox.scale
      let yscale := ny.scale / oy.scale
      let xoffset := nx.offset - ox.offset
      let yoffset := ny.offset - oy.offset
      .ok { out with
        xmin := bounds.xmin * xscale + xoffset
        ymin := bounds.ymin * yscale + yoffset
        xmax := bounds.ymax * yscale + yoffset }
  | _, _, _, _ => fault

/-- `pc_patch_set_schema`. -/
def pcPatchSetSchema (patch : PcPatch) (newSchema : PcSchema) (dflt : ℚ) :
    Run PcPatchUncompressed := do
  let dpt ← pcPointMake newSchema
  let (odims, dpt) ← matchDimensions P patch.schema dflt newSchema.dims dpt
  let dims := newSchema.dims.zip odims
  let pain ← pcPatchUncompress P patch
  let paout ← pcPatchUncompressedMake newSchema patch.npoints
  let copies ← (List.range patch.npoints).mapM fun i =>
    pointCopies dims (i * newSchema.size) pain.data.content (i * patch.schema.size) dpt.data
  let data ← writeAll paout.data.content copies.flatten
  let paout := { paout with npoints := pain.npoints, data := bufOf data }
  match patch.stats with
  | some stats => do
      let min ← pcPatchPointSet newSchema dims stats.min.data dpt.data
      let max ← pcPatchPointSet newSchema dims stats.max.data dpt.data
      let avg ← pcPatchPointSet newSchema dims stats.avg.data dpt.data
      let bounds ← boundsFromStats P.endian newSchema ⟨min, max, avg⟩ paout.bounds
      return { paout with stats := some ⟨min, max, avg⟩, bounds := bounds }
  | none => do
      let bounds ← boundsRescaled patch.schema newSchema patch.bounds paout.bounds
      return { paout with bounds := bounds }

/-- The values of `pc_patch_transform`, stored for the new schema. -/
def transformCopies (dims : List (PcDimension × Option PcDimension)) (dst : Nat) (data : Bytes)
    (src : Nat) (dflt : ℚ) : Run (List (Int × Bytes)) :=
  dims.mapM fun (ndim, odim) => do
    let val ← match odim with
      | some odim => pcPointGetDoubleAt P.endian data src odim
      | none => .ok dflt
    let value ← pcDoubleToPtr P ndim.interpretation (pcValueUnscaleUnoffset val ndim)
    return (((dst + ndim.byteoffset : Nat) : Int), value)

/-- `pc_patch_transform`; the null pointer if the reference systems differ. -/
def pcPatchTransform (patch : PcPatch) (newSchema : PcSchema) (dflt : ℚ) :
    Run (Option PcPatchUncompressed) := do
  if patch.schema.srid ≠ newSchema.srid then return none
  else
    let odims ← newSchema.dims.mapM (pcSchemaGetDimensionLike patch.schema)
    let dims := newSchema.dims.zip odims
    let pain ← pcPatchUncompress P patch
    let paout ← pcPatchUncompressedMake newSchema patch.npoints
    let copies ← (List.range patch.npoints).mapM fun i =>
      transformCopies P dims (i * newSchema.size) pain.data.content (i * patch.schema.size) dflt
    let data ← writeAll paout.data.content copies.flatten
    let paout ← pcPatchUncompressedComputeExtent P.endian { paout with
      npoints := pain.npoints
      data := bufOf data }
    let paout ← pcPatchUncompressedComputeStats P paout
    return some paout

end Pointcloud
