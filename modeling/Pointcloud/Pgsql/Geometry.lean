/-
Pointcloud.Pgsql.Geometry — points and bounding diagonals as geometries (`pc_point.c`,
`pc_util.c`, `pc_inout.c`).

A point is written with the coordinates that its schema has dimensions for, and the
diagonal of a patch from the corner of the least to the corner of the greatest
coordinates: of the bounds, or of the statistics if there is a z or an m.
-/
import Pointcloud.Base.EwkbLine
import Pointcloud.Pgsql.Access
import Pointcloud.Pgsql.Envelope
import Pointcloud.SchemaXml

namespace Pointcloud

open Pointcloud.Base

/-! ## Coordinates -/

/-- The last dimension with one of the names: the one that `pc_schema_check_xyzm` leaves. -/
def lastNamed (names : List String) (dims : List PcDimension) : Option PcDimension :=
  (dims.filter fun dim => dim.name.any fun name => names.any (sameName name)).getLast?

/-- `schema->zdim`. -/
def PcSchema.zdimension (s : PcSchema) : Option PcDimension := lastNamed zNames s.dims

/-- `schema->mdim`. -/
def PcSchema.mdimension (s : PcSchema) : Option PcDimension := lastNamed mNames s.dims

section Coordinates

variable (en : Endian) (pt : PcPoint)

/-- `pc_point_get_double`, of a dimension that may be the null pointer. -/
def pcPointGetDoubleOf (dim : Option PcDimension) : Run (Option ℚ) :=
  match dim with
  | none => return none
  | some dim => do
      let val ← pcPointGetDouble en pt dim
      return some val

/-- `pc_point_get_x`. -/
def pcPointGetX : Run (Option ℚ) := pcPointGetDoubleOf en pt pt.schema.xdimension

/-- `pc_point_get_y`. -/
def pcPointGetY : Run (Option ℚ) := pcPointGetDoubleOf en pt pt.schema.ydimension

/-- `pc_point_get_z`. -/
def pcPointGetZ : Run (Option ℚ) := pcPointGetDoubleOf en pt pt.schema.zdimension

/-- `pc_point_get_m`. -/
def pcPointGetM : Run (Option ℚ) := pcPointGetDoubleOf en pt pt.schema.mdimension

end Coordinates

/-! ## Fields -/

def sridMask : Nat := 0x20000000
def mMask : Nat := 0x40000000
def zMask : Nat := 0x80000000

/-- A type and a size, with a flag and more bytes if there is something to write. -/
def withFlag (has : Bool) (mask bytes : Nat) (wkb : Nat × Nat) : Nat × Nat :=
  if has then (wkb.1 ||| mask, wkb.2 + bytes) else wkb

section Fields

variable (en : Endian)

/-- `wkb_set_double`. -/
def wkbSetDouble (wkb : Bytes × Nat) (d : ℚ) : Run (Bytes × Nat) :=
  pcPatchWkbSet wkb (en.bytesOf 8 (ieeeEncode 11 52 d))

/-- `wkb_set_uint32`. -/
def wkbSetUint32 (wkb : Bytes × Nat) (i : Nat) : Run (Bytes × Nat) :=
  pcPatchWkbSet wkb (en.bytesOf 4 i)

/-- `wkb_set_char`. -/
def wkbSetChar (wkb : Bytes × Nat) (c : Byte) : Run (Bytes × Nat) := pcPatchWkbSet wkb [c]

/-- A double that is written if there is one. -/
def wkbSetDoubleIf (wkb : Bytes × Nat) (d : Option ℚ) : Run (Bytes × Nat) :=
  match d with
  | none => .ok wkb
  | some d => wkbSetDouble en wkb d

/-- The identifier of a reference system, if there is one. -/
def wkbSetSrid (wkb : Bytes × Nat) (srid : Nat) : Run (Bytes × Nat) :=
  if srid ≠ 0 then wkbSetUint32 en wkb srid else .ok wkb

/-! ## Points -/

/-- `pc_point_to_geometry_wkb`: the block and `wkbsize`; none without an x or a y. -/
def pcPointToGeometryWkb (pt : PcPoint) : Run (Option (Bytes × Nat)) := do
  let srid := pt.schema.srid
  let x ← pcPointGetX en pt
  let y ← pcPointGetY en pt
  let z ← pcPointGetZ en pt
  let m ← pcPointGetM en pt
  match x, y with
  | some x, some y => do
      let (wkbtype, size) := withFlag m.isSome mMask 8 (withFlag z.isSome zMask 8
        (withFlag (srid ≠ 0) sridMask 4 (1, 1 + 4 + 8 + 8)))
      let wkb ← pcalloc size
      let ptr : Bytes × Nat := (wkb, 0)
      let ptr ← wkbSetChar ptr (machineEndian en)
      let ptr ← wkbSetUint32 en ptr wkbtype
      let ptr ← wkbSetSrid en ptr srid
      let ptr ← wkbSetDouble en ptr x
      let ptr ← wkbSetDouble en ptr y
      let ptr ← wkbSetDoubleIf en ptr z
      let ptr ← wkbSetDoubleIf en ptr m
      return some (ptr.1, size)
  | _, _ => return none

/-! ## Diagonals -/

/-- `pc_bounding_diagonal_wkb_from_bounds`. -/
def pcBoundingDiagonalWkbFromBounds (bounds : PcBounds) (schema : PcSchema) :
    Run (Bytes × Nat) := do
  let (wkbtype, size) := withFlag (schema.srid ≠ 0) sridMask 4 (2, 1 + 4 + 4 + 2 * 2 * 8)
  let wkb ← pcalloc size
  let ptr : Bytes × Nat := (wkb, 0)
  let ptr ← wkbSetChar ptr (machineEndian en)
  let ptr ← wkbSetUint32 en ptr wkbtype
  let ptr ← wkbSetSrid en ptr schema.srid
  let ptr ← wkbSetUint32 en ptr 2
  -- point 1
  let ptr ← wkbSetDouble en ptr bounds.xmin
  let ptr ← wkbSetDouble en ptr bounds.ymin
  -- point 2
  let ptr ← wkbSetDouble en ptr bounds.xmax
  let ptr ← wkbSetDouble en ptr bounds.ymax
  return (ptr.1, size)

/-- A coordinate that is read into a variable and written; the variable stays as it is if
there is no such dimension. -/
def wkbSetCoordinate (get : Run (Option ℚ)) (wkb : (Bytes × Nat) × ℚ) :
    Run ((Bytes × Nat) × ℚ) := do
  let found ← get
  let val := found.getD wkb.2
  let ptr ← wkbSetDouble en wkb.1 val
  return (ptr, val)

/-- A point of `pc_bounding_diagonal_wkb_from_stats`. -/
def wkbSetStat (schema : PcSchema) (stat : PcPoint) (wkb : (Bytes × Nat) × ℚ) :
    Run ((Bytes × Nat) × ℚ) := do
  let wkb ← wkbSetCoordinate en (pcPointGetX en stat) wkb
  let wkb ← wkbSetCoordinate en (pcPointGetY en stat) wkb
  let wkb ← (if schema.zdimension.isSome then wkbSetCoordinate en (pcPointGetZ en stat) wkb
    else .ok wkb)
  if schema.mdimension.isSome then wkbSetCoordinate en (pcPointGetM en stat) wkb else .ok wkb

/-- `pc_bounding_diagonal_wkb_from_stats`. The variable for a coordinate holds anything
before one is read; what it does is the argument `garbage`. -/
def pcBoundingDiagonalWkbFromStats (garbage : ℚ) (stats : PcStats) : Run (Bytes × Nat) := do
  let schema := stats.min.schema
  let (wkbtype, size) := withFlag schema.mdimension.isSome mMask (2 * 8)
    (withFlag schema.zdimension.isSome zMask (2 * 8)
      (withFlag (schema.srid ≠ 0) sridMask 4 (2, 1 + 4 + 4 + 2 * 2 * 8)))
  let wkb ← pcalloc size
  let ptr : Bytes × Nat := (wkb, 0)
  let ptr ← wkbSetChar ptr (machineEndian en)
  let ptr ← wkbSetUint32 en ptr wkbtype
  let ptr ← wkbSetSrid en ptr schema.srid
  let ptr ← wkbSetUint32 en ptr 2
  let ptr ← wkbSetStat en schema stats.min (ptr, garbage)
  let ptr ← wkbSetStat en schema stats.max ptr
  return (ptr.1.1, size)

end Fields

/-! ## Functions of SQL -/

variable (P : Platform) (lookup : Nat → Run (Option PcSchema))

/-- `pcpoint_as_bytea`: the bytes that are returned. A geometry that was not made is read
all the same. -/
def pcpointAsBytea (serpt : SerializedPoint) : Run Bytes := do
  let schema ← schemaFromPcid lookup serpt.pcid
  let pt ← pcPointDeserialize P.endian serpt schema
  match ← pcPointToGeometryWkb P.endian pt with
  | none => fault
  | some (bytes, bytesSize) => readAt bytes 0 bytesSize

/-- `pcpatch_bounding_diagonal_as_bytea`: the bytes that are returned. -/
def pcpatchBoundingDiagonalAsBytea (garbage : ℚ) (serpa : SerializedPatch) : Run Bytes := do
  let statsSizeGuess := 400
  let serpatch := getHeaderX P.endian serpa statsSizeGuess
  let schema ← schemaFromPcid lookup serpatch.pcid
  let (bytes, bytesSize) ← (if schema.zdimension.isSome || schema.mdimension.isSome then do
      let serpatch := if statsSizeGuess < pcStatsSize schema then
        getHeaderX P.endian serpa (pcStatsSize schema) else serpatch
      let stats ← pcPatchStatsDeserialize schema serpatch.data
      pcBoundingDiagonalWkbFromStats P.endian garbage stats
    else pcBoundingDiagonalWkbFromBounds P.endian serpatch.bounds schema)
  readAt bytes 0 bytesSize

end Pointcloud
