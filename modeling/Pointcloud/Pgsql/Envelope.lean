/-
Pointcloud.Pgsql.Envelope — the bounds of a patch as a polygon (`pc_pgsql.c`).

The polygon is written field by field into a block, with a pointer that moves on. The
block holds anything before that; what does is the argument `garbage` here.
-/
import Pointcloud.Base.Ewkb
import Pointcloud.Pgsql.Editor

namespace Pointcloud

open Pointcloud.Base

/-- Bytes at a pointer into a block, and the pointer behind them. -/
def pcPatchWkbSet (wkb : Bytes × Nat) (src : Bytes) : Run (Bytes × Nat) := do
  let block ← writeAt wkb.1 wkb.2 src
  return (block, wkb.2 + src.length)

section Fields

variable (en : Endian)

/-- `pc_patch_wkb_set_double`. -/
def pcPatchWkbSetDouble (wkb : Bytes × Nat) (d : ℚ) : Run (Bytes × Nat) :=
  pcPatchWkbSet wkb (en.bytesOf 8 (ieeeEncode 11 52 d))

/-- `pc_patch_wkb_set_int32`. -/
def pcPatchWkbSetInt32 (wkb : Bytes × Nat) (i : Nat) : Run (Bytes × Nat) :=
  pcPatchWkbSet wkb (en.bytesOf 4 i)

/-- `pc_patch_wkb_set_char`. -/
def pcPatchWkbSetChar (wkb : Bytes × Nat) (c : Byte) : Run (Bytes × Nat) := pcPatchWkbSet wkb [c]

end Fields

/-- A greatest coordinate, made slightly bigger if it equals the least. -/
def biggerThanPoint (least greatest : ℚ) : ℚ :=
  if least = greatest then greatest + greatest * (1 / 10000000) else greatest

section Envelope

variable (P : Platform)

/-- `pc_patch_to_geometry_wkb_envelope`: the block and `wkbsize`. The variables that the
greatest coordinates are made bigger in are not read again. -/
def pcPatchToGeometryWkbEnvelope (garbage : Bytes) (pa : SerializedPatch) (schema : PcSchema) :
    Run (Bytes × Nat) := do
  let sridMask := 0x20000000
  let nrings := 1
  let npoints := 5
  let size := 1 + 4 + 4 + 4 + 2 * npoints * 8
  let _xmax := biggerThanPoint pa.bounds.xmin pa.bounds.xmax
  let _ymax := biggerThanPoint pa.bounds.ymin pa.bounds.ymax
  let hasSrid := decide (0 < schema.srid)
  let wkbtype := if hasSrid then 3 ||| sridMask else 3
  let size := if hasSrid then size + 4 else size
  palloc P size
  let ptr : Bytes × Nat := (garbage.takeD size 0, 0)
  let ptr ← pcPatchWkbSetChar ptr (machineEndian P.endian)
  let ptr ← pcPatchWkbSetInt32 P.endian ptr wkbtype
  let ptr ← (if hasSrid then pcPatchWkbSetInt32 P.endian ptr schema.srid else .ok ptr)
  let ptr ← pcPatchWkbSetInt32 P.endian ptr nrings
  let ptr ← pcPatchWkbSetInt32 P.endian ptr npoints
  -- point 0
  let ptr ← pcPatchWkbSetDouble P.endian ptr pa.bounds.xmin
  let ptr ← pcPatchWkbSetDouble P.endian ptr pa.bounds.ymin
  -- point 1
  let ptr ← pcPatchWkbSetDouble P.endian ptr pa.bounds.xmin
  let ptr ← pcPatchWkbSetDouble P.endian ptr pa.bounds.ymax
  -- point 2
  let ptr ← pcPatchWkbSetDouble P.endian ptr pa.bounds.xmax
  let ptr ← pcPatchWkbSetDouble P.endian ptr pa.bounds.ymax
  -- point 3
  let ptr ← pcPatchWkbSetDouble P.endian ptr pa.bounds.xmax
  let ptr ← pcPatchWkbSetDouble P.endian ptr pa.bounds.ymin
  -- point 4
  let ptr ← pcPatchWkbSetDouble P.endian ptr pa.bounds.xmin
  let ptr ← pcPatchWkbSetDouble P.endian ptr pa.bounds.ymin
  return (ptr.1, size)

/-- `pcpatch_envelope_as_bytea`: the bytes that are returned. -/
def pcpatchEnvelopeAsBytea (garbage : Bytes) (serpatch : SerializedPatch) (schema : PcSchema) :
    Run Bytes := do
  let (bytes, bytesSize) ← pcPatchToGeometryWkbEnvelope P garbage serpatch schema
  readAt bytes 0 bytesSize

end Envelope

end Pointcloud
