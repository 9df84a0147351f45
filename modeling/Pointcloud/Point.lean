/-
Pointcloud.Point — points (`pc_point.c`) and the three points that make up the
statistics of a patch (`PCSTATS`, `pc_stats.c`).

A `PcPoint` carries that its data has the size its schema says, so whoever
holds one can read every dimension of it. A point wrapped around memory that
does not reach that far cannot be built: making it is a fault here.
-/
import Pointcloud.Val

namespace Pointcloud

open Pointcloud.Base

/-! ## The layout of a point -/

/-- The bytes that a dimension has in a point. -/
def PcDimension.bytesIn (d : PcDimension) (pt : Bytes) : Bytes := (pt.drop d.byteoffset).take d.size

/-- The number that a point stores for a dimension. -/
def PcDimension.rawIn (en : Endian) (d : PcDimension) (pt : Bytes) : ℚ :=
  d.interpretation.number en (d.bytesIn pt)

/-- The value of a dimension in a point. -/
def PcDimension.valueIn (en : Endian) (d : PcDimension) (pt : Bytes) : ℚ :=
  pcValueScaleOffset (d.rawIn en pt) d

/-- The dimensions cut a point into pieces. -/
theorem PcSchema.bytesIn_eq_pieces (s : PcSchema) (pt : Bytes) :
    (s.dims.map fun d => d.bytesIn pt) = pieces (s.dims.map PcDimension.size) pt := by
  apply List.ext_getElem?
  intro i
  by_cases hi : i < s.dims.length
  · have hi' : i < (s.dims.map PcDimension.size).length := by simpa using hi
    rw [pieces_getElem? _ _ _ hi', List.getElem?_map, List.getElem?_eq_getElem hi]
    simp only [Option.map_some, PcDimension.bytesIn, s.byteoffset_eq i hi, List.getElem_map,
      sizeOfDims, List.map_take]
  · rw [List.getElem?_eq_none (by simpa using hi), List.getElem?_eq_none (by simpa using hi)]

/-- A point is the bytes of its dimensions, one after the other. -/
theorem PcSchema.flatten_bytesIn (s : PcSchema) {pt : Bytes} (h : pt.length = s.size) :
    (s.dims.map fun d => d.bytesIn pt).flatten = pt := by
  have hsum : (s.dims.map PcDimension.size).sum = pt.length := by rw [h, s.size_eq]; rfl
  rw [s.bytesIn_eq_pieces, flatten_pieces, hsum, List.take_length]

/-- The bytes of a dimension in a point put together from pieces. -/
theorem PcSchema.bytesIn_flatten (s : PcSchema) {cs : List Bytes}
    (h : cs.map List.length = s.dims.map PcDimension.size) :
    (s.dims.map fun d => d.bytesIn cs.flatten) = cs := by
  rw [s.bytesIn_eq_pieces, ← h, pieces_flatten]

theorem PcSchema.length_bytesIn (s : PcSchema) {d : PcDimension} (hd : d ∈ s.dims) {pt : Bytes}
    (h : pt.length = s.size) : (d.bytesIn pt).length = d.size := by
  have hend := s.dim_end_le hd
  rw [PcDimension.bytesIn, List.length_take, List.length_drop]
  omega

/-! ## Points -/

/-- `PCPOINT`. -/
structure PcPoint where
  readonly : Bool
  schema : PcSchema
  data : Bytes
  length_eq : data.length = schema.size

/-- A point with the given data. -/
def pcPointOf (readonly : Bool) (schema : PcSchema) (data : Bytes) : Run PcPoint :=
  if h : data.length = schema.size then .ok ⟨readonly, schema, data, h⟩ else fault

theorem pcPointOf_ok (readonly : Bool) {schema : PcSchema} {data : Bytes}
    (h : data.length = schema.size) :
    pcPointOf readonly schema data = .ok ⟨readonly, schema, data, h⟩ := dif_pos h

/-- `pc_point_from_data`, for the memory at an offset of a block. -/
def pcPointFromData (schema : PcSchema) (block : Bytes) (off : Int) : Run PcPoint := do
  let data ← readAt block off schema.size
  pcPointOf true schema data

theorem pcPointFromData_ok {schema : PcSchema} {block : Bytes} {off : Nat}
    (h : off + schema.size ≤ block.length) :
    pcPointFromData schema block off = .ok ⟨true, schema, (block.drop off).take schema.size, by
      rw [List.length_take, List.length_drop]; omega⟩ := by
  rw [pcPointFromData, readAt_ok h, ok_bind, pcPointOf_ok]

/-- `pc_point_make`. -/
def pcPointMake (schema : PcSchema) : Run PcPoint :=
  if schema.size = 0 then raise "invalid size calculation in pc_point_make"
  else pcPointOf false schema (zeros schema.size)

/-- `pc_point_get_double`, of a point at an offset of a block: only the bytes of
the dimension are read. -/
def pcPointGetDoubleAt (en : Endian) (block : Bytes) (off : Int) (dim : PcDimension) : Run ℚ := do
  let d ← pcDoubleFromPtr en block (off + dim.byteoffset) dim.interpretation
  return pcValueScaleOffset d dim

/-- `pc_point_get_double`. -/
def pcPointGetDouble (en : Endian) (pt : PcPoint) (dim : PcDimension) : Run ℚ :=
  pcPointGetDoubleAt en pt.data 0 dim

/-- `pc_point_set_double`. -/
def pcPointSetDouble (P : Platform) (pt : PcPoint) (dim : PcDimension) (val : ℚ) : Run PcPoint := do
  let src ← pcDoubleToPtr P dim.interpretation (pcValueUnscaleUnoffset val dim)
  let data ← writeAt pt.data dim.byteoffset src
  pcPointOf pt.readonly pt.schema data

/-- `pc_point_from_double_array`. The place in the array is counted in 32 bits. -/
def pcPointFromDoubleArray (P : Platform) (s : PcSchema) (array : List ℚ) (offset stride : Nat) :
    Run PcPoint :=
  if stride ≠ s.ndims then
    raise ("number of elements in schema and array do not match in " ++
      "pc_point_from_double_array")
  else do
    let pt ← pcPointOf false s (zeros s.size)
    intLoop stride
    (List.range stride).foldlM (fun pt i => do
      let val ← wordAt array (uint32 (offset + i))
      match s.dims[i]? with
      | none => raise ("failed to write value into dimension " ++ toString i ++
          " in pc_point_from_double_array")
      | some dim => pcPointSetDouble P pt dim val) pt

/-- `pc_point_to_double_array`. -/
def pcPointToDoubleArray (en : Endian) (pt : PcPoint) : Run (List ℚ) := do
  intLoop pt.schema.ndims
  pt.schema.dims.mapM (pcPointGetDouble en pt)

/-- Reading a dimension of record `i` of an array of records. -/
theorem pcPointGetDoubleAt_ok {en : Endian} {s : PcSchema} {dim : PcDimension} (hd : dim ∈ s.dims)
    {block : Bytes} {off : Nat} (h : off + s.size ≤ block.length) :
    pcPointGetDoubleAt en block off dim =
      .ok (dim.valueIn en ((block.drop off).take s.size)) := by
  have hend := s.dim_end_le hd
  have hsize := s.dim_size hd
  have hbytes : (((block.drop off).take s.size).drop dim.byteoffset).take dim.size
      = (block.drop (off + dim.byteoffset)).take dim.interpretation.size := by
    rw [List.drop_take, List.take_take, List.drop_drop, hsize, Nat.min_eq_left (by omega)]
  rw [pcPointGetDoubleAt, ← Int.natCast_add,
    pcDoubleFromPtr_ok (s.dim_known hd) (by omega), ok_bind,
    PcDimension.valueIn, PcDimension.rawIn, PcDimension.bytesIn, hbytes, pure_eq_ok]

theorem pcPointGetDouble_ok (en : Endian) (pt : PcPoint) {dim : PcDimension}
    (hd : dim ∈ pt.schema.dims) : pcPointGetDouble en pt dim = .ok (dim.valueIn en pt.data) := by
  have hroom : 0 + pt.schema.size ≤ pt.data.length := by rw [Nat.zero_add, pt.length_eq]
  have h : pcPointGetDoubleAt en pt.data ((0 : Nat) : Int) dim = _ := pcPointGetDoubleAt_ok hd hroom
  rwa [List.drop_zero, ← pt.length_eq, List.take_length] at h

/-- Setting a dimension of a point always succeeds, and keeps schema and writability. -/
theorem pcPointSetDouble_ok (P : Platform) (pt : PcPoint) {dim : PcDimension}
    (hd : dim ∈ pt.schema.dims) (val : ℚ) :
    ∃ pt', pcPointSetDouble P pt dim val = .ok pt' ∧ pt'.schema = pt.schema := by
  obtain ⟨src, hsrc, hlen⟩ :=
    pcDoubleToPtr_ok P (pt.schema.dim_known hd) (pcValueUnscaleUnoffset val dim)
  have hend := pt.schema.dim_end_le hd
  have hsize := pt.schema.dim_size hd
  have hdata := pt.length_eq
  have hwrite : writeAt pt.data (dim.byteoffset : Int) src = .ok _ := writeAt_ok (by omega)
  rw [pcPointSetDouble, hsrc, ok_bind, hwrite, ok_bind,
    pcPointOf_ok _ ((length_of_writeAt hwrite).trans hdata)]
  exact ⟨_, rfl, rfl⟩

/-! ## Statistics -/

/-- `PCSTATS`. -/
structure PcStats where
  min : PcPoint
  max : PcPoint
  avg : PcPoint

/-- A copy of a point in memory of its own. -/
def PcPoint.copy (pt : PcPoint) : PcPoint := { pt with readonly := false }

/-- `pc_stats_clone`. -/
def pcStatsClone (stats : Option PcStats) : Option PcStats :=
  stats.map fun s => ⟨s.min.copy, s.max.copy, s.avg.copy⟩

end Pointcloud
