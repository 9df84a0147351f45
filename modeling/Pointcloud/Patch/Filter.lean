/-
Pointcloud.Patch.Filter — the points of a patch that a filter lets through
(`pc_filter.c`).

An uncompressed patch is compared on the values of its points, a dimensional
one on its stored numbers, with the bounds brought to the same terms. The
statistics of the patch may settle the matter before: then an empty
uncompressed patch is returned.
-/
import Pointcloud.Bytes.Filter
import Pointcloud.Patch.Stats

namespace Pointcloud

open Pointcloud.Base

variable (P : Platform)

/-! ## Uncompressed patches -/

/-- `pc_patch_uncompressed_bitmap`. The index reaches the bitmap as an `int`. -/
def pcPatchUncompressedBitmap (en : Endian) (pa : PcPatchUncompressed) (dimnum : Nat)
    (filter : PcFiltertype) (val1 val2 : ℚ) : Run PcBitmap := do
  let dim ← wordAt pa.schema.dims dimnum
  intLoop pa.npoints
  let ds ← (List.range pa.npoints).mapM fun i =>
    pcPointGetDoubleAt en pa.data.content (i * pa.schema.size : Nat) dim
  bitmapFilterFrom filter val1 val2 (pcBitmapNew pa.npoints) 0 ds

/-- `pc_patch_uncompressed_filter`. -/
def pcPatchUncompressedFilter (pu : PcPatchUncompressed) (map : PcBitmap) :
    Run PcPatchUncompressed := do
  let fpu ← pcPatchUncompressedMake pu.schema map.nset
  assertThat (map.npoints = pu.npoints)
  intLoop pu.npoints
  let marks ← (List.range pu.npoints).mapM fun (i : Nat) => pcBitmapGet map i
  let recs ← (select marks (List.range pu.npoints)).mapM fun i =>
    readAt pu.data.content (i * pu.schema.size : Nat) pu.schema.size
  let data ← emit fpu.data.content.length [] recs.flatten
  let fpu := { fpu with
    npoints := map.nset
    maxpoints := map.nset
    data := bufOf (data ++ fpu.data.content.drop data.length) }
  let fpu ← pcPatchUncompressedComputeExtent P.endian fpu
  pcPatchUncompressedComputeStats P fpu

/-! ## Dimensional patches -/

/-- `pc_patch_dimensional_bitmap`. -/
def pcPatchDimensionalBitmap (pdl : PcPatchDimensional) (dimnum : Nat) (filter : PcFiltertype)
    (val1 val2 : ℚ) : Run PcBitmap := do
  assertThat (dimnum < pdl.schema.ndims)
  let dim ← wordAt pdl.schema.dims dimnum
  let pcb ← wordAt pdl.bytes dimnum
  pcBytesBitmap filter (pcValueUnscaleUnoffset val1 dim) (pcValueUnscaleUnoffset val2 dim) P pcb

/-- `pc_point_set_double_by_index`. A point without that dimension is left as it is. -/
def pcPointSetDoubleByIndex (pt : PcPoint) (idx : Nat) (val : ℚ) : Run PcPoint :=
  match pt.schema.dims[idx]? with
  | none => .ok pt
  | some dim => pcPointSetDouble P pt dim val

/-- The statistics from which the filter of a dimension starts. -/
def filterStatsStart : PcDoubleStat := ⟨fltMax, -fltMax, 0⟩

/-- Filter one dimension: the array, and its statistics with scale and offset
applied. -/
def filterDimension (map : PcBitmap) (dim : PcDimension) (pcb : PcBytes) :
    Run (PcBytes × PcDoubleStat) := do
  let (fpcb, stats) ← pcBytesFilter P pcb map (some filterStatsStart)
  let stats := stats.getD filterStatsStart
  return (fpcb, {
    min := pcValueScaleOffset stats.min dim
    max := pcValueScaleOffset stats.max dim
    sum := pcValueScaleOffset stats.sum dim })

/-- Set the dimensions of a point one after the other. -/
def setDoubles (pt : PcPoint) (vals : List ℚ) : Run PcPoint :=
  vals.zipIdx.foldlM (fun pt vi => pcPointSetDoubleByIndex P pt vi.2 vi.1) pt

/-- The bounds that the loop over the dimensions leaves: it replaces those of x
when it comes to x, and those of y when it comes to y. A dimension that is both
counts as x. -/
def boundsOfStats (s : PcSchema) (bounds : PcBounds) (stats : List PcDoubleStat) : PcBounds :=
  let bounds := match s.xdim.bind fun i => stats[i]? with
    | none => bounds
    | some st => { bounds with xmin := st.min, xmax := st.max }
  if s.ydim = s.xdim then bounds
  else
    match s.ydim.bind fun i => stats[i]? with
    | none => bounds
    | some st => { bounds with ymin := st.min, ymax := st.max }

/-- `pc_patch_dimensional_filter`. The statistics are a copy of the patch's, in
which every dimension is set; without them there is nothing to set. -/
def pcPatchDimensionalFilter (pdl : PcPatchDimensional) (map : PcBitmap) :
    Run PcPatchDimensional := do
  let filtered ← (pdl.schema.dims.zip pdl.bytes).mapM fun (dim, pcb) =>
    filterDimension P map dim pcb
  let stats := filtered.map Prod.snd
  match pcStatsClone pdl.stats with
  | none => fault
  | some st => do
      let min ← setDoubles P st.min (stats.map PcDoubleStat.min)
      let max ← setDoubles P st.max (stats.map PcDoubleStat.max)
      let avg ← setDoubles P st.avg (stats.map fun s => s.sum / map.nset)
      return { pdl with
        npoints := map.nset
        bytes := filtered.map Prod.fst
        stats := some ⟨min, max, avg⟩
        bounds := boundsOfStats pdl.schema pdl.bounds stats }

/-! ## Patches -/

/-- `pc_point_get_double_by_index`. Without the dimension the caller's variable
stays unset. -/
def pcPointGetDoubleByIndex (en : Endian) (pt : PcPoint) (idx : Nat) : Run ℚ :=
  match pt.schema.dims[idx]? with
  | none => fault
  | some dim => pcPointGetDouble en pt dim

/-- The filter may let a value between `min` and `max` through. -/
def PcFiltertype.mayHold (filter : PcFiltertype) (min max val1 val2 : ℚ) : Bool :=
  match filter with
  | .gt => !(max < val1)
  | .lt => !(val1 < min)
  | .equal => !(val1 < min || max < val1)
  | .between => !(val2 < min || max < val1)

/-- `pc_patch_filter_has_results`. -/
def pcPatchFilterHasResults (en : Endian) (stats : PcStats) (dimnum : Nat) (filter : PcFiltertype)
    (val1 val2 : ℚ) : Run Bool := do
  let min ← pcPointGetDoubleByIndex en stats.min dimnum
  let max ← pcPointGetDoubleByIndex en stats.max dimnum
  return filter.mayHold min max val1 val2

/-- An empty uncompressed patch. -/
def emptyPatch (s : PcSchema) : Run PcPatch := do
  let p ← pcPatchUncompressedMake s 0
  return .uncompressed p

/-- The part of `pc_patch_filter` behind the look at the statistics. -/
def filterPoints (pa : PcPatch) (dimnum : Nat) (filter : PcFiltertype) (val1 val2 : ℚ) :
    Run PcPatch :=
  match pa with
  | .uncompressed p => do
      let map ← pcPatchUncompressedBitmap P.endian p dimnum filter val1 val2
      if map.nset = 0 then emptyPatch p.schema
      else do
        let pu ← pcPatchUncompressedFilter P p map
        return .uncompressed pu
  | .dimensional p => do
      let map ← pcPatchDimensionalBitmap P p dimnum filter val1 val2
      if map.nset = 0 then emptyPatch p.schema
      else do
        let pdl ← pcPatchDimensionalFilter P p map
        return .dimensional pdl
  | .lazperf p => do
      let pau ← pcPatchUncompressedFromLazperf p
      let map ← pcPatchUncompressedBitmap P.endian pau dimnum filter val1 val2
      if map.nset = 0 then emptyPatch p.schema
      else do
        let pu ← pcPatchUncompressedFilter P pau map
        return .uncompressed pu

/-- `pc_patch_filter`. -/
def pcPatchFilter (pa : PcPatch) (dimnum : Nat) (filter : PcFiltertype) (val1 val2 : ℚ) :
    Run PcPatch := do
  match pa.stats with
  | none => filterPoints P pa dimnum filter val1 val2
  | some stats =>
      let hasResults ← pcPatchFilterHasResults P.endian stats dimnum filter val1 val2
      if hasResults then filterPoints P pa dimnum filter val1 val2 else emptyPatch pa.schema

/-! ## By name -/

/-- What the filters by name have in common; `none` is the null pointer, for a name that
no dimension has. -/
def filterByName (pa : PcPatch) (name : String) (filter : PcFiltertype) (val1 val2 : ℚ) :
    Run (Option PcPatch) := do
  match pcSchemaGetDimensionByName pa.schema name with
  | none => return none
  | some d =>
      let paout ← pcPatchFilter P pa d.position filter val1 val2
      return some paout

/-- `pc_patch_filter_lt_by_name`. -/
def pcPatchFilterLtByName (pa : PcPatch) (name : String) (val : ℚ) : Run (Option PcPatch) :=
  filterByName P pa name .lt val val

/-- `pc_patch_filter_gt_by_name`. -/
def pcPatchFilterGtByName (pa : PcPatch) (name : String) (val : ℚ) : Run (Option PcPatch) :=
  filterByName P pa name .gt val val

/-- `pc_patch_filter_equal_by_name`. -/
def pcPatchFilterEqualByName (pa : PcPatch) (name : String) (val : ℚ) : Run (Option PcPatch) :=
  filterByName P pa name .equal val val

/-- `pc_patch_filter_between_by_name`: the lower value comes first. -/
def pcPatchFilterBetweenByName (pa : PcPatch) (name : String) (val1 val2 : ℚ) :
    Run (Option PcPatch) :=
  if val2 < val1 then filterByName P pa name .between val2 val1
  else filterByName P pa name .between val1 val2

end Pointcloud
