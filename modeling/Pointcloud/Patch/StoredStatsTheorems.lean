/-
Pointcloud.Patch.StoredStatsTheorems — what the statistics of a patch store.

The three points of the statistics are made of one value for each dimension,
stored like any other value: without offset and scale, clamped to the type of
the dimension and rounded. `storedPoint` is the point that comes out whatever
stood there before. The statistics of records are those of the columns of
their values (`pcPatchUncompressedComputeStats_eq`).
-/
import Pointcloud.Base.Extremes
import Pointcloud.Patch.StatsTheorems
import Pointcloud.ValTheorems

namespace Pointcloud

open Pointcloud.Base

variable {P : Platform}

/-! ## Stored values -/

/-- The bytes in which a value of a dimension is stored. -/
def PcDimension.stored (P : Platform) (dim : PcDimension) (val : ℚ) : Bytes :=
  dim.interpretation.stored P (pcValueUnscaleUnoffset val dim)

/-- A value as it is read back after it was stored. -/
def PcDimension.readBack (P : Platform) (dim : PcDimension) (val : ℚ) : ℚ :=
  pcValueScaleOffset (dim.interpretation.number P.endian (dim.stored P val)) dim

theorem PcSchema.length_stored (s : PcSchema) {dim : PcDimension} (hd : dim ∈ s.dims) (val : ℚ) :
    (dim.stored P val).length = dim.size := by
  rw [PcDimension.stored, Interpretation.length_stored (s.dim_known hd), s.dim_size hd]

theorem PcSchema.lengths_stored (s : PcSchema) (f : PcDimension → ℚ) :
    (s.dims.map fun dim => dim.stored P (f dim)).map List.length =
      s.dims.map PcDimension.size := by
  rw [List.map_map]
  exact List.map_congr_left fun dim hd => s.length_stored hd (f dim)

/-- The point that stores a value for each dimension. -/
def storedPoint (P : Platform) (s : PcSchema) (f : PcDimension → ℚ) : PcPoint where
  readonly := false
  schema := s
  data := (s.dims.map fun dim => dim.stored P (f dim)).flatten
  length_eq := by rw [List.length_flatten, s.lengths_stored f, s.size_eq, sizeOfDims]

/-- A stored dimension reads as what was stored for it. -/
theorem bytesIn_storedPoint (s : PcSchema) (f : PcDimension → ℚ) {dim : PcDimension}
    (hd : dim ∈ s.dims) : dim.bytesIn (storedPoint P s f).data = dim.stored P (f dim) :=
  List.map_inj_left.mp (s.bytesIn_flatten (s.lengths_stored f)) dim hd

/-- Points that store the same bytes in every dimension are the same. -/
theorem storedPoint_inj (s : PcSchema) {f g : PcDimension → ℚ} :
    storedPoint P s f = storedPoint P s g ↔
      ∀ dim ∈ s.dims, dim.stored P (f dim) = dim.stored P (g dim) := by
  constructor
  · intro h dim hd
    rw [← bytesIn_storedPoint s f hd, h, bytesIn_storedPoint s g hd]
  · intro h
    have hmap : (s.dims.map fun dim => dim.stored P (f dim)) =
        s.dims.map fun dim => dim.stored P (g dim) := List.map_congr_left h
    simp only [storedPoint, hmap]

/-! ## Setting the dimensions of a point -/

/-- Setting a dimension is writing its stored value. -/
theorem pcPointSetDouble_eq {s : PcSchema} {pt : PcPoint} (hpt : pt.schema = s) {dim : PcDimension}
    (hd : dim ∈ s.dims) (val : ℚ) :
    ∃ pt', pcPointSetDouble P pt dim val = .ok pt' ∧ pt'.schema = s ∧ pt'.readonly = pt.readonly ∧
      writeAt pt.data (dim.byteoffset : Int) (dim.stored P val) = .ok pt'.data := by
  have hend := s.dim_end_le hd
  have hlen := s.length_stored (P := P) hd val
  have hdata := pt.length_eq
  rw [hpt] at hdata
  have hwrite : writeAt pt.data (dim.byteoffset : Int) (dim.stored P val) = .ok _ :=
    writeAt_ok (by omega)
  refine ⟨⟨pt.readonly, pt.schema, _, (length_of_writeAt hwrite).trans pt.length_eq⟩, ?_, hpt, rfl,
    hwrite⟩
  rw [pcPointSetDouble, pcDoubleToPtr_stored (s.dim_known hd), ok_bind]
  rw [PcDimension.stored] at hwrite
  rw [hwrite, ok_bind, pcPointOf_ok _ ((length_of_writeAt hwrite).trans pt.length_eq)]
  rfl

/-- Setting several dimensions is writing their stored values. -/
theorem foldlM_pcPointSetDouble {s : PcSchema} : ∀ (dvs : List (PcDimension × ℚ)) (pt : PcPoint),
    pt.schema = s → (∀ dv ∈ dvs, dv.1 ∈ s.dims) →
    ∃ pt', dvs.foldlM (fun pt dv => pcPointSetDouble P pt dv.1 dv.2) pt = .ok pt' ∧
      pt'.schema = s ∧ pt'.readonly = pt.readonly ∧
      writeAll pt.data (dvs.map fun dv => ((dv.1.byteoffset : Int), dv.1.stored P dv.2)) =
        .ok pt'.data
  | [], pt, hpt, _ => ⟨pt, rfl, hpt, rfl, rfl⟩
  | dv :: dvs, pt, hpt, hmem => by
      obtain ⟨mid, hset, hmid, hmidro, hwrite⟩ := pcPointSetDouble_eq hpt (hmem dv (by simp)) dv.2
      obtain ⟨pt', hrest, hs, hro, hall⟩ := foldlM_pcPointSetDouble dvs mid hmid
        (fun dv' hdv' => hmem dv' (by simp [hdv']))
      refine ⟨pt', ?_, hs, hro.trans hmidro, ?_⟩
      · rw [List.foldlM_cons, hset, ok_bind, hrest]
      · rw [List.map_cons, writeAll, hwrite, ok_bind, hall]

/-- Setting all of them leaves nothing of what was there. -/
theorem foldlM_pcPointSetDouble_all (P : Platform) {s : PcSchema} (f : PcDimension → ℚ)
    {pt : PcPoint} (hpt : pt.schema = s) (hro : pt.readonly = false) :
    (s.dims.map fun dim => (dim, f dim)).foldlM (fun pt dv => pcPointSetDouble P pt dv.1 dv.2) pt =
      .ok (storedPoint P s f) := by
  obtain ⟨pt', hfold, hs, hro', hall⟩ := foldlM_pcPointSetDouble (P := P)
    (s.dims.map fun dim => (dim, f dim)) pt hpt (by simp)
  have hfollow := map_offset_eq_follow s (g := fun dim => dim.stored P (f dim))
    (fun dim hd => s.length_stored hd (f dim)) 0
  simp only [Nat.zero_add] at hfollow
  have hlen : ((s.dims.map fun dim => dim.stored P (f dim)).flatten).length = pt.data.length := by
    rw [List.length_flatten, s.lengths_stored f, pt.length_eq, hpt, s.size_eq, sizeOfDims]
  rw [List.map_map, show ((fun dv : PcDimension × ℚ => ((dv.1.byteoffset : Int),
    dv.1.stored P dv.2)) ∘ fun dim => (dim, f dim)) =
      fun dim => ((dim.byteoffset : Int), dim.stored P (f dim)) from rfl, hfollow,
    writeAll_fill hlen, Except.ok.injEq] at hall
  obtain ⟨readonly', schema', data', hdata'⟩ := pt'
  simp only at hs hro' hall
  subst hs
  rw [hro] at hro'
  subst hro' hall
  rw [hfold]
  rfl

/-- A new point with the given values. -/
theorem pcPointFromValues_eq (P : Platform) (s : PcSchema) (f : PcDimension → ℚ) :
    pcPointFromValues P s (s.dims.map f) = .ok (storedPoint P s f) := by
  rw [pcPointFromValues, pcPointOf_ok false (length_zeros s.size), ok_bind, zip_map_self]
  exact foldlM_pcPointSetDouble_all P f rfl rfl

/-! ## The statistics of records -/

/-- The values that points have in a dimension. -/
def PcDimension.column (en : Endian) (dim : PcDimension) (pts : List Bytes) : List ℚ :=
  pts.map (dim.valueIn en)

/-- The statistics of points. -/
def statsOf (P : Platform) (s : PcSchema) (pts : List Bytes) : PcStats where
  min := storedPoint P s fun dim => (dim.column P.endian pts).foldl min dblMax
  max := storedPoint P s fun dim => (dim.column P.endian pts).foldl max (-dblMax)
  avg := storedPoint P s fun dim => (dim.column P.endian pts).sum / pts.length

/-- The statistics of a patch are points of its schema. -/
def StatsOver (s : PcSchema) (st : PcStats) : Prop :=
  st.min.schema = s ∧ st.max.schema = s ∧ st.avg.schema = s

/-- Reading something of every record. -/
theorem mapM_records {β : Type} {p : PcPatchUncompressed} {pts : List Bytes} (h : p.Holds pts)
    {read : Nat → Run β} {g : Bytes → β}
    (hread : ∀ i, i < p.npoints → i * p.schema.size + p.schema.size ≤ p.data.content.length →
      read i = .ok (g ((p.data.content.drop (i * p.schema.size)).take p.schema.size))) :
    (List.range p.npoints).mapM read = .ok (pts.map g) := by
  rw [← h.records_eq, records_eq_map, List.map_map]
  refine mapM_eq_ok_map fun i hi => hread i (List.mem_range.mp hi) ?_
  exact Nat.le_trans (record_end_le (List.mem_range.mp hi)) h.room

/-- The statistics of an uncompressed patch are those of its points. -/
theorem pcPatchUncompressedComputeStats_eq (P : Platform) {p : PcPatchUncompressed}
    {pts : List Bytes} (h : p.Holds pts) :
    pcPatchUncompressedComputeStats P p =
      .ok { p with stats := some (statsOf P p.schema pts) } := by
  have hlen := h.length_eq
  have hrows : ((List.range p.npoints).mapM fun i => p.schema.dims.mapM fun dim =>
      pcPointGetDoubleAt P.endian p.data.content (i * p.schema.size : Nat) dim) =
        .ok (pts.map fun pt => p.schema.dims.map fun dim => dim.valueIn P.endian pt) :=
    mapM_records h fun i _ hend => mapM_eq_ok_map fun dim hd => pcPointGetDoubleAt_ok hd hend
  have hcols := foldl_zipWith_map p.schema.dims PcDoubleStat.add
    (fun dim pt => dim.valueIn P.endian pt) pts (fun _ => pcDstatsNew)
  have hfold : (pts.map fun pt => p.schema.dims.map fun dim => dim.valueIn P.endian pt).foldl
      (fun dims vals => List.zipWith PcDoubleStat.add dims vals)
      (p.schema.dims.map fun _ => pcDstatsNew) =
        p.schema.dims.map fun dim =>
          (dim.column P.endian pts).foldl PcDoubleStat.add pcDstatsNew := by
    rw [List.foldl_map, hcols]
    rfl
  unfold pcPatchUncompressedComputeStats
  rw [hrows, ok_bind]
  simp only [hfold, pcStatsNewFromDstats, List.map_map, Function.comp_def, pcPointFromValues_eq,
    ok_bind, foldl_add_eq, pure_eq_ok]
  simp only [statsOf, pcDstatsNew, zero_add, hlen]

/-- The statistics of a dimensional patch are those of its points. -/
theorem pcPatchComputeStats_dimensional_ok {d : PcPatchDimensional} {pts : List Bytes}
    (h : d.Holds P pts) (hfits : Fits d.schema d.npoints) :
    pcPatchComputeStats P (.dimensional d) =
      .ok (.dimensional { d with stats := some (statsOf P d.schema pts) }) := by
  obtain ⟨u, hu, hholds, hschema, -, -, -⟩ := uncompressed_holds h hfits
  rw [pcPatchComputeStats, hu, ok_bind, pcPatchUncompressedComputeStats_eq P hholds, ok_bind,
    pure_eq_ok, hschema]

/-! ## The extent of records -/

/-- The bounds of points, searched from the limits of `double`. -/
def boundsOf (en : Endian) (xdim ydim : PcDimension) (pts : List Bytes) : PcBounds where
  xmin := (xdim.column en pts).foldl min dblMax
  xmax := (xdim.column en pts).foldl max (-dblMax)
  ymin := (ydim.column en pts).foldl min dblMax
  ymax := (ydim.column en pts).foldl max (-dblMax)

theorem foldl_widen_eq : ∀ (xys : List (ℚ × ℚ)) (b : PcBounds),
    xys.foldl (fun b xy => b.widen xy.1 xy.2) b =
      ⟨(xys.map Prod.fst).foldl min b.xmin, (xys.map Prod.fst).foldl max b.xmax,
        (xys.map Prod.snd).foldl min b.ymin, (xys.map Prod.snd).foldl max b.ymax⟩
  | [], b => rfl
  | xy :: xys, b => by
      have hmin : ∀ x y : ℚ, (if x < y then x else y) = min y x := by
        intro x y
        rw [min_comm, min_def_lt]
      have hmax : ∀ x y : ℚ, (if y < x then x else y) = max y x := by
        intro x y
        rw [max_def_lt]
      have hwiden : b.widen xy.1 xy.2 =
          ⟨min b.xmin xy.1, max b.xmax xy.1, min b.ymin xy.2, max b.ymax xy.2⟩ := by
        rw [PcBounds.widen, hmin, hmax, hmin, hmax]
      rw [List.foldl_cons, foldl_widen_eq xys, hwiden]
      rfl

/-- The extent of an uncompressed patch is that of its points. -/
theorem pcPatchUncompressedComputeExtent_ok (en : Endian) {p : PcPatchUncompressed}
    {pts : List Bytes} (h : p.Holds pts) (hint : p.npoints ≤ 2147483648) {xdim ydim : PcDimension}
    (hxdim : p.schema.xdimension = some xdim) (hydim : p.schema.ydimension = some ydim)
    (hx : xdim ∈ p.schema.dims) (hy : ydim ∈ p.schema.dims) :
    pcPatchUncompressedComputeExtent en p =
      .ok { p with bounds := boundsOf en xdim ydim pts } := by
  have hread : ((List.range p.npoints).mapM fun (i : Nat) => (do
      let off := int32 i * p.schema.size
      let x ← pcPointGetCoordinate en p.data.content off (some xdim)
      let y ← pcPointGetCoordinate en p.data.content off (some ydim)
      return (x, y) : Run (ℚ × ℚ))) =
        .ok (pts.map fun pt => (xdim.valueIn en pt, ydim.valueIn en pt)) := by
    refine mapM_records h fun i hi hend => ?_
    simp only [pcPointGetCoordinate]
    rw [int32_natCast (by omega), ← Int.natCast_mul, pcPointGetDoubleAt_ok hx hend, ok_bind,
      pcPointGetDoubleAt_ok hy hend, ok_bind, pure_eq_ok]
  unfold pcPatchUncompressedComputeExtent
  rw [hxdim, hydim, hread, ok_bind, pure_eq_ok, foldl_widen_eq, List.map_map, List.map_map]
  rfl

/-- An uncompressed patch with the bounds and the statistics of its points. -/
def PcPatchUncompressed.summarized (P : Platform) (p : PcPatchUncompressed)
    (xdim ydim : PcDimension) (pts : List Bytes) : PcPatchUncompressed :=
  { p with bounds := boundsOf P.endian xdim ydim pts, stats := some (statsOf P p.schema pts) }

/-- Finding the extent and then the statistics. -/
theorem computeExtent_computeStats_ok (P : Platform) {p : PcPatchUncompressed} {pts : List Bytes}
    (h : p.Holds pts) (hint : p.npoints ≤ 2147483648) {xdim ydim : PcDimension}
    (hxdim : p.schema.xdimension = some xdim) (hydim : p.schema.ydimension = some ydim)
    (hx : xdim ∈ p.schema.dims) (hy : ydim ∈ p.schema.dims) :
    (do
      let p ← pcPatchUncompressedComputeExtent P.endian p
      pcPatchUncompressedComputeStats P p) = .ok (p.summarized P xdim ydim pts) := by
  have hbounded : PcPatchUncompressed.Holds
      { p with bounds := boundsOf P.endian xdim ydim pts } pts :=
    ⟨h.npoints_lt, h.room, h.records_eq⟩
  rw [pcPatchUncompressedComputeExtent_ok P.endian h hint hxdim hydim hx hy, ok_bind,
    pcPatchUncompressedComputeStats_eq P hbounded]
  rfl

end Pointcloud
