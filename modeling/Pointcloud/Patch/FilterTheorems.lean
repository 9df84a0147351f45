/-
Pointcloud.Patch.FilterTheorems — what filtering keeps of a patch.

A bitmap that marks points keeps these points, in either form of the patch
(`pcPatchUncompressedFilter_ok`, `pcPatchDimensionalFilter_ok`). The
dimensional form also stores the statistics and bounds that it has gathered
on the way, one dimension after the other.

An uncompressed patch is filtered record by record, and its summary is
computed again from what is left; so its lemma asks only that the loops can
count (`npoints ≤ 2147483648`) and that the bounds have an x and a y. A
dimensional patch is filtered array by array, so that its lemma is put together
from the one for an array (`pcBytesFilter_ok`): `filterDimensions_ok` says what
becomes of the arrays, `filterDimensions_gathers` of the statistics, and
`pcPatchDimensionalFilter_eq` stores both. The second of these needs no bound on
the size of the arrays, and speaks of every run that returns; the first has
to show that there is one, and needs `PcPatchDimensional.Small` and a marked point
for the encoders.

The statistics are those of the numbers that the arrays gather
(`PcPatchDimensional.filterStat`). They are the summary of the points that are
left only under conditions which the modules on the summary state.
-/
import Pointcloud.Bytes.FilterTheorems
import Pointcloud.Patch.Filter
import Pointcloud.Patch.StoredStatsTheorems

namespace Pointcloud

open Pointcloud.Base

variable {P : Platform}

/-! ## Uncompressed patches

The points are records of one size, one after the other (`PcPatchUncompressed.Holds`),
and the copy holds the marked ones. -/

/-- The entries that a filter sets for points. -/
def PcDimension.marksOf (en : Endian) (dim : PcDimension) (filter : PcFiltertype) (val1 val2 : ℚ)
    (pts : List Bytes) : List Bool :=
  pts.map fun pt => filter.holds (dim.valueIn en pt) val1 val2

/-- More points than an `int` counts. -/
theorem pcPatchUncompressedBitmap_fault (en : Endian) (filter : PcFiltertype) (val1 val2 : ℚ)
    {p : PcPatchUncompressed} {dimnum : Nat} {dim : PcDimension}
    (hdim : p.schema.dims[dimnum]? = some dim) (hint : 2147483648 < p.npoints) :
    pcPatchUncompressedBitmap en p dimnum filter val1 val2 = fault := by
  rw [pcPatchUncompressedBitmap, wordAt_eq_ok.mpr hdim, ok_bind, intLoop_fault hint, fault_bind]

section Uncompressed

variable {p : PcPatchUncompressed} {pts : List Bytes} (h : p.Holds pts)

include h

/-- The bitmap of the points. -/
theorem pcPatchUncompressedBitmap_ok (en : Endian) (filter : PcFiltertype) (val1 val2 : ℚ)
    {dimnum : Nat} {dim : PcDimension} (hdim : p.schema.dims[dimnum]? = some dim)
    (hint : p.npoints ≤ 2147483648) :
    pcPatchUncompressedBitmap en p dimnum filter val1 val2 =
      .ok (PcBitmap.of (dim.marksOf en filter val1 val2 pts)) := by
  have hd : dim ∈ p.schema.dims := List.mem_of_getElem? hdim
  have hvalues : ((List.range p.npoints).mapM fun i =>
      pcPointGetDoubleAt en p.data.content (i * p.schema.size : Nat) dim) =
        .ok (pts.map (dim.valueIn en)) :=
    mapM_records h fun i _ hend => pcPointGetDoubleAt_ok hd hend
  have hset := bitmapFilterFrom_ok filter val1 val2 (pts.map (dim.valueIn en)) []
    (List.replicate p.npoints false) [] (i := 0) rfl (by simp [h.length_eq])
  rw [List.nil_append, List.nil_append, List.append_nil, List.append_nil] at hset
  rw [pcPatchUncompressedBitmap, wordAt_eq_ok.mpr hdim, ok_bind, intLoop_ok hint, ok_bind, hvalues,
    ok_bind, pcBitmapNew_eq, hset, List.map_map]
  rfl

/-- The patch that filtering an uncompressed patch returns. -/
theorem pcPatchUncompressedFilter_ok {map : PcBitmap} (hmap : map.npoints = p.npoints)
    (hint : p.npoints ≤ 2147483648) {xdim ydim : PcDimension}
    (hxdim : p.schema.xdimension = some xdim) (hydim : p.schema.ydimension = some ydim)
    (hx : xdim ∈ p.schema.dims) (hy : ydim ∈ p.schema.dims) :
    ∃ f, pcPatchUncompressedFilter P p map = .ok f ∧ f.Holds (select map.map pts) ∧
      f.schema = p.schema ∧ f.npoints = map.nset ∧ f.datasize = f.npoints * f.schema.size ∧
      f.stats = some (statsOf P p.schema (select map.map pts)) ∧
      f.bounds = boundsOf P.endian xdim ydim (select map.map pts) := by
  have hlen : map.map.length = pts.length := by
    rw [h.length_eq, ← hmap]
    rfl
  have hkept : (select map.map pts).length = map.nset := by rw [length_select hlen, map.nset_eq]
  have hle : map.nset ≤ p.npoints := by
    rw [map.nset_eq, ← hmap]
    exact List.count_le_length
  -- the new patch is made for exactly the marked points, and they fill it
  have hflat : (select map.map pts).flatten.length = p.schema.size * map.nset := by
    rw [length_flatten_of_width fun pt hpt => h.width_eq pt (mem_of_mem_select hpt), hkept,
      Nat.mul_comm]
  have halloc : p.schema.size * map.nset < 9223372036854775808 := by
    calc p.schema.size * map.nset ≤ 4294967295 * 2147483648 :=
          Nat.mul_le_mul (Nat.le_of_lt_succ p.schema.size_lt) (Nat.le_trans hle hint)
      _ < 9223372036854775808 := by decide
  have hrecs : (select map.map (List.range p.npoints)).mapM (fun i =>
      readAt p.data.content (i * p.schema.size : Nat) p.schema.size) =
        .ok (select map.map pts) := by
    conv_rhs => rw [← h.records_eq, records_eq_map, select_map]
    refine mapM_eq_ok_map fun i hi => readAt_ok ?_
    exact Nat.le_trans (record_end_le (List.mem_range.mp (mem_of_mem_select hi))) h.room
  have hemit : emit (bufOf (zeros (p.schema.size * map.nset))).content.length []
      (select map.map pts).flatten = .ok (select map.map pts).flatten := by
    rw [content_bufOf, length_zeros, emit_ok (by rw [hflat, List.length_nil, Nat.zero_add]),
      List.nil_append]
  have hdata : (bufOf ((select map.map pts).flatten ++
      (bufOf (zeros (p.schema.size * map.nset))).content.drop
        (select map.map pts).flatten.length)).content = (select map.map pts).flatten := by
    rw [content_bufOf, content_bufOf, List.drop_eq_nil_of_le (by rw [length_zeros, hflat]),
      List.append_nil]
  -- the records in their new place
  have hholds : PcPatchUncompressed.Holds
      { readonly := false, schema := p.schema, npoints := map.nset, bounds := pcBoundsInit,
        stats := none, maxpoints := map.nset, datasize := p.schema.size * map.nset,
        data := bufOf ((select map.map pts).flatten ++
          (bufOf (zeros (p.schema.size * map.nset))).content.drop
            (select map.map pts).flatten.length) } (select map.map pts) := by
    refine ⟨Nat.lt_of_le_of_lt hle h.npoints_lt, ?_, ?_⟩
    · rw [hdata, hflat, Nat.mul_comm]
    · rw [hdata]
      have hrecords := records_flatten fun pt (hpt : pt ∈ select map.map pts) =>
        h.width_eq pt (mem_of_mem_select hpt)
      rwa [hkept] at hrecords
  have hdone := computeExtent_computeStats_ok P hholds (Nat.le_trans hle hint) hxdim hydim hx hy
  refine ⟨_, Eq.trans ?_ hdone, ⟨hholds.npoints_lt, hholds.room, hholds.records_eq⟩, rfl, rfl,
    Nat.mul_comm _ _, rfl, rfl⟩
  rw [pcPatchUncompressedFilter, pcPatchUncompressedMake, if_neg (Nat.ne_of_gt p.schema.size_pos),
    pcalloc_ok halloc, ok_bind, pure_eq_ok, ok_bind, assertThat_true hmap, ok_bind,
    intLoop_ok hint, ok_bind, mapM_pcBitmapGet_all map hmap.symm, ok_bind, hrecs, ok_bind, hemit,
    ok_bind]

end Uncompressed

/-! ## Dimensional patches

The dimensions and their arrays are walked in step. A dimension finds its array
by its position, which is its index (`PcPatchDimensional.Holds.at_position`). -/

/-- The values of every dimension take less than `2 ^ 29` bytes. -/
def PcPatchDimensional.Small (d : PcPatchDimensional) : Prop := ∀ e ∈ d.bytes, e.Small

instance (d : PcPatchDimensional) : Decidable d.Small :=
  inferInstanceAs (Decidable (∀ e ∈ d.bytes, e.Small))

/-- The numbers that filtering gathers for a dimension. -/
def PcPatchDimensional.gathered (P : Platform) (d : PcPatchDimensional) (map : PcBitmap)
    (pts : List Bytes) (dim : PcDimension) : List ℚ :=
  match d.bytes[dim.position]? with
  | none => []
  | some e => e.gathered P.endian map (pts.map dim.bytesIn)

/-- The statistics that filtering stores for a dimension, scale and offset applied. -/
def PcPatchDimensional.filterStat (P : Platform) (d : PcPatchDimensional) (map : PcBitmap)
    (pts : List Bytes) (dim : PcDimension) : PcDoubleStat where
  min := pcValueScaleOffset ((d.gathered P map pts dim).foldl min fltMax) dim
  max := pcValueScaleOffset ((d.gathered P map pts dim).foldl max (-fltMax)) dim
  sum := pcValueScaleOffset (d.gathered P map pts dim).sum dim

/-- The dimensions with their arrays, each at its position. -/
theorem PcPatchDimensional.Holds.at_position {d : PcPatchDimensional} {pts : List Bytes}
    (h : d.Holds P pts) :
    List.Forall₂ (fun (dim : PcDimension) (e : PcBytes) =>
      d.bytes[dim.position]? = some e ∧ e.interpretation = dim.interpretation ∧
        e.npoints = d.npoints ∧ Stores P e (pts.map dim.bytesIn)) d.schema.dims d.bytes := by
  refine List.forall₂_iff_get.mpr ⟨h.bytes_hold.length_eq, fun i hi hi' => ⟨?_, ?_⟩⟩
  · rw [List.get_eq_getElem, List.get_eq_getElem, d.schema.position_eq i hi,
      List.getElem?_eq_getElem hi']
  · exact (List.forall₂_iff_get.mp h.bytes_hold).2 i hi hi'

/-- Setting the dimensions by their indices is setting them in order. -/
theorem setDoubles_zip {s : PcSchema} : ∀ (vals : List ℚ) (k : Nat) {pt : PcPoint},
    pt.schema = s → k + vals.length ≤ s.dims.length →
    (vals.zipIdx k).foldlM (fun pt vi => pcPointSetDoubleByIndex P pt vi.2 vi.1) pt =
      ((s.dims.drop k).zip vals).foldlM (fun pt dv => pcPointSetDouble P pt dv.1 dv.2) pt
  | [], k, pt, _, _ => by simp
  | val :: vals, k, pt, hpt, hk => by
      -- setting a value leaves the schema, so the next index means the next dimension
      rw [List.length_cons] at hk
      have hdrop : s.dims.drop k = s.dims[k] :: s.dims.drop (k + 1) :=
        List.drop_eq_getElem_cons (by omega)
      have hset : pcPointSetDoubleByIndex P pt k val = pcPointSetDouble P pt s.dims[k] val := by
        rw [pcPointSetDoubleByIndex, hpt, List.getElem?_eq_getElem (by omega)]
      have hd : s.dims[k] ∈ pt.schema.dims := by
        rw [hpt]
        exact List.getElem_mem _
      obtain ⟨pt', hok, hschema⟩ := pcPointSetDouble_ok P pt hd val
      rw [List.zipIdx_cons, hdrop, List.zip_cons_cons, List.foldlM_cons,
        List.foldlM_cons, hset, hok,
        ok_bind, ok_bind, setDoubles_zip vals (k + 1) (hschema.trans hpt) (by omega)]

/-- All dimensions set, from whatever point: the point with these values. -/
theorem setDoubles_eq {s : PcSchema} (f : PcDimension → ℚ) (pt : PcPoint) (hpt : pt.schema = s)
    (hro : pt.readonly = false) : setDoubles P pt (s.dims.map f) = .ok (storedPoint P s f) := by
  rw [setDoubles, setDoubles_zip _ 0 hpt (by rw [List.length_map]; omega), List.drop_zero,
    zip_map_self, foldlM_pcPointSetDouble_all P f hpt hro]

/-- Small arrays are those of few points. -/
theorem PcPatchDimensional.Small.npoints_lt {d : PcPatchDimensional} (hsmall : d.Small)
    {pts : List Bytes} (h : d.Holds P pts) : d.npoints < 536870912 := by
  obtain ⟨dim, hd⟩ := List.exists_mem_of_ne_nil _ d.schema.dims_ne
  obtain ⟨e, he, -, hnp, -⟩ := h.array_at hd
  rw [← hnp]
  exact (hsmall e (List.mem_of_getElem? (wordAt_eq_ok.mp he))).npoints_lt

/-- The statistics that are gathered, dimension by dimension. -/
theorem filterDimensions_gathers {d : PcPatchDimensional} {pts : List Bytes} (h : d.Holds P pts)
    (hint : d.npoints < 2147483648) {map : PcBitmap} (hmap : map.npoints = d.npoints)
    {fs : List (PcBytes × PcDoubleStat)}
    (hfs : ((d.schema.dims.zip d.bytes).mapM fun p => filterDimension P map p.1 p.2) = .ok fs) :
    fs.map Prod.snd = d.schema.dims.map (d.filterStat P map pts) := by
  obtain ⟨hlen, hrun⟩ := List.forall₂_iff_get.mp (mapM_eq_ok_iff.mp hfs)
  obtain ⟨hdims, hat⟩ := List.forall₂_iff_get.mp h.at_position
  rw [List.length_zip] at hlen
  -- at each index, what the filter of that array gathered
  apply List.ext_getElem (by simp only [List.length_map]; omega)
  intro i hi _
  rw [List.length_map] at hi
  obtain ⟨hget, -, hnp, hstores⟩ := hat i (by omega) (by omega)
  have hfilter := hrun i (by rw [List.length_zip]; omega) hi
  simp only [List.get_eq_getElem, List.getElem_zip] at hget hnp hstores hfilter
  obtain ⟨r, hr, hfilter⟩ := bind_eq_ok.mp hfilter
  have hstats := pcBytesFilter_gathers hstores (hnp ▸ hint) (hmap.trans hnp.symm) hr
  simp only [pure_eq_ok, Except.ok.injEq] at hfilter
  simp only [List.getElem_map, ← hfilter, hstats, addAll, Option.map_some, Option.getD_some,
    foldl_add_eq, filterStatsStart, PcPatchDimensional.filterStat, PcPatchDimensional.gathered,
    hget, zero_add]

/-- Every dimension is filtered, and its statistics are gathered. -/
theorem filterDimensions_ok {d : PcPatchDimensional} {pts : List Bytes} (h : d.Holds P pts)
    (hsmall : d.Small) {map : PcBitmap} (hmap : map.npoints = d.npoints) (hset : 1 ≤ map.nset) :
    ∃ fs, ((d.schema.dims.zip d.bytes).mapM fun p => filterDimension P map p.1 p.2) = .ok fs ∧
      fs.map Prod.snd = d.schema.dims.map (d.filterStat P map pts) ∧
      List.Forall₂ (fun (dim : PcDimension) (e : PcBytes) =>
        e.interpretation = dim.interpretation ∧ e.npoints = map.nset ∧
          Stores P e ((select map.map pts).map dim.bytesIn)) d.schema.dims (fs.map Prod.fst) := by
  -- the pairs that are walked are the dimensions with their own arrays
  have hpairs : List.Forall₂ (fun (dim : PcDimension) (p : PcDimension × PcBytes) =>
      p.1 = dim ∧ p.2 ∈ d.bytes ∧ p.2.interpretation = dim.interpretation ∧
        p.2.npoints = d.npoints ∧ Stores P p.2 (pts.map dim.bytesIn))
      d.schema.dims (d.schema.dims.zip d.bytes) := by
    have hlen := h.bytes_hold.length_eq
    refine List.forall₂_iff_get.mpr ⟨by rw [List.length_zip]; omega, fun i hi hi' => ?_⟩
    have hib : i < d.bytes.length := by omega
    have hat := (List.forall₂_iff_get.mp h.at_position).2 i hi hib
    simp only [List.get_eq_getElem, List.getElem_zip] at hat ⊢
    exact ⟨trivial, List.getElem_mem hib, hat.2⟩
  have hfilter : ∀ (dim : PcDimension) (p : PcDimension × PcBytes), dim ∈ d.schema.dims →
      (p.1 = dim ∧ p.2 ∈ d.bytes ∧ p.2.interpretation = dim.interpretation ∧
        p.2.npoints = d.npoints ∧ Stores P p.2 (pts.map dim.bytesIn)) →
      ∃ z, filterDimension P map p.1 p.2 = .ok z ∧ (z.1.interpretation = dim.interpretation ∧
        z.1.npoints = map.nset ∧ Stores P z.1 ((select map.map pts).map dim.bytesIn)) := by
    rintro dim ⟨dim', e⟩ hd ⟨rfl, hmem, hinterp, hnp, hstores⟩
    obtain ⟨f, hf, hfstores, hfn, hfinterp, -⟩ := pcBytesFilter_ok hstores (hsmall e hmem)
      (hmap.trans hnp.symm) hset (some filterStatsStart)
    refine ⟨_, by rw [filterDimension, hf, ok_bind]; rfl, hfinterp.trans hinterp, hfn, ?_⟩
    rwa [select_map] at hfstores
  obtain ⟨fs, hfs, hall⟩ := mapM_forall₂ hpairs hfilter
  have hlt := hsmall.npoints_lt h
  refine ⟨fs, hfs, filterDimensions_gathers h (by omega) hmap hfs, ?_⟩
  rw [List.forall₂_map_right_iff]
  exact hall

/-- The statistics are set in every dimension, and the bounds are those of x and y. -/
theorem pcPatchDimensionalFilter_eq {d : PcPatchDimensional} {map : PcBitmap}
    {fs : List (PcBytes × PcDoubleStat)}
    (hfs : ((d.schema.dims.zip d.bytes).mapM fun p => filterDimension P map p.1 p.2) = .ok fs)
    {stat : PcDimension → PcDoubleStat} (hsnd : fs.map Prod.snd = d.schema.dims.map stat)
    {st : PcStats} (hstats : d.stats = some st) (hover : StatsOver d.schema st) :
    pcPatchDimensionalFilter P d map = .ok { d with
      npoints := map.nset
      bytes := fs.map Prod.fst
      stats := some ⟨
        storedPoint P d.schema fun dim => (stat dim).min,
        storedPoint P d.schema fun dim => (stat dim).max,
        storedPoint P d.schema fun dim => (stat dim).sum / map.nset⟩
      bounds := boundsOfStats d.schema d.bounds (d.schema.dims.map stat) } := by
  have hmin := setDoubles_eq (P := P) (fun dim => (stat dim).min) st.min.copy hover.1 rfl
  have hmax := setDoubles_eq (P := P) (fun dim => (stat dim).max) st.max.copy hover.2.1 rfl
  have havg := setDoubles_eq (P := P) (fun dim => (stat dim).sum / map.nset) st.avg.copy
    hover.2.2 rfl
  rw [pcPatchDimensionalFilter, hfs, ok_bind]
  simp only [hstats, pcStatsClone, Option.map_some, hsnd, List.map_map, Function.comp_def, hmin,
    hmax, havg, ok_bind, pure_eq_ok]

/-- The patch that filtering a dimensional patch returns. -/
theorem pcPatchDimensionalFilter_ok {d : PcPatchDimensional} {pts : List Bytes} (h : d.Holds P pts)
    (hsmall : d.Small) {map : PcBitmap} (hmap : map.npoints = d.npoints) (hset : 1 ≤ map.nset)
    {st : PcStats} (hstats : d.stats = some st) (hover : StatsOver d.schema st) :
    ∃ f, pcPatchDimensionalFilter P d map = .ok f ∧ f.Holds P (select map.map pts) ∧
      f.schema = d.schema ∧ f.npoints = map.nset ∧
      f.stats = some ⟨
        storedPoint P d.schema fun dim => (d.filterStat P map pts dim).min,
        storedPoint P d.schema fun dim => (d.filterStat P map pts dim).max,
        storedPoint P d.schema fun dim => (d.filterStat P map pts dim).sum / map.nset⟩ ∧
      f.bounds = boundsOfStats d.schema d.bounds
        (d.schema.dims.map (d.filterStat P map pts)) := by
  obtain ⟨fs, hfs, hsnd, hheld⟩ := filterDimensions_ok h hsmall hmap hset
  have hlt := h.npoints_lt
  have hlen : map.map.length = pts.length := by
    rw [h.npoints_eq, ← hmap]
    rfl
  have hle : map.nset ≤ map.npoints := by
    rw [map.nset_eq]
    exact List.count_le_length
  refine ⟨_, pcPatchDimensionalFilter_eq hfs hsnd hstats hover,
    ⟨by simp only; omega, ?_, ?_, hheld⟩, rfl, rfl, rfl, rfl⟩
  · rw [length_select hlen, map.nset_eq]
  · exact fun pt hpt => h.width_eq pt (mem_of_mem_select hpt)

end Pointcloud
