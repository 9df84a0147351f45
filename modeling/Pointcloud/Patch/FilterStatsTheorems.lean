/-
Pointcloud.Patch.FilterStatsTheorems — statistics gathered while filtering.

`pc_patch_dimensional_filter` takes the stored numbers of what it keeps into
the statistics, a run-length encoded value once for each run, and applies
scale and offset to their sum before it divides by the number of points. The
least and the greatest number do not depend on how often one is taken in, and
scale well; the average does and does not (`GathersRight`).
-/
import Pointcloud.Patch.FilterTheorems

namespace Pointcloud

open Pointcloud.Base

variable {P : Platform}

/-! ## Numbers of narrow types -/

/-- Numbers of these types are far from the limits of `float`. -/
theorem Interpretation.Narrow.number_range {i : Interpretation} (h : i.Narrow) (en : Endian)
    {bs : Bytes} (hlen : bs.length = i.size) :
    -fltMax ≤ i.number en bs ∧ i.number en bs ≤ fltMax := by
  have hmax : (4294967296 : ℚ) ≤ fltMax := by
    unfold fltMax
    norm_num
  have hunsigned : en.natOf bs < 256 ^ i.size := hlen ▸ en.natOf_lt bs
  have hrange : (-4294967296 : ℚ) ≤ i.number en bs ∧ i.number en bs ≤ 4294967296 := by
    have hword : ∀ w : Nat, w ≤ 4 →
        (-4294967296 : ℚ) ≤ ((en.word w bs).toInt : ℚ) ∧
          ((en.word w bs).toInt : ℚ) ≤ 4294967296 := by
      intro w hw
      have hlow := BitVec.le_toInt (en.word w bs)
      have hhigh := BitVec.toInt_lt (x := en.word w bs)
      have hpow : (2 : Int) ^ (8 * w - 1) ≤ 4294967296 := by
        calc (2 : Int) ^ (8 * w - 1) ≤ 2 ^ 31 := pow_le_pow_right₀ (by decide) (by omega)
          _ ≤ 4294967296 := by decide
      constructor
      · exact_mod_cast (by omega : (-4294967296 : Int) ≤ (en.word w bs).toInt)
      · exact_mod_cast (by omega : (en.word w bs).toInt ≤ (4294967296 : Int))
    have hnat : en.natOf bs < 4294967296 →
        (-4294967296 : ℚ) ≤ (en.natOf bs : ℚ) ∧ (en.natOf bs : ℚ) ≤ 4294967296 := by
      intro hlt
      constructor
      · have : (0 : ℚ) ≤ en.natOf bs := Nat.cast_nonneg _
        linarith
      · exact_mod_cast Nat.le_of_lt hlt
    rcases h with rfl | rfl | rfl | rfl | rfl | rfl
    · exact hword 1 (by decide)
    · exact hnat (by simp only [size] at hunsigned; omega)
    · exact hword 2 (by decide)
    · exact hnat (by simp only [size] at hunsigned; omega)
    · exact hword 4 (by decide)
    · exact hnat (by simp only [size] at hunsigned; omega)
  constructor <;> linarith

/-! ## What is gathered -/

/-- A number is gathered when a kept value stands for it, run by run or not. -/
theorem mem_gathered_iff (en : Endian) {e : PcBytes} {vs : List Bytes} (h : Stores P e vs)
    {map : PcBitmap} (hmap : map.map.length = vs.length) (number : ℚ) :
    number ∈ e.gathered en map vs ↔ number ∈ e.numbersOf en (select map.map vs) := by
  unfold PcBytes.gathered
  split
  · next hrle =>
      obtain ⟨rs, hof, hvs⟩ := h.rleOf hrle
      have hexpand : expand (selectRuns map.map rs) = select map.map vs := by
        rw [expand_selectRuns (by rw [hvs, hmap]), hvs]
      have hvalue : ∀ v, v ∈ (selectRuns map.map rs).map Prod.snd ↔ v ∈ select map.map vs := by
        intro v
        rw [← hexpand]
        constructor
        · intro hv
          obtain ⟨r, hr, rfl⟩ := List.mem_map.mp hv
          exact mem_expand_of_mem hr
            (count_selectRuns (fun s hs => (hof.count_range s hs).2) r hr).1
        · intro hv
          obtain ⟨r, hr, hrv⟩ := mem_expand hv
          exact List.mem_map.mpr ⟨r, hr, hrv⟩
      simp only [hof.runsOf_eq, PcBytes.runNumbers, PcBytes.numbersOf, List.mem_map, hvalue]
  · exact Iff.rfl

section Gathered

variable {d : PcPatchDimensional} {pts : List Bytes} (h : d.Holds P pts) {map : PcBitmap}
  (hmap : map.map.length = pts.length) {dim : PcDimension} (hd : dim ∈ d.schema.dims)

include h hmap hd

theorem mem_patch_gathered_iff (number : ℚ) :
    number ∈ d.gathered P map pts dim ↔
      number ∈ dim.rawColumn P.endian (select map.map pts) := by
  obtain ⟨e, he, hinterp, -, hstores⟩ := h.array_at hd
  have hnumbers : e.numbersOf P.endian (select map.map (pts.map dim.bytesIn)) =
      dim.rawColumn P.endian (select map.map pts) := by
    simp only [select_map, PcBytes.numbersOf, hinterp, List.map_map]
    rfl
  rw [PcPatchDimensional.gathered, wordAt_eq_ok.mp he, ← hnumbers]
  exact mem_gathered_iff P.endian hstores (by rw [hmap, List.length_map]) number

/-- The extremes are those of the kept points. -/
theorem filterStat_min :
    (d.filterStat P map pts dim).min = dim.lowest P.endian (select map.map pts) := by
  rw [PcPatchDimensional.filterStat, PcDimension.lowest,
    foldl_min_of_mem_iff (mem_patch_gathered_iff h hmap hd)]

theorem filterStat_max :
    (d.filterStat P map pts dim).max = dim.highest P.endian (select map.map pts) := by
  rw [PcPatchDimensional.filterStat, PcDimension.highest,
    foldl_max_of_mem_iff (mem_patch_gathered_iff h hmap hd)]

end Gathered

/-! ## Bounds -/

/-- The statistics of a dimension, by its index. -/
theorem getElem?_map_dims (s : PcSchema) (g : PcDimension → PcDoubleStat) (i : Option Nat) :
    (i.bind fun i => (s.dims.map g)[i]?) = (i.bind fun i => s.dims[i]?).map g := by
  cases i with
  | none => rfl
  | some i => exact List.getElem?_map

/-- The bounds are those of the dimensions x and y, if these are two dimensions. -/
theorem boundsOfStats_eq {s : PcSchema} (bounds : PcBounds) (g : PcDimension → PcDoubleStat)
    {xdim ydim : PcDimension} (hxdim : s.xdimension = some xdim) (hydim : s.ydimension = some ydim)
    (hne : s.xdim ≠ s.ydim) :
    boundsOfStats s bounds (s.dims.map g) =
      ⟨(g xdim).min, (g xdim).max, (g ydim).min, (g ydim).max⟩ := by
  have hx : (s.xdim.bind fun i => (s.dims.map g)[i]?) = some (g xdim) := by
    rw [getElem?_map_dims, show (s.xdim.bind fun i => s.dims[i]?) = some xdim from hxdim,
      Option.map_some]
  have hy : (s.ydim.bind fun i => (s.dims.map g)[i]?) = some (g ydim) := by
    rw [getElem?_map_dims, show (s.ydim.bind fun i => s.dims[i]?) = some ydim from hydim,
      Option.map_some]
  unfold boundsOfStats
  rw [hx, hy, if_neg (Ne.symm hne)]

/-! ## Stored and recomputed statistics -/

/-- What filtering has gathered for a dimension is stored like the statistics of
the kept points. Their numbers are `raws`, and their values those with scale
and offset applied. -/
structure GathersRight (P : Platform) (dim : PcDimension) (raws gathered : List ℚ) : Prop where
  low : ∀ m, LeastOf raws m →
    dim.interpretation.stored P m = dim.stored P (min dblMax (pcValueScaleOffset m dim))
  high : ∀ m, GreatestOf raws m →
    dim.interpretation.stored P m = dim.stored P (max (-dblMax) (pcValueScaleOffset m dim))
  /-- The offset is taken away once, but only an `n`-th of it was added. -/
  average : dim.interpretation.stored P
      ((gathered.sum - (raws.length - 1) * (dim.offset / dim.scale)) / raws.length) =
    dim.interpretation.stored P (raws.sum / raws.length)

/-- The extremes are stored right if no value is beyond the limits of `double`. -/
theorem stored_low {dim : PcDimension} (h : dim.scale ≠ 0) {m : ℚ}
    (hm : pcValueScaleOffset m dim ≤ dblMax) :
    dim.interpretation.stored P m = dim.stored P (min dblMax (pcValueScaleOffset m dim)) := by
  rw [min_eq_right hm, PcDimension.stored, pcValueUnscaleUnoffset_scaleOffset h]

theorem stored_high {dim : PcDimension} (h : dim.scale ≠ 0) {m : ℚ}
    (hm : -dblMax ≤ pcValueScaleOffset m dim) :
    dim.interpretation.stored P m = dim.stored P (max (-dblMax) (pcValueScaleOffset m dim)) := by
  rw [max_eq_right hm, PcDimension.stored, pcValueUnscaleUnoffset_scaleOffset h]

/-- Without an offset everything is gathered right when the sum is. -/
theorem GathersRight.of_sum_eq {dim : PcDimension} {raws gathered : List ℚ} (hscale : dim.scale ≠ 0)
    (hoffset : dim.offset = 0) (hsum : gathered.sum = raws.sum)
    (hrange : ∀ raw ∈ raws,
      -dblMax ≤ pcValueScaleOffset raw dim ∧ pcValueScaleOffset raw dim ≤ dblMax) :
    GathersRight P dim raws gathered where
  low := fun m hm => stored_low hscale (hrange m hm.1).2
  high := fun m hm => stored_high hscale (hrange m hm.1).1
  average := by rw [hoffset, hsum, zero_div, mul_zero, sub_zero]

/-- The values of a column are its numbers, scale and offset applied. -/
theorem column_eq (en : Endian) (dim : PcDimension) (pts : List Bytes) :
    dim.column en pts = (dim.rawColumn en pts).map fun raw => pcValueScaleOffset raw dim := by
  rw [PcDimension.column, PcDimension.rawColumn, List.map_map]
  rfl

theorem sum_column (en : Endian) (dim : PcDimension) (pts : List Bytes) :
    (dim.column en pts).sum =
      (dim.rawColumn en pts).sum * dim.scale + pts.length * dim.offset := by
  rw [column_eq, PcDimension.rawColumn]
  simp only [pcValueScaleOffset_eq]
  induction pts with
  | nil => simp
  | cons pt pts ih =>
      simp only [List.map_cons, List.sum_cons, List.length_cons, ih]
      push_cast
      ring

section Stored

variable {dim : PcDimension} {pts : List Bytes} (hscale : 0 < dim.scale)
  (hrange : ∀ raw ∈ dim.rawColumn P.endian pts, -fltMax ≤ raw ∧ raw ≤ fltMax) (hne : pts ≠ [])

include hscale hrange hne

/-- The lowest value is stored like the least value of the column. -/
theorem stored_lowest_iff :
    dim.stored P (dim.lowest P.endian pts) =
        dim.stored P ((dim.column P.endian pts).foldl min dblMax) ↔
      ∀ m, LeastOf (dim.rawColumn P.endian pts) m →
        dim.interpretation.stored P m = dim.stored P (min dblMax (pcValueScaleOffset m dim)) := by
  have hcol : dim.rawColumn P.endian pts ≠ [] := by simpa [PcDimension.rawColumn] using hne
  obtain ⟨m, hm⟩ := exists_leastOf hcol
  have hlow : dim.lowest P.endian pts = pcValueScaleOffset m dim := by
    rw [PcDimension.lowest, hm.foldl_min, min_eq_right (hrange m hm.1).2]
  have hmin : (dim.column P.endian pts).foldl min dblMax =
      min dblMax (pcValueScaleOffset m dim) := by
    rw [column_eq, (hm.map (pcValueScaleOffset_mono hscale)).foldl_min]
  have hstored : dim.stored P (pcValueScaleOffset m dim) = dim.interpretation.stored P m := by
    rw [PcDimension.stored, pcValueUnscaleUnoffset_scaleOffset (ne_of_gt hscale)]
  rw [hlow, hmin, hstored]
  constructor
  · intro heq m' hm'
    rwa [← hm.unique hm']
  · intro hall
    exact hall m hm

/-- The highest value is stored like the greatest value of the column. -/
theorem stored_highest_iff :
    dim.stored P (dim.highest P.endian pts) =
        dim.stored P ((dim.column P.endian pts).foldl max (-dblMax)) ↔
      ∀ m, GreatestOf (dim.rawColumn P.endian pts) m →
        dim.interpretation.stored P m = dim.stored P
          (max (-dblMax) (pcValueScaleOffset m dim)) := by
  have hcol : dim.rawColumn P.endian pts ≠ [] := by simpa [PcDimension.rawColumn] using hne
  obtain ⟨m, hm⟩ := exists_greatestOf hcol
  have hhigh : dim.highest P.endian pts = pcValueScaleOffset m dim := by
    rw [PcDimension.highest, hm.foldl_max, max_eq_right (hrange m hm.1).1]
  have hmax : (dim.column P.endian pts).foldl max (-dblMax) =
      max (-dblMax) (pcValueScaleOffset m dim) := by
    rw [column_eq, (hm.map (pcValueScaleOffset_mono hscale)).foldl_max]
  have hstored : dim.stored P (pcValueScaleOffset m dim) = dim.interpretation.stored P m := by
    rw [PcDimension.stored, pcValueUnscaleUnoffset_scaleOffset (ne_of_gt hscale)]
  rw [hhigh, hmax, hstored]
  constructor
  · intro heq m' hm'
    rwa [← hm.unique hm']
  · intro hall
    exact hall m hm

omit hrange in
/-- The gathered sum is stored like the average of the column. -/
theorem stored_average_iff (gathered : List ℚ) :
    dim.stored P (pcValueScaleOffset gathered.sum dim / pts.length) =
        dim.stored P ((dim.column P.endian pts).sum / pts.length) ↔
      dim.interpretation.stored P
          ((gathered.sum - (pts.length - 1) * (dim.offset / dim.scale)) / pts.length) =
        dim.interpretation.stored P ((dim.rawColumn P.endian pts).sum / pts.length) := by
  have hscale' : dim.scale ≠ 0 := ne_of_gt hscale
  have hlen : (pts.length : ℚ) ≠ 0 := by simpa using hne
  have hgathered : pcValueUnscaleUnoffset (pcValueScaleOffset gathered.sum dim / pts.length) dim =
      (gathered.sum - (pts.length - 1) * (dim.offset / dim.scale)) / pts.length := by
    rw [pcValueUnscaleUnoffset_eq, pcValueScaleOffset_eq]
    field_simp
    ring
  have hcolumn : pcValueUnscaleUnoffset ((dim.column P.endian pts).sum / pts.length) dim =
      (dim.rawColumn P.endian pts).sum / pts.length := by
    rw [sum_column, pcValueUnscaleUnoffset_eq]
    field_simp
    ring
  rw [PcDimension.stored, PcDimension.stored, hgathered, hcolumn]

end Stored

/-- The patch that filtering returns has the statistics and the bounds that are
computed from its points. -/
def FilterStatsRight (P : Platform) (d : PcPatchDimensional) (map : PcBitmap) : Prop :=
  ∃ f, pcPatchDimensionalFilter P d map = .ok f ∧
    (∃ g, pcPatchComputeStats P (.dimensional f) = .ok g ∧ g.stats = f.stats) ∧
    ∃ g, pcPatchComputeExtent P (.dimensional f) = .ok g ∧ g.bounds = f.bounds

/-- The statistics that were gathered are those of the kept points if they are
gathered right in every dimension. -/
theorem stats_eq_iff {s : PcSchema} {kept : List Bytes} (hne : kept ≠ [])
    (hscale : ∀ dim ∈ s.dims, 0 < dim.scale)
    (hrange : ∀ dim ∈ s.dims, ∀ raw ∈ dim.rawColumn P.endian kept, -fltMax ≤ raw ∧ raw ≤ fltMax)
    (gathered : PcDimension → List ℚ) :
    (⟨storedPoint P s fun dim => dim.lowest P.endian kept,
      storedPoint P s fun dim => dim.highest P.endian kept,
      storedPoint P s fun dim =>
        pcValueScaleOffset (gathered dim).sum dim / kept.length⟩ : PcStats) = statsOf P s kept ↔
      ∀ dim ∈ s.dims, GathersRight P dim (dim.rawColumn P.endian kept) (gathered dim) := by
  have hlength : ∀ dim : PcDimension, (dim.rawColumn P.endian kept).length = kept.length :=
    fun dim => List.length_map _
  simp only [statsOf, PcStats.mk.injEq, storedPoint_inj]
  constructor
  · rintro ⟨hmin, hmax, havg⟩ dim hd
    refine ⟨(stored_lowest_iff (hscale dim hd) (hrange dim hd) hne).mp (hmin dim hd),
      (stored_highest_iff (hscale dim hd) (hrange dim hd) hne).mp (hmax dim hd), ?_⟩
    rw [hlength]
    exact (stored_average_iff (hscale dim hd) hne (gathered dim)).mp (havg dim hd)
  · intro hall
    refine ⟨fun dim hd => ?_, fun dim hd => ?_, fun dim hd => ?_⟩
    · exact (stored_lowest_iff (hscale dim hd) (hrange dim hd) hne).mpr (hall dim hd).low
    · exact (stored_highest_iff (hscale dim hd) (hrange dim hd) hne).mpr (hall dim hd).high
    · have havg := (hall dim hd).average
      rw [hlength] at havg
      exact (stored_average_iff (hscale dim hd) hne (gathered dim)).mpr havg

/-- The values of a dimension take little room, also if there are less of them. -/
theorem size_mul_lt_of_small {d : PcPatchDimensional} {pts : List Bytes} (h : d.Holds P pts)
    (hsmall : d.Small) {n : Nat} (hn : n ≤ d.npoints) {dim : PcDimension}
    (hd : dim ∈ d.schema.dims) : dim.size * n < 536870912 := by
  obtain ⟨e, he, hinterp, hnp, -⟩ := h.array_at hd
  have he' : e.npoints * e.width < 536870912 :=
    hsmall e (List.mem_of_getElem? (wordAt_eq_ok.mp he))
  rw [hnp, PcBytes.width, hinterp, ← d.schema.dim_size hd, Nat.mul_comm] at he'
  exact Nat.lt_of_le_of_lt (Nat.mul_le_mul_left dim.size hn) he'

theorem fits_of_small {d : PcPatchDimensional} {pts : List Bytes} (h : d.Holds P pts)
    (hsmall : d.Small) {n : Nat} (hn : n ≤ d.npoints) : Fits d.schema n := by
  have hwidth : ∀ dim ∈ d.schema.dims, dim.size * n < 536870912 :=
    fun _ hd => size_mul_lt_of_small h hsmall hn hd
  obtain ⟨dim, hd⟩ := List.exists_mem_of_ne_nil _ d.schema.dims_ne
  have hpos : 0 < dim.size := by
    rw [d.schema.dim_size hd]
    exact dim.interpretation.size_pos
  refine ⟨?_, fun dim hd => Nat.lt_trans (hwidth dim hd) (by decide)⟩
  have := Nat.le_mul_of_pos_left n hpos
  have := hwidth dim hd
  omega

/-- Filtering a dimensional patch leaves the statistics and bounds of the kept
points exactly when the patch has statistics and every dimension is gathered
right. -/
theorem pcPatchDimensionalFilter_stats_iff {d : PcPatchDimensional} {pts : List Bytes}
    (h : d.Holds P pts) (hsmall : d.Small) (hvalid : d.schema.Valid)
    (hxy : d.schema.xdim ≠ d.schema.ydim) (hscale : ∀ dim ∈ d.schema.dims, 0 < dim.scale)
    (hnarrow : ∀ dim ∈ d.schema.dims, dim.interpretation.Narrow)
    (hover : ∀ st, d.stats = some st → StatsOver d.schema st) {map : PcBitmap}
    (hmap : map.npoints = d.npoints) (hset : 1 ≤ map.nset) :
    FilterStatsRight P d map ↔
      d.stats.isSome ∧ ∀ dim ∈ d.schema.dims,
        GathersRight P dim (dim.rawColumn P.endian (select map.map pts))
          (d.gathered P map pts dim) := by
  cases hst : d.stats with
  | none =>
      obtain ⟨fs, hfs, -, -⟩ := filterDimensions_ok h hsmall hmap hset
      have hfault : pcPatchDimensionalFilter P d map = fault := by
        rw [pcPatchDimensionalFilter, hfs, ok_bind]
        simp only [hst, pcStatsClone, Option.map_none]
      constructor
      · rintro ⟨f, hf, -⟩
        rw [hfault] at hf
        exact absurd hf (fault_ne_ok f)
      · rintro ⟨hsome, -⟩
        cases hsome
  | some st =>
      obtain ⟨f, hf, hholds, hschema, hnp, hfstats, hfbounds⟩ :=
        pcPatchDimensionalFilter_ok h hsmall hmap hset hst (hover st hst)
      have hlen : map.map.length = pts.length := by
        rw [h.npoints_eq, ← hmap]
        rfl
      have hkept := length_select hlen
      have hnset : (select map.map pts).length = map.nset := by rw [hkept, map.nset_eq]
      have hne : select map.map pts ≠ [] := List.ne_nil_of_length_pos (by omega)
      have hle : map.nset ≤ d.npoints := by
        rw [map.nset_eq, ← hmap]
        exact List.count_le_length
      have hrange : ∀ dim ∈ d.schema.dims, ∀ raw ∈ dim.rawColumn P.endian (select map.map pts),
          -fltMax ≤ raw ∧ raw ≤ fltMax := by
        intro dim hd raw hraw
        obtain ⟨pt, hpt, rfl⟩ := List.mem_map.mp hraw
        refine (hnarrow dim hd).number_range P.endian ?_
        rw [d.schema.length_bytesIn hd (h.width_eq pt (mem_of_mem_select hpt)),
          d.schema.dim_size hd]
      -- the statistics
      have hstats := pcPatchComputeStats_dimensional_ok hholds
        (by rw [hschema, hnp]; exact fits_of_small h hsmall hle)
      have hmin : (storedPoint P d.schema fun dim => (d.filterStat P map pts dim).min) =
          storedPoint P d.schema fun dim => dim.lowest P.endian (select map.map pts) :=
        (storedPoint_inj d.schema).mpr fun dim hd => by rw [filterStat_min h hlen hd]
      have hmax : (storedPoint P d.schema fun dim => (d.filterStat P map pts dim).max) =
          storedPoint P d.schema fun dim => dim.highest P.endian (select map.map pts) :=
        (storedPoint_inj d.schema).mpr fun dim hd => by rw [filterStat_max h hlen hd]
      rw [hmin, hmax, ← hnset] at hfstats
      have hiff := stats_eq_iff hne hscale hrange fun dim => d.gathered P map pts dim
      -- the bounds
      obtain ⟨xdim, hx, hxdim⟩ := hvalid.xdimension
      obtain ⟨ydim, hy, hydim⟩ := hvalid.ydimension
      have hint : ∀ e ∈ f.bytes, e.npoints * e.width ≤ 2147483648 := by
        intro e he
        obtain ⟨dim, hd, hinterp, hen, -⟩ := hholds.dim_of_mem he
        rw [hschema] at hd
        have hlt := size_mul_lt_of_small h hsmall hle hd
        rw [d.schema.dim_size hd, ← hinterp, ← hnp, ← hen, Nat.mul_comm] at hlt
        exact Nat.le_trans (Nat.le_of_lt hlt) (by decide)
      have hextent := pcPatchDimensionalComputeExtent_ok hholds (hschema ▸ hxdim) (hschema ▸ hydim)
        (hschema ▸ hx) (hschema ▸ hy) fun _ _ e he _ => hint e (List.mem_of_getElem? he)
      have hfound : ∃ g, pcPatchComputeExtent P (.dimensional f) = .ok g ∧ g.bounds =
          ⟨xdim.lowest P.endian (select map.map pts), xdim.highest P.endian (select map.map pts),
            ydim.lowest P.endian (select map.map pts),
            ydim.highest P.endian (select map.map pts)⟩ :=
        ⟨_, by rw [pcPatchComputeExtent, hextent, ok_bind, pure_eq_ok], rfl⟩
      have hbounds : f.bounds = ⟨xdim.lowest P.endian (select map.map pts),
          xdim.highest P.endian (select map.map pts), ydim.lowest P.endian (select map.map pts),
          ydim.highest P.endian (select map.map pts)⟩ := by
        rw [hfbounds, boundsOfStats_eq _ _ hxdim hydim hxy, filterStat_min h hlen hx,
          filterStat_max h hlen hx, filterStat_min h hlen hy, filterStat_max h hlen hy]
      rw [Option.isSome_some]
      constructor
      · rintro ⟨f', hf', ⟨g, hg, hgstats⟩, -⟩
        rw [hf, Except.ok.injEq] at hf'
        subst hf'
        rw [hstats, Except.ok.injEq] at hg
        subst hg
        refine ⟨rfl, hiff.mp ?_⟩
        simp only [PcPatch.stats, hfstats, Option.some.injEq, hschema] at hgstats
        exact hgstats.symm
      · rintro ⟨-, hall⟩
        obtain ⟨g, hg, hgbounds⟩ := hfound
        refine ⟨f, hf, ⟨_, hstats, ?_⟩, g, hg, hgbounds.trans hbounds.symm⟩
        simp only [PcPatch.stats, hfstats, hschema, ← hiff.mpr hall]
        rfl

/-- An x and a y of one byte. -/
def byteSchema : PcSchema := xySchema .uint8 .uint8 uint8_known uint8_known 1 .dimensional

/-- The point at the origin. -/
def bytePoint : PcPoint := ⟨false, byteSchema, [0, 0], rfl⟩

/-- Three points, stored dimension by dimension, with statistics that say nothing. -/
def threeDims (x : PcBytes) : PcPatchDimensional where
  readonly := false
  schema := byteSchema
  npoints := 3
  bounds := ⟨0, 0, 0, 0⟩
  stats := some ⟨bytePoint, bytePoint, bytePoint⟩
  bytes := [x, ⟨3, 3, .uint8, .none, false, [0, 0, 0]⟩]

theorem threeDims_holds {x : PcBytes} (hinterp : x.interpretation = .uint8) (hnp : x.npoints = 3)
    (hx : Stores P x [[10], [10], [1]]) : (threeDims x).Holds P [[10, 0], [10, 0], [1, 0]] := by
  have hy : PcBytes.Plain ⟨3, 3, .uint8, .none, false, [0, 0, 0]⟩ :=
    ⟨by decide, rfl, by decide, by decide⟩
  have hlt : 3 < 4294967296 := by decide
  have hwidth : ∀ pt ∈ ([[10, 0], [10, 0], [1, 0]] : List Bytes), pt.length = byteSchema.size := by
    decide
  exact ⟨hlt, rfl, hwidth, .cons ⟨hinterp, hnp, hx⟩ (.cons ⟨rfl, rfl, hy.stores⟩ .nil)⟩

/-- The values 10, 10 and 1, plainly. -/
def plainTens : PcBytes := ⟨3, 3, .uint8, .none, false, [10, 10, 1]⟩

/-- The same in runs. -/
def runTens : PcBytes := ⟨4, 3, .uint8, .rle, false, [2, 10, 1, 1]⟩

/-- The statistics that a run stores for the average. -/
def averageOf (run : Run PcPatch) : Option Bytes :=
  match run with
  | .ok p => p.stats.map fun st => st.avg.data
  | .error _ => none

/-- Keeping the first and the last of the plain values. -/
theorem pcPatchDimensionalFilter_stats_iff_witness :
    FilterStatsRight Platform.plain (threeDims plainTens) (PcBitmap.of [true, false, true]) := by
  have hplain : plainTens.Plain := ⟨by decide, rfl, by decide, by decide⟩
  have hsmall : (threeDims plainTens).Small := by decide
  have hnarrow : ∀ dim ∈ byteSchema.dims, dim.interpretation.Narrow := by decide
  have hscale : ∀ dim ∈ byteSchema.dims, 0 < dim.scale := by decide +kernel
  have hsums : ∀ dim ∈ byteSchema.dims, dim.offset = 0 ∧
      ((threeDims plainTens).gathered Platform.plain (PcBitmap.of [true, false, true])
        [[10, 0], [10, 0], [1, 0]] dim).sum =
          (dim.rawColumn .little [[10, 0], [1, 0]]).sum ∧
      ∀ raw ∈ dim.rawColumn .little [[10, 0], [1, 0]],
        -dblMax ≤ pcValueScaleOffset raw dim ∧ pcValueScaleOffset raw dim ≤ dblMax := by
    decide +kernel
  have hover : ∀ st, (threeDims plainTens).stats = some st → StatsOver byteSchema st := by
    intro st hst
    cases hst
    exact ⟨rfl, rfl, rfl⟩
  refine (pcPatchDimensionalFilter_stats_iff (threeDims_holds rfl rfl hplain.stores) hsmall
    ⟨rfl, rfl⟩ (by decide) hscale hnarrow hover rfl (by decide)).mpr ⟨rfl, ?_⟩
  intro dim hd
  obtain ⟨hoffset, hsum, hrange⟩ := hsums dim hd
  exact .of_sum_eq (ne_of_gt (hscale dim hd)) hoffset hsum hrange

/-- The run of two tens is taken into the average once: it is stored as 4, and
recomputed as 7. -/
theorem pcPatchDimensionalFilter_average :
    (threeDims runTens).Holds Platform.plain [[10, 0], [10, 0], [1, 0]] ∧
    averageOf (do
      let f ← pcPatchDimensionalFilter Platform.plain (threeDims runTens)
        (PcBitmap.of [true, true, true])
      return .dimensional f) = some [4, 0] ∧
    averageOf (do
      let f ← pcPatchDimensionalFilter Platform.plain (threeDims runTens)
        (PcBitmap.of [true, true, true])
      pcPatchComputeStats Platform.plain (.dimensional f)) = some [7, 0] ∧
    ¬ FilterStatsRight Platform.plain (threeDims runTens) (PcBitmap.of [true, true, true]) := by
  have hof : RleOf runTens [(2, [10]), (1, [1])] :=
    ⟨by decide, rfl, by decide, by decide, by decide, by decide, by decide⟩
  have hx : Stores Platform.plain runTens [[10], [10], [1]] :=
    ⟨by decide, rfl, by decide, _, hof, by decide⟩
  have hstored : averageOf (do
      let f ← pcPatchDimensionalFilter Platform.plain (threeDims runTens)
        (PcBitmap.of [true, true, true])
      return .dimensional f) = some [4, 0] := by decide +kernel
  have hfound : averageOf (do
      let f ← pcPatchDimensionalFilter Platform.plain (threeDims runTens)
        (PcBitmap.of [true, true, true])
      pcPatchComputeStats Platform.plain (.dimensional f)) = some [7, 0] := by decide +kernel
  refine ⟨threeDims_holds rfl rfl hx, hstored, hfound, ?_⟩
  intro ⟨f, hf, ⟨g, hg, hstats⟩, _⟩
  rw [hf, ok_bind, pure_eq_ok, averageOf] at hstored
  rw [hf, ok_bind, hg, averageOf, hstats] at hfound
  rw [show f.stats = (PcPatch.dimensional f).stats from rfl, hstored] at hfound
  exact absurd hfound (by decide)

end Pointcloud
