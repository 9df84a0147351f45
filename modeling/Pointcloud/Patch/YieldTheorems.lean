/-
Pointcloud.Patch.YieldTheorems — dimensional patches by what decoding makes of them.

A dimensional patch that is read from WKB can be uncompressed where its arrays
decode to the values of points (`yieldsPoints_of_uncompress`). Its extent is that of the
points if no run without values lies outside of it (`YieldsPoints.extent`), and
filtering it leaves a patch that holds the points it keeps, with the extremes
of their numbers (`YieldsPoints.filter`).
-/
import Pointcloud.Bytes.YieldTheorems
import Pointcloud.Patch.FilterStatsTheorems

namespace Pointcloud

open Pointcloud.Base

variable {P : Platform}

/-- Decoding the arrays gives the values of points, and no offset of a value wraps
around. -/
structure YieldsPoints (P : Platform) (d : PcPatchDimensional) (pts : List Bytes) : Prop where
  fits : Fits d.schema d.npoints
  npoints_eq : pts.length = d.npoints
  width_eq : ∀ pt ∈ pts, pt.length = d.schema.size
  arrays : List.Forall₂ (fun (dim : PcDimension) (e : PcBytes) =>
    e.interpretation = dim.interpretation ∧ e.npoints = d.npoints ∧
      GivesValues P e (pts.map dim.bytesIn)) d.schema.dims d.bytes

theorem PcPatchDimensional.Holds.yieldsPoints {d : PcPatchDimensional} {pts : List Bytes}
    (h : d.Holds P pts) (hfits : Fits d.schema d.npoints) : YieldsPoints P d pts := by
  refine ⟨hfits, h.npoints_eq, h.width_eq, h.bytes_hold.imp ?_⟩
  rintro dim e ⟨hinterp, hnp, hstores⟩
  exact ⟨hinterp, hnp, hstores.yields (hnp ▸ h.npoints_lt)⟩

/-! ## Uncompressing -/

/-- The decoded array, with no more than its values. -/
def PcBytes.fitted (d : PcBytes) : PcBytes := { d with size := d.npoints * d.width }

section Patch

variable {d : PcPatchDimensional} {pts : List Bytes} (h : YieldsPoints P d pts)

include h

theorem YieldsPoints.decodesTo : DecodesTo P d pts := by
  have hdecode : ∀ (dim : PcDimension) (e : PcBytes), dim ∈ d.schema.dims →
      (e.interpretation = dim.interpretation ∧ e.npoints = d.npoints ∧
        GivesValues P e (pts.map dim.bytesIn)) →
      ∃ b, pcBytesDecode P e = .ok b ∧ (b.interpretation = dim.interpretation ∧
        b.fitted.Plain ∧ b.fitted.values = pts.map dim.bytesIn) := by
    rintro dim e hd ⟨hinterp, hnp, hyields⟩
    obtain ⟨b, hb, hroom, hvalues⟩ := hyields.decoded
    obtain ⟨hbn, hbi, hbc⟩ := pcBytesDecode_fields hb
    refine ⟨b, hb, hbi.trans hinterp, ⟨?_, hbc, rfl, ?_⟩, hvalues⟩
    · change b.interpretation ≠ .unknown
      exact hbi ▸ hyields.known
    · change b.npoints * b.width ≤ b.bytes.length
      rw [hbn, PcBytes.width, hbi]
      exact hroom
  obtain ⟨bytes, hbytes, hall⟩ := mapM_forall₂ h.arrays hdecode
  refine ⟨h.npoints_eq, h.width_eq, bytes, bytes.map PcBytes.fitted, ?_, ?_, ?_⟩
  · rw [pcPatchDimensionalDecompress, hbytes, ok_bind, pure_eq_ok]
  · rw [PlainDims, List.forall₂_map_right_iff]
    exact hall
  · rw [List.map_map]
    rfl

theorem YieldsPoints.uncompressed : ∃ u, pcPatchUncompressedFromDimensional P d = .ok u ∧
    u.Holds pts ∧ u.schema = d.schema ∧ u.npoints = d.npoints ∧
      u.datasize = u.npoints * u.schema.size := by
  obtain ⟨u, hu, hholds, hschema, hnpoints, hsize, -⟩ := h.decodesTo.uncompressed_holds h.fits
  exact ⟨u, hu, hholds, hschema, hnpoints, hsize⟩

/-- The bitmap of a dimension says of each point whether its number passes. -/
theorem YieldsPoints.bitmap {dimnum : Nat} {filter : PcFiltertype} {val1 val2 : ℚ}
    {map : PcBitmap} (hrun : pcPatchDimensionalBitmap P d dimnum filter val1 val2 = .ok map) :
    ∃ dim, d.schema.dims[dimnum]? = some dim ∧
      map.map = pts.map fun pt => filter.holds (dim.rawIn P.endian pt)
        (pcValueUnscaleUnoffset val1 dim) (pcValueUnscaleUnoffset val2 dim) := by
  obtain ⟨_, hassert, hrun⟩ := bind_eq_ok.mp hrun
  obtain ⟨dim, hdim, hrun⟩ := bind_eq_ok.mp hrun
  obtain ⟨e, he, hrun⟩ := bind_eq_ok.mp hrun
  obtain ⟨hi, rfl⟩ := List.getElem?_eq_some_iff.mp (wordAt_eq_ok.mp hdim)
  obtain ⟨hib, rfl⟩ := List.getElem?_eq_some_iff.mp (wordAt_eq_ok.mp he)
  obtain ⟨hinterp, hnp, hgives⟩ := (List.forall₂_iff_get.mp h.arrays).2 dimnum hi hib
  simp only [List.get_eq_getElem] at hinterp hnp hgives
  refine ⟨_, wordAt_eq_ok.mp hdim, ?_⟩
  rw [hgives.bitmap (hnp ▸ h.fits.npoints_lt) hrun, PcBitmap.map_of]
  simp only [PcBytes.marksOf, PcBytes.numbersOf, List.map_map, hinterp]
  rfl

end Patch

/-- Where the last record could be put together, every array has room for its values. -/
theorem room_of_recordCopies {s : PcSchema} {bytes : List PcBytes} {n : Nat} (hpos : 1 ≤ n)
    (hfits : Fits s n) {copies : List (Int × Bytes)} (h : recordCopies s bytes n = .ok copies)
    {dim : PcDimension} {b : PcBytes} (hmem : (dim, b) ∈ s.dims.zip bytes) :
    n * dim.size ≤ b.bytes.length := by
  obtain ⟨rows, hrows, -⟩ := bind_eq_ok.mp h
  obtain ⟨row, -, hrow⟩ := exists_mem_of_mapM hrows (n - 1) (List.mem_range.mpr (by omega))
  obtain ⟨copy, -, hcopy⟩ := exists_mem_of_mapM hrow (dim, b) hmem
  obtain ⟨src, hread, -⟩ := bind_eq_ok.mp hcopy
  have hd : dim ∈ s.dims := (List.of_mem_zip hmem).1
  have hlast : dim.size * (n - 1) + dim.size = n * dim.size := by
    rw [← Nat.mul_succ, Nat.succ_eq_add_one, Nat.sub_add_cancel hpos, Nat.mul_comm]
  have hlt := hfits.size_lt dim hd
  have hsize := (s.wordWidth hd).pos
  rw [Nat.mul_comm] at hlt
  rw [uint32_of_lt (by omega), readAt_eq_ok] at hread
  omega

/-- A patch that could be uncompressed yields the points of its records. -/
theorem yieldsPoints_of_uncompress {d : PcPatchDimensional} {u : PcPatchUncompressed}
    (hpos : 1 ≤ d.npoints) (hfits : Fits d.schema d.npoints)
    (harrays : List.Forall₂ (fun (dim : PcDimension) (e : PcBytes) =>
      e.interpretation = dim.interpretation ∧ e.npoints = d.npoints) d.schema.dims d.bytes)
    (hu : pcPatchUncompressedFromDimensional P d = .ok u) : YieldsPoints P d u.points := by
  have hrun := hu
  obtain ⟨_, -, hu⟩ := bind_eq_ok.mp hu
  obtain ⟨plain, hplain, hu⟩ := bind_eq_ok.mp hu
  obtain ⟨copies, hcopies, -⟩ := bind_eq_ok.mp hu
  obtain ⟨bytes, hbytes, hplain⟩ := bind_eq_ok.mp hplain
  cases hplain
  rw [intCount_of_lt hfits.npoints_lt] at hcopies
  simp only at hcopies
  obtain ⟨hlen, hdims⟩ := List.forall₂_iff_get.mp harrays
  obtain ⟨hlenb, hdecoded⟩ := List.forall₂_iff_get.mp (mapM_eq_ok_iff.mp hbytes)
  -- each array decodes to values of the width of its dimension
  have hat : ∀ i (hi : i < d.schema.dims.length) (hib : i < d.bytes.length)
      (hio : i < bytes.length), GivesValues P d.bytes[i] bytes[i].values ∧
        bytes[i].values.length = d.npoints ∧
        ∀ v ∈ bytes[i].values, v.length = d.schema.dims[i].size := by
    intro i hi hib hio
    obtain ⟨hinterp, hnp⟩ := hdims i hi hib
    have hdecode := hdecoded i hib hio
    simp only [List.get_eq_getElem] at hinterp hnp hdecode
    obtain ⟨hbn, hbi, -⟩ := pcBytesDecode_fields hdecode
    have hd := List.getElem_mem hi
    have hmem : (d.schema.dims[i], bytes[i]) ∈ d.schema.dims.zip bytes := by
      rw [← List.getElem_zip (h := by rw [List.length_zip]; omega)]
      exact List.getElem_mem _
    have hroom := room_of_recordCopies hpos hfits hcopies hmem
    have hwidth : bytes[i].width = d.schema.dims[i].size := by
      rw [PcBytes.width, hbi, hinterp, d.schema.dim_size hd]
    have hwidth' : d.bytes[i].width = d.schema.dims[i].size := by
      rw [PcBytes.width, hinterp, d.schema.dim_size hd]
    refine ⟨⟨hinterp ▸ d.schema.dim_known hd, _, hdecode, ?_, rfl⟩, ?_, fun v hv => ?_⟩
    · rw [hnp, hwidth']
      exact hroom
    · rw [PcBytes.length_values, hbn, hnp]
    · rw [← hwidth]
      refine length_of_mem_records ?_ hv
      rw [hbn, hnp, hwidth]
      exact hroom
  have hcolumns : List.Forall₂ (fun (dim : PcDimension) (vs : List Bytes) =>
      vs.length = d.npoints ∧ ∀ v ∈ vs, v.length = dim.size) d.schema.dims
      (bytes.map PcBytes.values) := by
    rw [List.forall₂_map_right_iff]
    refine List.forall₂_iff_get.mpr ⟨hlen.trans hlenb, fun i hi hio => ?_⟩
    exact (hat i hi (by omega) hio).2
  have hyields : YieldsPoints P d (pointsOf d.npoints (bytes.map PcBytes.values)) := by
    refine ⟨hfits, length_pointsOf _ _, width_pointsOf hcolumns, ?_⟩
    have hmap := map_bytesIn_pointsOf hcolumns
    refine List.forall₂_iff_get.mpr ⟨hlen, fun i hi hib => ?_⟩
    have hcolumn : (pointsOf d.npoints (bytes.map PcBytes.values)).map
        d.schema.dims[i].bytesIn = bytes[i].values := by
      have hget := congrArg (fun cs => cs[i]?) hmap
      simpa [List.getElem?_eq_getElem, hi, show i < bytes.length by omega] using hget
    obtain ⟨hinterp, hnp⟩ := hdims i hi hib
    simp only [List.get_eq_getElem] at hinterp hnp ⊢
    exact ⟨hinterp, hnp, hcolumn ▸ (hat i hi hib (by omega)).1⟩
  obtain ⟨u', hu', hholds, -⟩ := hyields.uncompressed
  cases hrun.symm.trans hu'
  rw [PcPatchUncompressed.points, hholds.records_eq]
  exact hyields

/-! ## Filtering -/

/-- A family of things, one for each dimension, by the dimension. -/
theorem exists_of_dims (s : PcSchema) {α : Type} [Inhabited α] {xs : List α}
    (hlen : xs.length = s.dims.length) : ∃ g : PcDimension → α, xs = s.dims.map g := by
  refine ⟨fun dim => xs.getD dim.position default, ?_⟩
  apply List.ext_getElem (by rw [List.length_map, hlen])
  intro i hi _
  rw [List.getElem_map, s.position_eq i (hlen ▸ hi), List.getD_eq_getElem _ _ hi]

/-- zlib gives back the values of points in the dimensions that it has deflated. -/
def ZlibKeeps (P : Platform) (d : PcPatchDimensional) (pts : List Bytes) : Prop :=
  ∀ de ∈ d.schema.dims.zip d.bytes, de.2.compression = .zlib →
    P.zlib.Keeps (pts.map de.1.bytesIn).flatten

/-- The patch that filtering returns for the kept points, with the extremes of
their numbers. -/
structure FilteredPatch (P : Platform) (d f : PcPatchDimensional) (pts : List Bytes) : Prop where
  holds : f.Holds P pts
  schema_eq : f.schema = d.schema
  summary : ∃ stat : PcDimension → PcDoubleStat,
    (∀ dim ∈ d.schema.dims, (stat dim).min = dim.lowest P.endian pts ∧
      (stat dim).max = dim.highest P.endian pts) ∧
    f.stats = some ⟨storedPoint P d.schema fun dim => (stat dim).min,
      storedPoint P d.schema fun dim => (stat dim).max,
      storedPoint P d.schema fun dim => (stat dim).sum / f.npoints⟩ ∧
    f.bounds = boundsOfStats d.schema d.bounds (d.schema.dims.map stat)

instance : Inhabited PcDoubleStat := ⟨⟨0, 0, 0⟩⟩

section Filter

variable {d : PcPatchDimensional} {pts : List Bytes} (h : YieldsPoints P d pts) {map : PcBitmap}
  (hmap : map.npoints = d.npoints) (hset : map.nset ≠ 0)
  (hzlib : ZlibKeeps P d (select map.map pts))

include h hmap hset hzlib

/-- One dimension is filtered. -/
theorem YieldsPoints.filterDimension {i : Nat} (hi : i < d.schema.dims.length)
    (hib : i < d.bytes.length) {r : PcBytes × PcDoubleStat}
    (hr : Pointcloud.filterDimension P map d.schema.dims[i] d.bytes[i] = .ok r) :
    (r.1.interpretation = d.schema.dims[i].interpretation ∧ r.1.npoints = map.nset ∧
      Stores P r.1 ((select map.map pts).map d.schema.dims[i].bytesIn)) ∧
    r.2.min = d.schema.dims[i].lowest P.endian (select map.map pts) ∧
      r.2.max = d.schema.dims[i].highest P.endian (select map.map pts) := by
  obtain ⟨hinterp, hnp, hyields⟩ := (List.forall₂_iff_get.mp h.arrays).2 i hi hib
  simp only [List.get_eq_getElem] at hinterp hnp hyields
  obtain ⟨⟨f, stats⟩, hf, hr⟩ := bind_eq_ok.mp hr
  cases hr
  have hmem : (d.schema.dims[i], d.bytes[i]) ∈ d.schema.dims.zip d.bytes := by
    rw [← List.getElem_zip (h := by rw [List.length_zip]; omega)]
    exact List.getElem_mem _
  have hfiltered := hyields.filter (by rw [hnp]; exact h.fits.npoints_lt) (hmap.trans hnp.symm) hset
    (fun hc => by rw [select_map]; exact hzlib _ hmem hc) hf
  rw [select_map] at hfiltered
  obtain ⟨g, hg, hmin, hmax⟩ := hfiltered.gathered
  simp only at hg
  have hnumbers : d.bytes[i].numbersOf P.endian
      ((select map.map pts).map d.schema.dims[i].bytesIn) =
        d.schema.dims[i].rawColumn P.endian (select map.map pts) := by
    rw [PcBytes.numbersOf, hinterp, List.map_map]
    rfl
  rw [hnumbers] at hmin hmax
  refine ⟨⟨hfiltered.interpretation_eq.trans hinterp, hfiltered.npoints_eq,
    hfiltered.stores⟩, ?_, ?_⟩
  · simp only [hg, Option.getD_some, hmin, PcDimension.lowest, filterStatsStart]
  · simp only [hg, Option.getD_some, hmax, PcDimension.highest, filterStatsStart]

/-- Filtering leaves a patch that holds the kept points, with the extremes of their
numbers. -/
theorem YieldsPoints.filter {st : PcStats} (hst : d.stats = some st)
    (hover : StatsOver d.schema st) {f : PcPatchDimensional}
    (hrun : pcPatchDimensionalFilter P d map = .ok f) :
    FilteredPatch P d f (select map.map pts) ∧ f.npoints = map.nset := by
  obtain ⟨fs, hfs, -⟩ := bind_eq_ok.mp hrun
  obtain ⟨hlen, hget⟩ := List.forall₂_iff_get.mp (mapM_eq_ok_iff.mp hfs)
  have hdims := h.arrays.length_eq
  rw [List.length_zip] at hlen
  have hat : ∀ i (hi : i < d.schema.dims.length) (hif : i < fs.length),
      ((fs[i].1.interpretation = d.schema.dims[i].interpretation ∧ fs[i].1.npoints = map.nset ∧
        Stores P fs[i].1 ((select map.map pts).map d.schema.dims[i].bytesIn)) ∧
      fs[i].2.min = d.schema.dims[i].lowest P.endian (select map.map pts) ∧
        fs[i].2.max = d.schema.dims[i].highest P.endian (select map.map pts)) := by
    intro i hi hif
    have hone := hget i (by rw [List.length_zip]; omega) hif
    simp only [List.get_eq_getElem, List.getElem_zip] at hone
    exact h.filterDimension hmap hset hzlib hi (by omega) hone
  have hstats : (fs.map Prod.snd).length = d.schema.dims.length := by
    rw [List.length_map]
    omega
  obtain ⟨stat, hstat⟩ := exists_of_dims d.schema hstats
  rw [pcPatchDimensionalFilter_eq hfs hstat hst hover, Except.ok.injEq] at hrun
  subst hrun
  have hle : map.nset ≤ d.npoints := by
    rw [map.nset_eq, ← hmap]
    exact List.count_le_length
  have hbits : map.map.length = pts.length := by
    rw [h.npoints_eq, ← hmap]
    rfl
  refine ⟨⟨⟨?_, ?_, ?_, ?_⟩, rfl, stat, fun dim hd => ?_, rfl, rfl⟩, rfl⟩
  · have := h.fits.npoints_lt
    simp only
    omega
  · rw [length_select hbits, map.nset_eq]
  · exact fun pt hpt => h.width_eq pt (mem_of_mem_select hpt)
  · rw [List.forall₂_map_right_iff]
    refine List.forall₂_iff_get.mpr ⟨by simp only; omega, fun i hi hif => ?_⟩
    exact (hat i hi hif).1
  · obtain ⟨i, hi, rfl⟩ := List.mem_iff_getElem.mp hd
    have hif : i < fs.length := by omega
    have heq : fs[i].2 = stat d.schema.dims[i] := by
      have hindex := congrArg (fun xs => xs[i]?) hstat
      simpa [List.getElem?_eq_getElem, hi, hif] using hindex
    rw [← heq]
    exact (hat i hi hif).2

end Filter

/-! ## Extent -/

/-- In the arrays of x and y every run lies between runs that have values. -/
def PcPatchDimensional.RunsInside (en : Endian) (d : PcPatchDimensional) : Prop :=
  ∀ dim, (d.schema.xdimension = some dim ∨ d.schema.ydimension = some dim) →
    ∀ e, d.bytes[dim.position]? = some e → e.compression = .rle → e.RunsInside en

/-- The extent is that of the stored numbers of x and y. -/
theorem YieldsPoints.extent {d d' : PcPatchDimensional} {pts : List Bytes}
    (h : YieldsPoints P d pts) {xdim ydim : PcDimension} (hxdim : d.schema.xdimension = some xdim)
    (hydim : d.schema.ydimension = some ydim) (hx : xdim ∈ d.schema.dims)
    (hy : ydim ∈ d.schema.dims) (hruns : d.RunsInside P.endian)
    (hrun : pcPatchDimensionalComputeExtent P d = .ok d') :
    d'.bounds = ⟨xdim.lowest P.endian pts, xdim.highest P.endian pts,
      ydim.lowest P.endian pts, ydim.highest P.endian pts⟩ := by
  have hat : ∀ dim ∈ d.schema.dims, (d.schema.xdimension = some dim ∨
      d.schema.ydimension = some dim) → ∀ e m, wordAt d.bytes dim.position = .ok e →
      pcBytesMinmax P e = .ok m →
      pcValueScaleOffset m.min dim = dim.lowest P.endian pts ∧
        pcValueScaleOffset m.max dim = dim.highest P.endian pts := by
    intro dim hd hxy e m he hm
    rw [wordAt_eq_ok] at he
    have hinside := hruns dim hxy e he
    obtain ⟨i, hi, rfl⟩ := List.mem_iff_getElem.mp hd
    rw [d.schema.position_eq i hi] at he
    obtain ⟨hib, rfl⟩ := List.getElem?_eq_some_iff.mp he
    obtain ⟨hinterp, -, hyields⟩ := (List.forall₂_iff_get.mp h.arrays).2 i hi hib
    simp only [List.get_eq_getElem] at hinterp hyields
    obtain ⟨hmin, hmax⟩ := hyields.minmax hinside hm
    have hnumbers : d.bytes[i].numbersOf P.endian (pts.map d.schema.dims[i].bytesIn) =
        d.schema.dims[i].rawColumn P.endian pts := by
      rw [PcBytes.numbersOf, hinterp, List.map_map]
      rfl
    rw [hmin, hmax, hnumbers]
    exact ⟨rfl, rfl⟩
  obtain ⟨_, -, hrun⟩ := bind_eq_ok.mp hrun
  obtain ⟨_, -, hrun⟩ := bind_eq_ok.mp hrun
  simp only [hxdim, hydim] at hrun
  obtain ⟨ex, hex, hrun⟩ := bind_eq_ok.mp hrun
  obtain ⟨x, hx', hrun⟩ := bind_eq_ok.mp hrun
  obtain ⟨ey, hey, hrun⟩ := bind_eq_ok.mp hrun
  obtain ⟨y, hy', hrun⟩ := bind_eq_ok.mp hrun
  cases hrun
  obtain ⟨hxmin, hxmax⟩ := hat xdim hx (.inl hxdim) ex x hex hx'
  obtain ⟨hymin, hymax⟩ := hat ydim hy (.inr hydim) ey y hey hy'
  rw [hxmin, hxmax, hymin, hymax]

end Pointcloud
