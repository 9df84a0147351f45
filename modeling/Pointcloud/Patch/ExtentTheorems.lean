/-
Pointcloud.Patch.ExtentTheorems — the extent of a patch in its two forms.

The extent of records is the extent of their values. That of dimensions is
found on the stored numbers, from the limits of `float`, and scaled then. The
two agree exactly where these limits hide nothing, the extremes of x and y are
among the records that uncompressing gives, and a negative scale meets numbers
that are all the same: it turns the least and the greatest around.
-/
import Pointcloud.Patch.StoredStatsTheorems
import Pointcloud.Patch.UnpackTheorems

namespace Pointcloud

open Pointcloud.Base

variable {P : Platform}

/-! ## One axis -/

/-- The numbers that points store in a dimension have the extremes of those of the
records, which the limits of `float` do not hide; with a negative scale they are
all the same. -/
structure PcDimension.ExtremesKept (en : Endian) (dim : PcDimension) (pts recs : List Bytes) :
    Prop where
  same : SameExtremes (-fltMax) fltMax (dim.rawColumn en pts) (dim.rawColumn en recs)
  flat : dim.scale < 0 → ∀ a ∈ dim.rawColumn en pts, ∀ b ∈ dim.rawColumn en pts, a = b

theorem pcValueScaleOffset_strictMono {dim : PcDimension} (h : 0 < dim.scale) :
    StrictMono fun val => pcValueScaleOffset val dim := by
  intro a b hab
  simp only [pcValueScaleOffset_eq]
  have hmul := mul_lt_mul_of_pos_right hab h
  linarith

theorem pcValueScaleOffset_strictAnti {dim : PcDimension} (h : dim.scale < 0) :
    StrictAnti fun val => pcValueScaleOffset val dim := by
  intro a b hab
  simp only [pcValueScaleOffset_eq]
  have hmul := mul_lt_mul_of_neg_right hab h
  linarith

theorem fltMax_pos : 0 < fltMax := by norm_num [fltMax]

/-- The extremes of an axis as the two functions find them. -/
theorem extremesKept_iff {en : Endian} {s : PcSchema} {dim : PcDimension} (hd : dim ∈ s.dims)
    (hscale : dim.scale ≠ 0) {pts : List Bytes} (hwidth : ∀ pt ∈ pts, pt.length = s.size)
    (hne : pts ≠ [])
    (hrange : ∀ r ∈ unpackedRecords s pts, -dblMax ≤ dim.valueIn en r ∧ dim.valueIn en r ≤ dblMax) :
    (dim.lowest en pts = (dim.column en (unpackedRecords s pts)).foldl min dblMax ∧
      dim.highest en pts = (dim.column en (unpackedRecords s pts)).foldl max (-dblMax)) ↔
      dim.ExtremesKept en pts (unpackedRecords s pts) := by
  generalize hrecs : unpackedRecords s pts = recs at hrange ⊢
  have hcount : recs.length = pts.length := hrecs ▸ length_unpackedRecords s pts
  have hcolumn : dim.column en recs =
      (dim.rawColumn en recs).map fun raw => pcValueScaleOffset raw dim := by
    rw [PcDimension.column, PcDimension.rawColumn, List.map_map]
    rfl
  have hxs : dim.rawColumn en pts ≠ [] := by simpa [PcDimension.rawColumn] using hne
  have hys : dim.rawColumn en recs ≠ [] := by
    refine List.ne_nil_of_length_pos ?_
    rw [PcDimension.rawColumn, List.length_map, hcount]
    exact List.length_pos_iff.mpr hne
  have hvalues : ∀ raw ∈ dim.rawColumn en recs,
      -dblMax ≤ pcValueScaleOffset raw dim ∧ pcValueScaleOffset raw dim ≤ dblMax := by
    intro raw hraw
    obtain ⟨r, hr, rfl⟩ := List.mem_map.mp hraw
    exact hrange r hr
  have hfrom : ∀ raw ∈ dim.rawColumn en recs,
      raw ∈ dim.rawColumn en pts ∨ -fltMax < raw ∧ raw < fltMax := by
    intro raw hraw
    obtain ⟨r, hr, rfl⟩ := List.mem_map.mp hraw
    rcases bytesIn_unpackedRecords hwidth (hrecs ▸ hr) hd with ⟨pt, hpt, heq⟩ | hzero
    · rw [PcDimension.rawIn, heq]
      exact .inl (List.mem_map_of_mem hpt)
    · rw [PcDimension.rawIn, hzero, s.dim_size hd, Interpretation.number_zeros]
      exact .inr ⟨neg_lt_zero.mpr fltMax_pos, fltMax_pos⟩
  rw [hcolumn, PcDimension.lowest, PcDimension.highest]
  rcases lt_or_gt_of_ne hscale with hneg | hpos
  · rw [map_extremes_iff_of_strictAnti hxs hys hvalues (pcValueScaleOffset_strictAnti hneg)]
    exact ⟨fun h => ⟨h.1, fun _ => h.2⟩, fun h => ⟨h.same, h.flat hneg⟩⟩
  · rw [map_extremes_iff_of_strictMono hxs hys hvalues (pcValueScaleOffset_strictMono hpos) hfrom]
    exact ⟨fun h => ⟨h, fun hneg => absurd hneg (not_lt.mpr hpos.le)⟩, fun h => h.same⟩

/-! ## Both axes -/

/-- A dimension is x or y. -/
def PcSchema.IsAxis (s : PcSchema) (dim : PcDimension) : Prop :=
  s.xdimension = some dim ∨ s.ydimension = some dim

/-- The two forms of a patch have the same extent. -/
def SameExtent (P : Platform) (d : PcPatchDimensional) : Prop :=
  ∃ q u r, pcPatchDimensionalComputeExtent P d = .ok q ∧
    pcPatchUncompressedFromDimensional P d = .ok u ∧
    pcPatchUncompressedComputeExtent P.endian u = .ok r ∧ q.bounds = r.bounds

/-- Both extents are found, and the extremes of both axes are kept. -/
structure ExtentCondition (P : Platform) (d : PcPatchDimensional) (pts : List Bytes) : Prop where
  npoints_le : d.npoints ≤ 2147483648
  arrays_le : ∀ dim, d.schema.IsAxis dim → ∀ e, d.bytes[dim.position]? = some e →
    e.compression ≠ .rle → e.npoints * e.width ≤ 2147483648
  kept : ∀ dim, d.schema.IsAxis dim →
    dim.ExtremesKept P.endian pts (unpackedRecords d.schema pts)

/-- The bounds of a patch are the same in both forms exactly under `ExtentCondition`. -/
theorem pcPatchComputeExtent_forms_iff {d : PcPatchDimensional} {pts : List Bytes}
    (h : d.Holds P pts) (hne : pts ≠ []) (hvalid : d.schema.Valid)
    (hscale : ∀ dim ∈ d.schema.dims, dim.scale ≠ 0)
    (hrange : ∀ dim, d.schema.IsAxis dim → ∀ r ∈ unpackedRecords d.schema pts,
      -dblMax ≤ dim.valueIn P.endian r ∧ dim.valueIn P.endian r ≤ dblMax) :
    SameExtent P d ↔ ExtentCondition P d pts := by
  obtain ⟨xdim, hx, hxdim⟩ := hvalid.xdimension
  obtain ⟨ydim, hy, hydim⟩ := hvalid.ydimension
  have hxkept := extremesKept_iff hx (hscale xdim hx) h.width_eq hne (hrange xdim (.inl hxdim))
  have hykept := extremesKept_iff hy (hscale ydim hy) h.width_eq hne (hrange ydim (.inr hydim))
  -- where both extents are found, they are these
  have hfound : d.npoints ≤ 2147483648 →
      (∀ dim, d.schema.IsAxis dim → ∀ e, d.bytes[dim.position]? = some e →
        e.compression ≠ .rle → e.npoints * e.width ≤ 2147483648) →
      (SameExtent P d ↔ xdim.ExtremesKept P.endian pts (unpackedRecords d.schema pts) ∧
        ydim.ExtremesKept P.endian pts (unpackedRecords d.schema pts)) := by
    intro hint harrays
    have hpa : PcPatch.Holds P (.dimensional d) pts := h
    obtain ⟨u, hu⟩ := hpa.unpacks (PcPatch.allocatable_of_le hint)
    have hus : u.schema = d.schema := hu.schema_eq
    have hun : u.npoints = d.npoints := hu.npoints_eq
    have hextent := pcPatchUncompressedComputeExtent_ok P.endian hu.holds (hun ▸ hint) (hus ▸ hxdim)
      (hus ▸ hydim) (hus ▸ hx) (hus ▸ hy)
    have hdims := pcPatchDimensionalComputeExtent_ok h hxdim hydim hx hy harrays
    have hrun : pcPatchUncompressedFromDimensional P d = .ok u := hu.uncompress_ok
    rw [← hxkept, ← hykept]
    unfold SameExtent
    constructor
    · rintro ⟨q, u', r, hq, hu', hr, hbounds⟩
      cases hrun.symm.trans hu'
      cases hdims.symm.trans hq
      cases hextent.symm.trans hr
      obtain ⟨h1, h2, h3, h4⟩ := PcBounds.mk.inj hbounds
      exact ⟨⟨h1, h2⟩, h3, h4⟩
    · rintro ⟨⟨h1, h2⟩, h3, h4⟩
      exact ⟨_, u, _, hdims, hrun, hextent, by
        simp only [boundsOf, h1, h2, h3, h4]
        rfl⟩
  constructor
  · intro hsame
    obtain ⟨q, u, r, hq, hu, hr, -⟩ := id hsame
    obtain ⟨hus, hun, hlen⟩ := pcPatchUncompressedFromDimensional_room hu
    have hint : d.npoints ≤ 2147483648 := by
      rw [← hun]
      exact (pcPatchUncompressedComputeExtent_isOk_iff P.endian (hus ▸ hvalid)
        (by rw [hlen, hus, hun, Nat.mul_comm])).mp ⟨r, hr⟩
    have harrays := (pcPatchDimensionalComputeExtent_isOk_iff hvalid h).mp ⟨q, hq⟩
    obtain ⟨hxk, hyk⟩ := (hfound hint harrays).mp hsame
    refine ⟨hint, harrays, fun dim hdim => ?_⟩
    rcases hdim with hdim | hdim
    · rw [hxdim, Option.some.injEq] at hdim
      exact hdim ▸ hxk
    · rw [hydim, Option.some.injEq] at hdim
      exact hdim ▸ hyk
  · intro hcond
    exact (hfound hcond.npoints_le hcond.arrays_le).mpr
      ⟨hcond.kept xdim (.inl hxdim), hcond.kept ydim (.inr hydim)⟩

/-- With a positive scale, and a number within the limits of `float` at either end,
the points keep their extremes. -/
theorem PcDimension.ExtremesKept.of_points {en : Endian} {dim : PcDimension} (h : 0 ≤ dim.scale)
    {pts : List Bytes} (hlow : ∃ raw ∈ dim.rawColumn en pts, raw ≤ fltMax)
    (hhigh : ∃ raw ∈ dim.rawColumn en pts, -fltMax ≤ raw) : dim.ExtremesKept en pts pts :=
  ⟨⟨hlow, hhigh, fun _ => Iff.rfl, fun _ => Iff.rfl⟩, fun hneg => absurd hneg (not_lt.mpr h)⟩

/-- Two points of two bytes, by dimension. -/
def scaledPair (scale : ℚ) : PcPatchDimensional :=
  dimensionsOfRecords (xySchema .uint8 .uint8 uint8_known uint8_known scale .dimensional)
    [[1, 5], [2, 5]]

theorem scaledPair_holds (scale : ℚ) : (scaledPair scale).Holds P [[1, 5], [2, 5]] :=
  dimensionsOfRecords_holds (by simp [xySchema, Interpretation.size]) (by decide)

theorem scaledPair_unpacked (scale : ℚ) :
    unpackedRecords (scaledPair scale).schema [[1, 5], [2, 5]] = [[1, 5], [2, 5]] := by
  refine Fits.unpackedRecords_eq ⟨by decide, ?_⟩
    (scaledPair_holds (P := Platform.plain) scale).width_eq
  simp [scaledPair, dimensionsOfRecords, xySchema, Interpretation.size]

theorem pcPatchComputeExtent_forms_iff_witness : SameExtent Platform.plain (scaledPair 1) := by
  have hraw : ∀ dim, (scaledPair 1).schema.IsAxis dim → dim.scale = 1 ∧
      ∀ r ∈ ([[1, 5], [2, 5]] : List Bytes),
        0 ≤ dim.rawIn .little r ∧ dim.rawIn .little r ≤ 5 ∧
          dim.valueIn .little r = dim.rawIn .little r := by
    rintro dim (hdim | hdim) <;> cases hdim <;> decide +kernel
  have hfive : (5 : ℚ) ≤ fltMax ∧ 5 ≤ dblMax := by decide +kernel
  refine (pcPatchComputeExtent_forms_iff (scaledPair_holds 1) (by simp) ⟨rfl, rfl⟩ ?_ ?_).mpr
    ⟨by decide, ?_, ?_⟩
  · simp [scaledPair, dimensionsOfRecords, xySchema]
  · intro dim hdim r hr
    rw [scaledPair_unpacked] at hr
    obtain ⟨hlow, hhigh, hvalue⟩ := (hraw dim hdim).2 r hr
    rw [show Platform.plain.endian = .little from rfl, hvalue]
    constructor <;> linarith [hfive.2]
  · rintro dim (hdim | hdim) <;> cases hdim <;> decide
  · intro dim hdim
    obtain ⟨hlow, hhigh, -⟩ := (hraw dim hdim).2 [1, 5] (by simp)
    rw [scaledPair_unpacked]
    exact .of_points (by rw [(hraw dim hdim).1]; exact zero_le_one)
      ⟨_, List.mem_map_of_mem (by simp), le_trans hhigh hfive.1⟩
      ⟨_, List.mem_map_of_mem (by simp), le_trans (by linarith [fltMax_pos]) hlow⟩

/-- With a negative scale the least x is that of the greatest number. -/
theorem pcPatchComputeExtent_forms_differ :
    (scaledPair (-1)).Holds Platform.plain [[1, 5], [2, 5]] ∧
      (do
        let q ← pcPatchDimensionalComputeExtent Platform.plain (scaledPair (-1))
        return q.bounds) = .ok ⟨-1, -2, -5, -5⟩ ∧
      (do
        let u ← pcPatchUncompressedFromDimensional Platform.plain (scaledPair (-1))
        let r ← pcPatchUncompressedComputeExtent .little u
        return r.bounds) = .ok ⟨-2, -1, -5, -5⟩ ∧
      ¬ SameExtent Platform.plain (scaledPair (-1)) := by
  have hdims : (do
      let q ← pcPatchDimensionalComputeExtent Platform.plain (scaledPair (-1))
      return q.bounds) = .ok ⟨-1, -2, -5, -5⟩ := by decide +kernel
  have hrecords : (do
      let u ← pcPatchUncompressedFromDimensional Platform.plain (scaledPair (-1))
      let r ← pcPatchUncompressedComputeExtent .little u
      return r.bounds) = .ok ⟨-2, -1, -5, -5⟩ := by decide +kernel
  refine ⟨scaledPair_holds (-1), hdims, hrecords, ?_⟩
  rintro ⟨q, u, r, hq, hu, hr, hbounds⟩
  rw [hq, ok_bind, pure_eq_ok, hbounds] at hdims
  rw [hu, ok_bind, show pcPatchUncompressedComputeExtent .little u = .ok r from hr, ok_bind,
    pure_eq_ok, hdims] at hrecords
  exact absurd hrecords (by decide +kernel)

end Pointcloud
