/-
Pointcloud.Patch.TransformAccuracyTheorems — how accurately values are converted.

A value that is stored under another schema is divided into steps of its scale,
clamped to the range of the type and rounded. It comes back within half a step,
or as the nearer end of the range. What `pcPatchTransform` reads are the values
of the records, and these are those of the points as long as uncompressing the
patch gives the points back.
-/
import Pointcloud.Patch.TransformTheorems

namespace Pointcloud

open Pointcloud.Base

variable {P : Platform}

/-! ## One value -/

/-- The number that is stored for a value stands for it within half a step of the
scale, or is the end of the range that is nearer to it. -/
structure HalfStep (dim : PcDimension) (val raw : ℚ) : Prop where
  within : dim.interpretation.range.1 ≤ pcValueUnscaleUnoffset val dim →
    pcValueUnscaleUnoffset val dim ≤ dim.interpretation.range.2 →
    |pcValueScaleOffset raw dim - val| ≤ |dim.scale| / 2
  below : pcValueUnscaleUnoffset val dim < dim.interpretation.range.1 →
    raw = dim.interpretation.range.1
  above : dim.interpretation.range.2 < pcValueUnscaleUnoffset val dim →
    raw = dim.interpretation.range.2

theorem pcValueScaleOffset_unscaleUnoffset {dim : PcDimension} (h : dim.scale ≠ 0) (val : ℚ) :
    pcValueScaleOffset (pcValueUnscaleUnoffset val dim) dim = val := by
  rw [pcValueScaleOffset_eq, pcValueUnscaleUnoffset_eq, div_mul_cancel₀ _ h, sub_add_cancel]

/-- The number of a value, rounded and saturated. -/
def PcDimension.roundedTo (dim : PcDimension) (val : ℚ) : ℚ :=
  (dim.interpretation.saturated (pcValueUnscaleUnoffset val dim) : Int)

theorem halfStep_roundedTo {dim : PcDimension} (hscale : dim.scale ≠ 0) (val : ℚ) :
    HalfStep dim val (dim.roundedTo val) := by
  have hle : (dim.interpretation.range.1 : ℚ) ≤ dim.interpretation.range.2 := by
    cases dim.interpretation <;> norm_num [Interpretation.range]
  unfold PcDimension.roundedTo Interpretation.saturated
  refine ⟨fun hlow hhigh => ?_, fun hlow => ?_, fun hhigh => ?_⟩
  · have hback := pcValueScaleOffset_unscaleUnoffset hscale val
    rw [clamp_of_mem ⟨hlow, hhigh⟩]
    generalize pcValueUnscaleUnoffset val dim = raw at hback
    calc |pcValueScaleOffset (roundHalfAway raw : ℚ) dim - val|
        = |((roundHalfAway raw : ℚ) - raw) * dim.scale| := by
          rw [← hback, pcValueScaleOffset_eq, pcValueScaleOffset_eq]
          ring_nf
      _ = |(roundHalfAway raw : ℚ) - raw| * |dim.scale| := abs_mul _ _
      _ ≤ 1 / 2 * |dim.scale| :=
          mul_le_mul_of_nonneg_right (abs_roundHalfAway_sub_le raw) (abs_nonneg _)
      _ = |dim.scale| / 2 := by ring
  · rw [clamp, if_neg (not_lt.mpr (le_trans hlow.le hle)), if_pos hlow, roundHalfAway_intCast]
  · rw [clamp, if_pos hhigh, roundHalfAway_intCast]

/-- The numbers stand for the values that a point is converted to. -/
def ConvertsWithin (en : Endian) (old new : PcSchema) (dflt : ℚ) (pt : Bytes)
    (raw : PcDimension → ℚ) : Prop :=
  ∀ dim ∈ new.dims, HalfStep dim (convertedValue en old dflt pt dim) (raw dim)

/-- What is stored of a value of a narrow type. -/
theorem rawIn_converted {old new : PcSchema} {dim : PcDimension} (hd : dim ∈ new.dims)
    (hnarrow : dim.interpretation.Narrow) (dflt : ℚ) (pt : Bytes) :
    dim.rawIn P.endian (converted P old new dflt pt) =
      dim.roundedTo (convertedValue P.endian old dflt pt dim) := by
  obtain ⟨hwhole, hsize⟩ := hnarrow.whole
  rw [PcDimension.rawIn, converted, bytesIn_storedPoint new _ hd]
  exact hwhole.number_stored fun hlong => absurd hlong hsize

/-! ## The whole patch -/

/-- The patch is converted point by point, each value as accurately as its type
and scale allow. -/
def TransformsAccurately (P : Platform) (pa : PcPatch) (pts : List Bytes) (new : PcSchema)
    (dflt : ℚ) : Prop :=
  ∃ q recs, pcPatchTransform P pa new dflt = .ok (some q) ∧ q.npoints = pa.npoints ∧
    q.schema = new ∧ q.Holds recs ∧
    List.Forall₂ (fun pt r => ConvertsWithin P.endian pa.schema new dflt pt fun dim =>
      dim.rawIn P.endian r) pts recs

/-- The values of these records round as those of the points do. -/
def RoundsAlike (en : Endian) (old new : PcSchema) (dflt : ℚ) (pts recs : List Bytes) : Prop :=
  List.Forall₂ (fun pt r => ConvertsWithin en old new dflt pt fun dim =>
    dim.roundedTo (convertedValue en old dflt r dim)) pts recs

/-- The records can be indexed; those of dimensions have values that round as those
of the points do. -/
def TransformCondition (P : Platform) (pa : PcPatch) (pts : List Bytes) (new : PcSchema)
    (dflt : ℚ) : Prop :=
  pa.npoints ≤ 2147483648 ∧
    match pa with
    | .dimensional d =>
        RoundsAlike P.endian d.schema new dflt pts (unpackedRecords d.schema pts)
    | _ => True

/-- Records that are the points have their values. -/
theorem roundsAlike_self {en : Endian} {old new : PcSchema}
    (hscale : ∀ dim ∈ new.dims, dim.scale ≠ 0) (dflt : ℚ) (pts : List Bytes) :
    RoundsAlike en old new dflt pts pts :=
  List.forall₂_same.mpr fun _ _ dim hd => halfStep_roundedTo (hscale dim hd) _

/-- The records that are converted are as accurate as these round. -/
theorem forall₂_converted_iff {old new : PcSchema}
    (hnarrow : ∀ dim ∈ new.dims, dim.interpretation.Narrow) (dflt : ℚ) (pts recs : List Bytes) :
    List.Forall₂ (fun pt r => ConvertsWithin P.endian old new dflt pt fun dim =>
        dim.rawIn P.endian r) pts (recs.map (converted P old new dflt)) ↔
      RoundsAlike P.endian old new dflt pts recs := by
  have hraw : ∀ pt r : Bytes, (ConvertsWithin P.endian old new dflt pt fun dim =>
      dim.rawIn P.endian (converted P old new dflt r)) ↔
        ConvertsWithin P.endian old new dflt pt fun dim =>
          dim.roundedTo (convertedValue P.endian old dflt r dim) := by
    intro pt r
    refine forall₂_congr fun dim hd => ?_
    simp only [rawIn_converted hd (hnarrow dim hd)]
  rw [List.forall₂_map_right_iff, RoundsAlike]
  simp only [hraw]

theorem transformCondition_iff {pa : PcPatch} {pts : List Bytes} (h : pa.Holds P pts)
    {new : PcSchema} (hscale : ∀ dim ∈ new.dims, dim.scale ≠ 0) (dflt : ℚ) :
    TransformCondition P pa pts new dflt ↔ pa.npoints ≤ 2147483648 ∧
      RoundsAlike P.endian pa.schema new dflt pts (pa.unpacked pts) := by
  cases pa with
  | uncompressed p =>
      exact and_congr_right fun _ => iff_of_true trivial (roundsAlike_self hscale dflt pts)
  | dimensional d => exact Iff.rfl
  | lazperf l => exact h.elim

/-- Up to `2 ^ 32` bytes of records all values are converted accurately. -/
theorem transformCondition_of_fits {pa : PcPatch} {pts : List Bytes} (h : pa.Holds P pts)
    (hint : pa.npoints ≤ 2147483648) (hfits : ∀ d, pa = .dimensional d → Fits d.schema d.npoints)
    {new : PcSchema} (hscale : ∀ dim ∈ new.dims, dim.scale ≠ 0) (dflt : ℚ) :
    TransformCondition P pa pts new dflt := by
  rw [transformCondition_iff h hscale]
  have hsame : pa.unpacked pts = pts := by
    cases pa with
    | uncompressed p => rfl
    | lazperf l => rfl
    | dimensional d =>
        have hd : d.Holds P pts := h
        have hfit := hfits d rfl
        rw [← hd.npoints_eq] at hfit
        exact hfit.unpackedRecords_eq hd.width_eq
  rw [hsame]
  exact ⟨hint, roundsAlike_self hscale dflt pts⟩

/-- With other reference systems nothing is returned; with the same ones the values
are converted accurately exactly under `TransformCondition`. -/
theorem pcPatchTransform_accurate_iff (P : Platform) {pa : PcPatch} {pts : List Bytes}
    (h : pa.Holds P pts) {new : PcSchema} (hnew : new.Valid)
    (hnamed : ∀ dim ∈ new.dims, dim.name ≠ none) (hscale : ∀ dim ∈ new.dims, dim.scale ≠ 0)
    (hnarrow : ∀ dim ∈ new.dims, dim.interpretation.Narrow) (dflt : ℚ) :
    (pa.schema.srid ≠ new.srid → pcPatchTransform P pa new dflt = .ok none) ∧
      (pa.schema.srid = new.srid →
        (TransformsAccurately P pa pts new dflt ↔ TransformCondition P pa pts new dflt)) := by
  refine ⟨fun hsrid => ?_, fun hsrid => ?_⟩
  · rw [pcPatchTransform, if_pos hsrid, pure_eq_ok]
  · obtain ⟨xdim, hx, hxdim⟩ := hnew.xdimension
    obtain ⟨ydim, hy, hydim⟩ := hnew.ydimension
    rw [transformCondition_iff h hscale]
    have hfound : pa.npoints ≤ 2147483648 → (TransformsAccurately P pa pts new dflt ↔
        RoundsAlike P.endian pa.schema new dflt pts (pa.unpacked pts)) := by
      intro hint
      obtain ⟨u, hu⟩ := h.unpacks (PcPatch.allocatable_of_le hint)
      obtain ⟨q, hconverted, hq⟩ := pcPatchTransform_ok hu.uncompress_ok hu.holds hnamed hsrid hint
        hxdim hydim hx hy dflt
      rw [← forall₂_converted_iff (P := P) hnarrow]
      constructor
      · rintro ⟨q', recs, hq', -, -, hholds, hall⟩
        rw [hq, Except.ok.injEq, Option.some.injEq] at hq'
        subst hq'
        have hrecs := hconverted.holds.unique
          ⟨hholds.npoints_lt, hholds.room, hholds.records_eq⟩
        rwa [hrecs]
      · intro hall
        exact ⟨_, _, hq, hconverted.npoints_eq, hconverted.schema_eq,
          ⟨hconverted.holds.npoints_lt, hconverted.holds.room, hconverted.holds.records_eq⟩, hall⟩
    constructor
    · intro haccurate
      obtain ⟨q, recs, hq, -⟩ := id haccurate
      have hint := npoints_le_of_transform hnew hq
      exact ⟨hint, (hfound hint).mp haccurate⟩
    · rintro ⟨hint, hall⟩
      exact (hfound hint).mpr hall

/-- From hundredths in dimensions to eighths, with a z and the coordinates turned around. -/
theorem pcPatchTransform_accurate_iff_witness :
    TransformsAccurately Platform.plain
      (.dimensional (dimensionsOfRecords (centSchema .dimensional) [[13, 2], [3, 255]]))
      [[13, 2], [3, 255]] (turnedSchema .int16 (by decide) (1 / 8)) 300 := by
  have hholds : PcPatch.Holds Platform.plain
      (.dimensional (dimensionsOfRecords (centSchema .dimensional) [[13, 2], [3, 255]]))
      [[13, 2], [3, 255]] := dimensionsOfRecords_holds (by decide) (by decide)
  have hfits : Fits (centSchema .dimensional) 2 := ⟨by decide, by decide⟩
  have hnew := fun dim hd =>
    @mem_turnedSchema .int16 (by decide) (1 / 8) (by norm_num) dim hd
  have hnarrow : ∀ dim ∈ (turnedSchema .int16 (by decide) (1 / 8)).dims,
      dim.interpretation.Narrow := by
    intro dim hd
    rcases (hnew dim hd).1 with h | h <;> rw [h] <;> decide
  have hscale := fun dim hd => (hnew dim hd).2.1
  refine ((pcPatchTransform_accurate_iff Platform.plain hholds (turnedSchema_valid _)
    (fun dim hd => (hnew dim hd).2.2) hscale hnarrow 300).2 rfl).mpr ?_
  refine transformCondition_of_fits hholds (by decide) (fun d hd => ?_) hscale 300
  cases hd
  exact hfits

/-- More than `2 ^ 31` points are not returned. -/
theorem pcPatchTransform_not_accurate :
    ∃ recs : List Bytes, recs = List.replicate 2147483649 (zeros 2) ∧
      PcPatch.Holds Platform.plain (.uncompressed (patchOfRecords (centSchema .none) recs)) recs ∧
      (centSchema .none).srid = (centSchema .dimensional).srid ∧
      (∀ dim ∈ (centSchema .dimensional).dims, dim.scale ≠ 0 ∧ dim.interpretation.Narrow) ∧
      (∀ q, pcPatchTransform Platform.plain (.uncompressed (patchOfRecords (centSchema .none) recs))
        (centSchema .dimensional) 0 ≠ .ok (some q)) ∧
      ¬ TransformsAccurately Platform.plain
        (.uncompressed (patchOfRecords (centSchema .none) recs)) recs
          (centSchema .dimensional) 0 := by
  obtain ⟨recs, hrecs⟩ : ∃ recs, recs = List.replicate 2147483649 (zeros 2) := ⟨_, rfl⟩
  obtain ⟨hlen, hholds⟩ := manyRecords_hold (P := Platform.plain) hrecs
  have hnone : ∀ q, pcPatchTransform Platform.plain
      (.uncompressed (patchOfRecords (centSchema .none) recs)) (centSchema .dimensional) 0 ≠
        .ok (some q) := pcPatchTransform_not_some (centSchema_valid _) (by omega) 0
  refine ⟨recs, hrecs, hholds, rfl, fun dim hd => ?_, hnone, ?_⟩
  · exact ⟨(mem_centSchema hd).2, .inr (.inl (mem_centSchema hd).1)⟩
  · rintro ⟨q, -, hq, -⟩
    exact hnone q hq

end Pointcloud
