/-
Pointcloud.Patch.DimensionalTheorems — from records to dimensions and back.

Splitting the points of a patch by dimension loses nothing, and every family
of values, one list for each dimension, is that of some points (`pointsOf`).
The counts of the code are exact on the patches of `Fits`: the number of
points is an `int`, and no array of values reaches `2 ^ 32` bytes.
-/
import Pointcloud.Patch.CoreTheorems

namespace Pointcloud

open Pointcloud.Base

variable {P : Platform}

/-- The number of points is an `int`, and no array of values reaches `2 ^ 32` bytes. -/
structure Fits (s : PcSchema) (npoints : Nat) : Prop where
  npoints_lt : npoints < 2147483648
  size_lt : ∀ d ∈ s.dims, d.size * npoints < 4294967296

instance (s : PcSchema) (npoints : Nat) : Decidable (Fits s npoints) :=
  decidable_of_iff (npoints < 2147483648 ∧ ∀ d ∈ s.dims, d.size * npoints < 4294967296)
    ⟨fun h => ⟨h.1, h.2⟩, fun h => ⟨h.npoints_lt, h.size_lt⟩⟩

/-- Records of less than `2 ^ 30` bytes can be counted. -/
theorem fits_of_records {s : PcSchema} {n : Nat} (h : n * s.size < 1073741824) : Fits s n := by
  have hpos := s.size_pos
  refine ⟨?_, fun d hd => ?_⟩
  · have := Nat.le_mul_of_pos_right n hpos
    omega
  · have hle : d.size ≤ s.size := Nat.le_trans (Nat.le_add_left _ _) (s.dim_end_le hd)
    have := Nat.mul_le_mul_right n hle
    rw [Nat.mul_comm s.size] at this
    omega

/-- Where the counts are exact, the records put together are the points. -/
theorem Fits.recordsOf_eq {s : PcSchema} {pts : List Bytes} (h : Fits s pts.length)
    (hwidth : ∀ pt ∈ pts, pt.length = s.size) : recordsOf s pts = pts :=
  Pointcloud.recordsOf_eq hwidth fun d hd => Nat.le_of_lt (h.size_lt d hd)

/-! ## Plain arrays -/

/-- A new array with the values `vs`. -/
def plainArray (dim : PcDimension) (vs : List Bytes) : PcBytes where
  size := dim.size * vs.length
  npoints := vs.length
  interpretation := dim.interpretation
  compression := .none
  readonly := false
  bytes := vs.flatten

section Plain

variable {s : PcSchema} {dim : PcDimension} (hd : dim ∈ s.dims) {vs : List Bytes}
  (hwidth : ∀ v ∈ vs, v.length = dim.size)

include hd

theorem width_plainArray : (plainArray dim vs).width = dim.size := (s.dim_size hd).symm

include hwidth

theorem plainArray_plain : (plainArray dim vs).Plain := by
  have hlen : vs.flatten.length = dim.size * vs.length := by
    rw [length_flatten_of_width hwidth, Nat.mul_comm]
  refine ⟨s.dim_known hd, rfl, ?_, Nat.le_of_eq hlen.symm⟩
  rw [width_plainArray hd, Nat.mul_comm]
  rfl

theorem values_plainArray : (plainArray dim vs).values = vs := by
  rw [PcBytes.values, width_plainArray hd]
  exact records_flatten hwidth

end Plain

/-- Every point has its bytes for a dimension. -/
theorem width_bytesIn {s : PcSchema} {pts : List Bytes} (hwidth : ∀ pt ∈ pts, pt.length = s.size)
    {dim : PcDimension} (hd : dim ∈ s.dims) : ∀ v ∈ pts.map dim.bytesIn, v.length = dim.size := by
  intro v hv
  obtain ⟨pt, hpt, rfl⟩ := List.mem_map.mp hv
  exact s.length_bytesIn hd (hwidth pt hpt)

/-! ## From records to dimensions -/

/-- The arrays of the values of the points. -/
def plainArrays (s : PcSchema) (pts : List Bytes) : List PcBytes :=
  s.dims.map fun dim => plainArray dim (pts.map dim.bytesIn)

theorem dimensionFromRecords_ok {s : PcSchema} {data : Bytes} {pts : List Bytes}
    (hpts : records s.size pts.length data = pts) (hroom : pts.length * s.size ≤ data.length)
    (hint : pts.length < 2147483648) {dim : PcDimension} (hd : dim ∈ s.dims)
    (hsmall : dim.size * pts.length < 4294967296) :
    dimensionFromRecords s data pts.length dim = .ok (plainArray dim (pts.map dim.bytesIn)) := by
  have hwidth : ∀ pt ∈ pts, pt.length = s.size := by
    intro pt hpt
    rw [← hpts] at hpt
    exact length_of_mem_records hroom hpt
  have hpieces := width_bytesIn hwidth hd
  have hend := s.dim_end_le hd
  have hcopies : ((List.range pts.length).mapM fun j => (do
        let src ← readAt data (s.size * j + dim.byteoffset : Nat) dim.size
        return ((uint32 (dim.size * j) : Int), src) : Run (Int × Bytes)))
      = .ok (follow 0 (pts.map dim.bytesIn)) := by
    have hfollow := map_mul_eq_follow hpieces (fun i => dim.bytesIn (pts.getD i []))
      (fun i hi => by
        have hi' : i < pts.length := by simpa using hi
        rw [List.getElem_map, List.getD_eq_getElem _ _ hi'])
    rw [← hfollow, List.length_map]
    refine mapM_eq_ok_map fun j hj => ?_
    have hj' : j < pts.length := List.mem_range.mp hj
    have hrow : j * s.size + s.size ≤ data.length := by
      have := Nat.mul_le_mul_right s.size (Nat.succ_le_of_lt hj')
      rw [Nat.succ_mul] at this
      omega
    have hrecord := records_getElem? s.size pts.length data j hj'
    rw [hpts, List.getElem?_eq_getElem hj', Option.some.injEq] at hrecord
    have hbytes : (data.drop (s.size * j + dim.byteoffset)).take dim.size
        = dim.bytesIn (pts.getD j []) := by
      rw [List.getD_eq_getElem _ _ hj', hrecord, PcDimension.bytesIn, List.drop_take,
        List.take_take, List.drop_drop, Nat.min_eq_left (by omega), Nat.mul_comm]
    have hoff : uint32 (dim.size * j) = dim.size * j := by
      have := Nat.mul_le_mul_left dim.size (Nat.le_of_lt hj')
      exact uint32_of_lt (by omega)
    rw [readAt_ok (by rw [Nat.mul_comm]; omega), ok_bind, hbytes, hoff, pure_eq_ok]
  have hlen : (pts.map dim.bytesIn).flatten.length = dim.size * pts.length := by
    rw [length_flatten_of_width hpieces, List.length_map, Nat.mul_comm]
  rw [dimensionFromRecords, intCount_of_lt hint, hcopies, ok_bind]
  simp only [pcBytesMake, uint32_of_lt hsmall]
  rw [writeAll_fill (by rw [hlen, length_zeros]), ok_bind, pure_eq_ok, plainArray, List.length_map]

/-- The dimensional form of a patch with points. -/
theorem pcPatchDimensionalFromUncompressed_ok {p : PcPatchUncompressed} {pts : List Bytes}
    (h : p.Holds pts) (hne : pts ≠ []) (hfits : Fits p.schema p.npoints) :
    pcPatchDimensionalFromUncompressed p = .ok (some {
      readonly := false
      schema := p.schema
      npoints := p.npoints
      bounds := p.bounds
      stats := pcStatsClone p.stats
      bytes := plainArrays p.schema pts }) := by
  have hlen := h.length_eq
  have hpos : 0 < pts.length := List.length_pos_iff.mpr hne
  have hdims : (p.schema.dims.mapM
      (dimensionFromRecords p.schema p.data.content p.npoints)) =
      .ok (plainArrays p.schema pts) := by
    refine mapM_eq_ok_map fun dim hd => ?_
    rw [← hlen]
    exact dimensionFromRecords_ok (by rw [hlen]; exact h.records_eq) (by rw [hlen]; exact h.room)
      (by rw [hlen]; exact hfits.npoints_lt) hd (by rw [hlen]; exact hfits.size_lt dim hd)
  unfold pcPatchDimensionalFromUncompressed
  rw [int32_natCast hfits.npoints_lt, if_neg (by omega), hdims, ok_bind, pure_eq_ok]

/-- The arrays of the points hold the points. -/
theorem plainArrays_holds {s : PcSchema} {pts : List Bytes}
    (hwidth : ∀ pt ∈ pts, pt.length = s.size) :
    List.Forall₂ (fun (dim : PcDimension) (e : PcBytes) =>
      e.interpretation = dim.interpretation ∧ e.npoints = pts.length ∧
        Stores P e (pts.map dim.bytesIn)) s.dims (plainArrays s pts) := by
  rw [plainArrays, List.forall₂_map_right_iff, List.forall₂_same]
  intro dim hd
  have hplain := plainArray_plain hd (width_bytesIn hwidth hd)
  have hstores := hplain.stores (P := P)
  rw [values_plainArray hd (width_bytesIn hwidth hd)] at hstores
  exact ⟨rfl, List.length_map _, hstores⟩

/-- The dimensional patch with the values of points as they are. -/
def dimensionsOfRecords (s : PcSchema) (recs : List Bytes) : PcPatchDimensional where
  readonly := false
  schema := s
  npoints := recs.length
  bounds := ⟨0, 0, 0, 0⟩
  stats := none
  bytes := plainArrays s recs

theorem dimensionsOfRecords_holds {s : PcSchema} {recs : List Bytes}
    (h : ∀ r ∈ recs, r.length = s.size) (hlt : recs.length < 4294967296) :
    (dimensionsOfRecords s recs).Holds P recs :=
  ⟨hlt, rfl, h, plainArrays_holds h⟩

/-! ## Points from values -/

/-- The points whose values are given, dimension by dimension. -/
def pointsOf (npoints : Nat) (vss : List (List Bytes)) : List Bytes :=
  (List.range npoints).map fun i => (vss.map fun vs => vs.getD i []).flatten

@[simp] theorem length_pointsOf (npoints : Nat) (vss : List (List Bytes)) :
    (pointsOf npoints vss).length = npoints := by
  simp [pointsOf]

section PointsOf

variable {s : PcSchema} {npoints : Nat} {vss : List (List Bytes)}
  (h : List.Forall₂ (fun (dim : PcDimension) (vs : List Bytes) =>
    vs.length = npoints ∧ ∀ v ∈ vs, v.length = dim.size) s.dims vss)

include h

theorem lengths_row {i : Nat} (hi : i < npoints) :
    (vss.map fun vs => vs.getD i []).map List.length = s.dims.map PcDimension.size := by
  rw [List.map_map, eq_comm, ← List.forall₂_eq_eq_eq, List.forall₂_map_left_iff,
    List.forall₂_map_right_iff]
  refine h.imp ?_
  rintro dim vs ⟨hlen, hwidth⟩
  have hi' : i < vs.length := by rwa [hlen]
  rw [Function.comp_apply, List.getD_eq_getElem _ _ hi', hwidth _ (List.getElem_mem hi')]

theorem width_pointsOf : ∀ pt ∈ pointsOf npoints vss, pt.length = s.size := by
  intro pt hpt
  obtain ⟨i, hi, rfl⟩ := List.mem_map.mp hpt
  rw [List.length_flatten, lengths_row h (List.mem_range.mp hi), s.size_eq, sizeOfDims]

theorem map_bytesIn_pointsOf :
    s.dims.map (fun dim => (pointsOf npoints vss).map dim.bytesIn) = vss := by
  have hlen := h.length_eq
  apply List.ext_getElem (by rw [List.length_map, hlen])
  intro j h₁ h₂
  have hj : j < s.dims.length := by simpa using h₁
  have hvs := (List.forall₂_iff_get.mp h).2 j hj h₂
  simp only [List.get_eq_getElem] at hvs
  apply List.ext_getElem (by simp [hvs.1])
  intro i h₃ h₄
  have hi : i < npoints := by rwa [hvs.1] at h₄
  have hrow := s.bytesIn_flatten (lengths_row h hi)
  have hcell := congrArg (fun cs => cs[j]?) hrow
  simp only [List.getElem?_map, List.getElem?_eq_getElem hj, List.getElem?_eq_getElem h₂,
    Option.map_some, Option.some.injEq, List.getD_eq_getElem _ _ h₄] at hcell
  simp only [List.getElem_map, pointsOf, List.getElem_range, hcell]

end PointsOf

/-! ## From dimensions to records -/

/-- The uncompressed form of a patch whose arrays decode to the values of points
holds these points. -/
theorem DecodesTo.uncompressed_holds {d : PcPatchDimensional} {pts : List Bytes}
    (h : DecodesTo P d pts) (hfits : Fits d.schema d.npoints) :
    ∃ u, pcPatchUncompressedFromDimensional P d = .ok u ∧ u.Holds pts ∧ u.schema = d.schema ∧
      u.npoints = d.npoints ∧ u.datasize = u.npoints * u.schema.size ∧
      (1 ≤ d.npoints → u.data ≠ none) := by
  have hlen := h.npoints_eq
  have hrecords : recordsOf d.schema pts = pts :=
    Fits.recordsOf_eq (by rwa [hlen]) h.width_eq
  have hflat : pts.flatten.length = d.npoints * d.schema.size := by
    rw [length_flatten_of_width h.width_eq, hlen]
  have hrun := h.uncompressed hfits.npoints_lt
  have hlt := hfits.npoints_lt
  rw [hrecords] at hrun
  refine ⟨_, hrun, ⟨by simp only; omega, ?_, ?_⟩, rfl, rfl, Nat.mul_comm _ _, fun hpos => ?_⟩
  · rw [content_bufOf, hflat]
  · rw [content_bufOf, ← hlen]
    exact records_flatten h.width_eq
  · have hne : pts.flatten ≠ [] := by
      intro hnil
      have := Nat.mul_pos hpos d.schema.size_pos
      rw [hnil, List.length_nil] at hflat
      omega
    simp only [bufOf, if_neg hne]
    simp

/-- The uncompressed form of a dimensional patch holds its points. -/
theorem uncompressed_holds {d : PcPatchDimensional} {pts : List Bytes} (h : d.Holds P pts)
    (hfits : Fits d.schema d.npoints) :
    ∃ u, pcPatchUncompressedFromDimensional P d = .ok u ∧ u.Holds pts ∧ u.schema = d.schema ∧
      u.npoints = d.npoints ∧ u.datasize = u.npoints * u.schema.size ∧
      (1 ≤ d.npoints → u.data ≠ none) := h.decodesTo.uncompressed_holds hfits

/-- From `2 ^ 31` points on no value is copied into the records. -/
theorem intCount_of_le {n : Nat} (h : 2147483648 ≤ n) (hlt : n < 4294967296) : intCount n = 0 := by
  rw [intCount, Int.toNat_eq_zero]
  unfold int32
  omega

/-- Then the records stay as they were allocated. -/
theorem pcPatchUncompressedFromDimensional_unfilled {d : PcPatchDimensional} {pts : List Bytes}
    (h : d.Holds P pts) (hint : 2147483648 ≤ d.npoints)
    (hroom : d.schema.size * d.npoints < 9223372036854775808) :
    pcPatchUncompressedFromDimensional P d = .ok {
      readonly := false
      schema := d.schema
      npoints := d.npoints
      bounds := d.bounds
      stats := pcStatsClone d.stats
      maxpoints := d.npoints
      datasize := d.schema.size * d.npoints
      data := bufOf (zeros (d.schema.size * d.npoints)) } := by
  obtain ⟨bytes, hplain, -⟩ := pcPatchDimensionalDecompress_ok h
  unfold pcPatchUncompressedFromDimensional
  simp only
  rw [pcalloc_ok hroom, ok_bind, hplain, ok_bind, intCount_of_le hint h.npoints_lt]
  rfl

/-- The records of a dimensional patch are put together wherever they can be
allocated. -/
theorem pcPatchUncompressedFromDimensional_isOk_iff {d : PcPatchDimensional} {pts : List Bytes}
    (h : d.Holds P pts) :
    (∃ u, pcPatchUncompressedFromDimensional P d = .ok u) ↔
      d.schema.size * d.npoints < 9223372036854775808 := by
  have hlen := h.npoints_eq
  constructor
  · rintro ⟨u, hu⟩
    obtain ⟨data, hdata, -⟩ := bind_eq_ok.mp hu
    by_contra hlarge
    rw [pcalloc, if_neg hlarge] at hdata
    exact fault_ne_ok data hdata
  · intro hle
    by_cases hint : d.npoints < 2147483648
    · exact ⟨_, pcPatchUncompressedFromDimensional_ok h hint⟩
    · exact ⟨_, pcPatchUncompressedFromDimensional_unfilled h (Nat.not_lt.mp hint) hle⟩

end Pointcloud
