/-
Pointcloud.Patch.TransformTheorems — values converted to another schema, and
when that is the same as moving their bytes.

`pcPatchTransform` stores the value of a dimension anew. Where the dimensions
of one name agree in type, scale and offset, the number that is stored is the
one that was read, and its bytes are those that `pcPatchSetSchema` moves. The
two functions differ in what they do next: the extent of the converted patch
is searched point by point, which fails from `2 ^ 31 + 1` points on.
-/
import Pointcloud.Patch.SetSchemaTheorems
import Pointcloud.Patch.UnpackTheorems

namespace Pointcloud

open Pointcloud.Base

variable {P : Platform}

/-! ## Values converted to another schema -/

/-- The value that a converted point has in a dimension. -/
def convertedValue (en : Endian) (old : PcSchema) (dflt : ℚ) (pt : Bytes) (dim : PcDimension) : ℚ :=
  match likeOf old dim with
  | some odim => odim.valueIn en pt
  | none => dflt

/-- A point that is converted. -/
def converted (P : Platform) (old new : PcSchema) (dflt : ℚ) (pt : Bytes) : Bytes :=
  (storedPoint P new (convertedValue P.endian old dflt pt)).data

theorem length_converted (old new : PcSchema) (dflt : ℚ) (pt : Bytes) :
    (converted P old new dflt pt).length = new.size := (storedPoint P new _).length_eq

/-- What `pc_patch_transform` stores for a point. -/
theorem transformCopies_ok {old new : PcSchema} {data : Bytes} {src : Nat}
    (hend : src + old.size ≤ data.length) (dflt : ℚ) (dst : Nat) :
    transformCopies P (new.dims.zip (new.dims.map (likeOf old))) dst data src dflt =
      .ok (new.dims.map fun dim => (((dst + dim.byteoffset : Nat) : Int),
        dim.stored P (convertedValue P.endian old dflt ((data.drop src).take old.size) dim))) := by
  rw [transformCopies, zip_map_self, List.mapM_map]
  refine mapM_eq_ok_map fun dim hd => ?_
  have hstored := fun val => pcDoubleToPtr_stored (P := P) (new.dim_known hd) val
  simp only [Function.comp_apply, convertedValue]
  cases hlike : likeOf old dim with
  | some odim =>
      have hread : pcPointGetDoubleAt P.endian data src odim = .ok _ :=
        pcPointGetDoubleAt_ok (mem_of_likeOf hlike) hend
      simp only [hread, ok_bind, hstored, pure_eq_ok]
      rfl
  | none =>
      simp only [hstored, ok_bind, pure_eq_ok]
      rfl

section Transform

variable {pa : PcPatch} {u : PcPatchUncompressed} {pts : List Bytes}
  (hu : pcPatchUncompress P pa = .ok u) (h : u.Holds pts) {new : PcSchema}
  (hnamed : ∀ dim ∈ new.dims, dim.name ≠ none)

/-- The patch that `pc_patch_transform` makes, without its bounds and statistics. -/
structure Converted (P : Platform) (pa : PcPatch) (pts : List Bytes) (new : PcSchema) (dflt : ℚ)
    (q : PcPatchUncompressed) : Prop where
  schema_eq : q.schema = new
  npoints_eq : q.npoints = pa.npoints
  datasize_eq : q.datasize = new.size * pa.npoints
  holds : q.Holds (pts.map (converted P pa.schema new dflt))

include hu h hnamed

theorem pcPatchTransform_ok (hsrid : pa.schema.srid = new.srid) (hint : pa.npoints ≤ 2147483648)
    {xdim ydim : PcDimension} (hxdim : new.xdimension = some xdim)
    (hydim : new.ydimension = some ydim) (hx : xdim ∈ new.dims) (hy : ydim ∈ new.dims) (dflt : ℚ) :
    ∃ q, Converted P pa pts new dflt q ∧ pcPatchTransform P pa new dflt = .ok (some
      (q.summarized P xdim ydim (pts.map (converted P pa.schema new dflt)))) := by
  obtain ⟨hus, hun⟩ := schema_of_uncompress hu
  have hsize := new.size_lt
  have hroom : new.size * pa.npoints < 9223372036854775808 :=
    Nat.lt_of_le_of_lt (Nat.mul_le_mul_left new.size hint) (by omega)
  have hlikes : new.dims.mapM (pcSchemaGetDimensionLike pa.schema) =
      .ok (new.dims.map (likeOf pa.schema)) :=
    mapM_eq_ok_map fun dim hd => pcSchemaGetDimensionLike_ok (hnamed dim hd)
  obtain ⟨out, hout, houts, houtsize, -, houtdata⟩ := pcPatchUncompressedMake_ok hroom
  have hblock : out.data.content.length = u.npoints * new.size := by
    rw [houtdata, length_zeros, hun, Nat.mul_comm]
  obtain ⟨copies, hcopies, hwrite⟩ := fillRecords_ok h
    (fun pt dim => dim.stored P (convertedValue P.endian pa.schema dflt pt dim))
    (fun pt _ dim hd => new.length_stored hd _)
    (fun i => transformCopies P (new.dims.zip (new.dims.map (likeOf pa.schema))) (i * new.size)
      u.data.content (i * pa.schema.size) dflt)
    (fun i _ hend => by
      rw [hus] at hend ⊢
      exact transformCopies_ok hend dflt _) hblock
  rw [hun] at hcopies
  have hwidth : ∀ pt ∈ pts.map (converted P pa.schema new dflt), pt.length = new.size := by
    intro r hr
    obtain ⟨pt, -, rfl⟩ := List.mem_map.mp hr
    exact length_converted _ _ _ _
  have hcount : (pts.map (converted P pa.schema new dflt)).length = u.npoints := by
    rw [List.length_map, h.length_eq]
  generalize hq : ({ out with
    npoints := u.npoints
    data := bufOf (pts.map (converted P pa.schema new dflt)).flatten } : PcPatchUncompressed) = q
  have hqs : q.schema = new := by rw [← hq, houts]
  have hqn : q.npoints = u.npoints := by rw [← hq]
  have hholds : q.Holds (pts.map (converted P pa.schema new dflt)) := by
    refine ⟨by rw [hqn]; exact h.npoints_lt, ?_, ?_⟩
    · rw [hqs, hqn, ← hq, content_bufOf, length_flatten_of_width hwidth, hcount]
    · rw [hqs, hqn, ← hq, content_bufOf, ← hcount]
      exact records_flatten hwidth
  have hsummary := computeExtent_computeStats_ok P hholds (by rw [hqn, hun]; exact hint)
    (hqs ▸ hxdim) (hqs ▸ hydim) (hqs ▸ hx) (hqs ▸ hy)
  refine ⟨q, ⟨hqs, hqn.trans hun, by rw [← hq]; exact houtsize, hholds⟩, ?_⟩
  obtain ⟨r, hextent, hstats⟩ := bind_eq_ok.mp hsummary
  unfold pcPatchTransform
  simp only [hsrid, ne_eq, not_true_eq_false, if_false, hlikes, ok_bind, hu, hout, hcopies]
  rw [show writeAll out.data.content copies.flatten =
    .ok (pts.map (converted P pa.schema new dflt)).flatten from hwrite, ok_bind, hq, hextent,
    ok_bind, hstats, ok_bind, pure_eq_ok]

end Transform

/-- The extent of the converted points is searched with an `int`. -/
theorem npoints_le_of_transform {pa : PcPatch} {new : PcSchema} (hnew : new.Valid) {dflt : ℚ}
    {b : PcPatchUncompressed} (h : pcPatchTransform P pa new dflt = .ok (some b)) :
    pa.npoints ≤ 2147483648 := by
  unfold pcPatchTransform at h
  split at h
  · exact nomatch h
  · obtain ⟨odims, -, h⟩ := bind_eq_ok.mp h
    obtain ⟨u, hu, h⟩ := bind_eq_ok.mp h
    obtain ⟨q, hq, h⟩ := bind_eq_ok.mp h
    obtain ⟨copies, -, h⟩ := bind_eq_ok.mp h
    obtain ⟨data, hwrite, h⟩ := bind_eq_ok.mp h
    obtain ⟨r, hextent, h⟩ := bind_eq_ok.mp h
    obtain ⟨hs, -, -, -, hlen⟩ := pcPatchUncompressedMake_fields hq
    have hn := (schema_of_uncompress hu).2
    have hiff := pcPatchUncompressedComputeExtent_isOk_iff P.endian
      (p := { q with npoints := u.npoints, data := bufOf data }) (hs ▸ hnew)
      (by rw [content_bufOf, length_of_writeAll hwrite, hlen, hs, hn, Nat.mul_comm])
    rw [← hn]
    exact hiff.mp ⟨r, hextent⟩

/-- One reference system, named dimensions and records that could be uncompressed;
where there are points, an x and a y. -/
theorem pcPatchTransform_passed {pa : PcPatch} {new : PcSchema} {dflt : ℚ}
    {b : PcPatchUncompressed} (h : pcPatchTransform P pa new dflt = .ok (some b)) :
    pa.schema.srid = new.srid ∧ (∀ dim ∈ new.dims, dim.name ≠ none) ∧
      (∃ u, pcPatchUncompress P pa = .ok u) ∧ (1 ≤ pa.npoints → new.Valid) := by
  unfold pcPatchTransform at h
  split at h
  · exact nomatch h
  · next hsrid =>
      obtain ⟨odims, hodims, h⟩ := bind_eq_ok.mp h
      obtain ⟨u, hu, h⟩ := bind_eq_ok.mp h
      obtain ⟨q, hq, h⟩ := bind_eq_ok.mp h
      obtain ⟨copies, -, h⟩ := bind_eq_ok.mp h
      obtain ⟨data, -, h⟩ := bind_eq_ok.mp h
      obtain ⟨r, hextent, h⟩ := bind_eq_ok.mp h
      have hs := (pcPatchUncompressedMake_fields hq).1
      have hn := (schema_of_uncompress hu).2
      refine ⟨not_ne_iff.mp hsrid, fun dim hd hnone => ?_, ⟨u, hu⟩, fun hpos => ?_⟩
      · obtain ⟨odim, -, hodim⟩ := exists_mem_of_mapM hodims dim hd
        rw [pcSchemaGetDimensionLike, hnone] at hodim
        exact absurd hodim (fault_ne_ok odim)
      · rw [← hn] at hpos
        have hvalid := valid_of_computeExtent
          (p := { q with npoints := u.npoints, data := bufOf data }) hpos hextent
        exact hs ▸ hvalid

/-! ## Bytes that are moved and values that are converted -/

/-- Every value of the points is that of a rational. -/
def RationalPoints (en : Endian) (s : PcSchema) (pts : List Bytes) : Prop :=
  ∀ pt ∈ pts, ∀ dim ∈ s.dims, dim.interpretation.IsRational en (dim.bytesIn pt)

/-- A value that was read and is stored again has the bytes that are moved. -/
theorem stored_convertedValue {old new : PcSchema} (hsame : SameInterpretations old new)
    {dim : PcDimension} (hd : dim ∈ new.dims) (hscale : dim.scale ≠ 0)
    (huint64 : dim.interpretation ≠ .uint64) {pt : Bytes} (hpt : pt.length = old.size)
    (hrational : ∀ d ∈ old.dims, d.interpretation.IsRational P.endian (d.bytesIn pt)) (dflt : ℚ) :
    dim.stored P (convertedValue P.endian old dflt pt dim) = movedCell P old dflt pt dim := by
  unfold convertedValue movedCell
  cases hlike : likeOf old dim with
  | none => rfl
  | some odim =>
      obtain ⟨hinterp, hsc, hoff⟩ := hsame.alike dim hd odim hlike
      have hodim := mem_of_likeOf hlike
      have hvalue : odim.valueIn P.endian pt = pcValueScaleOffset (odim.rawIn P.endian pt) dim := by
        rw [PcDimension.valueIn, pcValueScaleOffset_eq, pcValueScaleOffset_eq, hsc, hoff]
      have hlen : (odim.bytesIn pt).length = dim.interpretation.size := by
        rw [old.length_bytesIn hodim hpt, old.dim_size hodim, hinterp]
      have hfinite := hrational odim hodim
      rw [hinterp] at hfinite
      simp only
      rw [hvalue, PcDimension.stored, pcValueUnscaleUnoffset_scaleOffset hscale, PcDimension.rawIn,
        hinterp]
      exact Interpretation.stored_number (new.dim_known hd) huint64 hlen hfinite

/-- The records of a patch can be put together up to `2 ^ 31` points. Whatever
goes wrong with their offsets, they are made of values of the points. -/
theorem uncompress_rational {pa : PcPatch} {pts : List Bytes} (h : pa.Holds P pts)
    (hint : pa.npoints ≤ 2147483648) (hrational : RationalPoints P.endian pa.schema pts) :
    ∃ u us, pcPatchUncompress P pa = .ok u ∧ u.Holds us ∧
      RationalPoints P.endian pa.schema us := by
  obtain ⟨u, hu⟩ := h.unpacks (PcPatch.allocatable_of_le hint)
  refine ⟨u, _, hu.uncompress_ok, hu.holds, fun r hr dim hd => ?_⟩
  rcases bytesIn_unpacked h hr hd with ⟨pt, hpt, heq⟩ | hzero
  · rw [heq]
    exact hrational pt hpt dim hd
  · rw [hzero, pa.schema.dim_size hd]
    exact isRational_zeros P.endian dim.interpretation

/-- Both functions give patches with the same number of points and the same bytes
in all dimensions but those of the unsigned type of 64 bits. -/
def SameBytes (P : Platform) (pa : PcPatch) (new : PcSchema) (dflt : ℚ) : Prop :=
  ∃ a b, pcPatchSetSchema P pa new dflt = .ok a ∧ pcPatchTransform P pa new dflt = .ok (some b) ∧
    a.npoints = b.npoints ∧ ∃ ms cs, a.Holds ms ∧ b.Holds cs ∧
      ∀ dim ∈ new.dims, dim.interpretation ≠ .uint64 → ms.map dim.bytesIn = cs.map dim.bytesIn

/-- Without reinterpretation, moving the bytes and converting the values are the
same, as far as the converted patch gets its extent. -/
theorem pcPatchSetSchema_transform_iff {pa : PcPatch} {pts : List Bytes} (h : pa.Holds P pts)
    {new : PcSchema} (hold : pa.schema.Valid) (hnew : new.Valid)
    (hover : ∀ st, pa.stats = some st → StatsOver pa.schema st)
    (hsame : pcSchemaSameInterpretations pa.schema new = .ok true)
    (hscale : ∀ dim ∈ new.dims, dim.scale ≠ 0)
    (hrational : RationalPoints P.endian pa.schema pts) (dflt : ℚ) :
    SameBytes P pa new dflt ↔ pa.npoints ≤ 2147483648 := by
  constructor
  · rintro ⟨a, b, -, hb, -⟩
    exact npoints_le_of_transform hnew hb
  · intro hint
    have hs := sameInterpretations_of_true hsame
    obtain ⟨u, us, hu, hus, hurational⟩ := uncompress_rational h hint hrational
    obtain ⟨huschema, -⟩ := schema_of_uncompress hu
    have hwidth : ∀ pt ∈ us, pt.length = pa.schema.size := huschema ▸ hus.width_eq
    obtain ⟨xdim, hx, hxdim⟩ := hnew.xdimension
    obtain ⟨ydim, hy, hydim⟩ := hnew.ydimension
    have hsize := new.size_lt
    have hroom : new.size * pa.npoints < 9223372036854775808 :=
      Nat.lt_of_le_of_lt (Nat.mul_le_mul_left new.size hint) (by omega)
    obtain ⟨a, ha, hmoved⟩ := pcPatchSetSchema_ok hu hus hroom hold hnew hs.matches hover dflt
    obtain ⟨b, hconverted, hb⟩ :=
      pcPatchTransform_ok hu hus hs.named hs.srid_eq hint hxdim hydim hx hy dflt
    refine ⟨a, _, ha, hb, hmoved.npoints_eq.trans hconverted.npoints_eq.symm, _, _, hmoved.holds,
      ⟨hconverted.holds.npoints_lt, hconverted.holds.room, hconverted.holds.records_eq⟩,
      fun dim hd huint64 => ?_⟩
    rw [List.map_map, List.map_map]
    refine List.map_congr_left fun pt hpt => ?_
    have hcell := stored_convertedValue hs hd (hscale dim hd) huint64 (hwidth pt hpt)
      (hurational pt hpt) dflt
    rw [Function.comp_apply, Function.comp_apply, bytesIn_moved hs.matches dflt (hwidth pt hpt) hd,
      ← hcell, ← bytesIn_storedPoint new _ hd]
    rfl

/-- Points of two bytes, in hundredths. -/
def centSchema (compression : PcCompression) : PcSchema :=
  xySchema .uint8 .uint8 uint8_known uint8_known (1 / 100) compression

theorem centSchema_valid (c : PcCompression) : (centSchema c).Valid := ⟨rfl, rfl⟩

theorem mem_centSchema {c : PcCompression} {dim : PcDimension} (hd : dim ∈ (centSchema c).dims) :
    dim.interpretation = .uint8 ∧ dim.scale ≠ 0 := by
  have hscale : (1 / 100 : ℚ) ≠ 0 := by norm_num
  rcases List.mem_cons.mp hd with rfl | hd
  · exact ⟨rfl, hscale⟩
  · rw [List.mem_singleton.mp hd]
    exact ⟨rfl, hscale⟩

theorem centSchema_rational (en : Endian) (c : PcCompression) (pts : List Bytes) :
    RationalPoints en (centSchema c) pts := by
  intro pt _ dim hd
  rw [(mem_centSchema hd).1]
  trivial

theorem centSchema_same :
    pcSchemaSameInterpretations (centSchema .none) (centSchema .dimensional) = .ok true := by
  decide +kernel

theorem three_lt_pcids : 3 < 4294967296 := by decide

/-- A z in front of the coordinates, which are turned around and have another type and
scale. -/
def turnedSchema (i : Interpretation) (hi : i ≠ .unknown) (scale : ℚ) : PcSchema where
  pcid := 3
  srid := 0
  dims := [⟨some "Z", 0, 2, 0, .uint16, 1, 0⟩, ⟨some "Y", 1, i.size, 2, i, scale, 0⟩,
    ⟨some "X", 2, i.size, 2 + i.size, i, scale, 0⟩]
  size := 2 + i.size + i.size
  xdim := some 2
  ydim := some 1
  compression := .none
  namehash := [("Z", 0), ("Y", 1), ("X", 2)]
  pcid_lt := three_lt_pcids
  size_lt := by
    have := Interpretation.size_le hi
    omega
  dims_ne := by simp
  known := by simp [hi, Interpretation.size]
  position_eq := fun k h => by
    match k, h with
    | 0, _ => rfl
    | 1, _ => rfl
    | 2, _ => rfl
  byteoffset_eq := fun k h => by
    match k, h with
    | 0, _ => rfl
    | 1, _ => simp [sizeOfDims]
    | 2, _ => simp [sizeOfDims]
  size_eq := by simp [sizeOfDims, Nat.add_assoc]
  xdim_lt := by simp
  ydim_lt := by simp
  namehash_lt := by simp

section Turned

variable {i : Interpretation} (hi : i ≠ .unknown) {scale : ℚ}

theorem turnedSchema_valid : (turnedSchema i hi scale).Valid := ⟨rfl, rfl⟩

theorem mem_turnedSchema (hscale : scale ≠ 0) {dim : PcDimension}
    (hd : dim ∈ (turnedSchema i hi scale).dims) :
    (dim.interpretation = .uint16 ∨ dim.interpretation = i) ∧ dim.scale ≠ 0 ∧ dim.name ≠ none := by
  simp only [turnedSchema, List.mem_cons, List.not_mem_nil, or_false] at hd
  rcases hd with rfl | rfl | rfl <;> simp [hscale]

end Turned

/-- Two points, to a schema with a z whose coordinates are turned around. -/
theorem pcPatchSetSchema_transform_iff_witness :
    SameBytes Platform.plain (.uncompressed (patchOfRecords (centSchema .none) [[1, 2], [3, 4]]))
      (turnedSchema .uint8 uint8_known (1 / 100)) 300 := by
  have hholds : PcPatch.Holds Platform.plain
      (.uncompressed (patchOfRecords (centSchema .none) [[1, 2], [3, 4]])) [[1, 2], [3, 4]] :=
    patchOfRecords_holds (by decide) (by decide)
  have hint : 2 ≤ 2147483648 := by decide
  have hover : ∀ st, none = some st → StatsOver (centSchema .none) st :=
    fun st hst => absurd hst (by simp)
  have hsame : pcSchemaSameInterpretations (centSchema .none)
      (turnedSchema .uint8 uint8_known (1 / 100)) = .ok true := by decide +kernel
  exact (pcPatchSetSchema_transform_iff hholds (centSchema_valid _) (turnedSchema_valid _) hover
    hsame (fun dim hd => (mem_turnedSchema _ (by norm_num) hd).2.1)
    (centSchema_rational _ _ _) 300).mpr hint

/-- The extent of more than `2 ^ 31` converted points is not found. -/
theorem pcPatchTransform_not_some {s new : PcSchema} (hnew : new.Valid) {recs : List Bytes}
    (hlen : 2147483648 < recs.length) (dflt : ℚ) (b : PcPatchUncompressed) :
    pcPatchTransform P (.uncompressed (patchOfRecords s recs)) new dflt ≠ .ok (some b) := by
  intro hb
  have hle : recs.length ≤ 2147483648 := npoints_le_of_transform hnew hb
  omega

/-- One point more than an `int` counts. -/
theorem manyRecords_hold {recs : List Bytes} (h : recs = List.replicate 2147483649 (zeros 2)) :
    recs.length = 2147483649 ∧
      PcPatch.Holds P (.uncompressed (patchOfRecords (centSchema .none) recs)) recs := by
  have hlen : recs.length = 2147483649 := by rw [h, List.length_replicate]
  have hwidth : ∀ r ∈ recs, r.length = (centSchema .none).size := by
    intro r hr
    rw [h] at hr
    rw [List.eq_of_mem_replicate hr, length_zeros]
    rfl
  exact ⟨hlen, patchOfRecords_holds hwidth (by omega)⟩

theorem pcPatchTransform_fails :
    ∃ recs : List Bytes, recs = List.replicate 2147483649 (zeros 2) ∧
      PcPatch.Holds Platform.plain (.uncompressed (patchOfRecords (centSchema .none) recs)) recs ∧
      RationalPoints .little (centSchema .none) recs ∧
      pcSchemaSameInterpretations (centSchema .none) (centSchema .dimensional) = .ok true ∧
      (∀ dim ∈ (centSchema .dimensional).dims, dim.scale ≠ 0) ∧
      ¬ SameBytes Platform.plain (.uncompressed (patchOfRecords (centSchema .none) recs))
        (centSchema .dimensional) 0 := by
  obtain ⟨recs, hrecs⟩ : ∃ recs, recs = List.replicate 2147483649 (zeros 2) := ⟨_, rfl⟩
  obtain ⟨hlen, hholds⟩ := manyRecords_hold (P := Platform.plain) hrecs
  refine ⟨recs, hrecs, hholds, centSchema_rational _ _ _, centSchema_same,
    fun dim hd => (mem_centSchema hd).2, ?_⟩
  rintro ⟨a, b, -, hb, -⟩
  exact pcPatchTransform_not_some (centSchema_valid _) (by omega) 0 b hb

end Pointcloud
