/-
Pointcloud.Pgsql.EnvelopeTheorems — what the polygon around a patch encloses.

The polygon has the corners of the bounds, so it covers the points of a patch whose
bounds are exact. The bounds that are made slightly bigger are not those that are
written: `pcPatchToGeometryWkbEnvelope_iff` says that the polygon has an area exactly
if the points differ in x and differ in y.
-/
import Pointcloud.Patch.BuildTheorems
import Pointcloud.Pgsql.Envelope
import Pointcloud.Pgsql.SerializeTheorems

namespace Pointcloud

open Pointcloud.Base

/-! ## Writing the polygon -/

/-- The corners of a box, and the first one again. -/
def boxRing (b : PcBounds) : List (ℚ × ℚ) :=
  [(b.xmin, b.ymin), (b.xmin, b.ymax), (b.xmax, b.ymax), (b.xmax, b.ymin), (b.xmin, b.ymin)]

/-- The identifier of a schema that has one. -/
def PcSchema.sridIfAny (s : PcSchema) : Option Nat := if 0 < s.srid then some s.srid else none

/-- The polygon of a box. -/
def boxPolygon (s : PcSchema) (b : PcBounds) : Polygon := ⟨s.sridIfAny, [boxRing b]⟩

theorem machineEndian_eq (en : Endian) : machineEndian en = endianFlag en := by
  cases en <;> rfl

/-- Fields written one after the other fill a block of their size. -/
theorem foldlM_pcPatchWkbSet : ∀ (srcs : List Bytes) (front block : Bytes),
    srcs.flatten.length ≤ block.length →
    srcs.foldlM pcPatchWkbSet (front ++ block, front.length) =
      .ok (front ++ srcs.flatten ++ block.drop srcs.flatten.length,
        front.length + srcs.flatten.length)
  | [], front, block, _ => by simp
  | src :: srcs, front, block, h => by
      rw [List.flatten_cons, List.length_append] at h
      have hset : pcPatchWkbSet (front ++ block, front.length) src =
          .ok ((front ++ src) ++ block.drop src.length, (front ++ src).length) := by
        rw [pcPatchWkbSet, writeAt_append rfl (by omega), ok_bind, List.length_append, pure_eq_ok]
      have hrest := foldlM_pcPatchWkbSet srcs (front ++ src) (block.drop src.length)
        (by rw [List.length_drop]; omega)
      rw [List.foldlM_cons, hset, ok_bind, hrest]
      simp [Nat.add_assoc]

/-- The fields of the polygon, in the order in which they are written. -/
def envelopeFields (en : Endian) (s : PcSchema) (b : PcBounds) : List Bytes :=
  [[endianFlag en], en.bytesOf 4 (polygonType s.sridIfAny)] ++
    (if 0 < s.srid then [en.bytesOf 4 s.srid] else []) ++
    [en.bytesOf 4 1, en.bytesOf 4 5] ++
    (boxRing b).flatMap fun p =>
      [en.bytesOf 8 (ieeeEncode 11 52 p.1), en.bytesOf 8 (ieeeEncode 11 52 p.2)]

theorem flatten_envelopeFields (en : Endian) (s : PcSchema) (b : PcBounds) :
    (envelopeFields en s b).flatten = encodePolygon en (boxPolygon s b) := by
  by_cases hsrid : 0 < s.srid <;>
    simp [envelopeFields, encodePolygon, boxPolygon, boxRing, encodeRing, encodePoint, encodeSrid,
      PcSchema.sridIfAny, hsrid]

theorem length_encodePolygon_box (en : Endian) (s : PcSchema) (b : PcBounds) :
    (encodePolygon en (boxPolygon s b)).length = if 0 < s.srid then 97 else 93 := by
  by_cases hsrid : 0 < s.srid <;>
    simp [encodePolygon, boxPolygon, boxRing, encodeRing, encodePoint, encodeSrid,
      PcSchema.sridIfAny, hsrid]

/-- A loop over a list that is known, and what follows it. -/
theorem foldlM_cons_bind {α β γ : Type} (step : β → α → Run β) (x : α) (xs : List α) (start : β)
    (next : β → Run γ) : ((x :: xs).foldlM step start >>= next) =
      step start x >>= fun b => xs.foldlM step b >>= next := by
  rw [List.foldlM_cons, bind_assoc]

theorem foldlM_nil_bind {α β γ : Type} (step : β → α → Run β) (start : β) (next : β → Run γ) :
    (([] : List α).foldlM step start >>= next) = next start := by
  rw [List.foldlM_nil, pure_bind]

/-- The function writes the fields one after the other. -/
theorem pcPatchToGeometryWkbEnvelope_eq (P : Platform) (garbage : Bytes) (pa : SerializedPatch)
    (s : PcSchema) : pcPatchToGeometryWkbEnvelope P garbage pa s = do
      let size := if 0 < s.srid then 97 else 93
      let ptr ← (envelopeFields P.endian s pa.bounds).foldlM pcPatchWkbSet (garbage.takeD size 0, 0)
      return (ptr.1, size) := by
  have hgrant : ∀ size ≤ 97, palloc P size = .ok () := fun size hle => palloc_ok (by omega)
  unfold pcPatchToGeometryWkbEnvelope
  by_cases hsrid : 0 < s.srid
  · simp only [hsrid, decide_true, if_true, Nat.reduceAdd, Nat.reduceMul, Nat.reduceOr]
    rw [hgrant 97 (Nat.le_refl _), ok_bind]
    simp only [machineEndian_eq, pcPatchWkbSetChar, pcPatchWkbSetInt32, pcPatchWkbSetDouble,
      envelopeFields, boxRing, PcSchema.sridIfAny, polygonType, hsrid, if_true, List.flatMap_cons,
      List.flatMap_nil, List.cons_append, List.nil_append, foldlM_cons_bind, foldlM_nil_bind]
  · simp only [hsrid, decide_false, if_false, Bool.false_eq_true, Nat.reduceAdd, Nat.reduceMul]
    rw [hgrant 93 (by decide), ok_bind]
    simp only [machineEndian_eq, pcPatchWkbSetChar, pcPatchWkbSetInt32, pcPatchWkbSetDouble,
      envelopeFields, boxRing, PcSchema.sridIfAny, polygonType, hsrid, if_false, List.flatMap_cons,
      List.flatMap_nil, List.cons_append, List.nil_append, foldlM_cons_bind,
        foldlM_nil_bind, ok_bind]

/-- The polygon is that of the bounds, and the block has its size. -/
theorem pcPatchToGeometryWkbEnvelope_ok (P : Platform) (garbage : Bytes) (pa : SerializedPatch)
    (s : PcSchema) : pcPatchToGeometryWkbEnvelope P garbage pa s =
      .ok (encodePolygon P.endian (boxPolygon s pa.bounds),
        (encodePolygon P.endian (boxPolygon s pa.bounds)).length) := by
  have hlen := length_encodePolygon_box P.endian s pa.bounds
  have hfields := foldlM_pcPatchWkbSet (envelopeFields P.endian s pa.bounds) []
    (garbage.takeD (if 0 < s.srid then 97 else 93) 0)
    (by rw [flatten_envelopeFields, hlen, List.takeD_length])
  rw [flatten_envelopeFields, hlen, List.drop_eq_nil_of_le (by rw [List.takeD_length])] at hfields
  simp only [List.nil_append, List.append_nil, List.length_nil, Nat.zero_add] at hfields
  simp only [pcPatchToGeometryWkbEnvelope_eq, hfields, ok_bind, pure_eq_ok, hlen]

theorem pcpatchEnvelopeAsBytea_ok (P : Platform) (garbage : Bytes) (pa : SerializedPatch)
    (s : PcSchema) : pcpatchEnvelopeAsBytea P garbage pa s =
      .ok (encodePolygon P.endian (boxPolygon s pa.bounds)) := by
  generalize hwkb : encodePolygon P.endian (boxPolygon s pa.bounds) = wkb
  have hread : readAt wkb (0 : Nat) wkb.length = .ok ((wkb.drop 0).take wkb.length) :=
    readAt_ok (Nat.le_of_eq (Nat.zero_add _))
  rw [List.drop_zero, List.take_length] at hread
  rw [pcpatchEnvelopeAsBytea, pcPatchToGeometryWkbEnvelope_ok, ok_bind, hwkb]
  exact hread

/-! ## What the polygon encloses -/

theorem IsDouble.hasWord {x : ℚ} (h : IsDouble x) : HasWord x := by
  obtain ⟨w, hw, rfl⟩ := h
  rw [HasWord, ieeeEncode_ieeeDecode (by decide) hw]
  exact ⟨hw.1, rfl⟩

/-- The bounds are finite doubles. -/
structure PcBounds.Finite (b : PcBounds) : Prop where
  xmin : IsDouble b.xmin
  xmax : IsDouble b.xmax
  ymin : IsDouble b.ymin
  ymax : IsDouble b.ymax

/-- A place inside bounds. -/
def PcBounds.Contains (b : PcBounds) (x y : ℚ) : Prop :=
  (b.xmin ≤ x ∧ x ≤ b.xmax) ∧ b.ymin ≤ y ∧ y ≤ b.ymax

/-- The polygon of a block is one closed ring of five points, with the identifier of the
schema; it is a box that contains the points and has an area. -/
structure EnclosesPoints (en : Endian) (s : PcSchema) (pts : List Bytes) (wkb : Bytes × Nat) :
    Prop where
  length_eq : wkb.1.length = wkb.2
  box : ∃ ring b, decodePolygon wkb.1 = some (⟨s.sridIfAny, [ring]⟩, []) ∧ ring.length = 5 ∧
    IsClosed ring ∧ ring = boxRing b ∧ 0 < ringArea ring ∧
    ∀ xdim ydim, s.xdimension = some xdim → s.ydimension = some ydim → ∀ pt ∈ pts,
      b.Contains (xdim.valueIn en pt) (ydim.valueIn en pt)

theorem ringArea_boxRing (b : PcBounds) :
    ringArea (boxRing b) = |(b.xmax - b.xmin) * (b.ymax - b.ymin)| := by
  have hsigned : signedArea (boxRing b) = -(2 * ((b.xmax - b.xmin) * (b.ymax - b.ymin))) := by
    simp only [boxRing, signedArea]
    ring
  rw [ringArea, hsigned, abs_neg, abs_mul, abs_two, mul_div_assoc, mul_comm, div_mul_cancel₀]
  exact two_ne_zero

/-- A box has an area exactly if it is wide and high. -/
theorem ringArea_boxRing_pos_iff (b : PcBounds) :
    0 < ringArea (boxRing b) ↔ b.xmin ≠ b.xmax ∧ b.ymin ≠ b.ymax := by
  rw [ringArea_boxRing, abs_pos, mul_ne_zero_iff, sub_ne_zero, sub_ne_zero]
  exact and_congr ne_comm ne_comm

theorem encodable_boxPolygon {s : PcSchema} (hsrid : s.srid < 4294967296) {b : PcBounds}
    (h : b.Finite) : EncodablePolygon (boxPolygon s b) := by
  refine ⟨fun n hn => ?_, by simp [boxPolygon], by simp [boxPolygon, boxRing], ?_⟩
  · simp only [boxPolygon, PcSchema.sridIfAny, Option.mem_def] at hn
    split at hn
    · cases hn
      exact hsrid
    · exact nomatch hn
  · simp only [boxPolygon, boxRing, List.forall_mem_singleton, List.forall_mem_cons]
    have hxmin := h.xmin.hasWord
    have hxmax := h.xmax.hasWord
    have hymin := h.ymin.hasWord
    have hymax := h.ymax.hasWord
    simp [hxmin, hxmax, hymin, hymax]

/-- Not all values are the same. -/
def Differ (vs : List ℚ) : Prop := ∃ v ∈ vs, ∃ w ∈ vs, v ≠ w

theorem differ_iff {vs : List ℚ} {lo hi : ℚ} (hlo : LeastOf vs lo) (hhi : GreatestOf vs hi) :
    Differ vs ↔ lo ≠ hi := by
  constructor
  · rintro ⟨v, hv, w, hw, hne⟩ rfl
    exact hne ((hlo.2 v hv).antisymm' (hhi.2 v hv) |>.trans
      ((hlo.2 w hw).antisymm (hhi.2 w hw)))
  · exact fun hne => ⟨lo, hlo.1, hi, hhi.1, hne⟩

section Envelope

variable {P : Platform} {s : PcSchema} {pts : List Bytes} {pa : SerializedPatch}
  (hfinite : pa.bounds.Finite) (hsrid : s.srid < 4294967296)

include hfinite hsrid

/-- The polygon that is read again is that of the bounds. -/
theorem decodePolygon_envelope :
    decodePolygon (encodePolygon P.endian (boxPolygon s pa.bounds)) =
      some (boxPolygon s pa.bounds, []) := by
  have hdecode : decodePolygon (encodePolygon P.endian (boxPolygon s pa.bounds) ++ []) = _ :=
    decodePolygon_encodePolygon (encodable_boxPolygon hsrid hfinite) []
  rwa [List.append_nil] at hdecode

theorem ringArea_pos_of_enclosesPoints {garbage : Bytes} {wkb : Bytes × Nat}
    (hrun : pcPatchToGeometryWkbEnvelope P garbage pa s = .ok wkb)
    (h : EnclosesPoints P.endian s pts wkb) : 0 < ringArea (boxRing pa.bounds) := by
  obtain ⟨ring, b, hread, -, -, -, hpos, -⟩ := h.box
  rw [pcPatchToGeometryWkbEnvelope_ok] at hrun
  cases hrun
  rw [decodePolygon_envelope hfinite hsrid, boxPolygon] at hread
  cases hread
  exact hpos

/-- The polygon encloses the points exactly if they differ in x and differ in y. -/
theorem pcPatchToGeometryWkbEnvelope_iff (hexact : ExactBounds P.endian s pts pa.bounds)
    (garbage : Bytes) {xdim ydim : PcDimension}
    (hxdim : s.xdimension = some xdim) (hydim : s.ydimension = some ydim) :
    (∃ wkb, pcPatchToGeometryWkbEnvelope P garbage pa s = .ok wkb ∧
      EnclosesPoints P.endian s pts wkb) ↔
      Differ (xdim.column P.endian pts) ∧ Differ (ydim.column P.endian pts) := by
  obtain ⟨hxmin, hxmax⟩ := hexact.1 xdim hxdim
  obtain ⟨hymin, hymax⟩ := hexact.2 ydim hydim
  rw [differ_iff hxmin hxmax, differ_iff hymin hymax, ← ringArea_boxRing_pos_iff]
  constructor
  · rintro ⟨wkb, hrun, hencloses⟩
    exact ringArea_pos_of_enclosesPoints hfinite hsrid hrun hencloses
  · intro hpos
    refine ⟨_, pcPatchToGeometryWkbEnvelope_ok P garbage pa s, rfl, boxRing pa.bounds, pa.bounds,
      decodePolygon_envelope hfinite hsrid, rfl, ⟨by simp [boxRing], rfl⟩, rfl, hpos,
      fun xdim' ydim' hx hy pt hpt => ?_⟩
    cases hxdim.symm.trans hx
    cases hydim.symm.trans hy
    have hxin : xdim.valueIn P.endian pt ∈ xdim.column P.endian pts := List.mem_map_of_mem hpt
    have hyin : ydim.valueIn P.endian pt ∈ ydim.column P.endian pts := List.mem_map_of_mem hpt
    exact ⟨⟨hxmin.2 _ hxin, hxmax.2 _ hxin⟩, hymin.2 _ hyin, hymax.2 _ hyin⟩

end Envelope

/-- Pairs of bytes in a reference system. -/
def placedSchema : PcSchema :=
  { xySchema .uint8 .uint8 uint8_known uint8_known 1 .none with srid := 4326 }

/-- A patch of points with their bounds, as it is stored. -/
def storedPatch (pts : List Bytes) (b : PcBounds) : SerializedPatch :=
  serialized .little (.uncompressed { patchOfRecords placedSchema pts with bounds := b })
    (statsOf Platform.plain placedSchema pts)

theorem isDouble_of_lt_eight {n : Nat} (h : n < 8) : IsDouble n := by
  have hwords : ∀ k : Nat, k < 8 → FiniteWord 11 52 (ieeeEncode 11 52 (k : ℚ)) ∧
      ieeeDecode 11 52 (ieeeEncode 11 52 (k : ℚ)) = k := by
    unfold FiniteWord
    decide +kernel
  exact ⟨_, hwords n h⟩

/-- The bounds of points are known from their columns. -/
theorem exactBounds_placed {pts : List Bytes} {xs ys : List ℚ} {b : PcBounds}
    (hx : PcDimension.column .little ⟨some "X", 0, 1, 0, .uint8, 1, 0⟩ pts = xs)
    (hy : PcDimension.column .little ⟨some "Y", 1, 1, 1, .uint8, 1, 0⟩ pts = ys)
    (hxs : LeastOf xs b.xmin ∧ GreatestOf xs b.xmax)
    (hys : LeastOf ys b.ymin ∧ GreatestOf ys b.ymax) : ExactBounds .little placedSchema pts b := by
  refine ⟨fun dim hdim => ?_, fun dim hdim => ?_⟩
  · cases hdim
    exact hx ▸ hxs
  · cases hdim
    exact hy ▸ hys

theorem finite_of_lt_eight {a b c d : Nat} (ha : a < 8) (hb : b < 8) (hc : c < 8) (hd : d < 8) :
    PcBounds.Finite ⟨a, b, c, d⟩ :=
  ⟨isDouble_of_lt_eight ha, isDouble_of_lt_eight hb, isDouble_of_lt_eight hc,
    isDouble_of_lt_eight hd⟩

/-- Two points with different x and different y. -/
theorem pcPatchToGeometryWkbEnvelope_iff_witness : ∃ wkb,
    pcPatchToGeometryWkbEnvelope Platform.plain []
      (storedPatch [[1, 5], [2, 3]] ⟨1, 2, 3, 5⟩) placedSchema = .ok wkb ∧
    EnclosesPoints .little placedSchema [[1, 5], [2, 3]] wkb := by
  have hx : PcDimension.column .little ⟨some "X", 0, 1, 0, .uint8, 1, 0⟩ [[1, 5], [2, 3]] =
      [1, 2] := by decide +kernel
  have hy : PcDimension.column .little ⟨some "Y", 1, 1, 1, .uint8, 1, 0⟩ [[1, 5], [2, 3]] =
      [5, 3] := by decide +kernel
  have hexact : ExactBounds .little placedSchema [[1, 5], [2, 3]] ⟨1, 2, 3, 5⟩ :=
    exactBounds_placed hx hy (by simp [LeastOf, GreatestOf])
      (by simp [LeastOf, GreatestOf]; norm_num)
  have hfinite : PcBounds.Finite ⟨1, 2, 3, 5⟩ := by
    exact_mod_cast finite_of_lt_eight (a := 1) (b := 2) (c := 3) (d := 5) (by decide) (by decide)
      (by decide) (by decide)
  refine (pcPatchToGeometryWkbEnvelope_iff hfinite (by decide) hexact [] rfl rfl).mpr ⟨?_, ?_⟩
  · exact ⟨1, by decide +kernel, 2, by decide +kernel, by norm_num⟩
  · exact ⟨5, by decide +kernel, 3, by decide +kernel, by norm_num⟩

/-- One point: the polygon has no area. -/
theorem pcPatchToGeometryWkbEnvelope_fails :
    ExactBounds .little placedSchema [[1, 5]] ⟨1, 1, 5, 5⟩ ∧
    ¬ ∃ wkb, pcPatchToGeometryWkbEnvelope Platform.plain [] (storedPatch [[1, 5]] ⟨1, 1, 5, 5⟩)
        placedSchema = .ok wkb ∧
      EnclosesPoints .little placedSchema [[1, 5]] wkb := by
  have hx : PcDimension.column .little ⟨some "X", 0, 1, 0, .uint8, 1, 0⟩ [[1, 5]] = [1] := by
    decide +kernel
  have hy : PcDimension.column .little ⟨some "Y", 1, 1, 1, .uint8, 1, 0⟩ [[1, 5]] = [5] := by
    decide +kernel
  have hfinite : PcBounds.Finite ⟨1, 1, 5, 5⟩ := by
    exact_mod_cast finite_of_lt_eight (a := 1) (b := 1) (c := 5) (d := 5) (by decide) (by decide)
      (by decide) (by decide)
  refine ⟨exactBounds_placed hx hy (by simp [LeastOf, GreatestOf]) (by simp [LeastOf, GreatestOf]),
    ?_⟩
  rintro ⟨wkb, hrun, hencloses⟩
  have hpos := ringArea_pos_of_enclosesPoints hfinite (by decide) hrun hencloses
  exact ((ringArea_boxRing_pos_iff _).mp hpos).1 rfl

end Pointcloud
