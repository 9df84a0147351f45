/-
Pointcloud.Patch.SetSchemaBoundsTheorems — the bounds under another schema.

With statistics the bounds of the new patch are those that the moved extremes
have in the new schema. They are the extent of the new records unless the
limits of `double` hide an extreme, or the old scale was negative, so that the
point of the least values has the greatest numbers. Without statistics the
bounds of the old patch are scaled; the greatest y goes where the greatest x
belongs, and where it belongs nothing is set.
-/
import Pointcloud.Patch.ExtentTheorems
import Pointcloud.Patch.SetSchemaTheorems

namespace Pointcloud

open Pointcloud.Base

variable {P : Platform}

/-! ## One axis -/

/-- The values of a dimension in the points that are moved. -/
def movedColumn (P : Platform) (old new : PcSchema) (dflt : ℚ) (dim : PcDimension)
    (pts : List Bytes) : List ℚ :=
  dim.column P.endian (pts.map (moved P old new dflt))

/-- The statistics have the least and the greatest value of every dimension. -/
structure StatsExtreme (en : Endian) (s : PcSchema) (st : PcStats) (pts : List Bytes) : Prop where
  least : ∀ dim ∈ s.dims, LeastOf (dim.column en pts) (dim.valueIn en st.min.data)
  greatest : ∀ dim ∈ s.dims, GreatestOf (dim.column en pts) (dim.valueIn en st.max.data)

/-- The numbers of the dimension come from one with a negative scale. -/
def TurnedAround (old : PcSchema) (dim : PcDimension) : Prop :=
  ∃ odim, likeOf old dim = some odim ∧ odim.scale < 0

/-- The limits of `double` hide no extreme of the points, the records have the same
extremes, and what is turned around is all the same. -/
structure AxisKept (P : Platform) (old new : PcSchema) (dflt : ℚ) (pts recs : List Bytes)
    (dim : PcDimension) : Prop where
  low : ∃ v ∈ movedColumn P old new dflt dim pts, v ≤ dblMax
  high : ∃ v ∈ movedColumn P old new dflt dim pts, -dblMax ≤ v
  least : (movedColumn P old new dflt dim pts).foldl min dblMax =
    (movedColumn P old new dflt dim recs).foldl min dblMax
  greatest : (movedColumn P old new dflt dim pts).foldl max (-dblMax) =
    (movedColumn P old new dflt dim recs).foldl max (-dblMax)
  flat : TurnedAround old dim → ∀ v ∈ movedColumn P old new dflt dim pts,
    ∀ w ∈ movedColumn P old new dflt dim pts, v = w

section Axis

variable {old new : PcSchema} (hmatch : Matches old new) {dflt : ℚ} {dim : PcDimension}
  (hd : dim ∈ new.dims)

include hmatch hd

/-- A value that is moved is scaled anew. -/
theorem valueIn_moved {odim : PcDimension} (hlike : likeOf old dim = some odim)
    (hscale : odim.scale ≠ 0) {pt : Bytes} (hpt : pt.length = old.size) :
    dim.valueIn P.endian (moved P old new dflt pt) =
      pcValueScaleOffset (pcValueUnscaleUnoffset (odim.valueIn P.endian pt) odim) dim := by
  rw [PcDimension.valueIn, PcDimension.rawIn, bytesIn_moved hmatch dflt hpt hd, movedCell, hlike,
    PcDimension.valueIn, pcValueUnscaleUnoffset_scaleOffset hscale, PcDimension.rawIn,
    (hmatch dim hd).2 odim hlike]

/-- A value that is not moved is the default. -/
theorem valueIn_moved_default (hlike : likeOf old dim = none) {pt : Bytes}
    (hpt : pt.length = old.size) :
    dim.valueIn P.endian (moved P old new dflt pt) = dim.readBack P dflt := by
  rw [PcDimension.valueIn, PcDimension.rawIn, bytesIn_moved hmatch dflt hpt hd, movedCell, hlike]
  rfl

theorem movedColumn_eq {odim : PcDimension} (hlike : likeOf old dim = some odim)
    (hscale : odim.scale ≠ 0) {pts : List Bytes} (hwidth : ∀ pt ∈ pts, pt.length = old.size) :
    movedColumn P old new dflt dim pts = (odim.column P.endian pts).map fun val =>
      pcValueScaleOffset (pcValueUnscaleUnoffset val odim) dim := by
  rw [movedColumn, PcDimension.column, PcDimension.column, List.map_map, List.map_map]
  exact List.map_congr_left fun pt hpt => valueIn_moved hmatch hd hlike hscale (hwidth pt hpt)

theorem movedColumn_default (hlike : likeOf old dim = none) {pts : List Bytes}
    (hwidth : ∀ pt ∈ pts, pt.length = old.size) :
    movedColumn P old new dflt dim pts = pts.map fun _ => dim.readBack P dflt := by
  rw [movedColumn, PcDimension.column, List.map_map]
  exact List.map_congr_left fun pt hpt => valueIn_moved_default hmatch hd hlike (hwidth pt hpt)

variable (dflt)

/-- The extremes are moved to the extremes, or turned around. -/
theorem extremes_moved (hpos : 0 < dim.scale) (hscale : ∀ odim ∈ old.dims, odim.scale ≠ 0)
    {pts : List Bytes} (hwidth : ∀ pt ∈ pts, pt.length = old.size) (hne : pts ≠ []) {st : PcStats}
    (hover : StatsOver old st) (hst : StatsExtreme P.endian old st pts) :
    (¬ TurnedAround old dim ∧
      LeastOf (movedColumn P old new dflt dim pts)
        (dim.valueIn P.endian (moved P old new dflt st.min.data)) ∧
      GreatestOf (movedColumn P old new dflt dim pts)
        (dim.valueIn P.endian (moved P old new dflt st.max.data))) ∨
    (TurnedAround old dim ∧
      GreatestOf (movedColumn P old new dflt dim pts)
        (dim.valueIn P.endian (moved P old new dflt st.min.data)) ∧
      LeastOf (movedColumn P old new dflt dim pts)
        (dim.valueIn P.endian (moved P old new dflt st.max.data))) := by
  have hmin : st.min.data.length = old.size := by rw [st.min.length_eq, hover.1]
  have hmax : st.max.data.length = old.size := by rw [st.max.length_eq, hover.2.1]
  cases hlike : likeOf old dim with
  | none =>
      obtain ⟨pt, hpt⟩ := List.exists_mem_of_ne_nil pts hne
      have hin : dim.readBack P dflt ∈ pts.map fun _ => dim.readBack P dflt :=
        List.mem_map_of_mem (f := fun _ => dim.readBack P dflt) hpt
      have hall : ∀ v ∈ pts.map fun _ => dim.readBack P dflt, v = dim.readBack P dflt := by
        intro v hv
        obtain ⟨pt, -, rfl⟩ := List.mem_map.mp hv
        rfl
      rw [movedColumn_default hmatch hd hlike hwidth, valueIn_moved_default hmatch hd hlike hmin,
        valueIn_moved_default hmatch hd hlike hmax]
      refine .inl ⟨?_, ⟨hin, fun v hv => (hall v hv).ge⟩, hin, fun v hv => (hall v hv).le⟩
      rintro ⟨odim, hodim, -⟩
      rw [hlike] at hodim
      exact nomatch hodim
  | some odim =>
      have hodim := mem_of_likeOf hlike
      have hne0 := hscale odim hodim
      have hleast := hst.least odim hodim
      have hgreatest := hst.greatest odim hodim
      rw [movedColumn_eq hmatch hd hlike hne0 hwidth, valueIn_moved hmatch hd hlike hne0 hmin,
        valueIn_moved hmatch hd hlike hne0 hmax]
      have hscaled := (pcValueScaleOffset_strictMono hpos).monotone
      rcases lt_or_gt_of_ne hne0 with hneg | hgt
      · have hanti : Antitone fun val =>
            pcValueScaleOffset (pcValueUnscaleUnoffset val odim) dim := by
          intro a b hab
          refine hscaled ?_
          rw [pcValueUnscaleUnoffset_eq, pcValueUnscaleUnoffset_eq]
          exact div_le_div_of_nonpos_of_le hneg.le (by linarith)
        exact .inr ⟨⟨odim, hlike, hneg⟩, hleast.map_antitone hanti, hgreatest.map_antitone hanti⟩
      · have hmono : Monotone fun val =>
            pcValueScaleOffset (pcValueUnscaleUnoffset val odim) dim := by
          intro a b hab
          refine hscaled ?_
          rw [pcValueUnscaleUnoffset_eq, pcValueUnscaleUnoffset_eq]
          exact div_le_div_of_nonneg_right (by linarith) hgt.le
        refine .inl ⟨?_, hleast.map hmono, hgreatest.map hmono⟩
        rintro ⟨odim', hlike', hneg⟩
        cases hlike.symm.trans hlike'
        exact absurd hneg (not_lt.mpr hgt.le)

/-- The extremes of an axis as the statistics have them. -/
theorem axisKept_iff (hpos : 0 < dim.scale) (hscale : ∀ odim ∈ old.dims, odim.scale ≠ 0)
    {pts recs : List Bytes} (hwidth : ∀ pt ∈ pts, pt.length = old.size) (hne : pts ≠ [])
    (hrecs : recs ≠ []) {st : PcStats} (hover : StatsOver old st)
    (hst : StatsExtreme P.endian old st pts) :
    (dim.valueIn P.endian (moved P old new dflt st.min.data) =
        (movedColumn P old new dflt dim recs).foldl min dblMax ∧
      dim.valueIn P.endian (moved P old new dflt st.max.data) =
        (movedColumn P old new dflt dim recs).foldl max (-dblMax)) ↔
      AxisKept P old new dflt pts recs dim := by
  have hcol : movedColumn P old new dflt dim recs ≠ [] := by
    simpa [movedColumn, PcDimension.column] using hrecs
  rcases extremes_moved hmatch dflt hd hpos hscale hwidth hne hover hst with
    ⟨hstraight, hleast, hgreatest⟩ | ⟨hturned, hgreatest, hleast⟩
  · rw [extremes_eq_foldl_iff hleast hgreatest hcol]
    constructor
    · rintro ⟨⟨hlow, hhigh⟩, hmin, hmax⟩
      exact ⟨hlow, hhigh, hmin, hmax, fun hturned => absurd hturned hstraight⟩
    · intro hkept
      exact ⟨⟨hkept.low, hkept.high⟩, hkept.least, hkept.greatest⟩
  · rw [extremes_exchanged_iff hleast hgreatest hcol]
    constructor
    · rintro ⟨⟨⟨hlow, hhigh⟩, hmin, hmax⟩, hflat⟩
      exact ⟨hlow, hhigh, hmin, hmax, fun _ => hflat⟩
    · intro hkept
      exact ⟨⟨⟨hkept.low, hkept.high⟩, hkept.least, hkept.greatest⟩, hkept.flat hturned⟩

end Axis

/-! ## The whole patch -/

/-- The bounds of the patch under the new schema are the extent of its records. -/
def SetSchemaBounds (P : Platform) (pa : PcPatch) (new : PcSchema) (dflt : ℚ) : Prop :=
  ∃ q r, pcPatchSetSchema P pa new dflt = .ok q ∧
    pcPatchUncompressedComputeExtent P.endian q = .ok r ∧ q.bounds = r.bounds

/-- The old bounds, scaled as the code does it, happen to be the extent: the
greatest y is that which an empty patch has. -/
structure RescaledRight (P : Platform) (pa : PcPatch) (new : PcSchema) (dflt : ℚ)
    (recs : List Bytes) (ox oy nx ny : PcDimension) : Prop where
  ymax : ∀ v ∈ movedColumn P pa.schema new dflt ny recs, v ≤ -dblMax
  xmax : pa.bounds.ymax * (ny.scale / oy.scale) + (ny.offset - oy.offset) =
    (movedColumn P pa.schema new dflt nx recs).foldl max (-dblMax)
  xmin : pa.bounds.xmin * (nx.scale / ox.scale) + (nx.offset - ox.offset) =
    (movedColumn P pa.schema new dflt nx recs).foldl min dblMax
  ymin : pa.bounds.ymin * (ny.scale / oy.scale) + (ny.offset - oy.offset) =
    (movedColumn P pa.schema new dflt ny recs).foldl min dblMax

/-- Records can be indexed, and both axes are kept; without statistics the scaled
bounds happen to be right. -/
structure SetSchemaBoundsCondition (P : Platform) (pa : PcPatch) (pts : List Bytes)
    (new : PcSchema) (dflt : ℚ) : Prop where
  npoints_le : pa.npoints ≤ 2147483648
  with_stats : pa.stats ≠ none → ∀ dim, new.IsAxis dim →
    AxisKept P pa.schema new dflt pts (pa.unpacked pts) dim
  without_stats : pa.stats = none → ∀ ox oy nx ny, pa.schema.xdimension = some ox →
    pa.schema.ydimension = some oy → new.xdimension = some nx → new.ydimension = some ny →
    RescaledRight P pa new dflt (pa.unpacked pts) ox oy nx ny

/-- No y is greater than what an empty patch has. -/
theorem foldl_max_eq_start_iff (start : ℚ) (vs : List ℚ) :
    start = vs.foldl max start ↔ ∀ v ∈ vs, v ≤ start := by
  cases vs with
  | nil => simp
  | cons v vs =>
      obtain ⟨M, hM⟩ := exists_greatestOf (List.cons_ne_nil v vs)
      rw [hM.foldl_max, eq_comm, max_eq_left_iff]
      exact ⟨fun hle w hw => le_trans (hM.2 w hw) hle, fun hall => hall M hM.1⟩

section Bounds

variable {pa : PcPatch} {pts : List Bytes} (h : pa.Holds P pts) (hne : pts ≠ [])
  (hold : pa.schema.Valid) {new : PcSchema} (hnew : new.Valid) (hmatch : Matches pa.schema new)
  (hpos : ∀ dim ∈ new.dims, 0 < dim.scale) (hscale : ∀ dim ∈ pa.schema.dims, dim.scale ≠ 0)
  (hstats : ∀ st, pa.stats = some st →
    StatsOver pa.schema st ∧ StatsExtreme P.endian pa.schema st pts) (dflt : ℚ)

include h hne hold hnew hmatch hpos hscale hstats

/-- Where the records can be indexed, only their bounds matter. -/
theorem setSchemaBounds_iff_of_le (hint : pa.npoints ≤ 2147483648) :
    SetSchemaBounds P pa new dflt ↔ SetSchemaBoundsCondition P pa pts new dflt := by
  obtain ⟨nx, hx, hnx⟩ := hnew.xdimension
  obtain ⟨ny, hy, hny⟩ := hnew.ydimension
  obtain ⟨ox, -, hox⟩ := hold.xdimension
  obtain ⟨oy, -, hoy⟩ := hold.ydimension
  obtain ⟨u, hu⟩ := h.unpacks (PcPatch.allocatable_of_le hint)
  have hroom : new.size * pa.npoints < 9223372036854775808 := by
    have hsize := new.size_lt
    exact Nat.lt_of_le_of_lt (Nat.mul_le_mul_left new.size hint) (by omega)
  obtain ⟨q, hq, hmoved⟩ := pcPatchSetSchema_ok hu.uncompress_ok hu.holds hroom hold hnew hmatch
    (fun st hst => (hstats st hst).1) dflt
  have hqs := hmoved.schema_eq
  have hextent := pcPatchUncompressedComputeExtent_ok P.endian hmoved.holds
    (hmoved.npoints_eq.trans_le hint) (hqs ▸ hnx) (hqs ▸ hny) (hqs ▸ hx) (hqs ▸ hy)
  have hsame : SetSchemaBounds P pa new dflt ↔ q.bounds = boundsOf P.endian nx ny
      ((pa.unpacked pts).map (moved P pa.schema new dflt)) := by
    constructor
    · rintro ⟨q', r, hq', hr, hbounds⟩
      cases hq.symm.trans hq'
      cases hextent.symm.trans hr
      exact hbounds
    · intro hbounds
      exact ⟨q, _, hq, hextent, hbounds⟩
  have hrecs : pa.unpacked pts ≠ [] := by
    refine List.ne_nil_of_length_pos ?_
    have hlen := hu.holds.length_eq
    rw [hu.npoints_eq, ← h.length_eq] at hlen
    rw [hlen]
    exact List.length_pos_iff.mpr hne
  rw [hsame]
  cases hst : pa.stats with
  | some st =>
      obtain ⟨hover, hextreme⟩ := hstats st hst
      obtain ⟨st', -, -, hmin, hmax, -, hbounds⟩ := hmoved.with_stats st hst
      rw [hbounds nx ny hnx hny, hmin, hmax]
      have hxkept := axisKept_iff hmatch dflt hx (hpos nx hx) hscale h.width_eq hne hrecs hover
        hextreme
      have hykept := axisKept_iff hmatch dflt hy (hpos ny hy) hscale h.width_eq hne hrecs hover
        hextreme
      constructor
      · intro heq
        obtain ⟨h1, h2, h3, h4⟩ := PcBounds.mk.inj heq
        refine ⟨hint, fun _ dim hdim => ?_, fun hnone => ?_⟩
        · rcases hdim with hdim | hdim
          · cases hnx.symm.trans hdim
            exact hxkept.mp ⟨h1, h2⟩
          · cases hny.symm.trans hdim
            exact hykept.mp ⟨h3, h4⟩
        · rw [hst] at hnone
          exact nomatch hnone
      · intro hcond
        have hkept := hcond.with_stats (by simp [hst])
        obtain ⟨h1, h2⟩ := hxkept.mpr (hkept nx (.inl hnx))
        obtain ⟨h3, h4⟩ := hykept.mpr (hkept ny (.inr hny))
        rw [boundsIn, boundsOf, PcBounds.mk.injEq]
        exact ⟨h1, h2, h3, h4⟩
  | none =>
      obtain ⟨hrescaled, -⟩ := (pcPatchSetSchema_passed hq).2.2.2 hst
      simp only [boundsRescaled, hnx, hny, hox, hoy, Except.ok.injEq] at hrescaled
      rw [← hrescaled]
      constructor
      · intro heq
        obtain ⟨h1, h2, h3, h4⟩ := PcBounds.mk.inj heq
        refine ⟨hint, fun hsome => absurd hst hsome,
          fun _ ox' oy' nx' ny' hox' hoy' hnx' hny' => ?_⟩
        cases hox.symm.trans hox'
        cases hoy.symm.trans hoy'
        cases hnx.symm.trans hnx'
        cases hny.symm.trans hny'
        exact ⟨(foldl_max_eq_start_iff _ _).mp h4, h2, h1, h3⟩
      · intro hcond
        obtain ⟨h4, h2, h1, h3⟩ := hcond.without_stats hst ox oy nx ny hox hoy hnx hny
        rw [boundsOf, PcBounds.mk.injEq]
        exact ⟨h1, h2, h3, (foldl_max_eq_start_iff _ _).mpr h4⟩

end Bounds

/-- The bounds under another schema are exact exactly under
`SetSchemaBoundsCondition`. -/
theorem pcPatchSetSchema_bounds_iff (P : Platform) {pa : PcPatch} {pts : List Bytes}
    (h : pa.Holds P pts) (hne : pts ≠ []) (hold : pa.schema.Valid) {new : PcSchema}
    (hnew : new.Valid) (hmatch : Matches pa.schema new) (hpos : ∀ dim ∈ new.dims, 0 < dim.scale)
    (hscale : ∀ dim ∈ pa.schema.dims, dim.scale ≠ 0)
    (hstats : ∀ st, pa.stats = some st →
      StatsOver pa.schema st ∧ StatsExtreme P.endian pa.schema st pts) (dflt : ℚ) :
    SetSchemaBounds P pa new dflt ↔ SetSchemaBoundsCondition P pa pts new dflt := by
  have hof : pa.npoints ≤ 2147483648 → (SetSchemaBounds P pa new dflt ↔
      SetSchemaBoundsCondition P pa pts new dflt) :=
    setSchemaBounds_iff_of_le h hne hold hnew hmatch hpos hscale hstats dflt
  constructor
  · intro hsame
    obtain ⟨q, r, hq, hr, -⟩ := id hsame
    obtain ⟨-, hunpacked, hroom, -⟩ := pcPatchSetSchema_passed hq
    obtain ⟨u, hu⟩ := h.unpacks (h.allocatable_iff.mp hunpacked)
    obtain ⟨q', hq', hmoved⟩ := pcPatchSetSchema_ok hu.uncompress_ok hu.holds hroom hold hnew hmatch
      (fun st hst => (hstats st hst).1) dflt
    cases hq.symm.trans hq'
    have hle := (pcPatchUncompressedComputeExtent_isOk_iff P.endian (hmoved.schema_eq ▸ hnew)
      hmoved.holds.room).mp ⟨r, hr⟩
    rw [hmoved.npoints_eq] at hle
    exact (hof hle).mp hsame
  · intro hcond
    exact (hof hcond.npoints_le).mpr hcond

/-- The points (1, 5) and (2, 5), with their bounds. -/
def boundedPair (stats : Option PcStats) : PcPatchUncompressed :=
  { patchOfRecords (scaledPair 1).schema [[1, 5], [2, 5]] with
    bounds := ⟨1, 2, 5, 5⟩
    stats := stats }

theorem boundedPair_holds (stats : Option PcStats) :
    PcPatch.Holds P (.uncompressed (boundedPair stats)) [[1, 5], [2, 5]] := by
  have hpatch := patchOfRecords_holds (scaledPair_holds (P := Platform.plain) 1).width_eq
    (by decide)
  exact ⟨hpatch.npoints_lt, hpatch.room, hpatch.records_eq⟩

/-- A schema is matched with itself if its names find its dimensions. -/
theorem matches_self {s : PcSchema}
    (h : ∀ dim ∈ s.dims, dim.name ≠ none ∧ likeOf s dim = some dim) :
    Matches s s := by
  intro dim hd
  obtain ⟨hname, hlike⟩ := h dim hd
  refine ⟨hname, fun odim hodim => ?_⟩
  cases hlike.symm.trans hodim
  rfl

theorem scaledPair_matches : Matches (scaledPair 1).schema (scaledPair 1).schema :=
  matches_self (by decide +kernel)

/-- With its statistics the pair keeps its bounds. -/
theorem pcPatchSetSchema_bounds_iff_witness :
    SetSchemaBounds Platform.plain (.uncompressed (boundedPair (some (statsOf Platform.plain
      (scaledPair 1).schema [[1, 5], [2, 5]])))) (scaledPair 1).schema 0 := by
  have hscale : ∀ dim ∈ (scaledPair 1).schema.dims, 0 < dim.scale := by decide +kernel
  refine (pcPatchSetSchema_bounds_iff Platform.plain (boundedPair_holds _) (by simp) ⟨rfl, rfl⟩
    ⟨rfl, rfl⟩ scaledPair_matches hscale (fun dim hd => ne_of_gt (hscale dim hd)) ?_ 0).mpr
    ⟨by decide, ?_, nofun⟩
  · intro st hst
    cases hst
    refine ⟨⟨rfl, rfl, rfl⟩, ⟨?_, ?_⟩⟩
    · show ∀ dim ∈ (scaledPair 1).schema.dims, _ ∧ ∀ x ∈ _, _
      decide +kernel
    · show ∀ dim ∈ (scaledPair 1).schema.dims, _ ∧ ∀ x ∈ _, _
      decide +kernel
  · rintro - dim hdim
    have hd : dim ∈ (scaledPair 1).schema.dims := by
      rcases hdim with hdim | hdim <;> cases hdim <;> decide +kernel
    have hall : ∀ dim ∈ (scaledPair 1).schema.dims,
        (∃ v ∈ movedColumn Platform.plain (scaledPair 1).schema (scaledPair 1).schema 0 dim
          [[1, 5], [2, 5]], v ≤ dblMax) ∧
        ∃ v ∈ movedColumn Platform.plain (scaledPair 1).schema (scaledPair 1).schema 0 dim
          [[1, 5], [2, 5]], -dblMax ≤ v := by decide +kernel
    obtain ⟨hlow, hhigh⟩ := hall dim hd
    refine ⟨hlow, hhigh, rfl, rfl, ?_⟩
    rintro ⟨odim, hlike, hneg⟩
    exact absurd hneg (not_lt.mpr (hscale odim (mem_of_likeOf hlike)).le)

/-- Without them the greatest x is 5, and there is no greatest y. -/
theorem pcPatchSetSchema_bounds_wrong :
    PcPatch.Holds Platform.plain (.uncompressed (boundedPair none)) [[1, 5], [2, 5]] ∧
      (do
        let p ← pcPatchUncompressedComputeExtent .little (boundedPair none)
        return p.bounds) = .ok (boundedPair none).bounds ∧
      (do
        let q ← pcPatchSetSchema Platform.plain (.uncompressed (boundedPair none))
          (scaledPair 1).schema 0
        return q.bounds) = .ok ⟨1, 5, 5, -dblMax⟩ ∧
      (do
        let q ← pcPatchSetSchema Platform.plain (.uncompressed (boundedPair none))
          (scaledPair 1).schema 0
        let r ← pcPatchUncompressedComputeExtent .little q
        return r.bounds) = .ok ⟨1, 2, 5, 5⟩ ∧
      ¬ SetSchemaBounds Platform.plain (.uncompressed (boundedPair none))
        (scaledPair 1).schema 0 := by
  have hexact : (do
      let p ← pcPatchUncompressedComputeExtent .little (boundedPair none)
      return p.bounds) = .ok (boundedPair none).bounds := by decide +kernel
  have hset : (do
      let q ← pcPatchSetSchema Platform.plain (.uncompressed (boundedPair none))
        (scaledPair 1).schema 0
      return q.bounds) = .ok ⟨1, 5, 5, -dblMax⟩ := by decide +kernel
  have hextent : (do
      let q ← pcPatchSetSchema Platform.plain (.uncompressed (boundedPair none))
        (scaledPair 1).schema 0
      let r ← pcPatchUncompressedComputeExtent .little q
      return r.bounds) = .ok ⟨1, 2, 5, 5⟩ := by decide +kernel
  refine ⟨boundedPair_holds none, hexact, hset, hextent, ?_⟩
  rintro ⟨q, r, hq, hr, hbounds⟩
  rw [hq, ok_bind, pure_eq_ok, hbounds] at hset
  rw [hq, ok_bind, show pcPatchUncompressedComputeExtent .little q = .ok r from hr, ok_bind,
    pure_eq_ok, hset] at hextent
  exact absurd hextent (by decide +kernel)

end Pointcloud
