/-
Pointcloud.Patch.SummaryTheorems — bounds and statistics that are exact.

`Summarizes en s pts b st` says that `b` are the extremes of x and y of points, and
that the points of the statistics have in every dimension the least and the
greatest number. With integer types and positive scales it does not matter
where a summary comes from: computed from values (`summarizes_computed`), from
the stored numbers (`summarizes_lowest`), merged with that of other points, or
moved to another schema.
-/
import Pointcloud.LimitTheorems
import Pointcloud.Patch.BuildTheorems
import Pointcloud.Patch.SetSchemaBoundsTheorems
import Pointcloud.Patch.UnionTheorems
import Pointcloud.Patch.YieldTheorems

namespace Pointcloud

open Pointcloud.Base

variable {P : Platform}

/-- Integer types other than the unsigned one of 64 bits, with positive scales. -/
structure PcSchema.Integral (s : PcSchema) : Prop where
  valid : s.Valid
  scale_pos : ∀ dim ∈ s.dims, 0 < dim.scale
  whole : ∀ dim ∈ s.dims, dim.interpretation.Whole ∧ dim.interpretation ≠ .uint64

/-- The values of a point are within the limits of `double`. -/
def PcSchema.InDoubles (en : Endian) (s : PcSchema) (pt : Bytes) : Prop :=
  ∀ dim ∈ s.dims, -dblMax ≤ dim.valueIn en pt ∧ dim.valueIn en pt ≤ dblMax

/-- The bounds are the extremes of x and y, and the points of the statistics have the
least and the greatest number of every dimension. -/
structure Summarizes (en : Endian) (s : PcSchema) (pts : List Bytes) (b : PcBounds)
    (st : PcStats) : Prop where
  bounds : ExactBounds en s pts b
  stats_over : StatsOver s st
  min : ∀ dim ∈ s.dims, LeastOf (dim.rawColumn en pts) (dim.rawIn en st.min.data)
  max : ∀ dim ∈ s.dims, GreatestOf (dim.rawColumn en pts) (dim.rawIn en st.max.data)

/-- The order of the points does not matter, nor how often there is one. -/
theorem Summarizes.of_mem_iff {en : Endian} {s : PcSchema} {pts qts : List Bytes} {b : PcBounds}
    {st : PcStats} (h : Summarizes en s pts b st) (hmem : ∀ pt, pt ∈ qts ↔ pt ∈ pts) :
    Summarizes en s qts b st := by
  have hcolumn : ∀ (f : Bytes → ℚ) (x : ℚ), x ∈ qts.map f ↔ x ∈ pts.map f := by
    intro f x
    simp only [List.mem_map, hmem]
  constructor
  · constructor
    · intro dim hdim
      obtain ⟨hmin, hmax⟩ := h.bounds.1 dim hdim
      exact ⟨hmin.of_mem_iff (hcolumn _), hmax.of_mem_iff (hcolumn _)⟩
    · intro dim hdim
      obtain ⟨hmin, hmax⟩ := h.bounds.2 dim hdim
      exact ⟨hmin.of_mem_iff (hcolumn _), hmax.of_mem_iff (hcolumn _)⟩
  · exact h.stats_over
  · exact fun dim hd => (h.min dim hd).of_mem_iff (hcolumn _)
  · exact fun dim hd => (h.max dim hd).of_mem_iff (hcolumn _)

/-- Copied statistics summarize the same points. -/
theorem Summarizes.clone {en : Endian} {s : PcSchema} {pts : List Bytes} {b : PcBounds}
    {stats : Option PcStats} (h : ∃ st, stats = some st ∧ Summarizes en s pts b st) :
    ∃ st, pcStatsClone stats = some st ∧ Summarizes en s pts b st := by
  obtain ⟨st, rfl, hst⟩ := h
  exact ⟨_, rfl, hst.bounds, hst.stats_over, hst.min, hst.max⟩

/-! ## Stored extremes -/

section Integral

variable {s : PcSchema} (hs : s.Integral) {dim : PcDimension} (hd : dim ∈ s.dims)

include hs hd

/-- The value of a point is stored as the number it came from. -/
theorem PcSchema.Integral.rawIn_storedPoint {pt : Bytes} (hpt : pt.length = s.size)
    {f : PcDimension → ℚ} (hf : f dim = dim.valueIn P.endian pt) :
    dim.rawIn P.endian (storedPoint P s f).data = dim.rawIn P.endian pt := by
  obtain ⟨hwhole, hne⟩ := hs.whole dim hd
  have hlen : (dim.bytesIn pt).length = dim.interpretation.size := by
    rw [s.length_bytesIn hd hpt, s.dim_size hd]
  have hraw : pcValueUnscaleUnoffset (dim.valueIn P.endian pt) dim = dim.rawIn P.endian pt :=
    pcValueUnscaleUnoffset_scaleOffset (ne_of_gt (hs.scale_pos dim hd)) _
  rw [PcDimension.rawIn, bytesIn_storedPoint s f hd, PcDimension.stored, hf, hraw,
    PcDimension.rawIn, hwhole.stored_number hlen fun h => absurd h hne]

/-- The numbers of points are within the limits of `float`. -/
theorem PcSchema.Integral.raw_range {pts : List Bytes} (hwidth : ∀ pt ∈ pts, pt.length = s.size)
    {en : Endian} {raw : ℚ} (hraw : raw ∈ dim.rawColumn en pts) : -fltMax ≤ raw ∧ raw ≤ fltMax := by
  obtain ⟨pt, hpt, rfl⟩ := List.mem_map.mp hraw
  have hlen : (dim.bytesIn pt).length = dim.interpretation.size := by
    rw [s.length_bytesIn hd (hwidth pt hpt), s.dim_size hd]
  obtain ⟨hlow, hhigh⟩ := (hs.whole dim hd).1.number_within en hlen
  exact ⟨hlow.le, hhigh.le⟩

theorem PcSchema.Integral.monotone : Monotone fun raw => pcValueScaleOffset raw dim :=
  (pcValueScaleOffset_strictMono (hs.scale_pos dim hd)).monotone

/-- The least value of points is stored as their least number. -/
theorem PcSchema.Integral.leastOf_stored {pts : List Bytes}
    (hwidth : ∀ pt ∈ pts, pt.length = s.size) {f : PcDimension → ℚ}
    (h : LeastOf (dim.column P.endian pts) (f dim)) :
    LeastOf (dim.rawColumn P.endian pts) (dim.rawIn P.endian (storedPoint P s f).data) := by
  obtain ⟨pt, hpt, heq⟩ := List.mem_map.mp h.1
  rw [hs.rawIn_storedPoint hd (hwidth pt hpt) heq.symm]
  refine ⟨List.mem_map_of_mem hpt, fun raw hraw => ?_⟩
  obtain ⟨qt, hqt, rfl⟩ := List.mem_map.mp hraw
  have hle : dim.valueIn P.endian pt ≤ dim.valueIn P.endian qt := by
    rw [heq]
    exact h.2 _ (List.mem_map_of_mem hqt)
  exact (pcValueScaleOffset_strictMono (hs.scale_pos dim hd)).le_iff_le.mp hle

theorem PcSchema.Integral.greatestOf_stored {pts : List Bytes}
    (hwidth : ∀ pt ∈ pts, pt.length = s.size) {f : PcDimension → ℚ}
    (h : GreatestOf (dim.column P.endian pts) (f dim)) :
    GreatestOf (dim.rawColumn P.endian pts) (dim.rawIn P.endian (storedPoint P s f).data) := by
  obtain ⟨pt, hpt, heq⟩ := List.mem_map.mp h.1
  rw [hs.rawIn_storedPoint hd (hwidth pt hpt) heq.symm]
  refine ⟨List.mem_map_of_mem hpt, fun raw hraw => ?_⟩
  obtain ⟨qt, hqt, rfl⟩ := List.mem_map.mp hraw
  have hle : dim.valueIn P.endian qt ≤ dim.valueIn P.endian pt := by
    rw [heq]
    exact h.2 _ (List.mem_map_of_mem hqt)
  exact (pcValueScaleOffset_strictMono (hs.scale_pos dim hd)).le_iff_le.mp hle

/-- The extremes of the stored numbers are those of the values. -/
theorem PcSchema.Integral.extremes_lowest {pts : List Bytes} (hne : pts ≠ [])
    (hwidth : ∀ pt ∈ pts, pt.length = s.size) (en : Endian) :
    LeastOf (dim.column en pts) (dim.lowest en pts) ∧
      GreatestOf (dim.column en pts) (dim.highest en pts) := by
  have hcolumn : dim.rawColumn en pts ≠ [] := fun hnil => hne (List.map_eq_nil_iff.mp hnil)
  obtain ⟨raw, hraw⟩ := List.exists_mem_of_ne_nil _ hcolumn
  obtain ⟨hlow, hhigh⟩ := hs.raw_range hd hwidth hraw
  have hleast := (leastOf_foldl_iff hcolumn fltMax).mpr ⟨raw, hraw, hhigh⟩
  have hgreatest := (greatestOf_foldl_iff hcolumn (-fltMax)).mpr ⟨raw, hraw, hlow⟩
  rw [column_eq]
  exact ⟨hleast.map (hs.monotone hd), hgreatest.map (hs.monotone hd)⟩

/-- The values in the points of the statistics are extremes. -/
theorem Summarizes.extremes {en : Endian} {pts : List Bytes} {b : PcBounds} {st : PcStats}
    (h : Summarizes en s pts b st) : LeastOf (dim.column en pts) (dim.valueIn en st.min.data) ∧
      GreatestOf (dim.column en pts) (dim.valueIn en st.max.data) := by
  rw [column_eq]
  exact ⟨(h.min dim hd).map (hs.monotone hd), (h.max dim hd).map (hs.monotone hd)⟩

omit hs in
/-- The searches that start from the limits of `double` find the extremes. -/
theorem PcSchema.InDoubles.extremes {en : Endian} {pts : List Bytes} (hne : pts ≠ [])
    (h : ∀ pt ∈ pts, s.InDoubles en pt) :
    LeastOf (dim.column en pts) ((dim.column en pts).foldl min dblMax) ∧
      GreatestOf (dim.column en pts) ((dim.column en pts).foldl max (-dblMax)) := by
  have hcolumn : dim.column en pts ≠ [] := fun hnil => hne (List.map_eq_nil_iff.mp hnil)
  obtain ⟨pt, hpt⟩ := List.exists_mem_of_ne_nil _ hne
  obtain ⟨hlow, hhigh⟩ := h pt hpt dim hd
  exact ⟨(leastOf_foldl_iff hcolumn dblMax).mpr ⟨_, List.mem_map_of_mem hpt, hhigh⟩,
    (greatestOf_foldl_iff hcolumn (-dblMax)).mpr ⟨_, List.mem_map_of_mem hpt, hlow⟩⟩

end Integral

/-! ## Summaries -/

theorem exactBounds_of_dims {en : Endian} {s : PcSchema} {pts : List Bytes}
    {xdim ydim : PcDimension}
    (hxdim : s.xdimension = some xdim) (hydim : s.ydimension = some ydim) {b : PcBounds}
    (hx : LeastOf (xdim.column en pts) b.xmin ∧ GreatestOf (xdim.column en pts) b.xmax)
    (hy : LeastOf (ydim.column en pts) b.ymin ∧ GreatestOf (ydim.column en pts) b.ymax) :
    ExactBounds en s pts b := by
  constructor
  · intro dim hdim
    cases hxdim.symm.trans hdim
    exact hx
  · intro dim hdim
    cases hydim.symm.trans hdim
    exact hy

section Summaries

variable {s : PcSchema} (hs : s.Integral) {pts : List Bytes} (hne : pts ≠ [])
  (hwidth : ∀ pt ∈ pts, pt.length = s.size)

include hs hwidth

/-- Statistics that store the least and the greatest value of every dimension. -/
theorem summarizes_stored {fmin fmax favg : PcDimension → ℚ}
    (hmin : ∀ dim ∈ s.dims, LeastOf (dim.column P.endian pts) (fmin dim))
    (hmax : ∀ dim ∈ s.dims, GreatestOf (dim.column P.endian pts) (fmax dim)) {b : PcBounds}
    (hbounds : ExactBounds P.endian s pts b) :
    Summarizes P.endian s pts b ⟨storedPoint P s fmin, storedPoint P s fmax,
      storedPoint P s favg⟩ :=
  ⟨hbounds, ⟨rfl, rfl, rfl⟩, fun dim hd => hs.leastOf_stored hd hwidth (hmin dim hd),
    fun dim hd => hs.greatestOf_stored hd hwidth (hmax dim hd)⟩

include hne

/-- Statistics that are computed of points. -/
theorem summarizes_statsOf (hin : ∀ pt ∈ pts, s.InDoubles P.endian pt) {b : PcBounds}
    (hbounds : ExactBounds P.endian s pts b) :
    Summarizes P.endian s pts b (statsOf P s pts) :=
  summarizes_stored hs hwidth (fun _ hd => (PcSchema.InDoubles.extremes hd hne hin).1)
    (fun _ hd => (PcSchema.InDoubles.extremes hd hne hin).2) hbounds

variable {xdim ydim : PcDimension} (hxdim : s.xdimension = some xdim)
  (hydim : s.ydimension = some ydim) (hx : xdim ∈ s.dims) (hy : ydim ∈ s.dims)

include hxdim hydim hx hy

omit hs hwidth in
/-- Bounds that are computed of points. -/
theorem exactBounds_boundsOf {en : Endian} (hin : ∀ pt ∈ pts, s.InDoubles en pt) :
    ExactBounds en s pts (boundsOf en xdim ydim pts) :=
  exactBounds_of_dims hxdim hydim (PcSchema.InDoubles.extremes hx hne hin)
    (PcSchema.InDoubles.extremes hy hne hin)

/-- Bounds that are computed of the stored numbers. -/
theorem exactBounds_lowest (en : Endian) : ExactBounds en s pts
    ⟨xdim.lowest en pts, xdim.highest en pts, ydim.lowest en pts, ydim.highest en pts⟩ :=
  exactBounds_of_dims hxdim hydim (hs.extremes_lowest hx hne hwidth en)
    (hs.extremes_lowest hy hne hwidth en)

end Summaries

/-! ## Merged bounds -/

/-- Merged bounds are those of all points. -/
theorem exactBounds_flatten {en : Endian} {s : PcSchema} {ptss : List (List Bytes)}
    {bs : List PcBounds} (h : List.Forall₂ (ExactBounds en s) ptss bs) {b : PcBounds}
    (hb : IsUnion bs b) : ExactBounds en s ptss.flatten b := by
  have hflatten : ∀ dim : PcDimension,
      dim.column en ptss.flatten = (ptss.map (dim.column en)).flatten := by
    intro dim
    rw [PcDimension.column, List.map_flatten]
    rfl
  constructor
  · intro dim hdim
    rw [hflatten]
    refine ⟨LeastOf.flatten ?_ hb.xmin, GreatestOf.flatten ?_ hb.xmax⟩
    all_goals rw [List.forall₂_map_left_iff, List.forall₂_map_right_iff]
    · exact h.imp fun _ _ hexact => (hexact.1 dim hdim).1
    · exact h.imp fun _ _ hexact => (hexact.1 dim hdim).2
  · intro dim hdim
    rw [hflatten]
    refine ⟨LeastOf.flatten ?_ hb.ymin, GreatestOf.flatten ?_ hb.ymax⟩
    all_goals rw [List.forall₂_map_left_iff, List.forall₂_map_right_iff]
    · exact h.imp fun _ _ hexact => (hexact.2 dim hdim).1
    · exact h.imp fun _ _ hexact => (hexact.2 dim hdim).2

/-- Exact bounds are values of points. -/
theorem ExactBounds.reached {en : Endian} {s : PcSchema} (hvalid : s.Valid) {pts : List Bytes}
    {b : PcBounds} (h : ExactBounds en s pts b) (hin : ∀ pt ∈ pts, s.InDoubles en pt)
    {bs : List PcBounds} (hb : b ∈ bs) : BoundsReached bs := by
  obtain ⟨xdim, hx, hxdim⟩ := hvalid.xdimension
  obtain ⟨ydim, hy, hydim⟩ := hvalid.ydimension
  have hvalue : ∀ dim ∈ s.dims, ∀ v ∈ dim.column en pts, -dblMax ≤ v ∧ v ≤ dblMax := by
    intro dim hd v hv
    obtain ⟨pt, hpt, rfl⟩ := List.mem_map.mp hv
    exact hin pt hpt dim hd
  obtain ⟨hxmin, hxmax⟩ := h.1 xdim hxdim
  obtain ⟨hymin, hymax⟩ := h.2 ydim hydim
  exact ⟨⟨b, hb, (hvalue xdim hx _ hxmin.1).2⟩, ⟨b, hb, (hvalue xdim hx _ hxmax.1).1⟩,
    ⟨b, hb, (hvalue ydim hy _ hymin.1).2⟩, ⟨b, hb, (hvalue ydim hy _ hymax.1).1⟩⟩

/-! ## Another schema -/

section Moved

variable {old new : PcSchema} (hmatch : Matches old new) {dflt : ℚ} {dim : PcDimension}
  (hd : dim ∈ new.dims)

include hmatch hd

/-- A number is moved as it is, or replaced by the default. -/
theorem rawIn_moved (en : Endian) {pt : Bytes} (hpt : pt.length = old.size) :
    dim.rawIn en (moved P old new dflt pt) =
      match likeOf old dim with
      | some odim => odim.rawIn en pt
      | none => dim.interpretation.number en (dim.stored P dflt) := by
  rw [PcDimension.rawIn, bytesIn_moved hmatch dflt hpt hd, movedCell]
  cases hlike : likeOf old dim with
  | none => rfl
  | some odim =>
      simp only
      rw [PcDimension.rawIn, (hmatch dim hd).2 odim hlike]

variable {pts : List Bytes} (hne : pts ≠ []) (hwidth : ∀ pt ∈ pts, pt.length = old.size)

include hne hwidth

/-- The extremes of a dimension are moved with the points. -/
theorem rawExtremes_moved {en : Endian} {low high : Bytes} (hlow : low.length = old.size)
    (hhigh : high.length = old.size)
    (hmin : ∀ odim ∈ old.dims, LeastOf (odim.rawColumn en pts) (odim.rawIn en low))
    (hmax : ∀ odim ∈ old.dims, GreatestOf (odim.rawColumn en pts) (odim.rawIn en high)) :
    LeastOf (dim.rawColumn en (pts.map (moved P old new dflt)))
        (dim.rawIn en (moved P old new dflt low)) ∧
      GreatestOf (dim.rawColumn en (pts.map (moved P old new dflt)))
        (dim.rawIn en (moved P old new dflt high)) := by
  have hcolumn : dim.rawColumn en (pts.map (moved P old new dflt)) =
      pts.map fun pt => dim.rawIn en (moved P old new dflt pt) := by
    rw [PcDimension.rawColumn, List.map_map]
    rfl
  rw [hcolumn]
  cases hlike : likeOf old dim with
  | none =>
      -- the default is the only number
      have hdefault : ∀ pt : Bytes, pt.length = old.size →
          dim.rawIn en (moved P old new dflt pt) =
            dim.interpretation.number en (dim.stored P dflt) := by
        intro pt hpt
        rw [rawIn_moved hmatch hd en hpt, hlike]
      obtain ⟨pt, hpt⟩ := List.exists_mem_of_ne_nil _ hne
      have hmem := List.mem_map_of_mem (f := fun pt => dim.rawIn en (moved P old new dflt pt)) hpt
      rw [hdefault pt (hwidth pt hpt)] at hmem
      rw [hdefault low hlow, hdefault high hhigh]
      refine ⟨⟨hmem, fun x hx => ?_⟩, hmem, fun x hx => ?_⟩
      all_goals
        obtain ⟨qt, hqt, rfl⟩ := List.mem_map.mp hx
        exact le_of_eq (by simp only [hdefault qt (hwidth qt hqt)])
  | some odim =>
      have hraw : ∀ pt : Bytes, pt.length = old.size →
          dim.rawIn en (moved P old new dflt pt) = odim.rawIn en pt := by
        intro pt hpt
        rw [rawIn_moved hmatch hd en hpt, hlike]
      have hsame : (pts.map fun pt => dim.rawIn en (moved P old new dflt pt)) =
          odim.rawColumn en pts := List.map_congr_left fun pt hpt => hraw pt (hwidth pt hpt)
      rw [hsame, hraw low hlow, hraw high hhigh]
      have hodim := mem_of_likeOf hlike
      exact ⟨hmin odim hodim, hmax odim hodim⟩

end Moved

/-- A summary is moved with the points. -/
theorem Summarizes.moved {en : Endian} {old new : PcSchema} {pts : List Bytes} {b : PcBounds}
    {st st' : PcStats} (h : Summarizes en old pts b st) (hnew : new.Integral)
    (hmatch : Matches old new) {dflt : ℚ} (hne : pts ≠ [])
    (hwidth : ∀ pt ∈ pts, pt.length = old.size) (hover : StatsOver new st')
    (hmin : st'.min.data = Pointcloud.moved P old new dflt st.min.data)
    (hmax : st'.max.data = Pointcloud.moved P old new dflt st.max.data) {xdim ydim : PcDimension}
    (hxdim : new.xdimension = some xdim) (hydim : new.ydimension = some ydim)
    (hx : xdim ∈ new.dims) (hy : ydim ∈ new.dims) :
    Summarizes en new (pts.map (Pointcloud.moved P old new dflt))
      (boundsIn en xdim ydim st'.min.data st'.max.data) st' := by
  have hextremes : ∀ dim ∈ new.dims,
      LeastOf (dim.rawColumn en (pts.map (Pointcloud.moved P old new dflt)))
          (dim.rawIn en st'.min.data) ∧
        GreatestOf (dim.rawColumn en (pts.map (Pointcloud.moved P old new dflt)))
          (dim.rawIn en st'.max.data) := by
    intro dim hd
    rw [hmin, hmax]
    exact rawExtremes_moved hmatch hd hne hwidth (by rw [st.min.length_eq, h.stats_over.1])
      (by rw [st.max.length_eq, h.stats_over.2.1]) h.min h.max
  have hvalues : ∀ dim ∈ new.dims,
      LeastOf (dim.column en (pts.map (Pointcloud.moved P old new dflt)))
          (dim.valueIn en st'.min.data) ∧
        GreatestOf (dim.column en (pts.map (Pointcloud.moved P old new dflt)))
          (dim.valueIn en st'.max.data) := by
    intro dim hd
    obtain ⟨hleast, hgreatest⟩ := hextremes dim hd
    rw [column_eq]
    exact ⟨hleast.map (hnew.monotone hd), hgreatest.map (hnew.monotone hd)⟩
  exact ⟨exactBounds_of_dims hxdim hydim (hvalues xdim hx) (hvalues ydim hy), hover,
    fun dim hd => (hextremes dim hd).1, fun dim hd => (hextremes dim hd).2⟩

end Pointcloud
