/-
Pointcloud.Patch.BuildTheorems — patches built point by point.

The patch denotes the points that were added to it: their records stand at the
front of a block with room for `maxpoints` of them, and the bounds have been
widened to each. The block is doubled when it is full, so that a patch that was
made without room never gets any.
-/
import Pointcloud.Patch.DatasizeTheorems
import Pointcloud.Patch.StoredStatsTheorems

namespace Pointcloud

open Pointcloud.Base

variable {P : Platform}

/-! ## One point -/

/-- What holds of a patch after points were added: `made` is the room that it was
made with. -/
structure Filled (en : Endian) (s : PcSchema) (xdim ydim : PcDimension) (made : Nat)
    (pts : List Bytes) (c : PcPatchUncompressed) : Prop where
  growing : Growing made c
  schema_eq : c.schema = s
  writable : c.readonly = false
  npoints_eq : c.npoints = pts.length
  width : ∀ pt ∈ pts, pt.length = s.size
  front : c.data.content.take (pts.length * s.size) = pts.flatten
  bounds_eq : c.bounds = boundsOf en xdim ydim pts

/-- The room for points after the block was doubled `j` times can be allocated. -/
def CanGrow (s : PcSchema) (made n : Nat) : Prop :=
  ∀ j, made * 2 ^ j < n → s.size * (made * 2 ^ (j + 1)) < 9223372036854775808

/-- The block that the point is copied into begins with what was there. -/
theorem roomier_ok {c : PcPatchUncompressed} {made : Nat} (hc : Growing made c)
    (hlt : c.npoints < 2147483648)
    (hroom : c.npoints = c.maxpoints → c.schema.size * (c.maxpoints * 2) < 9223372036854775808) :
    ∃ d, c.roomier = .ok d ∧ d.readonly = c.readonly ∧ d.bounds = c.bounds ∧
      c.data.content <+: d.data.content ∧
      d.maxpoints = if c.npoints = c.maxpoints then c.maxpoints * 2 else c.maxpoints := by
  unfold PcPatchUncompressed.roomier
  split
  · next hfull =>
      have hdouble : uint32 (c.maxpoints * 2) = c.maxpoints * 2 := uint32_of_lt (by omega)
      have hle : c.data.content.length ≤ c.maxpoints * 2 * c.schema.size := by
        rw [hc.length_eq]
        exact Nat.mul_le_mul_right _ (Nat.le_mul_of_pos_right _ (by decide))
      have halloc := pcalloc_ok (Nat.mul_comm _ _ ▸ hroom hfull)
      simp only [hdouble, pcrealloc, halloc, ok_bind, pure_eq_ok]
      refine ⟨_, rfl, rfl, rfl, ?_, rfl⟩
      rw [content_bufOf, List.take_append, List.take_of_length_le hle]
      exact List.prefix_append _ _
  · next hroomy => exact ⟨c, rfl, rfl, rfl, List.prefix_rfl, rfl⟩

/-- Adding a point of the same format. -/
theorem pcPatchUncompressedAddPoint_eq {c : PcPatchUncompressed} {pt : PcPoint}
    (hpcid : c.schema.pcid = pt.schema.pcid) (hwritable : c.readonly = false) :
    pcPatchUncompressedAddPoint P c pt = (do
      let d ← c.roomier
      let src ← readAt pt.data 0 c.schema.size
      let data ← writeAt d.data.content (c.schema.size * d.npoints : Nat) src
      let x ← pcPointGetCoordinate P.endian pt.data 0 pt.schema.xdimension
      let y ← pcPointGetCoordinate P.endian pt.data 0 pt.schema.ydimension
      return { d with npoints := d.npoints + 1, bounds := d.bounds.widen x y, data := bufOf data })
      := by
  unfold pcPatchUncompressedAddPoint
  rw [if_neg (by simpa using hpcid), if_neg (by simp [hwritable])]
  rfl

theorem boundsOf_append (en : Endian) (xdim ydim : PcDimension) (pts : List Bytes) (pt : Bytes) :
    boundsOf en xdim ydim (pts ++ [pt]) =
      (boundsOf en xdim ydim pts).widen (xdim.valueIn en pt) (ydim.valueIn en pt) := by
  have hwiden := foldl_widen_eq [(xdim.valueIn en pt, ydim.valueIn en pt)]
    (boundsOf en xdim ydim pts)
  rw [List.foldl_cons, List.foldl_nil] at hwiden
  rw [hwiden]
  simp [boundsOf, PcDimension.column]

/-- A new patch can be written. -/
theorem writable_of_make {s : PcSchema} {n : Nat} {c : PcPatchUncompressed}
    (h : pcPatchUncompressedMake s n = .ok c) : c.readonly = false := by
  rw [pcPatchUncompressedMake, if_neg (Nat.ne_of_gt s.size_pos)] at h
  obtain ⟨data, -, h⟩ := bind_eq_ok.mp h
  cases h
  rfl

section Building

variable {s : PcSchema} {xdim ydim : PcDimension} (hxdim : s.xdimension = some xdim)
  (hydim : s.ydimension = some ydim) (hx : xdim ∈ s.dims) (hy : ydim ∈ s.dims) {made : Nat}

include hxdim hydim hx hy

/-- A point is added behind the others. -/
theorem Filled.add {pts : List Bytes} {c : PcPatchUncompressed}
    (h : Filled P.endian s xdim ydim made pts c) (hmade : 1 ≤ made) {pt : PcPoint}
    (hpt : pt.schema = s) (hlt : pts.length < 2147483648)
      (hgrow : CanGrow s made (pts.length + 1)) :
    ∃ c', pcPatchUncompressedAddPoint P c pt = .ok c' ∧
      Filled P.endian s xdim ydim made (pts ++ [pt.data]) c' := by
  obtain ⟨hgrowing, hschema, hwritable, hnpoints, hwidth, hfront, hbounds⟩ := h
  obtain ⟨j, hj, -⟩ := hgrowing.grown
  have hle := hgrowing.npoints_le
  have hdata : pt.data.length = s.size := by rw [pt.length_eq, hpt]
  have hroom : c.npoints = c.maxpoints →
      c.schema.size * (c.maxpoints * 2) < 9223372036854775808 := by
    intro hfull
    rw [hschema, hj, Nat.mul_assoc, ← pow_succ]
    exact hgrow j (by omega)
  obtain ⟨d, hd, hdwritable, hdbounds, hdprefix, hdmax⟩ := roomier_ok hgrowing (by omega) hroom
  obtain ⟨hdschema, hdnpoints, hdsize, hdlen, -⟩ := roomier_fields hgrowing hd
  -- there is room for one more point
  have hmore : pts.length + 1 ≤ d.maxpoints := by
    have hpos : 1 ≤ made * 2 ^ j := Nat.mul_pos hmade (Nat.two_pow_pos j)
    split at hdmax <;> omega
  have hend : s.size * pts.length + s.size ≤ d.data.content.length := by
    rw [hdlen, hschema, ← Nat.mul_succ, Nat.mul_comm]
    exact Nat.mul_le_mul_right _ hmore
  have hdfront : d.data.content.take (s.size * pts.length) = pts.flatten := by
    obtain ⟨rest, hrest⟩ := hdprefix
    rw [← hrest, List.take_append_of_le_length, Nat.mul_comm, hfront]
    rw [hgrowing.length_eq, hschema, Nat.mul_comm]
    exact Nat.mul_le_mul_right _ (by omega)
  have hadd : pcPatchUncompressedAddPoint P c pt = _ :=
    pcPatchUncompressedAddPoint_eq (by rw [hschema, hpt]) hwritable
  have hread : readAt pt.data 0 s.size = .ok pt.data := by
    have hget : readAt pt.data ((0 : Nat) : Int) s.size = _ := readAt_ok (by omega)
    rwa [List.drop_zero, List.take_of_length_le (by omega)] at hget
  have hvalue : ∀ dim ∈ s.dims,
      pcPointGetDoubleAt P.endian pt.data 0 dim = .ok (dim.valueIn P.endian pt.data) := by
    intro dim hdim
    have hget : pcPointGetDoubleAt P.endian pt.data ((0 : Nat) : Int) dim = _ :=
      pcPointGetDoubleAt_ok hdim (by omega)
    rwa [List.drop_zero, List.take_of_length_le (by omega)] at hget
  rw [hd, ok_bind, hschema, hread, ok_bind, hdnpoints, hnpoints,
    writeAt_ok (by rw [hdata]; exact hend), ok_bind, hpt, hxdim, hydim, pcPointGetCoordinate,
    pcPointGetCoordinate, hvalue xdim hx, ok_bind, hvalue ydim hy, ok_bind, pure_eq_ok] at hadd
  obtain ⟨hgrowing', hschema', hnpoints'⟩ := growing_addPoint hgrowing hadd
  refine ⟨_, hadd, ⟨hgrowing', hschema'.trans hschema, hdwritable.trans hwritable, ?_, ?_, ?_, ?_⟩⟩
  · rw [hnpoints', hnpoints, List.length_append, List.length_singleton]
  · intro r hr
    rcases List.mem_append.mp hr with hr | hr
    · exact hwidth r hr
    · rw [List.mem_singleton.mp hr, hdata]
  · rw [content_bufOf, hdfront, List.flatten_append, List.flatten_singleton]
    refine List.take_left' ?_
    rw [List.length_append, length_flatten_of_width hwidth, hdata, List.length_append,
      List.length_singleton, Nat.succ_mul]
  · rw [boundsOf_append, ← hbounds, hdbounds]

/-- So are all points of a list. -/
theorem Filled.addAll {pts : List PcPoint} : ∀ {before : List Bytes} {c : PcPatchUncompressed},
    Filled P.endian s xdim ydim made before c → 1 ≤ made → (∀ pt ∈ pts, pt.schema = s) →
    before.length + pts.length < 2147483648 →
    CanGrow s made (before.length + pts.length) →
    ∃ c', pts.foldlM (pcPatchUncompressedAddPoint P) c = .ok c' ∧
      Filled P.endian s xdim ydim made (before ++ pts.map PcPoint.data) c' := by
  induction pts with
  | nil =>
      intro before c h _ _ _ _
      exact ⟨c, rfl, by simpa using h⟩
  | cons pt pts ih =>
      intro before c h hmade hpts hlt hgrow
      rw [List.length_cons] at hlt hgrow
      obtain ⟨d, hd, hfilled⟩ := h.add hxdim hydim hx hy hmade (hpts pt (by simp)) (by omega)
        fun j hj => hgrow j (by omega)
      have hcount : (before ++ [pt.data]).length + pts.length =
        before.length + (pts.length + 1) := by
        rw [List.length_append, List.length_singleton]
        omega
      obtain ⟨c', hc', hall⟩ := ih hfilled hmade (fun p hp => hpts p (by simp [hp]))
        (by rw [hcount]; exact hlt) (by rw [hcount]; exact hgrow)
      refine ⟨c', ?_, by simpa using hall⟩
      rw [List.foldlM_cons, hd, ok_bind, hc']

/-- Building a patch of points, where there is room for them. -/
theorem build_ok (made : Nat) (pts : List PcPoint) (hpts : ∀ pt ∈ pts, pt.schema = s)
    (hlt : pts.length < 2147483648) (hroom : s.size * made < 9223372036854775808)
    (hmade : pts ≠ [] → 1 ≤ made) (hgrow : CanGrow s made pts.length) :
    ∃ c, pcPatchUncompressedBuild P s made pts = .ok c ∧
      Filled P.endian s xdim ydim made (pts.map PcPoint.data) c := by
  obtain ⟨c, hc, hs, -, hb, -⟩ := pcPatchUncompressedMake_ok hroom
  have hnew : Filled P.endian s xdim ydim made [] c :=
    ⟨growing_made hc, hs, writable_of_make hc, (pcPatchUncompressedMake_fields hc).2.1, by simp,
      by simp, hb⟩
  rw [pcPatchUncompressedBuild, hc, ok_bind]
  rcases List.eq_nil_or_concat pts with rfl | ⟨_, _, hsplit⟩
  · exact ⟨c, rfl, hnew⟩
  · exact hnew.addAll hxdim hydim hx hy (hmade (by simp [hsplit])) hpts (by simpa using hlt)
      (by simpa using hgrow)

end Building

/-! ## What was allocated -/

/-- A block that was doubled has been allocated. -/
theorem allocated_addPoint {c c' : PcPatchUncompressed} {pt : PcPoint}
    (hc : c.data.content.length < 9223372036854775808)
    (h : pcPatchUncompressedAddPoint P c pt = .ok c') :
    c'.data.content.length < 9223372036854775808 := by
  unfold pcPatchUncompressedAddPoint at h
  split at h
  · exact absurd h (raise_ne_ok _ c')
  split at h
  · exact absurd h (raise_ne_ok _ c')
  obtain ⟨d, hd, h⟩ := bind_eq_ok.mp h
  obtain ⟨src, -, h⟩ := bind_eq_ok.mp h
  obtain ⟨data, hdata, h⟩ := bind_eq_ok.mp h
  obtain ⟨x, -, h⟩ := bind_eq_ok.mp h
  obtain ⟨y, -, h⟩ := bind_eq_ok.mp h
  cases h
  rw [content_bufOf, length_of_writeAt hdata]
  split at hd
  · obtain ⟨data', hdata', hd⟩ := bind_eq_ok.mp hd
    cases hd
    obtain ⟨grown, hgrown, -⟩ := bind_eq_ok.mp hdata'
    rw [content_bufOf, length_of_pcrealloc hdata']
    unfold pcalloc at hgrown
    split at hgrown
    · assumption
    · exact absurd hgrown (fault_ne_ok grown)
  · cases hd
    exact hc

theorem allocated_addPoints {pts : List PcPoint} : ∀ {c c' : PcPatchUncompressed},
    c.data.content.length < 9223372036854775808 →
    pts.foldlM (pcPatchUncompressedAddPoint P) c = .ok c' →
    c'.data.content.length < 9223372036854775808 := by
  induction pts with
  | nil =>
      intro c c' hc h
      cases h
      exact hc
  | cons pt pts ih =>
      intro c c' hc h
      rw [List.foldlM_cons] at h
      obtain ⟨d, hd, h⟩ := bind_eq_ok.mp h
      exact ih (allocated_addPoint hc hd) h

/-- The room of a patch that was built could be allocated, and is enough. -/
theorem room_of_build {s : PcSchema} {made : Nat} {pts : List PcPoint} {c : PcPatchUncompressed}
    (h : pcPatchUncompressedBuild P s made pts = .ok c) :
    ∃ j, pts.length ≤ made * 2 ^ j ∧ s.size * (made * 2 ^ j) < 9223372036854775808 := by
  obtain ⟨c', hmade, h⟩ := bind_eq_ok.mp h
  obtain ⟨hs, hn, -, -, hlen⟩ := pcPatchUncompressedMake_fields hmade
  obtain ⟨hgrowing, hschema, hnpoints⟩ := growing_addPoints (growing_made hmade) h
  have hallocated := allocated_addPoints
    (by rw [hlen]; exact room_of_pcPatchUncompressedMake hmade) h
  obtain ⟨j, hj, -⟩ := hgrowing.grown
  have hle := hgrowing.npoints_le
  rw [hgrowing.length_eq, hschema, hs, hj, Nat.mul_comm] at hallocated
  exact ⟨j, by omega, hallocated⟩

/-! ## Building -/

/-- The bounds are the extremes of x and y of points. -/
def ExactBounds (en : Endian) (s : PcSchema) (pts : List Bytes) (b : PcBounds) : Prop :=
  (∀ dim, s.xdimension = some dim →
    LeastOf (dim.column en pts) b.xmin ∧ GreatestOf (dim.column en pts) b.xmax) ∧
  ∀ dim, s.ydimension = some dim →
    LeastOf (dim.column en pts) b.ymin ∧ GreatestOf (dim.column en pts) b.ymax

/-- A patch that points were added to: they stand in the block that is allocated, in
order, and the bounds are theirs. -/
structure Built (en : Endian) (s : PcSchema) (pts : List PcPoint) (c : PcPatchUncompressed) :
    Prop where
  schema_eq : c.schema = s
  npoints_le : c.npoints ≤ c.maxpoints
  length_eq : c.data.content.length = c.maxpoints * s.size
  holds : c.Holds (pts.map PcPoint.data)
  bounds : pts ≠ [] → ExactBounds en s (pts.map PcPoint.data) c.bounds

/-- So it is after every call. -/
def BuildsRight (P : Platform) (s : PcSchema) (made : Nat) (pts : List PcPoint) : Prop :=
  ∀ l, l <+: pts → ∃ c, pcPatchUncompressedBuild P s made l = .ok c ∧ Built P.endian s l c

/-- There is room from the start, all blocks can be allocated, and the first point is
within the bounds of an empty patch. -/
structure BuildCondition (P : Platform) (s : PcSchema) (made : Nat)
    (pts : List PcPoint) : Prop where
  room : s.size * made < 9223372036854775808
  made_pos : pts ≠ [] → 1 ≤ made
  grows : CanGrow s made pts.length
  bounded : ∀ pt ∈ pts.head?, ∀ dim, (s.xdimension = some dim ∨ s.ydimension = some dim) →
    -dblMax ≤ dim.valueIn P.endian pt.data ∧ dim.valueIn P.endian pt.data ≤ dblMax

/-- The bounds are exact where some point is within those of an empty patch. -/
theorem exactBounds_boundsOf_iff {en : Endian} {s : PcSchema} {xdim ydim : PcDimension}
    (hxdim : s.xdimension = some xdim) (hydim : s.ydimension = some ydim) {pts : List Bytes}
    (hne : pts ≠ []) : ExactBounds en s pts (boundsOf en xdim ydim pts) ↔
      ∀ dim, (s.xdimension = some dim ∨ s.ydimension = some dim) →
        (∃ x ∈ dim.column en pts, x ≤ dblMax) ∧ ∃ x ∈ dim.column en pts, -dblMax ≤ x := by
  have hcolumn : ∀ dim : PcDimension, dim.column en pts ≠ [] := by
    intro dim
    simpa [PcDimension.column] using hne
  simp only [ExactBounds, hxdim, hydim, Option.some.injEq, forall_eq', boundsOf,
    leastOf_foldl_iff (hcolumn _), greatestOf_foldl_iff (hcolumn _), or_imp, forall_and]
  tauto

/-- What is left to show are the bounds. -/
theorem Filled.built_iff {s : PcSchema} {xdim ydim : PcDimension} {made : Nat}
    {pts : List PcPoint} {c : PcPatchUncompressed} (hlt : pts.length < 4294967296)
    (h : Filled P.endian s xdim ydim made (pts.map PcPoint.data) c) :
    Built P.endian s pts c ↔ (pts ≠ [] → ExactBounds P.endian s (pts.map PcPoint.data)
      (boundsOf P.endian xdim ydim (pts.map PcPoint.data))) := by
  rw [← h.bounds_eq]
  refine ⟨fun hbuilt => hbuilt.bounds, fun hbounds => ?_⟩
  have hnpoints := h.npoints_eq
  have hfront := h.front
  have hlen := h.growing.length_eq
  rw [h.schema_eq] at hlen
  refine ⟨h.schema_eq, h.growing.npoints_le, hlen, ⟨?_, ?_, ?_⟩, hbounds⟩
  · rw [hnpoints, List.length_map]
    exact hlt
  · rw [hlen, h.schema_eq]
    exact Nat.mul_le_mul_right _ h.growing.npoints_le
  · rw [h.schema_eq, hnpoints, ← records_take _ _ _ _ (Nat.le_refl _), hfront]
    exact records_flatten h.width

/-- A patch is built right from any room, point by point, exactly under these conditions. -/
theorem pcPatchUncompressedAddPoint_builds_iff {s : PcSchema} (hvalid : s.Valid) {made : Nat}
    {pts : List PcPoint} (hpts : ∀ pt ∈ pts, pt.schema = s) (hlt : pts.length < 2147483648) :
    BuildsRight P s made pts ↔ BuildCondition P s made pts := by
  obtain ⟨xdim, hx, hxdim⟩ := hvalid.xdimension
  obtain ⟨ydim, hy, hydim⟩ := hvalid.ydimension
  have hbounds : ∀ l : List PcPoint, l ≠ [] →
      (ExactBounds P.endian s (l.map PcPoint.data)
        (boundsOf P.endian xdim ydim (l.map PcPoint.data)) ↔
      ∀ dim, (s.xdimension = some dim ∨ s.ydimension = some dim) →
        (∃ x ∈ dim.column P.endian (l.map PcPoint.data), x ≤ dblMax) ∧
          ∃ x ∈ dim.column P.endian (l.map PcPoint.data), -dblMax ≤ x) :=
    fun l hl => exactBounds_boundsOf_iff hxdim hydim (by simpa using hl)
  constructor
  · intro hright
    -- what was run shows the room that there was
    have hroom : s.size * made < 9223372036854775808 := by
      obtain ⟨c, hc, -⟩ := hright [] List.nil_prefix
      obtain ⟨c', hmade, -⟩ := bind_eq_ok.mp hc
      exact room_of_pcPatchUncompressedMake hmade
    have hmade : pts ≠ [] → 1 ≤ made := by
      intro hne
      obtain ⟨c, hc, -⟩ := hright pts List.prefix_rfl
      obtain ⟨j, hle, -⟩ := room_of_build hc
      have hpos := List.length_pos_iff.mpr hne
      exact Nat.pos_of_mul_pos_right (Nat.lt_of_lt_of_le hpos hle)
    have hgrows : CanGrow s made pts.length := by
      intro j hj
      obtain ⟨c, hc, -⟩ := hright (pts.take (made * 2 ^ j + 1)) (List.take_prefix _ _)
      obtain ⟨i, hle, halloc⟩ := room_of_build hc
      rw [List.length_take, Nat.min_eq_left hj] at hle
      have hlarger : 2 ^ j < 2 ^ i := Nat.lt_of_mul_lt_mul_left hle
      have hij : j + 1 ≤ i := (Nat.pow_lt_pow_iff_right (by decide)).mp hlarger
      have hpow : made * 2 ^ (j + 1) ≤ made * 2 ^ i :=
        Nat.mul_le_mul_left _ (Nat.pow_le_pow_right (by decide) hij)
      exact Nat.lt_of_le_of_lt (Nat.mul_le_mul_left _ hpow) halloc
    refine ⟨hroom, hmade, hgrows, ?_⟩
    intro pt hpt dim hdim
    obtain ⟨rest, rfl⟩ := List.head?_eq_some_iff.mp hpt
    obtain ⟨c, hc, hbuilt⟩ := hright [pt] ⟨rest, rfl⟩
    obtain ⟨c', hc', hfilled⟩ := build_ok hxdim hydim hx hy (P := P) made [pt]
      (by simpa using hpts pt (by simp)) (by simp) hroom (fun _ => hmade (by simp))
      fun j hj => hgrows j (Nat.lt_of_lt_of_le hj (by simp))
    rw [hc, Except.ok.injEq] at hc'
    rw [← hc'] at hfilled
    have hexact := (hfilled.built_iff (by simp)).mp hbuilt (List.cons_ne_nil pt [])
    simpa [PcDimension.column, and_comm] using
      (hbounds [pt] (List.cons_ne_nil pt [])).mp hexact dim hdim
  · rintro ⟨hroom, hmade, hgrows, hbounded⟩ l ⟨rest, rfl⟩
    rw [List.length_append] at hlt
    obtain ⟨c, hc, hfilled⟩ := build_ok hxdim hydim hx hy (P := P) made l
      (fun pt hpt => hpts pt (by simp [hpt])) (by omega) hroom
      (fun hne => hmade (by simp [hne]))
      fun j hj => hgrows j (Nat.lt_of_lt_of_le hj (by simp))
    refine ⟨c, hc, (hfilled.built_iff (by omega)).mpr fun hne => ?_⟩
    refine (hbounds l hne).mpr fun dim hdim => ?_
    obtain ⟨pt, l', rfl⟩ := List.exists_cons_of_ne_nil hne
    obtain ⟨hlow, hhigh⟩ := hbounded pt rfl dim hdim
    have hmem : dim.valueIn P.endian pt.data ∈
        dim.column P.endian ((pt :: l').map PcPoint.data) := List.mem_cons_self
    exact ⟨⟨_, hmem, hhigh⟩, _, hmem, hlow⟩

/-- Three points are added to a patch that was made for one. -/
theorem pcPatchUncompressedAddPoint_builds_iff_witness :
    BuildsRight Platform.plain smallPoint.schema 1 [smallPoint, smallPoint, smallPoint] := by
  refine (pcPatchUncompressedAddPoint_builds_iff ⟨rfl, rfl⟩ (by simp) (by simp)).mpr
    ⟨by decide, fun _ => Nat.le_refl 1, fun j hj => ?_, fun pt hpt dim hdim => ?_⟩
  · have hsmall : smallPoint.schema.size = 2 := rfl
    have hbound : 1 * 2 ^ j < 3 := hj
    rw [hsmall, pow_succ]
    omega
  · obtain rfl : pt = smallPoint := (Option.mem_some.mp hpt).symm
    have hvalue : ∀ dim ∈ smallPoint.schema.dims,
        -dblMax ≤ dim.valueIn .little smallPoint.data ∧
          dim.valueIn .little smallPoint.data ≤ dblMax := by
      decide +kernel
    rcases hdim with hdim | hdim
    · exact hvalue dim (List.mem_of_getElem? (i := 0) hdim)
    · exact hvalue dim (List.mem_of_getElem? (i := 1) hdim)

/-- A patch that was made for no points cannot take one: the point is written
outside of its block. -/
theorem pcPatchUncompressedAddPoint_no_room :
    pcPatchUncompressedBuild Platform.plain smallPoint.schema 0 [smallPoint] = fault ∧
      ¬ BuildsRight Platform.plain smallPoint.schema 0 [smallPoint] := by
  refine ⟨by rfl, fun hright => ?_⟩
  obtain ⟨c, hc, -⟩ := hright [smallPoint] List.prefix_rfl
  obtain ⟨j, hle, -⟩ := room_of_build hc
  simp at hle

end Pointcloud
