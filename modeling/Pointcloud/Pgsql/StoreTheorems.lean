/-
Pointcloud.Pgsql.StoreTheorems — what is stored stands for a sequence of points.

`SerializedPatch.Represents` says so: what is stored is a patch that holds the points
and has their summary, and its pcid leads to their schema. Such a patch is read as one
that holds the same points (`SerializedPatch.Represents.read`), and what is written of
it stands for them again (`PcPatch.Storable.write`). Points are not stored with the
schema, so they may be read under another one with the same dimensions
(`Stored.represents_under`).
-/
import Pointcloud.Patch.DatasizeTheorems
import Pointcloud.Patch.ExactTheorems
import Pointcloud.Pgsql.EditorTheorems
import Pointcloud.Pgsql.Session

namespace Pointcloud

open Pointcloud.Base

variable {P : Platform}

/-! ## Summaries -/

/-- The bounds and two points are the extremes of points. -/
structure Extremes (en : Endian) (s : PcSchema) (pts : List Bytes) (b : PcBounds)
    (min max : Bytes) : Prop where
  bounds : ExactBounds en s pts b
  min : ∀ dim ∈ s.dims, LeastOf (dim.rawColumn en pts) (dim.rawIn en min)
  max : ∀ dim ∈ s.dims, GreatestOf (dim.rawColumn en pts) (dim.rawIn en max)

theorem Summarizes.extremesOf {en : Endian} {s : PcSchema} {pts : List Bytes} {b : PcBounds}
    {st : PcStats} (h : Summarizes en s pts b st) :
    Extremes en s pts b st.min.data st.max.data :=
  ⟨h.bounds, h.min, h.max⟩

/-- Only the data of the statistics matters. -/
theorem Extremes.summarizes {en : Endian} {s : PcSchema} {pts : List Bytes} {b : PcBounds}
    {min max : Bytes} (h : Extremes en s pts b min max) {st : PcStats} (hover : StatsOver s st)
    (hmin : st.min.data = min) (hmax : st.max.data = max) : Summarizes en s pts b st := by
  subst hmin hmax
  exact ⟨h.bounds, hover, h.min, h.max⟩

/-- Statistics with the data of others, over a schema. -/
def PcStats.over (s : PcSchema) (st : PcStats) (h : StatsWidth s st) : PcStats :=
  ⟨⟨false, s, st.min.data, h.min⟩, ⟨false, s, st.max.data, h.max⟩, ⟨false, s, st.avg.data, h.avg⟩⟩

theorem PcStats.over_statsOver {s : PcSchema} {st : PcStats} (h : StatsWidth s st) :
    StatsOver s (st.over s h) := ⟨rfl, rfl, rfl⟩

@[simp] theorem PcPatch.bounds_withStats (p : PcPatch) (stats : Option PcStats) :
    (p.withStats stats).bounds = p.bounds := by
  cases p <;> rfl

/-! ## Patches that can be stored -/

/-- A patch with points and their summary, in blocks and arrays as they are stored. -/
structure PcPatch.Storable (P : Platform) (pa : PcPatch) (pts : List Bytes) : Prop where
  kept : pa.Kept P pts
  holds : pa.Holds P pts
  sized : RecordsSized pa

/-- A patch that holds points stands for them. -/
theorem PcPatch.Holds.standsFor {pa : PcPatch} {pts : List Bytes} (h : pa.Holds P pts)
    (hfits : ∀ d, pa = .dimensional d → Fits d.schema d.npoints) : pa.StandsFor P pts := by
  cases pa with
  | uncompressed u => exact h
  | dimensional d => exact PcPatchDimensional.Holds.yieldsPoints h (hfits d rfl)
  | lazperf l => exact h.elim

/-- Uncompressed patches hold the points that they stand for. -/
theorem PcPatch.Kept.storable {u : PcPatchUncompressed} {pts : List Bytes}
    (h : PcPatch.Kept P (.uncompressed u) pts) (hsized : u.Truthful) :
    PcPatch.Storable P (.uncompressed u) pts := ⟨h, h.stands, hsized⟩

/-- A patch that can be stored can also be stored uncompressed. -/
theorem PcPatch.Storable.uncompressed {pa : PcPatch} {pts : List Bytes} (h : pa.Storable P pts)
    {u : PcPatchUncompressed} (hu : pcPatchUncompress P pa = .ok u) :
    PcPatch.Storable P (.uncompressed u) pts := by
  refine (h.kept.uncompressed hu).storable ?_
  cases pa with
  | uncompressed p =>
      cases hu
      exact h.sized
  | dimensional d => exact truthful_fromDimensional hu
  | lazperf l => exact h.holds.elim

/-- The extremes that a patch with points has. -/
theorem PcPatch.Kept.extremes {p : PcPatch} {pts : List Bytes} {st : PcStats} (h : p.Kept P pts)
    (hst : p.stats = some st) :
      Extremes P.endian p.schema pts p.bounds st.min.data st.max.data := by
  obtain ⟨st', hst', hsummary⟩ := h.summary
  cases hst.symm.trans hst'
  exact hsummary.extremesOf

theorem PcPatch.Kept.width {p : PcPatch} {pts : List Bytes} {st : PcStats} (h : p.Kept P pts)
    (hst : p.stats = some st) : StatsWidth p.schema st := by
  obtain ⟨st', hst', hsummary⟩ := h.summary
  cases hst.symm.trans hst'
  exact hsummary.stats_over.width

/-- A patch that holds points within the limits, with statistics of their extremes. -/
theorem PcPatch.Storable.of_holds {q : PcPatch} {pts : List Bytes} (st : PcStats)
    (hs : q.schema.Integral) (hne : pts ≠ [])
    (hin : ∀ pt ∈ pts, q.schema.InDoubles P.endian pt) (hholds : q.Holds P pts)
    (hsized : RecordsSized q) (hfits : ∀ d, q = .dimensional d → Fits d.schema d.npoints)
    (hst : q.stats = some st) (hover : StatsOver q.schema st)
    (hextremes : Extremes P.endian q.schema pts q.bounds st.min.data st.max.data) :
    q.Storable P pts := by
  refine ⟨⟨hs, hne, hholds.standsFor hfits, ?_, hin, st, hst, hextremes.summarizes hover rfl rfl⟩,
    hholds, hsized⟩
  rintro u rfl
  exact Nat.le_of_eq (Eq.symm hsized)

/-! ## Points put into a patch -/

/-- A list of points has the points that it is made of. -/
theorem points_of_pointlistOf {items : List PcPoint} {pl : PcPointlist}
    (h : pointlistOf items = .ok pl) : pl.points = items.map some := by
  unfold pointlistOf at h
  split at h
  · cases h
    rfl
  · exact absurd h (fault_ne_ok pl)

section Points

variable {items : List PcPoint} {s : PcSchema} {pl : PcPointlist}
  (hpl : pointlistOf items = .ok pl) (hs : ∀ pt ∈ items, pt.schema = s)

include hpl hs

/-- The condition on points that are put into a patch, of which there are some. -/
theorem exact_of_pointlist (hcond : ExactCondition P (.fromPointlist pl)) (hne : items ≠ []) :
    s.Integral ∧ ∀ pt ∈ items, s.InDoubles P.endian pt.data := by
  have hpoints := points_of_pointlistOf hpl
  obtain ⟨first, rest, rfl⟩ := List.exists_cons_of_ne_nil hne
  have hfirst := hs first (by simp)
  obtain ⟨hintegral, hin⟩ := hcond first (by rw [hpoints]; rfl)
  rw [hfirst] at hintegral hin
  refine ⟨hintegral, fun pt hpt => ?_⟩
  have hdoubles := hin pt (hpoints ▸ List.mem_map_of_mem hpt)
  rwa [← hs pt hpt, ← pt.length_eq, List.take_length, hs pt hpt] at hdoubles

/-- Points of one schema make a patch that stands for them. -/
theorem storable_of_pointlist (hintegral : s.Integral)
    (hin : ∀ pt ∈ items, s.InDoubles P.endian pt.data) {q : PcPatchUncompressed}
    (hrun : pcPatchUncompressedFromPointlist P pl = .ok q) :
    q.schema = s ∧ PcPatch.Storable P (.uncompressed q) (items.map PcPoint.data) := by
  have hpoints := points_of_pointlistOf hpl
  have hsome : pl.points.filterMap id = items := by
    rw [hpoints, List.filterMap_map, Function.id_comp, List.filterMap_some]
  have hmem : ∀ pt, some pt ∈ pl.points → pt ∈ items := fun pt hpt => by
    rw [hpoints] at hpt
    obtain ⟨pt', hpt', heq⟩ := List.mem_map.mp hpt
    exact Option.some.inj heq ▸ hpt'
  have hwhole : ∀ pt ∈ items, pt.data.take s.size = pt.data := fun pt hpt => by
    rw [List.take_of_length_le (by rw [pt.length_eq, hs pt hpt])]
  obtain ⟨first, hfirst, hqs, hkept⟩ := kept_of_fromPointlist (fun first hfirst => by
    rw [hs first (hmem first (List.mem_of_head? hfirst))]
    refine ⟨hintegral, fun pt hpt => ?_⟩
    rw [hwhole pt (hmem pt hpt)]
    exact hin pt (hmem pt hpt)) hrun
  have hfs := hs first (hmem first (List.mem_of_head? hfirst))
  rw [hsome, hfs, List.map_congr_left hwhole] at hkept
  refine ⟨hqs.trans hfs, hkept.storable ((truthful_fromPointlist_iff hrun).mpr fun pt hpt => ?_)⟩
  rw [hpoints] at hpt
  obtain ⟨pt', -, rfl⟩ := List.mem_map.mp hpt
  exact Option.some_ne_none pt'

end Points

/-! ## What is stored -/

/-- What the table of the formats promises: a row has the pcid that it is looked up by,
this is no zero, and the schema is valid. -/
structure FormatsTable (lookup : Nat → Run (Option PcSchema)) : Prop where
  pcid_eq : ∀ {pcid s}, lookup pcid = .ok (some s) → s.pcid = pcid
  pcid_ne : ∀ {pcid s}, lookup pcid = .ok (some s) → pcid ≠ 0
  valid : ∀ {pcid s}, lookup pcid = .ok (some s) → s.Valid

theorem schemaFromPcid_eq_ok {lookup : Nat → Run (Option PcSchema)} {pcid : Nat} {s : PcSchema} :
    schemaFromPcid lookup pcid = .ok s ↔ lookup pcid = .ok (some s) := by
  unfold schemaFromPcid
  cases lookup pcid with
  | error e => simp
  | ok found =>
      cases found with
      | none => simp
      | some s' => simp

/-- A serialized patch stands for a sequence of points: it is what is stored for a patch
that stands for them, and its pcid leads to their schema. -/
structure SerializedPatch.Represents (P : Platform) (lookup : Nat → Run (Option PcSchema))
    (sp : SerializedPatch) (ps : PointSequence) : Prop where
  found : lookup sp.pcid = .ok (some ps.schema)
  stored : ∃ p st, Stored P ps.schema ps.points p st sp ∧ p.Kept P ps.points

section Stored

variable {lookup : Nat → Run (Option PcSchema)}

/-- What is stored stands for points, if the bounds and the statistics are their
extremes. -/
theorem Stored.represents {s : PcSchema} {pts : List Bytes} {p : PcPatch} {st : PcStats}
    {sp : SerializedPatch} (h : Stored P s pts p st sp) (hs : s.Integral) (hne : pts ≠ [])
    (hin : ∀ pt ∈ pts, s.InDoubles P.endian pt)
    (hfits : ∀ d, p = .dimensional d → Fits d.schema d.npoints)
    (hextremes : Extremes P.endian s pts p.bounds st.min.data st.max.data)
    (hfound : lookup s.pcid = .ok (some s)) : sp.Represents P lookup ⟨s, pts⟩ := by
  obtain ⟨rfl, rfl, hholds, hst, hwidth, hsized, hlt⟩ := h
  have hover := PcStats.over_statsOver hwidth
  refine ⟨hfound, p.withStats (some (st.over p.schema hwidth)), st.over p.schema hwidth, ?_, ?_⟩
  · cases p with
    | uncompressed u => exact ⟨rfl, rfl, hholds.withStats _, rfl, hover.width, hsized, hlt⟩
    | dimensional d => exact ⟨rfl, rfl, hholds.withStats _, rfl, hover.width, hsized, hlt⟩
    | lazperf l => exact hholds.elim
  · have hsto : (p.withStats (some (st.over p.schema hwidth))).Storable P pts := by
      refine .of_holds (st.over p.schema hwidth) (by rwa [p.schema_withStats]) hne
        (by rwa [p.schema_withStats]) (hholds.withStats _) ?_ ?_ (p.stats_withStats _) ?_ ?_
      · cases p with
        | uncompressed u => exact hsized
        | dimensional d => trivial
        | lazperf l => exact hholds.elim
      · cases p with
        | uncompressed u => exact fun d hd => by cases hd
        | dimensional d =>
            intro e he
            cases he
            exact hfits d rfl
        | lazperf l => exact hholds.elim
      · rwa [p.schema_withStats]
      · rwa [p.schema_withStats, p.bounds_withStats]
    exact hsto.kept

/-- What is stored is read as a patch that stands for the same points. -/
theorem SerializedPatch.Represents.read {sp : SerializedPatch} {ps : PointSequence}
    (h : sp.Represents P lookup ps) :
    ∃ q, readPatch P lookup sp = .ok q ∧ q.schema = ps.schema ∧ q.npoints = sp.npoints ∧
      q.Storable P ps.points := by
  obtain ⟨p, st, ⟨hsp, hschema, hholds, hst, hwidth, hsized, hlt⟩, hkept⟩ := h.stored
  obtain ⟨q, hread, htype, hq⟩ :=
    deserialize_serialized hholds hst (hschema ▸ hwidth) hsized hlt
  obtain ⟨st₁, st₂, hst₁, hst₂, hmin, hmax, -⟩ := hq.stats_eq
  cases hst.symm.trans hst₁
  rw [← hsp, hschema] at hread
  obtain ⟨-, ⟨st₃, hst₃, hover⟩, hrecords⟩ := fields_of_deserialize hread
  cases hst₂.symm.trans hst₃
  have hqs : q.schema = ps.schema := hq.schema_eq.trans hschema
  refine ⟨q, ?_, hqs, ?_, .of_holds st₂ ?_ hkept.ne ?_ hq.holds hrecords ?_ hst₂
    (hqs ▸ hover) ?_⟩
  · rw [readPatch, schemaFromPcid, h.found, ok_bind]
    exact hread
  · rw [hq.npoints_eq, hsp]
    rfl
  · exact hq.schema_eq ▸ hkept.integral
  · exact hq.schema_eq ▸ hkept.in_doubles
  · rintro d rfl
    cases p with
    | uncompressed u => exact absurd htype (by simp [PcPatch.type])
    | lazperf l => exact hholds.elim
    | dimensional e =>
        have hyields : YieldsPoints P e ps.points := hkept.stands
        have hs : d.schema = e.schema := hq.schema_eq
        have hn : d.npoints = e.npoints := hq.npoints_eq
        rw [hs, hn]
        exact hyields.fits
  · rw [hq.schema_eq, hq.bounds_eq, hmin, hmax]
    exact hkept.extremes hst

/-- What is written for a patch with points and statistics is stored, with the bounds and
the extremes of the patch. -/
theorem stored_of_holds {q : PcPatch} {pts : List Bytes} {st : PcStats} (hholds : q.Holds P pts)
    (hsized : RecordsSized q) (hst : q.stats = some st) (hwidth : StatsWidth q.schema st)
    (hfits : ∀ d, q = .dimensional d → Fits d.schema d.npoints)
    (hbelow : BelowGigabyte P q none) {sp : SerializedPatch} {userdata : Option PcDimStats}
    (hrun : pcPatchSerialize P q none = .ok (sp, userdata)) :
    ∃ w st', Stored P q.schema pts w st' sp ∧ w.npoints = q.npoints ∧ w.bounds = q.bounds ∧
      st'.min.data = st.min.data ∧ st'.max.data = st.max.data ∧
      ∀ d, w = .dimensional d → Fits d.schema d.npoints := by
  obtain ⟨r, hr, -⟩ := bind_eq_ok.mp ((pcPatchSerialize_eq hst none).symm.trans hrun)
  obtain ⟨w, st', userdata', hw⟩ := written_of_patchToSerialize hst hbelow hholds hsized
    (fun pds hpds => by cases hpds) hr
  have hwrite := (hw.serialize_ok hst hwidth).symm.trans hrun
  rw [Except.ok.injEq, Prod.mk.injEq] at hwrite
  obtain ⟨rfl, -⟩ := hwrite
  refine ⟨w, st', ⟨rfl, hw.schema_eq, hw.holds, hw.stats_eq, hw.schema_eq ▸ hw.width hwidth,
    hw.sized, hw.size_lt⟩, hw.npoints_eq, hw.bounds_eq, hw.min_eq, hw.max_eq, ?_⟩
  rintro d rfl
  have hs : d.schema = q.schema := hw.schema_eq
  have hn : d.npoints = q.npoints := hw.npoints_eq
  by_cases htype : q.type = q.schema.compression
  · have heq := (patchToSerialize_same htype none).symm.trans hw.ok
    cases heq
    exact hfits d rfl
  · rw [hs, hn]
    exact fits_of_records (hbelow.records htype)

theorem PcPatch.Storable.fits {q : PcPatch} {pts : List Bytes} (h : q.Storable P pts) :
    ∀ d, q = .dimensional d → Fits d.schema d.npoints := by
  rintro d rfl
  have hyields : YieldsPoints P d pts := h.kept.stands
  exact hyields.fits

variable (lookup) in
/-- Storing a patch that stands for points stores these. -/
theorem PcPatch.Storable.write {q : PcPatch} {pts : List Bytes} (h : q.Storable P pts)
    (hfound : lookup q.schema.pcid = .ok (some q.schema)) (hbelow : BelowGigabyte P q none)
    {sp : SerializedPatch} {userdata : Option PcDimStats}
    (hrun : pcPatchSerialize P q none = .ok (sp, userdata)) :
    sp.Represents P lookup ⟨q.schema, pts⟩ := by
  obtain ⟨st, hst, hsummary⟩ := h.kept.summary
  obtain ⟨w, st', hstored, -, hbounds, hmin, hmax, hfits⟩ :=
    stored_of_holds h.holds h.sized hst hsummary.stats_over.width h.fits hbelow hrun
  refine hstored.represents h.kept.integral h.kept.ne h.kept.in_doubles hfits ?_ hfound
  rw [hbounds, hmin, hmax]
  exact h.kept.extremes hst

end Stored

/-! ## Schemas with the same dimensions -/

section Same

variable {old new : PcSchema} (hsame : SameDimensions old new)

include hsame

theorem SameDimensions.length_eq : new.dims.length = old.dims.length := by
  rw [← List.length_map PcDimension.interpretation, ← hsame.types_eq, List.length_map]

/-- In points a dimension has the number that the one at its position has. -/
theorem SameDimensions.rawIn_eq {i : Nat} (hi : i < old.dims.length) (hi' : i < new.dims.length)
    (en : Endian) (pt : Bytes) : new.dims[i].rawIn en pt = old.dims[i].rawIn en pt := by
  have htype : new.dims[i].interpretation = old.dims[i].interpretation := by
    have := congrArg (·[i]?) hsame.types_eq
    simpa [hi, hi'] using this.symm
  have hbytes : new.dims[i].bytesIn pt = old.dims[i].bytesIn pt := by
    have := congrArg (·[i]?) (hsame.cells_eq pt)
    simpa [hi, hi'] using this.symm
  rw [PcDimension.rawIn, PcDimension.rawIn, htype, hbytes]

/-- An axis that stands at the same place, with the same scale and offset, has the same
values. -/
theorem SameDimensions.valueIn_eq {o n : PcDimension} (ho : o ∈ old.dims) (hn : n ∈ new.dims)
    (haxis : n.position = o.position ∧ n.scale = o.scale ∧ n.offset = o.offset) (en : Endian)
    (pt : Bytes) : n.valueIn en pt = o.valueIn en pt := by
  obtain ⟨i, hi, rfl⟩ := List.mem_iff_getElem.mp ho
  obtain ⟨j, hj, rfl⟩ := List.mem_iff_getElem.mp hn
  obtain ⟨hposition, hscale, hoffset⟩ := haxis
  rw [old.position_eq i hi, new.position_eq j hj] at hposition
  subst hposition
  rw [PcDimension.valueIn, PcDimension.valueIn, hsame.rawIn_eq hi hj, pcValueScaleOffset,
    pcValueScaleOffset, hscale, hoffset]

theorem SameDimensions.fits {n : Nat} (h : Fits old n) : Fits new n := by
  refine ⟨h.npoints_lt, fun dim hdim => ?_⟩
  have hmem : dim.size ∈ old.dims.map PcDimension.size :=
    hsame.sizes_eq ▸ List.mem_map_of_mem hdim
  obtain ⟨dim', hdim', hsize⟩ := List.mem_map.mp hmem
  rw [← hsize]
  exact h.size_lt dim' hdim'

end Same

/-- An axis of a schema is that of another one: it stands at the same place, with the
same scale and offset. -/
def SameAxis (o n : Option PcDimension) : Prop :=
  ∀ od nd, o = some od → n = some nd →
    nd.position = od.position ∧ nd.scale = od.scale ∧ nd.offset = od.offset

/-- The extremes do not depend on the schema, if the axes are the same. -/
theorem Extremes.under {en : Endian} {old new : PcSchema} {pts : List Bytes} {b : PcBounds}
    {min max : Bytes} (h : Extremes en old pts b min max) (hsame : SameDimensions old new)
    (hold : old.Valid) (hnew : new.Valid) (hx : SameAxis old.xdimension new.xdimension)
    (hy : SameAxis old.ydimension new.ydimension) : Extremes en new pts b min max := by
  obtain ⟨ox, hoxd, hox⟩ := hold.xdimension
  obtain ⟨oy, hoyd, hoy⟩ := hold.ydimension
  obtain ⟨nx, hnxd, hnx⟩ := hnew.xdimension
  obtain ⟨ny, hnyd, hny⟩ := hnew.ydimension
  have hcolumn : ∀ {o n : PcDimension}, o ∈ old.dims → n ∈ new.dims →
      n.position = o.position ∧ n.scale = o.scale ∧ n.offset = o.offset →
        n.column en pts = o.column en pts := fun ho hn haxis =>
    List.map_congr_left fun pt _ => hsame.valueIn_eq ho hn haxis en pt
  have hraw : ∀ (i : Nat) (hi : i < new.dims.length) (hi' : i < old.dims.length),
      new.dims[i].rawColumn en pts = old.dims[i].rawColumn en pts := fun i hi hi' =>
    List.map_congr_left fun pt _ => hsame.rawIn_eq hi' hi en pt
  have hlen := hsame.length_eq
  constructor
  · constructor
    · intro dim hdim
      cases hnx.symm.trans hdim
      rw [hcolumn hoxd hnxd (hx ox nx hox hnx)]
      exact h.bounds.1 ox hox
    · intro dim hdim
      cases hny.symm.trans hdim
      rw [hcolumn hoyd hnyd (hy oy ny hoy hny)]
      exact h.bounds.2 oy hoy
  · intro dim hdim
    obtain ⟨i, hi, rfl⟩ := List.mem_iff_getElem.mp hdim
    rw [hraw i hi (by omega), hsame.rawIn_eq (by omega) hi]
    exact h.min _ (List.getElem_mem (by omega))
  · intro dim hdim
    obtain ⟨i, hi, rfl⟩ := List.mem_iff_getElem.mp hdim
    rw [hraw i hi (by omega), hsame.rawIn_eq (by omega) hi]
    exact h.max _ (List.getElem_mem (by omega))

/-- What is stored under a schema stands for the same points under another one with the
same dimensions and axes. -/
theorem Stored.represents_under {lookup : Nat → Run (Option PcSchema)} {old new : PcSchema}
    {pts : List Bytes} {p : PcPatch} {st : PcStats} {sp : SerializedPatch}
    (h : Stored P old pts p st sp) (hsame : SameDimensions old new) (hold : old.Valid)
    (hnew : new.Integral) (hne : pts ≠ []) (hin : ∀ pt ∈ pts, new.InDoubles P.endian pt)
    (hfits : ∀ d, p = .dimensional d → Fits d.schema d.npoints)
    (hextremes : Extremes P.endian old pts p.bounds st.min.data st.max.data)
    (hx : SameAxis old.xdimension new.xdimension) (hy : SameAxis old.ydimension new.ydimension)
    (hfound : lookup new.pcid = .ok (some new)) :
    ({ sp with pcid := new.pcid } : SerializedPatch).Represents P lookup ⟨new, pts⟩ := by
  refine (h.withSchema hsame).represents hnew hne hin ?_ ?_ hfound
  · intro d hd
    cases p with
    | uncompressed u => cases hd
    | lazperf l => cases hd
    | dimensional e =>
        cases hd
        have hs : e.schema = old := h.schema_eq
        exact hsame.fits (hs ▸ hfits e rfl)
  · rw [p.bounds_withSchema]
    exact hextremes.under hsame hold hnew.valid hx hy

/-! ## Copies of schemas -/

/-- What is stored under a copy of a schema, in whatever compression, stands for the same
points under the schema. -/
theorem Stored.represents_clone {lookup : Nat → Run (Option PcSchema)} {s : PcSchema}
    {compression : PcCompression} {pts : List Bytes} {p : PcPatch} {st : PcStats}
    {sp : SerializedPatch}
    (h : Stored P { pcSchemaClone s with compression := compression } pts p st sp)
    (hnamed : ∀ dim ∈ s.dims, dim.name ≠ none) (hs : s.Integral) (hne : pts ≠ [])
    (hin : ∀ pt ∈ pts, s.InDoubles P.endian pt)
    (hfits : ∀ d, p = .dimensional d → Fits d.schema d.npoints)
    (hextremes : Extremes P.endian s pts p.bounds st.min.data st.max.data)
    (hfound : lookup s.pcid = .ok (some s)) : sp.Represents P lookup ⟨s, pts⟩ := by
  have haxis : ∀ o : Option PcDimension, SameAxis o o := fun o od nd hod hnd => by
    cases hod.symm.trans hnd
    exact ⟨rfl, rfl, rfl⟩
  have hsame : SameDimensions { pcSchemaClone s with compression := compression } s := ⟨rfl, hnamed⟩
  have hpcid : sp.pcid = s.pcid := by
    rw [h.serialized_eq, serialized, h.schema_eq]
    rfl
  have hrep := h.represents_under hsame hs.valid hs hne hin hfits
    ⟨hextremes.bounds, hextremes.min, hextremes.max⟩ (haxis _) (haxis _) hfound
  rwa [← hpcid] at hrep

section Clones

variable {lookup : Nat → Run (Option PcSchema)} {u : PcPatchUncompressed} {pts : List Bytes}
  {st : PcStats} (h : PcPatch.Storable P (.uncompressed u) pts)
  (hnamed : ∀ dim ∈ u.schema.dims, dim.name ≠ none) (hst : u.stats = some st)
  (hfound : lookup u.schema.pcid = .ok (some u.schema))

include h hnamed hst hfound

/-- Records that are stored under a copy of the schema. -/
theorem represents_copied (compression : PcCompression)
    (hbelow : BelowGigabyte P (.uncompressed { u with
      schema := { pcSchemaClone u.schema with compression := compression } }) none)
    {sp : SerializedPatch} {userdata : Option PcDimStats}
    (hrun : pcPatchSerialize P (.uncompressed { u with
      schema := { pcSchemaClone u.schema with compression := compression } }) none =
        .ok (sp, userdata)) : sp.Represents P lookup ⟨u.schema, pts⟩ := by
  have hwidth := h.kept.width hst
  have hrecords : PcPatchUncompressed.Holds u pts := h.holds
  obtain ⟨w, st', hstored, -, hbounds, hmin, hmax, hfits⟩ := stored_of_holds (P := P)
    (q := .uncompressed { u with
      schema := { pcSchemaClone u.schema with compression := compression } })
    ⟨hrecords.npoints_lt, hrecords.room, hrecords.records_eq⟩ h.sized hst
    ⟨hwidth.min, hwidth.max, hwidth.avg⟩ (fun d hd => by cases hd) hbelow hrun
  refine hstored.represents_clone hnamed h.kept.integral h.kept.ne h.kept.in_doubles hfits ?_ hfound
  rw [hbounds, hmin, hmax]
  exact h.kept.extremes hst

end Clones

end Pointcloud
