/-
Pointcloud.Pgsql.QueryTheorems — what SQL is told about stored patches.

Queries are answered from the points. The ones that fetch a part of a stored patch
only find the number of points, the extremes of a dimension and the bounding
rectangle in it, as if all points were read (`headers_exact`, `intersects_exact`).

All of it comes from `SerializedPatch.Represents sp ps`: the stored bytes stand for
the sequence of points `ps`, with their summary. Every query has a lemma under that
name, and the theorems only add that what a session has stored represents what the
session means.

A head is a slice of the stored patch, and `getHeaderX_eq` says what is in it: the
fields in front of the data, and of the data 12 bytes more than were asked for. So
the statistics are there where their size is asked for.

The rectangles of two patches meet if some x and some y lie in both ranges, which is what
`pcBoundsIntersects_iff` turns the four comparisons into.
-/
import Pointcloud.Pgsql.ArrayInputTheorems
import Pointcloud.Pgsql.SessionTheorems

namespace Pointcloud

open Pointcloud.Base

variable {P : Platform} {lookup : Nat → Run (Option PcSchema)}

/-! ## Heads -/

/-- A head has the fields of the patch, and of the data area 12 bytes more than asked
for. -/
theorem getHeaderX_eq {p : PcPatch} {pts : List Bytes} {st : PcStats} {s : PcSchema}
    {sp : SerializedPatch} (h : Stored P s pts p st sp) (extra : Nat) :
    (getHeaderX P.endian sp extra).pcid = sp.pcid ∧
      (getHeaderX P.endian sp extra).npoints = sp.npoints ∧
      (getHeaderX P.endian sp extra).compression = sp.compression ∧
      (getHeaderX P.endian sp extra).bounds = sp.bounds ∧
      (getHeaderX P.endian sp extra).data = sp.data.take (12 + extra) := by
  refine ⟨rfl, rfl, rfl, rfl, ?_⟩
  have hlen := h.length_eq
  have hsize : varsize P.endian sp.size = pcPatchSerializedSize p := by
    rw [h.serialized_eq]
    exact varsize_setVarsize P.endian h.size_lt
  simp only [getHeaderX, detoastSlice, hsize, sizeofSerializedPatch]
  unfold offsetofData at hlen ⊢
  rw [List.take_eq_take_iff]
  omega

/-- A point that is stored has the data of the point. -/
theorem pcPointSerialize_ok {pt : PcPoint} {s : PcSchema} (hpt : pt.schema = s)
    (hsize : pcStatsSize s < 1073741824 - 63) : pcPointSerialize P pt =
      .ok ⟨setVarsize P.endian (11 + s.size), s.pcid, pt.data⟩ := by
  subst hpt
  have hpalloc : palloc P (sizeofSerializedPoint - 1 + pt.schema.size) = .ok () := by
    unfold pcStatsSize at hsize
    exact palloc_ok (by unfold sizeofSerializedPoint; omega)
  have hread : readAt pt.data ((0 : Nat) : Int) pt.schema.size = .ok pt.data :=
    readAt_eq_ok.mpr ⟨.inr (by rw [pt.length_eq]; omega), by
      rw [List.drop_zero, ← pt.length_eq, List.take_length]⟩
  rw [pcPointSerialize, hpalloc, ok_bind]
  exact bind_eq_ok.mpr ⟨pt.data, hread, rfl⟩

/-- A point that was stored is read as it was. -/
theorem pcPointDeserialize_ok {s : PcSchema} {data : Bytes} (hlen : data.length = s.size)
    (hsize : pcStatsSize s < 1073741824 - 63) :
    pcPointDeserialize P.endian ⟨setVarsize P.endian (11 + s.size), s.pcid, data⟩ s =
      .ok ⟨true, s, data, hlen⟩ := by
  unfold pcStatsSize at hsize
  have hpgsize : s.size = sizeT ((varsize P.endian (setVarsize P.endian (11 + s.size)) : Int) + 1 -
      sizeofSerializedPoint) := by
    rw [varsize_setVarsize P.endian (by omega), sizeT, sizeofSerializedPoint]
    omega
  have hread : pcPointFromData s data ((0 : Nat) : Int) = _ := pcPointFromData_ok (by omega)
  rw [Int.natCast_zero] at hread
  rw [pcPointDeserialize, if_neg (not_not.mpr hpgsize)]
  simp only [hread, List.drop_zero, ← hlen, List.take_length]

/-- The points that are read from a patch have its schema. -/
theorem schema_of_pointlist {q : PcPatch} {l : List PcPoint}
    (h : pcPointlistFromPatch P q = .ok l) : ∀ pt ∈ l, pt.schema = q.schema := by
  have hread : ∀ {s : PcSchema} {data : Bytes} {n : Nat} {l : List PcPoint},
      (List.range n).mapM (fun i => pcPointFromData s data (i * s.size : Nat)) = .ok l →
        ∀ pt ∈ l, pt.schema = s := by
    intro s data n l h pt hpt
    obtain ⟨i, -, hi⟩ := exists_mem_of_mem_mapM h pt hpt
    exact schema_of_pcPointFromData hi
  cases q with
  | lazperf p => exact absurd h (raise_ne_ok _ l)
  | uncompressed p =>
      obtain ⟨_, -, h⟩ := bind_eq_ok.mp h
      exact hread h
  | dimensional d =>
      obtain ⟨plain, -, h⟩ := bind_eq_ok.mp h
      split at h
      · exact absurd h (fault_ne_ok l)
      · obtain ⟨data, -, h⟩ := bind_eq_ok.mp h
        obtain ⟨copies, -, h⟩ := bind_eq_ok.mp h
        obtain ⟨written, -, h⟩ := bind_eq_ok.mp h
        exact hread h

theorem schema_of_pointn {q : PcPatch} {n : Int} {pt : PcPoint}
    (h : pcPatchPointn P q n = .ok (some pt)) : pt.schema = q.schema := by
  unfold pcPatchPointn at h
  simp only at h
  generalize (if n < 0 then int32 (q.npoints + n) else n - 1) = i at h
  split at h
  · cases h
  · cases q with
    | lazperf p => exact absurd h (raise_ne_ok _ _)
    | uncompressed p =>
        obtain ⟨pt', hpt, h⟩ := bind_eq_ok.mp h
        cases h
        exact schema_of_pcPointFromData hpt
    | dimensional d =>
        obtain ⟨pt', hpt, h⟩ := bind_eq_ok.mp h
        cases h
        obtain ⟨made, hmade, hpt⟩ := bind_eq_ok.mp hpt
        obtain ⟨copies, -, hpt⟩ := bind_eq_ok.mp hpt
        obtain ⟨data, -, hpt⟩ := bind_eq_ok.mp hpt
        unfold pcPointMake at hmade
        split at hmade
        · exact absurd hmade (raise_ne_ok _ made)
        · unfold pcPointOf at hmade hpt
          split at hmade
          · cases hmade
            split at hpt
            · cases hpt
              rfl
            · exact absurd hpt (fault_ne_ok _)
          · exact absurd hmade (fault_ne_ok made)

/-- All points of a patch are read. -/
theorem PcPatch.Storable.pointlist_ok {q : PcPatch} {pts : List Bytes} (h : q.Storable P pts)
    (hlt : pts.length < 2147483648) :
    ∃ l, pcPointlistFromPatch P q = .ok l ∧ l.map PcPoint.data = pts := by
  have hn := h.kept.stands.npoints_eq
  have hholds := h.holds
  cases q with
  | lazperf p => exact hholds.elim
  | uncompressed p =>
      have hcount : pts.length = p.npoints := hn
      exact pcPointlistFromUncompressed_ok hholds (by omega)
  | dimensional d =>
      have hyields : YieldsPoints P d pts := h.kept.stands
      obtain ⟨l, hl, hdata⟩ := pcPointlistFromDimensional_ok hholds hyields.fits.npoints_lt
      refine ⟨l, hl, hdata.trans (recordsOf_eq hyields.width_eq fun dim hd => ?_)⟩
      rw [hyields.npoints_eq]
      exact (hyields.fits.size_lt dim hd).le

section Represents

variable {sp : SerializedPatch} {ps : PointSequence} (h : sp.Represents P lookup ps)

include h

theorem SerializedPatch.Represents.npoints_eq : sp.npoints = ps.points.length := by
  obtain ⟨q, -, -, hn, hsto⟩ := h.read
  rw [← hn, hsto.kept.stands.npoints_eq]

/-- A stored patch has less than `2 ^ 31` points. -/
theorem SerializedPatch.Represents.npoints_lt : ps.points.length < 2147483648 := by
  obtain ⟨p, st, hstored, hkept⟩ := h.stored
  have hn := hkept.stands.npoints_eq
  have hlt := hstored.size_lt
  have hsized := hstored.sized
  cases p with
  | lazperf l => exact hkept.stands.elim
  | dimensional d =>
      have hyields : YieldsPoints P d ps.points := hkept.stands
      rw [hyields.npoints_eq]
      exact hyields.fits.npoints_lt
  | uncompressed u =>
      have hsize : u.datasize = u.npoints * u.schema.size := hsized
      have hpos := Nat.mul_le_mul_left u.npoints u.schema.size_pos
      have hcount : ps.points.length = u.npoints := hn
      simp only [pcPatchSerializedSize] at hlt
      omega

/-- The statistics of the head are those of the points. -/
theorem SerializedPatch.Represents.headerStats_ok : ∃ b st,
    headerStats P lookup sp = .ok st ∧ Summarizes P.endian ps.schema ps.points b st := by
  obtain ⟨p, st, hstored, hkept⟩ := h.stored
  obtain ⟨st₀, hst₀, hsummary⟩ := hkept.summary
  cases hstored.stats_eq.symm.trans hst₀
  rw [hstored.schema_eq] at hsummary
  have hwidth := hstored.width
  -- enough is fetched for the statistics, at first or at the second time
  have hread : ∀ extra, pcStatsSize ps.schema ≤ extra → ∃ st',
      pcPatchStatsDeserialize ps.schema (getHeaderX P.endian sp extra).data = .ok st' ∧
        Summarizes P.endian ps.schema ps.points p.bounds st' := by
    intro extra hextra
    have hdata : (getHeaderX P.endian sp extra).data =
        statsBytes st ++ (p.payload P.endian ++ zeros 15).take
          (12 + extra - pcStatsSize ps.schema) := by
      rw [(getHeaderX_eq hstored extra).2.2.2.2, hstored.serialized_eq]
      change (statsBytes st ++ p.payload P.endian ++ zeros 15).take (12 + extra) = _
      rw [List.append_assoc, List.take_append, hwidth.length_statsBytes,
        List.take_of_length_le (by rw [hwidth.length_statsBytes]; omega)]
    obtain ⟨st', hst', hover, hmin, hmax, -⟩ := pcPatchStatsDeserialize_ok hwidth
      ((p.payload P.endian ++ zeros 15).take (12 + extra - pcStatsSize ps.schema))
    exact ⟨st', by rw [hdata, hst'], hsummary.extremesOf.summarizes hover hmin hmax⟩
  have hschema : schemaFromPcid lookup (getHeaderX P.endian sp 400).pcid = .ok ps.schema :=
    schemaFromPcid_eq_ok.mpr h.found
  by_cases hlarge : 400 < pcStatsSize ps.schema
  · obtain ⟨st', hst', hsum⟩ := hread (pcStatsSize ps.schema) (le_refl _)
    refine ⟨p.bounds, st', ?_, hsum⟩
    simp only [headerStats, hschema, ok_bind, if_pos hlarge, hst']
  · obtain ⟨st', hst', hsum⟩ := hread 400 (by omega)
    refine ⟨p.bounds, st', ?_, hsum⟩
    simp only [headerStats, hschema, ok_bind, if_neg hlarge, hst']

/-- The bounds of a stored patch are those of the points. -/
theorem SerializedPatch.Represents.bounds_exact :
    ExactBounds P.endian ps.schema ps.points sp.bounds := by
  obtain ⟨p, st, hstored, hkept⟩ := h.stored
  obtain ⟨st₀, -, hsummary⟩ := hkept.summary
  have hbounds : sp.bounds = p.bounds := by
    rw [hstored.serialized_eq]
    rfl
  rw [hbounds, ← hstored.schema_eq]
  exact hsummary.bounds

/-- The compression in the head is that of the patch that is read. -/
theorem SerializedPatch.Represents.compression_eq {q : PcPatch}
    (hq : readPatch P lookup sp = .ok q) : sp.compression = q.type.code := by
  obtain ⟨p, st, ⟨hsp, hschema, hholds, hst, hwidth, hsized, hlt⟩, -⟩ := h.stored
  obtain ⟨q', hread, htype, -⟩ :=
    deserialize_serialized hholds hst (hschema ▸ hwidth) hsized hlt
  rw [readPatch, schemaFromPcid_eq_ok.mpr h.found, ok_bind, ← hschema, hsp] at hq
  cases hread.symm.trans hq
  rw [htype, hsp]
  rfl

/-- The least and the greatest value of a dimension are answered from the head. -/
theorem SerializedPatch.Represents.getStat_ok {name : String} {dim : PcDimension}
    (hname : pcSchemaGetDimensionByName ps.schema name = some dim) :
    (∃ v, pcpatchGetStat P lookup sp 0 name = .ok v ∧
      LeastOf (dim.column P.endian ps.points) v) ∧
    ∃ v, pcpatchGetStat P lookup sp 1 name = .ok v ∧
      GreatestOf (dim.column P.endian ps.points) v := by
  obtain ⟨b, st, hst, hsummary⟩ := h.headerStats_ok
  obtain ⟨p, _, hstored, hkept⟩ := h.stored
  have hs : ps.schema.Integral := hstored.schema_eq ▸ hkept.integral
  have hd := mem_of_pcSchemaGetDimensionByName hname
  obtain ⟨hleast, hgreatest⟩ := hsummary.extremes hs hd
  obtain ⟨hmin, hmax, -⟩ := hsummary.stats_over
  have hvalue : ∀ pt : PcPoint, pt.schema = ps.schema →
      doubleOrError P pt name = .ok (dim.valueIn P.endian pt.data) := by
    intro pt hpt
    rw [doubleOrError, pcPointGetDoubleByName, hpt, hname]
    simp only [pcPointGetDouble_ok P.endian pt (hpt ▸ hd), ok_bind, pure_eq_ok]
  refine ⟨⟨_, ?_, hleast⟩, _, ?_, hgreatest⟩
  · rw [pcpatchGetStat, hst, ok_bind, pointOfStats, if_pos rfl, pure_eq_ok, ok_bind, hvalue _ hmin]
  · rw [pcpatchGetStat, hst, ok_bind, pointOfStats, if_neg (by decide), if_pos rfl, pure_eq_ok,
      ok_bind, hvalue _ hmax]

/-- For a name that no dimension has, an error is reported. -/
theorem SerializedPatch.Represents.getStat_error {name : String}
    (hname : pcSchemaGetDimensionByName ps.schema name = none) (statno : Int) :
    Raises (pcpatchGetStat P lookup sp statno name) := by
  obtain ⟨b, st, hst, hsummary⟩ := h.headerStats_ok
  obtain ⟨hmin, hmax, havg⟩ := hsummary.stats_over
  have hmissing : ∀ pt : PcPoint, pt.schema = ps.schema → Raises (doubleOrError P pt name) := by
    intro pt hpt
    rw [doubleOrError, pcPointGetDoubleByName, hpt, hname]
    exact raises_raise _
  rw [pcpatchGetStat, hst, ok_bind, pointOfStats]
  split_ifs
  · exact hmissing _ hmin
  · exact hmissing _ hmax
  · exact hmissing _ havg
  · exact raises_raise _

/-- There is room for the statistics of a stored patch. -/
theorem SerializedPatch.Represents.statsSize_lt : pcStatsSize ps.schema < 1073741824 - 63 := by
  obtain ⟨p, st, hstored, hkept⟩ := h.stored
  have hlt := hstored.size_lt
  have hsize := pcPatchSerializedSize_eq hstored.holds hstored.sized P.endian
  rw [hstored.schema_eq] at hsize
  omega

/-- A point of the schema is stored, and asked for a dimension, as it would be asked
itself. -/
theorem SerializedPatch.Represents.pointGetValue_eq (htable : FormatsTable lookup) {pt : PcPoint}
    (hpt : pt.schema = ps.schema) : ∃ serpt, pcPointSerialize P pt = .ok serpt ∧
      ∀ name, pcpointGetValue P lookup serpt name = doubleOrError P pt name := by
  refine ⟨_, pcPointSerialize_ok hpt h.statsSize_lt, fun name => ?_⟩
  have hfound : lookup ps.schema.pcid = .ok (some ps.schema) := by
    rw [htable.pcid_eq h.found, h.found]
  obtain ⟨readonly, schema, data, hlen⟩ := pt
  subst hpt
  rw [pcpointGetValue, schemaFromPcid_eq_ok.mpr hfound, ok_bind,
    pcPointDeserialize_ok hlen h.statsSize_lt, ok_bind]
  rfl

/-- The points of the statistics answer what the patch answers from its statistics. -/
theorem SerializedPatch.Represents.getStatPoint_ok (htable : FormatsTable lookup) (statno : Int) :
    (statno = 0 ∨ statno = 1 ∨ statno = 2 → ∃ serpt,
      pcpatchGetStatPoint P lookup sp statno = .ok serpt ∧
      ∀ name, pcpointGetValue P lookup serpt name = pcpatchGetStat P lookup sp statno name) ∧
    (¬ (statno = 0 ∨ statno = 1 ∨ statno = 2) →
      Raises (pcpatchGetStatPoint P lookup sp statno) ∧
      ∀ name, Raises (pcpatchGetStat P lookup sp statno name)) := by
  obtain ⟨b, st, hst, hsummary⟩ := h.headerStats_ok
  obtain ⟨hmin, hmax, havg⟩ := hsummary.stats_over
  constructor
  · intro hno
    obtain ⟨pt, hpt, hschema⟩ : ∃ pt, pointOfStats st statno = .ok pt ∧ pt.schema = ps.schema := by
      unfold pointOfStats
      rcases hno with rfl | rfl | rfl
      · exact ⟨st.min, rfl, hmin⟩
      · exact ⟨st.max, rfl, hmax⟩
      · exact ⟨st.avg, rfl, havg⟩
    obtain ⟨serpt, hserpt, hvalue⟩ := h.pointGetValue_eq htable hschema
    refine ⟨serpt, ?_, fun name => ?_⟩
    · rw [pcpatchGetStatPoint, hst, ok_bind, hpt, ok_bind, hserpt]
    · rw [hvalue, pcpatchGetStat, hst, ok_bind, hpt, ok_bind]
  · intro hno
    obtain ⟨msg, hmsg⟩ : Raises (pointOfStats st statno) := by
      rw [not_or, not_or] at hno
      rw [pointOfStats, if_neg hno.1, if_neg hno.2.1, if_neg hno.2.2]
      exact raises_raise _
    refine ⟨⟨msg, ?_⟩, fun name => ⟨msg, ?_⟩⟩
    · rw [pcpatchGetStatPoint, hst, ok_bind, hmsg]
      rfl
    · rw [pcpatchGetStat, hst, ok_bind, hmsg]
      rfl

/-- The points of a stored patch, one after the other. -/
theorem SerializedPatch.Represents.unnest_ok : pcpatchUnnest P lookup sp =
    .ok (ps.points.map fun data =>
      ⟨setVarsize P.endian (11 + ps.schema.size), ps.schema.pcid, data⟩) := by
  obtain ⟨q, hq, hschema, hn, hsto⟩ := h.read
  have hlt := h.npoints_lt
  have hcount := hsto.kept.stands.npoints_eq
  obtain ⟨l, hl, hdata⟩ := hsto.pointlist_ok hlt
  have hlen : l.length = q.npoints := by
    rw [← hcount, ← hdata, List.length_map]
  have hserialize : ∀ pt ∈ l, pcPointSerialize P pt =
      .ok ⟨setVarsize P.endian (11 + ps.schema.size), ps.schema.pcid, pt.data⟩ := fun pt hpt =>
    pcPointSerialize_ok ((schema_of_pointlist hl pt hpt).trans hschema) h.statsSize_lt
  have hwalk : (List.range l.length).mapM (fun nextelem => do
      let pt ← wordAt l nextelem
      pcPointSerialize P pt) = (l.take l.length).mapM (pcPointSerialize P) :=
    mapM_range_take (le_refl _) fun i pt _ hpt => by rw [wordAt_eq_ok.mpr hpt, ok_bind]
  rw [List.take_length, mapM_eq_ok_map hserialize] at hwalk
  rw [pcpatchUnnest, hq, ok_bind, hl, ok_bind, intCount_of_lt (by omega), ← hlen, ← hdata,
    List.map_map]
  exact hwalk

end Represents

/-! ## Rectangles -/

/-- Some place lies in the bounding rectangles of the points of both. -/
def RectanglesMeet (en : Endian) (s : PcSchema) (pts qts : List Bytes) : Prop :=
  ∃ xdim ydim x y, s.xdimension = some xdim ∧ s.ydimension = some ydim ∧
    InRangeOf (xdim.column en pts) x ∧ InRangeOf (xdim.column en qts) x ∧
    InRangeOf (ydim.column en pts) y ∧ InRangeOf (ydim.column en qts) y

theorem pcBoundsIntersects_iff {en : Endian} {s : PcSchema} (hs : s.Integral) {pts qts : List Bytes}
    {b c : PcBounds} (hb : ExactBounds en s pts b) (hc : ExactBounds en s qts c) :
    pcBoundsIntersects b c = true ↔ RectanglesMeet en s pts qts := by
  obtain ⟨xdim, -, hxdim⟩ := hs.valid.xdimension
  obtain ⟨ydim, -, hydim⟩ := hs.valid.ydimension
  obtain ⟨hbx, hbX⟩ := hb.1 xdim hxdim
  obtain ⟨hcx, hcX⟩ := hc.1 xdim hxdim
  obtain ⟨hby, hbY⟩ := hb.2 ydim hydim
  obtain ⟨hcy, hcY⟩ := hc.2 ydim hydim
  have hx := exists_inRangeOf_iff hbx hbX hcx hcX
  have hy := exists_inRangeOf_iff hby hbY hcy hcY
  have hcode : pcBoundsIntersects b c = true ↔
      ¬ (c.xmax < b.xmin ∨ b.xmax < c.xmin) ∧ ¬ (c.ymax < b.ymin ∨ b.ymax < c.ymin) := by
    simp only [pcBoundsIntersects, Bool.not_eq_true', Bool.or_eq_false_iff, decide_eq_false_iff_not]
    tauto
  rw [hcode, ← hx, ← hy]
  constructor
  · rintro ⟨⟨x, hpx, hqx⟩, y, hpy, hqy⟩
    exact ⟨xdim, ydim, x, y, hxdim, hydim, hpx, hqx, hpy, hqy⟩
  · rintro ⟨xdim', ydim', x, y, hxdim', hydim', hpx, hqx, hpy, hqy⟩
    cases hxdim.symm.trans hxdim'
    cases hydim.symm.trans hydim'
    exact ⟨⟨x, hpx, hqx⟩, y, hpy, hqy⟩

/-- A place that points of both have in common. -/
theorem rectanglesMeet_of_place {en : Endian} {s : PcSchema} {pts qts : List Bytes}
    {xdim ydim : PcDimension} (hx : s.xdimension = some xdim) (hy : s.ydimension = some ydim)
    {pt qt : Bytes} (hpt : pt ∈ pts) (hqt : qt ∈ qts)
    (hsame : xdim.valueIn en pt = xdim.valueIn en qt ∧ ydim.valueIn en pt = ydim.valueIn en qt) :
    RectanglesMeet en s pts qts := by
  refine ⟨xdim, ydim, xdim.valueIn en pt, ydim.valueIn en pt, hx, hy, ?_, ?_, ?_, ?_⟩
  · exact inRangeOf_self (List.mem_map_of_mem hpt)
  · rw [hsame.1]
    exact inRangeOf_self (List.mem_map_of_mem hqt)
  · exact inRangeOf_self (List.mem_map_of_mem hpt)
  · rw [hsame.2]
    exact inRangeOf_self (List.mem_map_of_mem hqt)

theorem pcBoundsIntersects_comm (b c : PcBounds) :
    pcBoundsIntersects b c = pcBoundsIntersects c b := by
  simp only [pcBoundsIntersects, Bool.or_comm, Bool.or_left_comm, Bool.or_assoc]

/-! ## Sessions -/

/-- What is read from a patch that a session stored. -/
theorem represents_of_read (htable : FormatsTable lookup) {S : SortR} {sp : SerializedPatch}
    (h : StoredBySession P lookup S sp) {q : PcPatch} {u : PcPatchUncompressed}
    (hq : readPatch P lookup sp = .ok q) (hu : pcPatchUncompress P q = .ok u) :
    sp.Represents P lookup ⟨q.schema, u.points⟩ := by
  obtain ⟨ps, -, hrep⟩ := exists_represents htable h
  obtain ⟨q', hq', hschema, -, hsto⟩ := hrep.read
  cases hq.symm.trans hq'
  rw [hschema, (hsto.kept.stands.holds hu).2]
  exact hrep

/-- Queries that fetch the head of a stored patch only are answered as if all points were
read: their number, its format and compression, and the least and the greatest value of
every dimension, be it asked for by name or taken from a point of the statistics. -/
theorem headers_exact (P : Platform) {lookup : Nat → Run (Option PcSchema)}
    (htable : FormatsTable lookup) (S : SortR) : ∀ sp, StoredBySession P lookup S sp →
    ∀ q u, readPatch P lookup sp = .ok q → pcPatchUncompress P q = .ok u →
      pcpatchNumpoints P sp = u.points.length ∧
      pcpatchPcid P sp = int32 q.schema.pcid ∧ pcpatchCompression P sp = q.type.code ∧
      (∀ name dim, pcSchemaGetDimensionByName q.schema name = some dim →
        (∃ v, pcpatchGetStat P lookup sp 0 name = .ok v ∧
          LeastOf (dim.column P.endian u.points) v) ∧
        ∃ v, pcpatchGetStat P lookup sp 1 name = .ok v ∧
          GreatestOf (dim.column P.endian u.points) v) ∧
      (∀ name statno, pcSchemaGetDimensionByName q.schema name = none →
        Raises (pcpatchGetStat P lookup sp statno name)) ∧
      ∀ statno,
        (statno = 0 ∨ statno = 1 ∨ statno = 2 → ∃ serpt,
          pcpatchGetStatPoint P lookup sp statno = .ok serpt ∧
          ∀ name, pcpointGetValue P lookup serpt name = pcpatchGetStat P lookup sp statno name) ∧
        (¬ (statno = 0 ∨ statno = 1 ∨ statno = 2) →
          Raises (pcpatchGetStatPoint P lookup sp statno) ∧
          ∀ name, Raises (pcpatchGetStat P lookup sp statno name)) := by
  intro sp hsp q u hq hu
  have hrep := represents_of_read htable hsp hq hu
  obtain ⟨p, st, hstored, -⟩ := hrep.stored
  obtain ⟨hpcid, hnpoints, hcompression, -⟩ := getHeaderX_eq hstored 0
  refine ⟨?_, ?_, ?_, fun name dim hname => hrep.getStat_ok hname, fun name statno hname =>
    hrep.getStat_error hname statno, hrep.getStatPoint_ok htable⟩
  · rw [pcpatchNumpoints, hnpoints, hrep.npoints_eq]
    exact int32_natCast hrep.npoints_lt
  · rw [pcpatchPcid, hpcid, ← htable.pcid_eq hrep.found]
  · rw [pcpatchCompression, hcompression, hrep.compression_eq hq]
    exact int32_natCast (by cases q <;> simp [PcPatch.type, PcCompression.code])

/-- There are two points, and the least x is one. -/
theorem headers_exact_witness : ∃ sp, pcpatchNumpoints Platform.plain sp = 2 ∧
    pcpatchGetStat Platform.plain oneFormat sp 0 "X" = .ok 1 := by
  obtain ⟨⟨sp, q, u, hstored, hq, hu, hpoints⟩, -⟩ := exists_sessionReads
  obtain ⟨hcount, -, -, hstat, -⟩ :=
    headers_exact Platform.plain oneFormat_table SortR.insertion sp hstored q u hq hu
  have hschema := (oneFormat_eq_ok (represents_of_read oneFormat_table hstored hq hu).found).2
  simp only at hschema
  obtain ⟨v, hv, hleast⟩ := (hstat "X" ⟨some "X", 0, 1, 0, .uint8, 1, 0⟩ (by
    rw [hschema]
    decide +kernel)).1
  rw [hpoints] at hcount hleast
  have hone : LeastOf (PcDimension.column .little ⟨some "X", 0, 1, 0, .uint8, 1, 0⟩
      [[1, 5], [2, 5]]) 1 := ⟨by decide +kernel, by decide +kernel⟩
  exact ⟨sp, hcount, hleast.unique hone ▸ hv⟩

/-- Two stored patches of one format intersect exactly if the bounding rectangles of their
points meet, whichever comes first; so points at one place are never missed. Patches of two
formats are an error. -/
theorem intersects_exact (P : Platform) {lookup : Nat → Run (Option PcSchema)}
    (htable : FormatsTable lookup) (S : SortR) : ∀ sp sp', StoredBySession P lookup S sp →
    StoredBySession P lookup S sp' → ∀ q u q' u', readPatch P lookup sp = .ok q →
    pcPatchUncompress P q = .ok u → readPatch P lookup sp' = .ok q' →
    pcPatchUncompress P q' = .ok u' →
      (q.schema.pcid ≠ q'.schema.pcid → Raises (pcpatchIntersects P sp sp')) ∧
      (q.schema.pcid = q'.schema.pcid → ∃ b, pcpatchIntersects P sp sp' = .ok b ∧
        pcpatchIntersects P sp' sp = .ok b ∧
        (b = true ↔ RectanglesMeet P.endian q.schema u.points u'.points) ∧
        ∀ xdim ydim, q.schema.xdimension = some xdim → q.schema.ydimension = some ydim →
          ∀ pt ∈ u.points, ∀ pt' ∈ u'.points,
            xdim.valueIn P.endian pt = xdim.valueIn P.endian pt' →
            ydim.valueIn P.endian pt = ydim.valueIn P.endian pt' → b = true) := by
  intro sp sp' hsp hsp' q u q' u' hq hu hq' hu'
  have hrep := represents_of_read htable hsp hq hu
  have hrep' := represents_of_read htable hsp' hq' hu'
  have hpcid : q.schema.pcid = sp.pcid := htable.pcid_eq hrep.found
  have hpcid' : q'.schema.pcid = sp'.pcid := htable.pcid_eq hrep'.found
  rw [hpcid, hpcid']
  constructor
  · intro hne
    rw [pcpatchIntersects, if_pos (show (getHeaderX P.endian sp 0).pcid ≠
      (getHeaderX P.endian sp' 0).pcid from hne)]
    exact raises_raise _
  · intro heq
    have hschema : q'.schema = q.schema := by
      have hfound := hrep'.found
      rw [← heq, hrep.found, Except.ok.injEq, Option.some.injEq] at hfound
      exact hfound.symm
    obtain ⟨p, st, hstored, hkept⟩ := hrep.stored
    have hs : p.schema.Integral := hkept.integral
    rw [hstored.schema_eq] at hs
    have hbounds' := hrep'.bounds_exact
    simp only [hschema] at hbounds'
    have hiff := pcBoundsIntersects_iff hs hrep.bounds_exact hbounds'
    refine ⟨pcBoundsIntersects sp.bounds sp'.bounds, ?_, ?_, hiff, ?_⟩
    · exact if_neg (not_not.mpr heq)
    · rw [pcBoundsIntersects_comm]
      exact if_neg (not_not.mpr heq.symm)
    · intro xdim ydim hx hy pt hpt pt' hpt' hxs hys
      exact hiff.mpr (rectanglesMeet_of_place hx hy hpt hpt' ⟨hxs, hys⟩)

/-- The rectangles of both points, and of the second one, meet. -/
theorem intersects_exact_witness : ∃ sp sp',
    pcpatchIntersects Platform.plain sp sp' = .ok true := by
  obtain ⟨⟨sp, q, u, hstored, hq, hu, hpoints⟩, sp', q', u', hstored', hq', hu', hpoints'⟩ :=
    exists_sessionReads
  have hschema := (oneFormat_eq_ok (represents_of_read oneFormat_table hstored hq hu).found).2
  have hschema' := (oneFormat_eq_ok (represents_of_read oneFormat_table hstored' hq' hu').found).2
  simp only at hschema hschema'
  obtain ⟨b, hb, -, -, hplace⟩ := (intersects_exact Platform.plain oneFormat_table SortR.insertion
    sp sp' hstored hstored' q u q' u' hq hu hq' hu').2 (by rw [hschema, hschema'])
  have htrue := hplace ⟨some "X", 0, 1, 0, .uint8, 1, 0⟩ ⟨some "Y", 1, 1, 1, .uint8, 1, 0⟩
    (by rw [hschema]; rfl) (by rw [hschema]; rfl) [2, 5] (by rw [hpoints]; simp) [2, 5]
    (by rw [hpoints']; simp) rfl rfl
  exact ⟨sp, sp', htrue ▸ hb⟩

/-! ## Points taken out and put together -/

/-- The bytes of an element are those of a serialized point, whatever stands behind its
data. -/
structure PointBytes (en : Endian) (element : Bytes) (serpt : SerializedPoint) : Prop where
  size_eq : en.natOf (element.take 4) = serpt.size
  pcid_eq : en.natOf ((element.drop 4).take 4) = serpt.pcid
  data_eq : (element.drop 8).take serpt.data.length = serpt.data

/-- Points of a schema for any data of its size. -/
theorem exists_points {s : PcSchema} {datas : List Bytes}
    (h : ∀ data ∈ datas, data.length = s.size) :
    ∃ pts : List PcPoint, pts.map PcPoint.data = datas ∧
      ∀ pt ∈ pts, pt.schema = s ∧ pt.readonly = true := by
  refine ⟨datas.pmap (PcPoint.mk true s) h, ?_, fun pt hpt => ?_⟩
  · rw [List.map_pmap]
    exact List.pmap_eq_map (f := id) .. |>.trans (List.map_id _)
  · obtain ⟨data, hdata, rfl⟩ := List.mem_pmap.mp hpt
    exact ⟨rfl, rfl⟩

/-- The points of a stored patch, in an array with any NULLs, are put together to a patch
that stands for the same points. -/
theorem SerializedPatch.Represents.rebuild (htable : FormatsTable lookup) {sp : SerializedPatch}
    {ps : PointSequence} (h : sp.Represents P lookup ps) {array : ArrayType}
    {elems : List (Option Bytes)} (hpacks : Packs P.endian array elems)
    {serpts : List SerializedPoint} (hunnest : pcpatchUnnest P lookup sp = .ok serpts)
    (helems : List.Forall₂ (PointBytes P.endian) elems.reduceOption serpts) :
    ∃ pa, pcpatchFromPointArray P lookup array = .ok (some pa) ∧ pa.schema = ps.schema ∧
      PcPatch.Storable P (.uncompressed pa) ps.points := by
  obtain ⟨q, -, hschema, -, hsto⟩ := h.read
  have hsize := h.statsSize_lt
  unfold pcStatsSize at hsize
  have hfound : lookup ps.schema.pcid = .ok (some ps.schema) := by
    rw [htable.pcid_eq h.found, h.found]
  rw [h.unnest_ok, Except.ok.injEq] at hunnest
  subst hunnest
  rw [List.forall₂_map_right_iff] at helems
  have hwidth : ∀ data ∈ ps.points, data.length = ps.schema.size :=
    hschema ▸ hsto.kept.stands.width_eq
  obtain ⟨pts, hdata, hpts⟩ := exists_points hwidth
  rw [← hdata, List.forall₂_map_right_iff] at helems
  -- every element is a point of the schema
  have hall : List.Forall₂ (PointElement P.endian lookup) elems.reduceOption pts := by
    refine List.forall₂_iff_get.mpr ⟨helems.length_eq, fun i hi hi' => ?_⟩
    obtain ⟨hword, hpcid, hbytes⟩ := (List.forall₂_iff_get.mp helems).2 i hi hi'
    obtain ⟨hs, hreadonly⟩ := hpts _ (List.getElem_mem hi')
    simp only [List.get_eq_getElem] at hword hpcid hbytes ⊢
    have hlen := hpacks.length_word _ (List.getElem_mem hi)
    rw [hword, varsize_setVarsize P.endian (by omega)] at hlen
    rw [pts[i].length_eq, hs] at hbytes
    refine ⟨hs ▸ hfound, ?_, hreadonly, ?_, ?_, ?_, ?_⟩
    · rw [hs]
      exact htable.pcid_ne hfound
    · rw [hs, ← hlen]
    · rw [hword, varsize_setVarsize P.endian (by omega), hlen]
    · rw [hpcid, hs]
    · rw [hs, hbytes]
  have hne : pts ≠ [] := by
    rintro rfl
    exact hsto.kept.ne hdata.symm
  have hsame : ∀ a ∈ pts, ∀ b ∈ pts, a.schema = b.schema := fun a ha b hb =>
    (hpts a ha).1.trans (hpts b hb).1.symm
  have hmatch : ¬ Mismatch PcPoint.schema pts := fun hbad => by
    obtain ⟨a, ha, b, hb, hother⟩ := hbad
    exact hother (congrArg PcSchema.pcid (hsame a ha b hb))
  have hvalid : ∀ pcid s, lookup pcid = .ok (some s) → s.Valid := fun _ _ => htable.valid
  have hbuild := (pcpatchFromPointArray_reads hpacks hvalid hall).builds hmatch hne
  obtain ⟨pa, hpa, -⟩ := patchOfPoints_ok hpacks hvalid hall hsame hne
  rw [hpa] at hbuild
  obtain ⟨pl, hpl, hfrom⟩ := bind_eq_ok.mp hpa
  obtain ⟨hpas, hpasto⟩ := storable_of_pointlist hpl (fun pt hpt => (hpts pt hpt).1)
    (hschema ▸ hsto.kept.integral) (fun pt hpt => hschema ▸ hsto.kept.in_doubles pt.data
      (hdata ▸ List.mem_map_of_mem hpt)) hfrom
  exact ⟨pa, hbuild, hpas, hdata ▸ hpasto⟩

/-- The points of a stored patch are answered one after the other as they are stored; put
together again, in an array with any NULLs, they make a patch with the same points and
their exact summary, and what is stored of it is read as the same points. -/
theorem explode_rebuilds (P : Platform) {lookup : Nat → Run (Option PcSchema)}
    (htable : FormatsTable lookup) (S : SortR) : ∀ sp, StoredBySession P lookup S sp →
    ∀ q u, readPatch P lookup sp = .ok q → pcPatchUncompress P q = .ok u →
      ∃ serpts, pcpatchUnnest P lookup sp = .ok serpts ∧
        serpts = u.points.map (fun data =>
          ⟨setVarsize P.endian (11 + q.schema.size), q.schema.pcid, data⟩) ∧
        ∀ array elems, Packs P.endian array elems →
          List.Forall₂ (PointBytes P.endian) elems.reduceOption serpts →
          ∃ pa, pcpatchFromPointArray P lookup array = .ok (some pa) ∧ pa.schema = q.schema ∧
            pa.points = u.points ∧ (PcPatch.uncompressed pa).Exact P ∧
            ∀ sp', BelowGigabyte P (.uncompressed pa) none →
              pcpatchFromPcpointArray P lookup array = .ok (some sp') →
              ∃ q' u', readPatch P lookup sp' = .ok q' ∧ pcPatchUncompress P q' = .ok u' ∧
                q'.schema = q.schema ∧ u'.points = u.points := by
  intro sp hsp q u hq hu
  have hrep := represents_of_read htable hsp hq hu
  have hunnest := hrep.unnest_ok
  refine ⟨_, hunnest, rfl, fun array elems hpacks helems => ?_⟩
  obtain ⟨pa, hpa, hschema, hsto⟩ := hrep.rebuild htable hpacks hunnest helems
  have hpoints : pa.points = u.points := (hsto.kept.stands.holds (u := pa) rfl).2
  refine ⟨pa, hpa, hschema, hpoints, hsto.kept.exact, fun sp' hbelow hrun => ?_⟩
  rw [pcpatchFromPcpointArray, hpa, ok_bind] at hrun
  obtain ⟨qa, userdata, hqa, hstored⟩ := serializeSome_eq_ok hrun
  cases hqa
  have hfound : lookup pa.schema.pcid = .ok (some pa.schema) := by
    rw [hschema, htable.pcid_eq hrep.found, hrep.found]
  have hrep' := hsto.write lookup hfound hbelow hstored
  obtain ⟨q', hq', hschema', -, hsto'⟩ := hrep'.read
  obtain ⟨u', hu', -⟩ := hsto'.kept.stands.uncompress
  exact ⟨q', u', hq', hu', hschema'.trans hschema, (hsto'.kept.stands.holds hu').2⟩

/-- The second point behind a NULL. -/
def secondBehindNull : ArrayType where
  nelems := 2
  nullbitmap := some [2]
  data := pairElement 2 5 ++ [0, 0, 0]
  nelems_lt := patchBehindNull.nelems_lt
  data_lt := by decide

theorem packs_secondBehindNull :
    Packs Endian.little secondBehindNull [none, some (pairElement 2 5)] where
  nelems_eq := rfl
  bitmap bitmap hmap := by
    obtain rfl : [2] = bitmap := Option.some.inj hmap
    refine ⟨by decide, fun i e he => ?_⟩
    have hlt : i < 2 := (List.getElem?_eq_some_iff.mp he).1
    obtain rfl | rfl : i = 0 ∨ i = 1 := by omega
    · cases he
      rfl
    · cases he
      rfl
  full hnone := by cases hnone
  room := by decide
  bytes := by decide
  header := by decide
  length_word := by decide

/-- The second point is taken out, and put into a patch again. -/
theorem explode_rebuilds_witness : ∃ sp q u pa, SessionReads sp q u [[2, 5]] ∧
    pcpatchFromPointArray Platform.plain oneFormat secondBehindNull = .ok (some pa) ∧
    pa.points = [[2, 5]] := by
  obtain ⟨-, sp, q, u, hreads⟩ := exists_sessionReads
  obtain ⟨hstored, hq, hu, hpoints⟩ := hreads
  obtain ⟨serpts, -, hserpts, hrebuild⟩ :=
    explode_rebuilds Platform.plain oneFormat_table SortR.insertion sp hstored q u hq hu
  have hschema := (oneFormat_eq_ok (represents_of_read oneFormat_table hstored hq hu).found).2
  simp only at hschema
  rw [hpoints, hschema] at hserpts
  subst hserpts
  obtain ⟨pa, hpa, -, hpapoints, -⟩ := hrebuild secondBehindNull _ packs_secondBehindNull
    (.cons ⟨by decide, by decide, by decide⟩ .nil)
  exact ⟨sp, q, u, pa, ⟨hstored, hq, hu, hpoints⟩, hpa, hpapoints.trans hpoints⟩

end Pointcloud
