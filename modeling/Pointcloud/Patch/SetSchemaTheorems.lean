/-
Pointcloud.Patch.SetSchemaTheorems — points laid out for another schema.

`pcPatchSetSchema` copies the bytes of every dimension that both schemas name;
`pcPatchTransform` reads the values of these dimensions and stores them again.
Both give the other dimensions a default value. `PcSchema.laid` is a point put
together from the bytes of its dimensions, and both functions lay out all
records (`fillRecords_ok`), each with bytes of its own.

So a record of the new schema is given by one cell for each dimension (`movedCell`):
the bytes of the dimension of the same name, or the default value stored. That all
cells are written follows from the loop over the new dimensions
(`matchDimensions_ok`), and that nothing else is from their offsets: the cells of a
record lie one behind the other, and together are the record.

Bytes can be copied if dimensions of one name have one type (`Matches`), for then
their cells have one size. The loop that copies checks this dimension by dimension,
so it holds wherever a run has returned (`matches_of_matchDimensions`), and nothing
has to be assumed about the two schemas.
-/
import Pointcloud.Patch.Edit
import Pointcloud.Patch.StoredStatsTheorems

namespace Pointcloud

open Pointcloud.Base

variable {P : Platform}

/-! ## Points put together -/

/-- The point with the given bytes in every dimension. -/
def PcSchema.laid (s : PcSchema) (cell : PcDimension → Bytes) : Bytes := (s.dims.map cell).flatten

section Laid

variable {s : PcSchema} {cell : PcDimension → Bytes}
  (hcell : ∀ dim ∈ s.dims, (cell dim).length = dim.size)

include hcell

theorem lengths_cells : (s.dims.map cell).map List.length = s.dims.map PcDimension.size := by
  rw [List.map_map]
  exact List.map_congr_left hcell

theorem length_laid : (s.laid cell).length = s.size := by
  rw [PcSchema.laid, List.length_flatten, lengths_cells hcell, s.size_eq, sizeOfDims]

theorem bytesIn_laid {dim : PcDimension} (hd : dim ∈ s.dims) :
    dim.bytesIn (s.laid cell) = cell dim :=
  List.map_inj_left.mp (s.bytesIn_flatten (lengths_cells hcell)) dim hd

/-- Writing every dimension to its place fills a point. -/
theorem writeAll_laid {block : Bytes} (hblock : block.length = s.size) :
    writeAll block (s.dims.map fun dim => (((0 + dim.byteoffset : Nat) : Int), cell dim)) =
      .ok (s.laid cell) := by
  rw [map_offset_eq_follow s hcell 0]
  exact writeAll_fill ((length_laid hcell).trans hblock.symm)

end Laid

/-- Laying out all records of a patch. -/
theorem fillRecords_ok {p : PcPatchUncompressed} {pts : List Bytes} (h : p.Holds pts)
    {s : PcSchema} (cell : Bytes → PcDimension → Bytes)
    (hcell : ∀ pt ∈ pts, ∀ dim ∈ s.dims, (cell pt dim).length = dim.size)
    (copy : Nat → Run (List (Int × Bytes)))
    (hcopy : ∀ i, i < p.npoints → i * p.schema.size + p.schema.size ≤ p.data.content.length →
      copy i = .ok (s.dims.map fun dim => (((i * s.size + dim.byteoffset : Nat) : Int),
        cell ((p.data.content.drop (i * p.schema.size)).take p.schema.size) dim)))
    {block : Bytes} (hblock : block.length = p.npoints * s.size) :
    ∃ copies, (List.range p.npoints).mapM copy = .ok copies ∧
      writeAll block copies.flatten = .ok (pts.map fun pt => s.laid (cell pt)).flatten := by
  have hpts : pts = (List.range p.npoints).map fun i =>
      (p.data.content.drop (i * p.schema.size)).take p.schema.size := by
    rw [← h.records_eq, records_eq_map]
  generalize hrecord : (fun i => (p.data.content.drop (i * p.schema.size)).take p.schema.size) =
    record at hpts
  have hmem : ∀ i < p.npoints, record i ∈ pts := by
    intro i hi
    rw [hpts]
    exact List.mem_map_of_mem (List.mem_range.mpr hi)
  have hrow : ∀ i < p.npoints, (s.laid (cell (record i))).length = s.size :=
    fun i hi => length_laid (hcell _ (hmem i hi))
  have hfollow := follow_rows (fun i => s.dims.map (cell (record i))) p.npoints hrow
  refine ⟨(List.range p.npoints).map fun i => follow (i * s.size) (s.dims.map (cell (record i))),
    mapM_eq_ok_map fun i hi => ?_, ?_⟩
  · have hi' := List.mem_range.mp hi
    rw [hcopy i hi' (Nat.le_trans (record_end_le hi') h.room),
      ← map_offset_eq_follow s (hcell _ (hmem i hi')) (i * s.size), ← hrecord]
  · have hjoin :
        (((List.range p.npoints).map fun i => s.dims.map (cell (record i))).flatten).flatten
        = (pts.map fun pt => s.laid (cell pt)).flatten := by
      rw [List.flatten_flatten, List.map_map, hpts, List.map_map]
      rfl
    have hlen : (pts.map fun pt => s.laid (cell pt)).flatten.length = p.npoints * s.size := by
      rw [length_flatten_of_width (w := s.size), List.length_map, h.length_eq]
      intro c hc
      obtain ⟨pt, hpt, rfl⟩ := List.mem_map.mp hc
      exact length_laid (hcell pt hpt)
    rw [hfollow, writeAll_fill (by rw [hjoin, hlen, hblock]), hjoin]

/-! ## Dimensions of the same name -/

/-- The dimension of the old schema with the name of a new one. -/
def likeOf (old : PcSchema) (dim : PcDimension) : Option PcDimension :=
  dim.name.bind (pcSchemaGetDimensionByName old)

theorem mem_of_likeOf {old : PcSchema} {dim odim : PcDimension} (h : likeOf old dim = some odim) :
    odim ∈ old.dims := by
  obtain ⟨name, -, hname⟩ := Option.bind_eq_some_iff.mp h
  exact mem_of_pcSchemaGetDimensionByName hname

theorem pcSchemaGetDimensionLike_ok {old : PcSchema} {dim : PcDimension} (h : dim.name ≠ none) :
    pcSchemaGetDimensionLike old dim = .ok (likeOf old dim) := by
  obtain ⟨name, hname⟩ := Option.ne_none_iff_exists'.mp h
  rw [pcSchemaGetDimensionLike, likeOf, hname]
  rfl

/-- Every dimension has a name, and one of this name in the old schema has the
same type. -/
def Matches (old new : PcSchema) : Prop :=
  ∀ dim ∈ new.dims, dim.name ≠ none ∧
    ∀ odim, likeOf old dim = some odim → odim.interpretation = dim.interpretation

/-- It has the same scale and offset too, and the reference systems agree. -/
structure SameInterpretations (old new : PcSchema) : Prop where
  srid_eq : old.srid = new.srid
  named : ∀ dim ∈ new.dims, dim.name ≠ none
  alike : ∀ dim ∈ new.dims, ∀ odim, likeOf old dim = some odim →
    odim.interpretation = dim.interpretation ∧ odim.scale = dim.scale ∧ odim.offset = dim.offset

theorem SameInterpretations.matches {old new : PcSchema} (h : SameInterpretations old new) :
    Matches old new :=
  fun dim hd => ⟨h.named dim hd, fun odim hodim => (h.alike dim hd odim hodim).1⟩

theorem sameInterpretationsLoop_eq_true {old : PcSchema} : ∀ {dims : List PcDimension},
    sameInterpretationsLoop old dims = .ok true → ∀ dim ∈ dims, dim.name ≠ none ∧
      ∀ odim, likeOf old dim = some odim →
        odim.interpretation = dim.interpretation ∧ odim.scale = dim.scale ∧
          odim.offset = dim.offset
  | [], _ => by simp
  | dim :: dims, h => by
      obtain ⟨like, hlike, h⟩ := bind_eq_ok.mp h
      have hname : dim.name ≠ none := by
        intro hnone
        rw [pcSchemaGetDimensionLike, hnone] at hlike
        exact fault_ne_ok like hlike
      rw [pcSchemaGetDimensionLike_ok hname, Except.ok.injEq] at hlike
      rw [List.forall_mem_cons, hlike]
      cases like with
      | none => exact ⟨⟨hname, nofun⟩, sameInterpretationsLoop_eq_true h⟩
      | some odim =>
          simp only [pure_eq_ok] at h
          split_ifs at h with hinterp hscale hoffset
          · exact absurd h (by simp)
          · exact absurd h (by simp)
          · exact absurd h (by simp)
          · refine ⟨⟨hname, fun o ho => ?_⟩, sameInterpretationsLoop_eq_true h⟩
            cases ho
            exact ⟨not_not.mp hinterp, not_not.mp hscale, not_not.mp hoffset⟩

/-- What `pc_schema_same_interpretations` finds. -/
theorem sameInterpretations_of_true {old new : PcSchema}
    (h : pcSchemaSameInterpretations old new = .ok true) : SameInterpretations old new := by
  unfold pcSchemaSameInterpretations at h
  split_ifs at h with hsrid
  · exact absurd h (by simp)
  · have hall := sameInterpretationsLoop_eq_true h
    exact ⟨not_not.mp hsrid, fun dim hd => (hall dim hd).1, fun dim hd => (hall dim hd).2⟩

/-! ## Bytes moved to another schema -/

/-- The bytes of a dimension in a point that is moved. -/
def movedCell (P : Platform) (old : PcSchema) (dflt : ℚ) (pt : Bytes) (dim : PcDimension) : Bytes :=
  match likeOf old dim with
  | some odim => odim.bytesIn pt
  | none => dim.stored P dflt

theorem Matches.size_eq {old new : PcSchema} (h : Matches old new) {dim odim : PcDimension}
    (hd : dim ∈ new.dims) (hlike : likeOf old dim = some odim) : odim.size = dim.size := by
  rw [old.dim_size (mem_of_likeOf hlike), new.dim_size hd, (h dim hd).2 odim hlike]

theorem length_movedCell {old new : PcSchema} (h : Matches old new) (dflt : ℚ) {pt : Bytes}
    (hpt : pt.length = old.size) {dim : PcDimension} (hd : dim ∈ new.dims) :
    (movedCell P old dflt pt dim).length = dim.size := by
  unfold movedCell
  split
  · next odim hlike => rw [old.length_bytesIn (mem_of_likeOf hlike) hpt, h.size_eq hd hlike]
  · exact new.length_stored hd dflt

/-- The bytes of a dimension in a record of a block. -/
theorem bytesIn_record {s : PcSchema} {dim : PcDimension} (hd : dim ∈ s.dims) (block : Bytes)
    (off : Nat) :
    dim.bytesIn ((block.drop off).take s.size) =
      (block.drop (off + dim.byteoffset)).take dim.size := by
  have hend := s.dim_end_le hd
  rw [PcDimension.bytesIn, List.drop_take, List.take_take, List.drop_drop,
    Nat.min_eq_left (by omega)]

/-- What `pc_patch_point_set` copies. -/
theorem pointCopies_ok {old new : PcSchema} (h : Matches old new) {dflt : ℚ} {dpt : Bytes}
    (hdpt : dpt.length = new.size)
    (hdefault : ∀ dim ∈ new.dims, likeOf old dim = none → dim.bytesIn dpt = dim.stored P dflt)
    {data : Bytes} {src : Nat} (hend : src + old.size ≤ data.length) (dst : Nat) :
    pointCopies (new.dims.zip (new.dims.map (likeOf old))) dst data src dpt =
      .ok (new.dims.map fun dim => (((dst + dim.byteoffset : Nat) : Int),
        movedCell P old dflt ((data.drop src).take old.size) dim)) := by
  rw [pointCopies, zip_map_self, List.mapM_map]
  refine mapM_eq_ok_map fun dim hd => ?_
  simp only [Function.comp_apply, movedCell]
  cases hlike : likeOf old dim with
  | some odim =>
      have hodim := mem_of_likeOf hlike
      have hin := old.dim_end_le hodim
      simp only
      rw [← h.size_eq hd hlike, readAt_ok (by omega), ok_bind, pure_eq_ok, bytesIn_record hodim]
  | none =>
      have hin := new.dim_end_le hd
      simp only
      rw [readAt_ok (by omega), ok_bind, pure_eq_ok, ← hdefault dim hd hlike]
      rfl

/-- The dimensions that are matched, and the point of the default values. -/
theorem matchDimensions_ok {old new : PcSchema} (h : Matches old new) (dflt : ℚ) :
    ∀ (dims : List PcDimension) (dpt : PcPoint), (∀ dim ∈ dims, dim ∈ new.dims) →
      dpt.schema = new →
      ∃ dpt', matchDimensions P old dflt dims dpt = .ok (dims.map (likeOf old), dpt') ∧
        dpt'.schema = new ∧
        (∀ dim ∈ new.dims, dim ∉ dims → dim.bytesIn dpt'.data = dim.bytesIn dpt.data) ∧
        ∀ dim ∈ dims, likeOf old dim = none → dim.bytesIn dpt'.data = dim.stored P dflt
  | [], dpt, _, hdpt => ⟨dpt, rfl, hdpt, fun _ _ _ => rfl, by simp⟩
  | dim :: dims, dpt, hmem, hdpt => by
      have hd := hmem dim (by simp)
      have hrest : ∀ d ∈ dims, d ∈ new.dims := fun d hd => hmem d (by simp [hd])
      rw [matchDimensions, matchDimension, pcSchemaGetDimensionLike_ok (h dim hd).1, ok_bind]
      cases hlike : likeOf old dim with
      | some odim =>
          obtain ⟨dpt', hrun, hschema, hkept, hset⟩ := matchDimensions_ok h dflt dims dpt hrest hdpt
          refine ⟨dpt', ?_, hschema, fun d hd hnot => hkept d hd fun hin => hnot (by simp [hin]),
            fun d hin hnone => ?_⟩
          · simp only [(h dim hd).2 odim hlike, ne_eq, not_true_eq_false, if_false, pure_eq_ok,
              ok_bind, hrun, List.map_cons, hlike]
          · rcases List.mem_cons.mp hin with rfl | hin
            · rw [hlike] at hnone
              exact nomatch hnone
            · exact hset d hin hnone
      | none =>
          obtain ⟨mid, hmid, hmids, -, hwrite⟩ := pcPointSetDouble_eq (P := P) hdpt hd dflt
          have hlen := new.length_stored (P := P) hd dflt
          obtain ⟨dpt', hrun, hschema, hkept, hset⟩ :=
            matchDimensions_ok h dflt dims mid hrest hmids
          refine ⟨dpt', ?_, hschema, fun d hdn hnot => ?_, fun d hin hnone => ?_⟩
          · simp only [hmid, ok_bind, pure_eq_ok, hrun, List.map_cons, hlike]
          · rw [hkept d hdn fun hin => hnot (by simp [hin])]
            have hapart := new.dim_apart hdn hd fun heq => hnot (by simp [heq])
            exact window_beside_writeAt hwrite (by omega)
          -- The value that was set stays, or is set once more.
          · by_cases hagain : d ∈ dims
            · exact hset d hagain hnone
            · rcases List.mem_cons.mp hin with rfl | hin
              · rw [hkept d hd hagain]
                exact window_of_writeAt hwrite hlen
              · exact absurd hin hagain

/-- Dimensions are matched only with dimensions of their type. -/
theorem matches_of_matchDimensions {old : PcSchema} {dflt : ℚ} :
    ∀ {dims : List PcDimension} {dpt : PcPoint} {r : List (Option PcDimension) × PcPoint},
      matchDimensions P old dflt dims dpt = .ok r → ∀ dim ∈ dims, dim.name ≠ none ∧
        ∀ odim, likeOf old dim = some odim → odim.interpretation = dim.interpretation
  | [], _, _, _ => by simp
  | dim :: dims, dpt, r, h => by
      obtain ⟨t, ht, h⟩ := bind_eq_ok.mp h
      obtain ⟨rest, hrest, -⟩ := bind_eq_ok.mp h
      rw [List.forall_mem_cons]
      refine ⟨?_, matches_of_matchDimensions hrest⟩
      obtain ⟨like, hlike, ht⟩ := bind_eq_ok.mp ht
      have hname : dim.name ≠ none := by
        intro hnone
        rw [pcSchemaGetDimensionLike, hnone] at hlike
        exact fault_ne_ok like hlike
      rw [pcSchemaGetDimensionLike_ok hname, Except.ok.injEq] at hlike
      refine ⟨hname, fun odim hodim => ?_⟩
      rw [← hlike, hodim] at ht
      by_contra hne
      have hraise : dim.interpretation ≠ odim.interpretation := fun heq => hne heq.symm
      simp only [hraise, ne_eq, not_false_eq_true, if_true] at ht
      exact raise_ne_ok _ t ht

/-- A point that is moved to another schema. -/
def moved (P : Platform) (old new : PcSchema) (dflt : ℚ) (pt : Bytes) : Bytes :=
  new.laid (movedCell P old dflt pt)

theorem length_moved {old new : PcSchema} (h : Matches old new) (dflt : ℚ) {pt : Bytes}
    (hpt : pt.length = old.size) : (moved P old new dflt pt).length = new.size :=
  length_laid fun _ hd => length_movedCell h dflt hpt hd

theorem bytesIn_moved {old new : PcSchema} (h : Matches old new) (dflt : ℚ) {pt : Bytes}
    (hpt : pt.length = old.size) {dim : PcDimension} (hd : dim ∈ new.dims) :
    dim.bytesIn (moved P old new dflt pt) = movedCell P old dflt pt dim :=
  bytesIn_laid (fun _ hd => length_movedCell h dflt hpt hd) hd

/-- A point of the statistics is moved. -/
theorem pcPatchPointSet_ok {old new : PcSchema} (h : Matches old new) {dflt : ℚ} {dpt : Bytes}
    (hdpt : dpt.length = new.size)
    (hdefault : ∀ dim ∈ new.dims, likeOf old dim = none → dim.bytesIn dpt = dim.stored P dflt)
    {pt : PcPoint} (hpt : pt.schema = old) :
    ∃ q, pcPatchPointSet new (new.dims.zip (new.dims.map (likeOf old))) pt.data dpt = .ok q ∧
      q.schema = new ∧ q.data = moved P old new dflt pt.data := by
  have hlen : pt.data.length = old.size := by rw [pt.length_eq, hpt]
  have hcopies : pointCopies (new.dims.zip (new.dims.map (likeOf old))) 0 pt.data 0 dpt = .ok _ :=
    pointCopies_ok h hdpt hdefault (by omega) 0
  have hall : (pt.data.drop 0).take old.size = pt.data := by
    rw [List.drop_zero, ← hlen, List.take_length]
  rw [hall] at hcopies
  have hwrite : writeAll (zeros new.size) _ = .ok (moved P old new dflt pt.data) :=
    writeAll_laid (fun _ hd => length_movedCell h dflt hlen hd) (length_zeros new.size)
  rw [pcPatchPointSet, hcopies, ok_bind, hwrite, ok_bind,
    pcPointOf_ok false (length_moved h dflt hlen)]
  exact ⟨_, rfl, rfl, rfl⟩

/-- The bounds that the least and the greatest values of x and y make. -/
def boundsIn (en : Endian) (xdim ydim : PcDimension) (min max : Bytes) : PcBounds :=
  ⟨xdim.valueIn en min, xdim.valueIn en max, ydim.valueIn en min, ydim.valueIn en max⟩

theorem boundsFromStats_ok (en : Endian) {s : PcSchema} {st : PcStats} (hover : StatsOver s st)
    {xdim ydim : PcDimension} (hxdim : s.xdimension = some xdim) (hydim : s.ydimension = some ydim)
    (hx : xdim ∈ s.dims) (hy : ydim ∈ s.dims) (b : PcBounds) :
    boundsFromStats en s st b = .ok (boundsIn en xdim ydim st.min.data st.max.data) := by
  obtain ⟨hmin, hmax, -⟩ := hover
  have hread : ∀ (pt : PcPoint) (dim : PcDimension) (val : ℚ), pt.schema = s → dim ∈ s.dims →
      coordinateOr en pt (some dim) val = .ok (dim.valueIn en pt.data) := by
    intro pt dim val hpt hd
    exact pcPointGetDouble_ok en pt (hpt ▸ hd)
  rw [boundsFromStats, hxdim, hydim, hread _ _ _ hmin hx, ok_bind, hread _ _ _ hmin hy, ok_bind,
    hread _ _ _ hmax hx, ok_bind, hread _ _ _ hmax hy, ok_bind]
  rfl

theorem matches_of_pcPatchSetSchema {pa : PcPatch} {new : PcSchema} {dflt : ℚ}
    {r : PcPatchUncompressed} (h : pcPatchSetSchema P pa new dflt = .ok r) :
    Matches pa.schema new := by
  obtain ⟨dpt, -, h⟩ := bind_eq_ok.mp h
  obtain ⟨matched, hmatched, -⟩ := bind_eq_ok.mp h
  exact matches_of_matchDimensions hmatched

/-- Schemas that match, records that could be allocated, and without statistics
the scaled bounds. -/
theorem pcPatchSetSchema_passed {pa : PcPatch} {new : PcSchema} {dflt : ℚ}
    {q : PcPatchUncompressed} (h : pcPatchSetSchema P pa new dflt = .ok q) :
    Matches pa.schema new ∧ (∃ u, pcPatchUncompress P pa = .ok u) ∧
      new.size * pa.npoints < 9223372036854775808 ∧
      (pa.stats = none → boundsRescaled pa.schema new pa.bounds pcBoundsInit = .ok q.bounds ∧
        q.stats = none) := by
  refine ⟨matches_of_pcPatchSetSchema h, ?_⟩
  obtain ⟨dpt, -, h⟩ := bind_eq_ok.mp h
  obtain ⟨matched, -, h⟩ := bind_eq_ok.mp h
  obtain ⟨u, hu, h⟩ := bind_eq_ok.mp h
  obtain ⟨out, hout, h⟩ := bind_eq_ok.mp h
  obtain ⟨copies, -, h⟩ := bind_eq_ok.mp h
  obtain ⟨data, -, h⟩ := bind_eq_ok.mp h
  have hroom := room_of_pcPatchUncompressedMake hout
  refine ⟨⟨u, hu⟩, hroom, fun hstats => ?_⟩
  obtain ⟨hinit, hnone⟩ := pcPatchUncompressedMake_summary hout
  simp only [hstats, hinit] at h
  obtain ⟨bounds, hbounds, h⟩ := bind_eq_ok.mp h
  cases h
  exact ⟨hbounds, hnone⟩

section SetSchema

variable {pa : PcPatch} {u : PcPatchUncompressed} {pts : List Bytes}
  (hu : pcPatchUncompress P pa = .ok u) (h : u.Holds pts) {new : PcSchema}
  (hroom : new.size * pa.npoints < 9223372036854775808)

/-- The patch that `pc_patch_set_schema` makes. -/
structure Moved (P : Platform) (pa : PcPatch) (pts : List Bytes) (new : PcSchema) (dflt : ℚ)
    (q : PcPatchUncompressed) : Prop where
  schema_eq : q.schema = new
  npoints_eq : q.npoints = pa.npoints
  datasize_eq : q.datasize = new.size * pa.npoints
  holds : q.Holds (pts.map (moved P pa.schema new dflt))
  with_stats : ∀ st, pa.stats = some st → ∃ st', q.stats = some st' ∧ StatsOver new st' ∧
    st'.min.data = moved P pa.schema new dflt st.min.data ∧
    st'.max.data = moved P pa.schema new dflt st.max.data ∧
    st'.avg.data = moved P pa.schema new dflt st.avg.data ∧
    ∀ xdim ydim, new.xdimension = some xdim → new.ydimension = some ydim →
      q.bounds = boundsIn P.endian xdim ydim st'.min.data st'.max.data

include hu h hroom

theorem pcPatchSetSchema_ok (hold : pa.schema.Valid) (hnew : new.Valid)
    (hmatch : Matches pa.schema new)
    (hover : ∀ st, pa.stats = some st → StatsOver pa.schema st) (dflt : ℚ) :
    ∃ q, pcPatchSetSchema P pa new dflt = .ok q ∧ Moved P pa pts new dflt q := by
  obtain ⟨hus, hun⟩ := schema_of_uncompress hu
  obtain ⟨xdim, hx, hxdim⟩ := hnew.xdimension
  obtain ⟨ydim, hy, hydim⟩ := hnew.ydimension
  have hmake : pcPointMake new = .ok ⟨false, new, zeros new.size, length_zeros _⟩ := by
    have hpos := new.size_pos
    rw [pcPointMake, if_neg (by omega), pcPointOf_ok false (length_zeros _)]
  obtain ⟨dpt, hdpt, hdpts, -, hdefault⟩ := matchDimensions_ok (P := P) hmatch dflt
    new.dims ⟨false, new, zeros new.size, length_zeros _⟩ (fun _ hd => hd) rfl
  have hlen : dpt.data.length = new.size := by rw [dpt.length_eq, hdpts]
  have hwidth : ∀ pt ∈ pts, pt.length = pa.schema.size := hus ▸ h.width_eq
  obtain ⟨out, hout, houts, houtsize, houtb, houtdata⟩ := pcPatchUncompressedMake_ok hroom
  have hblock : out.data.content.length = u.npoints * new.size := by
    rw [houtdata, length_zeros, hun, Nat.mul_comm]
  obtain ⟨copies, hcopies, hwrite⟩ := fillRecords_ok h (movedCell P pa.schema dflt)
    (fun pt hpt dim hd => length_movedCell hmatch dflt (hwidth pt hpt) hd)
    (fun i => pointCopies (new.dims.zip (new.dims.map (likeOf pa.schema))) (i * new.size)
      u.data.content (i * pa.schema.size) dpt.data)
    (fun i _ hend => by
      rw [hus] at hend ⊢
      exact pointCopies_ok hmatch hlen hdefault hend _) hblock
  rw [hun] at hcopies
  have hmoved : ∀ pt ∈ pts.map (moved P pa.schema new dflt), pt.length = new.size := by
    intro r hr
    obtain ⟨pt, hpt, rfl⟩ := List.mem_map.mp hr
    exact length_moved hmatch dflt (hwidth pt hpt)
  have hcount : (pts.map (moved P pa.schema new dflt)).length = u.npoints := by
    rw [List.length_map, h.length_eq]
  have hholds : ∀ (b : PcBounds) (st : Option PcStats), PcPatchUncompressed.Holds
      { out with
        npoints := u.npoints
        bounds := b
        stats := st
        data := bufOf (pts.map (moved P pa.schema new dflt)).flatten }
      (pts.map (moved P pa.schema new dflt)) := by
    intro b st
    refine ⟨h.npoints_lt, ?_, ?_⟩
    · rw [content_bufOf, houts, length_flatten_of_width hmoved, hcount]
    · rw [content_bufOf, houts, ← hcount]
      exact records_flatten hmoved
  unfold pcPatchSetSchema
  simp only [hmake, ok_bind, hdpt, hu, hout, hcopies]
  rw [show writeAll out.data.content copies.flatten = _ from hwrite, ok_bind]
  cases hstats : pa.stats with
  | none =>
      obtain ⟨ox, -, hox⟩ := hold.xdimension
      obtain ⟨oy, -, hoy⟩ := hold.ydimension
      simp only [boundsRescaled, hxdim, hydim, hox, hoy, ok_bind, pure_eq_ok]
      refine ⟨_, rfl, houts, hun, houtsize, hholds _ _, fun st hst => ?_⟩
      rw [hstats] at hst
      cases hst
  | some st =>
      obtain ⟨hmin, hmax, havg⟩ := hover st hstats
      obtain ⟨min, hminok, hmins, hmind⟩ := pcPatchPointSet_ok hmatch hlen hdefault hmin
      obtain ⟨max, hmaxok, hmaxs, hmaxd⟩ := pcPatchPointSet_ok hmatch hlen hdefault hmax
      obtain ⟨avg, havgok, havgs, havgd⟩ := pcPatchPointSet_ok hmatch hlen hdefault havg
      have hbounds : boundsFromStats P.endian new ⟨min, max, avg⟩ out.bounds = .ok _ :=
        boundsFromStats_ok P.endian ⟨hmins, hmaxs, havgs⟩ hxdim hydim hx hy out.bounds
      simp only [hminok, hmaxok, havgok, ok_bind, hbounds, pure_eq_ok]
      refine ⟨_, rfl, houts, hun, houtsize, hholds _ _, fun st' hst' => ?_⟩
      rw [hstats, Option.some.injEq] at hst'
      subst hst'
      refine ⟨_, rfl, ⟨hmins, hmaxs, havgs⟩, hmind, hmaxd, havgd, fun x y hx' hy' => ?_⟩
      rw [hxdim, Option.some.injEq] at hx'
      rw [hydim, Option.some.injEq] at hy'
      rw [hx', hy']

end SetSchema

end Pointcloud
