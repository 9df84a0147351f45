/-
Pointcloud.Patch.UnpackTheorems — the records that uncompressing a patch gives.

These are the points of the patch where the counts of the code are exact
(`Fits`). With more points they are put together from what stands at wrapped
offsets, and from `2 ^ 31` points on nothing is copied into them at all.
`PcPatch.unpacked` says which records come out in every case; where they can
be allocated, they do (`PcPatch.Holds.unpacks`).
-/
import Pointcloud.Patch.StoredStatsTheorems

namespace Pointcloud

open Pointcloud.Base

variable {P : Platform}

/-- The records that a dimensional patch of these points is uncompressed to. -/
def unpackedRecords (s : PcSchema) (pts : List Bytes) : List Bytes :=
  if pts.length < 2147483648 then recordsOf s pts else List.replicate pts.length (zeros s.size)

/-- The records that a patch of these points is uncompressed to. -/
def PcPatch.unpacked (pa : PcPatch) (pts : List Bytes) : List Bytes :=
  match pa with
  | .dimensional d => unpackedRecords d.schema pts
  | _ => pts

/-- The records can be allocated, those of an uncompressed patch already are. -/
def PcPatch.Allocatable : PcPatch → Prop
  | .dimensional d => d.schema.size * d.npoints < 9223372036854775808
  | _ => True

theorem length_unpackedRecords (s : PcSchema) (pts : List Bytes) :
    (unpackedRecords s pts).length = pts.length := by
  unfold unpackedRecords
  split <;> simp

theorem width_unpackedRecords {s : PcSchema} {pts : List Bytes}
    (hwidth : ∀ pt ∈ pts, pt.length = s.size) : ∀ r ∈ unpackedRecords s pts, r.length = s.size := by
  unfold unpackedRecords
  split
  · exact width_recordsOf hwidth
  · intro r hr
    rw [List.eq_of_mem_replicate hr, length_zeros]

/-- Where the counts are exact, these are the points. -/
theorem Fits.unpackedRecords_eq {s : PcSchema} {pts : List Bytes} (h : Fits s pts.length)
    (hwidth : ∀ pt ∈ pts, pt.length = s.size) : unpackedRecords s pts = pts := by
  rw [unpackedRecords, if_pos h.npoints_lt, h.recordsOf_eq hwidth]

/-- The records of a dimensional patch, where they can be allocated. -/
theorem PcPatchDimensional.Holds.unpacks {d : PcPatchDimensional} {pts : List Bytes}
    (h : d.Holds P pts) (hroom : d.schema.size * d.npoints < 9223372036854775808) :
    pcPatchUncompressedFromDimensional P d = .ok {
      readonly := false
      schema := d.schema
      npoints := d.npoints
      bounds := d.bounds
      stats := pcStatsClone d.stats
      maxpoints := d.npoints
      datasize := d.schema.size * d.npoints
      data := bufOf (unpackedRecords d.schema pts).flatten } := by
  have hlen := h.npoints_eq
  unfold unpackedRecords
  split
  · next hint => exact pcPatchUncompressedFromDimensional_ok h (by omega)
  · next hint =>
      have hflat : (List.replicate pts.length (zeros d.schema.size)).flatten =
          zeros (d.schema.size * d.npoints) := by
        simp only [zeros, List.flatten_replicate_replicate]
        rw [hlen, Nat.mul_comm]
      rw [hflat]
      exact pcPatchUncompressedFromDimensional_unfilled h (by omega) hroom

/-- The record that is put together for a point has in each dimension the value
at its wrapped offset. -/
theorem bytesIn_recordAt {s : PcSchema} {pts : List Bytes} (hwidth : ∀ pt ∈ pts, pt.length = s.size)
    {i : Nat} (hi : i < pts.length) {dim : PcDimension} (hd : dim ∈ s.dims) :
    dim.bytesIn (recordAt s pts i) = dim.bytesIn (pts.getD (wrapIndex dim.size i) []) :=
  List.map_inj_left.mp (s.bytesIn_flatten (lengths_pieces hwidth hi)) dim hd

/-- The record is the point where the values at the wrapped offsets are its own. -/
theorem recordAt_eq_iff {s : PcSchema} {pts : List Bytes} (hwidth : ∀ pt ∈ pts, pt.length = s.size)
    {i : Nat} (hi : i < pts.length) : recordAt s pts i = pts[i] ↔
      ∀ dim ∈ s.dims, dim.bytesIn (pts.getD (wrapIndex dim.size i) []) = dim.bytesIn pts[i] := by
  constructor
  · intro hsame dim hd
    rw [← bytesIn_recordAt hwidth hi hd, hsame]
  · intro hvalues
    rw [recordAt, List.map_congr_left hvalues]
    exact s.flatten_bytesIn (hwidth _ (List.getElem_mem hi))

/-- Every value of the records is that of a point, or has not been filled. -/
theorem bytesIn_unpackedRecords {s : PcSchema} {pts : List Bytes}
    (hwidth : ∀ pt ∈ pts, pt.length = s.size) {r : Bytes} (hr : r ∈ unpackedRecords s pts)
    {dim : PcDimension} (hd : dim ∈ s.dims) :
    (∃ pt ∈ pts, dim.bytesIn r = dim.bytesIn pt) ∨ dim.bytesIn r = zeros dim.size := by
  unfold unpackedRecords at hr
  split at hr
  · obtain ⟨i, hi, rfl⟩ := List.mem_map.mp hr
    have hi' := List.mem_range.mp hi
    have hlt := Nat.lt_of_le_of_lt (wrapIndex_le dim.size i) hi'
    rw [bytesIn_recordAt hwidth hi' hd, List.getD_eq_getElem _ _ hlt]
    exact .inl ⟨_, List.getElem_mem hlt, rfl⟩
  · rw [List.eq_of_mem_replicate hr]
    have hend := s.dim_end_le hd
    refine .inr ?_
    rw [PcDimension.bytesIn, zeros, List.drop_replicate, List.take_replicate,
      Nat.min_eq_left (by omega), zeros]

theorem bytesIn_unpacked {pa : PcPatch} {pts : List Bytes} (h : pa.Holds P pts) {r : Bytes}
    (hr : r ∈ pa.unpacked pts) {dim : PcDimension} (hd : dim ∈ pa.schema.dims) :
    (∃ pt ∈ pts, dim.bytesIn r = dim.bytesIn pt) ∨ dim.bytesIn r = zeros dim.size := by
  cases pa with
  | uncompressed p => exact .inl ⟨r, hr, rfl⟩
  | lazperf l => exact h.elim
  | dimensional d => exact bytesIn_unpackedRecords (PcPatchDimensional.Holds.width_eq h) hr hd

/-- The values that stand at the wrapped offsets are those of the points, and from
`2 ^ 31` points on there is nothing but zeros to lose. -/
def RecordsRecovered (s : PcSchema) (pts : List Bytes) : Prop :=
  if pts.length < 2147483648 then
    ∀ dim ∈ s.dims, ∀ (i : Nat) (hi : i < pts.length),
      dim.bytesIn (pts.getD (wrapIndex dim.size i) []) = dim.bytesIn pts[i]
  else ∀ pt ∈ pts, pt = zeros s.size

/-- A patch that is not dimensional is its own records. -/
def PcPatch.Recovered : PcPatch → List Bytes → Prop
  | .dimensional d, pts => RecordsRecovered d.schema pts
  | _, _ => True

/-- These are the lists of points that uncompressing gives back. -/
theorem unpackedRecords_eq_iff {s : PcSchema} {pts : List Bytes}
    (hwidth : ∀ pt ∈ pts, pt.length = s.size) :
    unpackedRecords s pts = pts ↔ RecordsRecovered s pts := by
  unfold unpackedRecords RecordsRecovered
  split
  · constructor
    · intro hsame dim hd i hi
      have hget := congrArg (fun recs => recs[i]?) hsame
      exact (recordAt_eq_iff hwidth hi).mp (by simpa [recordsOf, hi] using hget) dim hd
    · intro hvalues
      refine List.ext_getElem (length_recordsOf s pts) fun i _ hi => ?_
      simpa [recordsOf] using (recordAt_eq_iff hwidth hi).mpr fun dim hd => hvalues dim hd i hi
  · rw [eq_comm, List.eq_replicate_iff]
    simp

theorem PcPatch.Holds.unpacked_eq_iff {pa : PcPatch} {pts : List Bytes} (h : pa.Holds P pts) :
    pa.unpacked pts = pts ↔ pa.Recovered pts := by
  cases pa with
  | dimensional d => exact unpackedRecords_eq_iff (PcPatchDimensional.Holds.width_eq h)
  | uncompressed p => exact iff_of_true rfl trivial
  | lazperf l => exact h.elim

/-- The size of the records. -/
def PcPatch.unpackedSize : PcPatch → Nat
  | .uncompressed p => p.datasize
  | pa => pa.schema.size * pa.npoints

/-- The statistics of the records, a copy where the records are new. -/
def PcPatch.unpackedStats : PcPatch → Option PcStats
  | .uncompressed p => p.stats
  | pa => pcStatsClone pa.stats

/-- What uncompressing a patch gives. -/
structure Unpacks (P : Platform) (pa : PcPatch) (pts : List Bytes) (u : PcPatchUncompressed) :
    Prop where
  uncompress_ok : pcPatchUncompress P pa = .ok u
  holds : u.Holds (pa.unpacked pts)
  schema_eq : u.schema = pa.schema
  npoints_eq : u.npoints = pa.npoints
  datasize_eq : u.datasize = pa.unpackedSize
  bounds_eq : u.bounds = pa.bounds
  stats_eq : u.stats = pa.unpackedStats

theorem PcPatch.Holds.unpacks {pa : PcPatch} {pts : List Bytes} (h : pa.Holds P pts)
    (hroom : pa.Allocatable) : ∃ u, Unpacks P pa pts u := by
  cases pa with
  | uncompressed p => exact ⟨p, rfl, h, rfl, rfl, rfl, rfl, rfl⟩
  | lazperf l => exact h.elim
  | dimensional d =>
      have hd : d.Holds P pts := h
      have hlen := hd.npoints_eq
      have hwidth := width_unpackedRecords hd.width_eq
      have hcount := length_unpackedRecords d.schema pts
      refine ⟨_, PcPatchDimensional.Holds.unpacks hd hroom, ⟨hd.npoints_lt, ?_, ?_⟩, rfl, rfl, rfl,
        rfl, rfl⟩
      · rw [content_bufOf, length_flatten_of_width hwidth, hcount, hlen]
      · rw [content_bufOf, ← hlen, ← hcount]
        exact records_flatten hwidth

/-- The bytes of statistics. -/
def PcStats.bytes (st : PcStats) : Bytes × Bytes × Bytes := (st.min.data, st.max.data, st.avg.data)

/-- The patch with other statistics. -/
def PcPatch.withStats (stats : Option PcStats) : PcPatch → PcPatch
  | .uncompressed p => .uncompressed { p with stats := stats }
  | .dimensional d => .dimensional { d with stats := stats }
  | .lazperf l => .lazperf { l with stats := stats }

@[simp] theorem PcPatch.stats_withStats (pa : PcPatch) (stats : Option PcStats) :
    (pa.withStats stats).stats = stats := by
  cases pa <;> rfl

@[simp] theorem PcPatch.schema_withStats (pa : PcPatch) (stats : Option PcStats) :
    (pa.withStats stats).schema = pa.schema := by
  cases pa <;> rfl

theorem PcPatch.Holds.withStats {pa : PcPatch} {pts : List Bytes} (h : pa.Holds P pts)
    (stats : Option PcStats) : (pa.withStats stats).Holds P pts := by
  cases pa with
  | uncompressed p => exact PcPatchUncompressed.Holds.with_stats h stats
  | dimensional d => exact PcPatchDimensional.Holds.with_stats h stats
  | lazperf l => exact h.elim

/-- The statistics that are computed are those of the records. -/
theorem Unpacks.computeStats_ok {pa : PcPatch} {pts : List Bytes} {u : PcPatchUncompressed}
    (h : Unpacks P pa pts u) : pcPatchComputeStats P pa =
      .ok (pa.withStats (some (statsOf P pa.schema (pa.unpacked pts)))) := by
  have hstats := pcPatchUncompressedComputeStats_eq P h.holds
  have hrun := h.uncompress_ok
  rw [h.schema_eq] at hstats
  cases pa with
  | uncompressed p =>
      cases hrun
      rw [pcPatchComputeStats, hstats, ok_bind, pure_eq_ok]
      rfl
  | dimensional d =>
      have hu : pcPatchUncompressedFromDimensional P d = .ok u := hrun
      rw [pcPatchComputeStats, hu, ok_bind, hstats, ok_bind, pure_eq_ok]
      rfl
  | lazperf l => exact absurd hrun (raise_ne_ok _ u)

/-- Uncompressing a patch is possible where the records can be allocated. -/
theorem PcPatch.Holds.allocatable_iff {pa : PcPatch} {pts : List Bytes} (h : pa.Holds P pts) :
    (∃ u, pcPatchUncompress P pa = .ok u) ↔ pa.Allocatable := by
  cases pa with
  | uncompressed p => exact iff_of_true ⟨p, rfl⟩ trivial
  | lazperf l => exact h.elim
  | dimensional d => exact pcPatchUncompressedFromDimensional_isOk_iff h

/-- Where statistics are computed, they are those of the records. -/
theorem PcPatch.Holds.computeStats_eq {pa q : PcPatch} {pts : List Bytes} (h : pa.Holds P pts)
    (hq : pcPatchComputeStats P pa = .ok q) :
    q = pa.withStats (some (statsOf P pa.schema (pa.unpacked pts))) := by
  have halloc : pa.Allocatable := by
    cases pa with
    | uncompressed p => trivial
    | dimensional d => exact (pcPatchComputeStats_dimensional h).mp ⟨q, hq⟩
    | lazperf l => trivial
  obtain ⟨u, hu⟩ := h.unpacks halloc
  exact Except.ok.inj (hq.symm.trans hu.computeStats_ok)

theorem PcPatch.allocatable_of_room (pa : PcPatch)
    (h : pa.schema.size * pa.npoints < 9223372036854775808) : pa.Allocatable := by
  cases pa with
  | dimensional d => exact h
  | _ => trivial

/-- Up to `2 ^ 31` points can be. -/
theorem PcPatch.allocatable_of_le {pa : PcPatch} (h : pa.npoints ≤ 2147483648) :
    pa.Allocatable := by
  cases pa with
  | uncompressed p => trivial
  | lazperf l => trivial
  | dimensional d =>
      have hsize := d.schema.size_lt
      exact Nat.lt_of_le_of_lt (Nat.mul_le_mul_left d.schema.size h) (by omega)

/-- The pair of coordinates. -/
def yxSchema : PcSchema := xySchema .uint8 .uint8 uint8_known uint8_known 1 .dimensional

/-- Of `2 ^ 31` points in dimensions zeros are left. -/
theorem manyOnes_lost {pts : List Bytes} (hpts : pts = List.replicate 2147483648 [1, 1]) :
    pts.length = 2147483648 ∧ (dimensionsOfRecords yxSchema pts).Holds P pts ∧
      unpackedRecords yxSchema pts ≠ pts := by
  have hlen : pts.length = 2147483648 := by rw [hpts, List.length_replicate]
  have hwidth : ∀ pt ∈ pts, pt.length = yxSchema.size := by
    intro pt hpt
    rw [hpts] at hpt
    rw [List.eq_of_mem_replicate hpt]
    rfl
  refine ⟨hlen, dimensionsOfRecords_holds hwidth (by omega), fun hsame => ?_⟩
  rw [unpackedRecords, if_neg (by omega), hlen, hpts, List.replicate_right_inj (by decide)] at hsame
  exact absurd hsame (by decide)

end Pointcloud
