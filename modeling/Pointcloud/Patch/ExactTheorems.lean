/-
Pointcloud.Patch.ExactTheorems — runs of operations on exact patches.

In runs whose steps meet `ExactCondition`, bounds and statistics of every patch are
the extremes of its points (`summaries_exact`), whatever the operations did to
maintain them. Without the condition they need not be, not even over integral
schemas (`integerRuns_not_exact`): WKB may have runs without values, which are in
the bounds and not among the points.

The points are those that the operations are meant to make: each run is simulated
by one on sequences of points (`operations_simulated`). And no filter loses a point
by looking at the statistics first (`filters_exact`).
-/
import Pointcloud.Patch.KeptTheorems

namespace Pointcloud

open Pointcloud.Base

variable {P : Platform}

/-- Every schema is integral, all values are within the limits of `double`, WKB is read
exactly, zlib gives back what a filter keeps, only records are compressed whose columns every
encoding can hold, points are sorted by some dimension, and patches that are put together
have one schema for one format. -/
def ExactCondition (P : Platform) : Operation → Prop
  | .fromPointlist pl => ∀ first, pl.points.head? = some (some first) →
      first.schema.Integral ∧ ∀ pt, some pt ∈ pl.points →
        first.schema.InDoubles P.endian (pt.data.take first.schema.size)
  | .fromWkb s wkb => s.Integral ∧ ∀ c pa, wkbGetCompression P.endian wkb = .ok c →
      patchFromWkb P s wkb wkb.length c = .ok pa → pa.ReadsExactly P
  | .compress pa userdata => CompressRestores P pa userdata
  | .filter pa dimnum condition val1 val2 => FilterRestores P pa dimnum condition val1 val2
  | .sort _ names => names ≠ []
  | .fromPatchlist palist => IdentifiedSchemas palist
  | .setSchema pa s dflt => s.Integral ∧ ∀ u, pcPatchUncompress P pa = .ok u →
      ∀ pt ∈ u.points, s.InDoubles P.endian (moved P pa.schema s dflt pt)
  | .transform pa s dflt => s.Integral ∧ ∀ u, pcPatchUncompress P pa = .ok u →
      ∀ pt ∈ u.points, s.InDoubles P.endian (converted P pa.schema s dflt pt)
  | .uncompress _ | .range _ _ _ => True

/-- An operation returns a patch with points. -/
def Operation.Gives (P : Platform) (S : SortR) (op : Operation) (pa : PcPatch) : Prop :=
  op.run P S = .ok (some pa) ∧ 1 ≤ pa.npoints

/-- What can be made by steps that meet the condition and give points. -/
abbrev MadeExactly (P : Platform) (S : SortR) : PcPatch → Prop :=
  Derivable Operation.inputs (Operation.Gives P S) (ExactCondition P)

/-- A patch stands for a sequence of points, and its summary is theirs. -/
def PcPatch.Represents (P : Platform) (pa : PcPatch) (ps : PointSequence) : Prop :=
  pa.schema = ps.schema ∧ pa.Kept P ps.points

/-! ## Steps -/

/-- The only patch that is given, with what it stands for. -/
theorem represents_singleton {pa : PcPatch} {pss : List PointSequence}
    (h : List.Forall₂ (PcPatch.Represents P) [pa] pss) :
    ∃ s pts, pss = [⟨s, pts⟩] ∧ pa.schema = s ∧ pa.Kept P pts := by
  obtain ⟨ps, _, ⟨hschema, hkept⟩, hnil, rfl⟩ := List.forall₂_cons_left_iff.mp h
  rw [List.forall₂_nil_left_iff.mp hnil]
  exact ⟨ps.schema, ps.points, rfl, hschema, hkept⟩

/-- Every operation makes a patch that stands for the points that it is meant to make. -/
theorem represents_of_run {S : SortR} {op : Operation} {qa : PcPatch}
    (hcond : ExactCondition P op) (hgives : op.Gives P S qa) {pss : List PointSequence}
    (h : List.Forall₂ (PcPatch.Represents P) op.inputs pss) :
    ∃ q, (op.CountsInInt → op.Means P pss q) ∧ qa.Represents P q := by
  obtain ⟨hrun, hpos⟩ := hgives
  cases op with
  | fromPointlist pl =>
      obtain ⟨p, hp, hret⟩ := bind_eq_ok.mp hrun
      cases hret
      obtain ⟨first, hfirst, hschema, hkept⟩ := kept_of_fromPointlist hcond hp
      exact ⟨⟨first.schema, _⟩, fun _ => ⟨first, hfirst, rfl⟩, hschema, hkept⟩
  | fromWkb s wkb =>
      obtain ⟨pa, hpa, hret⟩ := bind_eq_ok.mp hrun
      cases hret
      obtain ⟨c, ra, u, hc, hra, hu, hschema, hkept⟩ := kept_of_read hcond.1 hcond.2 hpa hpos
      exact ⟨⟨s, u.points⟩, fun _ => ⟨c, ra, u, hc, hra, hu, rfl⟩, hschema, hkept⟩
  | compress pa userdata =>
      obtain ⟨s, pts, rfl, hs, hkept⟩ := represents_singleton h
      obtain ⟨⟨ra, userdata'⟩, hra, hret⟩ := bind_eq_ok.mp hrun
      cases hret
      obtain ⟨hschema, hra⟩ := hkept.compress hcond hra
      exact ⟨⟨s, pts⟩, fun _ => rfl, hschema.trans hs, hra⟩
  | uncompress pa =>
      obtain ⟨s, pts, rfl, hs, hkept⟩ := represents_singleton h
      obtain ⟨u, hu, hret⟩ := bind_eq_ok.mp hrun
      cases hret
      exact ⟨⟨s, pts⟩, fun _ => rfl, (schema_of_uncompress hu).1.trans hs, hkept.uncompressed hu⟩
  | filter pa dimnum condition val1 val2 =>
      obtain ⟨s, pts, rfl, rfl, hkept⟩ := represents_singleton h
      obtain ⟨ra, hra, hret⟩ := bind_eq_ok.mp hrun
      cases hret
      obtain ⟨dim, hdim, hschema, hra, -⟩ := hkept.filter hcond hra hpos
      exact ⟨⟨pa.schema, _⟩, fun _ => ⟨dim, hdim, rfl⟩, hschema, hra⟩
  | range pa first count =>
      obtain ⟨s, pts, rfl, rfl, hkept⟩ := represents_singleton h
      obtain ⟨qts, hschema, hqa⟩ := hkept.range hrun
      refine ⟨⟨pa.schema, qts⟩, fun hint => ?_, hschema, hqa⟩
      obtain ⟨hlt, hlo, hhi⟩ := hint
      rw [hkept.range_eq hlt hlo hhi hrun hqa.stands]
      rfl
  | sort pa names =>
      obtain ⟨s, pts, rfl, rfl, hkept⟩ := represents_singleton h
      obtain ⟨ra, hra, hret⟩ := bind_eq_ok.mp hrun
      cases hret
      obtain ⟨qts, dims, hschema, hra, hperm, hnames, hsorted⟩ := hkept.sort hcond hra
      exact ⟨⟨pa.schema, qts⟩, fun _ => ⟨rfl, hperm, dims, hnames, hsorted⟩, hschema, hra⟩
  | fromPatchlist palist =>
      obtain ⟨q, hq, hret⟩ := bind_eq_ok.mp hrun
      cases hret
      have hpoints : List.Forall₂ (PcPatch.Kept P) palist (pss.map PointSequence.points) := by
        rw [List.forall₂_map_right_iff]
        exact h.imp fun _ _ hps => hps.2
      obtain ⟨hschema, hkept⟩ := kept_of_fromPatchlist hpoints hcond hq
      have hsame : List.Forall₂ (fun (_ : PcPatch) (ps : PointSequence) => ps.schema = q.schema)
          palist pss := ((List.forall₂_and_left _ _).mpr ⟨hschema, h⟩).imp
        fun _ _ hps => hps.2.1.symm.trans hps.1
      refine ⟨⟨q.schema, _⟩, fun _ => ⟨fun ps hps => ?_, rfl⟩, rfl, hkept⟩
      obtain ⟨_, hps⟩ := exists_forall₂_iff.mp ⟨_, hsame.flip⟩ ps hps
      exact hps
  | setSchema pa s dflt =>
      obtain ⟨_, pts, rfl, rfl, hkept⟩ := represents_singleton h
      obtain ⟨q, hq, hret⟩ := bind_eq_ok.mp hrun
      cases hret
      obtain ⟨u, hu, -⟩ := hkept.stands.uncompress
      have hpoints := (hkept.stands.holds hu).2
      obtain ⟨hschema, hqa⟩ := hkept.setSchema hcond.1 (hpoints ▸ hcond.2 u hu) hq
      exact ⟨⟨s, _⟩, fun _ => rfl, hschema, hqa⟩
  | transform pa s dflt =>
      obtain ⟨_, pts, rfl, rfl, hkept⟩ := represents_singleton h
      obtain ⟨q, hq, hret⟩ := bind_eq_ok.mp hrun
      cases q with
      | none => cases hret
      | some q =>
          cases hret
          obtain ⟨u, hu, -⟩ := hkept.stands.uncompress
          have hpoints := (hkept.stands.holds hu).2
          obtain ⟨hschema, hqa⟩ := hkept.transform hcond.1 (hpoints ▸ hcond.2 u hu) hq
          exact ⟨⟨s, _⟩, fun _ => rfl, hschema, hqa⟩

/-! ## Exact summaries -/

/-- A patch that can be uncompressed, to points of which its bounds and statistics are the
extremes. -/
structure PcPatch.Exact (P : Platform) (pa : PcPatch) : Prop where
  npoints_pos : 1 ≤ pa.npoints
  summary : ∃ u st, pcPatchUncompress P pa = .ok u ∧ u.points.length = pa.npoints ∧
    pa.stats = some st ∧ Summarizes P.endian pa.schema u.points pa.bounds st

/-- What a patch stands for is what it is uncompressed to. -/
theorem PcPatch.Kept.exact {pa : PcPatch} {pts : List Bytes} (h : pa.Kept P pts) : pa.Exact P := by
  obtain ⟨u, hu, -⟩ := h.stands.uncompress
  have hpoints := (h.stands.holds hu).2
  have hlen := h.stands.npoints_eq
  obtain ⟨st, hst, hsummary⟩ := h.summary
  constructor
  · rw [← hlen]
    exact List.length_pos_of_ne_nil h.ne
  · exact ⟨u, st, hu, hpoints ▸ hlen, hst, hpoints ▸ hsummary⟩

theorem exists_kept_of_made {S : SortR} {pa : PcPatch} (h : MadeExactly P S pa) :
    ∃ pts, pa.Kept P pts := by
  have hrepresents : ∃ ps, pa.Represents P ps := h.invariant fun op qa hcond hgives hinputs => by
    obtain ⟨pss, hpss⟩ := exists_forall₂_iff.mpr hinputs
    obtain ⟨q, -, hq⟩ := represents_of_run hcond hgives hpss
    exact ⟨q, hq⟩
  obtain ⟨ps, -, hkept⟩ := hrepresents
  exact ⟨ps.points, hkept⟩

/-- In runs whose steps all meet the condition, bounds and statistics of every patch are
the extremes of its points. -/
theorem summaries_exact (P : Platform) (S : SortR) : ∀ pa, MadeExactly P S pa → pa.Exact P := by
  intro pa hpa
  obtain ⟨pts, hkept⟩ := exists_kept_of_made hpa
  exact hkept.exact

theorem yxSchema_integral : yxSchema.Integral :=
  ⟨⟨rfl, rfl⟩, by decide +kernel, by decide +kernel⟩

instance (en : Endian) (s : PcSchema) (pt : Bytes) : Decidable (s.InDoubles en pt) :=
  inferInstanceAs (Decidable (∀ dim ∈ s.dims,
    -dblMax ≤ dim.valueIn en pt ∧ dim.valueIn en pt ≤ dblMax))

/-- WKB of two points. -/
def twoPointsWkb : Bytes := [1, 1, 0, 0, 0, 0, 0, 0, 0, 2, 0, 0, 0, 1, 5, 2, 5]

theorem exactCondition_twoPoints :
    ExactCondition Platform.plain (.fromWkb yxSchema twoPointsWkb) := by
  refine ⟨yxSchema_integral, fun c ra hc hra => ?_⟩
  have hnone : wkbGetCompression .little twoPointsWkb = .ok 0 := by decide +kernel
  cases hnone.symm.trans hc
  have hschema := (patchFromWkb_fields hra).2.1
  obtain ⟨p, hp, hra⟩ := bind_eq_ok.mp hra
  cases hra
  have hpoints : (pcPatchUncompressedFromWkb Platform.plain yxSchema twoPointsWkb
      twoPointsWkb.length).map PcPatchUncompressed.points = .ok [[1, 5], [2, 5]] := by
    decide +kernel
  obtain ⟨p', hp', hpoints⟩ := exists_of_map_eq_ok hpoints
  cases hp.symm.trans hp'
  refine ⟨fun u hu pt hpt => ?_, by simp⟩
  cases hu
  rw [hschema]
  rw [hpoints] at hpt
  revert pt
  decide +kernel

/-- Few records can be compressed, whatever is recommended. -/
theorem PcPatch.Kept.compressRestores {p : PcPatchUncompressed} {pts : List Bytes}
    (h : (PcPatch.uncompressed p).Kept P pts) (hcompression : p.schema.compression = .dimensional)
    (hsmall : p.npoints * p.schema.size < 536870912) :
    CompressRestores P (.uncompressed p) none := by
  obtain ⟨hholds, hpoints⟩ := h.stands.holds (u := p) rfl
  refine .inr ⟨hcompression, p, rfl, fits_of_records (by omega), by simp, fun dim hd c hc => ?_⟩
  have hwidth : ∀ v ∈ p.points.map dim.bytesIn, v.length = dim.size := by
    simp only [List.mem_map, forall_exists_index, and_imp, forall_apply_eq_imp_iff₂]
    intro pt hpt
    exact p.schema.length_bytesIn hd (hholds.width_eq pt (hpoints ▸ hpt))
  have hlen : (p.points.map dim.bytesIn).length = p.npoints := by
    rw [List.length_map, hpoints]
    exact hholds.length_eq
  have hpos : 1 ≤ p.npoints := by
    rw [← hholds.length_eq]
    exact List.length_pos_of_ne_nil h.ne
  have hle : dim.size ≤ p.schema.size := Nat.le_trans (Nat.le_add_left _ _) (p.schema.dim_end_le hd)
  refine encodable_of_small (plainArray_plain hd hwidth) ?_ ?_ hc
  · exact Nat.le_trans hpos hlen.ge
  · rw [PcBytes.Small, width_plainArray hd]
    calc (p.points.map dim.bytesIn).length * dim.size = p.npoints * dim.size := by rw [hlen]
      _ ≤ p.npoints * p.schema.size := Nat.mul_le_mul_left _ hle
      _ < 536870912 := hsmall

/-- Reading two points is a run. -/
theorem made_twoPoints {meets : Operation → Prop} {pa : PcPatch}
    (hmeets : meets (.fromWkb yxSchema twoPointsWkb)) (hpos : 1 ≤ pa.npoints)
    (hread : pcPatchFromWkb Platform.plain yxSchema twoPointsWkb twoPointsWkb.length = .ok pa) :
    Derivable Operation.inputs (Operation.Gives Platform.plain SortR.insertion) meets pa :=
  .step (i := .fromWkb yxSchema twoPointsWkb) hmeets (by simp [Operation.inputs])
    ⟨by rw [Operation.run, hread, ok_bind, pure_eq_ok], hpos⟩

/-- The two points are in records, which can be compressed. -/
theorem compressRestores_twoPoints {pa : PcPatch}
    (hread : pcPatchFromWkb Platform.plain yxSchema twoPointsWkb twoPointsWkb.length = .ok pa) :
    ∃ p, pa = .uncompressed p ∧ CompressRestores Platform.plain pa none := by
  have hfields : (pcPatchFromWkb Platform.plain yxSchema twoPointsWkb twoPointsWkb.length).map
      (fun pa => (pa.npoints, pa.schema.size, pa.type, pa.schema.compression)) =
        .ok (2, 2, .none, .dimensional) := by decide +kernel
  obtain ⟨pa', hpa', hfields⟩ := exists_of_map_eq_ok hfields
  cases hread.symm.trans hpa'
  simp only [Prod.mk.injEq] at hfields
  obtain ⟨hnpoints, hsize, htype, hcompression⟩ := hfields
  cases pa with
  | dimensional d => cases htype
  | lazperf l => cases htype
  | uncompressed p =>
      obtain ⟨c, ra, u, -, -, -, -, hkept⟩ := kept_of_read exactCondition_twoPoints.1
        exactCondition_twoPoints.2 hread (by omega)
      refine ⟨p, rfl, hkept.compressRestores hcompression ?_⟩
      rw [show p.npoints = 2 from hnpoints, show p.schema.size = 2 from hsize]
      decide

/-- A run that reads two points, compresses them, puts the two patches together and takes the
last three points. -/
theorem summaries_exact_witness :
    ∃ pa, MadeExactly Platform.plain SortR.insertion pa ∧ pa.npoints = 3 ∧
      pa.Exact Platform.plain := by
  have hrun : (do
      let pa ← pcPatchFromWkb Platform.plain yxSchema twoPointsWkb twoPointsWkb.length
      let compressed ← pcPatchCompress Platform.plain pa none
      let union ← pcPatchFromPatchlist Platform.plain [compressed.1, pa]
      let range ← pcPatchRange Platform.plain (.uncompressed union) 2 3
      return ([pa.npoints, compressed.1.npoints, union.npoints], range.map PcPatch.npoints)) =
        (.ok ([2, 2, 4], some 3) : Run _) := by decide +kernel
  obtain ⟨pa, hpa, hrun⟩ := bind_eq_ok.mp hrun
  obtain ⟨⟨compressed, userdata⟩, hcompressed, hrun⟩ := bind_eq_ok.mp hrun
  obtain ⟨union, hunion, hrun⟩ := bind_eq_ok.mp hrun
  obtain ⟨range, hrange, hrun⟩ := bind_eq_ok.mp hrun
  rw [pure_eq_ok, Except.ok.injEq, Prod.mk.injEq] at hrun
  obtain ⟨hnpoints, hrun⟩ := hrun
  simp only [List.cons.injEq, and_true] at hnpoints
  obtain ⟨hpoints, hcpoints, hupoints⟩ := hnpoints
  obtain ⟨qa, rfl, hthree⟩ := Option.map_eq_some_iff.mp hrun
  have hread : MadeExactly Platform.plain SortR.insertion pa :=
    made_twoPoints exactCondition_twoPoints (by omega) hpa
  obtain ⟨p, -, hrestores⟩ := compressRestores_twoPoints hpa
  have hschema : compressed.schema = pa.schema := by
    obtain ⟨pts, hkept⟩ := exists_kept_of_made hread
    exact (hkept.compress hrestores hcompressed).1
  have hmade : MadeExactly Platform.plain SortR.insertion compressed :=
    .step (i := .compress pa none) (by exact hrestores) (by simpa [Operation.inputs] using hread)
      ⟨by rw [Operation.run, hcompressed]; rfl, by omega⟩
  have hone : ExactCondition Platform.plain (.fromPatchlist [compressed, pa]) := by
    intro qa hqa qb hqb _
    have hall : ∀ q ∈ [compressed, pa], q.schema = pa.schema := by
      simp [hschema]
    rw [hall qa hqa, hall qb hqb]
  have hmade : MadeExactly Platform.plain SortR.insertion (.uncompressed union) :=
    .step hone (by simp [Operation.inputs, hmade, hread])
      ⟨by rw [Operation.run, hunion]; rfl, hupoints.ge.trans' (by decide)⟩
  have hmade : MadeExactly Platform.plain SortR.insertion qa :=
    .step (i := .range (.uncompressed union) 2 3) (by exact trivial)
      (by simpa [Operation.inputs] using hmade) ⟨by exact hrange, by omega⟩
  exact ⟨qa, hmade, hthree, summaries_exact Platform.plain SortR.insertion qa hmade⟩

/-! ## Runs over integers

All schemas are integral and only records are compressed; anything else may be done. What
`ExactCondition` asks for beyond that is about sizes, about values beyond the limits of
`double`, and about runs without values: the extent is searched among the entries of an
array, whatever their counts, and the statistics among the points. -/

/-- The schemas of points, of WKB and new ones are integral, and only records are
compressed. -/
def Operation.OverIntegers : Operation → Prop
  | .fromPointlist pl => ∀ first, pl.points.head? = some (some first) → first.schema.Integral
  | .fromWkb s _ | .setSchema _ s _ | .transform _ s _ => s.Integral
  | .compress pa _ => ∃ p, pa = .uncompressed p
  | .uncompress _ | .filter _ _ _ _ _ | .range _ _ _ | .sort _ _ | .fromPatchlist _ => True

/-- What such runs make by steps that meet the condition and give points. -/
abbrev MadeOverIntegers (P : Platform) (S : SortR) : PcPatch → Prop :=
  Derivable Operation.inputs (Operation.Gives P S) fun op => op.OverIntegers ∧ ExactCondition P op

theorem MadeOverIntegers.madeExactly {S : SortR} {pa : PcPatch} (h : MadeOverIntegers P S pa) :
    MadeExactly P S pa :=
  h.invariant fun _ _ hmeets hgives hinputs => .step hmeets.2 hinputs hgives

/-- In runs over integers whose steps all meet the condition, bounds and statistics of
every patch are the extremes of its points. -/
theorem integerRuns_exact (P : Platform) (S : SortR) :
    ∀ pa, MadeOverIntegers P S pa → pa.Exact P := by
  intro pa hpa
  obtain ⟨pts, hkept⟩ := exists_kept_of_made hpa.madeExactly
  exact hkept.exact

/-- A run that reads two points, compresses them, uncompresses and sorts them and takes those
with an x above one. -/
theorem integerRuns_exact_witness : ∃ pa, MadeOverIntegers Platform.plain SortR.insertion pa ∧
    pa.npoints = 1 ∧ pa.Exact Platform.plain := by
  have hrun : (do
      let pa ← pcPatchFromWkb Platform.plain yxSchema twoPointsWkb twoPointsWkb.length
      let compressed ← pcPatchCompress Platform.plain pa none
      let u ← pcPatchUncompress Platform.plain compressed.1
      let sorted ← pcPatchSort Platform.plain SortR.insertion (.uncompressed u) ["y", "x"]
      let filtered ← pcPatchFilter Platform.plain sorted 0 .gt 1 0
      return ([pa.npoints, compressed.1.npoints, u.npoints, sorted.npoints, filtered.npoints],
        sorted.type)) = (.ok ([2, 2, 2, 2, 1], .none) : Run _) := by decide +kernel
  obtain ⟨pa, hpa, hrun⟩ := bind_eq_ok.mp hrun
  obtain ⟨⟨compressed, userdata⟩, hcompressed, hrun⟩ := bind_eq_ok.mp hrun
  obtain ⟨u, hu, hrun⟩ := bind_eq_ok.mp hrun
  obtain ⟨sorted, hsorted, hrun⟩ := bind_eq_ok.mp hrun
  obtain ⟨filtered, hfiltered, hrun⟩ := bind_eq_ok.mp hrun
  rw [pure_eq_ok, Except.ok.injEq, Prod.mk.injEq] at hrun
  obtain ⟨hnpoints, hstype⟩ := hrun
  simp only [List.cons.injEq, and_true] at hnpoints
  obtain ⟨hpoints, hcpoints, hupoints, hspoints, hone⟩ := hnpoints
  have hread : MadeOverIntegers Platform.plain SortR.insertion pa :=
    made_twoPoints ⟨yxSchema_integral, exactCondition_twoPoints⟩ (by omega) hpa
  obtain ⟨p, rfl, hrestores⟩ := compressRestores_twoPoints hpa
  have hmade : MadeOverIntegers Platform.plain SortR.insertion compressed :=
    .step (i := .compress (.uncompressed p) none) (by exact ⟨⟨p, rfl⟩, hrestores⟩)
      (by simpa [Operation.inputs] using hread)
      ⟨by rw [Operation.run, hcompressed]; rfl, by omega⟩
  have hmade : MadeOverIntegers Platform.plain SortR.insertion (.uncompressed u) :=
    .step (i := .uncompress compressed) (by exact ⟨trivial, trivial⟩)
      (by simpa [Operation.inputs] using hmade)
      ⟨by rw [Operation.run, hu]; rfl, hupoints.ge.trans' (by decide)⟩
  have hmade : MadeOverIntegers Platform.plain SortR.insertion sorted :=
    .step (i := .sort (.uncompressed u) ["y", "x"]) (by exact ⟨trivial, List.cons_ne_nil _ _⟩)
      (by simpa [Operation.inputs] using hmade)
      ⟨by rw [Operation.run, hsorted]; rfl, by omega⟩
  have hrestores : FilterRestores Platform.plain sorted 0 .gt 1 0 := by
    rintro d rfl
    cases hstype
  have hmade : MadeOverIntegers Platform.plain SortR.insertion filtered :=
    .step (i := .filter sorted 0 .gt 1 0) (by exact ⟨trivial, hrestores⟩)
      (by simpa [Operation.inputs] using hmade)
      ⟨by rw [Operation.run, hfiltered]; rfl, by omega⟩
  exact ⟨filtered, hmade, hone, integerRuns_exact Platform.plain SortR.insertion filtered hmade⟩

/-- WKB of the point `(5, 7)`, in whose array of x a run without values comes first. -/
def emptyRunWkb : Bytes :=
  [1, 1, 0, 0, 0, 1, 0, 0, 0, 1, 0, 0, 0, 1, 4, 0, 0, 0, 0, 99, 1, 5, 0, 1, 0, 0, 0, 7]

/-- The run without values is in the bounds, and not among the points. -/
theorem integerRuns_not_exact : ¬ ∀ pa,
    Derivable Operation.inputs (Operation.Gives Platform.plain SortR.insertion)
      Operation.OverIntegers pa → pa.Exact Platform.plain := by
  intro hall
  have hread : (do
      let pa ← pcPatchFromWkb Platform.plain yxSchema emptyRunWkb emptyRunWkb.length
      let u ← pcPatchUncompress Platform.plain pa
      return (pa.npoints, pa.bounds, pa.schema.xdimension, u.points)) =
        (.ok (1, ⟨5, 99, 7, 7⟩, some ⟨some "X", 0, 1, 0, .uint8, 1, 0⟩, [[5, 7]]) : Run _) := by
    decide +kernel
  obtain ⟨pa, hpa, hread⟩ := bind_eq_ok.mp hread
  obtain ⟨u, hu, hread⟩ := bind_eq_ok.mp hread
  rw [pure_eq_ok, Except.ok.injEq, Prod.mk.injEq, Prod.mk.injEq, Prod.mk.injEq] at hread
  obtain ⟨hnpoints, hbounds, hxdim, hpoints⟩ := hread
  have hover : Operation.OverIntegers (.fromWkb yxSchema emptyRunWkb) := yxSchema_integral
  have hexact := hall pa (.step hover (by simp [Operation.inputs])
    ⟨by rw [Operation.run, hpa, ok_bind, pure_eq_ok], by omega⟩)
  obtain ⟨u', st, hu', -, -, hsummary⟩ := hexact.summary
  cases hu.symm.trans hu'
  obtain ⟨-, hgreatest⟩ := hsummary.bounds.1 _ hxdim
  have hmem := hgreatest.1
  rw [hbounds, hpoints] at hmem
  revert hmem
  decide +kernel

/-! ## Simulation -/

/-- What can be made by such steps with counts that fit in an `int`, with the points
that it stands for. -/
abbrev MadeAs (P : Platform) (S : SortR) : PcPatch → PointSequence → Prop :=
  DerivableAs (Operation.Means P) Operation.inputs (Operation.Gives P S)
    fun op => ExactCondition P op ∧ op.CountsInInt

/-- Every run is simulated by one on sequences of points: a patch is uncompressed to the
points that the operations are meant to make. -/
theorem operations_simulated (P : Platform) (S : SortR) : ∀ pa,
    Derivable Operation.inputs (Operation.Gives P S)
      (fun op => ExactCondition P op ∧ op.CountsInInt) pa →
    ∃ u, pcPatchUncompress P pa = .ok u ∧ MadeAs P S pa ⟨pa.schema, u.points⟩ := by
  intro pa hpa
  have hsimulated : ∃ ps, MadeAs P S pa ps ∧ pa.Represents P ps := by
    refine hpa.simulated fun op qa pss hmeets hgives h => ?_
    obtain ⟨q, hmeans, hq⟩ := represents_of_run hmeets.1 hgives h
    exact ⟨q, hmeans hmeets.2, hq⟩
  obtain ⟨⟨s, pts⟩, hmade, hschema, hkept⟩ := hsimulated
  obtain ⟨u, hu, -⟩ := hkept.stands.uncompress
  refine ⟨u, hu, ?_⟩
  rw [(hkept.stands.holds hu).2, show pa.schema = s from hschema]
  exact hmade

/-- The points that are read and compressed stand for themselves. -/
theorem operations_simulated_witness :
    ∃ pa u, pa.type = .dimensional ∧ pcPatchUncompress Platform.plain pa = .ok u ∧
      u.points = [[1, 5], [2, 5]] ∧
      MadeAs Platform.plain SortR.insertion pa ⟨pa.schema, u.points⟩ := by
  have hrun : (do
      let pa ← pcPatchFromWkb Platform.plain yxSchema twoPointsWkb twoPointsWkb.length
      let compressed ← pcPatchCompress Platform.plain pa none
      let u ← pcPatchUncompress Platform.plain compressed.1
      return (pa.npoints, compressed.1.npoints, compressed.1.type, u.points)) =
        (.ok (2, 2, .dimensional, [[1, 5], [2, 5]]) : Run _) := by decide +kernel
  obtain ⟨pa, hpa, hrun⟩ := bind_eq_ok.mp hrun
  obtain ⟨⟨compressed, userdata⟩, hcompressed, hrun⟩ := bind_eq_ok.mp hrun
  obtain ⟨u, hu, hrun⟩ := bind_eq_ok.mp hrun
  rw [pure_eq_ok, Except.ok.injEq, Prod.mk.injEq, Prod.mk.injEq, Prod.mk.injEq] at hrun
  obtain ⟨hnpoints, hcpoints, htype, hpoints⟩ := hrun
  obtain ⟨p, -, hrestores⟩ := compressRestores_twoPoints hpa
  have hread : Derivable Operation.inputs (Operation.Gives Platform.plain SortR.insertion)
      (fun op => ExactCondition Platform.plain op ∧ op.CountsInInt) pa :=
    made_twoPoints ⟨exactCondition_twoPoints, trivial⟩ (by omega) hpa
  obtain ⟨u', hu', hmade⟩ := operations_simulated Platform.plain SortR.insertion compressed
    (.step (i := .compress pa none) (by exact ⟨hrestores, trivial⟩)
      (by simpa [Operation.inputs] using hread)
      ⟨by rw [Operation.run, hcompressed]; rfl, hcpoints.ge.trans' (by decide)⟩)
  cases hu.symm.trans hu'
  exact ⟨compressed, u, htype, hu, hpoints, hmade⟩

/-! ## Filters -/

/-- In such runs a filter gives exactly the points that pass, and in their order. The
look at the statistics, which may settle the matter first, loses none. -/
theorem filters_exact (P : Platform) (S : SortR) : ∀ pa, MadeExactly P S pa →
    ∀ dimnum filter val1 val2, FilterRestores P pa dimnum filter val1 val2 →
    ∀ qa, pcPatchFilter P pa dimnum filter val1 val2 = .ok qa →
      ∃ dim u u', pa.schema.dims[dimnum]? = some dim ∧ pcPatchUncompress P pa = .ok u ∧
        pcPatchUncompress P qa = .ok u' ∧
        u'.points = u.points.filter fun pt => filter.holds (dim.valueIn P.endian pt) val1 val2 := by
  intro pa hpa dimnum filter val1 val2 hcond qa hrun
  obtain ⟨pts, hkept⟩ := exists_kept_of_made hpa
  obtain ⟨u, hu, -⟩ := hkept.stands.uncompress
  have hpoints := (hkept.stands.holds hu).2
  obtain ⟨dim, hdim, hschema, ⟨hnone, hempty⟩ | ⟨hqa, -⟩⟩ := hkept.filtered hcond hrun
  · obtain ⟨p, hp, hret⟩ := bind_eq_ok.mp hempty
    cases hret
    have hnpoints := (pcPatchUncompressedMake_fields hp).2.1
    refine ⟨dim, u, p, hdim, hu, rfl, ?_⟩
    rw [hpoints, PcPatchUncompressed.points, hnpoints]
    exact hnone.symm
  · obtain ⟨u', hu', -⟩ := hqa.stands.uncompress
    exact ⟨dim, u, u', hdim, hu, hu', hpoints.symm ▸ (hqa.stands.holds hu').2⟩

/-- The points with an x above one, of the two that are read. -/
theorem filters_exact_witness :
    ∃ pa qa u', MadeExactly Platform.plain SortR.insertion pa ∧
      pcPatchFilter Platform.plain pa 0 .gt 1 0 = .ok qa ∧
      pcPatchUncompress Platform.plain qa = .ok u' ∧ u'.points = [[2, 5]] := by
  have hread : (do
      let pa ← pcPatchFromWkb Platform.plain yxSchema twoPointsWkb twoPointsWkb.length
      let qa ← pcPatchFilter Platform.plain pa 0 .gt 1 0
      let u ← pcPatchUncompress Platform.plain pa
      return (pa.npoints, pa.type.code, pa.schema.dims[0]?, u.points)) =
        (.ok (2, 0, some ⟨some "X", 0, 1, 0, .uint8, 1, 0⟩, [[1, 5], [2, 5]]) : Run _) := by
    decide +kernel
  obtain ⟨pa, hpa, hread⟩ := bind_eq_ok.mp hread
  obtain ⟨qa, hqa, hread⟩ := bind_eq_ok.mp hread
  obtain ⟨u, hu, hread⟩ := bind_eq_ok.mp hread
  obtain ⟨hnpoints, htype, hfirst, hpoints⟩ :
      pa.npoints = 2 ∧ pa.type.code = 0 ∧
        pa.schema.dims[0]? = some ⟨some "X", 0, 1, 0, .uint8, 1, 0⟩ ∧
        u.points = [[1, 5], [2, 5]] := by simpa using hread
  have hmade : MadeExactly Platform.plain SortR.insertion pa :=
    made_twoPoints exactCondition_twoPoints (by omega) hpa
  have hcond : FilterRestores Platform.plain pa 0 .gt 1 0 := by
    rintro d rfl
    exact absurd htype (by simp [PcPatch.type, PcCompression.code])
  obtain ⟨dim, v, u', hdim, hv, hu', hpassing⟩ :=
    filters_exact Platform.plain SortR.insertion pa hmade 0 .gt 1 0 hcond qa hqa
  cases hu.symm.trans hv
  cases hfirst.symm.trans hdim
  refine ⟨pa, qa, u', hmade, hqa, hu', ?_⟩
  rw [hpassing, hpoints]
  decide +kernel

end Pointcloud
