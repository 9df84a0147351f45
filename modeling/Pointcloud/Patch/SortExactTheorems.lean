/-
Pointcloud.Patch.SortExactTheorems — what sorting a patch keeps.

The comparison orders records as their keys are ordered, so the records come
out sorted, and none is lost. The bounds and the statistics of the patch are
copied. Those of records do not depend on their order; those of dimensions are
found in another way than those of the records that come out.
-/
import Pointcloud.Patch.ExtentTheorems
import Pointcloud.Patch.SortTheorems

namespace Pointcloud

open Pointcloud.Base

variable {P : Platform}

/-! ## The order of records -/

/-- Bounds and statistics do not depend on the order of the points. -/
theorem boundsOf_perm {en : Endian} (xdim ydim : PcDimension) {pts pts' : List Bytes}
    (h : pts'.Perm pts) : boundsOf en xdim ydim pts' = boundsOf en xdim ydim pts := by
  have hmem : ∀ (dim : PcDimension) x, x ∈ dim.column en pts' ↔ x ∈ dim.column en pts :=
    fun dim x => (h.map (dim.valueIn en)).mem_iff
  simp only [boundsOf, foldl_min_of_mem_iff (hmem _), foldl_max_of_mem_iff (hmem _)]

/-- The extent of no points. -/
theorem computeExtent_empty (en : Endian) {p : PcPatchUncompressed} (h : p.npoints = 0) :
    pcPatchUncompressedComputeExtent en p = .ok { p with bounds := pcBoundsInit } := by
  rw [pcPatchUncompressedComputeExtent, h]
  rfl

/-- The extent of records that are the same in another order. -/
theorem computeExtent_perm {p q r : PcPatchUncompressed} {pts pts' : List Bytes}
    (hp : p.Holds pts) (hq : q.Holds pts') (hperm : pts'.Perm pts) (hschema : q.schema = p.schema)
    (h : pcPatchUncompressedComputeExtent P.endian p = .ok r) :
    ∃ r', pcPatchUncompressedComputeExtent P.endian q = .ok r' ∧ r'.bounds = r.bounds := by
  have hn : q.npoints = p.npoints := by rw [← hq.length_eq, hperm.length_eq, hp.length_eq]
  by_cases hpos : 1 ≤ p.npoints
  · have hvalid := valid_of_computeExtent hpos h
    have hint := (pcPatchUncompressedComputeExtent_isOk_iff P.endian hvalid hp.room).mp ⟨r, h⟩
    obtain ⟨xdim, hx, hxdim⟩ := hvalid.xdimension
    obtain ⟨ydim, hy, hydim⟩ := hvalid.ydimension
    rw [pcPatchUncompressedComputeExtent_ok P.endian hp hint hxdim hydim hx hy,
      Except.ok.injEq] at h
    refine ⟨_, pcPatchUncompressedComputeExtent_ok P.endian hq (hn ▸ hint) (hschema ▸ hxdim)
      (hschema ▸ hydim) (hschema ▸ hx) (hschema ▸ hy), ?_⟩
    rw [← h]
    exact boundsOf_perm xdim ydim hperm
  · have hzero : p.npoints = 0 := by omega
    rw [computeExtent_empty P.endian hzero, Except.ok.injEq] at h
    exact ⟨_, computeExtent_empty P.endian (hn.trans hzero), by rw [← h]⟩

/-! ## Sorting a patch -/

/-- Computing the bounds of the patch anew gives the bounds it has. -/
def BoundsExact (P : Platform) (pa : PcPatch) : Prop :=
  ∃ q, pcPatchComputeExtent P pa = .ok q ∧ q.bounds = pa.bounds

/-- Computing the statistics of the patch anew gives the statistics it has. -/
def StatsExact (P : Platform) (pa : PcPatch) : Prop :=
  ∃ q, pcPatchComputeStats P pa = .ok q ∧ q.stats.map PcStats.bytes = pa.stats.map PcStats.bytes

/-- The records come out sorted, none is lost, and bounds and statistics are as
exact as they were. -/
def SortsExactly (P : Platform) (S : SortR) (pa : PcPatch) (pts : List Bytes) (names : List String)
    (dims : List PcDimension) : Prop :=
  ∃ q, pcPatchSort P S pa names = .ok q ∧
    (∃ pts', q.Holds P pts' ∧ pts'.Perm pts ∧
      (pts'.map (sortKey P.endian dims)).IsChain (· ≤ ·)) ∧
    (BoundsExact P pa → BoundsExact P q) ∧ (StatsExact P pa → StatsExact P q)

/-- The records can be allocated, uncompressing gives the points in some order, and
bounds that are exact for the dimensions are exact for the records. -/
structure SortCondition (P : Platform) (pa : PcPatch) (pts : List Bytes) : Prop where
  room : pa.schema.size * pa.npoints < 9223372036854775808
  perm : (pa.unpacked pts).Perm pts
  extent : ∀ d, pa = .dimensional d → BoundsExact P pa → SameExtent P d

section Sorting

variable {S : SortR} {pa : PcPatch} {pts : List Bytes} (h : pa.Holds P pts)
  (hsized : RecordsSized pa) {names : List String} {dims : List PcDimension}
  (hnames : NamesDims pa.schema names dims) (hne : dims ≠ [])

include h hsized hnames hne

/-- What sorting gives, where the records can be allocated. -/
theorem pcPatchSort_ok (hroom : pa.schema.size * pa.npoints < 9223372036854775808) :
    ∃ u q pts', Unpacks P pa pts u ∧ pcPatchSort P S pa names = .ok (.uncompressed q) ∧
      q.Holds pts' ∧ pts'.Perm (pa.unpacked pts) ∧
      (pts'.map (sortKey P.endian dims)).Pairwise (· ≤ ·) ∧ q.schema = pa.schema ∧
      q.npoints = pa.npoints ∧ q.bounds = pa.bounds ∧ q.stats = pcStatsClone u.stats := by
  have halloc : pa.Allocatable := by
    cases pa with
    | dimensional d => exact hroom
    | _ => trivial
  obtain ⟨u, hu⟩ := h.unpacks halloc
  have hus := hu.schema_eq
  have hun := hu.npoints_eq
  have husize : u.datasize = u.npoints * u.schema.size := by
    rw [hu.datasize_eq, hun, hus]
    cases pa with
    | uncompressed p => exact hsized
    | dimensional d => exact Nat.mul_comm _ _
    | lazperf l => exact h.elim
  obtain ⟨q, pts', hq, hholds, hperm, hsorted, hschema, -, -, hn, hbounds, hstats⟩ :=
    pcPatchUncompressedSort_ok (P := P) (S := S) hu.holds husize (by rw [hus, hun]; exact hroom) hne
      (hus ▸ hnames.mem_dims)
  refine ⟨u, q, pts', hu, ?_, hholds, hperm, hsorted, hschema.trans hus, hn.trans hun,
    hbounds.trans hu.bounds_eq, hstats⟩
  rw [pcPatchSort, pcSchemaGetDimensionsByName_ok hnames, ok_bind, hu.uncompress_ok, ok_bind, hq,
    ok_bind, pure_eq_ok]

end Sorting

/-- A patch that is sorted could be allocated. -/
theorem room_of_pcPatchSort {S : SortR} {pa q : PcPatch} {names : List String}
    (h : pcPatchSort P S pa names = .ok q) :
    pa.schema.size * pa.npoints < 9223372036854775808 := by
  obtain ⟨dims, -, h⟩ := bind_eq_ok.mp h
  obtain ⟨pu, hpu, h⟩ := bind_eq_ok.mp h
  obtain ⟨ps, hps, -⟩ := bind_eq_ok.mp h
  obtain ⟨spu, hmake, -⟩ := bind_eq_ok.mp hps
  obtain ⟨hs, hn⟩ := schema_of_uncompress hpu
  have hroom := room_of_pcPatchUncompressedMake hmake
  rwa [hs, hn] at hroom

theorem boundsExact_uncompressed {p : PcPatchUncompressed} :
    BoundsExact P (.uncompressed p) ↔
      ∃ r, pcPatchUncompressedComputeExtent P.endian p = .ok r ∧ r.bounds = p.bounds := by
  constructor
  · rintro ⟨q, hq, hbounds⟩
    obtain ⟨r, hr, hq⟩ := bind_eq_ok.mp hq
    cases hq
    exact ⟨r, hr, hbounds⟩
  · rintro ⟨r, hr, hbounds⟩
    exact ⟨.uncompressed r, by rw [pcPatchComputeExtent, hr, ok_bind, pure_eq_ok], hbounds⟩

/-- Exact bounds are the extent of the records, for dimensions where both extents
are the same. -/
theorem boundsExact_iff_unpacked {pa : PcPatch} {pts : List Bytes} {u : PcPatchUncompressed}
    (hu : Unpacks P pa pts u) (hexact : BoundsExact P pa) :
    (∃ r, pcPatchUncompressedComputeExtent P.endian u = .ok r ∧ r.bounds = pa.bounds) ↔
      ∀ d, pa = .dimensional d → SameExtent P d := by
  have hrun := hu.uncompress_ok
  cases pa with
  | uncompressed p =>
      cases hrun
      exact iff_of_true (boundsExact_uncompressed.mp hexact) (by simp)
  | lazperf l => exact absurd hrun (raise_ne_ok _ u)
  | dimensional d =>
      obtain ⟨q, hq, hbounds⟩ := hexact
      obtain ⟨q', hq', hq⟩ := bind_eq_ok.mp hq
      cases hq
      have hbounds' : q'.bounds = d.bounds := hbounds
      constructor
      · rintro ⟨r, hr, hrbounds⟩ d' hd'
        cases hd'
        exact ⟨q', u, r, hq', hrun, hr, hbounds'.trans hrbounds.symm⟩
      · intro hall
        obtain ⟨q'', u', r, hq'', hu', hr, hsame⟩ := hall d rfl
        cases hq'.symm.trans hq''
        cases (show pcPatchUncompressedFromDimensional P d = .ok u from hrun).symm.trans hu'
        exact ⟨r, hr, hsame.symm.trans hbounds'⟩

section Exact

variable {S : SortR} {pa : PcPatch} {pts : List Bytes} (h : pa.Holds P pts)
  (hsized : RecordsSized pa) {names : List String} {dims : List PcDimension}
  (hnames : NamesDims pa.schema names dims) (hne : dims ≠ [])

include h hsized hnames hne

theorem SortsExactly.condition (hsorts : SortsExactly P S pa pts names dims) :
    SortCondition P pa pts := by
  obtain ⟨r, hr, ⟨pts'', hr', hperm'', -⟩, hbounds, -⟩ := hsorts
  have hroom := room_of_pcPatchSort hr
  obtain ⟨u, q, pts', hu, hq, hholds, hperm, -, hschema, -, hqbounds, -⟩ :=
    pcPatchSort_ok (S := S) h hsized hnames hne hroom
  cases hr.symm.trans hq
  cases PcPatchUncompressed.Holds.unique hholds hr'
  refine ⟨hroom, hperm.symm.trans hperm'', fun d hd hexact => ?_⟩
  obtain ⟨s, hs, hsbounds⟩ := boundsExact_uncompressed.mp (hbounds hexact)
  obtain ⟨s', hs', hsame⟩ := computeExtent_perm hholds hu.holds hperm.symm
    (hu.schema_eq.trans hschema.symm) hs
  exact (boundsExact_iff_unpacked hu hexact).mp
    ⟨s', hs', (hsame.trans hsbounds).trans hqbounds⟩ d hd

end Exact

end Pointcloud
