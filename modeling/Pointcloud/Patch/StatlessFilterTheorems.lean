/-
Pointcloud.Patch.StatlessFilterTheorems — filtering a patch without statistics.

The look at the statistics is left out without them. An uncompressed patch is
then filtered as with them, unless the stored extremes have ruled out a point
that passes. The filter of a dimensional patch stores the statistics that it
gathers in a copy of the patch's own, and without these there is no copy: it
returns only where no value passes, and nothing is left to gather.
-/
import Pointcloud.Patch.ExtentTheorems
import Pointcloud.Patch.FilterPointsTheorems

namespace Pointcloud

open Pointcloud.Base

variable {P : Platform}

/-! ## Dimensional patches -/

/-- Without statistics there is no object in which to set the new ones. -/
theorem pcPatchDimensionalFilter_not_ok {d : PcPatchDimensional} (hstats : d.stats = none)
    (map : PcBitmap) (f : PcPatchDimensional) : pcPatchDimensionalFilter P d map ≠ .ok f := by
  intro h
  obtain ⟨filtered, -, h⟩ := bind_eq_ok.mp h
  simp only [hstats, pcStatsClone, Option.map_none] at h
  exact fault_ne_ok f h

/-- Behind arrays that can be filtered the missing object is written to. -/
theorem pcPatchDimensionalFilter_fault {d : PcPatchDimensional} {pts : List Bytes}
    (h : d.Holds P pts) (hsmall : d.Small) (hstats : d.stats = none) {map : PcBitmap}
    (hmap : map.npoints = d.npoints) (hset : 1 ≤ map.nset) :
    pcPatchDimensionalFilter P d map = fault := by
  obtain ⟨fs, hfs, -⟩ := filterDimensions_ok h hsmall hmap hset
  rw [pcPatchDimensionalFilter, hfs, ok_bind]
  simp only [hstats, pcStatsClone, Option.map_none]

/-- No stored number that is compared passes. -/
def NoneCompared (P : Platform) (d : PcPatchDimensional) (dim : PcDimension)
    (filter : PcFiltertype) (val1 val2 : ℚ) (pts : List Bytes) : Prop :=
  ∀ e, d.bytes[dim.position]? = some e → e.Comparable ∧ ∀ v ∈ e.compared (pts.map dim.bytesIn),
    filter.holds (e.interpretation.number P.endian v) (pcValueUnscaleUnoffset val1 dim)
      (pcValueUnscaleUnoffset val2 dim) = false

/-- The bitmap of a dimensional patch is found, and empty. -/
theorem pcPatchDimensionalBitmap_empty_iff {d : PcPatchDimensional} {pts : List Bytes}
    (h : d.Holds P pts) {dimnum : Nat} {dim : PcDimension}
      (hdim : d.schema.dims[dimnum]? = some dim)
    (filter : PcFiltertype) (val1 val2 : ℚ) :
    (∃ map, pcPatchDimensionalBitmap P d dimnum filter val1 val2 = .ok map ∧ map.nset = 0) ↔
      NoneCompared P d dim filter val1 val2 pts := by
  have hlt : dimnum < d.schema.ndims := (List.getElem?_eq_some_iff.mp hdim).1
  have hpos : dim.position = dimnum := by
    obtain ⟨hlt', rfl⟩ := List.getElem?_eq_some_iff.mp hdim
    exact d.schema.position_eq dimnum hlt'
  obtain ⟨e, he, -, hnp, hstores⟩ := h.array_at (List.mem_of_getElem? hdim)
  have hat : d.bytes[dim.position]? = some e := wordAt_eq_ok.mp he
  have hempty := pcBytesBitmap_empty_iff filter (pcValueUnscaleUnoffset val1 dim)
    (pcValueUnscaleUnoffset val2 dim) hstores (hnp ▸ h.npoints_lt)
  rw [hpos] at he
  simp only [pcPatchDimensionalBitmap, assertThat_true hlt, wordAt_eq_ok.mpr hdim, he, ok_bind,
    hempty, NoneCompared, hat, Option.some.injEq, forall_eq']

/-! ## With and without statistics -/

/-- Two patches are filtered to patches with the same points and bounds. -/
def FilteredAlike (P : Platform) (p q : PcPatch) (dimnum : Nat) (filter : PcFiltertype)
    (val1 val2 : ℚ) : Prop :=
  ∃ r r' kept, pcPatchFilter P p dimnum filter val1 val2 = .ok r ∧
    pcPatchFilter P q dimnum filter val1 val2 = .ok r' ∧ r.Holds P kept ∧ r'.Holds P kept ∧
    r.bounds = r'.bounds

/-- Records can be indexed, and the stored extremes rule out only what does not
pass; of dimensions nothing passes. -/
def StatlessCondition (P : Platform) (p : PcPatch) (dim : PcDimension) (filter : PcFiltertype)
    (val1 val2 : ℚ) (pts : List Bytes) : Prop :=
  match p with
  | .uncompressed u => u.npoints ≤ 2147483648 ∧
      (filter.mayHold (dim.storedMin P pts) (dim.storedMax P pts) val1 val2 = false →
        ∀ pt ∈ pts, filter.holds (dim.valueIn P.endian pt) val1 val2 = false)
  | .dimensional d => NoneCompared P d dim filter val1 val2 pts
  | .lazperf _ => True

/-- Without statistics every patch is walked over. -/
theorem pcPatchFilter_of_none {p : PcPatch} (hstats : p.stats = none) (dimnum : Nat)
    (filter : PcFiltertype) (val1 val2 : ℚ) :
    pcPatchFilter P p dimnum filter val1 val2 = filterPoints P p dimnum filter val1 val2 := by
  rw [pcPatchFilter, hstats]

section Stats

variable {pts : List Bytes} {dimnum : Nat} {dim : PcDimension} (filter : PcFiltertype)
  (val1 val2 : ℚ)

/-- Records are walked over without a look at the statistics. -/
theorem filteredAlike_uncompressed_iff {u : PcPatchUncompressed} {q : PcPatch} (h : u.Holds pts)
    (hstats : u.stats = none) (hq : pcPatchComputeStats P (.uncompressed u) = .ok q)
    (hvalid : u.schema.Valid) (hdim : u.schema.dims[dimnum]? = some dim) :
    FilteredAlike P (.uncompressed u) q dimnum filter val1 val2 ↔
      StatlessCondition P (.uncompressed u) dim filter val1 val2 pts := by
  have hpatch : PcPatch.Holds P (.uncompressed u) pts := h
  have heq := hpatch.computeStats_eq hq
  have hrun := pcPatchFilter_of_none (P := P) (p := .uncompressed u) hstats dimnum filter val1 val2
  have hqstats : q.stats = some (statsOf P q.schema pts) := by
    rw [heq]
    rfl
  have hrun' := pcPatchFilter_eq hqstats (show q.schema.dims[dimnum]? = some dim by
    rw [heq]
    exact hdim) filter val1 val2
  have hsame : filterPoints P q dimnum filter val1 val2 =
      filterPoints P (.uncompressed u) dimnum filter val1 val2 := by
    rw [heq]
    rfl
  have hschema : q.schema = u.schema := by
    rw [heq]
    rfl
  rw [hsame, hschema] at hrun'
  unfold FilteredAlike StatlessCondition
  rw [hrun, hrun']
  by_cases hint : u.npoints ≤ 2147483648
  · obtain ⟨r, hr, hkept⟩ := filterPoints_uncompressed (P := P) filter val1 val2 h hvalid hdim hint
    obtain ⟨empty, hempty, hnone⟩ := emptyPatch_ok P u.schema
    rw [hr, hempty]
    cases hmay : filter.mayHold (dim.storedMin P pts) (dim.storedMax P pts) val1 val2 with
    | true =>
        refine iff_of_true ⟨r, r, _, rfl, rfl, hkept, hkept, rfl⟩ ⟨hint, fun hnot => ?_⟩
        exact absurd hnot (by decide)
    | false =>
        rw [← passing_eq_nil_iff]
        constructor
        · rintro ⟨r₁, r₂, kept, hr₁, hr₂, hkept₁, hkept₂, -⟩
          cases hr₁
          cases hr₂
          exact ⟨hint, fun _ => (hkept.unique hkept₁).trans (hkept₂.unique hnone)⟩
        · rintro ⟨-, hnil⟩
          have hwalk : filterPoints P (.uncompressed u) dimnum filter val1 val2 =
              emptyPatch u.schema := filterPoints_uncompressed_empty filter val1 val2 h hdim hint
                (hnil rfl)
          rw [hr, hempty, Except.ok.injEq] at hwalk
          subst hwalk
          exact ⟨r, r, [], rfl, rfl, hnone, hnone, rfl⟩
  · refine iff_of_false ?_ fun hcond => hint hcond.1
    rintro ⟨r, -, -, hr, -⟩
    rw [filterPoints, pcPatchUncompressedBitmap_fault P.endian filter val1 val2 hdim
      (Nat.lt_of_not_le hint), fault_bind] at hr
    exact fault_ne_ok r hr

/-- Of dimensions only the empty patch is returned. -/
theorem filteredAlike_dimensional_iff {d : PcPatchDimensional} {q : PcPatch} (h : d.Holds P pts)
    (hstats : d.stats = none) (hq : pcPatchComputeStats P (.dimensional d) = .ok q)
    (hdim : d.schema.dims[dimnum]? = some dim) :
    FilteredAlike P (.dimensional d) q dimnum filter val1 val2 ↔
      StatlessCondition P (.dimensional d) dim filter val1 val2 pts := by
  have hpatch : PcPatch.Holds P (.dimensional d) pts := h
  have heq := hpatch.computeStats_eq hq
  have hrun := pcPatchFilter_of_none (P := P) (p := .dimensional d) hstats dimnum filter val1 val2
  have hqstats : q.stats = some (statsOf P q.schema (unpackedRecords d.schema pts)) := by
    rw [heq]
    rfl
  have hrun' := pcPatchFilter_eq hqstats (show q.schema.dims[dimnum]? = some dim by
    rw [heq]
    exact hdim) filter val1 val2
  rw [StatlessCondition, ← pcPatchDimensionalBitmap_empty_iff h hdim]
  constructor
  · rintro ⟨r, -, -, hr, -⟩
    rw [hrun] at hr
    obtain ⟨map, hmap, hr⟩ := bind_eq_ok.mp hr
    refine ⟨map, hmap, ?_⟩
    by_contra hset
    rw [if_neg hset] at hr
    obtain ⟨f, hf, -⟩ := bind_eq_ok.mp hr
    exact pcPatchDimensionalFilter_not_ok hstats map f hf
  · rintro ⟨map, hmap, hset⟩
    obtain ⟨empty, hempty, hnone⟩ := emptyPatch_ok P d.schema
    have hwalk : filterPoints P (.dimensional d) dimnum filter val1 val2 = .ok empty := by
      rw [filterPoints, hmap, ok_bind, if_pos hset, hempty]
    have hwalk' : filterPoints P q dimnum filter val1 val2 = .ok empty := by
      rw [heq, PcPatch.withStats, filterPoints]
      change (do
        let map ← pcPatchDimensionalBitmap P d dimnum filter val1 val2
        if map.nset = 0 then emptyPatch d.schema else _) = _
      rw [hmap, ok_bind, if_pos hset, hempty]
    refine ⟨empty, empty, [], hrun.trans hwalk, ?_, hnone, hnone, rfl⟩
    rw [hrun', hwalk', heq, PcPatch.schema_withStats]
    split
    · rfl
    · exact hempty

end Stats

/-- A patch without statistics is filtered as after these are computed exactly
under `StatlessCondition`. -/
theorem pcPatchFilter_statless_iff (P : Platform) {p q : PcPatch} {pts : List Bytes}
    (h : p.Holds P pts) (hstats : p.stats = none) (hvalid : p.schema.Valid)
    (hq : pcPatchComputeStats P p = .ok q) {dimnum : Nat} {dim : PcDimension}
    (hdim : p.schema.dims[dimnum]? = some dim) (filter : PcFiltertype) (val1 val2 : ℚ) :
    FilteredAlike P p q dimnum filter val1 val2 ↔
      StatlessCondition P p dim filter val1 val2 pts := by
  cases p with
  | uncompressed u => exact filteredAlike_uncompressed_iff filter val1 val2 h hstats hq hvalid hdim
  | dimensional d => exact filteredAlike_dimensional_iff filter val1 val2 h hstats hq hdim
  | lazperf l => exact h.elim

/-- Two points of two bytes, as records. -/
def scaledRecords (scale : ℚ) : PcPatchUncompressed :=
  patchOfRecords (scaledPair scale).schema [[1, 5], [2, 5]]

/-- Of the records one passes, before and after the statistics are computed. -/
theorem pcPatchFilter_statless_iff_witness :
    ∃ q, pcPatchComputeStats Platform.plain (.uncompressed (scaledRecords 1)) = .ok q ∧
      FilteredAlike Platform.plain (.uncompressed (scaledRecords 1)) q 0 .gt 1 0 := by
  have hholds : PcPatch.Holds Platform.plain (.uncompressed (scaledRecords 1)) [[1, 5], [2, 5]] :=
    patchOfRecords_holds (scaledPair_holds (P := Platform.plain) 1).width_eq (by decide)
  obtain ⟨u, hu⟩ := hholds.unpacks trivial
  refine ⟨_, hu.computeStats_ok, (pcPatchFilter_statless_iff Platform.plain hholds rfl ⟨rfl, rfl⟩
    hu.computeStats_ok (show (scaledRecords 1).schema.dims[0]? = some _ from rfl) .gt 1 0).mpr
    ⟨by decide, ?_⟩⟩
  intro hnot
  exact absurd hnot (by decide +kernel)

/-- Where something passes the filter of dimensions writes to the missing object;
with the statistics computed it returns both points. -/
theorem pcPatchFilter_statless_faults :
    (scaledPair 1).Holds Platform.plain [[1, 5], [2, 5]] ∧ (scaledPair 1).stats = none ∧
      pcPatchFilter Platform.plain (.dimensional (scaledPair 1)) 0 .gt 0 0 = fault ∧
      (∃ q r, pcPatchComputeStats Platform.plain (.dimensional (scaledPair 1)) = .ok q ∧
        pcPatchFilter Platform.plain q 0 .gt 0 0 = .ok r ∧
        r.Holds Platform.plain [[1, 5], [2, 5]]) ∧
      ∀ q, ¬ FilteredAlike Platform.plain (.dimensional (scaledPair 1)) q 0 .gt 0 0 := by
  have hholds := scaledPair_holds (P := Platform.plain) 1
  have hsmall : (scaledPair 1).Small := by decide
  have hdim : (scaledPair 1).schema.dims[0]? = some ⟨some "X", 0, 1, 0, .uint8, 1, 0⟩ := rfl
  have hbits := pcPatchDimensionalBitmap_ok .gt 0 0 hholds (by decide) hdim
  have hrun : pcPatchFilter Platform.plain (.dimensional (scaledPair 1)) 0 .gt 0 0 = fault := by
    rw [pcPatchFilter_of_none rfl, filterPoints, hbits, ok_bind, if_neg (by decide +kernel),
      pcPatchDimensionalFilter_fault hholds hsmall rfl rfl (by decide +kernel), fault_bind]
  have hstats := pcPatchComputeStats_dimensional_ok hholds ⟨by decide, by decide⟩
  refine ⟨hholds, rfl, hrun, ?_, ?_⟩
  · obtain ⟨r, hr, hkept⟩ := filterPoints_dimensional .gt 0 0 (hholds.with_stats (some (statsOf
      Platform.plain (scaledPair 1).schema [[1, 5], [2, 5]]))) hsmall rfl ⟨rfl, rfl, rfl⟩ hdim
    have hlook := pcPatchFilter_eq (P := Platform.plain) (p := .dimensional { scaledPair 1 with
      stats := some (statsOf Platform.plain (scaledPair 1).schema [[1, 5], [2, 5]]) }) rfl hdim
      .gt 0 0
    rw [if_pos (by decide +kernel), hr] at hlook
    exact ⟨_, r, hstats, hlook, hkept⟩
  · rintro q ⟨r, r', kept, hr, -⟩
    rw [hrun] at hr
    exact fault_ne_ok r hr

end Pointcloud
