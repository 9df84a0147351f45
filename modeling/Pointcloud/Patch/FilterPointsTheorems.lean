/-
Pointcloud.Patch.FilterPointsTheorems — which points pass a filter.

The points that pass are those whose value does, in either form of the patch.
A dimensional patch compares stored numbers with the bounds brought to their
terms. Under a negative scale the order of the numbers is not that of the
values, and the comparison is the one of the negated values. The look at the
statistics comes first; they say what the type of the dimension can store of
the extremes.
-/
import Pointcloud.Patch.FilterStatsTheorems

namespace Pointcloud

open Pointcloud.Base

variable {P : Platform}

/-! ## Bounds in the terms of stored numbers -/

/-- The order of stored numbers is that of the values, or of the negated values. -/
theorem unscaled_lt_iff {dim : PcDimension} (h : dim.scale ≠ 0) (val raw : ℚ) :
    (pcValueUnscaleUnoffset val dim < raw ↔
      if 0 < dim.scale then val < pcValueScaleOffset raw dim
      else -val < -pcValueScaleOffset raw dim) ∧
    (raw < pcValueUnscaleUnoffset val dim ↔
      if 0 < dim.scale then pcValueScaleOffset raw dim < val
      else -pcValueScaleOffset raw dim < -val) := by
  simp only [pcValueUnscaleUnoffset_eq, pcValueScaleOffset_eq]
  by_cases hpos : 0 < dim.scale
  · rw [if_pos hpos, if_pos hpos, div_lt_iff₀ hpos, lt_div_iff₀ hpos]
    constructor <;> constructor <;> intro hlt <;> linarith
  · have hneg : dim.scale < 0 := lt_of_le_of_ne (not_lt.mp hpos) h
    rw [if_neg hpos, if_neg hpos, div_lt_iff_of_neg hneg, lt_div_iff_of_neg hneg]
    constructor <;> constructor <;> intro hlt <;> linarith

theorem unscaled_eq_iff {dim : PcDimension} (h : dim.scale ≠ 0) (val raw : ℚ) :
    raw = pcValueUnscaleUnoffset val dim ↔ pcValueScaleOffset raw dim = val := by
  rw [pcValueUnscaleUnoffset_eq, pcValueScaleOffset_eq, eq_div_iff h, eq_sub_iff_add_eq]

/-- What a filter says of a stored number. -/
theorem holds_unscaled {dim : PcDimension} (h : dim.scale ≠ 0) (filter : PcFiltertype)
    (raw val1 val2 : ℚ) :
    filter.holds raw (pcValueUnscaleUnoffset val1 dim) (pcValueUnscaleUnoffset val2 dim) =
      if 0 < dim.scale then filter.holds (pcValueScaleOffset raw dim) val1 val2
      else filter.holds (-pcValueScaleOffset raw dim) (-val1) (-val2) := by
  have h1 := unscaled_lt_iff h val1 raw
  have h2 := unscaled_lt_iff h val2 raw
  have heq := unscaled_eq_iff h val1 raw
  cases filter with
  | gt => by_cases hpos : 0 < dim.scale <;> simp_all [PcFiltertype.holds]
  | lt => by_cases hpos : 0 < dim.scale <;> simp_all [PcFiltertype.holds]
  | equal => by_cases hpos : 0 < dim.scale <;> simp_all [PcFiltertype.holds]
  | between => by_cases hpos : 0 < dim.scale <;> simp_all [PcFiltertype.holds]

/-! ## The look at the statistics -/

/-- The least value, as the statistics have it. -/
def PcDimension.storedMin (P : Platform) (dim : PcDimension) (pts : List Bytes) : ℚ :=
  dim.readBack P ((dim.column P.endian pts).foldl min dblMax)

/-- The greatest value, as the statistics have it. -/
def PcDimension.storedMax (P : Platform) (dim : PcDimension) (pts : List Bytes) : ℚ :=
  dim.readBack P ((dim.column P.endian pts).foldl max (-dblMax))

/-- A dimension of a stored point reads as its value, stored. -/
theorem pcPointGetDoubleByIndex_storedPoint (P : Platform) {s : PcSchema} {dimnum : Nat}
    {dim : PcDimension} (hdim : s.dims[dimnum]? = some dim) (f : PcDimension → ℚ) :
    pcPointGetDoubleByIndex P.endian (storedPoint P s f) dimnum = .ok (dim.readBack P (f dim)) := by
  have hd : dim ∈ s.dims := List.mem_of_getElem? hdim
  have hget := pcPointGetDouble_ok P.endian (storedPoint P s f) hd
  rw [pcPointGetDoubleByIndex, show (storedPoint P s f).schema.dims[dimnum]? = some dim from hdim]
  simp only
  rw [hget, PcDimension.valueIn, PcDimension.rawIn, bytesIn_storedPoint s f hd]
  rfl

theorem pcPatchFilterHasResults_eq {s : PcSchema} {dimnum : Nat} {dim : PcDimension}
    (hdim : s.dims[dimnum]? = some dim) (pts : List Bytes) (filter : PcFiltertype)
    (val1 val2 : ℚ) :
    pcPatchFilterHasResults P.endian (statsOf P s pts) dimnum filter val1 val2 =
      .ok (filter.mayHold (dim.storedMin P pts) (dim.storedMax P pts) val1 val2) := by
  rw [pcPatchFilterHasResults, statsOf, pcPointGetDoubleByIndex_storedPoint P hdim, ok_bind,
    pcPointGetDoubleByIndex_storedPoint P hdim, ok_bind, pure_eq_ok]
  rfl

/-- A value between the extremes does not pass what these rule out. -/
theorem not_holds_of_not_mayHold {filter : PcFiltertype} {least greatest val val1 val2 : ℚ}
    (h : filter.mayHold least greatest val1 val2 = false) (hleast : least ≤ val)
    (hgreatest : val ≤ greatest) : filter.holds val val1 val2 = false := by
  cases filter with
  | gt =>
      simp only [PcFiltertype.mayHold, Bool.not_eq_false', decide_eq_true_eq] at h
      simp only [PcFiltertype.holds, decide_eq_false_iff_not]
      linarith
  | lt =>
      simp only [PcFiltertype.mayHold, Bool.not_eq_false', decide_eq_true_eq] at h
      simp only [PcFiltertype.holds, decide_eq_false_iff_not]
      linarith
  | equal =>
      simp only [PcFiltertype.mayHold, Bool.not_eq_false', Bool.or_eq_true, decide_eq_true_eq] at h
      simp only [PcFiltertype.holds, decide_eq_false_iff_not]
      rintro rfl
      rcases h with h | h <;> linarith
  | between =>
      simp only [PcFiltertype.mayHold, Bool.not_eq_false', Bool.or_eq_true, decide_eq_true_eq] at h
      simp only [PcFiltertype.holds, Bool.and_eq_false_iff, decide_eq_false_iff_not]
      rcases h with h | h
      · exact Or.inr (by linarith)
      · exact Or.inl (by linarith)

/-- An empty patch holds no points. -/
theorem emptyPatch_ok (P : Platform) (s : PcSchema) :
    ∃ q, emptyPatch s = .ok q ∧ q.Holds P [] := by
  refine ⟨_, by
    rw [emptyPatch, pcPatchUncompressedMake, if_neg (Nat.ne_of_gt s.size_pos), pcalloc_ok (by simp),
      ok_bind, pure_eq_ok, ok_bind, pure_eq_ok], ?_⟩
  exact ⟨Nat.zero_lt_succ _, by simp, rfl⟩

/-! ## The points that are kept -/

/-- The points whose value passes. -/
def passing (en : Endian) (dim : PcDimension) (filter : PcFiltertype) (val1 val2 : ℚ)
    (pts : List Bytes) : List Bytes :=
  pts.filter fun pt => filter.holds (dim.valueIn en pt) val1 val2

/-- The points whose stored number passes, with the bounds in its terms. -/
def passingStored (en : Endian) (dim : PcDimension) (filter : PcFiltertype) (val1 val2 : ℚ)
    (pts : List Bytes) : List Bytes :=
  pts.filter fun pt => filter.holds (dim.rawIn en pt) (pcValueUnscaleUnoffset val1 dim)
    (pcValueUnscaleUnoffset val2 dim)

/-- Nothing is kept where no entry is set. -/
theorem select_eq_nil {α : Type} {map : PcBitmap} {xs : List α} (hlen : map.npoints = xs.length)
    (hnone : map.nset = 0) : select map.map xs = [] := by
  rw [← List.length_eq_zero_iff, length_select hlen, ← map.nset_eq, hnone]

section Filtered

variable {pts : List Bytes} {dimnum : Nat} {dim : PcDimension} (filter : PcFiltertype)
  (val1 val2 : ℚ)

section Uncompressed

variable {p : PcPatchUncompressed} (h : p.Holds pts)

include h

theorem npoints_marksOf (en : Endian) :
    (PcBitmap.of (dim.marksOf en filter val1 val2 pts)).npoints = p.npoints := by
  rw [← h.length_eq]
  exact List.length_map _

/-- Where no value passes, nothing is left of records. -/
theorem filterPoints_uncompressed_empty (hdim : p.schema.dims[dimnum]? = some dim)
    (hint : p.npoints ≤ 2147483648) (hnone : passing P.endian dim filter val1 val2 pts = []) :
    filterPoints P (.uncompressed p) dimnum filter val1 val2 = emptyPatch p.schema := by
  have hlen : (PcBitmap.of (dim.marksOf P.endian filter val1 val2 pts)).map.length = pts.length :=
    List.length_map _
  have hnset : (PcBitmap.of (dim.marksOf P.endian filter val1 val2 pts)).nset = 0 := by
    rw [PcBitmap.nset_eq, ← length_select hlen, List.length_eq_zero_iff]
    exact (select_map_self _ pts).trans hnone
  simp only [filterPoints, pcPatchUncompressedBitmap_ok h P.endian filter val1 val2 hdim hint,
    ok_bind, if_pos hnset]

/-- Records are compared by their values. -/
theorem filterPoints_uncompressed (hvalid : p.schema.Valid)
    (hdim : p.schema.dims[dimnum]? = some dim) (hint : p.npoints ≤ 2147483648) :
    ∃ q, filterPoints P (.uncompressed p) dimnum filter val1 val2 = .ok q ∧
      q.Holds P (passing P.endian dim filter val1 val2 pts) := by
  obtain ⟨xdim, hx, hxdim⟩ := hvalid.xdimension
  obtain ⟨ydim, hy, hydim⟩ := hvalid.ydimension
  have hmap : (PcBitmap.of (dim.marksOf P.endian filter val1 val2 pts)).npoints = p.npoints :=
    npoints_marksOf filter val1 val2 h P.endian
  have hkept : select (PcBitmap.of (dim.marksOf P.endian filter val1 val2 pts)).map pts =
      passing P.endian dim filter val1 val2 pts := select_map_self _ pts
  by_cases hnone : (PcBitmap.of (dim.marksOf P.endian filter val1 val2 pts)).nset = 0
  · rw [select_eq_nil (hmap.trans h.length_eq.symm) hnone] at hkept
    obtain ⟨q, hq, hholds⟩ := emptyPatch_ok P p.schema
    exact ⟨q, (filterPoints_uncompressed_empty filter val1 val2 h hdim hint hkept.symm).trans hq,
      hkept ▸ hholds⟩
  · obtain ⟨f, hf, hholds, -⟩ :=
      pcPatchUncompressedFilter_ok h hmap hint hxdim hydim hx hy (P := P)
    refine ⟨.uncompressed f, ?_, hkept ▸ hholds⟩
    simp only [filterPoints, pcPatchUncompressedBitmap_ok h P.endian filter val1 val2 hdim hint,
      ok_bind, if_neg hnone, hf, pure_eq_ok]

end Uncompressed

/-- Arrays are compared by their stored numbers. -/
theorem pcPatchDimensionalBitmap_ok {d : PcPatchDimensional} (h : d.Holds P pts)
    (hint : d.npoints < 2147483648) (hdim : d.schema.dims[dimnum]? = some dim) :
    pcPatchDimensionalBitmap P d dimnum filter val1 val2 =
      .ok (PcBitmap.of (pts.map fun pt => filter.holds (dim.rawIn P.endian pt)
        (pcValueUnscaleUnoffset val1 dim) (pcValueUnscaleUnoffset val2 dim))) := by
  have hlt : dimnum < d.schema.ndims := (List.getElem?_eq_some_iff.mp hdim).1
  have hpos : dim.position = dimnum := by
    obtain ⟨hlt', rfl⟩ := List.getElem?_eq_some_iff.mp hdim
    exact d.schema.position_eq dimnum hlt'
  obtain ⟨e, he, hinterp, hnp, hstores⟩ := h.array_at (List.mem_of_getElem? hdim)
  rw [hpos] at he
  have hbits := pcBytesBitmap_ok filter (pcValueUnscaleUnoffset val1 dim)
    (pcValueUnscaleUnoffset val2 dim) hstores (hnp ▸ hint)
  have hmarks : e.marksOf P.endian filter (pcValueUnscaleUnoffset val1 dim)
      (pcValueUnscaleUnoffset val2 dim) (pts.map dim.bytesIn) =
        pts.map fun pt => filter.holds (dim.rawIn P.endian pt) (pcValueUnscaleUnoffset val1 dim)
          (pcValueUnscaleUnoffset val2 dim) := by
    simp only [PcBytes.marksOf, PcBytes.numbersOf, List.map_map, hinterp]
    rfl
  rw [hmarks] at hbits
  simp only [pcPatchDimensionalBitmap, assertThat_true hlt, wordAt_eq_ok.mpr hdim, he, hbits,
    ok_bind]

/-- What is kept of arrays. -/
theorem filterPoints_dimensional {d : PcPatchDimensional} (h : d.Holds P pts) (hsmall : d.Small)
    {st : PcStats} (hstats : d.stats = some st) (hover : StatsOver d.schema st)
    (hdim : d.schema.dims[dimnum]? = some dim) :
    ∃ q, filterPoints P (.dimensional d) dimnum filter val1 val2 = .ok q ∧
      q.Holds P (passingStored P.endian dim filter val1 val2 pts) := by
  have hlt := hsmall.npoints_lt h
  have hbits := pcPatchDimensionalBitmap_ok filter val1 val2 h (by omega) hdim
  have hlen : (PcBitmap.of (pts.map fun pt => filter.holds (dim.rawIn P.endian pt)
      (pcValueUnscaleUnoffset val1 dim) (pcValueUnscaleUnoffset val2 dim))).npoints = pts.length :=
    List.length_map _
  have hkept : select (PcBitmap.of (pts.map fun pt => filter.holds (dim.rawIn P.endian pt)
      (pcValueUnscaleUnoffset val1 dim) (pcValueUnscaleUnoffset val2 dim))).map pts =
        passingStored P.endian dim filter val1 val2 pts := select_map_self _ pts
  simp only [filterPoints, hbits, ok_bind]
  split
  · next hnone =>
      obtain ⟨q, hq, hholds⟩ := emptyPatch_ok P d.schema
      refine ⟨q, hq, ?_⟩
      rw [← hkept, select_eq_nil hlen hnone]
      exact hholds
  · next hsome =>
      obtain ⟨f, hf, hholds, -⟩ := pcPatchDimensionalFilter_ok h hsmall
        (by rw [← h.npoints_eq]; exact hlen) (Nat.one_le_iff_ne_zero.mpr hsome) hstats hover
      rw [hf, ok_bind, pure_eq_ok]
      exact ⟨_, rfl, hkept ▸ hholds⟩

end Filtered

/-! ## When the right points are kept -/

/-- The filter returns a patch of the points whose value passes. -/
def FilterKeeps (P : Platform) (p : PcPatch) (dimnum : Nat) (dim : PcDimension)
    (filter : PcFiltertype) (val1 val2 : ℚ) (pts : List Bytes) : Prop :=
  ∃ r, pcPatchFilter P p dimnum filter val1 val2 = .ok r ∧
    r.Holds P (passing P.endian dim filter val1 val2 pts)

/-- Negating value and bounds does not change what the filter says of a point. -/
def BothWays (en : Endian) (dim : PcDimension) (filter : PcFiltertype) (val1 val2 : ℚ)
    (pts : List Bytes) : Prop :=
  ∀ pt ∈ pts, filter.holds (dim.valueIn en pt) val1 val2 =
    filter.holds (-dim.valueIn en pt) (-val1) (-val2)

/-- What a patch needs to be walked over right. -/
def WalkCondition (P : Platform) (p : PcPatch) (dim : PcDimension) (filter : PcFiltertype)
    (val1 val2 : ℚ) (pts : List Bytes) : Prop :=
  match p with
  | .uncompressed u => u.npoints ≤ 2147483648
  | .dimensional _ => 0 < dim.scale ∨ BothWays P.endian dim filter val1 val2 pts
  | .lazperf _ => True

/-- What the stored extremes rule out does not pass, and what they do not rule
out is walked over right. -/
structure FilterCondition (P : Platform) (p : PcPatch) (dim : PcDimension) (filter : PcFiltertype)
    (val1 val2 : ℚ) (pts : List Bytes) : Prop where
  exit : filter.mayHold (dim.storedMin P pts) (dim.storedMax P pts) val1 val2 = false →
    ∀ pt ∈ pts, filter.holds (dim.valueIn P.endian pt) val1 val2 = false
  walk : filter.mayHold (dim.storedMin P pts) (dim.storedMax P pts) val1 val2 = true →
    WalkCondition P p dim filter val1 val2 pts

/-- The stored numbers are compared right under a positive scale, and otherwise
if the comparison may be turned around. -/
theorem passingStored_eq_iff {en : Endian} {dim : PcDimension} (hscale : dim.scale ≠ 0)
    (filter : PcFiltertype) (val1 val2 : ℚ) (pts : List Bytes) :
    passingStored en dim filter val1 val2 pts = passing en dim filter val1 val2 pts ↔
      0 < dim.scale ∨ BothWays en dim filter val1 val2 pts := by
  have hstored : ∀ pt, filter.holds (dim.rawIn en pt) (pcValueUnscaleUnoffset val1 dim)
      (pcValueUnscaleUnoffset val2 dim) = if 0 < dim.scale then
        filter.holds (dim.valueIn en pt) val1 val2
      else filter.holds (-dim.valueIn en pt) (-val1) (-val2) :=
    fun pt => holds_unscaled hscale filter (dim.rawIn en pt) val1 val2
  unfold passingStored passing
  simp only [hstored]
  by_cases hpos : 0 < dim.scale
  · simp only [hpos, if_true, true_or]
  · simp only [hpos, if_false, false_or]
    constructor
    · intro heq pt hpt
      have hmem := congrArg (fun kept => pt ∈ kept) heq
      simp only [List.mem_filter, hpt, true_and, eq_iff_iff] at hmem
      exact Bool.eq_iff_iff.mpr hmem.symm
    · intro hboth
      exact List.filter_congr fun pt hpt => (hboth pt hpt).symm

/-- Nothing passes. -/
theorem passing_eq_nil_iff {en : Endian} {dim : PcDimension} {filter : PcFiltertype}
    {val1 val2 : ℚ} {pts : List Bytes} :
    passing en dim filter val1 val2 pts = [] ↔
      ∀ pt ∈ pts, filter.holds (dim.valueIn en pt) val1 val2 = false := by
  simp only [passing, List.filter_eq_nil_iff, Bool.not_eq_true]

/-- A patch with its statistics is walked over unless they rule the filter out. -/
theorem pcPatchFilter_eq {p : PcPatch} {pts : List Bytes} {dimnum : Nat} {dim : PcDimension}
    (hstats : p.stats = some (statsOf P p.schema pts)) (hdim : p.schema.dims[dimnum]? = some dim)
    (filter : PcFiltertype) (val1 val2 : ℚ) :
    pcPatchFilter P p dimnum filter val1 val2 =
      if filter.mayHold (dim.storedMin P pts) (dim.storedMax P pts) val1 val2 = true then
        filterPoints P p dimnum filter val1 val2
      else emptyPatch p.schema := by
  rw [pcPatchFilter, hstats]
  simp only
  rw [pcPatchFilterHasResults_eq hdim, ok_bind]

/-- The statistics that are computed are those of the points. -/
theorem pcPatchComputeStats_eq {p q : PcPatch} {pts : List Bytes} (h : p.Holds P pts)
    (hsmall : ∀ d, p = .dimensional d → d.Small) (hq : pcPatchComputeStats P p = .ok q) :
    q.Holds P pts ∧ q.schema = p.schema ∧ q.stats = some (statsOf P p.schema pts) ∧
      (∀ d, q = .dimensional d → d.Small) ∧
      ∀ dim filter val1 val2, WalkCondition P q dim filter val1 val2 pts ↔
        WalkCondition P p dim filter val1 val2 pts := by
  cases p with
  | uncompressed u =>
      have hu : u.Holds pts := h
      rw [pcPatchComputeStats, pcPatchUncompressedComputeStats_eq P hu, ok_bind, pure_eq_ok,
        Except.ok.injEq] at hq
      subst hq
      refine ⟨hu.with_stats _, rfl, rfl, ?_, ?_⟩
      · intro d hd
        cases hd
      · intro dim filter val1 val2
        exact Iff.rfl
  | dimensional d =>
      have hd : d.Holds P pts := h
      rw [pcPatchComputeStats_dimensional_ok hd
        (fits_of_small hd (hsmall d rfl) (Nat.le_refl _)), Except.ok.injEq] at hq
      subst hq
      refine ⟨hd.with_stats _, rfl, rfl, ?_, fun _ _ _ _ => Iff.rfl⟩
      intro d' hd'
      cases hd'
      exact hsmall d rfl
  | lazperf l => exact h.elim

/-- A patch with the statistics of its points is filtered to the points whose
value passes exactly under the condition. -/
theorem pcPatchFilter_keeps_iff (P : Platform) {p q : PcPatch} {pts : List Bytes}
    (h : p.Holds P pts) (hq : pcPatchComputeStats P p = .ok q) (hvalid : p.schema.Valid)
    (hsmall : ∀ d, p = .dimensional d → d.Small) {dimnum : Nat} {dim : PcDimension}
    (hdim : p.schema.dims[dimnum]? = some dim) (hscale : dim.scale ≠ 0) (filter : PcFiltertype)
    (val1 val2 : ℚ) :
    FilterKeeps P q dimnum dim filter val1 val2 pts ↔
      FilterCondition P p dim filter val1 val2 pts := by
  obtain ⟨hholds, hschema, hstats, hsmall', hwalk⟩ := pcPatchComputeStats_eq h hsmall hq
  rw [← hschema] at hstats hdim hvalid
  have hrun := pcPatchFilter_eq hstats hdim filter val1 val2
  unfold FilterKeeps
  rw [hrun]
  split
  · next hmay =>
      have hcondition : FilterCondition P p dim filter val1 val2 pts ↔
          WalkCondition P q dim filter val1 val2 pts := by
        rw [hwalk]
        constructor
        · intro hcond
          exact hcond.walk hmay
        · intro hw
          exact ⟨fun hnot => absurd hmay (by rw [hnot]; decide), fun _ => hw⟩
      rw [hcondition]
      cases q with
      | uncompressed u =>
          by_cases hint : u.npoints ≤ 2147483648
          · exact iff_of_true
              (filterPoints_uncompressed filter val1 val2 hholds hvalid hdim hint) hint
          · refine iff_of_false ?_ hint
            rintro ⟨r, hr, -⟩
            rw [filterPoints, pcPatchUncompressedBitmap_fault P.endian filter val1 val2 hdim
              (Nat.lt_of_not_le hint), fault_bind] at hr
            exact fault_ne_ok r hr
      | dimensional d =>
          have hover : StatsOver d.schema (statsOf P d.schema pts) := ⟨rfl, rfl, rfl⟩
          obtain ⟨r, hr, hkept⟩ := filterPoints_dimensional filter val1 val2 hholds (hsmall' d rfl)
            hstats hover hdim
          rw [WalkCondition, ← passingStored_eq_iff hscale]
          constructor
          · rintro ⟨r', hr', hpassing⟩
            rw [hr, Except.ok.injEq] at hr'
            subst hr'
            exact hkept.unique hpassing
          · intro heq
            exact ⟨r, hr, heq ▸ hkept⟩
      | lazperf l => exact hholds.elim
  · next hmay =>
      rw [Bool.not_eq_true] at hmay
      obtain ⟨r, hr, hempty⟩ := emptyPatch_ok P q.schema
      have hcondition : FilterCondition P p dim filter val1 val2 pts ↔
          passing P.endian dim filter val1 val2 pts = [] := by
        rw [passing_eq_nil_iff]
        constructor
        · intro hcond
          exact hcond.exit hmay
        · intro hnone
          exact ⟨fun _ => hnone, fun hnot => absurd hnot (by rw [hmay]; decide)⟩
      rw [hcondition]
      constructor
      · rintro ⟨r', hr', hpassing⟩
        rw [hr, Except.ok.injEq] at hr'
        subst hr'
        exact hpassing.unique hempty
      · intro hnil
        exact ⟨r, hr, hnil ▸ hempty⟩

/-! ## Statistics that rule out nothing that passes -/

/-- Where values are read back as they are, and are doubles, the statistics rule
out only what does not pass. -/
theorem filterCondition_exit {dim : PcDimension} {pts : List Bytes}
    (hback : ∀ pt ∈ pts, dim.readBack P (dim.valueIn P.endian pt) = dim.valueIn P.endian pt)
    (hrange : ∀ pt ∈ pts, -dblMax ≤ dim.valueIn P.endian pt ∧ dim.valueIn P.endian pt ≤ dblMax)
    {filter : PcFiltertype} {val1 val2 : ℚ}
    (hnot : filter.mayHold (dim.storedMin P pts) (dim.storedMax P pts) val1 val2 = false) :
    ∀ pt ∈ pts, filter.holds (dim.valueIn P.endian pt) val1 val2 = false := by
  intro pt hpt
  have hmem : dim.valueIn P.endian pt ∈ dim.column P.endian pts := List.mem_map_of_mem hpt
  obtain ⟨least, hleast⟩ := exists_leastOf (List.ne_nil_of_mem hmem)
  obtain ⟨greatest, hgreatest⟩ := exists_greatestOf (List.ne_nil_of_mem hmem)
  have hmin : dim.storedMin P pts = least := by
    obtain ⟨qt, hqt, rfl⟩ := List.mem_map.mp hleast.1
    rw [PcDimension.storedMin, hleast.foldl_min, min_eq_right (hrange qt hqt).2, hback qt hqt]
  have hmax : dim.storedMax P pts = greatest := by
    obtain ⟨qt, hqt, rfl⟩ := List.mem_map.mp hgreatest.1
    rw [PcDimension.storedMax, hgreatest.foldl_max, max_eq_right (hrange qt hqt).1, hback qt hqt]
  rw [hmin, hmax] at hnot
  exact not_holds_of_not_mayHold hnot (hleast.2 _ hmem) (hgreatest.2 _ hmem)

/-! ## A negative scale -/

/-- An x and a y of one byte, with a scale of -1. -/
def negativeSchema : PcSchema := xySchema .uint8 .uint8 uint8_known uint8_known (-1) .dimensional

/-- Two points with the values (-5, 0) and (-9, 0). -/
def negativeDims : PcPatchDimensional where
  readonly := false
  schema := negativeSchema
  npoints := 2
  bounds := ⟨-9, -5, 0, 0⟩
  stats := none
  bytes := [⟨2, 2, .uint8, .none, false, [5, 9]⟩, ⟨2, 2, .uint8, .none, false, [0, 0]⟩]

/-- The x of these points. -/
def negativeX : PcDimension := ⟨some "X", 0, 1, 0, .uint8, -1, 0⟩

theorem negativeDims_holds : negativeDims.Holds P [[5, 0], [9, 0]] := by
  have hx : PcBytes.Plain ⟨2, 2, .uint8, .none, false, [5, 9]⟩ :=
    ⟨by decide, rfl, by decide, by decide⟩
  have hy : PcBytes.Plain ⟨2, 2, .uint8, .none, false, [0, 0]⟩ :=
    ⟨by decide, rfl, by decide, by decide⟩
  have hlt : 2 < 4294967296 := by decide
  have hwidth : ∀ pt ∈ ([[5, 0], [9, 0]] : List Bytes), pt.length = negativeSchema.size := by
    decide
  exact ⟨hlt, rfl, hwidth, .cons ⟨rfl, rfl, hx.stores⟩ (.cons ⟨rfl, rfl, hy.stores⟩ .nil)⟩

theorem negativeDims_stats : pcPatchComputeStats Platform.plain (.dimensional negativeDims) =
    .ok (.dimensional { negativeDims with
      stats := some (statsOf Platform.plain negativeSchema [[5, 0], [9, 0]]) }) :=
  pcPatchComputeStats_dimensional_ok negativeDims_holds ⟨by decide, by decide⟩

/-- Between -9 and -5 there is none of these points, either way round. -/
theorem pcPatchFilter_keeps_iff_witness :
    ∃ q, pcPatchComputeStats Platform.plain (.dimensional negativeDims) = .ok q ∧
      FilterKeeps Platform.plain q 0 negativeX .between (-9) (-5) [[5, 0], [9, 0]] := by
  have hsmall : ∀ d, PcPatch.dimensional negativeDims = .dimensional d → d.Small := by
    intro d hd
    cases hd
    decide
  refine ⟨_, negativeDims_stats, (pcPatchFilter_keeps_iff Platform.plain
    (show (PcPatch.dimensional negativeDims).Holds _ _ from negativeDims_holds) negativeDims_stats
    ⟨rfl, rfl⟩ hsmall (show negativeSchema.dims[0]? = some negativeX from rfl)
    (by decide +kernel) .between (-9) (-5)).mpr ⟨?_, ?_⟩⟩
  · intro hnot
    exact absurd hnot (by decide +kernel)
  · intro _
    refine Or.inr ?_
    show ∀ pt ∈ ([[5, 0], [9, 0]] : List Bytes), _ = _
    decide +kernel

/-- Of the points above -7 the wrong one is kept. -/
theorem pcPatchFilter_reverses :
    ∃ q, pcPatchComputeStats Platform.plain (.dimensional negativeDims) = .ok q ∧
      negativeDims.Holds Platform.plain [[5, 0], [9, 0]] ∧
      passing .little negativeX .gt (-7) 0 [[5, 0], [9, 0]] = [[5, 0]] ∧
      (∃ r, pcPatchFilter Platform.plain q 0 .gt (-7) 0 = .ok r ∧
        r.Holds Platform.plain [[9, 0]]) ∧
      ¬ FilterKeeps Platform.plain q 0 negativeX .gt (-7) 0 [[5, 0], [9, 0]] := by
  have hdim : negativeSchema.dims[0]? = some negativeX := rfl
  have hpassing : passing .little negativeX .gt (-7) 0 [[5, 0], [9, 0]] = [[5, 0]] := by
    decide +kernel
  have hstored : passingStored .little negativeX .gt (-7) 0 [[5, 0], [9, 0]] = [[9, 0]] := by
    decide +kernel
  have hholds := (negativeDims_holds (P := Platform.plain)).with_stats
    (some (statsOf Platform.plain negativeSchema [[5, 0], [9, 0]]))
  obtain ⟨r, hr, hkept⟩ := filterPoints_dimensional .gt (-7) 0 hholds
    (show negativeDims.Small by decide) rfl ⟨rfl, rfl, rfl⟩ hdim
  have hrun := pcPatchFilter_eq (P := Platform.plain) (p := .dimensional { negativeDims with
    stats := some (statsOf Platform.plain negativeSchema [[5, 0], [9, 0]]) }) rfl hdim .gt (-7) 0
  rw [if_pos (by decide +kernel), hr] at hrun
  rw [show Platform.plain.endian = .little from rfl, hstored] at hkept
  refine ⟨_, negativeDims_stats, negativeDims_holds, hpassing, ⟨r, hrun, hkept⟩, ?_⟩
  intro ⟨r', hr', hright⟩
  rw [hrun, Except.ok.injEq] at hr'
  subst hr'
  rw [show Platform.plain.endian = .little from rfl, hpassing] at hright
  exact absurd (hkept.unique hright) (by decide)

end Pointcloud
