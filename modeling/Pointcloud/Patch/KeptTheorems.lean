/-
Pointcloud.Patch.KeptTheorems — operations that keep bounds and statistics exact.

The operations maintain the summary of a patch in different ways: they compute
it anew, copy it, merge it, move it to another schema, or gather it while
filtering. `PcPatch.Kept P pa pts` says that `pa` stands for the points `pts` and
that its summary is theirs. Every operation keeps it, for the points that it is
meant to make of those of its patches. What has to be avoided are the runs without
values that the reader of WKB accepts: their numbers are searched as well.

There is one lemma for each operation, and it speaks of a run that has returned:
from `Kept` of the patches that go in and the value that comes out follows `Kept`
of that value. So the proofs read the run backwards, bind by bind, and take from
each step that succeeded what it has checked (`intLoop_eq_ok`, `assertThat_eq_ok`,
`readAt_eq_ok`). No bound that the code itself tests is asked for a second time.

The fields of `Kept`, and what needs them:

  - `integral`: whole numbers and positive scales. The extremes of the stored
    numbers are then those of the values, and a filter on the arrays compares as
    one on the records.
  - `ne`: a patch of no points has no extremes; the search would leave the
    greatest double behind.
  - `stands`: the points are in the records, or are what the arrays decode to.
  - `sized`: the copy of records goes by `datasize`.
  - `in_doubles`: the search starts from the greatest double, so that a value
    beyond it would not be found.
  - `summary`: what the other modules read off a patch.
-/
import Pointcloud.Patch.CompressTheorems
import Pointcloud.Patch.PointSequence
import Pointcloud.Patch.SentinelTheorems
import Pointcloud.Patch.SummaryTheorems

namespace Pointcloud

open Pointcloud.Base

variable {P : Platform}

/-! ## Points and summary

The points of a patch are determined by it (`PcPatch.StandsFor.unique`), whatever
form it has, so that two ways to find them give the same. -/

/-- A patch stands for points: its records are these, or its arrays decode to their
values. -/
def PcPatch.StandsFor (P : Platform) : PcPatch → List Bytes → Prop
  | .uncompressed p, pts => p.Holds pts
  | .dimensional d, pts => YieldsPoints P d pts
  | .lazperf _, _ => False

/-- A patch stands for some points, and its summary is theirs. -/
structure PcPatch.Kept (P : Platform) (pa : PcPatch) (pts : List Bytes) : Prop where
  integral : pa.schema.Integral
  ne : pts ≠ []
  stands : pa.StandsFor P pts
  sized : ∀ u, pa = .uncompressed u → u.npoints * u.schema.size ≤ u.datasize
  in_doubles : ∀ pt ∈ pts, pa.schema.InDoubles P.endian pt
  summary : ∃ st, pa.stats = some st ∧ Summarizes P.endian pa.schema pts pa.bounds st

section StandsFor

variable {pa : PcPatch} {pts : List Bytes} (h : pa.StandsFor P pts)

include h

theorem PcPatch.StandsFor.npoints_eq : pts.length = pa.npoints := by
  cases pa with
  | uncompressed p => exact PcPatchUncompressed.Holds.length_eq h
  | dimensional d => exact YieldsPoints.npoints_eq h
  | lazperf l => exact h.elim

theorem PcPatch.StandsFor.npoints_lt : pa.npoints < 4294967296 := by
  cases pa with
  | uncompressed p => exact PcPatchUncompressed.Holds.npoints_lt h
  | dimensional d =>
      have hlt := (YieldsPoints.fits h).npoints_lt
      rw [PcPatch.npoints]
      omega
  | lazperf l => exact h.elim

theorem PcPatch.StandsFor.width_eq : ∀ pt ∈ pts, pt.length = pa.schema.size := by
  cases pa with
  | uncompressed p => exact PcPatchUncompressed.Holds.width_eq h
  | dimensional d => exact YieldsPoints.width_eq h
  | lazperf l => exact h.elim

/-- The patch can be uncompressed, to records of the points. -/
theorem PcPatch.StandsFor.uncompress : ∃ u, pcPatchUncompress P pa = .ok u ∧ u.Holds pts := by
  cases pa with
  | uncompressed p => exact ⟨p, rfl, h⟩
  | dimensional d =>
      obtain ⟨u, hu, hholds, -⟩ := YieldsPoints.uncompressed h
      exact ⟨u, hu, hholds⟩
  | lazperf l => exact h.elim

theorem PcPatch.StandsFor.holds {u : PcPatchUncompressed} (hu : pcPatchUncompress P pa = .ok u) :
    u.Holds pts ∧ u.points = pts := by
  obtain ⟨u', hu', hholds⟩ := h.uncompress
  cases hu.symm.trans hu'
  exact ⟨hholds, hholds.records_eq⟩

theorem PcPatch.StandsFor.unique {pts' : List Bytes} (h' : pa.StandsFor P pts') : pts = pts' := by
  obtain ⟨u, hu, -⟩ := h.uncompress
  exact (h.holds hu).2.symm.trans (h'.holds hu).2

end StandsFor

/-- An uncompressed patch of points with their summary. -/
theorem PcPatchUncompressed.Holds.kept {q : PcPatchUncompressed} {pts : List Bytes}
    (h : q.Holds pts) (hsized : q.npoints * q.schema.size ≤ q.datasize) (hs : q.schema.Integral)
    (hne : pts ≠ []) (hin : ∀ pt ∈ pts, q.schema.InDoubles P.endian pt)
    (hsummary : ∃ st, q.stats = some st ∧ Summarizes P.endian q.schema pts q.bounds st) :
    PcPatch.Kept P (.uncompressed q) pts where
  integral := hs
  ne := hne
  stands := h
  sized := by
    intro u hu
    cases hu
    exact hsized
  in_doubles := hin
  summary := hsummary

/-- A dimensional patch of points with their summary. -/
theorem YieldsPoints.kept {d : PcPatchDimensional} {pts : List Bytes} (h : YieldsPoints P d pts)
    (hs : d.schema.Integral) (hne : pts ≠ []) (hin : ∀ pt ∈ pts, d.schema.InDoubles P.endian pt)
    (hsummary : ∃ st, d.stats = some st ∧ Summarizes P.endian d.schema pts d.bounds st) :
    PcPatch.Kept P (.dimensional d) pts where
  integral := hs
  ne := hne
  stands := h
  sized := by simp
  in_doubles := hin
  summary := hsummary

/-- A patch whose extent and statistics are computed. -/
theorem kept_of_computed {p r q : PcPatchUncompressed} {pts : List Bytes} (h : p.Holds pts)
    (hsized : p.npoints * p.schema.size ≤ p.datasize) (hs : p.schema.Integral) (hne : pts ≠ [])
    (hin : ∀ pt ∈ pts, p.schema.InDoubles P.endian pt)
    (hextent : pcPatchUncompressedComputeExtent P.endian p = .ok r)
    (hstats : pcPatchUncompressedComputeStats P r = .ok q) :
    PcPatch.Kept P (.uncompressed q) pts := by
  obtain ⟨xdim, hx, hxdim⟩ := hs.valid.xdimension
  obtain ⟨ydim, hy, hydim⟩ := hs.valid.ydimension
  have hint := (pcPatchUncompressedComputeExtent_isOk_iff P.endian hs.valid h.room).mp ⟨r, hextent⟩
  have hrun := computeExtent_computeStats_ok P h hint hxdim hydim hx hy
  rw [hextent, ok_bind, hstats, Except.ok.injEq] at hrun
  subst hrun
  have hholds : (p.summarized P xdim ydim pts).Holds pts := ⟨h.npoints_lt, h.room, h.records_eq⟩
  refine hholds.kept hsized hs hne hin ⟨_, rfl, ?_⟩
  exact summarizes_statsOf hs hne h.width_eq hin (exactBounds_boundsOf hne hxdim hydim hx hy hin)

section Kept

variable {pa qa : PcPatch} {pts : List Bytes} (h : pa.Kept P pts)

include h

/-! ## Copies -/

/-- Uncompressing keeps points and summary. -/
theorem PcPatch.Kept.uncompressed {u : PcPatchUncompressed} (hu : pcPatchUncompress P pa = .ok u) :
    PcPatch.Kept P (.uncompressed u) pts := by
  cases pa with
  | uncompressed p =>
      cases hu
      exact h
  | dimensional d =>
      obtain ⟨u', hu', hholds, hschema, -, hsize⟩ := YieldsPoints.uncompressed h.stands
      cases hu.symm.trans hu'
      obtain ⟨hbounds, hstats⟩ := pcPatchUncompressedFromDimensional_fields hu
      refine hholds.kept (Nat.le_of_eq hsize.symm) (hschema ▸ h.integral) h.ne
        (hschema ▸ h.in_doubles) ?_
      rw [hstats, hschema, hbounds]
      exact Summarizes.clone h.summary
  | lazperf l => exact h.stands.elim

/-- Every encoding can hold the columns of the records. -/
def EncodableColumns (P : Platform) (p : PcPatchUncompressed) : Prop :=
  ∀ dim ∈ p.schema.dims, ∀ c : DimCompression, (∀ code, c ≠ .unknown code) →
    Encodable P (plainArray dim (p.points.map dim.bytesIn)) c

omit h in
/-- What compression returns for such records holds their points: whatever the statistics
recommend, the columns can be encoded so. -/
theorem compressSound_of_columns {p : PcPatchUncompressed} (hholds : p.Holds pts) (hne : pts ≠ [])
    (hfits : Fits p.schema p.npoints) {userdata : Option PcDimStats}
    (hstats : ∀ pds ∈ userdata, pds.stats.length = p.schema.dims.length)
    (hcolumns : EncodableColumns P p) {r : PcPatchDimensional × Option PcDimStats}
    (hrun : pcPatchDimensionalCompress P (p.dimensional pts) userdata = .ok r) :
    CompressSound P (p.dimensional pts) pts (userdata.getD (pcDimstatsMake p.schema)) := by
  have hd : (p.dimensional pts).Holds P pts := PcPatchUncompressed.Holds.dimensional hholds
  have hpos : 1 ≤ p.npoints := hholds.length_eq ▸ List.length_pos_of_ne_nil hne
  have hreturns := compresses_of_ok hd hstats hpos (Nat.le_of_lt hfits.npoints_lt) hrun
  rw [compressSound_plain_iff hholds hne hfits]
  refine ⟨fun hlt => (hreturns.sampleable hlt).patches_ne, fun t ht => ?_⟩
  obtain ⟨dim, hdim, harray⟩ := List.mem_map.mp (List.of_mem_zip (List.of_mem_zip ht).1).2
  rw [← harray, ← hholds.records_eq]
  refine hcolumns dim hdim _ fun code hcode => ?_
  have hknown := hreturns.reencodes t ht
  rw [hcode] at hknown
  exact hknown

omit h in
/-- Compressing an uncompressed patch dimensionally keeps points and summary. -/
theorem PcPatch.Kept.compressDimensional {p : PcPatchUncompressed}
    (h : PcPatch.Kept P (.uncompressed p) pts)
    (hdim : p.schema.compression = .dimensional) (hfits : Fits p.schema p.npoints)
    {userdata userdata' : Option PcDimStats}
    (hstats : ∀ pds ∈ userdata, pds.stats.length = p.schema.dims.length)
    (hcolumns : EncodableColumns P p)
    (hrun : pcPatchCompress P (.uncompressed p) userdata = .ok (qa, userdata')) :
    qa.schema = p.schema ∧ qa.Kept P pts := by
  have hholds : p.Holds pts := h.stands
  have hd : (p.dimensional pts).Holds P pts := PcPatchUncompressed.Holds.dimensional hholds
  simp only [pcPatchCompress, PcPatch.schema, hdim] at hrun
  obtain ⟨pcdu, hpcdu, hrun⟩ := bind_eq_ok.mp hrun
  cases hpcdu.symm.trans (pcPatchDimensionalFromUncompressed_ok hholds h.ne hfits)
  obtain ⟨⟨pcdd, _⟩, hpcdd, hrun⟩ := bind_eq_ok.mp hrun
  cases hrun
  have hcond := compressSound_of_columns hholds h.ne hfits hstats hcolumns hpcdd
  obtain ⟨d, pds, hd', hschema, hnpoints, hkept⟩ :=
    pcPatchDimensionalCompress_ok hd h.ne hfits hstats hcond.compresses
  have hsame := (pointsOf_slotValues_eq_iff hd h.ne hfits
    (length_after (length_getD_pcDimstatsMake hstats) hd.bytes_hold.length_eq.symm)
    hcond.compresses.reencodes).mpr hcond.values_eq
  rw [hsame] at hkept
  have heq := hpcdd.symm.trans hd'
  cases heq
  obtain ⟨stats, -, hpcdd⟩ := bind_eq_ok.mp hpcdd
  obtain ⟨bytes, -, hpcdd⟩ := bind_eq_ok.mp hpcdd
  cases hpcdd
  exact ⟨rfl, (hkept.yieldsPoints hfits).kept h.integral h.ne h.in_doubles
    (Summarizes.clone (Summarizes.clone h.summary))⟩

/-- What is asked of a patch that is compressed: its schema asks for no compression; or for
the dimensional one, and the patch has records whose columns every encoding can hold. One
that is dimensional already would have its encoded arrays encoded again. -/
def CompressRestores (P : Platform) (pa : PcPatch) (userdata : Option PcDimStats) : Prop :=
  pa.schema.compression = .none ∨
    pa.schema.compression = .dimensional ∧ ∃ p, pa = .uncompressed p ∧
      Fits p.schema p.npoints ∧ (∀ pds ∈ userdata, pds.stats.length = p.schema.dims.length) ∧
        EncodableColumns P p

/-- Compressing keeps points and summary. -/
theorem PcPatch.Kept.compress {userdata userdata' : Option PcDimStats}
    (hcond : CompressRestores P pa userdata)
    (hrun : pcPatchCompress P pa userdata = .ok (qa, userdata')) :
    qa.schema = pa.schema ∧ qa.Kept P pts := by
  obtain hnone | ⟨hdim, p, rfl, hfits, hstats, hcolumns⟩ := hcond
  · cases pa with
    | uncompressed p =>
        simp only [pcPatchCompress, PcPatch.schema] at hrun hnone
        rw [hnone] at hrun
        cases hrun
        exact ⟨rfl, h⟩
    | dimensional d =>
        simp only [pcPatchCompress, PcPatch.schema] at hrun hnone
        rw [hnone] at hrun
        obtain ⟨u, hu, hrun⟩ := bind_eq_ok.mp hrun
        cases hrun
        have hrecords : pcPatchUncompress P (.dimensional d) = .ok u := hu
        exact ⟨(schema_of_uncompress hrecords).1, h.uncompressed hrecords⟩
    | lazperf l => exact h.stands.elim
  · exact h.compressDimensional hdim hfits hstats hcolumns hrun

/-! ## Filtering

First what the two filters make of a bitmap, then what the bitmap is for a
comparison: the marked points are those that pass (`passing`). The statistics are
asked before the points, and may only say no where none passes; that is the place
where the summary of the patch going in is used (`PcPatch.Kept.hasResults`). -/

omit h in
/-- Filtering records keeps those that are marked. -/
theorem PcPatch.Kept.uncompressedFilter {p q : PcPatchUncompressed}
    (h : PcPatch.Kept P (.uncompressed p) pts) {map : PcBitmap} (hset : map.nset ≠ 0)
    (hrun : pcPatchUncompressedFilter P p map = .ok q) :
    q.schema = p.schema ∧ PcPatch.Kept P (.uncompressed q) (select map.map pts) := by
  obtain ⟨fpu, -, hrest⟩ := bind_eq_ok.mp hrun
  obtain ⟨_, hassert, hrest⟩ := bind_eq_ok.mp hrest
  obtain ⟨_, hloop, -⟩ := bind_eq_ok.mp hrest
  have hmap := assertThat_eq_ok.mp hassert
  have hint := intLoop_eq_ok.mp hloop
  obtain ⟨xdim, hx, hxdim⟩ := h.integral.valid.xdimension
  obtain ⟨ydim, hy, hydim⟩ := h.integral.valid.ydimension
  have hholds : p.Holds pts := h.stands
  obtain ⟨f, hf, hfholds, hschema, -, hsize, hstats, hbounds⟩ := pcPatchUncompressedFilter_ok
    (P := P) hholds hmap hint hxdim hydim hx hy
  cases hrun.symm.trans hf
  have hlen : map.map.length = pts.length := by
    rw [hholds.length_eq, ← hmap]
    rfl
  -- the summary is computed of what is left, so only the conditions pass on
  have hne := select_ne_nil hlen hset
  have hin : ∀ pt ∈ select map.map pts, p.schema.InDoubles P.endian pt :=
    fun pt hpt => h.in_doubles pt (mem_of_mem_select hpt)
  refine ⟨hschema, hfholds.kept (Nat.le_of_eq hsize.symm) (hschema ▸ h.integral) hne
    (hschema ▸ hin) ⟨_, hstats, ?_⟩⟩
  rw [hschema, hbounds]
  exact summarizes_statsOf h.integral hne
    (fun pt hpt => hholds.width_eq pt (mem_of_mem_select hpt)) hin
    (exactBounds_boundsOf hne hxdim hydim hx hy hin)

omit h in
/-- Filtering dimensions keeps the points that are marked. -/
theorem PcPatch.Kept.dimensionalFilter {d f : PcPatchDimensional}
    (h : PcPatch.Kept P (.dimensional d) pts) (hxy : d.schema.xdim ≠ d.schema.ydim)
    {map : PcBitmap} (hmap : map.npoints = d.npoints) (hset : map.nset ≠ 0)
    (hzlib : ZlibKeeps P d (select map.map pts))
    (hrun : pcPatchDimensionalFilter P d map = .ok f) :
    f.schema = d.schema ∧ PcPatch.Kept P (.dimensional f) (select map.map pts) ∧
      f.Holds P (select map.map pts) := by
  have hyields : YieldsPoints P d pts := h.stands
  have hs : d.schema.Integral := h.integral
  obtain ⟨xdim, hx, hxdim⟩ := hs.valid.xdimension
  obtain ⟨ydim, hy, hydim⟩ := hs.valid.ydimension
  obtain ⟨st, hst, hsummary⟩ := h.summary
  obtain ⟨⟨hholds, hschema, stat, hstat, hfstats, hfbounds⟩, hnpoints⟩ :=
    hyields.filter hmap hset hzlib hst hsummary.stats_over hrun
  have hlen : map.map.length = pts.length := by
    rw [hyields.npoints_eq, ← hmap]
    rfl
  have hne := select_ne_nil hlen hset
  have hwidth : ∀ pt ∈ select map.map pts, pt.length = d.schema.size :=
    fun pt hpt => hyields.width_eq pt (mem_of_mem_select hpt)
  have hle : map.nset ≤ d.npoints := by
    rw [map.nset_eq, ← hmap]
    exact List.count_le_length
  have hfits : Fits f.schema f.npoints := by
    rw [hschema, hnpoints]
    refine ⟨Nat.lt_of_le_of_lt hle hyields.fits.npoints_lt, fun dim hd => ?_⟩
    exact Nat.lt_of_le_of_lt (Nat.mul_le_mul_left _ hle) (hyields.fits.size_lt dim hd)
  -- the summary is gathered number by number; for each dimension it is the least and
  -- the greatest of what is left, and the bounds are those of x and y
  refine ⟨hschema, (hholds.yieldsPoints hfits).kept (hschema ▸ hs) hne
    (hschema ▸ fun pt hpt => h.in_doubles pt (mem_of_mem_select hpt)) ⟨_, hfstats, ?_⟩, hholds⟩
  rw [hschema, hfbounds, boundsOfStats_eq d.bounds stat hxdim hydim hxy,
    (hstat xdim hx).1, (hstat xdim hx).2, (hstat ydim hy).1, (hstat ydim hy).2]
  refine summarizes_stored hs hwidth (fun dim hd => ?_) (fun dim hd => ?_)
    (exactBounds_lowest hs hne hwidth hxdim hydim hx hy P.endian)
  · rw [(hstat dim hd).1]
    exact (hs.extremes_lowest hd hne hwidth P.endian).1
  · rw [(hstat dim hd).2]
    exact (hs.extremes_lowest hd hne hwidth P.endian).2

/-- zlib gives back what the filter keeps of a dimensional patch, whose x and y are two
dimensions. -/
def FilterRestores (P : Platform) (pa : PcPatch) (dimnum : Nat) (filter : PcFiltertype)
    (val1 val2 : ℚ) : Prop :=
  ∀ d, pa = .dimensional d → d.schema.xdim ≠ d.schema.ydim ∧
    ∀ map u, pcPatchDimensionalBitmap P d dimnum filter val1 val2 = .ok map →
      pcPatchUncompressedFromDimensional P d = .ok u → ZlibKeeps P d (select map.map u.points)

omit h in
theorem emptyPatch_fields {s : PcSchema} (hrun : emptyPatch s = .ok qa) :
    qa.schema = s ∧ qa.npoints = 0 := by
  obtain ⟨p, hp, hrun⟩ := bind_eq_ok.mp hrun
  cases hrun
  obtain ⟨hschema, hnpoints, -⟩ := pcPatchUncompressedMake_fields hp
  exact ⟨hschema, hnpoints⟩

/-- What the statistics rule out does not pass. -/
theorem PcPatch.Kept.hasResults {st : PcStats} (hst : pa.stats = some st) {dimnum : Nat}
    {filter : PcFiltertype} {val1 val2 : ℚ} {has : Bool}
    (hrun : pcPatchFilterHasResults P.endian st dimnum filter val1 val2 = .ok has) :
    ∃ dim, pa.schema.dims[dimnum]? = some dim ∧
      (has = false → passing P.endian dim filter val1 val2 pts = []) := by
  obtain ⟨st', hst', hsummary⟩ := h.summary
  cases hst.symm.trans hst'
  obtain ⟨hmin, hmax, -⟩ := hsummary.stats_over
  obtain ⟨least, hleast, hrun⟩ := bind_eq_ok.mp hrun
  obtain ⟨greatest, hgreatest, hrun⟩ := bind_eq_ok.mp hrun
  cases hrun
  unfold pcPointGetDoubleByIndex at hleast hgreatest
  rw [hmin] at hleast
  rw [hmax] at hgreatest
  cases hdim : pa.schema.dims[dimnum]? with
  | none =>
      rw [hdim] at hleast
      exact absurd hleast (fault_ne_ok least)
  | some dim =>
      rw [hdim] at hleast hgreatest
      have hd : dim ∈ pa.schema.dims := List.mem_of_getElem? hdim
      cases hleast.symm.trans (pcPointGetDouble_ok P.endian st.min (hmin ▸ hd))
      cases hgreatest.symm.trans (pcPointGetDouble_ok P.endian st.max (hmax ▸ hd))
      obtain ⟨hlow, hhigh⟩ := hsummary.extremes h.integral hd
      refine ⟨dim, rfl, fun hnone => passing_eq_nil_iff.mpr fun pt hpt => ?_⟩
      have hmem : dim.valueIn P.endian pt ∈ dim.column P.endian pts := List.mem_map_of_mem hpt
      exact not_holds_of_not_mayHold hnone (hlow.2 _ hmem) (hhigh.2 _ hmem)

/-- The patch that a filter gives has the points that pass, or is empty where there
are none. Its arrays are as an encoder writes them. -/
def FilteredTo (P : Platform) (s : PcSchema) (qa : PcPatch) (qts : List Bytes) : Prop :=
  qa.schema = s ∧ (qts = [] ∧ emptyPatch s = .ok qa ∨ qa.Kept P qts ∧ qa.Holds P qts)

omit h in
/-- Where no entry of the bitmap is set, the empty patch is what is left. -/
theorem filteredTo_empty {s : PcSchema} {qts : List Bytes} (hnone : qts = [])
    (hrun : emptyPatch s = .ok qa) : FilteredTo P s qa qts :=
  ⟨(emptyPatch_fields hrun).1, .inl ⟨hnone, hrun⟩⟩

omit h in
/-- Records are compared by their values. -/
theorem PcPatch.Kept.filterRecords {p : PcPatchUncompressed}
    (h : PcPatch.Kept P (.uncompressed p) pts) {dimnum : Nat} {dim : PcDimension}
    (hdim : p.schema.dims[dimnum]? = some dim) {filter : PcFiltertype} {val1 val2 : ℚ}
    (hrun : filterPoints P (.uncompressed p) dimnum filter val1 val2 = .ok qa) :
    FilteredTo P p.schema qa (passing P.endian dim filter val1 val2 pts) := by
  obtain ⟨map, hmap, hrun⟩ := bind_eq_ok.mp hrun
  have hholds : p.Holds pts := h.stands
  have hloop := hmap
  obtain ⟨_, -, hloop⟩ := bind_eq_ok.mp hloop
  obtain ⟨_, hloop, -⟩ := bind_eq_ok.mp hloop
  have hbits := pcPatchUncompressedBitmap_ok hholds P.endian filter val1 val2 hdim
    (intLoop_eq_ok.mp hloop)
  cases hmap.symm.trans hbits
  have hpassing : select (PcBitmap.of (dim.marksOf P.endian filter val1 val2 pts)).map pts =
      passing P.endian dim filter val1 val2 pts := select_map_self _ pts
  split at hrun
  · next hnone =>
      refine filteredTo_empty ?_ hrun
      rw [← hpassing]
      exact select_eq_nil (List.length_map _) hnone
  · next hset =>
      obtain ⟨q, hq, hrun⟩ := bind_eq_ok.mp hrun
      cases hrun
      obtain ⟨hschema, hkept⟩ := h.uncompressedFilter hset hq
      exact ⟨hschema, .inr (hpassing ▸ ⟨hkept, hkept.stands⟩)⟩

omit h in
/-- Arrays are compared by their numbers, with the same result. -/
theorem PcPatch.Kept.filterArrays {d : PcPatchDimensional}
    (h : PcPatch.Kept P (.dimensional d) pts) {dimnum : Nat} {dim : PcDimension}
    (hdim : d.schema.dims[dimnum]? = some dim) {filter : PcFiltertype} {val1 val2 : ℚ}
    (hcond : FilterRestores P (.dimensional d) dimnum filter val1 val2)
    (hrun : filterPoints P (.dimensional d) dimnum filter val1 val2 = .ok qa) :
    FilteredTo P d.schema qa (passing P.endian dim filter val1 val2 pts) := by
  obtain ⟨map, hmap, hrun⟩ := bind_eq_ok.mp hrun
  have hyields : YieldsPoints P d pts := h.stands
  have hpos := h.integral.scale_pos dim (List.mem_of_getElem? hdim)
  obtain ⟨dim', hdim', hbits⟩ := hyields.bitmap hmap
  cases hdim.symm.trans hdim'
  have hlen : map.npoints = pts.length := by
    rw [PcBitmap.npoints, hbits, List.length_map]
  have hpassing : select map.map pts = passing P.endian dim filter val1 val2 pts := by
    rw [hbits, select_map_self]
    exact (passingStored_eq_iff (ne_of_gt hpos) filter val1 val2 pts).mpr (.inl hpos)
  split at hrun
  · next hnone =>
      refine filteredTo_empty ?_ hrun
      rw [← hpassing]
      exact select_eq_nil hlen hnone
  · next hset =>
      obtain ⟨f, hf, hrun⟩ := bind_eq_ok.mp hrun
      cases hrun
      obtain ⟨hxy, hzlib⟩ := hcond d rfl
      obtain ⟨u, hu, -⟩ := h.stands.uncompress
      have hkeeps := hzlib map u hmap hu
      rw [(h.stands.holds hu).2] at hkeeps
      obtain ⟨hschema, hkept⟩ := h.dimensionalFilter hxy (hlen.trans hyields.npoints_eq) hset
        hkeeps hf
      exact ⟨hschema, .inr (hpassing ▸ hkept)⟩

/-- A filter gives the points that pass, whether the statistics are asked only or the
points as well. -/
theorem PcPatch.Kept.filtered {dimnum : Nat} {filter : PcFiltertype} {val1 val2 : ℚ}
    (hcond : FilterRestores P pa dimnum filter val1 val2)
    (hrun : pcPatchFilter P pa dimnum filter val1 val2 = .ok qa) :
    ∃ dim, pa.schema.dims[dimnum]? = some dim ∧
      FilteredTo P pa.schema qa (passing P.endian dim filter val1 val2 pts) := by
  obtain ⟨st, hst, -⟩ := h.summary
  rw [pcPatchFilter, hst] at hrun
  obtain ⟨has, hhas, hrun⟩ := bind_eq_ok.mp hrun
  obtain ⟨dim, hdim, hruledout⟩ := h.hasResults hst hhas
  refine ⟨dim, hdim, ?_⟩
  cases has with
  | false =>
      rw [if_neg (by decide)] at hrun
      exact filteredTo_empty (hruledout rfl) hrun
  | true =>
      rw [if_pos rfl] at hrun
      cases pa with
      | uncompressed p => exact h.filterRecords hdim hrun
      | dimensional d => exact h.filterArrays hdim hcond hrun
      | lazperf l => exact h.stands.elim

/-- A filter that some points pass. -/
theorem PcPatch.Kept.filter {dimnum : Nat} {filter : PcFiltertype} {val1 val2 : ℚ}
    (hcond : FilterRestores P pa dimnum filter val1 val2)
    (hrun : pcPatchFilter P pa dimnum filter val1 val2 = .ok qa) (hpos : 1 ≤ qa.npoints) :
    ∃ dim, pa.schema.dims[dimnum]? = some dim ∧ qa.schema = pa.schema ∧
      qa.Kept P (passing P.endian dim filter val1 val2 pts) ∧
        qa.Holds P (passing P.endian dim filter val1 val2 pts) := by
  obtain ⟨dim, hdim, hschema, hempty | hkept⟩ := h.filtered hcond hrun
  · have hzero := (emptyPatch_fields hempty.2).2
    omega
  · exact ⟨dim, hdim, hschema, hkept⟩

/-! ## Parts and orders

Both work on records, uncompressed before. The summary of a range is computed anew.
Sorting copies it, and it stays right since the points are the same ones. -/

omit h in
/-- A range of a patch is copied from its records, unless it has all points. -/
theorem pcPatchRange_uncompressed {u : PcPatchUncompressed} (hu : pcPatchUncompress P pa = .ok u)
    (first count : Int) :
    pcPatchRange P pa first count = pcPatchRange P (.uncompressed u) first count ∨
      pcPatchRange P pa first count = .ok (some pa) ∧
        pcPatchRange P (.uncompressed u) first count = .ok (some (.uncompressed u)) := by
  obtain ⟨hschema, hnpoints⟩ := schema_of_uncompress hu
  have hs : (PcPatch.uncompressed u).schema = pa.schema := hschema
  have hn : (PcPatch.uncompressed u).npoints = pa.npoints := hnpoints
  have hself : pcPatchUncompress P (.uncompressed u) = .ok u := rfl
  unfold pcPatchRange
  simp only [hs, hn, hu, hself]
  generalize int32 (first - 1) = start
  generalize (if int32 (pa.npoints - start) < count then int32 (pa.npoints - start)
    else count) = taken
  split
  · exact .inl rfl
  · split
    · exact .inr ⟨rfl, rfl⟩
    · exact .inl rfl

/-- A range with numbers of an `int` is a slice of the points. -/
theorem PcPatch.Kept.range_eq {first count : Int} (hlt : pa.npoints < 2147483648)
    (hlo : -2147483648 ≤ first) (hhi : first ≤ 2147483647)
    (hrun : pcPatchRange P pa first count = .ok (some qa)) {qts : List Bytes}
    (hq : qa.StandsFor P qts) : qts = sliceOf pts first count := by
  obtain ⟨u, hu, hholds⟩ := h.stands.uncompress
  obtain ⟨hschema, hnpoints⟩ := schema_of_uncompress hu
  have hlen := h.stands.npoints_eq
  by_cases hnone : first < 1 ∨ count ≤ 0 ∨ (pa.npoints : Int) < first
  · rw [pcPatchRange_none hlt hlo hhi hnone] at hrun
    cases hrun
  · by_cases hwhole : first = 1 ∧ (pa.npoints : Int) ≤ count
    · obtain ⟨rfl, hcount⟩ := hwhole
      rw [pcPatchRange_whole hlt (by omega) hcount] at hrun
      cases hrun
      rw [hq.unique h.stands, sliceOf, sub_self, Int.toNat_zero, List.drop_zero,
        List.take_of_length_le (by omega)]
    · obtain ⟨n, rfl⟩ := Int.exists_add_of_le (show 1 ≤ first by omega)
      rw [add_comm] at hrun ⊢
      have hs : (PcPatch.uncompressed u).schema = pa.schema := hschema
      have hn : (PcPatch.uncompressed u).npoints = pa.npoints := hnpoints
      have hu' : (PcPatch.uncompressed u).Holds P pts := hholds
      obtain ⟨q, hpart, hslice, -⟩ := pcPatchRange_part hu' (hs ▸ h.integral.valid) (by omega) n
        count (by omega) (by omega) (by omega)
      have hpoints : (PcPatch.uncompressed q).StandsFor P (sliceOf pts (n + 1) count) := hslice
      rcases pcPatchRange_uncompressed hu (n + 1) count with heq | ⟨hpa, hall⟩
      · have hqa := Option.some.inj (Except.ok.inj (hrun.symm.trans (heq.trans hpart)))
        subst hqa
        exact hq.unique hpoints
      · have hqa := Option.some.inj (Except.ok.inj (hrun.symm.trans hpa))
        have hqu := Option.some.inj (Except.ok.inj (hpart.symm.trans hall))
        subst hqa
        cases hqu
        have hall' : (PcPatch.uncompressed u).StandsFor P pts := hholds
        rw [hq.unique h.stands]
        exact hall'.unique hpoints

/-- A part of the points is summarized anew. -/
theorem PcPatch.Kept.range {first count : Int}
    (hrun : pcPatchRange P pa first count = .ok (some qa)) :
    ∃ qts, qa.schema = pa.schema ∧ qa.Kept P qts := by
  obtain rfl | ⟨u, qts, hrange⟩ := rangeOf_of_ok h.stands.npoints_lt hrun
  · exact ⟨pts, rfl, h⟩
  · obtain ⟨p, r, q, hp, hschema, hsize, hextent, hstats, rfl⟩ := hrange.computed
    have hpoints := (h.stands.holds hrange.uncompress_ok).2
    have hfields := pcPatchUncompressedComputeStats_fields hstats
    refine ⟨qts, ?_, kept_of_computed hp (Nat.le_of_eq hsize.symm) (hschema ▸ h.integral) hrange.ne
      (fun pt hpt => ?_) hextent hstats⟩
    · rw [hfields, pcPatchUncompressedComputeExtent_eq hextent]
      exact hschema
    · rw [hschema]
      refine h.in_doubles pt ?_
      rw [← hpoints]
      exact hrange.part.subset hpt

/-- The order of the points is no part of the summary. -/
theorem PcPatch.Kept.sort {S : SortR} {names : List String} (hne : names ≠ [])
    (hrun : pcPatchSort P S pa names = .ok qa) :
    ∃ qts dims, qa.schema = pa.schema ∧ qa.Kept P qts ∧ qts.Perm pts ∧
      NamesDims pa.schema names dims ∧ SortedBy P.endian dims qts := by
  have hroom := room_of_pcPatchSort hrun
  obtain ⟨dims, hdims, hrun⟩ := bind_eq_ok.mp hrun
  obtain ⟨u, hu, hrun⟩ := bind_eq_ok.mp hrun
  obtain ⟨q, hq, hrun⟩ := bind_eq_ok.mp hrun
  cases hrun
  have hnames := namesDims_of_ok hdims
  obtain ⟨hschema, hnpoints⟩ := schema_of_uncompress hu
  have hdims_ne : dims ≠ [] := by
    rintro rfl
    exact hne (List.forall₂_nil_right_iff.mp hnames)
  have hkept := h.uncompressed hu
  have hholds : u.Holds pts := hkept.stands
  -- the records fill the block that they are copied to
  have hsize : u.datasize = u.npoints * u.schema.size := by
    obtain ⟨spu, hmake, hcopy⟩ := bind_eq_ok.mp hq
    obtain ⟨src, hread, hcopy⟩ := bind_eq_ok.mp hcopy
    obtain ⟨data, hwrite, -⟩ := bind_eq_ok.mp hcopy
    have hlen := length_of_readAt hread
    have hblock := (pcPatchUncompressedMake_fields hmake).2.2.2.2
    have hle := hkept.sized u rfl
    rw [Nat.mul_comm] at hblock
    by_contra hne
    have hpos := Nat.zero_le (u.npoints * u.schema.size)
    have hsrc : src ≠ [] := by
      rintro rfl
      rw [List.length_nil] at hlen
      omega
    rw [writeAt_fault hsrc (Or.inr (by omega))] at hwrite
    exact fault_ne_ok data hwrite
  obtain ⟨q', qts, hq', hqholds, hperm, hsorted, hschema', hsize', -, hnpoints', hbounds, hstats⟩ :=
    pcPatchUncompressedSort_ok (P := P) (S := S) hholds hsize (by rwa [hschema, hnpoints])
      hdims_ne (hschema ▸ hnames.mem_dims)
  cases hq.symm.trans hq'
  have hmem : ∀ pt, pt ∈ qts ↔ pt ∈ pts := fun pt => hperm.mem_iff
  refine ⟨qts, dims, hschema'.trans hschema, hqholds.kept (Nat.le_of_eq hsize'.symm)
    (hschema' ▸ hkept.integral) ?_ ?_ ?_, hperm, hnames, hsorted⟩
  · rintro rfl
    exact h.ne (List.nil_perm.mp hperm)
  · intro pt hpt
    rw [hschema']
    exact hkept.in_doubles pt ((hmem pt).mp hpt)
  · obtain ⟨st, hst, hsummary⟩ := Summarizes.clone hkept.summary
    refine ⟨st, hstats.trans hst, ?_⟩
    rw [hschema', hbounds]
    exact hsummary.of_mem_iff hmem

end Kept

/-! ## Patches put together

The points of a list are copied, null entries left out, and summarised. For a list
of patches the bounds are merged instead, and the statistics are computed. -/

/-- Points that are put into a patch. -/
theorem kept_of_fromPointlist {pl : PcPointlist} {q : PcPatchUncompressed}
    (hin : ∀ first, pl.points.head? = some (some first) → first.schema.Integral ∧
      ∀ pt, some pt ∈ pl.points →
        first.schema.InDoubles P.endian (pt.data.take first.schema.size))
    (hrun : pcPatchUncompressedFromPointlist P pl = .ok q) :
    ∃ first, pl.points.head? = some (some first) ∧ q.schema = first.schema ∧
      PcPatch.Kept P (.uncompressed q)
        ((pl.points.filterMap id).map fun pt => pt.data.take first.schema.size) := by
  unfold pcPatchUncompressedFromPointlist at hrun
  split at hrun
  · exact absurd hrun (raise_ne_ok _ q)
  · exact absurd hrun (fault_ne_ok q)
  · next first rest hpoints =>
      obtain ⟨data, hdata, hrun⟩ := bind_eq_ok.mp hrun
      obtain ⟨_, -, hrun⟩ := bind_eq_ok.mp hrun
      obtain ⟨recs, hrecs, hrun⟩ := bind_eq_ok.mp hrun
      obtain ⟨written, hemit, hrun⟩ := bind_eq_ok.mp hrun
      obtain ⟨r, hextent, hstats⟩ := bind_eq_ok.mp hrun
      have hhead : pl.points.head? = some (some first) := by rw [hpoints, List.head?_cons]
      obtain ⟨hs, hdoubles⟩ := hin first hhead
      have hcopy : ∀ (pt : PcPoint) (rec : Bytes), copyPoint first.schema pt = .ok rec →
          rec = pt.data.take first.schema.size ∧ rec.length = first.schema.size := by
        intro pt rec hrec
        unfold copyPoint at hrec
        split at hrec
        · exact absurd hrec (raise_ne_ok _ rec)
        · have hread : readAt pt.data ((0 : Nat) : Int) first.schema.size = .ok rec := hrec
          exact ⟨(readAt_eq_ok.mp hread).2.symm, length_of_readAt hrec⟩
      have hmap : recs = (pl.points.filterMap id).map fun pt => pt.data.take first.schema.size :=
        eq_map_of_mapM (fun pt _ rec hrec => (hcopy pt rec hrec).1) hrecs
      have hcopied : ∀ rec ∈ recs, rec.length = first.schema.size ∧
          first.schema.InDoubles P.endian rec := by
        intro rec hrec
        obtain ⟨pt, hpt, hread⟩ := exists_mem_of_mem_mapM hrecs rec hrec
        obtain ⟨rfl, hlen⟩ := hcopy pt rec hread
        obtain ⟨entry, hentry, rfl⟩ := List.mem_filterMap.mp hpt
        exact ⟨hlen, hdoubles pt hentry⟩
      have hcount : recs.length = (pl.points.filterMap id).length := length_of_mapM_eq_ok hrecs
      have hle : recs.length ≤ pl.points.length := hcount ▸ List.length_filterMap_le id _
      have hne : recs ≠ [] := by
        rw [← List.length_pos_iff, hcount, hpoints,
          List.filterMap_cons_some (f := id) (a := some first) rfl]
        exact Nat.succ_pos _
      have hwidth : ∀ rec ∈ recs, rec.length = first.schema.size := fun rec h => (hcopied rec h).1
      have hwritten : written = recs.flatten := by
        unfold emit at hemit
        split at hemit
        · cases hemit
          rw [List.nil_append]
        · exact absurd hemit (fault_ne_ok written)
      have hfields := pcPatchUncompressedComputeStats_fields hstats
      refine ⟨first, hhead, ?_, hmap ▸ kept_of_computed ⟨?_, ?_, ?_⟩ ?_ hs hne
        (fun pt h => (hcopied pt h).2) hextent hstats⟩
      · rw [hfields, pcPatchUncompressedComputeExtent_eq hextent]
      · exact Nat.lt_of_le_of_lt hle pl.length_lt
      · rw [content_bufOf, hwritten, List.length_append, length_flatten_of_width hwidth]
        exact Nat.le_add_right _ _
      · rw [content_bufOf, hwritten]
        exact records_flatten_append _ hwidth
      · rw [Nat.mul_comm]
        exact Nat.mul_le_mul_left _ hle

/-- Patches of one format that are put together. -/
theorem kept_of_fromPatchlist {palist : List PcPatch} {ptss : List (List Bytes)}
    (h : List.Forall₂ (PcPatch.Kept P) palist ptss) (hpcid : IdentifiedSchemas palist)
    {q : PcPatchUncompressed} (hrun : pcPatchFromPatchlist P palist = .ok q) :
    (∀ pa ∈ palist, pa.schema = q.schema) ∧ PcPatch.Kept P (.uncompressed q) ptss.flatten := by
  have hsize := truthful_fromPatchlist hrun
  have hholdsAll : ∀ pa ∈ palist, ∀ u, pcPatchUncompress P pa = .ok u → u.Holds u.points := by
    intro pa hpa u hu
    obtain ⟨pts, hkept⟩ := exists_forall₂_iff.mp ⟨_, h⟩ pa hpa
    obtain ⟨hholds, hpoints⟩ := hkept.stands.holds hu
    rwa [hpoints]
  cases palist with
  | nil => cases hrun
  | cons first rest =>
      have hfirst : (first :: rest).head? = some first := rfl
      have hsame := schema_of_fromPatchlist hpcid hfirst hrun
      obtain ⟨us, hus, htotal, hroom⟩ := fromPatchlist_passed hfirst hsame hholdsAll hrun
      obtain ⟨q', hq', hholds, hschema, hstats, hbounds⟩ :=
        fromPatchlist_ok hus hfirst hsame rfl htotal hroom
      cases hrun.symm.trans hq'
      -- the records of each patch are the points that its summary is of
      have hflat : us.map PcPatchUncompressed.points = ptss := by
        have hlen := hus.length_eq
        have hlen' := h.length_eq
        refine List.ext_getElem (by rw [List.length_map]; omega) fun i hi hi' => ?_
        rw [List.length_map] at hi
        have hu := ((List.forall₂_iff_get.mp hus).2 i (by omega) hi).1
        have hone := (List.forall₂_iff_get.mp h).2 i (by omega) hi'
        rw [List.getElem_map]
        exact (hone.stands.holds hu).2
      rw [← hflat] at h ⊢
      have hkepts : List.Forall₂ (fun pa u => PcPatch.Kept P pa u.points) (first :: rest) us := by
        rwa [List.forall₂_map_right_iff] at h
      obtain ⟨pts, hkept⟩ := exists_forall₂_iff.mp ⟨_, h⟩ first List.mem_cons_self
      have hs : first.schema.Integral := hkept.integral
      have hmem : ∀ pt ∈ (us.map PcPatchUncompressed.points).flatten,
          first.schema.InDoubles P.endian pt := by
        intro pt hpt
        obtain ⟨l, hl, hpt⟩ := List.mem_flatten.mp hpt
        obtain ⟨u, hu, rfl⟩ := List.mem_map.mp hl
        obtain ⟨i, hi, rfl⟩ := List.mem_iff_getElem.mp hu
        have hi' : i < (first :: rest).length := hus.length_eq ▸ hi
        have hone := (List.forall₂_iff_get.mp hkepts).2 i hi' hi
        rw [List.get_eq_getElem, List.get_eq_getElem] at hone
        rw [← hsame _ (List.getElem_mem hi')]
        exact hone.in_doubles pt hpt
      have hne : (us.map PcPatchUncompressed.points).flatten ≠ [] := by
        obtain ⟨u, us', hone, -, rfl⟩ := List.forall₂_cons_left_iff.mp hkepts
        rw [List.map_cons, List.flatten_cons]
        exact List.append_ne_nil_of_left_ne_nil hone.ne _
      have hexact : List.Forall₂ (ExactBounds P.endian first.schema)
          (us.map PcPatchUncompressed.points) ((first :: rest).map PcPatch.bounds) := by
        rw [List.forall₂_map_left_iff, List.forall₂_map_right_iff]
        refine List.forall₂_iff_get.mpr ⟨hus.length_eq.symm, fun i hi hi' => ?_⟩
        have hone := (List.forall₂_iff_get.mp hkepts).2 i hi' hi
        obtain ⟨st, -, hsummary⟩ := hone.summary
        rw [hsame _ (List.get_mem _ _)] at hsummary
        exact hsummary.bounds
      have hreached : BoundsReached ((first :: rest).map PcPatch.bounds) := by
        obtain ⟨st, -, hsummary⟩ := hkept.summary
        exact hsummary.bounds.reached hs.valid hkept.in_doubles
          (List.mem_map_of_mem List.mem_cons_self)
      refine ⟨hschema ▸ hsame, hholds.kept (Nat.le_of_eq hsize.symm) (hschema ▸ hs) hne
        (hschema ▸ hmem) ⟨_, hstats, ?_⟩⟩
      rw [hschema, hbounds]
      exact summarizes_statsOf hs hne (width_points hus hsame) hmem
        (exactBounds_flatten hexact ((isUnion_merged_iff (by simp)).mpr hreached))

/-! ## Other schemas -/

section Schemas

variable {pa : PcPatch} {pts : List Bytes} (h : pa.Kept P pts) {s : PcSchema} (hs : s.Integral)
  {dflt : ℚ}

include h hs

/-- The summary is moved with the points. -/
theorem PcPatch.Kept.setSchema
    (hin : ∀ pt ∈ pts, s.InDoubles P.endian (moved P pa.schema s dflt pt))
    {q : PcPatchUncompressed} (hrun : pcPatchSetSchema P pa s dflt = .ok q) :
    q.schema = s ∧ PcPatch.Kept P (.uncompressed q) (pts.map (moved P pa.schema s dflt)) := by
  obtain ⟨hmatch, ⟨u, hu⟩, hroom, -⟩ := pcPatchSetSchema_passed hrun
  obtain ⟨st, hst, hsummary⟩ := h.summary
  have hover : ∀ st', pa.stats = some st' → StatsOver pa.schema st' := by
    intro st' hst'
    cases hst.symm.trans hst'
    exact hsummary.stats_over
  obtain ⟨q', hq', hmoved⟩ := pcPatchSetSchema_ok hu (h.stands.holds hu).1 hroom h.integral.valid
    hs.valid hmatch hover dflt
  cases hrun.symm.trans hq'
  obtain ⟨st', hst', hover', hmin, hmax, -, hbounds⟩ := hmoved.with_stats st hst
  obtain ⟨xdim, hx, hxdim⟩ := hs.valid.xdimension
  obtain ⟨ydim, hy, hydim⟩ := hs.valid.ydimension
  have hschema := hmoved.schema_eq
  refine ⟨hschema, hmoved.holds.kept (Nat.le_of_eq (truthful_setSchema hrun).symm) (hschema ▸ hs)
    (by simpa using h.ne) ?_ ⟨st', hst', ?_⟩⟩
  · intro pt hpt
    obtain ⟨pt', hpt', rfl⟩ := List.mem_map.mp hpt
    rw [hschema]
    exact hin pt' hpt'
  · rw [hschema, hbounds xdim ydim hxdim hydim]
    exact hsummary.moved hs hmatch h.ne h.stands.width_eq hover' hmin hmax hxdim hydim hx hy

/-- The converted points are summarized anew. -/
theorem PcPatch.Kept.transform
    (hin : ∀ pt ∈ pts, s.InDoubles P.endian (converted P pa.schema s dflt pt))
    {q : PcPatchUncompressed} (hrun : pcPatchTransform P pa s dflt = .ok (some q)) :
    q.schema = s ∧ PcPatch.Kept P (.uncompressed q) (pts.map (converted P pa.schema s dflt)) := by
  obtain ⟨hsrid, hnamed, ⟨u, hu⟩, -⟩ := pcPatchTransform_passed hrun
  have hint := npoints_le_of_transform hs.valid hrun
  obtain ⟨xdim, hx, hxdim⟩ := hs.valid.xdimension
  obtain ⟨ydim, hy, hydim⟩ := hs.valid.ydimension
  obtain ⟨p, hp, hrun'⟩ := pcPatchTransform_ok hu
    (h.stands.holds hu).1 hnamed hsrid hint hxdim hydim
    hx hy dflt
  rw [hrun, Except.ok.injEq, Option.some.injEq] at hrun'
  have hschema := hp.schema_eq
  have hsize : p.npoints * p.schema.size = p.datasize := by
    rw [hp.datasize_eq, hp.npoints_eq, hp.schema_eq, Nat.mul_comm]
  have hne : pts.map (converted P pa.schema s dflt) ≠ [] := by simpa using h.ne
  have hinside : ∀ pt ∈ pts.map (converted P pa.schema s dflt), p.schema.InDoubles P.endian pt := by
    intro pt hpt
    obtain ⟨pt', hpt', rfl⟩ := List.mem_map.mp hpt
    rw [hschema]
    exact hin pt' hpt'
  subst hrun'
  subst hschema
  have hholds : (p.summarized P xdim ydim (pts.map (converted P pa.schema p.schema dflt))).Holds
      (pts.map (converted P pa.schema p.schema dflt)) :=
    ⟨hp.holds.npoints_lt, hp.holds.room, hp.holds.records_eq⟩
  refine ⟨rfl, hholds.kept (Nat.le_of_eq hsize) hs hne hinside ⟨_, rfl, ?_⟩⟩
  exact summarizes_statsOf hs hne hp.holds.width_eq hinside
    (exactBounds_boundsOf hne hxdim hydim hx hy hinside)

end Schemas

/-! ## Reading

What is read from WKB is not what the library has written: a run may be empty, and a
block longer than its values. The points are what decoding makes of it. The search for
the bounds also looks at empty runs, which is why they have to lie inside
(`PcPatch.ReadsExactly`). -/

/-- A dimensional patch whose extent and statistics are computed. -/
theorem kept_of_dimensional {d d' : PcPatchDimensional} {qa : PcPatch} (hpos : 1 ≤ d.npoints)
    (hs : d.schema.Integral) (hfits : Fits d.schema d.npoints)
    (harrays : List.Forall₂ (fun (dim : PcDimension) (e : PcBytes) =>
      e.interpretation = dim.interpretation ∧ e.npoints = d.npoints) d.schema.dims d.bytes)
    (hruns : d.RunsInside P.endian)
    (hin : ∀ u, pcPatchUncompress P (.dimensional d) = .ok u →
      ∀ pt ∈ u.points, d.schema.InDoubles P.endian pt)
    (hextent : pcPatchDimensionalComputeExtent P d = .ok d')
    (hstats : pcPatchComputeStats P (.dimensional d') = .ok qa) :
    ∃ u, pcPatchUncompress P (.dimensional d) = .ok u ∧ qa.schema = d.schema ∧
      qa.Kept P u.points := by
  obtain ⟨xdim, hx, hxdim⟩ := hs.valid.xdimension
  obtain ⟨ydim, hy, hydim⟩ := hs.valid.ydimension
  have hd' := pcPatchDimensionalComputeExtent_eq hextent
  obtain ⟨u, hu, hstats⟩ := bind_eq_ok.mp hstats
  obtain ⟨u', hu', hstats⟩ := bind_eq_ok.mp hstats
  cases hstats
  have hrecords := uncompress_of_bounds (hd' ▸ hu)
  have hyields := yieldsPoints_of_uncompress hpos hfits harrays hrecords
  have hbounds := hyields.extent hxdim hydim hx hy hruns hextent
  obtain ⟨r, hr, hholds, hschema, -⟩ := hyields.uncompressed
  cases hrecords.symm.trans hr
  have hinside := hin _ hrecords
  have hne : u.points ≠ [] := by
    rw [← List.length_pos_iff]
    have hlen := hyields.npoints_eq
    change u.points.length = d.npoints at hlen
    omega
  have huholds : u.Holds u.points := ⟨hholds.npoints_lt, hholds.room, rfl⟩
  rw [pcPatchUncompressedComputeStats_eq P huholds, Except.ok.injEq] at hu'
  subst hu'
  have hus : u.schema = d.schema := hschema
  have hstatsOf := summarizes_statsOf hs hne hyields.width_eq hinside
    (exactBounds_lowest hs hne hyields.width_eq hxdim hydim hx hy P.endian)
  rw [hd']
  refine ⟨_, hrecords, rfl, ?_⟩
  change PcPatch.Kept P _ u.points
  refine YieldsPoints.kept (d := { d with bounds := d'.bounds, stats := _ })
    ⟨hyields.fits, hyields.npoints_eq, hyields.width_eq, hyields.arrays⟩ hs hne hinside
    ⟨_, rfl, ?_⟩
  rw [hus, hbounds]
  exact hstatsOf

/-- What is read from WKB: the values of its points are doubles, and no run without
values in an array of x or y lies outside of the others. -/
structure PcPatch.ReadsExactly (P : Platform) (pa : PcPatch) : Prop where
  in_doubles : ∀ u, pcPatchUncompress P pa = .ok u →
    ∀ pt ∈ u.points, pa.schema.InDoubles P.endian pt
  arrays : ∀ d, pa = .dimensional d → Fits d.schema d.npoints ∧ d.RunsInside P.endian

/-- Reading does not change the number of points. -/
theorem npoints_of_computed {pa ra qa : PcPatch} (hextent : pcPatchComputeExtent P pa = .ok ra)
    (hstats : pcPatchComputeStats P ra = .ok qa) : qa.npoints = pa.npoints := by
  cases pa with
  | uncompressed p =>
      obtain ⟨r, hr, hra⟩ := bind_eq_ok.mp hextent
      cases hra
      obtain ⟨q, hq, hqa⟩ := bind_eq_ok.mp hstats
      cases hqa
      rw [pcPatchUncompressedComputeExtent_eq hr] at hq
      rw [pcPatchUncompressedComputeStats_fields hq]
      rfl
  | dimensional d =>
      obtain ⟨r, hr, hra⟩ := bind_eq_ok.mp hextent
      cases hra
      obtain ⟨u, -, hqa⟩ := bind_eq_ok.mp hstats
      obtain ⟨u', -, hqa⟩ := bind_eq_ok.mp hqa
      cases hqa
      rw [pcPatchDimensionalComputeExtent_eq hr]
      rfl
  | lazperf l => exact absurd hextent (raise_ne_ok _ ra)

/-- A patch that is read from WKB with points in it. -/
theorem kept_of_read {s : PcSchema} (hs : s.Integral) {wkb : Bytes} {wkbsize : Nat} {qa : PcPatch}
    (hread : ∀ c pa, wkbGetCompression P.endian wkb = .ok c →
      patchFromWkb P s wkb wkbsize c = .ok pa → pa.ReadsExactly P)
    (hrun : pcPatchFromWkb P s wkb wkbsize = .ok qa) (hpos : 1 ≤ qa.npoints) :
    ∃ c pa u, wkbGetCompression P.endian wkb = .ok c ∧ patchFromWkb P s wkb wkbsize c = .ok pa ∧
      pcPatchUncompress P pa = .ok u ∧ qa.schema = s ∧ qa.Kept P u.points := by
  unfold pcPatchFromWkb at hrun
  split at hrun
  · exact absurd hrun (raise_ne_ok _ qa)
  · obtain ⟨pcid, -, hrun⟩ := bind_eq_ok.mp hrun
    obtain ⟨compression, hcompression, hrun⟩ := bind_eq_ok.mp hrun
    split at hrun
    · exact absurd hrun (raise_ne_ok _ qa)
    · obtain ⟨pa, hpa, hrun⟩ := bind_eq_ok.mp hrun
      obtain ⟨ra, hra, hrun⟩ := bind_eq_ok.mp hrun
      obtain ⟨hnpoints, hschema, hsized, harrays⟩ := patchFromWkb_fields hpa
      obtain ⟨hin, hdims⟩ := hread _ pa hcompression hpa
      rw [npoints_of_computed hra hrun] at hpos
      have hlt := wkbGetNpoints_lt hnpoints
      cases pa with
      | uncompressed p =>
          obtain ⟨r, hr, hra⟩ := bind_eq_ok.mp hra
          cases hra
          obtain ⟨q, hq, hrun⟩ := bind_eq_ok.mp hrun
          cases hrun
          have hroom : p.npoints * p.schema.size ≤ p.data.content.length := by
            have hroom := room_of_computeStats hq
            rwa [pcPatchUncompressedComputeExtent_eq hr] at hroom
          have hholds : p.Holds p.points := ⟨hlt, hroom, rfl⟩
          have hne : p.points ≠ [] := by
            rw [← List.length_pos_iff, hholds.length_eq]
            exact hpos
          have hps : p.schema = s := hschema
          have hfields := pcPatchUncompressedComputeStats_fields hq
          refine ⟨_, _, p, hcompression, hpa, rfl, ?_, kept_of_computed hholds
            (Nat.le_of_eq hsized.symm) (hps ▸ hs) hne (hin p rfl) hr hq⟩
          rw [hfields, pcPatchUncompressedComputeExtent_eq hr]
          exact hps
      | dimensional d =>
          obtain ⟨d', hd', hra⟩ := bind_eq_ok.mp hra
          cases hra
          obtain ⟨hfits, hruns⟩ := hdims d rfl
          have hds : d.schema = s := hschema
          have hall : List.Forall₂ (fun (dim : PcDimension) (e : PcBytes) =>
              e.interpretation = dim.interpretation ∧ e.npoints = d.npoints) d.schema.dims
              d.bytes := by
            rw [hds]
            exact harrays d rfl
          obtain ⟨u, hu, hqs, hkept⟩ := kept_of_dimensional hpos (hds ▸ hs) hfits hall hruns hin
            hd' hrun
          exact ⟨_, _, u, hcompression, hpa, hu, hqs.trans hds, hkept⟩
      | lazperf l => exact absurd hra (raise_ne_ok _ ra)

end Pointcloud
