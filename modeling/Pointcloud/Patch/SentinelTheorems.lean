/-
Pointcloud.Patch.SentinelTheorems — bounds and statistics of no points.

The searches for extremes start from the limits of `float` or `double`, and
divide by the number of points when they are done. Without points, and where
all values lie beyond the limits, these limits are what is stored. Of the
functions that make patches only the reader of WKB searches without looking
whether there are points; a filter that nothing passes leaves the limits in
the empty patch. In runs that avoid both, every patch has points, and bounds
and statistics that were found (`summaries_found`).

`PcPatch.Sound` is the invariant: points, bounds and statistics that were found,
and a block that the patch is uncompressed to. Every operation keeps it, by a lemma
of its own, and `sound_of_made` is the induction over the run. Three kinds of lemmas
occur.

* Compressing, uncompressing and sorting copy the summary. They need no condition,
  except that sorting by no name compares no keys.
* Ranges, patches put together and filters search again. What is searched are points
  of the old patch, so there have to be some left, and their numbers have to lie
  inside the limits of `float`: the walks over arrays start from those of `float`,
  the walks over records from those of `double`.
* A new schema moves the extremes, or its values are searched. Scale and offset may
  lead out of the limits of `double`, which `Tame` excludes.

What is divided by is listed in `Divides`, and `divides_pos` shows from the invariant
of the patches that are given that it is not zero.
-/
import Pointcloud.Patch.DatasizeTheorems
import Pointcloud.Patch.FilterPointsTheorems
import Pointcloud.Patch.FoundTheorems
import Pointcloud.Patch.Operation
import Pointcloud.Patch.RangeTheorems
import Pointcloud.Patch.TransformTheorems
import Pointcloud.Patch.UnionTheorems

namespace Pointcloud

open Pointcloud.Base

variable {P : Platform}

/-! ## Copies

Operations that leave the points as they are copy bounds and statistics. -/

/-- Copied statistics were found where the old ones were: the copies have the same bytes, and
`StatsFound` speaks of nothing else. -/
theorem StatsFound.clone {s : PcSchema} {stats : Option PcStats}
    (h : ∃ st, stats = some st ∧ StatsFound P s st) :
    ∃ st, pcStatsClone stats = some st ∧ StatsFound P s st := by
  obtain ⟨st, rfl, hst⟩ := h
  exact ⟨_, rfl, ⟨hst.stats_over.1, hst.stats_over.2.1, hst.stats_over.2.2⟩, hst.min, hst.max⟩

/-- A patch with the summary of another one. Only what is not copied has to be shown: that the
records have their size, and that what the patch uncompresses to holds points. -/
theorem PcPatch.Sound.of_same {pa qa : PcPatch} (h : pa.Sound P) (hschema : qa.schema = pa.schema)
    (hnpoints : qa.npoints = pa.npoints) (hbounds : qa.bounds = pa.bounds)
    (hstats : qa.stats = pcStatsClone pa.stats) (hsized : RecordsSized qa)
    (hholds : ∀ u, pcPatchUncompress P qa = .ok u → u.Holds u.points) : qa.Sound P := by
  refine ⟨⟨?_, ?_, ?_, ?_, ?_⟩, ?_, hsized, hholds⟩
  · rw [hnpoints]
    exact h.npoints_pos
  · rw [hschema]
    exact h.valid
  · rw [hschema]
    exact h.tame
  · rw [hschema, hbounds]
    exact h.bounds
  · rw [hschema, hstats]
    exact StatsFound.clone h.stats
  · rw [hnpoints]
    exact h.npoints_lt

/-- The records of a patch keep its summary. Arrays are decoded into a block of the size of
the records, and bounds and statistics are copied along. A lazperf patch gives none, in a
build without it. -/
theorem PcPatch.Sound.uncompressed {pa : PcPatch} (h : pa.Sound P) {u : PcPatchUncompressed}
    (hu : pcPatchUncompress P pa = .ok u) : PcPatch.Sound P (.uncompressed u) := by
  obtain ⟨hschema, hnpoints⟩ := schema_of_uncompress hu
  have hholds : ∀ u', pcPatchUncompress P (.uncompressed u) = .ok u' → u'.Holds u'.points := by
    intro u' hu'
    cases hu'
    exact h.holds u hu
  -- records are handed out as they are, arrays decoded with the summary copied
  cases pa with
  | uncompressed p =>
      cases hu
      exact h
  | dimensional d =>
      obtain ⟨hbounds, hstats⟩ := pcPatchUncompressedFromDimensional_fields hu
      exact h.of_same hschema hnpoints hbounds hstats
        (truthful_fromDimensional hu) hholds
  | lazperf p => exact absurd hu (raise_ne_ok _ u)

/-- A dimensional patch with the summary of a patch. Nothing is asked of its arrays: where
they can be decoded they fill a block, and where they cannot there is nothing to show. -/
theorem PcPatch.Sound.dimensional {pa : PcPatch} (h : pa.Sound P) {d : PcPatchDimensional}
    (hschema : d.schema = pa.schema) (hnpoints : d.npoints = pa.npoints)
    (hbounds : d.bounds = pa.bounds) (hstats : d.stats = pcStatsClone pa.stats) :
    PcPatch.Sound P (.dimensional d) := by
  refine h.of_same hschema hnpoints hbounds hstats trivial fun u hu => ?_
  exact holds_of_fromDimensional (hnpoints ▸ h.npoints_lt) hu

/-- Encoding the arrays of a dimensional patch changes nothing else. -/
theorem PcPatch.Sound.dimensionalCompress {d q : PcPatchDimensional}
    (h : PcPatch.Sound P (.dimensional d)) {pds pds' : Option PcDimStats}
    (hrun : pcPatchDimensionalCompress P d pds = .ok (q, pds')) :
    PcPatch.Sound P (.dimensional q) := by
  obtain ⟨stats, -, hrun⟩ := bind_eq_ok.mp hrun
  obtain ⟨bytes, -, hrun⟩ := bind_eq_ok.mp hrun
  cases hrun
  exact h.dimensional rfl rfl rfl rfl

/-- Compressing changes neither bounds nor statistics. -/
theorem PcPatch.Sound.compress {pa qa : PcPatch} {userdata userdata' : Option PcDimStats}
    (h : pa.Sound P) (hrun : pcPatchCompress P pa userdata = .ok (qa, userdata')) :
    qa.Sound P := by
  unfold pcPatchCompress at hrun
  -- one case for each compression of the schema, and in it one for each form of the patch
  cases hc : pa.schema.compression with
  | dimensional =>
      simp only [hc] at hrun
      cases pa with
      | uncompressed p =>
          obtain ⟨pcdu, hpcdu, hrun⟩ := bind_eq_ok.mp hrun
          cases pcdu with
          | none => exact absurd hrun (raise_ne_ok _ _)
          | some pcdu =>
              obtain ⟨⟨pcdd, _⟩, hpcdd, hrun⟩ := bind_eq_ok.mp hrun
              cases hrun
              unfold pcPatchDimensionalFromUncompressed at hpcdu
              split at hpcdu
              · cases hpcdu
              · obtain ⟨bytes, -, hpcdu⟩ := bind_eq_ok.mp hpcdu
                cases hpcdu
                have hsplit := h.dimensional (d := ⟨false, p.schema, p.npoints, p.bounds,
                  pcStatsClone p.stats, bytes⟩) rfl rfl rfl rfl
                exact hsplit.dimensionalCompress hpcdd
      | dimensional d =>
          obtain ⟨⟨pcdd, _⟩, hpcdd, hrun⟩ := bind_eq_ok.mp hrun
          cases hrun
          exact h.dimensionalCompress hpcdd
      | lazperf p => exact absurd hrun (raise_ne_ok _ _)
  | none =>
      simp only [hc] at hrun
      cases pa with
      | uncompressed p =>
          cases hrun
          exact h
      | dimensional d =>
          obtain ⟨pcu, hpcu, hrun⟩ := bind_eq_ok.mp hrun
          cases hrun
          exact h.uncompressed hpcu
      | lazperf p => exact absurd hrun (raise_ne_ok _ _)
  | lazperf =>
      simp only [hc] at hrun
      cases pa with
      | uncompressed p => exact absurd hrun (raise_ne_ok _ _)
      | dimensional d =>
          obtain ⟨pad, -, hrun⟩ := bind_eq_ok.mp hrun
          exact absurd hrun (raise_ne_ok _ _)
      | lazperf p =>
          cases hrun
          exact h
  | unknown code =>
      simp only [hc] at hrun
      exact absurd hrun (raise_ne_ok _ _)

/-- Sorting copies the summary. Without a name the comparator reads the first dimension
through a null pointer, so a name is asked for. -/
theorem PcPatch.Sound.sort {S : SortR} {pa qa : PcPatch} {names : List String} (h : pa.Sound P)
    (hne : names ≠ []) (hrun : pcPatchSort P S pa names = .ok qa) : qa.Sound P := by
  have hroom := room_of_pcPatchSort hrun
  obtain ⟨dims, hdims, hrun⟩ := bind_eq_ok.mp hrun
  obtain ⟨u, hu, hrun⟩ := bind_eq_ok.mp hrun
  obtain ⟨q, hq, hrun⟩ := bind_eq_ok.mp hrun
  cases hrun
  have hnames := namesDims_of_ok hdims
  obtain ⟨hschema, hnpoints⟩ := schema_of_uncompress hu
  -- with a name there is a dimension to compare by
  have hdims_ne : dims ≠ [] := by
    rintro rfl
    exact hne (List.forall₂_nil_right_iff.mp hnames)
  -- what is sorted are the records, which have the summary of the patch
  have hsound := h.uncompressed hu
  obtain ⟨q', pts, hq', hholds, -, -, hschema', hsize, -, hnpoints', hbounds, hstats⟩ :=
    pcPatchUncompressedSort_ok (P := P) (S := S) (h.holds u hu) hsound.sized
      (by rwa [hschema, hnpoints]) hdims_ne (hschema ▸ hnames.mem_dims)
  cases hq.symm.trans hq'
  refine hsound.of_same hschema' hnpoints' hbounds hstats hsize fun u' hu' => ?_
  cases hu'
  exact ⟨hholds.npoints_lt, hholds.room, rfl⟩

/-! ## Reading

The reader computes extent and statistics of what it has read, whatever that is. The number
of points in the head is the one of the patch and of all its arrays, so with points in the
head no search is without any. -/

/-- The number of points is one of four bytes. -/
theorem wkbGetNpoints_lt {en : Endian} {wkb : Bytes} {n : Nat} (h : wkbGetNpoints en wkb = .ok n) :
    n < 4294967296 := by
  obtain ⟨flip, -, h⟩ := bind_eq_ok.mp h
  obtain ⟨bytes, hread, h⟩ := bind_eq_ok.mp h
  cases h
  -- either byte order reads four bytes
  have hlen : (if flip then bytes.reverse else bytes).length = 4 := by
    split
    · rw [List.length_reverse, length_of_readAt hread]
    · exact length_of_readAt hread
  have hlt := en.natOf_lt (if flip then bytes.reverse else bytes)
  rwa [hlen] at hlt

/-- Every array that is read has the type of its dimension, and the number of
points of the patch. -/
theorem deserializeDimensions_fields {en : Endian} {buf : Bytes} {npoints : Nat}
    {readonly flipEndian : Bool} : ∀ {dims : List PcDimension} {off : Nat} {bytes : List PcBytes},
    deserializeDimensions en buf npoints readonly flipEndian dims off = .ok bytes →
    List.Forall₂ (fun (dim : PcDimension) (e : PcBytes) =>
      e.interpretation = dim.interpretation ∧ e.npoints = npoints) dims bytes := by
  intro dims
  induction dims with
  | nil =>
      intro off bytes h
      cases h
      exact .nil
  | cons dim dims ih =>
      intro off bytes h
      obtain ⟨pcb, hpcb, h⟩ := bind_eq_ok.mp h
      obtain ⟨rest, hrest, h⟩ := bind_eq_ok.mp h
      cases h
      -- the type is set behind the reading, so it has to be read off every branch
      refine .cons ⟨?_, rfl⟩ (ih hrest)
      obtain ⟨code, -, hpcb⟩ := bind_eq_ok.mp hpcb
      obtain ⟨size, -, hpcb⟩ := bind_eq_ok.mp hpcb
      simp only at hpcb
      split at hpcb
      · exact absurd hpcb (raise_ne_ok _ _)
      · split at hpcb
        · obtain ⟨bytes, -, hpcb⟩ := bind_eq_ok.mp hpcb
          rw [pure_eq_ok, Except.ok.injEq] at hpcb
          rw [← hpcb]
        · obtain ⟨_, -, hpcb⟩ := bind_eq_ok.mp hpcb
          obtain ⟨bytes, -, hpcb⟩ := bind_eq_ok.mp hpcb
          obtain ⟨flipped, -, hpcb⟩ := bind_eq_ok.mp hpcb
          cases hpcb
          rfl

/-- The patch in WKB has the number of points of the head, and so has each of its arrays. -/
theorem patchFromWkb_fields {s : PcSchema} {wkb : Bytes} {wkbsize c : Nat} {pa : PcPatch}
    (h : patchFromWkb P s wkb wkbsize c = .ok pa) :
    wkbGetNpoints P.endian wkb = .ok pa.npoints ∧ pa.schema = s ∧ RecordsSized pa ∧
      ∀ d, pa = .dimensional d → List.Forall₂ (fun (dim : PcDimension) (e : PcBytes) =>
        e.interpretation = dim.interpretation ∧ e.npoints = d.npoints) s.dims d.bytes := by
  unfold patchFromWkb at h
  split at h
  · obtain ⟨p, hp, h⟩ := bind_eq_ok.mp h
    cases h
    have hsized := truthful_fromWkb hp
    obtain ⟨swap, -, hp⟩ := bind_eq_ok.mp hp
    obtain ⟨compression, -, hp⟩ := bind_eq_ok.mp hp
    split at hp
    · exact absurd hp (raise_ne_ok _ p)
    · obtain ⟨npoints, hnpoints, hp⟩ := bind_eq_ok.mp hp
      split at hp
      · exact absurd hp (raise_ne_ok _ p)
      · obtain ⟨data, -, hp⟩ := bind_eq_ok.mp hp
        cases hp
        exact ⟨hnpoints, rfl, hsized, by simp⟩
  · obtain ⟨d, hd, h⟩ := bind_eq_ok.mp h
    cases h
    obtain ⟨swap, -, hd⟩ := bind_eq_ok.mp hd
    obtain ⟨compression, -, hd⟩ := bind_eq_ok.mp hd
    split at hd
    · exact absurd hd (raise_ne_ok _ d)
    · obtain ⟨npoints, hnpoints, hd⟩ := bind_eq_ok.mp hd
      obtain ⟨bytes, hbytes, hd⟩ := bind_eq_ok.mp hd
      cases hd
      refine ⟨hnpoints, rfl, trivial, fun d hd => ?_⟩
      cases hd
      exact deserializeDimensions_fields hbytes
  · exact absurd h (raise_ne_ok _ pa)
  · exact absurd h (raise_ne_ok _ pa)

/-- All numbers that a search in a patch can come to are inside the limits of
`float`. The extent of dimensions is searched in the arrays and their statistics in the
records, and these need not be the same numbers. -/
structure PcPatch.NumbersWithin (P : Platform) (pa : PcPatch) : Prop where
  points : ∀ u, pcPatchUncompress P pa = .ok u → ∀ pt ∈ u.points, pa.schema.Within P.endian pt
  arrays : ∀ d, pa = .dimensional d → ∀ e ∈ d.bytes, e.NumbersWithin P

/-- The extremes of the array of a dimension, scale and offset applied. The walk starts from
the limits of `float` and meets numbers inside them, so its extremes are numbers that it met;
`Tame` takes these into the limits of `double`. -/
theorem PcSchema.Tame.found_minmax {s : PcSchema} (htame : s.Tame) {dim : PcDimension}
    (hd : dim ∈ s.dims) {e e' : PcBytes} {m : MinMaxAvg}
      (hinterp : e.interpretation = dim.interpretation)
    (hpos : 1 ≤ e.npoints) (hwithin : e.NumbersWithin P) (hdecode : pcBytesDecode P e = .ok e')
    (h : pcBytesMinmax P e = .ok m) :
    dim.Found (pcValueScaleOffset m.min dim) ∧ dim.Found (pcValueScaleOffset m.max dim) := by
  have hknown : e.interpretation ≠ .unknown := hinterp ▸ s.dim_known hd
  obtain ⟨hmin, hmax⟩ := pcBytesMinmax_within hknown hpos hwithin hdecode h
  exact ⟨(htame dim hd).found hmin, (htame dim hd).found hmax⟩

/-- The extent of a dimensional patch that can be decoded. The extent reads the encoded arrays
of x and y; that they can be decoded is what shows that there is a run to walk over. A patch
whose extent is computed has x and y, so its schema is valid. -/
theorem boundsFound_of_dimensional {d d' plain : PcPatchDimensional} (hpos : 1 ≤ d.npoints)
    (htame : d.schema.Tame)
    (harrays : List.Forall₂ (fun (dim : PcDimension) (e : PcBytes) =>
      e.interpretation = dim.interpretation ∧ e.npoints = d.npoints) d.schema.dims d.bytes)
    (hwithin : ∀ e ∈ d.bytes, e.NumbersWithin P)
    (hdecode : pcPatchDimensionalDecompress P d = .ok plain)
    (hextent : pcPatchDimensionalComputeExtent P d = .ok d') :
    d.schema.Valid ∧ BoundsFound d.schema d'.bounds := by
  obtain ⟨bytes, hbytes, -⟩ := bind_eq_ok.mp hdecode
  obtain ⟨_, hxsome, hextent⟩ := bind_eq_ok.mp hextent
  obtain ⟨_, hysome, hextent⟩ := bind_eq_ok.mp hextent
  -- the array at the position of a dimension has its type
  have hfound : ∀ dim ∈ d.schema.dims, ∀ e m, wordAt d.bytes dim.position = .ok e →
      pcBytesMinmax P e = .ok m →
      dim.Found (pcValueScaleOffset m.min dim) ∧ dim.Found (pcValueScaleOffset m.max dim) := by
    intro dim hd e m he hm
    obtain ⟨i, hi, rfl⟩ := List.mem_iff_getElem.mp hd
    rw [d.schema.position_eq i hi, wordAt_eq_ok] at he
    obtain ⟨hib, rfl⟩ := List.getElem?_eq_some_iff.mp he
    obtain ⟨hinterp, hnp⟩ := (List.forall₂_iff_get.mp harrays).2 i hi hib
    have hmem := List.getElem_mem hib
    obtain ⟨e', -, he'⟩ := exists_mem_of_mapM hbytes _ hmem
    exact htame.found_minmax hd hinterp (hnp.symm ▸ hpos) (hwithin _ hmem) he' hm
  split at hextent
  · next xdim ydim hxdim hydim =>
      obtain ⟨ex, hex, hextent⟩ := bind_eq_ok.mp hextent
      obtain ⟨x, hx, hextent⟩ := bind_eq_ok.mp hextent
      obtain ⟨ey, hey, hextent⟩ := bind_eq_ok.mp hextent
      obtain ⟨y, hy, hextent⟩ := bind_eq_ok.mp hextent
      cases hextent
      -- x and y exist, for otherwise the extent would read through a null pointer
      obtain ⟨i, hi, hxi⟩ := Option.bind_eq_some_iff.mp hxdim
      obtain ⟨j, hj, hyj⟩ := Option.bind_eq_some_iff.mp hydim
      have hvalid : d.schema.Valid := ⟨Option.isSome_of_eq_some hi, Option.isSome_of_eq_some hj⟩
      refine ⟨hvalid, fun dim hdim => ?_, fun dim hdim => ?_⟩
      · cases hxdim.symm.trans hdim
        exact hfound xdim (List.mem_of_getElem? hxi) ex x hex hx
      · cases hydim.symm.trans hdim
        exact hfound ydim (List.mem_of_getElem? hyj) ey y hey hy
  · exact absurd hextent (fault_ne_ok d')

/-- The bounds of a dimensional patch are not looked at when it is uncompressed. The reader
sets them before it computes the statistics, and the condition is about the patch before. -/
theorem uncompress_of_bounds {d : PcPatchDimensional} {b : PcBounds} {u : PcPatchUncompressed}
    (h : pcPatchUncompressedFromDimensional P { d with bounds := b } = .ok u) :
    pcPatchUncompressedFromDimensional P d = .ok { u with bounds := d.bounds } := by
  obtain ⟨data, hdata, h⟩ := bind_eq_ok.mp h
  obtain ⟨plain, hplain, h⟩ := bind_eq_ok.mp h
  obtain ⟨copies, hcopies, h⟩ := bind_eq_ok.mp h
  obtain ⟨filled, hfilled, h⟩ := bind_eq_ok.mp h
  obtain ⟨bytes, hbytes, hplain⟩ := bind_eq_ok.mp hplain
  cases h
  cases hplain
  rw [pcPatchUncompressedFromDimensional, hdata, ok_bind, pcPatchDimensionalDecompress, hbytes,
    ok_bind, pure_eq_ok, ok_bind, hcopies, ok_bind, hfilled, ok_bind, pure_eq_ok]

/-- A dimensional patch whose extent and statistics are computed. Two searches meet here: the
extent walks over the arrays, the statistics over the records that they are decoded to. -/
theorem sound_of_dimensional {d d' : PcPatchDimensional} {qa : PcPatch} (hpos : 1 ≤ d.npoints)
    (hlt : d.npoints < 4294967296) (htame : d.schema.Tame)
    (harrays : List.Forall₂ (fun (dim : PcDimension) (e : PcBytes) =>
      e.interpretation = dim.interpretation ∧ e.npoints = d.npoints) d.schema.dims d.bytes)
    (hwithin : PcPatch.NumbersWithin P (.dimensional d))
    (hextent : pcPatchDimensionalComputeExtent P d = .ok d')
    (hstats : pcPatchComputeStats P (.dimensional d') = .ok qa) : qa.Sound P := by
  -- the extent changes the bounds only, so records and arrays are those of `d`
  have hd' := pcPatchDimensionalComputeExtent_eq hextent
  have hschema : d'.schema = d.schema := by rw [hd']
  have hnpoints : d'.npoints = d.npoints := by rw [hd']
  obtain ⟨u, hu, hstats⟩ := bind_eq_ok.mp hstats
  obtain ⟨u', hu', hstats⟩ := bind_eq_ok.mp hstats
  cases hstats
  -- the condition is about the records of `d`, what was computed about those of `d'`
  have hrecords := uncompress_of_bounds (hd' ▸ hu)
  obtain ⟨_, -, hrest⟩ := bind_eq_ok.mp hrecords
  obtain ⟨plain, hplain, -⟩ := bind_eq_ok.mp hrest
  obtain ⟨hvalid, hbounds⟩ := boundsFound_of_dimensional hpos htame harrays
    (hwithin.arrays d rfl) hplain hextent
  obtain ⟨hus, hun, -⟩ := pcPatchUncompressedFromDimensional_room hu
  have hholds := holds_of_fromDimensional (hnpoints ▸ hlt) hu
  rw [pcPatchUncompressedComputeStats_eq P hholds, Except.ok.injEq] at hu'
  -- there is a point, so the statistics are extremes of points
  have hne : u.points ≠ [] := by
    rw [← List.length_pos_iff, hholds.length_eq, hun, hnpoints]
    exact hpos
  have hfound : StatsFound P d.schema (statsOf P d.schema u.points) := by
    refine statsFound_statsOf htame hne (fun pt hpt => ?_)
      (hwithin.points { u with bounds := d.bounds } hrecords)
    rw [hholds.width_eq pt hpt, hus, hschema]
  refine ⟨⟨?_, ?_, ?_, ?_, ?_⟩, ?_, trivial, fun v hv => ?_⟩
  · rw [PcPatch.npoints, hnpoints]
    exact hpos
  · rw [PcPatch.schema, hschema]
    exact hvalid
  · rw [PcPatch.schema, hschema]
    exact htame
  · rw [PcPatch.schema, hschema]
    exact hbounds
  · refine ⟨statsOf P d.schema u.points, ?_, ?_⟩
    · rw [PcPatch.stats, ← hu', hus, hschema]
    · rw [PcPatch.schema, hschema]
      exact hfound
  · rw [PcPatch.npoints, hnpoints]
    exact hlt
  · exact holds_of_fromDimensional (by simpa only [hnpoints] using hlt) hv

/-- A patch that is read from WKB with points in it. -/
theorem sound_of_read {s : PcSchema} {wkb : Bytes} {wkbsize : Nat} {qa : PcPatch}
    (htame : s.Tame) (hpos : ∀ n, wkbGetNpoints P.endian wkb = .ok n → 1 ≤ n)
    (hwithin : ∀ c pa, wkbGetCompression P.endian wkb = .ok c →
      patchFromWkb P s wkb wkbsize c = .ok pa → pa.NumbersWithin P)
    (h : pcPatchFromWkb P s wkb wkbsize = .ok qa) : qa.Sound P := by
  unfold pcPatchFromWkb at h
  split at h
  · exact absurd h (raise_ne_ok _ qa)
  · obtain ⟨pcid, -, h⟩ := bind_eq_ok.mp h
    obtain ⟨compression, hcompression, h⟩ := bind_eq_ok.mp h
    split at h
    · exact absurd h (raise_ne_ok _ qa)
    · obtain ⟨pa, hpa, h⟩ := bind_eq_ok.mp h
      obtain ⟨ra, hra, h⟩ := bind_eq_ok.mp h
      obtain ⟨hnpoints, hschema, hsized, harrays⟩ := patchFromWkb_fields hpa
      -- extent and statistics are computed for records and arrays in two different ways
      subst hschema
      have hnumbers := hwithin _ pa hcompression hpa
      have hlt := wkbGetNpoints_lt hnpoints
      have hone := hpos _ hnpoints
      cases pa with
      | uncompressed p =>
          obtain ⟨r, hr, hra⟩ := bind_eq_ok.mp hra
          cases hra
          obtain ⟨q, hq, h⟩ := bind_eq_ok.mp h
          cases h
          exact sound_of_computed hone hlt hsized htame (hnumbers.points p rfl) hr hq
      | dimensional d =>
          obtain ⟨d', hd', hra⟩ := bind_eq_ok.mp hra
          cases hra
          exact sound_of_dimensional hone hlt htame (harrays d rfl) hnumbers hd' h
      | lazperf l => exact absurd hra (raise_ne_ok _ ra)

/-! ## Filtering

A filter that nothing passes makes an empty patch, and one that the statistics rule out
another one; `FilterFinds` excludes both. Of the points that are kept records are searched
again, while dimensions keep the extremes that the walks over the arrays have met. -/

/-- Bounds that are replaced by extremes that were found. A filter of dimensions replaces the
bounds of x and y and may leave one of them as it was, so the old ones have to be found as
well. -/
theorem BoundsFound.boundsOfStats {s : PcSchema} {b : PcBounds} (h : BoundsFound s b)
    {g : PcDimension → PcDoubleStat}
    (hg : ∀ dim ∈ s.dims, dim.Found (g dim).min ∧ dim.Found (g dim).max) :
    BoundsFound s (boundsOfStats s b (s.dims.map g)) := by
  have hmem : ∀ (i : Option Nat) (dim : PcDimension),
      (i.bind fun i => s.dims[i]?) = some dim → dim ∈ s.dims := by
    intro i dim hdim
    obtain ⟨j, -, hj⟩ := Option.bind_eq_some_iff.mp hdim
    exact List.mem_of_getElem? hj
  unfold Pointcloud.boundsOfStats
  simp only [getElem?_map_dims]
  constructor
  · intro dim hdim
    simp only [show (s.xdim.bind fun i => s.dims[i]?) = some dim from hdim, Option.map_some]
    split
    · exact hg dim (hmem _ dim hdim)
    · split <;> exact hg dim (hmem _ dim hdim)
  · intro dim hdim
    split
    · -- a dimension that is both counts as x
      split <;> exact h.y dim hdim
    · simp only [show (s.ydim.bind fun i => s.dims[i]?) = some dim from hdim, Option.map_some]
      exact hg dim (hmem _ dim hdim)

/-- A filter keeps some points: as many as bits are set. -/
theorem select_ne_nil {map : PcBitmap} {pts : List Bytes} (hlen : map.map.length = pts.length)
    (hset : map.nset ≠ 0) : select map.map pts ≠ [] := by
  rw [← List.length_pos_iff, length_select hlen, ← map.nset_eq]
  omega

/-- Filtering records. Extent and statistics are searched anew, among points of the old patch
that are kept. -/
theorem PcPatch.Sound.uncompressedFilter {p q : PcPatchUncompressed}
    (h : PcPatch.Sound P (.uncompressed p))
    (hwithin : ∀ pt ∈ p.points, p.schema.Within P.endian pt) {map : PcBitmap}
    (hset : map.nset ≠ 0) (hrun : pcPatchUncompressedFilter P p map = .ok q) :
    PcPatch.Sound P (.uncompressed q) := by
  obtain ⟨fpu, -, hrest⟩ := bind_eq_ok.mp hrun
  obtain ⟨_, hassert, hrest⟩ := bind_eq_ok.mp hrest
  obtain ⟨_, hloop, -⟩ := bind_eq_ok.mp hrest
  have hmap := assertThat_eq_ok.mp hassert
  have hint := intLoop_eq_ok.mp hloop
  obtain ⟨xdim, hx, hxdim⟩ := h.valid.xdimension
  obtain ⟨ydim, hy, hydim⟩ := h.valid.ydimension
  have hholds := h.holds p rfl
  obtain ⟨f, hf, hfholds, hschema, -, hsize, hstats, hbounds⟩ := pcPatchUncompressedFilter_ok
    (P := P) hholds hmap hint hxdim hydim hx hy
  cases hrun.symm.trans hf
  -- the bitmap has a bit for each point, so points are kept where a bit is set
  have hlen : map.map.length = p.points.length := by
    rw [hholds.length_eq, ← hmap]
    rfl
  have hne := select_ne_nil hlen hset
  have hkept : ∀ pt ∈ select map.map p.points, p.schema.Within P.endian pt :=
    fun pt hpt => hwithin pt (mem_of_mem_select hpt)
  refine hfholds.sound hsize hne (hschema ▸ h.valid) (hschema ▸ h.tame) ?_ ⟨_, hstats, ?_⟩
  · rw [hschema, hbounds]
    exact boundsFound_boundsOf h.tame hne hkept hxdim hydim hx hy
  · rw [hschema]
    exact statsFound_statsOf h.tame hne
      (fun pt hpt => hholds.width_eq pt (mem_of_mem_select hpt)) hkept

/-- Filtering dimensions. The extremes of each array are met by the walk that filters it, and
bounds and statistics are set from them, without a look at records. -/
theorem PcPatch.Sound.dimensionalFilter {d f : PcPatchDimensional}
    (h : PcPatch.Sound P (.dimensional d)) {pts : List Bytes} (hholds : d.Holds P pts)
    (hint : d.npoints < 2147483648) (hwithin : ∀ pt ∈ pts, d.schema.Within P.endian pt)
    {map : PcBitmap} (hmap : map.npoints = d.npoints) (hset : map.nset ≠ 0)
    (hrun : pcPatchDimensionalFilter P d map = .ok f) : PcPatch.Sound P (.dimensional f) := by
  have hlen : map.map.length = pts.length := by
    rw [hholds.npoints_eq, ← hmap]
    rfl
  have hne := select_ne_nil hlen hset
  -- the extremes of a dimension are numbers of points that are kept
  have hcolumn : ∀ dim ∈ d.schema.dims, ∀ x ∈ dim.rawColumn P.endian (select map.map pts),
      ∃ bs, bs.length = dim.interpretation.size ∧ WithinFloat x ∧
        dim.interpretation.number P.endian bs = x := by
    intro dim hd x hx
    obtain ⟨pt, hpt, rfl⟩ := List.mem_map.mp hx
    have hpt' := mem_of_mem_select hpt
    refine ⟨dim.bytesIn pt, ?_, hwithin pt hpt' dim hd, rfl⟩
    rw [d.schema.length_bytesIn hd (hholds.width_eq pt hpt'), d.schema.dim_size hd]
  have hcolumn_ne : ∀ dim : PcDimension, dim.rawColumn P.endian (select map.map pts) ≠ [] :=
    fun dim hnil => hne (List.map_eq_nil_iff.mp hnil)
  -- so the statistics of a dimension are values of such numbers, at both ends
  have hstat : ∀ dim ∈ d.schema.dims,
      (∃ bs, bs.length = dim.interpretation.size ∧
        WithinFloat (dim.interpretation.number P.endian bs) ∧
        (d.filterStat P map pts dim).min =
          pcValueScaleOffset (dim.interpretation.number P.endian bs) dim) ∧
      ∃ bs, bs.length = dim.interpretation.size ∧
        WithinFloat (dim.interpretation.number P.endian bs) ∧
        (d.filterStat P map pts dim).max =
          pcValueScaleOffset (dim.interpretation.number P.endian bs) dim := by
    intro dim hd
    have hinside : ∀ x ∈ dim.rawColumn P.endian (select map.map pts), WithinFloat x := by
      intro x hx
      obtain ⟨bs, -, hx, -⟩ := hcolumn dim hd x hx
      exact hx
    rw [filterStat_min hholds hlen hd, filterStat_max hholds hlen hd]
    constructor
    · obtain ⟨bs, hbs, hx, hnumber⟩ := hcolumn dim hd _
        (foldl_min_mem (hcolumn_ne dim) fun x hx => (hinside x hx).2)
      exact ⟨bs, hbs, hnumber.symm ▸ hx, by rw [hnumber]; rfl⟩
    · obtain ⟨bs, hbs, hx, hnumber⟩ := hcolumn dim hd _
        (foldl_max_mem (hcolumn_ne dim) fun x hx => (hinside x hx).1)
      exact ⟨bs, hbs, hnumber.symm ▸ hx, by rw [hnumber]; rfl⟩
  obtain ⟨fs, hfs, -⟩ := bind_eq_ok.mp hrun
  obtain ⟨st, hst, hfound⟩ := h.stats
  have hsnd := filterDimensions_gathers hholds hint hmap hfs
  rw [pcPatchDimensionalFilter_eq hfs hsnd hst hfound.stats_over, Except.ok.injEq] at hrun
  -- there are no more points than before
  have hle : map.nset ≤ d.npoints := by
    rw [map.nset_eq, ← hmap]
    exact List.count_le_length
  subst hrun
  refine ⟨⟨Nat.pos_of_ne_zero hset, h.valid, h.tame, ?_, _, rfl, ⟨rfl, rfl, rfl⟩, ?_, ?_⟩, ?_,
    trivial, fun u hu => ?_⟩
  · refine BoundsFound.boundsOfStats h.bounds fun dim hd => ?_
    obtain ⟨⟨bs, -, hmin, heqmin⟩, bs', -, hmax, heqmax⟩ := hstat dim hd
    rw [heqmin, heqmax]
    exact ⟨(h.tame dim hd).found hmin, (h.tame dim hd).found hmax⟩
  · exact within_storedPoint fun dim hd => (hstat dim hd).1
  · exact within_storedPoint fun dim hd => (hstat dim hd).2
  · exact Nat.lt_of_le_of_lt hle h.npoints_lt
  · exact holds_of_fromDimensional (Nat.lt_of_le_of_lt hle h.npoints_lt) hu

/-- The statistics do not rule the filter out, and there is a point that passes. -/
structure FilterFinds (P : Platform) (pa : PcPatch) (dimnum : Nat) (filter : PcFiltertype)
    (val1 val2 : ℚ) : Prop where
  stats : ∀ st, pa.stats = some st →
    pcPatchFilterHasResults P.endian st dimnum filter val1 val2 ≠ .ok false
  uncompressed : ∀ p, pa = .uncompressed p → ∀ map,
    pcPatchUncompressedBitmap P.endian p dimnum filter val1 val2 = .ok map → map.nset ≠ 0
  dimensional : ∀ d, pa = .dimensional d → ∀ map,
    pcPatchDimensionalBitmap P d dimnum filter val1 val2 = .ok map → map.nset ≠ 0

/-- The points of a patch have numbers inside the limits of `float`; those of
dimensions are counted in an `int`. -/
def PcPatch.PointsWithin (P : Platform) : PcPatch → Prop
  | .uncompressed p => ∀ pt ∈ p.points, p.schema.Within P.endian pt
  | .dimensional d => d.npoints < 2147483648 ∧
      ∃ pts, d.Holds P pts ∧ ∀ pt ∈ pts, d.schema.Within P.endian pt
  | .lazperf _ => True

/-- A filter that some point passes. The statistics decide first whether the points are looked
at, and the bitmap then whether one of them is kept. -/
theorem PcPatch.Sound.filter {pa qa : PcPatch} (h : pa.Sound P) (hwithin : pa.PointsWithin P)
    {dimnum : Nat} {filter : PcFiltertype} {val1 val2 : ℚ}
    (hfinds : FilterFinds P pa dimnum filter val1 val2)
    (hrun : pcPatchFilter P pa dimnum filter val1 val2 = .ok qa) : qa.Sound P := by
  obtain ⟨st, hst, -⟩ := h.stats
  rw [pcPatchFilter, hst] at hrun
  obtain ⟨has, hhas, hrun⟩ := bind_eq_ok.mp hrun
  cases has with
  | false => exact absurd hhas (hfinds.stats st hst)
  | true =>
      rw [if_pos rfl] at hrun
      cases pa with
      | uncompressed p =>
          obtain ⟨map, hmap, hrun⟩ := bind_eq_ok.mp hrun
          have hset := hfinds.uncompressed p rfl map hmap
          rw [if_neg hset] at hrun
          obtain ⟨q, hq, hrun⟩ := bind_eq_ok.mp hrun
          cases hrun
          exact h.uncompressedFilter hwithin hset hq
      | dimensional d =>
          obtain ⟨map, hmap, hrun⟩ := bind_eq_ok.mp hrun
          have hset := hfinds.dimensional d rfl map hmap
          rw [if_neg hset] at hrun
          obtain ⟨f, hf, hrun⟩ := bind_eq_ok.mp hrun
          cases hrun
          obtain ⟨hint, pts, hholds, hpts⟩ := hwithin
          -- the bitmap has a bit for each point, whatever the arrays hold
          obtain ⟨_, hassert, -⟩ := bind_eq_ok.mp hmap
          have hdim := List.getElem?_eq_getElem (assertThat_eq_ok.mp hassert)
          rw [pcPatchDimensionalBitmap_ok filter val1 val2 hholds hint hdim,
            Except.ok.injEq] at hmap
          refine h.dimensionalFilter hholds hint hpts ?_ hset hf
          rw [← hmap, ← hholds.npoints_eq]
          exact List.length_map _
      | lazperf l => exact absurd hrun (raise_ne_ok _ qa)

/-! ## Ranges -/

/-- Fewer points of a patch. A range without points is the null pointer, and one of all
points the patch itself. -/
theorem PcPatch.Sound.range {pa qa : PcPatch} (h : pa.Sound P)
    (hwithin : ∀ u, pcPatchUncompress P pa = .ok u →
      ∀ pt ∈ u.points, pa.schema.Within P.endian pt) {first count : Int}
    (hrun : pcPatchRange P pa first count = .ok (some qa)) : qa.Sound P := by
  obtain rfl | ⟨u, pts, hrange⟩ := rangeOf_of_ok h.npoints_lt hrun
  · exact h
  · obtain ⟨p, r, q, hp, hschema, hsize, hextent, hstats, rfl⟩ := hrange.computed
    -- a range that is made has a point
    have hpos : 1 ≤ p.npoints := by
      rw [← hp.length_eq]
      exact List.length_pos_of_ne_nil hrange.ne
    refine sound_of_computed hpos hp.npoints_lt hsize (hschema ▸ h.tame) (fun pt hpt => ?_) hextent
      hstats
    -- and its points are some of those of the patch
    have hpt' : pt ∈ pts := by
      rw [← hp.records_eq]
      exact hpt
    rw [hschema]
    exact hwithin u hrange.uncompress_ok pt (hrange.part.subset hpt')

/-! ## Patches put together

Bounds are merged, starting from the limits, and statistics are computed from the points. -/

/-- Merged bounds are those of some patches. Each of the four is an extreme of the bounds of
all patches and of the limit that the merging starts from, which is beyond all of them. -/
theorem boundsFound_merged {s : PcSchema} {bs : List PcBounds} (hne : bs ≠ [])
    (h : ∀ b ∈ bs, BoundsFound s b) : BoundsFound s (bs.foldl pcBoundsMerge pcBoundsInit) := by
  rw [foldl_pcBoundsMerge]
  -- the limit is no extreme, for every bound lies strictly inside
  have hleast : ∀ (dim : PcDimension) (f : PcBounds → ℚ), (∀ b ∈ bs, dim.Found (f b)) →
      dim.Found ((bs.map f).foldl min dblMax) := by
    intro dim f hf
    have hbelow : ∀ x ∈ bs.map f, x < dblMax := by simpa using fun b hb => (hf b hb).1.2
    have hmem := foldl_min_mem (by simpa using hne) hbelow
    obtain ⟨b, hb, heq⟩ := List.mem_map.mp hmem
    exact heq ▸ hf b hb
  have hgreatest : ∀ (dim : PcDimension) (f : PcBounds → ℚ), (∀ b ∈ bs, dim.Found (f b)) →
      dim.Found ((bs.map f).foldl max (-dblMax)) := by
    intro dim f hf
    have habove : ∀ x ∈ bs.map f, -dblMax < x := by simpa using fun b hb => (hf b hb).1.1
    have hmem := foldl_max_mem (by simpa using hne) habove
    obtain ⟨b, hb, heq⟩ := List.mem_map.mp hmem
    exact heq ▸ hf b hb
  constructor
  · intro dim hdim
    exact ⟨hleast dim _ fun b hb => ((h b hb).x dim hdim).1,
      hgreatest dim _ fun b hb => ((h b hb).x dim hdim).2⟩
  · intro dim hdim
    exact ⟨hleast dim _ fun b hb => ((h b hb).y dim hdim).1,
      hgreatest dim _ fun b hb => ((h b hb).y dim hdim).2⟩

/-- Patches of one format that are put together. The union has points because its first patch
has some; that all of them fit is what the writing of the records shows. -/
theorem sound_of_fromPatchlist {palist : List PcPatch} (h : ∀ pa ∈ palist, pa.Sound P)
    (hpcid : IdentifiedSchemas palist)
    (hwithin : ∀ pa ∈ palist, ∀ u, pcPatchUncompress P pa = .ok u →
      ∀ pt ∈ u.points, pa.schema.Within P.endian pt)
    {q : PcPatchUncompressed} (hrun : pcPatchFromPatchlist P palist = .ok q) :
    PcPatch.Sound P (.uncompressed q) := by
  have hsize := truthful_fromPatchlist hrun
  cases palist with
  | nil => cases hrun
  | cons first rest =>
      have hfirst : (first :: rest).head? = some first := rfl
      have hsame := schema_of_fromPatchlist hpcid hfirst hrun
      -- the patches were uncompressed one by one, and their records had room
      obtain ⟨us, hus, htotal, hroom⟩ :=
        fromPatchlist_passed hfirst hsame (fun pa hpa => (h pa hpa).holds) hrun
      obtain ⟨q', hq', hholds, hschema, hstats, hbounds⟩ :=
        fromPatchlist_ok hus hfirst hsame rfl htotal hroom
      cases hrun.symm.trans hq'
      have hfirstSound := h first List.mem_cons_self
      have hne : (us.map PcPatchUncompressed.points).flatten ≠ [] := by
        rw [← List.length_pos_iff, ← sum_npoints hus, List.map_cons, List.sum_cons]
        exact Nat.add_pos_left hfirstSound.npoints_pos _
      -- every point of the union is one of some patch
      have hinside : ∀ pt ∈ (us.map PcPatchUncompressed.points).flatten,
          first.schema.Within P.endian pt := by
        intro pt hpt
        obtain ⟨l, hl, hpt⟩ := List.mem_flatten.mp hpt
        obtain ⟨u, hu, rfl⟩ := List.mem_map.mp hl
        have hmapM := mapM_eq_ok_iff.mpr (hus.imp fun _ _ hu => hu.1)
        obtain ⟨pa, hpa, hpau⟩ := exists_mem_of_mem_mapM hmapM u hu
        rw [← hsame pa hpa]
        exact hwithin pa hpa u hpau pt hpt
      refine hholds.sound hsize hne (hschema ▸ hfirstSound.valid) (hschema ▸ hfirstSound.tame) ?_
        ⟨_, hstats, ?_⟩
      · rw [hschema, hbounds]
        refine boundsFound_merged (by simp) fun b hb => ?_
        obtain ⟨pa, hpa, rfl⟩ := List.mem_map.mp hb
        rw [← hsame pa hpa]
        exact (h pa hpa).bounds
      · rw [hschema]
        exact statsFound_statsOf hfirstSound.tame hne (width_points hus hsame) hinside

/-! ## Other schemas

Moving takes the bytes of the extremes along, so a dimension without a counterpart has the
default for its extremes, and that has to be inside the limits. Converting stores values
anew and searches among the converted points. -/

/-- The value that is stored for dimensions without a counterpart is inside the
limits. -/
def DefaultWithin (P : Platform) (old new : PcSchema) (dflt : ℚ) : Prop :=
  ∀ dim ∈ new.dims, likeOf old dim = none →
    WithinFloat (dim.interpretation.number P.endian (dim.stored P dflt))

/-- A point whose bytes are moved. Each cell is the one of its counterpart or the default. -/
theorem within_moved {old new : PcSchema} (hmatch : Matches old new) {dflt : ℚ}
    (hdflt : DefaultWithin P old new dflt) {pt : Bytes} (hlen : pt.length = old.size)
    (h : old.Within P.endian pt) : new.Within P.endian (moved P old new dflt pt) := by
  intro dim hd
  rw [PcDimension.rawIn, bytesIn_moved hmatch dflt hlen hd, movedCell]
  cases hlike : likeOf old dim with
  | none => exact hdflt dim hd hlike
  | some odim =>
      have hnumber := h odim (mem_of_likeOf hlike)
      rwa [PcDimension.rawIn, (hmatch dim hd).2 odim hlike] at hnumber

/-- The extremes are moved to the new schema, as the points they are. The bounds are read from
them again, under the scales of the new schema, which is what `Tame` is asked of it for. -/
theorem PcPatch.Sound.setSchema {pa : PcPatch} (h : pa.Sound P) {s : PcSchema} (hnew : s.Valid)
    (htame : s.Tame) {dflt : ℚ} (hdflt : DefaultWithin P pa.schema s dflt)
    {q : PcPatchUncompressed} (hrun : pcPatchSetSchema P pa s dflt = .ok q) :
    PcPatch.Sound P (.uncompressed q) := by
  obtain ⟨hmatch, ⟨u, hu⟩, hroom, -⟩ := pcPatchSetSchema_passed hrun
  obtain ⟨st, hst, hfound⟩ := h.stats
  have hover : ∀ st', pa.stats = some st' → StatsOver pa.schema st' := by
    intro st' hst'
    cases hst.symm.trans hst'
    exact hfound.stats_over
  have hholds := h.holds u hu
  obtain ⟨q', hq', hmoved⟩ := pcPatchSetSchema_ok hu hholds hroom h.valid hnew hmatch hover dflt
  cases hrun.symm.trans hq'
  obtain ⟨st', hst', hover', hmin, hmax, -, hbounds⟩ := hmoved.with_stats st hst
  obtain ⟨xdim, hx, hxdim⟩ := hnew.xdimension
  obtain ⟨ydim, hy, hydim⟩ := hnew.ydimension
  have hschema := hmoved.schema_eq
  -- the extremes have the width of a point, so they move as points do
  have hminWithin : s.Within P.endian st'.min.data := by
    rw [hmin]
    exact within_moved hmatch hdflt (by rw [st.min.length_eq, hfound.stats_over.1]) hfound.min
  have hmaxWithin : s.Within P.endian st'.max.data := by
    rw [hmax]
    exact within_moved hmatch hdflt (by rw [st.max.length_eq, hfound.stats_over.2.1]) hfound.max
  refine hmoved.holds.sound (truthful_setSchema hrun) ?_ (hschema ▸ hnew) (hschema ▸ htame) ?_
    ⟨st', hst', ?_⟩
  · rw [← List.length_pos_iff, hmoved.holds.length_eq, hmoved.npoints_eq]
    exact h.npoints_pos
  · rw [hschema, hbounds xdim ydim hxdim hydim]
    constructor
    · intro dim hdim
      cases hxdim.symm.trans hdim
      exact ⟨hminWithin.found htame hx, hmaxWithin.found htame hx⟩
    · intro dim hdim
      cases hydim.symm.trans hdim
      exact ⟨hminWithin.found htame hy, hmaxWithin.found htame hy⟩
  · rw [hschema]
    exact ⟨hover', hminWithin, hmaxWithin⟩

/-- The extremes are searched among the converted points. The old patch gives only that there
are points; their numbers are those of the converted ones, so the limits are asked of these. -/
theorem PcPatch.Sound.transform {pa : PcPatch} (h : pa.Sound P) {s : PcSchema} (htame : s.Tame)
    {dflt : ℚ} (hwithin : ∀ u, pcPatchUncompress P pa = .ok u →
      ∀ pt ∈ u.points, s.Within P.endian (converted P pa.schema s dflt pt))
    {q : PcPatchUncompressed} (hrun : pcPatchTransform P pa s dflt = .ok (some q)) :
    PcPatch.Sound P (.uncompressed q) := by
  obtain ⟨hsrid, hnamed, ⟨u, hu⟩, hvalid⟩ := pcPatchTransform_passed hrun
  have hnew := hvalid h.npoints_pos
  have hint := npoints_le_of_transform hnew hrun
  obtain ⟨xdim, hx, hxdim⟩ := hnew.xdimension
  obtain ⟨ydim, hy, hydim⟩ := hnew.ydimension
  obtain ⟨p, hp, hrun'⟩ := pcPatchTransform_ok hu (h.holds u hu) hnamed hsrid hint hxdim hydim
    hx hy dflt
  rw [hrun, Except.ok.injEq, Option.some.injEq] at hrun'
  obtain ⟨rfl, hsize⟩ : p.schema = s ∧ p.datasize = p.npoints * p.schema.size := by
    refine ⟨hp.schema_eq, ?_⟩
    rw [hp.datasize_eq, hp.npoints_eq, hp.schema_eq, Nat.mul_comm]
  rw [hrun']
  refine hp.holds.sound_summarized hsize ?_ htame ?_ hnew hxdim hydim hx hy
  · rw [← List.length_pos_iff, hp.holds.length_eq, hp.npoints_eq]
    exact h.npoints_pos
  · intro pt hpt
    obtain ⟨pt', hpt', rfl⟩ := List.mem_map.mp hpt
    exact hwithin u hu pt' hpt'

/-! ## Runs

Every patch of a run is `Sound` by the step lemmas above, and its numbers lie inside the
limits when those of the patches do that were read and of the points that were put in. -/

/-- The points that a patch is uncompressed to have numbers inside the limits. -/
def PcPatch.RecordsWithin (P : Platform) (pa : PcPatch) : Prop :=
  ∀ u, pcPatchUncompress P pa = .ok u → ∀ pt ∈ u.points, pa.schema.Within P.endian pt

/-- WKB has points, a filter finds some, and all numbers and defaults are inside
the limits of `float`, as their values are inside those of `double`. Patches with one pcid
that are put together have one schema, as a table of formats gives it. A run begins with
WKB. -/
def SummaryCondition (P : Platform) : Operation → Prop
  | .fromWkb s wkb => s.Tame ∧ (∀ n, wkbGetNpoints P.endian wkb = .ok n → 1 ≤ n) ∧
      ∀ c pa, wkbGetCompression P.endian wkb = .ok c →
        patchFromWkb P s wkb wkb.length c = .ok pa → pa.NumbersWithin P
  | .filter pa dimnum filter val1 val2 =>
      pa.PointsWithin P ∧ FilterFinds P pa dimnum filter val1 val2
  | .range pa _ _ => pa.RecordsWithin P
  | .sort _ names => names ≠ []
  | .fromPatchlist palist => IdentifiedSchemas palist ∧ ∀ pa ∈ palist, pa.RecordsWithin P
  | .setSchema pa s dflt => s.Valid ∧ s.Tame ∧ DefaultWithin P pa.schema s dflt
  | .transform pa s dflt => s.Tame ∧ ∀ u, pcPatchUncompress P pa = .ok u →
      ∀ pt ∈ u.points, s.Within P.endian (converted P pa.schema s dflt pt)
  | .compress _ _ | .uncompress _ => True
  | .fromPointlist _ => False

/-- What every operation keeps: the step of the induction, one case for each operation. -/
theorem sound_of_run {S : SortR} {op : Operation} {qa : PcPatch} (hcond : SummaryCondition P op)
    (hrun : op.run P S = .ok (some qa)) (h : ∀ pa ∈ op.inputs, pa.Sound P) : qa.Sound P := by
  cases op with
  | fromPointlist pl => exact hcond.elim
  | fromWkb s wkb =>
      obtain ⟨pa, hpa, hrun⟩ := bind_eq_ok.mp hrun
      cases hrun
      exact sound_of_read hcond.1 hcond.2.1 hcond.2.2 hpa
  | compress pa userdata =>
      obtain ⟨⟨ra, _⟩, hra, hrun⟩ := bind_eq_ok.mp hrun
      cases hrun
      exact (h pa (List.mem_singleton_self pa)).compress hra
  | uncompress pa =>
      obtain ⟨u, hu, hrun⟩ := bind_eq_ok.mp hrun
      cases hrun
      exact (h pa (List.mem_singleton_self pa)).uncompressed hu
  | filter pa dimnum condition val1 val2 =>
      obtain ⟨ra, hra, hrun⟩ := bind_eq_ok.mp hrun
      cases hrun
      exact (h pa (List.mem_singleton_self pa)).filter hcond.1 hcond.2 hra
  | range pa first count => exact (h pa (List.mem_singleton_self pa)).range hcond hrun
  | sort pa names =>
      obtain ⟨ra, hra, hrun⟩ := bind_eq_ok.mp hrun
      cases hrun
      exact (h pa (List.mem_singleton_self pa)).sort hcond hra
  | fromPatchlist palist =>
      obtain ⟨q, hq, hrun⟩ := bind_eq_ok.mp hrun
      cases hrun
      exact sound_of_fromPatchlist h hcond.1 hcond.2 hq
  | setSchema pa s dflt =>
      obtain ⟨q, hq, hrun⟩ := bind_eq_ok.mp hrun
      cases hrun
      exact (h pa (List.mem_singleton_self pa)).setSchema hcond.1 hcond.2.1 hcond.2.2 hq
  | transform pa s dflt =>
      obtain ⟨q, hq, hrun⟩ := bind_eq_ok.mp hrun
      cases q with
      | none => cases hrun
      | some q =>
          cases hrun
          exact (h pa (List.mem_singleton_self pa)).transform hcond.1 hcond.2 hq

/-- What an operation divides by, where it comes to that: the number of points of
statistics, or of an array that is searched. -/
inductive Divides (P : Platform) : Operation → Nat → Prop where
  | readStats {s : PcSchema} {wkb : Bytes} {c : Nat} {pa : PcPatch}
      (hread : patchFromWkb P s wkb wkb.length c = .ok pa) : Divides P (.fromWkb s wkb) pa.npoints
  | readArray {s : PcSchema} {wkb : Bytes} {c : Nat} {d : PcPatchDimensional} {e : PcBytes}
      (hread : patchFromWkb P s wkb wkb.length c = .ok (.dimensional d)) (he : e ∈ d.bytes) :
      Divides P (.fromWkb s wkb) e.npoints
  | filterRecords {p : PcPatchUncompressed} {dimnum : Nat} {filter : PcFiltertype} {val1 val2 : ℚ}
      {map : PcBitmap}
      (hmap : pcPatchUncompressedBitmap P.endian p dimnum filter val1 val2 = .ok map)
      (hset : map.nset ≠ 0) :
      Divides P (.filter (.uncompressed p) dimnum filter val1 val2) map.nset
  | filterArrays {d : PcPatchDimensional} {dimnum : Nat} {filter : PcFiltertype} {val1 val2 : ℚ}
      {map : PcBitmap} (hmap : pcPatchDimensionalBitmap P d dimnum filter val1 val2 = .ok map)
      (hset : map.nset ≠ 0) :
      Divides P (.filter (.dimensional d) dimnum filter val1 val2) map.nset
  | range {pa : PcPatch} {first count taken : Int}
      (htaken : taken = if int32 (pa.npoints - int32 (first - 1)) < count then
        int32 (pa.npoints - int32 (first - 1)) else count)
      (hsome : ¬ (int32 (first - 1) < 0 ∨ taken ≤ 0)) :
      Divides P (.range pa first count) taken.toNat
  | fromPatchlist {palist : List PcPatch} {first : PcPatch} {paout : PcPatchUncompressed}
      {recs : List Bytes} {written : Bytes} (hfirst : palist.head? = some first)
      (hpcid : ∀ pa ∈ palist, first.schema.pcid = pa.schema.pcid)
      (hmake : pcPatchUncompressedMake first.schema (uint32 (palist.map PcPatch.npoints).sum) =
        .ok paout)
      (hrecs : palist.mapM (recordsOfPatch P) = .ok recs)
      (hemit : emit paout.data.content.length [] recs.flatten = .ok written) :
      Divides P (.fromPatchlist palist) (uint32 (palist.map PcPatch.npoints).sum)
  | transform {pa : PcPatch} {s : PcSchema} {dflt : ℚ} {u : PcPatchUncompressed}
      (hu : pcPatchUncompress P pa = .ok u) : Divides P (.transform pa s dflt) u.npoints

/-- Nothing is divided by zero. By cases on what is divided by: the number of points in the
head of WKB, of bits set, of a range that is not empty, or of the patches that are given. -/
theorem divides_pos {op : Operation} (hcond : SummaryCondition P op)
    (h : ∀ pa ∈ op.inputs, pa.Sound P) {n : Nat} (hn : Divides P op n) : 1 ≤ n := by
  cases hn with
  | readStats hread => exact hcond.2.1 _ (patchFromWkb_fields hread).1
  | readArray hread he =>
      obtain ⟨hnpoints, -, -, harrays⟩ := patchFromWkb_fields hread
      obtain ⟨i, hi, rfl⟩ := List.mem_iff_getElem.mp he
      have hall := List.forall₂_iff_get.mp (harrays _ rfl)
      have hat := hall.2 i (by rw [hall.1]; exact hi) hi
      rw [List.get_eq_getElem] at hat
      rw [hat.2]
      exact hcond.2.1 _ hnpoints
  | filterRecords hmap hset => exact Nat.pos_of_ne_zero hset
  | filterArrays hmap hset => exact Nat.pos_of_ne_zero hset
  | range htaken hsome =>
      -- otherwise the range returns before it divides
      omega
  | @fromPatchlist palist first paout recs written hfirst hpcid hmake hrecs hemit =>
      -- the sum does not wrap around, for there is room for all records
      have hmem : first ∈ palist := List.mem_of_mem_head? hfirst
      have hsame : ∀ pa ∈ palist, pa.schema = first.schema :=
        fun pa hpa => hcond.1 pa hpa first hmem (hpcid pa hpa).symm
      obtain ⟨us, hus, htotal, -⟩ :=
        copied_of_emit hsame (fun pa hpa => (h pa hpa).holds) hmake hrecs hemit
      rw [← sum_npoints hus] at htotal
      rw [uint32_of_lt htotal]
      have hle := List.single_le_sum (l := palist.map PcPatch.npoints)
        (fun _ _ => Nat.zero_le _) _ (List.mem_map_of_mem hmem)
      exact Nat.le_trans (h first hmem).npoints_pos hle
  | transform hu =>
      rw [(schema_of_uncompress hu).2]
      exact (h _ (List.mem_singleton_self _)).npoints_pos

/-- What every run keeps, by induction over the operations that made the patch. -/
theorem sound_of_made {S : SortR} {pa : PcPatch} (h : Made P S (SummaryCondition P) pa) :
    pa.Sound P :=
  h.invariant fun _ _ hcond hrun hinputs => sound_of_run hcond hrun hinputs

/-- In runs whose steps all meet the condition, every patch has points, and bounds
and statistics that were found, and nothing is divided by zero. -/
theorem summaries_found (P : Platform) (S : SortR) :
    (∀ pa, Made P S (SummaryCondition P) pa → pa.Summarized P) ∧
    ∀ op, SummaryCondition P op → (∀ pa ∈ op.inputs, Made P S (SummaryCondition P) pa) →
      ∀ n, Divides P op n → 1 ≤ n := by
  constructor
  · intro pa hpa
    exact (sound_of_made hpa).toSummarized
  · intro op hcond hinputs n hn
    exact divides_pos hcond (fun pa hpa => sound_of_made (hinputs pa hpa)) hn

/-- WKB of the points `(9, 5)`, `(2, 6)`, `(7, 5)` and `(3, 8)`. -/
def fourPointsWkb : Bytes := [1, 1, 0, 0, 0, 0, 0, 0, 0, 4, 0, 0, 0, 9, 5, 2, 6, 7, 5, 3, 8]

theorem yxSchema_tame : yxSchema.Tame := by
  intro dim hd n hn
  have hunit : ∀ dim ∈ yxSchema.dims, dim.scale = 1 ∧ dim.offset = 0 := by decide
  obtain ⟨hscale, hoffset⟩ := hunit dim hd
  rw [pcValueScaleOffset, hscale, hoffset, mul_one, add_zero]
  exact hn.withinDouble

/-- Points of integer types are inside the limits. -/
theorem PcPatch.Sound.recordsWithin {pa : PcPatch} (h : pa.Sound P)
    (hwhole : ∀ dim ∈ pa.schema.dims, dim.interpretation.Whole) : pa.RecordsWithin P := by
  intro u hu pt hpt dim hd
  have hlen : pt.length = pa.schema.size := by
    rw [← (schema_of_uncompress hu).1]
    exact (h.holds u hu).width_eq pt hpt
  refine (hwhole dim hd).number_within P.endian ?_
  rw [pa.schema.length_bytesIn hd hlen, pa.schema.dim_size hd]

/-- The WKB of four points may be read. The condition speaks of the patch before bounds and
statistics are computed, which is evaluated here. -/
theorem summaryCondition_read :
    SummaryCondition Platform.plain (.fromWkb yxSchema fourPointsWkb) := by
  refine ⟨yxSchema_tame, fun n hn => ?_, fun c ra hc hra => ?_⟩
  · have hfour : wkbGetNpoints .little fourPointsWkb = .ok 4 := by decide +kernel
    cases hfour.symm.trans hn
    decide
  · have hnone : wkbGetCompression .little fourPointsWkb = .ok 0 := by decide +kernel
    cases hnone.symm.trans hc
    have hschema := (patchFromWkb_fields hra).2.1
    obtain ⟨p, hp, hra⟩ := bind_eq_ok.mp hra
    cases hra
    have hpoints : (pcPatchUncompressedFromWkb Platform.plain yxSchema fourPointsWkb
        fourPointsWkb.length).map PcPatchUncompressed.points =
          .ok [[9, 5], [2, 6], [7, 5], [3, 8]] := by decide +kernel
    obtain ⟨p', hp', hpoints⟩ := exists_of_map_eq_ok hpoints
    cases hp.symm.trans hp'
    have hwithin : ∀ pt ∈ [[9, 5], [2, 6], [7, 5], [3, 8]], yxSchema.Within .little pt := by
      decide +kernel
    refine ⟨fun u hu pt hpt => ?_, by simp⟩
    cases hu
    rw [hpoints] at hpt
    rw [hschema]
    exact hwithin pt hpt

/-- Its points may be filtered: three of them pass, and the statistics let them be looked at. -/
theorem summaryCondition_filter {pa : PcPatch} (h : pa.Sound Platform.plain)
    (hread : pcPatchFromWkb Platform.plain yxSchema fourPointsWkb fourPointsWkb.length = .ok pa) :
    SummaryCondition Platform.plain (.filter pa 0 .gt 2 0) := by
  have hfacts : (pcPatchFromWkb Platform.plain yxSchema fourPointsWkb fourPointsWkb.length).map
      (fun pa => (pa.type, decide (∀ dim ∈ pa.schema.dims, dim.interpretation.Whole),
        pa.stats.map fun st => pcPatchFilterHasResults Platform.plain.endian st 0 .gt 2 0,
        (pcPatchUncompress Platform.plain pa >>= fun p =>
          pcPatchUncompressedBitmap Platform.plain.endian p 0 .gt 2 0).map PcBitmap.nset)) =
      .ok (.none, true, some (.ok true), .ok 3) := by decide +kernel
  rw [hread, Except.map, Except.ok.injEq, Prod.mk.injEq, Prod.mk.injEq, Prod.mk.injEq] at hfacts
  obtain ⟨htype, hwhole, hstats, hmap⟩ := hfacts
  cases pa with
  | dimensional d => cases htype
  | lazperf l => cases htype
  | uncompressed p =>
      refine ⟨h.recordsWithin (of_decide_eq_true hwhole) p rfl, ⟨fun st hst => ?_, ?_, by simp⟩⟩
      · rw [hst, Option.map_some, Option.some.injEq] at hstats
        rw [hstats]
        simp
      · intro p' hp' map hmap'
        cases hp'
        rw [pcPatchUncompress, ok_bind, hmap', Except.map, Except.ok.injEq] at hmap
        omega

/-- A run that reads four points, takes those with an x above `2`, sorts them, compresses
them and takes the last two. -/
theorem summaries_found_witness :
    ∃ pa, Made Platform.plain SortR.insertion (SummaryCondition Platform.plain) pa ∧
      pa.npoints = 2 ∧ pa.Summarized Platform.plain := by
  have hrun : (do
      let pa ← pcPatchFromWkb Platform.plain yxSchema fourPointsWkb fourPointsWkb.length
      let filtered ← pcPatchFilter Platform.plain pa 0 .gt 2 0
      let sorted ← pcPatchSort Platform.plain SortR.insertion filtered ["x"]
      let compressed ← pcPatchCompress Platform.plain sorted none
      let range ← pcPatchRange Platform.plain compressed.1 2 2
      return (decide (∀ dim ∈ compressed.1.schema.dims, dim.interpretation.Whole),
        range.map PcPatch.npoints)) = .ok (true, some 2) := by decide +kernel
  obtain ⟨pa, hpa, hrun⟩ := bind_eq_ok.mp hrun
  obtain ⟨filtered, hfiltered, hrun⟩ := bind_eq_ok.mp hrun
  obtain ⟨sorted, hsorted, hrun⟩ := bind_eq_ok.mp hrun
  obtain ⟨compressed, hcompressed, hrun⟩ := bind_eq_ok.mp hrun
  obtain ⟨range, hrange, hrun⟩ := bind_eq_ok.mp hrun
  rw [pure_eq_ok, Except.ok.injEq, Prod.mk.injEq] at hrun
  obtain ⟨hwhole, hrun⟩ := hrun
  obtain ⟨qa, rfl, hnpoints⟩ := Option.map_eq_some_iff.mp hrun
  have hmade : Made Platform.plain SortR.insertion (SummaryCondition Platform.plain) pa :=
    .step (i := .fromWkb yxSchema fourPointsWkb) summaryCondition_read (by simp [Operation.inputs])
      (by rw [Operation.run, hpa, ok_bind, pure_eq_ok])
  have hmade : Made Platform.plain SortR.insertion (SummaryCondition Platform.plain) filtered :=
    .step (i := .filter pa 0 .gt 2 0) (summaryCondition_filter (sound_of_made hmade) hpa)
      (by simpa [Operation.inputs] using hmade)
      (by rw [Operation.run, hfiltered, ok_bind, pure_eq_ok])
  have hmade : Made Platform.plain SortR.insertion (SummaryCondition Platform.plain) sorted :=
    .step (i := .sort filtered ["x"]) (by simp [SummaryCondition])
      (by simpa [Operation.inputs] using hmade)
      (by rw [Operation.run, hsorted, ok_bind, pure_eq_ok])
  have hmade : Made Platform.plain SortR.insertion (SummaryCondition Platform.plain)
      compressed.1 :=
    .step (i := .compress sorted none) (by simp [SummaryCondition])
      (by simpa [Operation.inputs] using hmade)
      (by rw [Operation.run, hcompressed]; rfl)
  have hinside : SummaryCondition Platform.plain (.range compressed.1 2 2) :=
    (sound_of_made hmade).recordsWithin (of_decide_eq_true hwhole)
  have hmade : Made Platform.plain SortR.insertion (SummaryCondition Platform.plain) qa :=
    .step hinside (by simpa [Operation.inputs] using hmade) hrange
  exact ⟨qa, hmade, hnpoints, (summaries_found Platform.plain SortR.insertion).1 qa hmade⟩

/-- WKB without points. -/
def noPointsWkb : Bytes := [1, 1, 0, 0, 0, 0, 0, 0, 0, 0, 0, 0, 0]

/-- WKB without points is accepted. Its statistics are divided by zero, and the
limits stay in its bounds. -/
theorem pcPatchFromWkb_no_points :
    ∃ pa, pcPatchFromWkb Platform.plain yxSchema noPointsWkb noPointsWkb.length = .ok pa ∧
      Divides Platform.plain (.fromWkb yxSchema noPointsWkb) 0 ∧
      pa.bounds = ⟨dblMax, -dblMax, dblMax, -dblMax⟩ ∧ ¬ pa.Summarized Platform.plain := by
  have hread : (patchFromWkb Platform.plain yxSchema noPointsWkb noPointsWkb.length 0).map
      PcPatch.npoints = .ok 0 := by decide +kernel
  have hrun : (pcPatchFromWkb Platform.plain yxSchema noPointsWkb noPointsWkb.length).map
      (fun pa => (pa.npoints, pa.bounds)) =
        .ok (0, ⟨dblMax, -dblMax, dblMax, -dblMax⟩) := by decide +kernel
  obtain ⟨ra, hra, hnone⟩ := exists_of_map_eq_ok hread
  obtain ⟨pa, hpa, hsummary⟩ := exists_of_map_eq_ok hrun
  obtain ⟨hn, hb⟩ := Prod.mk.inj hsummary
  refine ⟨pa, hpa, hnone ▸ .readStats hra, hb, fun h => ?_⟩
  have hpos := h.npoints_pos
  omega

end Pointcloud
