/-
Pointcloud.Patch.SupersetTheorems — to a larger schema and back.

A schema that has the dimensions of another, and perhaps more of them, in any
order, has room for all bytes of a point. Where names lead to one dimension
each, moving a point there and back finds every dimension where it was put, and
the default values are left behind. So the points come back, unless the records
of a dimensional patch could not be put together in the first place.
-/
import Pointcloud.Patch.SetSchemaTheorems
import Pointcloud.Patch.UnpackTheorems

namespace Pointcloud

open Pointcloud.Base

variable {P : Platform}

/-! ## Names -/

/-- Both dimensions have a name, and it is the same but for the case of letters. -/
def SameNamed (d e : PcDimension) : Prop :=
  ∃ a b, d.name = some a ∧ e.name = some b ∧ sameName a b = true

theorem sameName_iff {a b : String} :
    sameName a b = true ↔ a.toList.map lowerAscii = b.toList.map lowerAscii := by
  simp [sameName]

theorem SameNamed.symm {d e : PcDimension} (h : SameNamed d e) : SameNamed e d := by
  obtain ⟨a, b, ha, hb, hsame⟩ := h
  exact ⟨b, a, hb, ha, sameName_iff.mpr (sameName_iff.mp hsame).symm⟩

theorem SameNamed.trans {d e f : PcDimension} (h : SameNamed d e) (h' : SameNamed e f) :
    SameNamed d f := by
  obtain ⟨a, b, ha, hb, hab⟩ := h
  obtain ⟨b', c, hb', hc, hbc⟩ := h'
  cases hb.symm.trans hb'
  exact ⟨a, c, ha, hc, sameName_iff.mpr ((sameName_iff.mp hab).trans (sameName_iff.mp hbc))⟩

/-- Every dimension has a name of its own, and the name table lists the dimensions
by their names. -/
structure PcSchema.Named (s : PcSchema) : Prop where
  named : ∀ d ∈ s.dims, d.name ≠ none
  distinct : ∀ d ∈ s.dims, ∀ e ∈ s.dims, SameNamed d e → d = e
  indexed : ∀ entry, entry ∈ s.namehash ↔
    ∃ d ∈ s.dims, d.name = some entry.1 ∧ d.position = entry.2

theorem PcSchema.getElem?_position (s : PcSchema) {d : PcDimension} (hd : d ∈ s.dims) :
    s.dims[d.position]? = some d := by
  obtain ⟨i, hi, rfl⟩ := List.mem_iff_getElem.mp hd
  rw [s.position_eq i hi, List.getElem?_eq_getElem hi]

/-- A name leads to the dimension that has it. -/
theorem PcSchema.Named.likeOf_iff {s : PcSchema} (h : s.Named) {dim odim : PcDimension} :
    likeOf s dim = some odim ↔ odim ∈ s.dims ∧ SameNamed dim odim := by
  constructor
  · intro hlike
    have hodim := mem_of_likeOf hlike
    obtain ⟨name, hname, hget⟩ := Option.bind_eq_some_iff.mp hlike
    obtain ⟨entry, hfind, hat⟩ := Option.bind_eq_some_iff.mp hget
    obtain ⟨d, hd, hdname, hdpos⟩ := (h.indexed entry).mp (List.mem_of_find?_eq_some hfind)
    rw [← hdpos, s.getElem?_position hd, Option.some.injEq] at hat
    subst hat
    have hsame := List.find?_some hfind
    exact ⟨hodim, name, entry.1, hname, hdname, hsame⟩
  · rintro ⟨hodim, name, oname, hname, honame, hsame⟩
    have hin : (oname, odim.position) ∈ s.namehash :=
      (h.indexed _).mpr ⟨odim, hodim, honame, rfl⟩
    obtain ⟨entry, hfind⟩ := Option.isSome_iff_exists.mp
      (List.find?_isSome (p := fun e => sameName name e.1).mpr ⟨_, hin, hsame⟩)
    obtain ⟨d, hd, hdname, hdpos⟩ := (h.indexed entry).mp (List.mem_of_find?_eq_some hfind)
    have hentry := List.find?_some hfind
    have hfound : SameNamed dim d := ⟨name, entry.1, hname, hdname, hentry⟩
    have heq : d = odim :=
      h.distinct d hd odim hodim (hfound.symm.trans ⟨name, oname, hname, honame, hsame⟩)
    rw [likeOf, hname, Option.bind_some, pcSchemaGetDimensionByName, hfind, Option.bind_some,
      ← hdpos, s.getElem?_position hd, heq]

/-! ## A schema within another -/

/-- The larger schema has every dimension of the other one, with its type. -/
structure Superset (old new : PcSchema) : Prop where
  old_named : old.Named
  new_named : new.Named
  included : ∀ odim ∈ old.dims, ∃ dim ∈ new.dims, SameNamed odim dim ∧
    dim.interpretation = odim.interpretation

section Superset

variable {old new : PcSchema} (h : Superset old new)

include h

/-- The dimension of the larger schema leads back. -/
theorem Superset.like {odim : PcDimension} (hodim : odim ∈ old.dims) :
    ∃ dim ∈ new.dims, likeOf new odim = some dim ∧ likeOf old dim = some odim ∧
      dim.interpretation = odim.interpretation := by
  obtain ⟨dim, hd, hsame, hinterp⟩ := h.included odim hodim
  exact ⟨dim, hd, h.new_named.likeOf_iff.mpr ⟨hd, hsame⟩,
    h.old_named.likeOf_iff.mpr ⟨hodim, hsame.symm⟩, hinterp⟩

theorem Superset.matches_new : Matches old new := by
  intro dim hd
  refine ⟨h.new_named.named dim hd, fun odim hlike => ?_⟩
  obtain ⟨hodim, hsame⟩ := h.old_named.likeOf_iff.mp hlike
  obtain ⟨dim', hd', hsame', hinterp⟩ := h.included odim hodim
  rw [h.new_named.distinct dim hd dim' hd' (hsame.trans hsame'), hinterp]

theorem Superset.matches_old : Matches new old := by
  intro odim hodim
  refine ⟨h.old_named.named odim hodim, fun dim hlike => ?_⟩
  obtain ⟨dim', -, hlike', -, hinterp⟩ := h.like hodim
  cases hlike.symm.trans hlike'
  exact hinterp

/-- A point that is moved to the larger schema comes back. -/
theorem Superset.moved_moved (dflt dflt' : ℚ) {pt : Bytes} (hpt : pt.length = old.size) :
    moved P new old dflt' (moved P old new dflt pt) = pt := by
  have hcell : ∀ odim ∈ old.dims,
      movedCell P new dflt' (moved P old new dflt pt) odim = odim.bytesIn pt := by
    intro odim hodim
    obtain ⟨dim, hd, hlike, hback, -⟩ := h.like hodim
    rw [movedCell, hlike]
    simp only
    rw [bytesIn_moved h.matches_new dflt hpt hd, movedCell, hback]
  calc moved P new old dflt' (moved P old new dflt pt)
      = (old.dims.map fun odim => odim.bytesIn pt).flatten :=
        congrArg List.flatten (List.map_congr_left hcell)
    _ = pt := old.flatten_bytesIn hpt

end Superset

/-! ## The whole patch -/

/-- The patch comes back with its points and the bytes of its statistics. -/
def ComesBack (P : Platform) (pa : PcPatch) (pts : List Bytes) (new : PcSchema) (dflt dflt' : ℚ) :
    Prop :=
  ∃ q r, pcPatchSetSchema P pa new dflt = .ok q ∧
    pcPatchSetSchema P (.uncompressed q) pa.schema dflt' = .ok r ∧
    r.npoints = pa.npoints ∧ r.Holds pts ∧
    ∀ st, pa.stats = some st → r.stats.map PcStats.bytes = some st.bytes

/-- Under both schemas the records can be allocated, and the values at the wrapped
offsets are those of the points. -/
structure ComesBackCondition (pa : PcPatch) (pts : List Bytes) (new : PcSchema) : Prop where
  room_old : pa.schema.size * pa.npoints < 9223372036854775808
  room_new : new.size * pa.npoints < 9223372036854775808
  recovered : pa.Recovered pts

section ComesBack

variable {pa : PcPatch} {pts : List Bytes} (h : pa.Holds P pts) (hold : pa.schema.Valid)
  {new : PcSchema} (hnew : new.Valid) (hsuper : Superset pa.schema new)
  (hover : ∀ st, pa.stats = some st → StatsOver pa.schema st)

include h hold hnew hsuper hover

/-- The patch under the larger schema. -/
theorem setSchema_there (halloc : pa.Allocatable)
    (hroom : new.size * pa.npoints < 9223372036854775808) (dflt : ℚ) :
    ∃ u q, Unpacks P pa pts u ∧ pcPatchSetSchema P pa new dflt = .ok q ∧
      Moved P pa (pa.unpacked pts) new dflt q ∧ ∀ st, q.stats = some st → StatsOver new st := by
  obtain ⟨u, hu⟩ := h.unpacks halloc
  obtain ⟨q, hq, hmoved⟩ := pcPatchSetSchema_ok hu.uncompress_ok hu.holds hroom hold hnew
    hsuper.matches_new hover dflt
  refine ⟨u, q, hu, hq, hmoved, fun st hst => ?_⟩
  cases hstats : pa.stats with
  | none =>
      obtain ⟨-, hnone⟩ := (pcPatchSetSchema_passed hq).2.2.2 hstats
      exact nomatch hnone.symm.trans hst
  | some st' =>
      obtain ⟨qst, hqst, hqover, -⟩ := hmoved.with_stats st' hstats
      cases hqst.symm.trans hst
      exact hqover

/-- Where all records can be allocated, those that uncompressing gives come back. -/
theorem setSchema_setSchema_ok (hroom : pa.schema.size * pa.npoints < 9223372036854775808)
    (hroom' : new.size * pa.npoints < 9223372036854775808) (dflt dflt' : ℚ) :
    ∃ q r, pcPatchSetSchema P pa new dflt = .ok q ∧
      pcPatchSetSchema P (.uncompressed q) pa.schema dflt' = .ok r ∧
      r.npoints = pa.npoints ∧ r.Holds (pa.unpacked pts) ∧
      ∀ st, pa.stats = some st → r.stats.map PcStats.bytes = some st.bytes := by
  obtain ⟨u, q, hu, hq, hmoved, hqover⟩ := setSchema_there h hold hnew hsuper hover
    (pa.allocatable_of_room hroom) hroom' dflt
  have hwidth : ∀ r ∈ pa.unpacked pts, r.length = pa.schema.size :=
    hu.schema_eq ▸ hu.holds.width_eq
  have hqs : (PcPatch.uncompressed q).schema = new := hmoved.schema_eq
  have hqn : (PcPatch.uncompressed q).npoints = pa.npoints := hmoved.npoints_eq
  have hrecords : pcPatchUncompress P (.uncompressed q) = .ok q := rfl
  obtain ⟨r, hr, hback⟩ := pcPatchSetSchema_ok hrecords hmoved.holds
    (hqn ▸ hroom) (hqs ▸ hnew) hold (hqs ▸ hsuper.matches_old) (hqs ▸ hqover) dflt'
  have hagain : ∀ pt : Bytes, pt.length = pa.schema.size →
      moved P (PcPatch.uncompressed q).schema pa.schema dflt' (moved P pa.schema new dflt pt) =
        pt := by
    intro pt hpt
    rw [hqs]
    exact hsuper.moved_moved dflt dflt' hpt
  refine ⟨q, r, hq, hr, hback.npoints_eq.trans hqn, ?_, fun st hst => ?_⟩
  · have hholds := hback.holds
    have hsame : (pa.unpacked pts).map (moved P (PcPatch.uncompressed q).schema pa.schema dflt' ∘
        moved P pa.schema new dflt) = pa.unpacked pts := by
      conv_rhs => rw [← List.map_id (pa.unpacked pts)]
      exact List.map_congr_left fun pt hpt => hagain pt (hwidth pt hpt)
    rwa [List.map_map, hsame] at hholds
  · obtain ⟨hmin, hmax, havg⟩ := hover st hst
    obtain ⟨qst, hqst, -, hqmin, hqmax, hqavg, -⟩ := hmoved.with_stats st hst
    obtain ⟨rst, hrst, -, hrmin, hrmax, hravg, -⟩ := hback.with_stats qst hqst
    rw [hrst, Option.map_some, PcStats.bytes, PcStats.bytes, hrmin, hrmax, hravg, hqmin, hqmax,
      hqavg, hagain _ (by rw [st.min.length_eq, hmin]), hagain _ (by rw [st.max.length_eq, hmax]),
      hagain _ (by rw [st.avg.length_eq, havg])]

/-- What comes back has passed through records of the points. -/
theorem condition_of_comesBack {dflt dflt' : ℚ} (hback : ComesBack P pa pts new dflt dflt') :
    ComesBackCondition pa pts new := by
  obtain ⟨q, r, hq, hr, -, hholds, -⟩ := hback
  obtain ⟨-, hunpacked, hroom', -⟩ := pcPatchSetSchema_passed hq
  obtain ⟨-, -, hroom, -⟩ := pcPatchSetSchema_passed hr
  obtain ⟨u, q', -, hq', hmoved, -⟩ := setSchema_there h hold hnew hsuper hover
    (h.allocatable_iff.mp hunpacked) hroom' dflt
  cases hq.symm.trans hq'
  have hqn : (PcPatch.uncompressed q).npoints = pa.npoints := hmoved.npoints_eq
  rw [hqn] at hroom
  obtain ⟨q', r', hq', hr', -, hholds', -⟩ := setSchema_setSchema_ok h hold hnew hsuper hover hroom
    hroom' dflt dflt'
  cases hq.symm.trans hq'
  cases hr.symm.trans hr'
  exact ⟨hroom, hroom', h.unpacked_eq_iff.mp (hholds'.unique hholds)⟩

end ComesBack

/-- A patch comes back from a larger schema exactly under `ComesBackCondition`. -/
theorem pcPatchSetSchema_superset_iff (P : Platform) {pa : PcPatch} {pts : List Bytes}
    (h : pa.Holds P pts) (hold : pa.schema.Valid) {new : PcSchema} (hnew : new.Valid)
    (hsuper : Superset pa.schema new) (hover : ∀ st, pa.stats = some st → StatsOver pa.schema st)
    (dflt dflt' : ℚ) :
    ComesBack P pa pts new dflt dflt' ↔ ComesBackCondition pa pts new := by
  constructor
  · exact condition_of_comesBack h hold hnew hsuper hover
  · rintro ⟨hroom, hroom', hrecovered⟩
    have hsame := h.unpacked_eq_iff.mpr hrecovered
    have hback := setSchema_setSchema_ok h hold hnew hsuper hover hroom hroom' dflt dflt'
    rwa [hsame] at hback

instance (d e : PcDimension) : Decidable (SameNamed d e) :=
  decidable_of_iff ((d.name.bind fun a => e.name.map fun b => sameName a b) = some true) (by
    simp only [Option.bind_eq_some_iff, Option.map_eq_some_iff]
    constructor
    · rintro ⟨a, ha, b, hb, hsame⟩
      exact ⟨a, b, ha, hb, hsame⟩
    · rintro ⟨a, b, ha, hb, hsame⟩
      exact ⟨a, ha, b, hb, hsame⟩)

/-- A table in which the dimensions were entered, in whatever order. -/
theorem PcSchema.named_of_entered {s : PcSchema}
    (hnamed : ∀ d ∈ s.dims, d.name ≠ none ∧ ∀ e ∈ s.dims, SameNamed d e → d = e)
    (hentered : s.namehash.Perm (s.dims.filterMap fun d => d.name.map fun n => (n, d.position))) :
    s.Named := by
  refine ⟨fun d hd => (hnamed d hd).1, fun d hd => (hnamed d hd).2, fun entry => ?_⟩
  rw [hentered.mem_iff, List.mem_filterMap]
  refine exists_congr fun d => and_congr_right fun _ => ?_
  rw [Option.map_eq_some_iff]
  constructor
  · rintro ⟨n, hn, rfl⟩
    exact ⟨hn, rfl⟩
  · rintro ⟨hn, hpos⟩
    exact ⟨entry.1, hn, Prod.ext rfl hpos⟩

/-- A z in front of the coordinates of a pair, in lower case and the other way round. -/
def zyxSchema : PcSchema where
  pcid := 2
  srid := 0
  dims := [⟨some "z", 0, 2, 0, .uint16, 1, 0⟩, ⟨some "y", 1, 1, 2, .uint8, 1, 0⟩,
    ⟨some "x", 2, 1, 3, .uint8, 1, 0⟩]
  size := 4
  xdim := some 2
  ydim := some 1
  compression := .none
  namehash := [("x", 2), ("y", 1), ("z", 0)]
  pcid_lt := by decide
  size_lt := by decide
  dims_ne := by decide
  known := by decide
  position_eq := by decide
  byteoffset_eq := by decide
  size_eq := by decide
  xdim_lt := by decide
  ydim_lt := by decide
  namehash_lt := by decide

theorem yxSchema_valid : yxSchema.Valid := ⟨rfl, rfl⟩

theorem zyxSchema_valid : zyxSchema.Valid := ⟨rfl, rfl⟩

theorem yxSchema_named : yxSchema.Named :=
  PcSchema.named_of_entered (by decide +kernel) (by decide +kernel)

theorem superset_zyx : Superset yxSchema zyxSchema :=
  ⟨yxSchema_named, PcSchema.named_of_entered (by decide +kernel) (by decide +kernel),
    by decide +kernel⟩

/-- Two points come back from it. -/
theorem pcPatchSetSchema_superset_iff_witness :
    ComesBack Platform.plain (.uncompressed (patchOfRecords yxSchema [[1, 5], [2, 5]]))
      [[1, 5], [2, 5]] zyxSchema 7 8 := by
  have hholds : PcPatch.Holds Platform.plain
      (.uncompressed (patchOfRecords yxSchema [[1, 5], [2, 5]])) [[1, 5], [2, 5]] :=
    patchOfRecords_holds (by decide) (by decide)
  have hover : ∀ st, (none : Option PcStats) = some st → StatsOver yxSchema st :=
    fun st hst => nomatch hst
  have hroom : 2 * 2 < 9223372036854775808 ∧ 4 * 2 < 9223372036854775808 := by decide
  exact (pcPatchSetSchema_superset_iff Platform.plain hholds yxSchema_valid zyxSchema_valid
    superset_zyx hover 7 8).mpr ⟨hroom.1, hroom.2, trivial⟩

/-- Of `2 ^ 31` points in dimensions only zeros come back, from the same schema. -/
theorem pcPatchSetSchema_superset_fails :
    ∃ pts : List Bytes, pts = List.replicate 2147483648 [1, 1] ∧
      (dimensionsOfRecords yxSchema pts).Holds Platform.plain pts ∧
      Superset yxSchema yxSchema ∧
      ¬ ComesBack Platform.plain (.dimensional (dimensionsOfRecords yxSchema pts)) pts yxSchema
        0 0 := by
  obtain ⟨pts, hpts⟩ : ∃ pts : List Bytes, pts = List.replicate 2147483648 [1, 1] := ⟨_, rfl⟩
  obtain ⟨-, hholds, hne⟩ := manyOnes_lost (P := Platform.plain) hpts
  have hsuper : Superset yxSchema yxSchema :=
    ⟨yxSchema_named, yxSchema_named, by decide +kernel⟩
  have hpatch : PcPatch.Holds Platform.plain
      (.dimensional (dimensionsOfRecords yxSchema pts)) pts := hholds
  have hover : ∀ st, (none : Option PcStats) = some st → StatsOver yxSchema st :=
    fun st hst => nomatch hst
  refine ⟨pts, hpts, hholds, hsuper, fun hback => ?_⟩
  have hcond := condition_of_comesBack hpatch yxSchema_valid yxSchema_valid hsuper hover hback
  exact hne (hpatch.unpacked_eq_iff.mpr hcond.recovered)

end Pointcloud
