/-
Pointcloud.Pgsql.PointTheorems — single points of stored patches, and their order.

A point that is taken out of a stored patch answers questions about its values as
the patch holds them, whether it comes with all the others or alone, by its number
(`points_answered`). The reader of a single point has an offset of its own in every
kind of array, which is not the one of the reader of all of them: the two agree
where `PointnSound` says so, and this is asked for.

Whether the points are in order is answered from the array of the dimension if there
is only one, and from the points otherwise. The flag for strictness is turned round
in both walks, so the answer is shown where the flag does not matter, that is, where
no two points next to each other have the same values (`order_answered`).
-/
import Pointcloud.Patch.IsSortedTheorems
import Pointcloud.Patch.PointnTheorems
import Pointcloud.Pgsql.QueryTheorems

namespace Pointcloud

open Pointcloud.Base

variable {P : Platform} {lookup : Nat → Run (Option PcSchema)}

/-! ## Points -/

/-- A stored point answers with the values that some data has in the dimensions, all at
once or by name. -/
structure AnswersPoint (P : Platform) (lookup : Nat → Run (Option PcSchema)) (s : PcSchema)
    (serpt : SerializedPoint) (data : Bytes) : Prop where
  values : pcpointGetValues P lookup serpt = .ok (s.dims.map fun dim => dim.valueIn P.endian data)
  value : ∀ name dim, pcSchemaGetDimensionByName s name = some dim →
    pcpointGetValue P lookup serpt name = .ok (dim.valueIn P.endian data)
  missing : ∀ name, pcSchemaGetDimensionByName s name = none →
    Raises (pcpointGetValue P lookup serpt name)

/-- A stored point answers with the values of its data. -/
theorem answersPoint_of_found {s : PcSchema} (hfound : lookup s.pcid = .ok (some s))
    (hsize : pcStatsSize s < 1073741824 - 63) {data : Bytes} (hlen : data.length = s.size) :
    AnswersPoint P lookup s ⟨setVarsize P.endian (11 + s.size), s.pcid, data⟩ data := by
  have hschema := schemaFromPcid_eq_ok.mpr hfound
  have hread : ∀ dim ∈ s.dims, pcPointGetDouble P.endian ⟨true, s, data, hlen⟩ dim =
      .ok (dim.valueIn P.endian data) := fun dim hd =>
    pcPointGetDouble_ok P.endian ⟨true, s, data, hlen⟩ hd
  have hcount : s.ndims ≤ 2147483648 := by
    have hle := s.ndims_le
    unfold pcStatsSize at hsize
    omega
  constructor
  · rw [pcpointGetValues, hschema, ok_bind, pcPointDeserialize_ok hlen hsize, ok_bind,
      pcPointToDoubleArray, intLoop_ok hcount, ok_bind]
    exact mapM_eq_ok_map hread
  · intro name dim hname
    have hd := mem_of_pcSchemaGetDimensionByName hname
    rw [pcpointGetValue, hschema, ok_bind, pcPointDeserialize_ok hlen hsize, ok_bind,
      doubleOrError, pcPointGetDoubleByName]
    simp only [hname, hread dim hd, ok_bind, pure_eq_ok]
  · intro name hname
    rw [pcpointGetValue, hschema, ok_bind, pcPointDeserialize_ok hlen hsize, ok_bind,
      doubleOrError, pcPointGetDoubleByName]
    simp only [hname, pure_eq_ok, ok_bind]
    exact raises_raise _

/-- No array of the patch is packed in significant bits. -/
def PcPatch.Unpacked : PcPatch → Prop
  | .dimensional d => ∀ e ∈ d.bytes, e.compression ≠ .sigbits
  | _ => True

instance (q : PcPatch) : Decidable q.Unpacked :=
  match q with
  | .dimensional d => inferInstanceAs (Decidable (∀ e ∈ d.bytes, e.compression ≠ .sigbits))
  | .uncompressed _ => inferInstanceAs (Decidable True)
  | .lazperf _ => inferInstanceAs (Decidable True)

/-- Outside of packed arrays the readers of points agree. -/
theorem PcPatch.Storable.pointnSound {q : PcPatch} {pts : List Bytes} (h : q.Storable P pts)
    (hlt : pts.length < 2147483648) (hunpacked : q.Unpacked) : PointnSound P q pts := by
  have hn := h.kept.stands.npoints_eq
  cases q with
  | lazperf l => exact h.holds
  | uncompressed p =>
      have hcount : pts.length = p.npoints := hn
      exact (by omega : p.npoints ≤ 2147483648)
  | dimensional d =>
      have hyields : YieldsPoints P d pts := h.kept.stands
      refine ⟨hyields.fits.npoints_lt, fun de hde i hi => ?_⟩
      have hd := (List.of_mem_zip hde).1
      have hroom := hyields.fits.size_lt de.1 hd
      rw [hyields.npoints_eq] at hi
      have hle := Nat.mul_le_mul_left de.1.size (Nat.le_of_lt hi)
      rw [if_neg (hunpacked de.2 (List.of_mem_zip hde).2),
        wrapIndex_of_lt (d.schema.wordWidth hd) (by omega)]

section Represents

variable {sp : SerializedPatch} {ps : PointSequence} (h : sp.Represents P lookup ps)

include h

/-- A point of a stored patch by its number, where the readers of points agree. -/
theorem SerializedPatch.Represents.pointn_ok {q : PcPatch} (hq : readPatch P lookup sp = .ok q)
    (hsound : PointnSound P q ps.points) {n : Int} (hlo : -2147483648 ≤ n) (hhi : n ≤ 2147483647) :
    pcpatchPointn P lookup sp n = .ok ((pointNumber ps.points.length n).bind fun i =>
      (ps.points[i]?).map fun data =>
        ⟨setVarsize P.endian (11 + ps.schema.size), ps.schema.pcid, data⟩) := by
  obtain ⟨q', hq', hschema, -, hsto⟩ := h.read
  cases hq.symm.trans hq'
  have hn := hsto.kept.stands.npoints_eq
  have hagrees : PointnAgrees P q n := by
    have hholds := hsto.holds
    cases q with
    | lazperf l => exact hholds.elim
    | uncompressed u => exact (pointnAgrees_uncompressed hholds).mpr hsound n hlo hhi
    | dimensional d => exact (pointnAgrees_dimensional hholds).mpr hsound n hlo hhi
  obtain ⟨l, r, hl, hr, hdata⟩ := hagrees
  obtain ⟨l', hl', hpts⟩ := hsto.pointlist_ok h.npoints_lt
  cases hl.symm.trans hl'
  have hpoint : ∀ i : Nat, (l[i]?).map PcPoint.data = ps.points[i]? := fun i => by
    rw [← List.getElem?_map, hpts]
  simp only [hpoint, ← hn] at hdata
  have hserialized : ((pointNumber ps.points.length n).bind fun i =>
      (ps.points[i]?).map fun data =>
        (⟨setVarsize P.endian (11 + ps.schema.size), ps.schema.pcid, data⟩ : SerializedPoint)) =
      r.map fun pt => ⟨setVarsize P.endian (11 + ps.schema.size), ps.schema.pcid, pt.data⟩ := by
    rw [← Function.comp_def _ PcPoint.data, ← Option.map_map, hdata, Option.map_bind]
    rfl
  rw [pcpatchPointn, hq, ok_bind, hr, ok_bind, hserialized]
  cases r with
  | none => rfl
  | some pt =>
      have hpt := (schema_of_pointn hr).trans hschema
      simp only [pcPointSerialize_ok hpt h.statsSize_lt, ok_bind, pure_eq_ok, Option.map_some]

/-- Names that all stand for dimensions. -/
theorem SerializedPatch.Represents.namesDims {names : List String} {dims : List PcDimension}
    (hnames : List.Forall₂ (fun name dim => pcSchemaGetDimensionByName ps.schema name = some dim)
      names dims) : NamesDims ps.schema names dims := by
  obtain ⟨p, st, hstored, hkept⟩ := h.stored
  have hs : ps.schema.Integral := hstored.schema_eq ▸ hkept.integral
  exact hnames.imp fun name dim hname =>
    ⟨hname, hs.scale_pos dim (mem_of_pcSchemaGetDimensionByName hname)⟩

/-- The order of the points by some dimensions is answered, with the flag turned round, as
it is. -/
theorem SerializedPatch.Represents.isSorted_ok {q : PcPatch} (hq : readPatch P lookup sp = .ok q)
    {names : List String} {dims : List PcDimension} (hnames : NamesDims ps.schema names dims)
    (hne : names ≠ []) (strict : Bool)
    (halike : ∀ d name dim, q = .dimensional d → names = [name] → dims = [dim] →
      SortedAlikeCondition P d dim (if strict then 1 else 0)) :
    ∃ b, pcpatchIsSorted P lookup sp names strict = .ok b ∧
      (b = true ↔ SortedKeys (!strict) (ps.points.map (sortKey P.endian dims))) := by
  obtain ⟨q', hq', hschema, -, hsto⟩ := h.read
  cases hq.symm.trans hq'
  have hdims : dims ≠ [] := by
    rintro rfl
    exact hne (List.forall₂_nil_right_iff.mp hnames)
  have hflag : decide (¬ (0 : Int) < if strict then 1 else 0) = !strict := by
    cases strict <;> rfl
  have hholds := hsto.holds
  have hsized := hsto.sized
  have hfilled := hsto.kept.stands.npoints_eq
  have hpos := List.length_pos_iff.mpr hsto.kept.ne
  rw [pcpatchIsSorted, if_neg hne, hq, ok_bind, ← hflag]
  rw [← hschema] at hnames
  cases q with
  | lazperf l => exact hholds.elim
  | uncompressed p =>
      have hp : p.Holds ps.points := hholds
      have hdata : p.data ≠ none := by
        intro hnull
        have hroom := hp.room
        rw [hnull, Buf.content_none, List.length_nil, ← hp.length_eq] at hroom
        have := Nat.mul_pos hpos p.schema.size_pos
        omega
      exact pcPatchIsSorted_ok hp hsized hnames hdims hdata _
  | dimensional d =>
      have hd : d.Holds P ps.points := hholds
      have hyields : YieldsPoints P d ps.points := hsto.kept.stands
      obtain ⟨u, hu, hus, huschema, -, husize, hudata⟩ := uncompressed_holds hd hyields.fits
      have hpos' : 1 ≤ d.npoints := hyields.npoints_eq ▸ hpos
      have hunames : NamesDims u.schema names dims := huschema ▸ hnames
      obtain ⟨b, hb, hiff⟩ := pcPatchIsSorted_ok (P := P) hus husize hunames hdims (hudata hpos')
        (if strict then 1 else 0)
      refine ⟨b, ?_, hiff⟩
      rw [← hb]
      cases hnames with
      | nil => exact absurd rfl hne
      | @cons name dim names dims hname hrest =>
          cases hrest with
          | nil =>
              -- one dimension is answered from its array
              obtain ⟨u', hu', heq⟩ := (pcPatchIsSorted_alike hd hpos' hyields.fits hname.1 hname.2
                _).mpr (halike d name dim rfl rfl rfl)
              cases hu.symm.trans hu'
              exact heq
          | cons hname' hrest =>
              rw [pcPatchIsSorted, pcPatchIsSorted,
                show (PcPatch.uncompressed u).schema = (PcPatch.dimensional d).schema from huschema,
                pcSchemaGetDimensionsByName_ok (.cons hname (.cons hname' hrest)), ok_bind, ok_bind]
              simp only [pcPatchDimensionalIsSorted, hu, ok_bind]
              rfl

/-- A name that stands for no dimension is an error. -/
theorem SerializedPatch.Represents.isSorted_error {names : List String} {name : String}
    (hmem : name ∈ names) (hname : pcSchemaGetDimensionByName ps.schema name = none)
    (strict : Bool) : Raises (pcpatchIsSorted P lookup sp names strict) := by
  obtain ⟨q, hq, hschema, -, hsto⟩ := h.read
  have hs := hsto.kept.integral
  rw [pcpatchIsSorted, if_neg (List.ne_nil_of_mem hmem), hq, ok_bind, pcPatchIsSorted]
  suffices hraises : Raises (pcSchemaGetDimensionsByName q.schema names) by
    obtain ⟨msg, hmsg⟩ := hraises
    exact ⟨msg, by rw [hmsg]; rfl⟩
  rw [← hschema] at hname
  induction names with
  | nil => cases hmem
  | cons first rest ih =>
      rw [pcSchemaGetDimensionsByName, List.mapM_cons]
      cases hfirst : pcSchemaGetDimensionByName q.schema first with
      | none => exact ⟨_, rfl⟩
      | some dim =>
          have hpos := hs.scale_pos dim (mem_of_pcSchemaGetDimensionByName hfirst)
          have hrest : name ∈ rest := by
            rcases List.mem_cons.mp hmem with rfl | hrest
            · rw [hname] at hfirst
              cases hfirst
            · exact hrest
          obtain ⟨msg, hmsg⟩ := ih hrest
          refine ⟨msg, ?_⟩
          rw [pcSchemaGetDimensionsByName] at hmsg
          simp only [assertThat_true hpos, pure_bind, ok_bind, hmsg]
          rfl

end Represents

/-- Every point that is taken out of a stored patch, with the others or, where the readers
of points agree, by its number, answers with the values of the patch. -/
theorem points_answered (P : Platform) {lookup : Nat → Run (Option PcSchema)}
    (htable : FormatsTable lookup) (S : SortR) : ∀ sp, StoredBySession P lookup S sp →
    ∀ q u, readPatch P lookup sp = .ok q → pcPatchUncompress P q = .ok u →
      ∃ serpts, pcpatchUnnest P lookup sp = .ok serpts ∧
        List.Forall₂ (AnswersPoint P lookup q.schema) serpts u.points ∧
        (PointnSound P q u.points → ∀ n : Int, -2147483648 ≤ n → n ≤ 2147483647 →
          pcpatchPointn P lookup sp n =
            .ok ((pointNumber serpts.length n).bind fun i => serpts[i]?)) := by
  intro sp hsp q u hq hu
  have hrep := represents_of_read htable hsp hq hu
  obtain ⟨q', hq', -, -, hsto⟩ := hrep.read
  cases hq.symm.trans hq'
  have hfound : lookup q.schema.pcid = .ok (some q.schema) := by
    rw [htable.pcid_eq hrep.found, hrep.found]
  refine ⟨_, hrep.unnest_ok, ?_, fun hsound n hlo hhi => ?_⟩
  · rw [List.forall₂_map_left_iff, List.forall₂_same]
    intro data hdata
    exact answersPoint_of_found hfound hrep.statsSize_lt (hsto.kept.stands.width_eq data hdata)
  · rw [hrep.pointn_ok hq hsound hlo hhi, List.length_map]
    simp only [List.getElem?_map]

/-- The last of two points, and its y. -/
theorem points_answered_witness : ∃ sp serpt,
    pcpatchPointn Platform.plain oneFormat sp (-1) = .ok (some serpt) ∧
    pcpointGetValue Platform.plain oneFormat serpt "Y" = .ok 5 ∧
    pcpointGetValues Platform.plain oneFormat serpt = .ok [2, 5] := by
  have hrun : (do
      let sp ← pcpatchIn Platform.plain oneFormat twoPointsText none
      let q ← readPatch Platform.plain oneFormat sp
      let u ← pcPatchUncompress Platform.plain q
      return (decide q.Unpacked, u.points)) = (.ok (true, [[1, 5], [2, 5]]) : Run _) := by
    decide +kernel
  obtain ⟨sp, hsp, hrun⟩ := bind_eq_ok.mp hrun
  obtain ⟨q, hq, hrun⟩ := bind_eq_ok.mp hrun
  obtain ⟨u, hu, hfields⟩ := bind_eq_ok.mp hrun
  obtain ⟨hunpacked, hpoints⟩ : q.Unpacked ∧ u.points = [[1, 5], [2, 5]] := by simpa using hfields
  have hstored := stored_twoPoints hsp
  have hrep := represents_of_read oneFormat_table hstored hq hu
  obtain ⟨q', hq', -, -, hsto⟩ := hrep.read
  cases hq.symm.trans hq'
  obtain ⟨serpts, -, hall, hpointn⟩ :=
    points_answered Platform.plain oneFormat_table SortR.insertion sp hstored q u hq hu
  have hlast := hpointn (hsto.pointnSound hrep.npoints_lt hunpacked) (-1) (by decide) (by decide)
  have hschema := (oneFormat_eq_ok hrep.found).2
  simp only at hschema
  rw [hpoints, hschema] at hall
  obtain _ | ⟨-, _ | ⟨hsecond, _ | _⟩⟩ := hall
  refine ⟨sp, _, hlast, ?_, ?_⟩
  · rw [hsecond.value "Y" ⟨some "Y", 1, 1, 1, .uint8, 1, 0⟩ (by decide +kernel)]
    decide +kernel
  · rw [hsecond.values]
    decide +kernel

/-- Keys that differ from their neighbours are in order strictly or not at all. -/
theorem sortedKeys_iff_of_ne {keys : List (List ℚ)} (hne : keys.IsChain (· ≠ ·)) (strict : Bool) :
    SortedKeys strict keys ↔ keys.IsChain (· < ·) := by
  cases strict with
  | true => exact Iff.rfl
  | false => exact (chain_le_iff_lt keys).mpr (.inr hne)

/-- Where no two points next to each other have the same values in some dimensions, the
order of a stored patch by these dimensions is answered as it is, whatever the flag; a single
dimension that is stored in runs has to have runs on which the walks agree. A name that
stands for no dimension is an error. -/
theorem order_answered (P : Platform) {lookup : Nat → Run (Option PcSchema)}
    (htable : FormatsTable lookup) (S : SortR) : ∀ sp, StoredBySession P lookup S sp →
    ∀ q u, readPatch P lookup sp = .ok q → pcPatchUncompress P q = .ok u → ∀ names strict,
      (∀ name ∈ names, pcSchemaGetDimensionByName q.schema name = none →
        Raises (pcpatchIsSorted P lookup sp names strict)) ∧
      ∀ dims, names ≠ [] →
        List.Forall₂ (fun name dim => pcSchemaGetDimensionByName q.schema name = some dim)
          names dims →
        (u.points.map (sortKey P.endian dims)).IsChain (· ≠ ·) →
        (∀ d name dim, q = .dimensional d → names = [name] → dims = [dim] →
          SortedAlikeCondition P d dim (if strict then 1 else 0)) →
        ∃ b, pcpatchIsSorted P lookup sp names strict = .ok b ∧
          (b = true ↔ (u.points.map (sortKey P.endian dims)).IsChain (· < ·)) := by
  intro sp hsp q u hq hu names strict
  have hrep := represents_of_read htable hsp hq hu
  constructor
  · intro name hmem hname
    exact hrep.isSorted_error hmem hname strict
  · intro dims hne hnames hdiffer halike
    obtain ⟨b, hb, hiff⟩ := hrep.isSorted_ok hq (hrep.namesDims hnames) hne strict halike
    exact ⟨b, hb, hiff.trans (sortedKeys_iff_of_ne hdiffer _)⟩

/-- Two points are in order by y and x. -/
theorem order_answered_witness : ∃ sp,
    pcpatchIsSorted Platform.plain oneFormat sp ["Y", "X"] true = .ok true ∧
    pcpatchIsSorted Platform.plain oneFormat sp ["Y", "X"] false = .ok true := by
  obtain ⟨⟨sp, q, u, hstored, hq, hu, hpoints⟩, -⟩ := exists_sessionReads
  have hschema := (oneFormat_eq_ok (represents_of_read oneFormat_table hstored hq hu).found).2
  simp only at hschema
  have hanswer : ∀ strict, pcpatchIsSorted Platform.plain oneFormat sp ["Y", "X"] strict =
      .ok true := by
    intro strict
    obtain ⟨-, hsorted⟩ := order_answered Platform.plain oneFormat_table SortR.insertion sp hstored
      q u hq hu ["Y", "X"] strict
    rw [hpoints, hschema] at hsorted
    obtain ⟨b, hb, hiff⟩ := hsorted
      [⟨some "Y", 1, 1, 1, .uint8, 1, 0⟩, ⟨some "X", 0, 1, 0, .uint8, 1, 0⟩] (List.cons_ne_nil _ _)
      (.cons (by decide +kernel) (.cons (by decide +kernel) .nil)) (by decide +kernel)
      (fun d name dim hd hone => by cases hone)
    rw [hb, hiff.mpr (by decide +kernel)]
  exact ⟨sp, hanswer true, hanswer false⟩

end Pointcloud
