/-
Pointcloud.Patch.UnionTheorems — patches put together.

The records of all patches are copied one behind the other into a block of the
right size, whatever the patches are stored as. They are the points of the
patches, except for dimensional patches that uncompressing does not give back.
The bounds are merged, from those of an empty patch on.
-/
import Pointcloud.Patch.Edit
import Pointcloud.Patch.UnpackTheorems

namespace Pointcloud

open Pointcloud.Base

variable {P : Platform}

/-! ## Bounds -/

/-- The least bounds that cover all others. -/
structure IsUnion (bs : List PcBounds) (b : PcBounds) : Prop where
  xmin : LeastOf (bs.map PcBounds.xmin) b.xmin
  xmax : GreatestOf (bs.map PcBounds.xmax) b.xmax
  ymin : LeastOf (bs.map PcBounds.ymin) b.ymin
  ymax : GreatestOf (bs.map PcBounds.ymax) b.ymax

/-- Merging bounds is searching for each of them. -/
theorem foldl_pcBoundsMerge : ∀ (bs : List PcBounds) (b : PcBounds),
    bs.foldl pcBoundsMerge b = ⟨(bs.map PcBounds.xmin).foldl min b.xmin,
      (bs.map PcBounds.xmax).foldl max b.xmax, (bs.map PcBounds.ymin).foldl min b.ymin,
      (bs.map PcBounds.ymax).foldl max b.ymax⟩
  | [], b => rfl
  | c :: cs, b => by
      have hmin : ∀ x y : ℚ, (if y < x then y else x) = min x y := by
        intro x y
        rw [min_comm, min_def_lt]
      have hmax : ∀ x y : ℚ, (if x < y then y else x) = max x y := by
        intro x y
        rw [max_def_lt]
      rw [List.foldl_cons, foldl_pcBoundsMerge cs]
      simp only [pcBoundsMerge, hmin, hmax, List.map_cons, List.foldl_cons]

/-- The bounds of some patch are within those of an empty one, on every side. -/
structure BoundsReached (bs : List PcBounds) : Prop where
  xmin : ∃ b ∈ bs, b.xmin ≤ dblMax
  xmax : ∃ b ∈ bs, -dblMax ≤ b.xmax
  ymin : ∃ b ∈ bs, b.ymin ≤ dblMax
  ymax : ∃ b ∈ bs, -dblMax ≤ b.ymax

theorem isUnion_merged_iff {bs : List PcBounds} (hne : bs ≠ []) :
    IsUnion bs (bs.foldl pcBoundsMerge pcBoundsInit) ↔ BoundsReached bs := by
  have hleast : ∀ f : PcBounds → ℚ, LeastOf (bs.map f) ((bs.map f).foldl min dblMax) ↔
      ∃ b ∈ bs, f b ≤ dblMax := by
    intro f
    rw [leastOf_foldl_iff (by simpa using hne)]
    simp
  have hgreatest : ∀ f : PcBounds → ℚ,
      GreatestOf (bs.map f) ((bs.map f).foldl max (-dblMax)) ↔ ∃ b ∈ bs, -dblMax ≤ f b := by
    intro f
    rw [greatestOf_foldl_iff (by simpa using hne)]
    simp
  rw [foldl_pcBoundsMerge]
  constructor
  · rintro ⟨h1, h2, h3, h4⟩
    exact ⟨(hleast _).mp h1, (hgreatest _).mp h2, (hleast _).mp h3, (hgreatest _).mp h4⟩
  · rintro ⟨h1, h2, h3, h4⟩
    exact ⟨(hleast _).mpr h1, (hgreatest _).mpr h2, (hleast _).mpr h3, (hgreatest _).mpr h4⟩

/-! ## Records -/

/-- The records that are copied from a patch. -/
theorem recordsOfPatch_ok {pa : PcPatch} {u : PcPatchUncompressed}
    (hu : pcPatchUncompress P pa = .ok u) (h : u.Holds u.points) :
    recordsOfPatch P pa = .ok u.points.flatten := by
  have hread : readAt u.data.content (0 : Nat) (u.schema.size * u.npoints) = .ok _ :=
    readAt_ok (by rw [Nat.zero_add, Nat.mul_comm]; exact h.room)
  rw [List.drop_zero, Nat.mul_comm, ← flatten_records, Nat.mul_comm] at hread
  rw [recordsOfPatch, hu, ok_bind]
  exact hread

section Patches

variable {palist : List PcPatch} {us : List PcPatchUncompressed}
  (hus : List.Forall₂ (fun pa u => pcPatchUncompress P pa = .ok u ∧ u.Holds u.points) palist us)

include hus

theorem recordsOfPatches_ok : palist.mapM (recordsOfPatch P) =
    .ok ((us.map PcPatchUncompressed.points).map List.flatten) := by
  induction hus with
  | nil => rfl
  | cons hu _ ih =>
      rw [List.mapM_cons, recordsOfPatch_ok hu.1 hu.2, ok_bind, ih, ok_bind, pure_eq_ok]
      rfl

theorem sum_npoints : (palist.map PcPatch.npoints).sum =
    (us.map PcPatchUncompressed.points).flatten.length := by
  induction hus with
  | nil => rfl
  | cons hu _ ih =>
      rw [List.map_cons, List.sum_cons, ih, List.map_cons, List.flatten_cons, List.length_append,
        hu.2.length_eq, (schema_of_uncompress hu.1).2]

theorem width_points {s : PcSchema} (hschema : ∀ pa ∈ palist, pa.schema = s) :
    ∀ r ∈ (us.map PcPatchUncompressed.points).flatten, r.length = s.size := by
  induction hus with
  | nil => simp
  | @cons pa u _ _ hu _ ih =>
      intro r hr
      rw [List.map_cons, List.flatten_cons, List.mem_append] at hr
      rcases hr with hr | hr
      · rw [← hschema pa (by simp), ← (schema_of_uncompress hu.1).1]
        exact hu.2.width_eq r hr
      · exact ih (fun pa hmem => hschema pa (by simp [hmem])) r hr

/-! ## The patch -/

/-- A pcid stands for one schema, as in the table of the formats. -/
def IdentifiedSchemas (palist : List PcPatch) : Prop :=
  ∀ pa ∈ palist, ∀ pb ∈ palist, pa.schema.pcid = pb.schema.pcid → pa.schema = pb.schema

omit hus in
/-- Patches of different formats are not put together. -/
theorem fromPatchlist_inconsistent {first pa : PcPatch} (hfirst : palist.head? = some first)
    (hpa : pa ∈ palist) (hne : first.schema.pcid ≠ pa.schema.pcid) :
    pcPatchFromPatchlist P palist =
      raise "pc_patch_from_patchlist: inconsistent schemas in input" := by
  obtain ⟨rest, rfl⟩ := List.head?_eq_some_iff.mp hfirst
  exact if_pos ⟨pa, hpa, hne⟩

omit hus in
theorem fromPatchlist_eq {first : PcPatch} (hfirst : palist.head? = some first)
    (hschema : ∀ pa ∈ palist, pa.schema = first.schema) :
    pcPatchFromPatchlist P palist = (do
      let paout ← pcPatchUncompressedMake first.schema (uint32 (palist.map PcPatch.npoints).sum)
      let recs ← palist.mapM (recordsOfPatch P)
      let written ← emit paout.data.content.length [] recs.flatten
      pcPatchUncompressedComputeStats P { paout with
        npoints := uint32 (palist.map PcPatch.npoints).sum
        bounds := (palist.map PcPatch.bounds).foldl pcBoundsMerge paout.bounds
        data := bufOf (written ++ paout.data.content.drop written.length) }) := by
  obtain ⟨rest, rfl⟩ := List.head?_eq_some_iff.mp hfirst
  refine if_neg ?_
  rintro ⟨pa, hpa, hne⟩
  exact hne (congrArg PcSchema.pcid (hschema pa hpa)).symm

/-- Where the records of all patches can be allocated, they are put together. -/
theorem fromPatchlist_ok {first : PcPatch} (hfirst : palist.head? = some first)
    (hschema : ∀ pa ∈ palist, pa.schema = first.schema) {pts : List Bytes}
    (hpts : (us.map PcPatchUncompressed.points).flatten = pts) (htotal : pts.length < 4294967296)
    (hroom : first.schema.size * pts.length < 9223372036854775808) :
    ∃ q, pcPatchFromPatchlist P palist = .ok q ∧ q.Holds pts ∧ q.schema = first.schema ∧
      q.stats = some (statsOf P first.schema pts) ∧
      q.bounds = (palist.map PcPatch.bounds).foldl pcBoundsMerge pcBoundsInit := by
  have hwidth := width_points hus hschema
  have hsum := sum_npoints hus
  rw [hpts] at hwidth hsum
  have hlen : ((us.map PcPatchUncompressed.points).map List.flatten).flatten.length =
      first.schema.size * pts.length := by
    rw [← List.flatten_flatten, hpts, length_flatten_of_width hwidth, Nat.mul_comm]
  obtain ⟨q, hq, hqs, -, hqb, hqd⟩ := pcPatchUncompressedMake_ok hroom
  have hholds : PcPatchUncompressed.Holds { q with
      npoints := pts.length
      bounds := (palist.map PcPatch.bounds).foldl pcBoundsMerge q.bounds
      data := bufOf ((us.map PcPatchUncompressed.points).map List.flatten).flatten } pts := by
    refine ⟨htotal, ?_, ?_⟩
    · rw [content_bufOf, hlen, hqs, Nat.mul_comm]
    · rw [content_bufOf, ← List.flatten_flatten, hpts, hqs]
      exact records_flatten hwidth
  have hstats := hholds.with_stats (some (statsOf P q.schema pts))
  refine ⟨_, ?_, hstats, hqs, by rw [hqs], by rw [hqb]⟩
  rw [fromPatchlist_eq hfirst hschema, hsum, uint32_of_lt htotal, hq, ok_bind,
    recordsOfPatches_ok hus, ok_bind,
    emit_ok (by rw [hqd, length_zeros, hlen]; simp), ok_bind, List.nil_append,
    List.drop_eq_nil_of_le (by rw [hqd, length_zeros, hlen]), List.append_nil,
    pcPatchUncompressedComputeStats_eq P hholds]

end Patches

/-- What is put together has one format. -/
theorem schema_of_fromPatchlist {palist : List PcPatch} (hpcid : IdentifiedSchemas palist)
    {first : PcPatch} (hfirst : palist.head? = some first) {q : PcPatchUncompressed}
    (hrun : pcPatchFromPatchlist P palist = .ok q) : ∀ pa ∈ palist, pa.schema = first.schema := by
  intro pa hpa
  by_contra hne
  have hmem : first ∈ palist := List.mem_of_mem_head? hfirst
  have hpcids : first.schema.pcid ≠ pa.schema.pcid :=
    fun heq => hne (hpcid pa hpa first hmem heq.symm)
  rw [fromPatchlist_inconsistent hfirst hpa hpcids] at hrun
  exact absurd hrun (raise_ne_ok _ q)

/-- Where the records of patches have had room, all of them were uncompressed, and
the number of their points has not wrapped around. -/
theorem copied_of_emit {palist : List PcPatch} {s : PcSchema}
    (hschema : ∀ pa ∈ palist, pa.schema = s)
    (hholds : ∀ pa ∈ palist, ∀ u, pcPatchUncompress P pa = .ok u → u.Holds u.points)
    {paout : PcPatchUncompressed} {recs : List Bytes} {written : Bytes}
    (hmake : pcPatchUncompressedMake s (uint32 (palist.map PcPatch.npoints).sum) = .ok paout)
    (hrecs : palist.mapM (recordsOfPatch P) = .ok recs)
    (hemit : emit paout.data.content.length [] recs.flatten = .ok written) :
    ∃ us, List.Forall₂ (fun pa u => pcPatchUncompress P pa = .ok u ∧ u.Holds u.points) palist us ∧
      (us.map PcPatchUncompressed.points).flatten.length < 4294967296 ∧
      s.size * (us.map PcPatchUncompressed.points).flatten.length < 9223372036854775808 := by
  obtain ⟨us, hmapM⟩ : ∃ us, palist.mapM (pcPatchUncompress P) = .ok us := by
    refine mapM_isOk_iff.mpr fun pa hpa => ?_
    obtain ⟨r, -, hr⟩ := exists_mem_of_mapM hrecs pa hpa
    obtain ⟨u, hu, -⟩ := bind_eq_ok.mp hr
    exact ⟨u, hu⟩
  have hus : List.Forall₂ (fun pa u => pcPatchUncompress P pa = .ok u ∧ u.Holds u.points)
      palist us := by
    refine ((List.forall₂_and_left _ _).mpr ⟨hholds, mapM_eq_ok_iff.mp hmapM⟩).imp ?_
    rintro pa u ⟨hpa, hu⟩
    exact ⟨hu, hpa u hu⟩
  have hwidth := width_points hus hschema
  have hsum := sum_npoints hus
  have hroom := room_of_pcPatchUncompressedMake hmake
  rw [recordsOfPatches_ok hus, Except.ok.injEq] at hrecs
  have hlen : recs.flatten.length =
      s.size * (us.map PcPatchUncompressed.points).flatten.length := by
    rw [← hrecs, ← List.flatten_flatten, length_flatten_of_width hwidth, Nat.mul_comm]
  have hcopied : recs.flatten.length ≤ paout.data.content.length := by
    unfold emit at hemit
    split at hemit
    · next hle => rwa [List.length_nil, Nat.zero_add] at hle
    · exact absurd hemit (fault_ne_ok written)
  rw [hlen, (pcPatchUncompressedMake_fields hmake).2.2.2.2, hsum] at hcopied
  have htotal := Nat.lt_of_le_of_lt (Nat.le_of_mul_le_mul_left hcopied s.size_pos) (uint32_lt _)
  rw [hsum, uint32_of_lt htotal] at hroom
  exact ⟨us, hus, htotal, hroom⟩

/-- So it is where patches were put together. -/
theorem fromPatchlist_passed {palist : List PcPatch} {first : PcPatch}
    (hfirst : palist.head? = some first) (hschema : ∀ pa ∈ palist, pa.schema = first.schema)
    (hholds : ∀ pa ∈ palist, ∀ u, pcPatchUncompress P pa = .ok u → u.Holds u.points)
    {q : PcPatchUncompressed} (hrun : pcPatchFromPatchlist P palist = .ok q) :
    ∃ us, List.Forall₂ (fun pa u => pcPatchUncompress P pa = .ok u ∧ u.Holds u.points) palist us ∧
      (us.map PcPatchUncompressed.points).flatten.length < 4294967296 ∧
      first.schema.size * (us.map PcPatchUncompressed.points).flatten.length <
        9223372036854775808 := by
  rw [fromPatchlist_eq hfirst hschema] at hrun
  obtain ⟨paout, hmake, hrun⟩ := bind_eq_ok.mp hrun
  obtain ⟨recs, hrecs, hrun⟩ := bind_eq_ok.mp hrun
  obtain ⟨written, hemit, -⟩ := bind_eq_ok.mp hrun
  exact copied_of_emit hschema hholds hmake hrecs hemit

/-! ## Points -/

/-- The records that are copied from each patch. -/
def unpackedLists (palist : List PcPatch) (ptss : List (List Bytes)) : List (List Bytes) :=
  List.zipWith PcPatch.unpacked palist ptss

theorem length_unpacked {pa : PcPatch} {pts : List Bytes} :
    (pa.unpacked pts).length = pts.length := by
  cases pa with
  | dimensional d => exact length_unpackedRecords d.schema pts
  | uncompressed p => rfl
  | lazperf l => rfl

section Points

variable {palist : List PcPatch} {ptss : List (List Bytes)}
  (h : List.Forall₂ (fun pa pts => pa.Holds P pts) palist ptss)

include h

/-- Every patch is uncompressed to its points. -/
theorem unpackedLists_eq_iff :
    unpackedLists palist ptss = ptss ↔ List.Forall₂ PcPatch.Recovered palist ptss := by
  induction h with
  | nil => simp [unpackedLists]
  | cons hpa _ ih =>
      rw [unpackedLists, List.zipWith_cons_cons, List.cons.injEq, hpa.unpacked_eq_iff,
        List.forall₂_cons]
      exact and_congr_right fun _ => ih

/-- Uncompressing changes no number of points. -/
theorem lengths_unpackedLists :
    (unpackedLists palist ptss).map List.length = ptss.map List.length := by
  induction h with
  | nil => rfl
  | cons _ _ ih =>
      rw [unpackedLists, List.zipWith_cons_cons, List.map_cons, length_unpacked, List.map_cons]
      exact congrArg _ ih

theorem sum_npoints_of_holds : (palist.map PcPatch.npoints).sum = ptss.flatten.length := by
  induction h with
  | nil => rfl
  | cons hpa _ ih =>
      rw [List.map_cons, List.sum_cons, ih, List.flatten_cons, List.length_append, hpa.length_eq]

/-- What can be allocated for all points can be for those of one patch. -/
theorem allocatable_of_total {s : PcSchema} (hschema : ∀ pa ∈ palist, pa.schema = s)
    (hroom : s.size * ptss.flatten.length < 9223372036854775808) :
    ∀ pa ∈ palist, pa.Allocatable := by
  intro pa hpa
  refine pa.allocatable_of_room ?_
  have hle : pa.npoints ≤ ptss.flatten.length := by
    rw [← sum_npoints_of_holds h]
    exact List.single_le_sum (fun _ _ => Nat.zero_le _) _ (List.mem_map_of_mem hpa)
  rw [hschema pa hpa]
  exact Nat.lt_of_le_of_lt (Nat.mul_le_mul_left _ hle) hroom

theorem uncompress_all (halloc : ∀ pa ∈ palist, pa.Allocatable) :
    ∃ us, List.Forall₂ (fun pa u => pcPatchUncompress P pa = .ok u ∧ u.Holds u.points) palist us ∧
      us.map PcPatchUncompressed.points = unpackedLists palist ptss := by
  induction h with
  | nil => exact ⟨[], .nil, rfl⟩
  | cons hpa _ ih =>
      obtain ⟨u, hu⟩ := hpa.unpacks (halloc _ (by simp))
      obtain ⟨us, hus, hpoints⟩ := ih fun pa hmem => halloc pa (by simp [hmem])
      have hsame : u.points = _ := hu.holds.records_eq
      refine ⟨u :: us, .cons ⟨hu.uncompress_ok, by rw [hsame]; exact hu.holds⟩ hus, ?_⟩
      rw [List.map_cons, hpoints, unpackedLists, unpackedLists, List.zipWith_cons_cons]
      exact congrArg (· :: _) hsame

end Points

/-! ## Errors -/

/-- No error is reported for a patch that holds points. -/
theorem not_raises_recordsOfPatch {pa : PcPatch} {pts : List Bytes} (h : pa.Holds P pts) :
    ¬ Raises (recordsOfPatch P pa) := by
  intro hraises
  rcases raises_bind.mp hraises with hraises | ⟨u, -, hraises⟩
  · by_cases halloc : pa.Allocatable
    · obtain ⟨u, hu⟩ := h.unpacks halloc
      rw [hu.uncompress_ok] at hraises
      exact absurd hraises (not_raises_ok u)
    · cases pa with
      | uncompressed p => exact halloc trivial
      | lazperf l => exact halloc trivial
      | dimensional d =>
          have hfault : pcPatchUncompress P (.dimensional d) = fault := by
            have hroom : ¬ d.schema.size * d.npoints < 9223372036854775808 := halloc
            rw [pcPatchUncompress, pcPatchUncompressedFromDimensional, pcalloc, if_neg hroom,
              fault_bind]
          rw [hfault] at hraises
          exact absurd hraises not_raises_fault
  · exact absurd hraises (not_raises_readAt _ _ _)

/-- Patches of one format that hold points are put together without an error. -/
theorem not_raises_fromPatchlist {palist : List PcPatch} {first : PcPatch}
    (hholds : ∀ pa ∈ palist, ∃ pts, pa.Holds P pts) (hfirst : palist.head? = some first)
    (hschema : ∀ pa ∈ palist, pa.schema = first.schema) :
    ¬ Raises (pcPatchFromPatchlist P palist) := by
  intro hraises
  have hrun := fromPatchlist_eq (P := P) hfirst hschema
  rw [hrun, raises_bind] at hraises
  rcases hraises with hmake | ⟨paout, hmake, hraises⟩
  · rw [pcPatchUncompressedMake, if_neg (Nat.ne_of_gt first.schema.size_pos)] at hmake
    rcases raises_bind.mp hmake with halloc | ⟨data, -, hreturn⟩
    · unfold pcalloc at halloc
      split at halloc <;> simp at halloc
    · exact absurd hreturn (not_raises_ok _)
  · rcases raises_bind.mp hraises with hrecs | ⟨recs, hrecs, hraises⟩
    · obtain ⟨pa, hpa, hraises⟩ := exists_raises_of_mapM hrecs
      obtain ⟨pts, hpts⟩ := hholds pa hpa
      exact not_raises_recordsOfPatch hpts hraises
    · rcases raises_bind.mp hraises with hemit | ⟨written, hemit, hraises⟩
      · unfold emit at hemit
        split at hemit <;> simp at hemit
      · obtain ⟨us, hus, htotal, hroom⟩ := copied_of_emit hschema (fun pa hpa u hu => by
          obtain ⟨pts, hpts⟩ := hholds pa hpa
          obtain ⟨u', hu'⟩ := hpts.unpacks (hpts.allocatable_iff.mp ⟨u, hu⟩)
          rw [Except.ok.inj (hu.symm.trans hu'.uncompress_ok)]
          have hsame : u'.points = _ := hu'.holds.records_eq
          rw [hsame]
          exact hu'.holds) hmake hrecs hemit
        obtain ⟨q, hq, -⟩ := fromPatchlist_ok hus hfirst hschema rfl htotal hroom
        rw [hrun, hmake, ok_bind, hrecs, ok_bind, hemit, ok_bind] at hq
        rw [hq] at hraises
        exact absurd hraises (not_raises_ok q)

/-! ## Concatenation -/

/-- The patch that comes back has the points of all patches in turn, and covers
what their bounds cover. -/
def Concatenates (P : Platform) (palist : List PcPatch) (ptss : List (List Bytes)) : Prop :=
  ∃ q, pcPatchFromPatchlist P palist = .ok q ∧ q.Holds ptss.flatten ∧
    IsUnion (palist.map PcPatch.bounds) q.bounds

/-- The records of all patches can be allocated, in every dimensional patch the
values at the wrapped offsets are those of the points, and the bounds are not all
beyond those of an empty patch. -/
structure UnionCondition (palist : List PcPatch) (ptss : List (List Bytes)) : Prop where
  room : ∀ pa ∈ palist, pa.schema.size * ptss.flatten.length < 9223372036854775808
  recovered : List.Forall₂ PcPatch.Recovered palist ptss
  bounds : BoundsReached (palist.map PcPatch.bounds)

/-- Patches of one format. -/
theorem concatenates_iff {palist : List PcPatch} {ptss : List (List Bytes)} {first : PcPatch}
    (h : List.Forall₂ (fun pa pts => pa.Holds P pts) palist ptss)
    (hfirst : palist.head? = some first) (hschema : ∀ pa ∈ palist, pa.schema = first.schema)
    (htotal : ptss.flatten.length < 4294967296) :
    Concatenates P palist ptss ↔ UnionCondition palist ptss := by
  have hne : palist.map PcPatch.bounds ≠ [] := by
    obtain ⟨rest, rfl⟩ := List.head?_eq_some_iff.mp hfirst
    exact List.cons_ne_nil _ _
  have hmem : first ∈ palist := List.mem_of_mem_head? hfirst
  have hcount : (unpackedLists palist ptss).flatten.length = ptss.flatten.length := by
    rw [List.length_flatten, lengths_unpackedLists h, List.length_flatten]
  have hok : first.schema.size * ptss.flatten.length < 9223372036854775808 →
      ∃ q, pcPatchFromPatchlist P palist = .ok q ∧ q.Holds (unpackedLists palist ptss).flatten ∧
        q.bounds = (palist.map PcPatch.bounds).foldl pcBoundsMerge pcBoundsInit := by
    intro hroom
    obtain ⟨us, hus, hpoints⟩ := uncompress_all h (allocatable_of_total h hschema hroom)
    obtain ⟨q, hq, hholds, -, -, hbounds⟩ := fromPatchlist_ok hus hfirst hschema
      (congrArg List.flatten hpoints) (by rw [hcount]; exact htotal) (by rw [hcount]; exact hroom)
    exact ⟨q, hq, hholds, hbounds⟩
  constructor
  · rintro ⟨q, hq, hholds, hunion⟩
    have hroom : first.schema.size * ptss.flatten.length < 9223372036854775808 := by
      rw [fromPatchlist_eq hfirst hschema, sum_npoints_of_holds h, uint32_of_lt htotal] at hq
      obtain ⟨paout, hmake, -⟩ := bind_eq_ok.mp hq
      exact room_of_pcPatchUncompressedMake hmake
    obtain ⟨q', hq', hholds', hbounds⟩ := hok hroom
    obtain rfl := Except.ok.inj (hq.symm.trans hq')
    refine ⟨fun pa hpa => by rw [hschema pa hpa]; exact hroom, ?_, ?_⟩
    · refine (unpackedLists_eq_iff h).mp ?_
      exact List.eq_iff_flatten_eq.mpr ⟨hholds'.unique hholds, lengths_unpackedLists h⟩
    · rw [hbounds] at hunion
      exact (isUnion_merged_iff hne).mp hunion
  · intro hcond
    obtain ⟨q, hq, hholds, hbounds⟩ := hok (hcond.room first hmem)
    rw [(unpackedLists_eq_iff h).mpr hcond.recovered] at hholds
    exact ⟨q, hq, hholds, hbounds ▸ (isUnion_merged_iff hne).mpr hcond.bounds⟩

/-- Patches of different formats are refused. Those of one format are put
together exactly under these conditions. -/
theorem pcPatchFromPatchlist_union_iff {palist : List PcPatch} {ptss : List (List Bytes)}
    (hne : palist ≠ []) (hpcid : IdentifiedSchemas palist)
    (h : List.Forall₂ (fun pa pts => pa.Holds P pts) palist ptss)
    (htotal : ptss.flatten.length < 4294967296) :
    ((∃ pa ∈ palist, ∃ pb ∈ palist, pa.schema.pcid ≠ pb.schema.pcid) →
      pcPatchFromPatchlist P palist =
        raise "pc_patch_from_patchlist: inconsistent schemas in input") ∧
    ((∀ pa ∈ palist, ∀ pb ∈ palist, pa.schema.pcid = pb.schema.pcid) →
      (Concatenates P palist ptss ↔ UnionCondition palist ptss)) := by
  obtain ⟨first, hfirst⟩ : ∃ first, palist.head? = some first := by
    cases palist with
    | nil => exact absurd rfl hne
    | cons first rest => exact ⟨first, rfl⟩
  have hmem : first ∈ palist := List.mem_of_mem_head? hfirst
  constructor
  · rintro ⟨pa, hpa, pb, hpb, hdiff⟩
    by_cases hfa : first.schema.pcid = pa.schema.pcid
    · exact fromPatchlist_inconsistent hfirst hpb fun hfb => hdiff (hfa.symm.trans hfb)
    · exact fromPatchlist_inconsistent hfirst hpa hfa
  · intro hsame
    exact concatenates_iff h hfirst
      (fun pa hpa => hpcid pa hpa first hmem (hsame pa hpa first hmem)) htotal

/-- A patch of one point as it is and one of one point in dimensions. -/
theorem pcPatchFromPatchlist_union_iff_witness :
    Concatenates Platform.plain [.uncompressed (patchOfRecords yxSchema [[1, 5]]),
      .dimensional (dimensionsOfRecords yxSchema [[2, 5]])] [[[1, 5]], [[2, 5]]] := by
  have hplain : PcPatch.Holds Platform.plain
      (.uncompressed (patchOfRecords yxSchema [[1, 5]])) [[1, 5]] :=
    patchOfRecords_holds (by decide) (by decide)
  have hdims : (dimensionsOfRecords yxSchema [[2, 5]]).Holds Platform.plain [[2, 5]] :=
    dimensionsOfRecords_holds (by decide) (by decide)
  have hschema : ∀ pa ∈ [PcPatch.uncompressed (patchOfRecords yxSchema [[1, 5]]),
      .dimensional (dimensionsOfRecords yxSchema [[2, 5]])], pa.schema = yxSchema := by
    simp [PcPatch.schema, patchOfRecords, dimensionsOfRecords]
  have hrecovered : RecordsRecovered yxSchema [[2, 5]] := by
    refine (unpackedRecords_eq_iff (by decide)).mp ?_
    exact Fits.unpackedRecords_eq ⟨by decide, by decide⟩ (by decide)
  have hmem : (⟨0, 0, 0, 0⟩ : PcBounds) ∈ [PcPatch.uncompressed (patchOfRecords yxSchema [[1, 5]]),
      .dimensional (dimensionsOfRecords yxSchema [[2, 5]])].map PcPatch.bounds := List.mem_cons_self
  have hzero : 0 ≤ dblMax ∧ -dblMax ≤ 0 := by decide +kernel
  obtain ⟨-, hsame⟩ := pcPatchFromPatchlist_union_iff (List.cons_ne_nil _ _)
    (fun pa hpa pb hpb _ => (hschema pa hpa).trans (hschema pb hpb).symm)
    (.cons hplain (.cons hdims .nil)) (by decide)
  refine (hsame fun pa hpa pb hpb => by rw [hschema pa hpa, hschema pb hpb]).mpr
    ⟨fun pa hpa => ?_, .cons trivial (.cons hrecovered .nil), ?_⟩
  · rw [hschema pa hpa]
    decide
  · exact ⟨⟨_, hmem, hzero.1⟩, ⟨_, hmem, hzero.2⟩, ⟨_, hmem, hzero.1⟩, ⟨_, hmem, hzero.2⟩⟩

/-- One patch of `2 ^ 31` points in dimensions, which come back as zeros. -/
theorem pcPatchFromPatchlist_loses_points :
    ∃ pts : List Bytes, pts = List.replicate 2147483648 [1, 1] ∧
      (dimensionsOfRecords yxSchema pts).Holds Platform.plain pts ∧
      ¬ Concatenates Platform.plain [.dimensional (dimensionsOfRecords yxSchema pts)] [pts] := by
  obtain ⟨pts, hpts⟩ : ∃ pts : List Bytes, pts = List.replicate 2147483648 [1, 1] := ⟨_, rfl⟩
  obtain ⟨hlen, hholds, hne⟩ := manyOnes_lost (P := Platform.plain) hpts
  have hpatch : PcPatch.Holds Platform.plain
      (.dimensional (dimensionsOfRecords yxSchema pts)) pts := hholds
  have hschema : ∀ pa ∈ [PcPatch.dimensional (dimensionsOfRecords yxSchema pts)],
      pa.schema = yxSchema := by
    intro pa hpa
    rw [List.mem_singleton.mp hpa]
    rfl
  refine ⟨pts, hpts, hholds, fun hunion => ?_⟩
  have hcond := (concatenates_iff (.cons hpatch .nil) rfl hschema (by
    rw [List.flatten_singleton, hlen]
    decide)).mp hunion
  exact hne (hpatch.unpacked_eq_iff.mpr (List.forall₂_cons.mp hcond.recovered).1)

end Pointcloud
