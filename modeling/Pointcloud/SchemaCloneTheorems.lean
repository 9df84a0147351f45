/-
Pointcloud.SchemaCloneTheorems — what a clone of a schema has in common with it.

A clone has the same dimensions at the same places, and the same coordinates. Only its
name table is made anew: the names are entered in the order of the positions, not in
that of the document. Where several dimensions have one name, up to the case of the
letters, another one of them may be found (`pcSchemaClone_iff`).
-/
import Pointcloud.SchemaLayoutTheorems

namespace Pointcloud

open Pointcloud.Base

/-! ## Setting dimensions -/

/-- What dimensions add to a name table, in their order. -/
def namedDims (ds : List XmlDimension) : List (String × Nat) :=
  ds.filterMap fun d => d.name.map fun name => (name, d.position)

theorem mem_namedDims {ds : List XmlDimension} {e : String × Nat} :
    e ∈ namedDims ds ↔ ∃ d ∈ ds, d.name = some e.1 ∧ d.position = e.2 := by
  rw [namedDims, List.mem_filterMap]
  refine exists_congr fun d => and_congr_right fun _ => ?_
  rw [Option.map_eq_some_iff]
  constructor
  · rintro ⟨name, hname, rfl⟩
    exact ⟨hname, rfl⟩
  · rintro ⟨hname, hposition⟩
    exact ⟨e.1, hname, Prod.ext rfl hposition⟩

theorem namedDims_bare (ds : List XmlDimension) :
    namedDims (ds.map XmlDimension.bare) = namedDims ds := by
  rw [namedDims, List.filterMap_map]
  rfl

theorem snd_namedDims_nodup {ds : List XmlDimension}
    (h : (ds.map XmlDimension.position).Nodup) : ((namedDims ds).map Prod.snd).Nodup := by
  refine h.sublist ?_
  induction ds with
  | nil => exact List.Sublist.refl _
  | cons d ds ih =>
      have hrest := ih (List.nodup_cons.mp h).2
      unfold namedDims at hrest ⊢
      rw [List.filterMap_cons]
      cases d.name with
      | none => exact hrest.cons _
      | some name => exact hrest.cons_cons _

theorem namedDims_cons (d : XmlDimension) (ds : List XmlDimension) :
    namedDims (d :: ds) =
      match d.name with
      | some name => (name, d.position) :: namedDims ds
      | none => namedDims ds := by
  rw [namedDims, List.filterMap_cons]
  cases d.name <;> rfl

/-- Setting dimensions changes the dimensions and the name table. -/
theorem foldl_pcSchemaSetDimension (ds : List XmlDimension) (s : XmlSchema) :
    ds.foldl pcSchemaSetDimension s = { s with
      dims := (ds.foldl pcSchemaSetDimension s).dims
      namehash := (namedDims ds).foldl (enter nameLimits) s.namehash } := by
  induction ds generalizing s with
  | nil => rfl
  | cons d ds ih =>
      rw [List.foldl_cons, ih, namedDims_cons, pcSchemaSetDimension]
      cases d.name <;> rfl

/-- In the order of their positions, dimensions are appended. -/
theorem dims_foldl_set_ordered {es : List XmlDimension}
    (hes : ∀ i (h : i < es.length), es[i].position = i) {s : XmlSchema}
    (hlen : s.dims.length = es.length) :
    (es.foldl pcSchemaSetDimension s).dims = es.map some := by
  have hpositions : es.map XmlDimension.position = List.range es.length :=
    List.ext_getElem (by simp) fun i hi _ => by
      rw [List.getElem_map, List.getElem_range]
      exact hes i (by simpa using hi)
  have hin : ∀ d ∈ es, d.position < s.dims.length := by
    intro d hd
    rw [hlen]
    exact List.mem_range.mp (hpositions ▸ List.mem_map_of_mem hd)
  obtain ⟨hcount, hplaced, -⟩ := dims_foldl_set (hpositions ▸ List.nodup_range) hin
  refine List.ext_getElem? fun i => ?_
  by_cases hi : i < es.length
  · have hplace := hplaced es[i] (List.getElem_mem hi)
    rw [hes i hi] at hplace
    rw [hplace, List.getElem?_map, List.getElem?_eq_getElem hi, Option.map_some]
  · rw [List.getElem?_eq_none (by omega), List.getElem?_eq_none (by rw [List.length_map]; omega)]

/-! ## Cloning -/

/-- Every dimension is there and laid out, and the coordinates are dimensions. -/
structure Complete (es : List XmlDimension) (s : XmlSchema) : Prop where
  dims_eq : s.dims = es.map some
  position_eq : ∀ i (h : i < es.length), es[i].position = i
  laid_out : calculateByteoffsets 0 s.dims = (s.dims, s.size)
  count_le : es.length ≤ 2147483648
  xdim_lt : ∀ i ∈ s.xdim, i < es.length
  ydim_lt : ∀ i ∈ s.ydim, i < es.length
  zdim_lt : ∀ i ∈ s.zdim, i < es.length
  mdim_lt : ∀ i ∈ s.mdim, i < es.length

section Cloning

variable {es : List XmlDimension} {s : XmlSchema} (h : Complete es s)

include h

theorem Complete.cloneCoordinate_ok {pcs : XmlSchema} (hdims : pcs.dims = s.dims)
    {o : Option Nat} (ho : ∀ i ∈ o, i < es.length) : cloneCoordinate s pcs o = .ok o := by
  cases o with
  | none => rfl
  | some i =>
      have hi := ho i rfl
      have hat : s.dims[i]? = some (some es[i]) := by
        rw [h.dims_eq, List.getElem?_map, List.getElem?_eq_getElem hi, Option.map_some]
      simp only [cloneCoordinate, hdims, hat, h.position_eq i hi]

/-- A clone differs in its name table at most. -/
theorem pcXmlSchemaClone_ok :
    pcXmlSchemaClone s = .ok { s with namehash := enterAll nameLimits (namedDims es) } := by
  obtain ⟨pcs, hpcs⟩ : ∃ pcs, pcs = { pcSchemaNew es.length with
    pcid := s.pcid, srid := s.srid, compression := s.compression } := ⟨_, rfl⟩
  have hlen : pcs.dims.length = es.length := by rw [hpcs]; exact List.length_replicate
  have hempty : pcSchemaCalculateByteoffsets pcs = pcs := by
    simp only [hpcs, pcSchemaCalculateByteoffsets, pcSchemaNew, calculateByteoffsets_none]
  have hin : ∀ d ∈ es, d.position < pcs.dims.length := by
    intro d hd
    obtain ⟨i, hi, rfl⟩ := List.mem_iff_getElem.mp hd
    rw [hlen, h.position_eq i hi]
    exact hi
  have hset := setDimensions_ok (by rw [hlen]; exact h.count_le) hin
  have hdims := dims_foldl_set_ordered h.position_eq hlen
  have hfilled : pcSchemaCalculateByteoffsets (es.foldl pcSchemaSetDimension pcs) =
      { s with
        xdim := none, ydim := none, zdim := none, mdim := none
        namehash := enterAll nameLimits (namedDims es) } := by
    rw [foldl_pcSchemaSetDimension, hdims, ← h.dims_eq, pcSchemaCalculateByteoffsets, h.laid_out,
      hpcs]
    rfl
  rw [hempty, hfilled] at hset
  have hsource : s.dims.filterMap id = es := by
    rw [h.dims_eq, List.filterMap_map]
    exact List.filterMap_some
  have hcount : s.dims.length = es.length := by rw [h.dims_eq, List.length_map]
  rw [pcXmlSchemaClone, hsource, hcount, intLoop_ok h.count_le, ← hpcs, ok_bind]
  obtain ⟨pcs', hpcs'⟩ : ∃ pcs', pcs' = { s with
    xdim := none, ydim := none, zdim := none, mdim := none
    namehash := enterAll nameLimits (namedDims es) } := ⟨_, rfl⟩
  have hsame : pcs'.dims = s.dims := by rw [hpcs']
  rw [← hpcs', setDimensions] at hset
  rw [hset, ok_bind, h.cloneCoordinate_ok hsame h.xdim_lt, ok_bind,
    h.cloneCoordinate_ok hsame h.ydim_lt, ok_bind, h.cloneCoordinate_ok hsame h.zdim_lt, ok_bind,
    h.cloneCoordinate_ok hsame h.mdim_lt, ok_bind, pure_eq_ok, hpcs']
  simp only [pcSchemaCalculateByteoffsets, h.laid_out]

end Cloning

/-! ## Schemas from documents -/

/-- The dimensions that a document declares, in its order. -/
def declared (root : Option XmlNode) : List XmlDimension :=
  (declaredDimensions root).filterMap fun element => (readDimension element).toOption

/-- The dimensions are set in the order of the document, each in an empty place. -/
theorem addDimensions_foldl : ∀ {elements : List (List XmlNode)} {s s' : XmlSchema},
    addDimensions elements s = .ok (some s') →
      ∃ ds, (elements.filterMap fun element => (readDimension element).toOption) = ds ∧
        ds.length = elements.length ∧ s' = ds.foldl pcSchemaSetDimension s ∧
        (ds.map XmlDimension.position).Nodup ∧ ∀ d ∈ ds, s.dims[d.position]? = some none
  | [], s, s', h => by
      cases h
      exact ⟨[], rfl, rfl, rfl, List.nodup_nil, by simp⟩
  | element :: elements, s, s', h => by
      obtain ⟨d, hd, hrest⟩ := bind_eq_ok.mp h
      split at hrest
      · exact nomatch hrest
      · exact nomatch hrest
      · next hfree =>
          obtain ⟨ds, hds, hlen, rfl, hnodup, hplaces⟩ := addDimensions_foldl hrest
          obtain ⟨hlt, -⟩ := List.getElem?_eq_some_iff.mp hfree
          have hset : (pcSchemaSetDimension s d).dims = s.dims.set d.position (some d) := rfl
          have hother : ∀ e ∈ ds, d.position ≠ e.position := by
            intro e he heq
            have hplace := hplaces e he
            rw [hset, ← heq, List.getElem?_set_self hlt] at hplace
            exact nomatch hplace
          refine ⟨d :: ds, by rw [List.filterMap_cons, hd, hds]; rfl, by simp [hlen], rfl, ?_, ?_⟩
          · rw [List.map_cons, List.nodup_cons, List.mem_map]
            exact ⟨fun ⟨e, he, heq⟩ => hother e he heq.symm, hnodup⟩
          · rw [List.forall_mem_cons]
            refine ⟨hfree, fun e he => ?_⟩
            have hplace := hplaces e he
            rwa [hset, List.getElem?_set_ne (hother e he)] at hplace

theorem onePerPosition_of_nodup {ds : List XmlDimension}
    (hnodup : (ds.map XmlDimension.position).Nodup) (hlt : ∀ d ∈ ds, d.position < ds.length) :
    OnePerPosition ds := by
  refine (hnodup.subperm fun p hp => ?_).perm_of_length_le (by simp)
  obtain ⟨d, hd, rfl⟩ := List.mem_map.mp hp
  exact List.mem_range.mpr (hlt d hd)

/-- Laying out dimensions that are all there. -/
theorem calculateByteoffsets_map_some (es₀ : List XmlDimension) (off : Nat) :
    ∃ es : List XmlDimension, (calculateByteoffsets off (es₀.map some)).1 = es.map some ∧
      es.map XmlDimension.bare = es₀.map XmlDimension.bare := by
  have hbare := bare_calculateByteoffsets (es₀.map some) off
  obtain ⟨es, hes⟩ : ∃ es : List XmlDimension,
      (calculateByteoffsets off (es₀.map some)).1 = es.map some := by
    refine exists_map_some fun o ho => ?_
    have hmem := List.mem_map_of_mem (f := Option.map XmlDimension.bare) ho
    rw [hbare, List.map_map] at hmem
    obtain ⟨d, -, hd⟩ := List.mem_map.mp hmem
    cases o with
    | none => exact nomatch hd
    | some d => exact ⟨d, rfl⟩
  refine ⟨es, hes, ?_⟩
  rw [hes, List.map_map, List.map_map] at hbare
  refine List.map_injective_iff.mpr (Option.some_injective _) ?_
  rw [List.map_map, List.map_map]
  exact hbare

/-- What a document makes of a schema: all dimensions, and a name table in its order. -/
theorem complete_of_pcSchemaFromXml {root : Option XmlNode} {s : XmlSchema}
    (h : pcSchemaFromXml root = .ok (some s)) : OnePerPosition (declared root) ∧
      s.namehash = enterAll nameLimits (namedDims (declared root)) ∧
      ∃ es, Complete es s ∧
        (es.map XmlDimension.bare).Perm ((declared root).map XmlDimension.bare) := by
  obtain ⟨hcount, -, s₀, hadded, hre⟩ := pcSchemaFromXml_ok h
  obtain ⟨ds, hds, hlen, rfl, hnodup, hplaces⟩ := addDimensions_foldl hadded
  rw [← hlen] at hcount hplaces hre
  have hpos : OnePerPosition ds := onePerPosition_of_nodup hnodup fun d hd => by
    obtain ⟨hlt, -⟩ := List.getElem?_eq_some_iff.mp (hplaces d hd)
    exact Nat.lt_of_lt_of_eq hlt List.length_replicate
  obtain ⟨es₀, hes₀, hperm, hposition⟩ := hpos.ordered
  obtain ⟨es, hes, hbare⟩ := calculateByteoffsets_map_some es₀ 0
  have hdims : s.dims = es.map some := by
    rw [hre.dims_eq, pcSchemaCalculateByteoffsets, hes₀, hes]
  have hlength : es.length = ds.length := by
    have hmapped := congrArg List.length hbare
    rw [List.length_map, List.length_map] at hmapped
    exact hmapped.trans hperm.length_eq
  have hplaced : ∀ i (hi : i < es.length), es[i].position = i := by
    intro i hi
    have hi₀ : i < es₀.length := by rwa [hperm.length_eq, ← hlength]
    have hat := congrArg (fun l => l[i]?.map XmlDimension.position) hbare
    simp only [List.getElem?_map, List.getElem?_eq_getElem hi, List.getElem?_eq_getElem hi₀,
      Option.map_some, Option.some.injEq] at hat
    exact hat.trans (hposition i hi₀)
  have hlaid : calculateByteoffsets 0 s.dims = (s.dims, s.size) := by
    have hagain : calculateByteoffsets 0 s.dims = calculateByteoffsets 0 (es₀.map some) := by
      rw [← calculateByteoffsets_bare, hdims, ← hes, bare_calculateByteoffsets,
        calculateByteoffsets_bare]
    rw [hagain, hre.dims_eq, hre.size_eq, pcSchemaCalculateByteoffsets, hes₀]
  -- no coordinate is known before the names are looked at
  have hnone : ∀ i ∈ (none : Option Nat), i < ds.length := by simp
  have hunknown := foldl_pcSchemaSetDimension ds (pcSchemaNew ds.length)
  rw [hunknown] at hre
  rw [declared, hds]
  refine ⟨hpos, ?_, es, ⟨hdims, hplaced, hlaid, ?_, ?_, ?_, ?_, ?_⟩, ?_⟩
  · exact hre.namehash_eq
  · rw [hlength]
    exact Nat.le_trans hcount (by decide)
  · rw [hlength]
    exact hre.xdim_lt hnone
  · rw [hlength]
    exact hre.ydim_lt hnone
  · rw [hlength]
    exact hre.zdim_lt hnone
  · rw [hlength]
    exact hre.mdim_lt hnone
  · rw [hbare]
    exact hperm.map _

/-! ## Looking up names -/

theorem sameName_refl (a : String) : sameName a a = true := beq_self_eq_true _

/-- Names that are the same are the same as the same others. -/
theorem sameName_congr {a b : String} (h : sameName a b = true) (c : String) :
    sameName a c = sameName b c := by
  rw [sameName, sameName, beq_iff_eq.mp h]

/-- The position that a name table has for a name. -/
def lookup (entries : List (String × Nat)) (name : String) : Option Nat :=
  hashtableSearch (entries.foldl hashtableInsert createStringHashtable) name

/-- Of the entries with one name, the same one is met first in both orders. -/
def FirstAlike (entries entries' : List (String × Nat)) : Prop :=
  ∀ e ∈ entries, ∃ i j, FirstMet nameLimits entries (fun f => sameName e.1 f.1) i ∧
    FirstMet nameLimits entries' (fun f => sameName e.1 f.1) j ∧ entries[i]? = entries'[j]?

theorem lookup_eq_some_iff {entries : List (String × Nat)} {name : String} {p : Nat} :
    lookup entries name = some p ↔ ∃ i, FirstMet nameLimits entries (fun e => sameName name e.1) i ∧
      entries[i]?.map Prod.snd = some p := by
  rw [lookup, hashtableSearch_eq, Option.map_eq_some_iff]
  constructor
  · rintro ⟨e, hfind, rfl⟩
    obtain ⟨i, hi, hat⟩ := find?_enterAll_eq_some_iff.mp hfind
    exact ⟨i, hi, by rw [hat, Option.map_some]⟩
  · rintro ⟨i, hi, hposition⟩
    obtain ⟨e, hat, rfl⟩ := Option.map_eq_some_iff.mp hposition
    exact ⟨e, find?_enterAll_eq_some_iff.mpr ⟨i, hi, hat⟩, rfl⟩

theorem lookup_eq_none_iff {entries : List (String × Nat)} {name : String} :
    lookup entries name = none ↔ ∀ e ∈ entries, sameName name e.1 = false := by
  rw [lookup, hashtableSearch_eq, Option.map_eq_none_iff, List.find?_eq_none]
  simp only [(enterAll_perm entries).mem_iff, Bool.not_eq_true]

/-- Two tables with the same entries agree on every name exactly if the first are alike. -/
theorem lookup_eq_iff {entries entries' : List (String × Nat)} (hperm : entries'.Perm entries)
    (hnodup : (entries.map Prod.snd).Nodup) :
    (∀ name, lookup entries' name = lookup entries name) ↔ FirstAlike entries entries' := by
  -- an entry is known by its position
  have hentry : ∀ e ∈ entries, ∀ f ∈ entries, e.2 = f.2 → e = f := fun e he f hf =>
    List.inj_on_of_nodup_map hnodup he hf
  constructor
  · intro hall e he
    obtain ⟨p, hp⟩ : ∃ p, lookup entries e.1 = some p := by
      refine Option.ne_none_iff_exists'.mp fun hnone => ?_
      have hdiffers := lookup_eq_none_iff.mp hnone e he
      rw [sameName_refl] at hdiffers
      exact nomatch hdiffers
    obtain ⟨i, hi, hat⟩ := lookup_eq_some_iff.mp hp
    obtain ⟨j, hj, hat'⟩ := lookup_eq_some_iff.mp ((hall e.1).trans hp)
    obtain ⟨f, hf, rfl⟩ := Option.map_eq_some_iff.mp hat
    obtain ⟨f', hf', hsame⟩ := Option.map_eq_some_iff.mp hat'
    refine ⟨i, j, hi, hj, ?_⟩
    rw [hf, hf', hentry f (List.mem_of_getElem? hf) f'
      (hperm.mem_iff.mp (List.mem_of_getElem? hf')) hsame.symm]
  · intro halike name
    cases hfound : lookup entries name with
    | none =>
        rw [lookup_eq_none_iff] at hfound ⊢
        exact fun e he => hfound e (hperm.mem_iff.mp he)
    | some p =>
        obtain ⟨i, hi, hat⟩ := lookup_eq_some_iff.mp hfound
        obtain ⟨e, he, rfl⟩ := Option.map_eq_some_iff.mp hat
        obtain ⟨hlt, heq⟩ := List.getElem?_eq_some_iff.mp he
        have hsame : sameName name e.1 = true := by
          have hmet := hi.found
          rwa [heq] at hmet
        obtain ⟨i', j, hi', hj, hboth⟩ := halike e (List.mem_of_getElem? he)
        have hkey : (fun f : String × Nat => sameName e.1 f.1) = fun f => sameName name f.1 :=
          funext fun f => (sameName_congr hsame f.1).symm
        rw [hkey] at hi' hj
        refine lookup_eq_some_iff.mpr ⟨j, hj, ?_⟩
        rw [← hboth, hi'.unique hi, he, Option.map_some]

/-- Names that differ are alike in every order. -/
theorem firstAlike_of_distinct {entries entries' : List (String × Nat)}
    (hperm : entries'.Perm entries)
    (hdistinct : ∀ e ∈ entries, ∀ f ∈ entries, sameName e.1 f.1 = true → e = f)
    (hnodup : entries.Nodup) : FirstAlike entries entries' := by
  have honly : ∀ {l : List (String × Nat)}, l.Perm entries → ∀ e ∈ entries,
      ∃ i, FirstMet nameLimits l (fun f => sameName e.1 f.1) i ∧ l[i]? = some e := by
    intro l hl e he
    obtain ⟨i, hi, hat⟩ := List.mem_iff_getElem.mp (hl.mem_iff.mpr he)
    refine ⟨i, ⟨hi, by rw [hat]; exact sameName_refl e.1, fun j hj hsame hne => ?_⟩, ?_⟩
    · have heq := hdistinct e he l[j] (hl.mem_iff.mp (List.getElem_mem hj)) hsame
      exact absurd ((hl.nodup_iff.mpr hnodup).getElem_inj_iff.mp (heq.symm.trans hat.symm)) hne
    · rw [List.getElem?_eq_getElem hi, hat]
  intro e he
  obtain ⟨i, hi, hat⟩ := honly (List.Perm.refl _) e he
  obtain ⟨j, hj, hat'⟩ := honly hperm e he
  exact ⟨i, j, hi, hj, hat.trans hat'.symm⟩

/-- A name is found as the dimension at the position that the table has for it. -/
theorem Complete.position_getDimensionByName {es : List XmlDimension} {s : XmlSchema}
    (h : Complete es s) {entries : List (String × Nat)}
    (hnames : s.namehash = enterAll nameLimits entries) (hin : ∀ e ∈ entries, e.2 < es.length)
    (name : String) :
    (pcXmlSchemaGetDimensionByName s name).map XmlDimension.position = lookup entries name := by
  rw [pcXmlSchemaGetDimensionByName, hnames, lookup, hashtableSearch_eq]
  cases hfind : (enterAll nameLimits entries).find? fun e => sameName name e.1 with
  | none => rfl
  | some e =>
      have hlt := hin e ((enterAll_perm entries).mem_iff.mp (List.mem_of_find?_eq_some hfind))
      rw [Option.bind_some, h.dims_eq, List.getElem?_map, List.getElem?_eq_getElem hlt,
        Option.map_some, Option.join_some, Option.map_some, h.position_eq e.2 hlt, Option.map_some]

/-! ## What a clone means -/

/-- Another schema has the same fields, and finds the same dimensions by their names. -/
structure SameMeaning (s c : XmlSchema) : Prop where
  pcid_eq : c.pcid = s.pcid
  srid_eq : c.srid = s.srid
  compression_eq : c.compression = s.compression
  dims_eq : c.dims = s.dims
  size_eq : c.size = s.size
  xdim_eq : c.xdim = s.xdim
  ydim_eq : c.ydim = s.ydim
  zdim_eq : c.zdim = s.zdim
  mdim_eq : c.mdim = s.mdim
  found_eq : ∀ name, (pcXmlSchemaGetDimensionByName c name).map XmlDimension.position =
    (pcXmlSchemaGetDimensionByName s name).map XmlDimension.position

/-- A clone means the same exactly if, of the dimensions with one name, the same is met
first in the order of the document and in that of the positions. -/
theorem pcSchemaClone_iff {root : Option XmlNode} {s : XmlSchema}
    (h : pcSchemaFromXml root = .ok (some s)) (pcid srid : Nat) :
    (∃ c, pcXmlSchemaClone { s with pcid := pcid, srid := srid } = .ok c ∧
      SameMeaning { s with pcid := pcid, srid := srid } c) ↔
      FirstAlike (namedDims (declared root)) (namedDims (s.dims.filterMap id)) := by
  obtain ⟨hpos, hnames, es, hcomplete, hperm⟩ := complete_of_pcSchemaFromXml h
  have hes : s.dims.filterMap id = es := by
    rw [hcomplete.dims_eq, List.filterMap_map]
    exact List.filterMap_some
  have hentries : (namedDims es).Perm (namedDims (declared root)) := by
    rw [← namedDims_bare, ← namedDims_bare (declared root)]
    exact hperm.filterMap _
  have hin : ∀ e ∈ namedDims es, e.2 < es.length := by
    intro e he
    obtain ⟨d, hd, -, hposition⟩ := mem_namedDims.mp he
    obtain ⟨i, hi, rfl⟩ := List.mem_iff_getElem.mp hd
    rwa [← hposition, hcomplete.position_eq i hi]
  have hset : Complete es { s with pcid := pcid, srid := srid } :=
    ⟨hcomplete.dims_eq, hcomplete.position_eq, hcomplete.laid_out, hcomplete.count_le,
      hcomplete.xdim_lt, hcomplete.ydim_lt, hcomplete.zdim_lt, hcomplete.mdim_lt⟩
  have hclone : Complete es { s with
      pcid := pcid, srid := srid, namehash := enterAll nameLimits (namedDims es) } :=
    ⟨hcomplete.dims_eq, hcomplete.position_eq, hcomplete.laid_out, hcomplete.count_le,
      hcomplete.xdim_lt, hcomplete.ydim_lt, hcomplete.zdim_lt, hcomplete.mdim_lt⟩
  have hfound := hset.position_getDimensionByName hnames fun e he =>
    hin e (hentries.mem_iff.mpr he)
  have hfound' := hclone.position_getDimensionByName rfl hin
  have hrun := pcXmlSchemaClone_ok hset
  rw [hes, ← lookup_eq_iff hentries (snd_namedDims_nodup hpos.nodup)]
  constructor
  · rintro ⟨c, hc, hsame⟩ name
    rw [hrun, Except.ok.injEq] at hc
    rw [← hfound, ← hfound', ← hsame.found_eq, ← hc]
  · intro hlookup
    refine ⟨_, hrun, rfl, rfl, rfl, rfl, rfl, rfl, rfl, rfl, rfl, fun name => ?_⟩
    rw [hfound, ← hlookup]
    exact hfound' name

/-- A y in front of an x, and a clone of the schema with an identifier. -/
theorem pcSchemaClone_iff_witness : ∃ c, pcXmlSchemaClone
    { twoDimensionsSchema (atof "0.01") with
      namehash := [("X", 0), ("Y", 1)], pcid := 3, srid := 4326 } = .ok c ∧
    SameMeaning { twoDimensionsSchema (atof "0.01") with
      namehash := [("X", 0), ("Y", 1)], pcid := 3, srid := 4326 } c := by
  have hread : pcSchemaFromXml (some (twoDimensions (declaredY "0.01") declaredX)) =
      .ok (some { twoDimensionsSchema (atof "0.01") with namehash := [("X", 0), ("Y", 1)] }) := by
    decide +kernel
  refine (pcSchemaClone_iff hread 3 4326).mpr ?_
  have hnames : namedDims (declared (some (twoDimensions (declaredY "0.01") declaredX))) =
      [("Y", 1), ("X", 0)] := by decide +kernel
  rw [hnames]
  exact firstAlike_of_distinct (by decide) (by decide) (by decide)

/-- A dimension element with a name, a type and a position. -/
def namedElement (name position : String) : XmlNode :=
  dimensionElement [textElement "name" name, textElement "interpretation" "uint8_t",
    textElement "position" position]

/-- A document with two names that differ in their case. -/
def twiceNamed : XmlNode :=
  .element (some "pc") "PointCloudSchema" [] [namedElement "i" "4", namedElement "X" "1",
    namedElement "Y" "2", namedElement "I" "3"]

/-- A dimension of one byte. -/
def byteDimension (name : String) (position : Nat) : XmlDimension :=
  { pcDimensionNew with
    name := some name, position := position, size := 1, byteoffset := position
    interpretation := .uint8 }

/-- The schema of the document. -/
def twiceNamedSchema : XmlSchema where
  pcid := 0
  srid := 0
  dims := [some (byteDimension "X" 0), some (byteDimension "Y" 1), some (byteDimension "I" 2),
    some (byteDimension "i" 3)]
  size := 4
  xdim := some 0
  ydim := some 1
  zdim := none
  mdim := none
  compression := .none
  namehash := [("I", 2), ("Y", 1), ("X", 0), ("i", 3)]

/-- The name is that of the third dimension in the schema, and of the fourth in its clone. -/
theorem pcSchemaClone_fails : pcSchemaFromXml (some twiceNamed) = .ok (some twiceNamedSchema) ∧
    (pcXmlSchemaGetDimensionByName twiceNamedSchema "I").map XmlDimension.position = some 2 ∧
    ∃ c, pcXmlSchemaClone twiceNamedSchema = .ok c ∧
      (pcXmlSchemaGetDimensionByName c "I").map XmlDimension.position = some 3 ∧
      ¬ SameMeaning twiceNamedSchema c := by
  have hfound : (pcXmlSchemaGetDimensionByName twiceNamedSchema "I").map XmlDimension.position =
      some 2 := by decide +kernel
  have hclone : pcXmlSchemaClone twiceNamedSchema =
      .ok { twiceNamedSchema with namehash := [("i", 3), ("I", 2), ("Y", 1), ("X", 0)] } := by
    decide +kernel
  have hfound' : (pcXmlSchemaGetDimensionByName { twiceNamedSchema with
      namehash := [("i", 3), ("I", 2), ("Y", 1), ("X", 0)] } "I").map XmlDimension.position =
      some 3 := by decide +kernel
  refine ⟨by decide +kernel, hfound, _, hclone, hfound', fun hsame => ?_⟩
  have heq := hfound'.symm.trans ((hsame.found_eq "I").trans hfound)
  exact absurd heq (by decide)

end Pointcloud
