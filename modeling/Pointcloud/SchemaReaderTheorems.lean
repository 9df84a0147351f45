/-
Pointcloud.SchemaReaderTheorems — which documents the schema reader gets through.

The reader follows the content of child elements, the names of types and the names of
metadata without a look at whether they are there. `pcSchemaFromXml_total_iff` says of
which documents nothing is missing that it reads: these it turns into nothing or into a
valid schema with every dimension in its place, and into nothing if a position is wrong.

At every level there is an equivalence for success, `… .isOk = true ↔ …`, with the
condition in terms of the document only: for the text of a value, for an entry, for
the children of a dimension, for the list of all dimensions, for the document. The
list is the difficult one. The reader stops at the first dimension whose place is
not free, and what stands behind it is never read, so that a fault there does
not occur. `addDimensions_outcome` is the induction that says so: on the dimensions
still to read, with those that have been read in front of them, whose places are
the ones taken (`Takes`). Success and the schema that comes of it are one statement
there, since the second element is read into what the first has left.

A document without dimensions is a case of its own: where the library for XML finds
no set of nodes, there is no schema to put the metadata into
(`readsTotally_iff_of_no_dimensions`).
-/
import Pointcloud.SchemaCloneTheorems

namespace Pointcloud

open Pointcloud.Base

/-! ## Values

A type is told by the first byte of its name and by one three or four bytes further on,
and the reader does not ask whether the name goes that far. -/

/-- The child elements whose values are read. -/
def valueNames : List String :=
  ["name", "description", "size", "active", "position", "interpretation", "scale", "offset"]

/-- The name of a type has as many characters as its first one makes the reader look at. -/
def LongEnough (c : String) : Prop :=
  ((cBytes c).headD 0 = 105 ∨ (cBytes c).headD 0 = 73 → 3 ≤ (cBytes c).length) ∧
    ((cBytes c).headD 0 = 117 ∨ (cBytes c).headD 0 = 85 → 4 ≤ (cBytes c).length)

/-- A value that is read is there, and a type can be told from it. -/
def ReadableEntry (entry : String × Option String) : Prop :=
  entry.1 ∈ valueNames → ∃ c, entry.2 = some c ∧ (entry.1 = "interpretation" → LongEnough c)

theorem byteAt_isOk_iff {c : String} {i : Nat} :
    (∃ b, byteAt c i = .ok b) ↔ i ≤ (cBytes c).length := by
  unfold byteAt
  split
  · next h => exact iff_of_true ⟨_, rfl⟩ (Nat.le_of_lt h)
  · split
    · next h => exact iff_of_true ⟨_, rfl⟩ (Nat.le_of_eq h)
    · exact iff_of_false (fun ⟨b, hb⟩ => fault_ne_ok b hb) (by omega)

theorem byteAt_zero (c : String) : byteAt c 0 = .ok ((cBytes c).headD 0) := by
  unfold byteAt
  cases cBytes c with
  | nil => rfl
  | cons b bs => rfl

theorem pcInterpretationNumber_isOk_iff (c : String) :
    (∃ i, pcInterpretationNumber c = .ok i) ↔ LongEnough c := by
  have hmap : ∀ (n : Nat) (f : UInt8 → Interpretation),
      (∃ i, (byteAt c n >>= fun b => (pure (f b) : Run Interpretation)) = .ok i) ↔
        n ≤ (cBytes c).length := by
    intro n f
    rw [← byteAt_isOk_iff]
    constructor
    · rintro ⟨i, hi⟩
      obtain ⟨b, hb, -⟩ := bind_eq_ok.mp hi
      exact ⟨b, hb⟩
    · rintro ⟨b, hb⟩
      rw [hb]
      exact ⟨_, rfl⟩
  unfold pcInterpretationNumber LongEnough
  rw [byteAt_zero, ok_bind]
  generalize (cBytes c).headD 0 = first
  split
  · next hsigned =>
      rw [hmap]
      refine ⟨fun h => ⟨fun _ => h, fun hunsigned => ?_⟩, fun h => h.1 hsigned⟩
      rcases hsigned with rfl | rfl <;> exact absurd hunsigned (by decide)
  · next hsigned =>
      split
      · next hunsigned =>
          rw [hmap]
          exact ⟨fun h => ⟨fun hs => absurd hs hsigned, fun _ => h⟩, fun h => h.2 hunsigned⟩
      · next hunsigned =>
          refine iff_of_true ?_ ⟨fun hs => absurd hs hsigned, fun hu => absurd hu hunsigned⟩
          split
          · exact ⟨_, rfl⟩
          · split
            · exact ⟨_, rfl⟩
            · exact ⟨_, rfl⟩

theorem pointee_bind_isOk_iff {α : Type} {content : Option String} {f : String → Run α} :
    (∃ a, (pointee content >>= f) = .ok a) ↔ ∃ c, content = some c ∧ ∃ a, f c = .ok a := by
  cases content with
  | none => exact iff_of_false (fun ⟨a, ha⟩ => fault_ne_ok a ha) (fun ⟨c, hc, _⟩ => nomatch hc)
  | some c =>
      constructor
      · rintro ⟨a, ha⟩
        exact ⟨c, rfl, a, ha⟩
      · rintro ⟨c', hc, a, ha⟩
        cases hc
        exact ⟨a, ha⟩

/-- A value of which nothing more is asked than to be there. -/
theorem plainValue_isOk_iff {tag : String} (hvalue : tag ∈ valueNames)
    (hplain : tag ≠ "interpretation") (content : Option String) (f : String → XmlDimension) :
    (∃ d', (pointee content >>= fun c => (pure (f c) : Run XmlDimension)) = .ok d') ↔
      ReadableEntry (tag, content) := by
  rw [pointee_bind_isOk_iff]
  constructor
  · rintro ⟨c, hc, -⟩ _
    exact ⟨c, hc, fun htype => absurd htype hplain⟩
  · intro h
    obtain ⟨c, hc, -⟩ := h hvalue
    exact ⟨c, hc, f c, rfl⟩

theorem readEntry_isOk_iff (d : XmlDimension) (entry : String × Option String) :
    (∃ d', readEntry d entry = .ok d') ↔ ReadableEntry entry := by
  obtain ⟨tag, content⟩ := entry
  unfold readEntry
  split
  · next heq => cases heq; exact plainValue_isOk_iff (by decide) (by decide) content _
  · next heq => cases heq; exact plainValue_isOk_iff (by decide) (by decide) content _
  · next heq => cases heq; exact plainValue_isOk_iff (by decide) (by decide) content fun _ => d
  · next heq => cases heq; exact plainValue_isOk_iff (by decide) (by decide) content _
  · next heq => cases heq; exact plainValue_isOk_iff (by decide) (by decide) content _
  · next heq =>
      cases heq
      rw [pointee_bind_isOk_iff]
      have htype : ∀ c, (∃ d', (pcInterpretationNumber c >>= fun i =>
          (pure { d with interpretation := i } : Run XmlDimension)) = .ok d') ↔ LongEnough c := by
        intro c
        rw [← pcInterpretationNumber_isOk_iff]
        constructor
        · rintro ⟨d', hd'⟩
          obtain ⟨i, hi, -⟩ := bind_eq_ok.mp hd'
          exact ⟨i, hi⟩
        · rintro ⟨i, hi⟩
          rw [hi]
          exact ⟨_, rfl⟩
      simp only [htype]
      constructor
      · rintro ⟨c, hc, hlong⟩ _
        exact ⟨c, hc, fun _ => hlong⟩
      · intro h
        obtain ⟨c, hc, hlong⟩ := h (by simp [valueNames])
        exact ⟨c, hc, hlong rfl⟩
  · next heq => cases heq; exact plainValue_isOk_iff (by decide) (by decide) content _
  · next heq => cases heq; exact plainValue_isOk_iff (by decide) (by decide) content _
  · next hname hdescription hsize hactive hposition htype hscale hoffset =>
      refine iff_of_true ⟨d, rfl⟩ fun hvalue => ?_
      simp only [valueNames, List.mem_cons, List.not_mem_nil, or_false] at hvalue
      rcases hvalue with h | h | h | h | h | h | h | h
      · exact absurd h hname
      · exact absurd h hdescription
      · exact absurd h hsize
      · exact absurd h hactive
      · exact absurd h hposition
      · exact absurd h htype
      · exact absurd h hscale
      · exact absurd h hoffset

/-! ## Dimensions

The entries of a dimension are read one after the other, so all of them must be
readable; the position is that of the last one that has it. -/

/-- All that is read of a dimension element is there. -/
def ReadableDimension (children : List XmlNode) : Prop :=
  ∀ entry ∈ entries children, ReadableEntry entry

theorem readDimension_isOk_iff (children : List XmlNode) :
    (∃ d, readDimension children = .ok d) ↔ ReadableDimension children :=
  foldlM_isOk_iff readEntry_isOk_iff _ _

/-- The position that an element declares, from 1 on: the number of its last value, and 1
without any. -/
def declaredPosition (children : List XmlNode) : Int :=
  ((lastEntry "position" (entries children)).map fun c => strtol c.toList).getD 1

/-- The place of the dimension: one less, in the 32 bits of the field. -/
def placeOf (children : List XmlNode) : Nat :=
  ((declaredPosition children - 1) % 4294967296).toNat

/-- Values other than a position leave the position as it is. -/
theorem position_of_other {d d' : XmlDimension} {entry : String × Option String}
    (hother : entry.1 ≠ "position") (h : readEntry d entry = .ok d') :
    d'.position = d.position := by
  obtain ⟨tag, content⟩ := entry
  unfold readEntry at h
  split at h
  · obtain ⟨c, -, hret⟩ := bind_eq_ok.mp h
    cases hret; rfl
  · obtain ⟨c, -, hret⟩ := bind_eq_ok.mp h
    cases hret; rfl
  · obtain ⟨c, -, hret⟩ := bind_eq_ok.mp h
    cases hret; rfl
  · obtain ⟨c, -, hret⟩ := bind_eq_ok.mp h
    cases hret; rfl
  · next heq => cases heq; exact absurd rfl hother
  · obtain ⟨c, -, hrest⟩ := bind_eq_ok.mp h
    obtain ⟨i, -, hret⟩ := bind_eq_ok.mp hrest
    cases hret; rfl
  · obtain ⟨c, -, hret⟩ := bind_eq_ok.mp h
    cases hret; rfl
  · obtain ⟨c, -, hret⟩ := bind_eq_ok.mp h
    cases hret; rfl
  · cases h; rfl

theorem position_of_readEntries : ∀ {es : List (String × Option String)} {d d' : XmlDimension},
    es.foldlM readEntry d = .ok d' →
      d'.position = ((lastEntry "position" es).map fun c =>
        ((strtol c.toList - 1) % 4294967296).toNat).getD d.position
  | [], d, d', h => by cases h; rfl
  | entry :: es, d, d', h => by
      obtain ⟨mid, hmid, hrest⟩ := bind_eq_ok.mp (List.foldlM_cons.symm.trans h)
      rw [position_of_readEntries hrest, lastEntry]
      cases lastEntry "position" es with
      | some c => rfl
      | none =>
          by_cases hposition : entry.1 = "position"
          · obtain ⟨tag, content⟩ := entry
            subst hposition
            obtain ⟨c, hc, hret⟩ := bind_eq_ok.mp hmid
            cases hret
            cases pointee_eq_ok hc
            have hcut : (atoi c - 1) % 4294967296 = (strtol c.toList - 1) % 4294967296 := by
              unfold atoi int32
              omega
            simp [hcut]
          · simp [hposition, position_of_other hposition hmid]

theorem position_of_readDimension {children : List XmlNode} {d : XmlDimension}
    (h : readDimension children = .ok d) : d.position = placeOf children := by
  rw [position_of_readEntries h, placeOf, declaredPosition]
  cases lastEntry "position" (entries children) with
  | none => rfl
  | some c => rfl

/-! ## Places

A dimension is read before its place is looked at. So the one that is refused has
been read as well, and those behind it have not (`ReadableAfter`). -/

/-- The dimensions have places of their own among the first `n`. -/
def PlacedApart (n : Nat) (elements : List (List XmlNode)) : Prop :=
  (elements.map placeOf).Nodup ∧ ∀ e ∈ elements, placeOf e < n

theorem placedApart_concat {n : Nat} {elements : List (List XmlNode)} {e : List XmlNode} :
    PlacedApart n (elements ++ [e]) ↔
      PlacedApart n elements ∧ placeOf e < n ∧ placeOf e ∉ elements.map placeOf := by
  simp only [PlacedApart, List.map_append, List.map_cons, List.map_nil, List.nodup_append,
    List.nodup_cons, List.not_mem_nil, not_false_eq_true, List.nodup_nil, List.mem_singleton,
    List.mem_append, or_imp, forall_and, forall_eq, and_true, true_and]
  constructor
  · rintro ⟨⟨hnodup, hapart⟩, hlt, hlast⟩
    exact ⟨⟨hnodup, hlt⟩, hlast, fun hmem => hapart _ hmem rfl⟩
  · rintro ⟨⟨hnodup, hlt⟩, hlast, hnew⟩
    exact ⟨⟨hnodup, fun p hp heq => hnew (heq ▸ hp)⟩, hlt, hlast⟩

theorem PlacedApart.of_append {n : Nat} {front back : List (List XmlNode)}
    (h : PlacedApart n (front ++ back)) : PlacedApart n front := by
  rw [PlacedApart, List.map_append] at h
  exact ⟨h.1.of_append_left, fun e he => h.2 e (List.mem_append_left back he)⟩

/-- Every element is readable that is reached: in front of it, all have places of their own. -/
def ReadableAfter (n : Nat) (before elements : List (List XmlNode)) : Prop :=
  ∀ front e back, elements = front ++ e :: back → PlacedApart n (before ++ front) →
    ReadableDimension e

theorem readableAfter_nil (n : Nat) (before : List (List XmlNode)) :
    ReadableAfter n before [] := by
  intro front e back h
  simp at h

theorem readableAfter_cons {n : Nat} {before elements : List (List XmlNode)} {e : List XmlNode}
    (h : PlacedApart n before) : ReadableAfter n before (e :: elements) ↔
      ReadableDimension e ∧
        (PlacedApart n (before ++ [e]) → ReadableAfter n (before ++ [e]) elements) := by
  constructor
  · intro hall
    refine ⟨hall [] e elements rfl (by rwa [List.append_nil]), fun _ front e' back heq hapart => ?_⟩
    refine hall (e :: front) e' back (by rw [heq, List.cons_append]) ?_
    rwa [List.append_assoc] at hapart
  · rintro ⟨he, hrest⟩ front e' back heq hapart
    cases front with
    | nil =>
        cases heq
        exact he
    | cons e'' front =>
        cases heq
        rw [← List.singleton_append, ← List.append_assoc] at hapart
        exact hrest hapart.of_append front e' back rfl hapart

/-- The places that are taken are those of the elements so far. -/
structure Takes (n : Nat) (before : List (List XmlNode)) (s : XmlSchema) : Prop where
  length_eq : s.dims.length = n
  taken_iff : ∀ p, (∃ d, s.dims[p]? = some (some d)) ↔ p ∈ before.map placeOf

theorem takes_new (n : Nat) : Takes n [] (pcSchemaNew n) := by
  refine ⟨List.length_replicate, fun p => iff_of_false (fun ⟨d, hd⟩ => ?_) (by simp)⟩
  exact nomatch List.eq_of_mem_replicate (List.mem_of_getElem? hd)

theorem Takes.set {n : Nat} {before : List (List XmlNode)} {s : XmlSchema}
    (h : Takes n before s) {e : List XmlNode} {d : XmlDimension} (hd : d.position = placeOf e)
    (hlt : placeOf e < n) : Takes n (before ++ [e]) (pcSchemaSetDimension s d) := by
  refine ⟨List.length_set.trans h.length_eq, fun p => ?_⟩
  have hdims : (pcSchemaSetDimension s d).dims = s.dims.set (placeOf e) (some d) := by
    rw [← hd]
    rfl
  rw [hdims, List.map_append, List.map_singleton, List.mem_append, List.mem_singleton,
    ← h.taken_iff]
  by_cases hp : p = placeOf e
  · subst hp
    rw [List.getElem?_set_self (by rw [h.length_eq]; exact hlt)]
    simp
  · rw [List.getElem?_set_ne (Ne.symm hp)]
    simp [hp]

/-- The elements are read up to the first one that is out of place. -/
theorem addDimensions_outcome {n : Nat} : ∀ (elements before : List (List XmlNode)) (s : XmlSchema),
    Takes n before s → PlacedApart n before →
      ((∃ r, addDimensions elements s = .ok r) ↔ ReadableAfter n before elements) ∧
        ∀ r, addDimensions elements s = .ok r →
          ((∃ s', r = some s' ∧ Takes n (before ++ elements) s') ∧
              PlacedApart n (before ++ elements) ∨
            r = none ∧ ¬ PlacedApart n (before ++ elements))
  | [], before, s, htakes, hapart => by
      refine ⟨iff_of_true ⟨_, rfl⟩ (readableAfter_nil n before), fun r hr => ?_⟩
      cases hr
      rw [List.append_nil]
      exact .inl ⟨⟨s, rfl, htakes⟩, hapart⟩
  | e :: elements, before, s, htakes, hapart => by
      rw [readableAfter_cons hapart, ← readDimension_isOk_iff]
      have hsplit : before ++ e :: elements = before ++ [e] ++ elements := by simp
      have hfree : PlacedApart n (before ++ [e]) ↔ s.dims[placeOf e]? = some none := by
        rw [placedApart_concat, ← htakes.taken_iff]
        constructor
        · rintro ⟨-, hlt, hnone⟩
          obtain ⟨o, ho⟩ : ∃ o, s.dims[placeOf e]? = some o :=
            ⟨_, List.getElem?_eq_getElem (by rw [htakes.length_eq]; exact hlt)⟩
          cases o with
          | none => exact ho
          | some d => exact absurd ⟨d, ho⟩ hnone
        · intro hnone
          have hlt := (List.getElem?_eq_some_iff.mp hnone).1
          rw [htakes.length_eq] at hlt
          refine ⟨hapart, hlt, fun ⟨d, hd⟩ => ?_⟩
          rw [hnone] at hd
          exact nomatch hd
      by_cases hread : ∃ d, readDimension e = .ok d
      · obtain ⟨d, hd⟩ := hread
        have hposition := position_of_readDimension hd
        by_cases hplace : s.dims[placeOf e]? = some none
        · have hrun : addDimensions (e :: elements) s =
              addDimensions elements (pcSchemaSetDimension s d) := by
            rw [addDimensions, hd, ok_bind, hposition, hplace]
          have hnext := hfree.mpr hplace
          have hlt := (placedApart_concat.mp hnext).2.1
          obtain ⟨hok, hresult⟩ :=
            addDimensions_outcome elements (before ++ [e]) _ (htakes.set hposition hlt) hnext
          rw [hrun, hsplit]
          refine ⟨?_, hresult⟩
          rw [hok]
          exact ⟨fun h => ⟨⟨d, hd⟩, fun _ => h⟩, fun h => h.2 hnext⟩
        · have hrun : addDimensions (e :: elements) s = .ok none := by
            rw [addDimensions, hd, ok_bind, hposition]
            split
            · rfl
            · rfl
            · next heq => exact absurd heq hplace
          rw [hrun, hsplit]
          refine ⟨iff_of_true ⟨none, rfl⟩ ⟨⟨d, hd⟩, fun hnext => absurd (hfree.mp hnext) hplace⟩,
            fun r hr => ?_⟩
          cases hr
          exact .inr ⟨rfl, fun hall => hplace (hfree.mp hall.of_append)⟩
      · have hno : ∀ r, addDimensions (e :: elements) s ≠ .ok r := by
          intro r hr
          obtain ⟨d, hd, -⟩ := bind_eq_ok.mp hr
          exact hread ⟨d, hd⟩
        exact ⟨iff_of_false (fun ⟨r, hr⟩ => hno r hr) fun h => hread h.1,
          fun r hr => absurd hr (hno r)⟩

/-- All elements are read into a new schema. -/
theorem addDimensions_new (elements : List (List XmlNode)) :
    ((∃ r, addDimensions elements (pcSchemaNew elements.length) = .ok r) ↔
        ReadableAfter elements.length [] elements) ∧
      ∀ r, addDimensions elements (pcSchemaNew elements.length) = .ok r →
        ((∃ s, r = some s ∧ Takes elements.length elements s) ∧
            PlacedApart elements.length elements ∨
          r = none ∧ ¬ PlacedApart elements.length elements) :=
  addDimensions_outcome elements [] _ (takes_new _) ⟨List.nodup_nil, by simp⟩

/-- As many dimensions as places, apart from each other, take all of them. -/
theorem PlacedApart.all_taken {elements : List (List XmlNode)} {s : XmlSchema}
    (h : PlacedApart elements.length elements) (htakes : Takes elements.length elements s) :
    ∃ ds : List XmlDimension, s.dims = ds.map some := by
  refine exists_map_some fun o ho => ?_
  obtain ⟨p, hp, rfl⟩ := List.mem_iff_getElem.mp ho
  rw [htakes.length_eq] at hp
  have hperm : (elements.map placeOf).Perm (List.range elements.length) := by
    refine (h.1.subperm fun p hp => ?_).perm_of_length_le (by simp)
    obtain ⟨e, he, rfl⟩ := List.mem_map.mp hp
    exact List.mem_range.mpr (h.2 e he)
  obtain ⟨d, hd⟩ := (htakes.taken_iff p).mpr (hperm.mem_iff.mpr (List.mem_range.mpr hp))
  exact ⟨d, (List.getElem_eq_iff _).mpr hd⟩

/-! ## Names

Some dimension must be named as x, and some as y. The lists of names have none in
common, so a name sets one coordinate. -/

/-- One of the names is that of a coordinate. -/
def Names (tags : List String) (names : List (Option String)) : Prop :=
  ∃ name, some name ∈ names ∧ tags.any (sameName name) = true

theorem names_cons_none {tags : List String} {names : List (Option String)} :
    Names tags (none :: names) ↔ Names tags names := by
  simp [Names]

theorem names_cons_some {tags : List String} {names : List (Option String)} {name : String} :
    Names tags (some name :: names) ↔ tags.any (sameName name) = true ∨ Names tags names := by
  simp only [Names, List.mem_cons, Option.some.injEq, or_and_right, exists_or, exists_eq_left]

/-- No name is both an x and a y. -/
theorem not_xNames_of_yNames {name : String} (h : yNames.any (sameName name) = true) :
    xNames.any (sameName name) = false := by
  obtain ⟨y, hy, hsame⟩ := List.any_eq_true.mp h
  rw [show sameName name = sameName y from funext (sameName_congr hsame)]
  simp only [yNames, List.mem_cons, List.not_mem_nil, or_false] at hy
  rcases hy with rfl | rfl | rfl <;> decide

theorem xdim_checkName (s : XmlSchema) (i : Nat) (name : String) :
    (checkName s i name).xdim.isSome ↔ s.xdim.isSome ∨ xNames.any (sameName name) = true := by
  unfold checkName
  split_ifs with hx <;> simp [hx]

theorem ydim_checkName (s : XmlSchema) (i : Nat) (name : String) :
    (checkName s i name).ydim.isSome ↔ s.ydim.isSome ∨ yNames.any (sameName name) = true := by
  have hdisjoint := @not_xNames_of_yNames name
  unfold checkName
  split_ifs with hx hy
  · have hy : ¬ yNames.any (sameName name) = true := fun hy =>
      absurd hx (by rw [hdisjoint hy]; exact Bool.false_ne_true)
    simp [hy]
  all_goals simp [hy]

/-- If no dimension is missing, the coordinates are those that are named. -/
theorem checkXyzm_ok : ∀ (ds : List XmlDimension) (i : Nat) (s : XmlSchema),
    ∃ s', checkXyzm i (ds.map some) s = .ok s' ∧
      (s'.xdim.isSome ↔ s.xdim.isSome ∨ Names xNames (ds.map XmlDimension.name)) ∧
      (s'.ydim.isSome ↔ s.ydim.isSome ∨ Names yNames (ds.map XmlDimension.name))
  | [], i, s => ⟨s, rfl, by simp [Names], by simp [Names]⟩
  | d :: ds, i, s => by
      rw [List.map_cons, List.map_cons, checkXyzm]
      cases d.name with
      | none =>
          obtain ⟨s', hs', hx, hy⟩ := checkXyzm_ok ds (i + 1) s
          exact ⟨s', hs', by rw [hx, names_cons_none], by rw [hy, names_cons_none]⟩
      | some name =>
          obtain ⟨s', hs', hx, hy⟩ := checkXyzm_ok ds (i + 1) (checkName s i name)
          refine ⟨s', hs', ?_, ?_⟩
          · rw [hx, xdim_checkName, names_cons_some, or_assoc]
          · rw [hy, ydim_checkName, names_cons_some, or_assoc]

/-! ## Metadata

The name of a metadata entry is compared without asking whether there is one. -/

/-- A metadata element with a name. -/
def NamedMetadata (m : List (String × String) × List XmlNode) : Prop :=
  ∃ name, m.1.lookup "name" = some name

theorem readMetadata_ok (s : XmlSchema) (m : List (String × String) × List XmlNode) :
    (∃ s', readMetadata s m = .ok s') ↔ NamedMetadata m := by
  unfold readMetadata NamedMetadata
  split
  · next h => exact iff_of_false (fun ⟨s', hs'⟩ => fault_ne_ok s' hs') (by simp [h])
  · next h => exact iff_of_true ⟨_, rfl⟩ ⟨_, h⟩
  · next h => exact iff_of_true ⟨_, rfl⟩ ⟨_, h⟩

/-- Metadata leaves the dimensions and the coordinates alone. -/
theorem coordinates_of_readMetadata :
    ∀ {metadata : List (List (String × String) × List XmlNode)} {s s' : XmlSchema},
      metadata.foldlM readMetadata s = .ok s' →
        s'.dims = s.dims ∧ s'.xdim = s.xdim ∧ s'.ydim = s.ydim
  | [], s, s', h => by cases h; exact ⟨rfl, rfl, rfl⟩
  | m :: metadata, s, s', h => by
      obtain ⟨mid, hmid, hrest⟩ := bind_eq_ok.mp (List.foldlM_cons.symm.trans h)
      have hsame : mid.dims = s.dims ∧ mid.xdim = s.xdim ∧ mid.ydim = s.ydim := by
        unfold readMetadata at hmid
        split at hmid
        · exact absurd hmid (fault_ne_ok mid)
        · cases hmid; exact ⟨rfl, rfl, rfl⟩
        · cases hmid; exact ⟨rfl, rfl, rfl⟩
      obtain ⟨hdims, hx, hy⟩ := coordinates_of_readMetadata hrest
      exact ⟨hdims.trans hsame.1, hx.trans hsame.2.1, hy.trans hsame.2.2⟩

theorem readMetadataWithout_ok (m : List (String × String) × List XmlNode) :
    (∃ v, readMetadataWithout m = .ok v) ↔
      NamedMetadata m ∧ m.1.lookup "name" ≠ some "compression" := by
  unfold readMetadataWithout NamedMetadata
  split
  · next h => simp [h, fault_ne_ok]
  · next h => simp [h, fault_ne_ok]
  · next name hne h =>
      exact iff_of_true ⟨(), rfl⟩ ⟨⟨name, h⟩, fun heq => hne (Option.some.inj (h.symm.trans heq))⟩

/-! ## Documents

The reader is these parts in order, and it gets through when it gets through each
of those that it comes to. -/

theorem pcSchemaFromXml_of_parts {root : Option XmlNode} {elements : List (List XmlNode)}
    {metadata : List (List (String × String) × List XmlNode)}
    (h : documentParts root = some (elements, metadata)) :
    declaredDimensions root = elements ∧
      pcSchemaFromXml root = (addDimensions elements (pcSchemaNew elements.length) >>= fun
        | none => pure none
        | some s => do
            let s ← pcSchemaCheckXyzm (pcSchemaCalculateByteoffsets s)
            let s ← metadata.foldlM readMetadata s
            return if pcSchemaIsValid s then some s else none) := by
  unfold documentParts at h
  split at h
  · next ns name attributes children =>
      obtain ⟨elements', helements, heq⟩ := Option.map_eq_some_iff.mp h
      cases heq
      constructor
      · unfold nodeSet at helements
        split_ifs at helements
        exact Option.some.inj helements
      · dsimp only [pcSchemaFromXml]
        generalize nodeSet (dimensionElements (some ns) name children) = found at helements ⊢
        subst helements
        rfl
  · exact nomatch h

theorem pcSchemaFromXml_of_none {root : Option XmlNode} (h : documentParts root = none) :
    pcSchemaFromXml root = .ok none := by
  unfold documentParts at h
  unfold pcSchemaFromXml
  split at h
  · rw [Option.map_eq_none_iff.mp h]
  · rfl

/-- The names of the dimensions, if they have any. -/
def namesOf (elements : List (List XmlNode)) : List (Option String) :=
  elements.map fun e => lastEntry "name" (entries e)

section Checking

variable {elements : List (List XmlNode)} {s : XmlSchema}
  (hadded : addDimensions elements (pcSchemaNew elements.length) = .ok (some s))
  (htakes : Takes elements.length elements s) (hapart : PlacedApart elements.length elements)

include hadded htakes hapart

/-- Dimensions that are all in place can be looked through for the coordinates. -/
theorem checked_of_addDimensions :
    ∃ s' es, pcSchemaCheckXyzm (pcSchemaCalculateByteoffsets s) = .ok s' ∧
      s'.dims = List.map (some : XmlDimension → _) es ∧ es.length = elements.length ∧
      (s'.xdim.isSome ↔ Names xNames (namesOf elements)) ∧
      (s'.ydim.isSome ↔ Names yNames (namesOf elements)) := by
  obtain ⟨ds, hds⟩ := hapart.all_taken htakes
  obtain ⟨es, hes, hbare⟩ := calculateByteoffsets_map_some ds 0
  obtain ⟨hplace, -, hread, -, hfrom⟩ := addDimensions_ok hadded (inPlace_new _)
  have hlength : es.length = elements.length := by
    rw [← htakes.length_eq, hds, List.length_map, ← List.length_map XmlDimension.bare, hbare,
      List.length_map]
  have hnames : es.map XmlDimension.name = ds.map XmlDimension.name := by
    have hmap := congrArg (List.map XmlDimension.name) hbare
    rwa [List.map_map, List.map_map] at hmap
  have hname : ∀ {e d}, readDimension e = .ok d → d.name = lastEntry "name" (entries e) := by
    intro e d hd
    rw [(readEntries_ok hd).name_eq]
    exact Option.or_none
  -- a name is that of a dimension exactly if it is that of an element
  have hsame : ∀ tags, Names tags (es.map XmlDimension.name) ↔ Names tags (namesOf elements) := by
    intro tags
    refine exists_congr fun name => and_congr_left fun _ => ?_
    rw [hnames, namesOf, List.mem_map, List.mem_map]
    constructor
    · rintro ⟨d, hd, hdname⟩
      rcases hfrom d (hds ▸ List.mem_map_of_mem hd) with hnew | ⟨e, he, hed⟩
      · exact nomatch List.eq_of_mem_replicate hnew
      · exact ⟨e, he, (hname hed).symm.trans hdname⟩
    · rintro ⟨e, he, hename⟩
      obtain ⟨d, hed, hd⟩ := hread e he
      rw [hds] at hd
      obtain ⟨d', hd', heq⟩ := List.mem_map.mp hd
      cases heq
      exact ⟨d, hd', (hname hed).trans hename⟩
  have hnew : (pcSchemaCalculateByteoffsets s).xdim = none ∧
      (pcSchemaCalculateByteoffsets s).ydim = none := hplace.unknown
  have hdims : (pcSchemaCalculateByteoffsets s).dims = es.map some := by
    rw [pcSchemaCalculateByteoffsets, hds, hes]
  obtain ⟨s', hs', hx, hy⟩ := checkXyzm_ok es 0 (pcSchemaCalculateByteoffsets s)
  refine ⟨s', es, by rw [pcSchemaCheckXyzm, hdims, hs'], ?_, hlength, ?_, ?_⟩
  · rw [← hdims]
    refine (checkXyzm_rechecked (n := es.length) ?_ hs').dims_eq
    rw [List.length_map, Nat.zero_add]
  · rw [hx, hnew.1, ← hsame]
    simp
  · rw [hy, hnew.2, ← hsame]
    simp

end Checking

/-- What has to be there in a document: the values of the dimensions up to the first one that
is out of place, and after those the names of the metadata. -/
structure NothingMissing (elements : List (List XmlNode))
    (metadata : List (List (String × String) × List XmlNode)) : Prop where
  readable : ReadableAfter elements.length [] elements
  named : PlacedApart elements.length elements → ∀ m ∈ metadata, NamedMetadata m

section Reading

variable {root : Option XmlNode} {elements : List (List XmlNode)}
  {metadata : List (List (String × String) × List XmlNode)}
  (hparts : documentParts root = some (elements, metadata))

include hparts

theorem pcSchemaFromXml_isOk_iff :
    (∃ r, pcSchemaFromXml root = .ok r) ↔ NothingMissing elements metadata := by
  obtain ⟨hok, houtcome⟩ := addDimensions_new elements
  rw [(pcSchemaFromXml_of_parts hparts).2]
  constructor
  · rintro ⟨r, hr⟩
    obtain ⟨added, hadded, hrest⟩ := bind_eq_ok.mp hr
    refine ⟨hok.mp ⟨added, hadded⟩, fun hapart => ?_⟩
    rcases houtcome added hadded with ⟨⟨s, rfl, -⟩, -⟩ | ⟨-, hnot⟩
    · obtain ⟨s₁, -, hrest⟩ := bind_eq_ok.mp hrest
      obtain ⟨s₂, hs₂, -⟩ := bind_eq_ok.mp hrest
      exact (foldlM_isOk_iff readMetadata_ok metadata s₁).mp ⟨s₂, hs₂⟩
    · exact absurd hapart hnot
  · rintro ⟨hreadable, hnamed⟩
    obtain ⟨added, hadded⟩ := hok.mpr hreadable
    rw [hadded, ok_bind]
    rcases houtcome added hadded with ⟨⟨s, rfl, htakes⟩, hapart⟩ | ⟨rfl, -⟩
    · obtain ⟨s₁, -, hs₁, -⟩ := checked_of_addDimensions hadded htakes hapart
      obtain ⟨s₂, hs₂⟩ := (foldlM_isOk_iff readMetadata_ok metadata s₁).mpr (hnamed hapart)
      simp only [hs₁, ok_bind, hs₂]
      exact ⟨_, rfl⟩
    · exact ⟨none, rfl⟩

/-- A schema is made if all dimensions have places of their own and there is an x and a y. -/
theorem pcSchemaFromXml_isSome_iff {r : Option XmlSchema} (h : pcSchemaFromXml root = .ok r) :
    r.isSome ↔ PlacedApart elements.length elements ∧ Names xNames (namesOf elements) ∧
      Names yNames (namesOf elements) := by
  obtain ⟨-, houtcome⟩ := addDimensions_new elements
  rw [(pcSchemaFromXml_of_parts hparts).2] at h
  obtain ⟨added, hadded, hrest⟩ := bind_eq_ok.mp h
  rcases houtcome added hadded with ⟨⟨s, rfl, htakes⟩, hapart⟩ | ⟨rfl, hnot⟩
  · obtain ⟨s₁, es, hs₁, hdims, hlength, hx, hy⟩ := checked_of_addDimensions hadded htakes hapart
    obtain ⟨s₁', hs₁', hrest⟩ := bind_eq_ok.mp hrest
    cases hs₁.symm.trans hs₁'
    obtain ⟨s₂, hs₂, hret⟩ := bind_eq_ok.mp hrest
    obtain ⟨hdims₂, hx₂, hy₂⟩ := coordinates_of_readMetadata hs₂
    cases hret
    have hall : s₂.dims.all Option.isSome = true := by
      rw [hdims₂, hdims]
      simp
    have hfilled : s₂.xdim.isSome → s₂.dims.isEmpty = false := by
      intro hsome
      obtain ⟨name, hname, -⟩ := hx.mp (hx₂ ▸ hsome)
      have hne : elements ≠ [] := fun hnil => by
        rw [hnil] at hname
        exact nomatch hname
      rw [hdims₂, hdims, List.isEmpty_eq_false_iff, ← List.length_pos_iff, List.length_map, hlength]
      exact List.length_pos_iff.mpr hne
    have hvalid : pcSchemaIsValid s₂ = true ↔ s₂.xdim.isSome ∧ s₂.ydim.isSome := by
      simp only [pcSchemaIsValid, hall, Bool.and_eq_true, and_true, Bool.not_eq_true']
      exact ⟨fun hv => hv.1, fun hxy => ⟨hxy, hfilled hxy.1⟩⟩
    rw [← hx, ← hy, ← hx₂, ← hy₂, ← hvalid]
    by_cases hv : pcSchemaIsValid s₂ = true <;> simp [hv, hapart]
  · cases hrest
    simp [hnot]

end Reading

/-! ## The reader

What is expected of it, that it returns for every document, against what it does. -/

/-- The declared positions are those of the dimensions, from 1 on. -/
def InRange (elements : List (List XmlNode)) : Prop :=
  ∀ e ∈ elements, 1 ≤ declaredPosition e ∧ declaredPosition e ≤ elements.length

/-- The reader gets through a document. A schema is valid, and has what was read of a
dimension at the position it declares; no schema is made if a position is wrong. -/
structure ReadsTotally (nosets : Bool) (root : Option XmlNode) : Prop where
  returns : ∃ r, pcSchemaFromXmlOver nosets root = .ok r
  valid : ∀ s, pcSchemaFromXmlOver nosets root = .ok (some s) → pcSchemaIsValid s = true ∧
    ∀ e ∈ declaredDimensions root, 1 ≤ declaredPosition e ∧
      ∃ d d', readDimension e = .ok d ∧
        s.dims[(declaredPosition e - 1).toNat]? = some (some d') ∧ d'.bare = d.bare
  rejects : ¬ InRange (declaredDimensions root) ∨
      ¬ ((declaredDimensions root).map declaredPosition).Nodup →
    pcSchemaFromXmlOver nosets root = .ok none

/-- Nothing that is read is missing, a document without dimensions sets no compression where
that leaves no schema, and no position is one only in its last 32 bits. -/
structure ReadableParts (nosets : Bool) (elements : List (List XmlNode))
    (metadata : List (List (String × String) × List XmlNode)) : Prop where
  nothing_missing : NothingMissing elements metadata
  schema_there : nosets = true → elements = [] →
    ∀ m ∈ metadata, m.1.lookup "name" ≠ some "compression"
  in_range : PlacedApart elements.length elements → Names xNames (namesOf elements) →
    Names yNames (namesOf elements) → InRange elements

theorem pcSchemaFromXmlOver_of_ne {nosets : Bool} {root : Option XmlNode}
    (h : ∀ metadata, documentParts root = some ([], metadata) → nosets = false) :
    pcSchemaFromXmlOver nosets root = pcSchemaFromXml root := by
  unfold pcSchemaFromXmlOver
  split
  · next metadata hparts => exact absurd (h metadata hparts) (by decide)
  · rfl

section Reading

variable {root : Option XmlNode} {elements : List (List XmlNode)}
  {metadata : List (List (String × String) × List XmlNode)}
  (hparts : documentParts root = some (elements, metadata))

include hparts

/-- The dimensions of a schema stand where their elements say, if the positions are true. -/
theorem stored_of_pcSchemaFromXml {s : XmlSchema} (h : pcSchemaFromXml root = .ok (some s))
    (hrange : InRange elements) : ∀ e ∈ elements, 1 ≤ declaredPosition e ∧
      ∃ d d', readDimension e = .ok d ∧
        s.dims[(declaredPosition e - 1).toNat]? = some (some d') ∧ d'.bare = d.bare := by
  obtain ⟨s₀, hplace, -, hread, -, -, -, hdims, -⟩ := dims_of_pcSchemaFromXml h
  have hcount := (pcSchemaFromXml_ok h).1
  rw [(pcSchemaFromXml_of_parts hparts).1] at hread hcount
  intro e he
  obtain ⟨hlower, hupper⟩ := hrange e he
  obtain ⟨d, hd, hmem⟩ := hread e he
  obtain ⟨i, hi⟩ := List.mem_iff_getElem?.mp hmem
  have hposition := hplace.position_eq i d hi
  rw [position_of_readDimension hd, placeOf, Int.emod_eq_of_lt (by omega) (by omega)] at hposition
  have hat := hdims i
  rw [hi, Option.map_some, Option.map_some] at hat
  exact ⟨hlower, d, { d with
    byteoffset := uint32 (widthSum (s₀.dims.take i))
    size := uint32 d.interpretation.size }, hd, by rw [hposition, hat], rfl⟩

/-- A schema that is made has its positions in range, and each only once. -/
theorem not_isSome_of_bad_positions {r : Option XmlSchema} (h : pcSchemaFromXml root = .ok r)
    (hrange : PlacedApart elements.length elements → Names xNames (namesOf elements) →
      Names yNames (namesOf elements) → InRange elements)
    (hbad : ¬ InRange elements ∨ ¬ (elements.map declaredPosition).Nodup) : r = none := by
  refine Option.not_isSome_iff_eq_none.mp fun hsome => ?_
  obtain ⟨hapart, hx, hy⟩ := (pcSchemaFromXml_isSome_iff hparts h).mp hsome
  rcases hbad with hbad | hbad
  · exact hbad (hrange hapart hx hy)
  · refine hbad (List.Nodup.of_map (fun p : Int => ((p - 1) % 4294967296).toNat) ?_)
    rw [List.map_map]
    exact hapart.1

theorem readsTotally_iff_of_parts {nosets : Bool} (h : elements = [] → nosets = false) :
    ReadsTotally nosets root ↔ ReadableParts nosets elements metadata := by
  have hover : pcSchemaFromXmlOver nosets root = pcSchemaFromXml root := by
    refine pcSchemaFromXmlOver_of_ne fun metadata' hparts' => h ?_
    rw [hparts] at hparts'
    exact congrArg Prod.fst (Option.some.inj hparts')
  have hdeclared := (pcSchemaFromXml_of_parts hparts).1
  constructor
  · rintro ⟨hreturns, -, hrejects⟩
    rw [hover] at hreturns hrejects
    refine ⟨(pcSchemaFromXml_isOk_iff hparts).mp hreturns, fun hsets hnil => ?_,
      fun hapart hx hy => ?_⟩
    · exact absurd (hsets.symm.trans (h hnil)) (by decide)
    · by_contra hrange
      have hnone := hrejects (.inl (hdeclared ▸ hrange))
      exact absurd ((pcSchemaFromXml_isSome_iff hparts hnone).mpr ⟨hapart, hx, hy⟩) (by decide)
  · rintro ⟨hmissing, -, hrange⟩
    obtain ⟨r, hr⟩ := (pcSchemaFromXml_isOk_iff hparts).mpr hmissing
    refine ⟨⟨r, hover.trans hr⟩, fun s hs => ?_, fun hbad => ?_⟩
    · rw [hover] at hs
      obtain ⟨hapart, hx, hy⟩ := (pcSchemaFromXml_isSome_iff hparts hs).mp rfl
      rw [hdeclared]
      exact ⟨(pcSchemaFromXml_ok hs).2.1, stored_of_pcSchemaFromXml hparts hs (hrange hapart hx hy)⟩
    · rw [hdeclared] at hbad
      rw [hover, hr, not_isSome_of_bad_positions hparts hr hrange hbad]

end Reading

/-- Without a schema, only the metadata is left to be read. -/
theorem readsTotally_iff_of_no_dimensions {root : Option XmlNode}
    {metadata : List (List (String × String) × List XmlNode)}
    (hparts : documentParts root = some ([], metadata)) :
    ReadsTotally true root ↔ ReadableParts true [] metadata := by
  have hover : pcSchemaFromXmlOver true root =
      (metadata.foldlM (fun _ => readMetadataWithout) () >>= fun _ => pure none) := by
    unfold pcSchemaFromXmlOver
    rw [hparts]
  have hok := foldlM_isOk_iff (f := fun (_ : Unit) => readMetadataWithout)
    (fun _ => readMetadataWithout_ok) metadata ()
  have hnames : ∀ tags, ¬ Names tags (namesOf []) := fun tags ⟨name, hname, _⟩ => nomatch hname
  constructor
  · rintro ⟨⟨r, hr⟩, -, -⟩
    rw [hover] at hr
    obtain ⟨u, hu, -⟩ := bind_eq_ok.mp hr
    have hnamed := hok.mp ⟨u, hu⟩
    exact ⟨⟨readableAfter_nil _ _, fun _ m hm => (hnamed m hm).1⟩, fun _ _ m hm => (hnamed m hm).2,
      fun _ hx => absurd hx (hnames _)⟩
  · rintro ⟨⟨-, hnamed⟩, hthere, -⟩
    have hapart : PlacedApart ([] : List (List XmlNode)).length [] := ⟨List.nodup_nil, by simp⟩
    obtain ⟨u, hu⟩ := hok.mpr fun m hm => ⟨hnamed hapart m hm, hthere rfl rfl m hm⟩
    have hnone : pcSchemaFromXmlOver true root = .ok none := by
      rw [hover, hu]
      rfl
    exact ⟨⟨none, hnone⟩, fun s hs => (nomatch hnone.symm.trans hs), fun _ => hnone⟩

/-- The reader gets through a document exactly if nothing that it reads is missing and no
position that it accepts is out of range. -/
theorem pcSchemaFromXml_total_iff (nosets : Bool) (root : Option XmlNode) :
    ReadsTotally nosets root ↔ ∀ elements metadata,
      documentParts root = some (elements, metadata) → ReadableParts nosets elements metadata := by
  cases hparts : documentParts root with
  | none =>
      have hover : pcSchemaFromXmlOver nosets root = .ok none := by
        rw [pcSchemaFromXmlOver_of_ne (by simp [hparts]), pcSchemaFromXml_of_none hparts]
      have htotal : ReadsTotally nosets root :=
        ⟨⟨none, hover⟩, fun s hs => (nomatch hover.symm.trans hs), fun _ => hover⟩
      exact iff_of_true htotal nofun
  | some parts =>
      obtain ⟨elements, metadata⟩ := parts
      have hboth : ReadsTotally nosets root ↔ ReadableParts nosets elements metadata := by
        cases nosets with
        | false => exact readsTotally_iff_of_parts hparts fun _ => rfl
        | true =>
            cases elements with
            | nil => exact readsTotally_iff_of_no_dimensions hparts
            | cons e elements => exact readsTotally_iff_of_parts hparts nofun
      rw [hboth]
      simp

/-- A document with two dimensions, and metadata that has no name. -/
def namelessMetadata : XmlNode :=
  .element (some "pc") "PointCloudSchema" [] [dimensionElement declaredX,
    dimensionElement (declaredY "0.01"),
    .element (some "pc") "metadata" [] [.element none "Metadata" [] [.text "dimensional"]]]

/-- A document whose first dimension has a name that is an element. -/
def elementName : XmlNode :=
  twoDimensions [.element (some "pc") "name" [] [.element (some "pc") "X" [] []]] (declaredY "0.01")

/-- A document whose first position is not below 2^32. -/
def farPosition : XmlNode :=
  twoDimensions [textElement "name" "X", textElement "interpretation" "int32_t",
    textElement "position" "4294967297"] (declaredY "0.01")

/-- The null pointer is read where a name is missing, and the position is taken for a 1. -/
theorem pcSchemaFromXml_partial :
    pcSchemaFromXmlOver false (some namelessMetadata) = fault ∧
      pcSchemaFromXmlOver false (some elementName) = fault ∧
      pcSchemaFromXmlOver false (some farPosition) =
        .ok (some (twoDimensionsSchema (atof "0.01"))) ∧
      ¬ ReadsTotally false (some namelessMetadata) ∧ ¬ ReadsTotally false (some elementName) ∧
      ¬ ReadsTotally false (some farPosition) := by
  have hmetadata : pcSchemaFromXmlOver false (some namelessMetadata) = fault := by decide +kernel
  have hname : pcSchemaFromXmlOver false (some elementName) = fault := by decide +kernel
  have hposition : pcSchemaFromXmlOver false (some farPosition) =
      .ok (some (twoDimensionsSchema (atof "0.01"))) := by decide +kernel
  refine ⟨hmetadata, hname, hposition, fun h => ?_, fun h => ?_, fun h => ?_⟩
  · obtain ⟨r, hr⟩ := h.returns
    exact fault_ne_ok r (hmetadata.symm.trans hr)
  · obtain ⟨r, hr⟩ := h.returns
    exact fault_ne_ok r (hname.symm.trans hr)
  · have hbad : ¬ InRange (declaredDimensions (some farPosition)) := fun hrange =>
      absurd (hrange _ (List.mem_cons_self ..)).2 (by decide +kernel)
    exact nomatch hposition.symm.trans (h.rejects (.inl hbad))

end Pointcloud
