/-
Pointcloud.Pgsql.CallTheorems — calls of SQL on stored patches.

A call reads its patches, does its operation and stores the result in the compression
of the schema. By one lemma for each call, what it stores stands for the points that it
is meant to make of those that its patches stand for. These lemmas go one way:

* what is read from a stored patch holds the points that it stands for, with their
  bounds and statistics (`SerializedPatch.Represents.read`);
* the operation that the call comes down to keeps this, by the lemma about the operation
  (`PcPatch.Kept.filter`, `.range_eq`, `.sort`, ...);
* what the operation makes is stored, and stands for its points (`PcPatch.Storable.write`).

`CallCondition` asks for what these steps need. Every part of it has a reason in the
source:

* the operation meets `ExactCondition`, without which bounds and statistics are not those
  of the points;
* numbers of points and the limits of a range are passed as `int`;
* memory of `2 ^ 30` bytes and more is not granted, so what is stored is shorter;
* text is not checked when it is read: no points, or arrays that no encoder writes, make a
  patch that cannot be stored and read again;
* `PC_Compress` stores under a copy of the schema, in which only dimensions with a name
  are found;
* `PC_SetPCId` leaves the bounds as they are where the dimensions are the same, so x and y
  have to be the same dimensions, with the same scale and offset.

Three calls are no operations. `PC_Compress` and `PC_Uncompress` store the same points in
other arrays, and `PC_SetPCId` may store them under another schema.
-/
import Pointcloud.Pgsql.HexwkbTheorems
import Pointcloud.Pgsql.PcpatchCompressTheorems
import Pointcloud.Pgsql.StoreTheorems
import Pointcloud.SchemaLayoutTheorems

namespace Pointcloud

open Pointcloud.Base

variable {P : Platform}

/-! ## Arrays

The loops over an array of points or patches look a schema up while they go. The lemma
about them compares such a walk with the plain one of `elementsOf`, element by element: both
read the same words, so they stay at the same offset, and what the first has collected is
what the second has read, deserialized with one schema. -/

section Arrays

variable {lookup : Nat → Run (Option PcSchema)} {S α : Type} {parse : Bytes → Run S}
  {pcidOf : S → Nat} {deserialize : S → PcSchema → Run α}

/-- What a walk does with one entry of an array. An entry that is NULL has no words, so the
offset stays; the one of any other moves behind its words, rounded up to a whole `int`. -/
def walkStep {σ : Type} (en : Endian) (type : OffsetType) (array : ArrayType)
    (visit : σ → Int → Run σ) (st : σ × Int) (i : Nat) : Run (σ × Int) := do
  let isnull ← arrayGetIsnull array.nullbitmap i
  if isnull then return st
  else
    let next ← visit st.1 st.2
    let element ← elementAt en array.data st.2
    return (next, type.store (st.2 + intAlign element.length))

section Related

variable {σ τ : Type} {R : σ → τ → Prop} {en : Endian} {type : OffsetType} {array : ArrayType}
  {visit : σ → Int → Run σ} {visit' : τ → Int → Run τ}
  (h : ∀ offset s t s', R s t → visit s offset = .ok s' →
    ∃ t', visit' t offset = .ok t' ∧ R s' t')

include h

/-- Two walks over one array read the same words, so they stay at the same offset. -/
theorem walkStep_related (i : Nat) (a : σ × Int) (b : τ × Int) (a' : σ × Int)
    (hab : R a.1 b.1 ∧ a.2 = b.2) (hrun : walkStep en type array visit a i = .ok a') :
    ∃ b', walkStep en type array visit' b i = .ok b' ∧ R a'.1 b'.1 ∧ a'.2 = b'.2 := by
  obtain ⟨hR, hoffset⟩ := hab
  obtain ⟨isnull, hisnull, hrun⟩ := bind_eq_ok.mp hrun
  rw [walkStep, hisnull, ok_bind]
  cases isnull with
  | true =>
      cases hrun
      exact ⟨b, rfl, hR, hoffset⟩
  | false =>
      obtain ⟨next, hnext, hrun⟩ := bind_eq_ok.mp hrun
      obtain ⟨element, helement, hrun⟩ := bind_eq_ok.mp hrun
      cases hrun
      -- the offset behind the element depends on its words only
      obtain ⟨next', hnext', hR'⟩ := h a.2 a.1 b.1 next hR hnext
      rw [hoffset] at hnext' helement
      refine ⟨(next', type.store (b.2 + intAlign element.length)), ?_, hR', by rw [hoffset]⟩
      rw [if_neg (by decide), hnext', ok_bind, helement]
      rfl

/-- So what they end with is related, by induction along the entries. -/
theorem walkArray_related {s s' : σ} {t : τ} (hinit : R s t)
    (hrun : walkArray en type array visit s = .ok s') :
    ∃ t', walkArray en type array visit' t = .ok t' ∧ R s' t' := by
  obtain ⟨last, hlast, hret⟩ := bind_eq_ok.mp hrun
  cases hret
  obtain ⟨last', hlast', hR, -⟩ :=
    foldlM_related (g := walkStep en type array visit') (c := (t, 0)) (walkStep_related h)
      ⟨hinit, rfl⟩ hlast
  exact ⟨last'.1, bind_eq_ok.mpr ⟨last', hlast', rfl⟩, hR⟩

end Related

/-- The items are the elements, deserialized with the schema of their pcid. This is the
invariant of the loop: as long as no schema is found the pcid is `0`, the value that the
source tests for the first element, and no formats table gives a schema that pcid
(`FormatsTable.pcid_ne`). -/
structure Collected.From (lookup : Nat → Run (Option PcSchema)) (pcidOf : S → Nat)
    (deserialize : S → PcSchema → Run α) (c : Collected α) (sers : List S) : Prop where
  found : ∀ s, c.schema = some s → c.pcid = s.pcid ∧ lookup s.pcid = .ok (some s)
  none_pcid : c.schema = none → c.pcid = 0
  items : List.Forall₂ (fun ser item => ∃ s, c.schema = some s ∧ pcidOf ser = s.pcid ∧
    deserialize ser s = .ok item) sers c.items

/-- There is a schema where there are items, and it is the schema of all of them. -/
theorem Collected.From.schema_eq {c : Collected α} {sers : List S}
    (h : c.From lookup pcidOf deserialize sers) (hne : c.items ≠ []) :
    ∃ s, c.schema = some s ∧ lookup s.pcid = .ok (some s) ∧
      List.Forall₂ (fun ser item => pcidOf ser = s.pcid ∧ deserialize ser s = .ok item)
        sers c.items := by
  cases hs : c.schema with
  | none =>
      have hitems := h.items
      generalize c.items = items at hitems hne
      cases hitems with
      | nil => exact absurd rfl hne
      | cons hone _ =>
          obtain ⟨s, hs', -⟩ := hone
          cases hs.symm.trans hs'
  | some s =>
      refine ⟨s, rfl, (h.found s hs).2, h.items.imp fun ser item hitem => ?_⟩
      obtain ⟨s', hs', hrest⟩ := hitem
      cases hs.symm.trans hs'
      exact hrest

/-- The loop over an array deserializes its elements with one schema. Points and patches are
collected by the same loop, so what an element is and how it is deserialized are parameters:
an element with another pcid than the first is an error. -/
theorem collectElement_from (htable : FormatsTable lookup) {func : String} {array : ArrayType}
    {c : Collected α} {type : OffsetType}
    (hrun : walkArray P.endian type array
      (collectElement P lookup func parse pcidOf deserialize array) ⟨none, 0, []⟩ = .ok c) :
    ∃ sers, walkArray P.endian type array (fun (sers : List S) offset => do
        let element ← elementAt P.endian array.data offset
        let ser ← parse element
        return sers ++ [ser]) [] = .ok sers ∧ c.From lookup pcidOf deserialize sers := by
  refine walkArray_related (R := Collected.From lookup pcidOf deserialize) ?_
    ⟨fun s hs => (by cases hs), fun _ => rfl, .nil⟩ hrun
  intro offset c sers c' hc hrun
  obtain ⟨element, helement, hrun⟩ := bind_eq_ok.mp hrun
  obtain ⟨ser, hser, hrun⟩ := bind_eq_ok.mp hrun
  obtain ⟨schema, hschema, hrun⟩ := bind_eq_ok.mp hrun
  split at hrun
  · exact absurd hrun (raise_ne_ok _ c')
  · next hpcid =>
      cases schema with
      | none => exact absurd hrun (fault_ne_ok c')
      | some s =>
          obtain ⟨item, hitem, hrun⟩ := bind_eq_ok.mp hrun
          cases hrun
          refine ⟨sers ++ [ser], ?_, ?_⟩
          · rw [helement, ok_bind, hser]
            rfl
          · cases hs : c.schema with
            | none =>
                -- the first element, whose pcid the schema is looked up by
                rw [hs] at hschema
                have hzero := hc.none_pcid hs
                have hs' := htable.pcid_eq hschema
                have hempty : sers = [] ∧ c.items = [] := by
                  have hitems := hc.items
                  generalize c.items = items at hitems
                  cases hitems with
                  | nil => exact ⟨rfl, rfl⟩
                  | cons hone _ =>
                      obtain ⟨s₀, hs₀, -⟩ := hone
                      cases hs.symm.trans hs₀
                refine ⟨fun s₀ hs₀ => ?_, fun hnone => (by cases hnone), ?_⟩
                · cases hs₀
                  exact ⟨by rw [if_pos hzero, hs'], hs' ▸ hschema⟩
                · rw [hempty.1, hempty.2]
                  exact .cons ⟨s, rfl, hs'.symm, hitem⟩ .nil
            | some s₀ =>
                -- a later one, whose pcid is compared with that of the first
                rw [hs] at hschema
                cases hschema
                obtain ⟨hp, hfound⟩ := hc.found s hs
                have hne : c.pcid ≠ 0 := hp ▸ htable.pcid_ne hfound
                have hser' : pcidOf ser = s.pcid := by
                  by_contra hother
                  exact hpcid ⟨hne, by rw [hp]; exact fun h => hother h.symm⟩
                refine ⟨fun s₁ hs₁ => ?_, fun hnone => (by cases hnone), ?_⟩
                · cases hs₁
                  exact ⟨by rw [if_neg hne, hp], hfound⟩
                · refine List.rel_append (hc.items.imp fun ser' item' h => ?_)
                    (.cons ⟨s, rfl, hser', hitem⟩ .nil)
                  obtain ⟨s₁, hs₁, hrest⟩ := h
                  cases hs.symm.trans hs₁
                  exact ⟨s, rfl, hrest⟩

end Arrays

/-! ## Conditions

They speak of the patches that a call reads and of what its operation makes of them. The
swap of a schema and the compression are no operations, and have conditions of their
own. -/

/-- What is asked of a schema with the same dimensions, under which the points stay as
they are: it has the same axes, for the bounds stay as well. `pc_schema_same_dimensions`
compares names and interpretations, but neither scales nor offsets, so the bounds kept by
`PC_SetPCId` need not be those of the points under the other schema. The statistics are
bytes, read with the schema that is stored, so no other dimension has to be the same. -/
structure SwapCondition (P : Platform) (pa : PcPatch) (new : PcSchema) : Prop where
  integral : new.Integral
  in_doubles : ∀ u, pcPatchUncompress P pa = .ok u → ∀ pt ∈ u.points, new.InDoubles P.endian pt
  xaxis : SameAxis pa.schema.xdimension new.xdimension
  yaxis : SameAxis pa.schema.ydimension new.ydimension
  below : BelowGigabyte P (pa.withSchema new) none

/-- What is asked of a patch that is compressed: its dimensions have names, and neither the
records nor what is stored has `2 ^ 30` bytes. The names are those of the hash table: the
copy of a schema enters only dimensions that have one. Which of the two bounds is used
depends on the compression: the plain copy is stored as records or by its schema, the
dimensional one as it was compressed. -/
structure RecompressCondition (P : Platform) (pa : PcPatch) (configIn : List Char) : Prop where
  named : ∀ dim ∈ pa.schema.dims, dim.name ≠ none
  records : ∀ u, pcPatchUncompress P pa = .ok u → u.npoints * u.schema.size < 1073741824
  plain : ∀ u compression, pcPatchUncompress P pa = .ok u → BelowGigabyte P
    (.uncompressed { u with
      schema := { pcSchemaClone u.schema with compression := compression } }) none
  dims : ∀ u r, pcPatchUncompress P pa = .ok u →
    compressDimensions P u.schema u configIn = .ok r →
      pcPatchSerializedSize (.dimensional r.1) < 1073741824

/-- Of what a call does it is asked that the operation meets its condition, and that the
patch that is stored has less than `2 ^ 30` bytes. Text must have points, in arrays as an
encoder writes them. -/
structure CallCondition (P : Platform) (lookup : Nat → Run (Option PcSchema)) (S : SortR)
    (c : PatchCall) : Prop where
  counts : ∀ op, c.operation P lookup = .ok (some op) → op.CountsInInt
  exact : ∀ op, c.operation P lookup = .ok (some op) → (∀ palist, op ≠ .fromPatchlist palist) →
    ExactCondition P op
  below : ∀ op q, c.operation P lookup = .ok (some op) → op.run P S = .ok (some q) →
    (∀ serpa, c ≠ .uncompress serpa) → BelowGigabyte P q none
  below_plain : ∀ op q serpa, c.operation P lookup = .ok (some op) → op.run P S = .ok (some q) →
    c = .uncompress serpa → pcPatchSerializedSize q < 1073741824
  encoded : ∀ str typmod, c = .patchIn str typmod → str.length < 18446744073709551616 ∧
    ∀ q, pcPatchFromHexwkb P lookup str = .ok q → 1 ≤ q.npoints ∧ ∃ pts, q.Holds P pts
  compressed : ∀ serpa comprIn configIn pa, c = .compress serpa comprIn configIn →
    readPatch P lookup serpa = .ok pa → RecompressCondition P pa configIn
  swapped : ∀ serpa pcid dflt pa new, c = .setpcid serpa pcid dflt →
    readPatch P lookup serpa = .ok pa → lookup pcid = .ok (some new) →
      pcSchemaSameDimensions pa.schema new = .ok true → SwapCondition P pa new

/-- A call meets the condition if its operation does, and what it makes can be stored. Where
the result of the operation is known, only that one has to be below `2 ^ 30` bytes. -/
theorem CallCondition.of_run {lookup : Nat → Run (Option PcSchema)} {S : SortR} {c : PatchCall}
    {op : Operation} {q : PcPatch} (hop : c.operation P lookup = .ok (some op))
    (hrun : op.run P S = .ok (some q)) (hcounts : op.CountsInInt) (hexact : ExactCondition P op)
    (hbelow : BelowGigabyte P q none)
    (hencoded : ∀ str typmod, c = .patchIn str typmod → str.length < 18446744073709551616 ∧
      ∀ q, pcPatchFromHexwkb P lookup str = .ok q → 1 ≤ q.npoints ∧ ∃ pts, q.Holds P pts)
    (hcompress : ∀ serpa comprIn configIn, c ≠ .compress serpa comprIn configIn)
    (huncompress : ∀ serpa, c ≠ .uncompress serpa)
    (hsetpcid : ∀ serpa pcid dflt, c ≠ .setpcid serpa pcid dflt) : CallCondition P lookup S c where
  counts := fun op' hop' => by
    cases hop.symm.trans hop'
    exact hcounts
  exact := fun op' hop' _ => by
    cases hop.symm.trans hop'
    exact hexact
  below := fun op' q' hop' hrun' _ => by
    cases hop.symm.trans hop'
    cases hrun.symm.trans hrun'
    exact hbelow
  below_plain := fun _ _ serpa _ _ hc => absurd hc (huncompress serpa)
  encoded := hencoded
  compressed := fun serpa comprIn configIn _ hc _ => absurd hc (hcompress serpa comprIn configIn)
  swapped := fun serpa pcid dflt _ _ hc _ _ _ => absurd hc (hsetpcid serpa pcid dflt)

/-! ## What a call has done

Where a call returns a patch, every step in front of it returned. The lemmas of this part
read these steps off. -/

/-- A patch is stored only if there is one: no patch is NULL in SQL. -/
theorem serializeSome_eq_ok {pa : Option PcPatch} {sp : SerializedPatch}
    (h : serializeSome P pa = .ok (some sp)) :
    ∃ qa userdata, pa = some qa ∧ pcPatchSerialize P qa none = .ok (sp, userdata) := by
  cases pa with
  | none => cases h
  | some qa =>
      obtain ⟨⟨sp', userdata⟩, hsp, h⟩ := bind_eq_ok.mp h
      cases h
      exact ⟨qa, userdata, rfl, hsp⟩

/-- The text of a patch, read: its bytes name the pcid that the schema is looked up by. -/
theorem pcPatchFromHexwkb_eq_ok {lookup : Nat → Run (Option PcSchema)} {str : Bytes} {q : PcPatch}
    (hlt : str.length < 18446744073709551616) (h : pcPatchFromHexwkb P lookup str = .ok q) :
    ∃ wkb pcid s, pcBytesFromHexbytes str = .ok wkb ∧ pcWkbGetPcid P.endian wkb = .ok pcid ∧
      lookup pcid = .ok (some s) ∧ pcPatchFromWkb P s wkb wkb.length = .ok q := by
  obtain ⟨wkb, hwkb, h⟩ := bind_eq_ok.mp h
  obtain ⟨pcid, hpcid, h⟩ := bind_eq_ok.mp h
  split at h
  · exact absurd h (raise_ne_ok _ q)
  · obtain ⟨found, hfound, h⟩ := bind_eq_ok.mp h
    cases found with
    | none => exact absurd h (raise_ne_ok _ q)
    | some s =>
        rw [← length_of_pcBytesFromHexbytes hlt hwkb] at h
        exact ⟨wkb, pcid, s, hwkb, hpcid, hfound, h⟩

/-- What is read from WKB as records has as many bytes as it says: the reader compares the
length of the text with the number of points. -/
theorem sized_of_read {s : PcSchema} {wkb : Bytes} {wkbsize : Nat} {qa : PcPatch}
    (hrun : pcPatchFromWkb P s wkb wkbsize = .ok qa) : RecordsSized qa := by
  unfold pcPatchFromWkb at hrun
  split at hrun
  · exact absurd hrun (raise_ne_ok _ qa)
  · obtain ⟨pcid, -, hrun⟩ := bind_eq_ok.mp hrun
    obtain ⟨c, -, hrun⟩ := bind_eq_ok.mp hrun
    split at hrun
    · exact absurd hrun (raise_ne_ok _ qa)
    · obtain ⟨pa, hpa, hrun⟩ := bind_eq_ok.mp hrun
      obtain ⟨ra, hra, hrun⟩ := bind_eq_ok.mp hrun
      cases pa with
      | lazperf l => exact absurd hra (raise_ne_ok _ ra)
      | dimensional d =>
          obtain ⟨e, -, hra⟩ := bind_eq_ok.mp hra
          cases hra
          obtain ⟨u, -, hrun⟩ := bind_eq_ok.mp hrun
          obtain ⟨v, -, hrun⟩ := bind_eq_ok.mp hrun
          cases hrun
          trivial
      | uncompressed u =>
          -- extent and statistics leave the records alone
          obtain ⟨v, hv, hra⟩ := bind_eq_ok.mp hra
          cases hra
          obtain ⟨w, hw, hrun⟩ := bind_eq_ok.mp hrun
          cases hrun
          refine (truthful_computed hv hw).mpr ?_
          unfold patchFromWkb at hpa
          split at hpa
          · obtain ⟨u', hu', hpa⟩ := bind_eq_ok.mp hpa
            cases hpa
            exact truthful_fromWkb hu'
          · obtain ⟨d, -, hpa⟩ := bind_eq_ok.mp hpa
            cases hpa
          · exact absurd hpa (raise_ne_ok _ _)
          · exact absurd hpa (raise_ne_ok _ _)

/-- A filter by name is one by the position of the dimension. A name that no dimension has
gives no patch, which `pcpatch_filter` reports as an error. -/
theorem filterByName_eq_ok {pa qa : PcPatch} {name : String} {filter : PcFiltertype}
    {val1 val2 : ℚ} (h : filterByName P pa name filter val1 val2 = .ok (some qa)) :
    ∃ d, pcSchemaGetDimensionByName pa.schema name = some d ∧
      pcPatchFilter P pa d.position filter val1 val2 = .ok qa := by
  unfold filterByName at h
  split at h
  · cases h
  · next d hd =>
      obtain ⟨ra, hra, h⟩ := bind_eq_ok.mp h
      cases h
      exact ⟨d, hd, hra⟩

/-- A mode filters a dimension of the patch by its comparison. -/
theorem filterOfMode_eq_ok {pa qa : PcPatch} {dimName : String} {value1 value2 : ℚ} {mode : Int}
    (h : filterOfMode P pa dimName value1 value2 mode = .ok (some qa)) :
    ∃ d c, pcSchemaGetDimensionByName pa.schema dimName = some d ∧
      comparisonOf mode value1 value2 = some c ∧
      pcPatchFilter P pa d.position c.1 c.2.1 c.2.2 = .ok qa := by
  unfold filterOfMode at h
  unfold comparisonOf
  split_ifs at h ⊢ with h0 h1 h2 h3
  · obtain ⟨d, hd, hrun⟩ := filterByName_eq_ok h
    exact ⟨d, _, hd, rfl, hrun⟩
  · obtain ⟨d, hd, hrun⟩ := filterByName_eq_ok h
    exact ⟨d, _, hd, rfl, hrun⟩
  · obtain ⟨d, hd, hrun⟩ := filterByName_eq_ok h
    exact ⟨d, _, hd, rfl, hrun⟩
  · -- the limits are exchanged if they are the wrong way round
    unfold pcPatchFilterBetweenByName at h
    split_ifs at h with hlt
    · obtain ⟨d, hd, hrun⟩ := filterByName_eq_ok h
      refine ⟨d, _, hd, rfl, ?_⟩
      rw [min_eq_right hlt.le, max_eq_left hlt.le]
      exact hrun
    · obtain ⟨d, hd, hrun⟩ := filterByName_eq_ok h
      refine ⟨d, _, hd, rfl, ?_⟩
      rw [min_eq_left (not_lt.mp hlt), max_eq_right (not_lt.mp hlt)]
      exact hrun
  · exact absurd h (raise_ne_ok _ _)

/-- The points that pass the comparison of a mode. The filter compares with the numbers that
`comparisonOf` gives, the specification with those of the call: they differ only in the order
of the two limits of a range. -/
theorem passing_comparison {mode : Int} {value1 value2 : ℚ} {c : PcFiltertype × ℚ × ℚ}
    (h : comparisonOf mode value1 value2 = some c) (en : Endian) (dim : PcDimension)
    (pts : List Bytes) : passing en dim c.1 c.2.1 c.2.2 pts =
      pts.filter fun pt => modeKeeps mode value1 value2 (dim.valueIn en pt) := by
  unfold comparisonOf at h
  refine List.filter_congr fun pt _ => ?_
  split_ifs at h with h0 h1 h2 h3
  all_goals
    cases h
    simp [PcFiltertype.holds, modeKeeps, *]

/-- A dimension that was found by its name stands at its position. -/
theorem getElem?_position {s : PcSchema} {name : String} {d : PcDimension}
    (h : pcSchemaGetDimensionByName s name = some d) : s.dims[d.position]? = some d := by
  obtain ⟨i, hi, rfl⟩ := List.mem_iff_getElem.mp (mem_of_pcSchemaGetDimensionByName h)
  rw [s.position_eq i hi]
  exact List.getElem?_eq_getElem hi

/-- What is sorted has as many bytes as it says: the patch is made for the number of points,
and the sorted records have the length of the unsorted ones. -/
theorem sized_of_sort {S : SortR} {pa qa : PcPatch} {names : List String}
    (h : pcPatchSort P S pa names = .ok qa) :
    ∃ q, qa = .uncompressed q ∧ q.Truthful := by
  obtain ⟨dims, -, h⟩ := bind_eq_ok.mp h
  obtain ⟨u, -, h⟩ := bind_eq_ok.mp h
  obtain ⟨q, hq, h⟩ := bind_eq_ok.mp h
  cases h
  obtain ⟨spu, hmake, hq⟩ := bind_eq_ok.mp hq
  obtain ⟨src, -, hq⟩ := bind_eq_ok.mp hq
  obtain ⟨data, -, hq⟩ := bind_eq_ok.mp hq
  obtain ⟨sorted, -, hq⟩ := bind_eq_ok.mp hq
  cases hq
  exact ⟨_, rfl, truthful_made hmake rfl rfl rfl⟩

/-- A point that is deserialized has the schema and the data. The stored struct is padded, so
there may be bytes behind those of the point. -/
theorem pcPointDeserialize_eq_ok {en : Endian} {serpt : SerializedPoint} {s : PcSchema}
    {pt : PcPoint} (h : pcPointDeserialize en serpt s = .ok pt) :
    pt.schema = s ∧ pt.data = serpt.data.take s.size := by
  unfold pcPointDeserialize at h
  simp only at h
  split at h
  · exact absurd h (raise_ne_ok _ pt)
  · obtain ⟨data, hread, h⟩ := bind_eq_ok.mp h
    have hread' : readAt serpt.data ((0 : Nat) : Int) s.size = .ok data := hread
    unfold pcPointOf at h
    split at h
    · cases h
      exact ⟨rfl, (readAt_eq_ok.mp hread').2.symm⟩
    · exact absurd h (fault_ne_ok pt)

/-- Dimensions that are stored as a configuration asks for. The patch that is compressed has
the schema of the records, the one that is stored a copy of it with another compression:
names are all that the copy needs for its dimensions to be found as before. -/
theorem represents_overridden {lookup : Nat → Run (Option PcSchema)} {u : PcPatchUncompressed}
    {pts : List Bytes} {st : PcStats} {serpa sp : SerializedPatch} {configIn : List Char}
    (h : PcPatch.Storable P (.uncompressed u) pts) (hu : RecordsRead P u.schema serpa pts u)
    (hnamed : ∀ dim ∈ u.schema.dims, dim.name ≠ none) (hst : u.stats = some st)
    (hfound : lookup u.schema.pcid = .ok (some u.schema))
    (hrecords : u.npoints * u.schema.size < 1073741824) {d : PcPatchDimensional}
    {stats userdata : Option PcDimStats}
      (hd : compressDimensions P u.schema u configIn = .ok (d, stats))
    (hlt : pcPatchSerializedSize (.dimensional d) < 1073741824)
    (hrun : pcPatchSerialize P (.dimensional (d.overridden u.schema)) stats = .ok (sp, userdata)) :
    sp.Represents P lookup ⟨u.schema, pts⟩ := by
  have hholds : u.Holds pts := h.holds
  have hcount : pts.length = u.npoints := hholds.length_eq
  have hcompress : (ConfigRefused u.schema.ndims configIn → _) ∧ _ :=
    compressDimensions_eq hu h.kept.ne (by rw [hcount]; exact hrecords)
  obtain ⟨hrefused, haccepted⟩ := hcompress
  by_cases hbad : ConfigRefused u.schema.ndims configIn
  · -- nothing was compressed
    have hraises := hrefused hbad
    rw [hd] at hraises
    exact absurd hraises (not_raises_ok _)
  · rw [haccepted hbad] at hd
    have huser : ∀ pds ∈ some (configured P u.schema pts configIn),
        pds.stats.length = u.schema.dims.length := by
      simpa using length_configured P u.schema pts configIn
    -- what was compressed holds the same points, with bounds and statistics of the records
    obtain ⟨d', stats', hd', hschema, hnp, hbounds, hstats, hdholds⟩ :=
      compress_of_encodes hholds h.kept.ne hrecords huser
        (encodes_of_compress hholds h.kept.ne hrecords huser hd)
    cases hd.symm.trans hd'
    -- the arrays belong to the dimensions of the copy as well
    have hover : (d.overridden u.schema).Holds P pts := by
      refine ⟨hdholds.npoints_lt, hdholds.npoints_eq, fun pt hpt => ?_, ?_⟩
      · rw [hdholds.width_eq pt hpt, hschema]
        rfl
      · have hbytes := hdholds.bytes_hold
        rw [hschema] at hbytes
        exact hbytes
    have hst' : (d.overridden u.schema).stats = some ⟨st.min.copy.copy, st.max.copy.copy,
        st.avg.copy.copy⟩ := by
      change d.stats = _
      rw [hstats, hst]
      rfl
    have hwidth := h.kept.width hst
    -- the number of bytes does not depend on the compression that the schema names
    have hsize : pcPatchSerializedSize (.dimensional (d.overridden u.schema)) =
        pcPatchSerializedSize (.dimensional d) := by
      unfold pcPatchSerializedSize
      simp only [PcPatch.schema, hschema]
      rfl
    have hsegments : WkbSized (.dimensional d) := segments_below hlt
    -- the copy names the compression that the patch has, so it is written as it is
    have hwrite := serializeByType_ok (p := .dimensional (d.overridden u.schema)) hover hst'
      ⟨hwidth.min, hwidth.max, hwidth.avg⟩ (hsize ▸ hlt) hsegments
    rw [pcPatchSerialize_eq (p := .dimensional (d.overridden u.schema)) hst',
      patchToSerialize_same rfl, ok_bind] at hrun
    simp only [hwrite, ok_bind] at hrun
    cases hrun
    have hstored : Stored P (d.overridden u.schema).schema pts
        (.dimensional (d.overridden u.schema)) _ _ :=
      ⟨rfl, rfl, hover, hst', ⟨hwidth.min, hwidth.max, hwidth.avg⟩, hsegments, hsize ▸ hlt⟩
    -- what is stored has the pcid of the schema, and its bounds and statistics
    refine hstored.represents_clone hnamed h.kept.integral h.kept.ne h.kept.in_doubles ?_ ?_ hfound
    · intro e he
      cases he
      have hn : d.npoints = u.npoints := hnp
      change Fits (d.overridden u.schema).schema d.npoints
      rw [hn]
      exact fits_of_records hrecords
    · have hb : (PcPatch.dimensional (d.overridden u.schema)).bounds = u.bounds := hbounds
      have hextremes := h.kept.extremes hst
      rw [hb]
      exact ⟨hextremes.bounds, hextremes.min, hextremes.max⟩

/-- A patch that is stored under another schema with the same dimensions. The points have
the same bytes in both, and with the same axes the bounds are those of the points in both
as well. -/
theorem represents_swapped {lookup : Nat → Run (Option PcSchema)} {pa : PcPatch} {new : PcSchema}
    {pts : List Bytes} (hsto : pa.Storable P pts) (hdims : SameDimensions pa.schema new)
    (hswap : SwapCondition P pa new) (hdoubles : ∀ pt ∈ pts, new.InDoubles P.endian pt)
    (hfound : lookup new.pcid = .ok (some new)) {sp : SerializedPatch}
    {userdata : Option PcDimStats}
    (hrun : pcPatchSerialize P (pa.withSchema new) none = .ok (sp, userdata)) :
    sp.Represents P lookup ⟨new, pts⟩ := by
  obtain ⟨st, hst, hsummary⟩ := hsto.kept.summary
  have hwidth := hsummary.stats_over.width
  have hsize := hdims.size_eq
  -- arrays fit as before: neither the number of points nor a width has changed
  have hfits : ∀ d, pa.withSchema new = .dimensional d → Fits d.schema d.npoints := by
    intro d hd
    cases pa with
    | uncompressed u => cases hd
    | lazperf l => cases hd
    | dimensional e =>
        cases hd
        exact SameDimensions.fits hdims (hsto.fits e rfl)
  -- and so have the records their size
  have hsized : RecordsSized (pa.withSchema new) := by
    cases pa with
    | uncompressed u =>
        have hrecords : u.datasize = u.npoints * u.schema.size := hsto.sized
        have hnew : new.size = u.schema.size := hsize
        change u.datasize = u.npoints * new.size
        rw [hrecords, hnew]
    | dimensional d => trivial
    | lazperf l => trivial
  have hwidth' : StatsWidth (pa.withSchema new).schema st := by
    rw [pa.schema_withSchema]
    exact ⟨hwidth.min.trans hsize.symm, hwidth.max.trans hsize.symm, hwidth.avg.trans hsize.symm⟩
  -- stored under the other schema, the patch holds the same points in some form `w`
  obtain ⟨w, st', hstored, -, hbounds, hmin, hmax, hwfits⟩ :=
    stored_of_holds (hsto.holds.withSchema hdims rfl) hsized ((pa.stats_withSchema new).trans hst)
      hwidth' hfits hswap.below hrun
  rw [pa.schema_withSchema] at hstored
  refine hstored.represents hswap.integral hsto.kept.ne hdoubles hwfits ?_ hfound
  -- only here the axes are needed: bounds are numbers, read with scale and offset
  rw [hbounds, pa.bounds_withSchema, hmin, hmax]
  exact (hsto.kept.extremes hst).under hdims hsto.kept.integral.valid hswap.integral.valid
    hswap.xaxis hswap.yaxis

/-! ## Arrays of numbers

The loop counts points in an `int`, which it divides by the number of dimensions in an
`int`. The array is shorter than `2 ^ 31`, and too many dimensions for an `int` leave no
points, so that the numbers are cut into points as they stand. -/

/-- A point has more bytes than dimensions. -/
theorem PcSchema.ndims_le (s : PcSchema) : s.ndims ≤ s.size := by
  rw [s.size_eq, sizeOfDims, PcSchema.ndims, ← List.length_map PcDimension.size]
  refine List.length_le_sum_of_one_le _ fun n hn => ?_
  obtain ⟨dim, hdim, rfl⟩ := List.mem_map.mp hn
  rw [s.dim_size hdim]
  exact dim.interpretation.size_pos

/-- As many points are made of an array as it has numbers for. The offset into the array is a
32-bit number; for `n` points in an array shorter than `2 ^ 31` it does not wrap. -/
theorem pointsOfFloats_ok {s : PcSchema} {vals : List ℚ} {n : Nat}
    (hvals : vals.length < 2147483648)
    (hn : n * s.ndims ≤ vals.length) : pointsOfFloats P s vals n =
      .ok ((List.range n).map fun i => storedPoint P s (numbersAt s vals i)) := by
  have hpos : 0 < s.ndims := List.length_pos_of_ne_nil s.dims_ne
  rw [pointsOfFloats, Int.toNat_natCast]
  refine mapM_eq_ok_map fun i hi => ?_
  have hroom : i * s.ndims + s.ndims ≤ vals.length := by
    have hle := Nat.mul_le_mul_right s.ndims (Nat.succ_le_of_lt (List.mem_range.mp hi))
    rw [Nat.succ_mul] at hle
    omega
  -- the offset of the point, and its end, are in the array and so below `2 ^ 32`
  rw [uint32_of_lt (by omega), uint32_of_lt (by omega), pcPointFromDoubleArray_ok (by omega) hroom]
  refine congrArg Except.ok ((storedPoint_inj s).mpr fun dim hd => ?_)
  obtain ⟨j, hj, rfl⟩ := List.mem_iff_getElem.mp hd
  have hlt : j < s.ndims := hj
  rw [numbersAt, s.position_eq j hj, uint32_of_lt (by omega)]

/-- An array of numbers that a patch is made of. That a patch was made shows that there is a
point: a list without points is an error. -/
theorem pointlistOfFloats_eq_ok {lookup : Nat → Run (Option PcSchema)} {pcid : Nat}
    {array : FloatArray} {pl : PcPointlist} {q : PcPatchUncompressed}
    (hpl : pointlistOfFloats P lookup pcid array = .ok pl)
    (hq : pcPatchUncompressedFromPointlist P pl = .ok q) :
    ∃ s, lookup pcid = .ok (some s) ∧ array.elems.length % s.ndims = 0 ∧
      0 < array.elems.length / s.ndims ∧
      pointlistOf ((List.range (array.elems.length / s.ndims)).map fun i =>
        storedPoint P s (numbersAt s array.elems i)) = .ok pl := by
  obtain ⟨found, hfound, hpl⟩ := bind_eq_ok.mp hpl
  cases found with
  | none => exact absurd hpl (raise_ne_ok _ pl)
  | some s =>
      simp only at hpl
      split_ifs at hpl with _ _ _ hrest
      all_goals try exact absurd hpl (raise_ne_ok _ pl)
      obtain ⟨_, -, hpl⟩ := bind_eq_ok.mp hpl
      obtain ⟨pts, hpts, hpl⟩ := bind_eq_ok.mp hpl
      have hpos : 0 < s.ndims := List.length_pos_of_ne_nil s.dims_ne
      have hle := s.ndims_le
      have hsize := s.size_lt
      have hvals := array.length_lt
      have hne : pts ≠ [] := by
        rintro rfl
        rw [pcPatchUncompressedFromPointlist, points_of_pointlistOf hpl] at hq
        exact absurd hq (raise_ne_ok _ q)
      -- more dimensions than an `int` counts make no points at all
      have hint : s.ndims < 2147483648 := by
        by_contra hlarge
        have hneg : int32 s.ndims ≤ 0 := by
          unfold int32
          omega
        have hnone : ((array.elems.length : Int).tdiv (int32 s.ndims)).toNat = 0 :=
          Int.toNat_of_nonpos (Int.tdiv_nonpos_of_nonneg_of_nonpos (by omega) hneg)
        rw [pointsOfFloats, hnone] at hpts
        cases hpts
        exact hne rfl
      rw [int32_natCast hint, ← Int.ofNat_tmod] at hrest
      rw [int32_natCast hint, ← Int.ofNat_tdiv, pointsOfFloats_ok hvals (Nat.div_mul_le_self _ _)]
        at hpts
      cases hpts
      refine ⟨s, hfound, by omega, Nat.pos_of_ne_zero fun hzero => hne ?_, hpl⟩
      rw [hzero]
      rfl

/-! ## Calls

The lemmas have one shape. `hop` and `hopRun` say which operation the call comes down to
and that it has run, so that the condition can be asked about it; the lemma about the
operation gives the points and keeps the summary; and `PcPatch.Storable.write` stores
the result. What is left in each is to compare the points with those the call is meant to
give, and to see that the schema stored is the one found by its pcid. -/

section Calls

variable {lookup : Nat → Run (Option PcSchema)} (htable : FormatsTable lookup) {S : SortR}

include htable

/-- Text is read as points. The reader takes any arrays; that they hold points, as
`hcond.encoded` says, makes the patch one that can be stored. -/
theorem represents_patchIn {str : Bytes} {typmod : Option Int} {out : SerializedPatch}
    (hcond : CallCondition P lookup S (.patchIn str typmod))
    (hrun : pcpatchIn P lookup str typmod = .ok out) :
    ∃ q, PatchCall.Means P lookup (.patchIn str typmod) [] q ∧ out.Represents P lookup q := by
  obtain ⟨hlt, hencoded⟩ := hcond.encoded str typmod rfl
  unfold pcpatchIn at hrun
  simp only at hrun
  split at hrun
  · exact absurd hrun (raise_ne_ok _ out)
  · split at hrun
    · obtain ⟨qa, hqa, hrun⟩ := bind_eq_ok.mp hrun
      obtain ⟨_, -, hrun⟩ := bind_eq_ok.mp hrun
      obtain ⟨⟨sp, userdata⟩, hsp, hrun⟩ := bind_eq_ok.mp hrun
      cases hrun
      -- the operation is the reader of WKB, under the schema whose pcid the text names
      obtain ⟨wkb, pcid, s, hwkb, hpcid, hfound, hread⟩ := pcPatchFromHexwkb_eq_ok hlt hqa
      obtain ⟨hpos, pts, hholds⟩ := hencoded qa hqa
      have hop : PatchCall.operation P lookup (.patchIn str typmod) =
          .ok (some (.fromWkb s wkb)) := by
        rw [PatchCall.operation, hwkb, ok_bind, hpcid, ok_bind, schemaFromPcid_eq_ok.mpr hfound]
        rfl
      obtain ⟨hs, hexact⟩ := hcond.exact _ hop (fun _ => by simp)
      -- what it reads has the bounds and statistics of the points it is decoded to
      obtain ⟨c, ra, u, hc, hra, hu, hschema, hkept⟩ := kept_of_read hs hexact hread hpos
      have hopRun : Operation.run P S (.fromWkb s wkb) = .ok (some qa) := by
        rw [Operation.run, hread]
        rfl
      -- the points that the arrays hold are those that they are decoded to
      have hpts : pts = u.points := (hholds.standsFor fun d hd => ?_).unique hkept.stands
      · subst hpts
        have hsto : qa.Storable P u.points := ⟨hkept, hholds, sized_of_read hread⟩
        have hrep := hsto.write lookup
          (by rw [hschema, htable.pcid_eq hfound, hfound])
          (hcond.below _ qa hop hopRun fun _ => by simp) hsp
        rw [hschema] at hrep
        exact ⟨⟨s, u.points⟩, ⟨wkb, hwkb, c, ra, u, hc, hra, hu, rfl⟩, hrep⟩
      · subst hd
        have hyields : YieldsPoints P d u.points := hkept.stands
        exact hyields.fits
    · exact absurd hrun (raise_ne_ok _ out)

section Patch

variable {sp : SerializedPatch} {ps : PointSequence} (h : sp.Represents P lookup ps)

include h

omit htable in
/-- The schema of a patch that is read is the one that its pcid leads to. -/
theorem SerializedPatch.Represents.found_read (htable : FormatsTable lookup) {q : PcPatch}
    (hq : q.schema = ps.schema) : lookup q.schema.pcid = .ok (some q.schema) := by
  rw [hq, htable.pcid_eq h.found, h.found]

/-- A range of a stored patch. Where it covers the patch, the patch itself is handed on and
nothing is computed; every other range is made anew, with its own bounds and statistics. -/
theorem represents_range {first count : Int} {out : SerializedPatch}
    (hcond : CallCondition P lookup S (.range sp first count))
    (hrun : pcpatchRange P lookup sp first count = .ok (some out)) :
    ∃ q, PatchCall.Means P lookup (.range sp first count) [ps] q ∧ out.Represents P lookup q := by
  obtain ⟨pa, hpa, hschema, -, hsto⟩ := h.read
  rw [pcpatchRange, hpa, ok_bind] at hrun
  obtain ⟨patchout, hrange, hrun⟩ := bind_eq_ok.mp hrun
  obtain ⟨qa, userdata, rfl, hsp⟩ := serializeSome_eq_ok hrun
  have hop : PatchCall.operation P lookup (.range sp first count) =
      .ok (some (.range pa first count)) := by
    rw [PatchCall.operation, hpa]
    rfl
  -- the limits of the range are `int`s, so the range is the slice of the specification
  obtain ⟨hlt, hlo, hhi⟩ := hcond.counts _ hop
  obtain ⟨qts, hqschema, hqa⟩ := hsto.kept.range hrange
  have hqts := hsto.kept.range_eq hlt hlo hhi hrange hqa.stands
  have hqsto : qa.Storable P qts := by
    obtain rfl | ⟨u, rts, hof⟩ := rangeOf_of_ok hsto.kept.stands.npoints_lt hrange
    · -- the whole patch is handed on
      rw [hqa.stands.unique hsto.kept.stands]
      exact hsto
    · obtain ⟨p, r, q, hp, hs, hsize, hextent, hstats, rfl⟩ := hof.computed
      exact hqa.storable ((truthful_computed hextent hstats).mpr hsize)
  have hrep := hqsto.write lookup (h.found_read htable (hqschema.trans hschema))
    (hcond.below _ qa hop hrange fun _ => by simp) hsp
  rw [hqschema, hschema, hqts] at hrep
  exact ⟨⟨ps.schema, sliceOf ps.points first count⟩, rfl, hrep⟩

/-- The points of a stored patch that pass. A patch that nothing passes is NULL, so there
are points in what is stored. -/
theorem represents_filter {dimName : String} {value1 value2 : ℚ} {mode : Int}
    {out : SerializedPatch}
    (hcond : CallCondition P lookup S (.filter sp dimName value1 value2 mode))
    (hrun : pcpatchFilter P lookup sp dimName value1 value2 mode = .ok (some out)) :
    ∃ q, PatchCall.Means P lookup (.filter sp dimName value1 value2 mode) [ps] q ∧
      out.Represents P lookup q := by
  obtain ⟨pa, hpa, hschema, -, hsto⟩ := h.read
  rw [pcpatchFilter, hpa, ok_bind] at hrun
  obtain ⟨filtered, hfiltered, hrun⟩ := bind_eq_ok.mp hrun
  cases filtered with
  | none => exact absurd hrun (raise_ne_ok _ _)
  | some qa =>
      -- the name and the mode are those of a filter by position and comparison
      obtain ⟨d, c, hd, hc, hfilter⟩ := filterOfMode_eq_ok hfiltered
      simp only at hrun
      split at hrun
      · cases hrun
      · next hpos =>
          obtain ⟨ra, userdata, hra, hsp⟩ := serializeSome_eq_ok hrun
          cases hra
          have hop : PatchCall.operation P lookup (.filter sp dimName value1 value2 mode) =
              .ok (some (.filter pa d.position c.1 c.2.1 c.2.2)) := by
            rw [PatchCall.operation, hpa, ok_bind, hd, hc]
            rfl
          have hopRun : Operation.run P S (.filter pa d.position c.1 c.2.1 c.2.2) =
              .ok (some qa) := by
            rw [Operation.run, hfilter]
            rfl
          obtain ⟨dim, hdim, hqschema, hkept, hholds⟩ :=
            hsto.kept.filter (hcond.exact _ hop fun _ => by simp) hfilter (by omega)
          cases (getElem?_position hd).symm.trans hdim
          -- arrays have no size to check, and what is filtered is never a lazperf patch
          have hsized : RecordsSized qa := by
            cases qa with
            | uncompressed q => exact truthful_filter hfilter
            | dimensional e => trivial
            | lazperf l => exact hholds.elim
          have hqsto : qa.Storable P _ := ⟨hkept, hholds, hsized⟩
          have hrep := hqsto.write lookup
            (h.found_read htable (hqschema.trans hschema))
            (hcond.below _ qa hop hopRun fun _ => by simp) hsp
          rw [hqschema, hschema, passing_comparison hc] at hrep
          exact ⟨⟨ps.schema, _⟩, ⟨d, hschema ▸ hd, rfl⟩, hrep⟩

/-- The points of a stored patch in another order. A call without dimensions hands on what is
stored, so there it is represented by hypothesis and nothing has to be stored. -/
theorem represents_sort {dimName : List String} {out : SerializedPatch}
    (hcond : CallCondition P lookup S (.sort sp dimName))
    (hrun : pcpatchSort P lookup S sp dimName = .ok out) :
    ∃ q, PatchCall.Means P lookup (.sort sp dimName) [ps] q ∧ out.Represents P lookup q := by
  unfold pcpatchSort at hrun
  split at hrun
  · next hnil =>
      cases hrun
      subst hnil
      -- without dimensions all keys are the same
      refine ⟨ps, ⟨rfl, List.Perm.refl _, [], .nil, ?_⟩, h⟩
      exact List.pairwise_map.mpr (List.pairwise_of_forall fun _ _ => le_refl [])
  · next hne =>
      obtain ⟨pa, hpa, hschema, -, hsto⟩ := h.read
      rw [hpa, ok_bind] at hrun
      obtain ⟨qa, hqa, hrun⟩ := bind_eq_ok.mp hrun
      obtain ⟨⟨sp', userdata⟩, hsp, hrun⟩ := bind_eq_ok.mp hrun
      cases hrun
      -- the sorted points are a permutation, ordered by the keys of the named dimensions
      obtain ⟨qts, dims, hqschema, hkept, hperm, hnames, hsorted⟩ := hsto.kept.sort hne hqa
      have hop : PatchCall.operation P lookup (.sort sp dimName) =
          .ok (some (.sort pa dimName)) := by
        rw [PatchCall.operation, if_neg hne, hpa]
        rfl
      have hopRun : Operation.run P S (.sort pa dimName) = .ok (some qa) := by
        rw [Operation.run, hqa]
        rfl
      obtain ⟨q, rfl, hsized⟩ := sized_of_sort hqa
      have hqsto : PcPatch.Storable P (.uncompressed q) qts := hkept.storable hsized
      have hrep := hqsto.write lookup
        (h.found_read htable (hqschema.trans hschema))
        (hcond.below _ _ hop hopRun fun _ => by simp) hsp
      rw [hqschema, hschema] at hrep
      exact ⟨⟨ps.schema, qts⟩, ⟨rfl, hperm, dims, hschema ▸ hnames, hsorted⟩, hrep⟩

/-- A stored patch, stored without compression. Its records are written as they are, whatever
the compression of the schema is. -/
theorem represents_uncompress {out : SerializedPatch}
    (hcond : CallCondition P lookup S (.uncompress sp))
    (hrun : pcpatchUncompress P lookup sp = .ok out) :
    ∃ q, PatchCall.Means P lookup (.uncompress sp) [ps] q ∧ out.Represents P lookup q := by
  obtain ⟨pa, hpa, hschema, -, hsto⟩ := h.read
  rw [pcpatchUncompress, hpa, ok_bind] at hrun
  obtain ⟨u, hu, hrun⟩ := bind_eq_ok.mp hrun
  have hop : PatchCall.operation P lookup (.uncompress sp) = .ok (some (.uncompress pa)) := by
    rw [PatchCall.operation, hpa]
    rfl
  have hopRun : Operation.run P S (.uncompress pa) = .ok (some (.uncompressed u)) := by
    rw [Operation.run, hu]
    rfl
  have huschema : u.schema = ps.schema := (schema_of_uncompress hu).1.trans hschema
  have husto := hsto.uncompressed hu
  have hkept := husto.kept
  obtain ⟨st, hst, hsummary⟩ := hkept.summary
  have hlt := hcond.below_plain _ _ sp hop hopRun rfl
  have hwidth : StatsWidth u.schema st := hsummary.stats_over.width
  have hholds : PcPatch.Holds P (.uncompressed u) ps.points := hkept.stands
  -- the records are written by their own type, not by the compression of the schema
  have hok := (serializeByType_ok hholds hst hwidth hlt husto.sized).symm.trans hrun
  rw [Except.ok.injEq] at hok
  subst hok
  refine ⟨ps, rfl, ?_, .uncompressed u, st, ⟨rfl, huschema, hholds, hst, huschema ▸ hwidth,
    husto.sized, hlt⟩, hkept⟩
  have hpcid : (serialized P.endian (.uncompressed u) st).pcid = ps.schema.pcid :=
    congrArg PcSchema.pcid huschema
  rw [hpcid, htable.pcid_eq h.found, h.found]

/-- A stored patch, compressed as it is asked for. The schema that it is compressed under
is a copy, of which only the compression is changed. -/
theorem represents_compress {comprIn configIn : List Char} {out : SerializedPatch}
    (hcond : CallCondition P lookup S (.compress sp comprIn configIn))
    (hrun : pcpatchCompress P lookup sp comprIn configIn = .ok out) :
    ∃ q, PatchCall.Means P lookup (.compress sp comprIn configIn) [ps] q ∧
      out.Represents P lookup q := by
  obtain ⟨pa, hpa, hschema, -, hsto⟩ := h.read
  obtain ⟨hnamed, hrecords, hplain, hdims⟩ := hcond.compressed sp comprIn configIn pa rfl hpa
  -- the patch is uncompressed first, whatever it is stored as
  obtain ⟨u, hu, -⟩ := hsto.kept.stands.uncompress
  have hus : u.schema = ps.schema := (schema_of_uncompress hu).1.trans hschema
  have husto := hsto.uncompressed hu
  obtain ⟨st, hst, -⟩ := husto.kept.summary
  have hfound : lookup u.schema.pcid = .ok (some u.schema) := by
    rw [hus, htable.pcid_eq h.found, h.found]
  have hread : pcPatchDeserialize P sp ps.schema = .ok pa := by
    rwa [readPatch, schemaFromPcid_eq_ok.mpr h.found, ok_bind] at hpa
  refine ⟨ps, rfl, ?_⟩
  have hps : ps = ⟨u.schema, ps.points⟩ := by rw [hus]
  rw [hps]
  rw [hschema, ← hus] at hnamed
  unfold pcpatchCompress at hrun
  simp only [h.found, ok_bind, hread, hu] at hrun
  -- the schema looked up is the one of the records, so the copies are copies of it
  rw [← hus] at hrun
  split_ifs at hrun with hauto hdimensional hlaz
  -- "auto", or the empty text: the compression is that of the schema
  · obtain ⟨⟨sp', userdata⟩, hsp, hret⟩ := bind_eq_ok.mp hrun
    cases hret
    exact represents_copied husto hnamed hst hfound u.schema.compression (hplain u _ hu) hsp
  -- "dimensional": every dimension as the configuration asks for
  · obtain ⟨⟨d, stats⟩, hd, hrun⟩ := bind_eq_ok.mp hrun
    obtain ⟨⟨sp', userdata⟩, hsp, hret⟩ := bind_eq_ok.mp hrun
    cases hret
    have hread' : RecordsRead P u.schema sp ps.points u :=
      ⟨by rw [hus, hread, ok_bind, hu], rfl, husto.holds, st, hst, husto.kept.width hst⟩
    exact represents_overridden husto hread' hnamed hst hfound (hrecords u hu) hd
      (hdims u _ hu hd) hsp
  -- "laz": the compression is overridden in the copy
  · obtain ⟨⟨sp', userdata⟩, hsp, hret⟩ := bind_eq_ok.mp hrun
    cases hret
    exact represents_copied husto hnamed hst hfound .lazperf (hplain u _ hu) hsp
  · exact absurd hrun (raise_ne_ok _ out)

/-- A stored patch under another schema: moved to it point by point, or left as it is
where the dimensions are the same. -/
theorem represents_setpcid {pcid : Nat} {dflt : ℚ} {out : SerializedPatch}
    (hcond : CallCondition P lookup S (.setpcid sp pcid dflt))
    (hrun : pcpatchSetpcid P lookup sp pcid dflt = .ok out) :
    ∃ q, PatchCall.Means P lookup (.setpcid sp pcid dflt) [ps] q ∧ out.Represents P lookup q := by
  obtain ⟨pa, hpa, hschema, -, hsto⟩ := h.read
  have hread := hpa
  obtain ⟨old, hold, hrun⟩ := bind_eq_ok.mp hrun
  obtain ⟨new, hnew, hrun⟩ := bind_eq_ok.mp hrun
  have hfound := schemaFromPcid_eq_ok.mp hnew
  cases Option.some.inj (Except.ok.inj (h.found.symm.trans (schemaFromPcid_eq_ok.mp hold)))
  rw [readPatch, hold, ok_bind] at hpa
  -- the dimensions decide which of the three ways is taken
  obtain ⟨same, hsame, hrun⟩ := bind_eq_ok.mp hrun
  have hnewfound : lookup new.pcid = .ok (some new) := by rw [htable.pcid_eq hfound, hfound]
  cases same with
  | true =>
      -- the same dimensions: the points stay, and `SwapCondition` is about the schema
      have hswap :=
        hcond.swapped sp pcid dflt pa new rfl hread hfound (by rw [hschema]; exact hsame)
      have hdims := sameDimensions_of_true hsame
      obtain ⟨u, hu, -⟩ := hsto.kept.stands.uncompress
      have hpoints := (hsto.kept.stands.holds hu).2
      have hdoubles : ∀ pt ∈ ps.points, new.InDoubles P.endian pt :=
        hpoints ▸ hswap.in_doubles u hu
      refine ⟨⟨new, ps.points⟩, ⟨hfound, true, hsame, rfl⟩, ?_⟩
      rw [if_pos rfl] at hrun
      split_ifs at hrun with hcompression
      · -- the bytes are copied, with the pcid of the other schema
        obtain ⟨p, st, hstored, hkept⟩ := h.stored
        cases hen : P.endian with
        | little => exact absurd hrun (copySerialized_not_ok hstored hen new.pcid out)
        | big =>
            rw [copySerialized_ok hstored hen, Except.ok.injEq] at hrun
            subst hrun
            have hps : p.schema = ps.schema := hstored.schema_eq
            refine hstored.represents_under hdims (hps ▸ hkept.integral.valid) hswap.integral
              hkept.ne hdoubles ?_ (hps ▸ hkept.extremes hstored.stats_eq) (hschema ▸ hswap.xaxis)
              (hschema ▸ hswap.yaxis) hnewfound
            rintro d rfl
            have hyields : YieldsPoints P d ps.points := hkept.stands
            exact hyields.fits
      · -- the points are stored under the other schema
        rw [swapSerialized, hpa, ok_bind] at hrun
        obtain ⟨⟨sp', userdata⟩, hsp, hret⟩ := bind_eq_ok.mp hrun
        cases hret
        exact represents_swapped hsto (hschema ▸ hdims) hswap hdoubles hnewfound hsp
  | false =>
      -- other dimensions: every point is moved, which is an operation with a lemma of its own
      rw [if_neg (by decide), moveSerialized, hpa, ok_bind] at hrun
      obtain ⟨q, hq, hrun⟩ := bind_eq_ok.mp hrun
      obtain ⟨⟨sp', userdata⟩, hsp, hret⟩ := bind_eq_ok.mp hrun
      cases hret
      have hop : PatchCall.operation P lookup (.setpcid sp pcid dflt) =
          .ok (some (.setSchema pa new dflt)) := by
        rw [PatchCall.operation, hread, ok_bind, hnew, ok_bind, hschema, hsame]
        rfl
      have hopRun : Operation.run P S (.setSchema pa new dflt) = .ok (some (.uncompressed q)) := by
        rw [Operation.run, hq]
        rfl
      obtain ⟨hs, hin⟩ := hcond.exact _ hop fun _ => by simp
      obtain ⟨u, hu, -⟩ := hsto.kept.stands.uncompress
      have hpoints := (hsto.kept.stands.holds hu).2
      obtain ⟨hqschema, hkept⟩ := hsto.kept.setSchema hs (hpoints ▸ hin u hu) hq
      have hrep := (hkept.storable (truthful_setSchema hq)).write lookup
        (by rw [PcPatch.schema, hqschema, hnewfound])
        (hcond.below _ _ hop hopRun fun _ => by simp) hsp
      rw [PcPatch.schema, hqschema, hschema] at hrep
      exact ⟨⟨new, _⟩, ⟨hfound, false, hsame, rfl⟩, hrep⟩

/-- A stored patch, converted to another schema: number by number, with the default where the
other schema has a dimension that the patch does not have. -/
theorem represents_transform {pcid : Nat} {dflt : ℚ} {out : SerializedPatch}
    (hcond : CallCondition P lookup S (.transform sp pcid dflt))
    (hrun : pcpatchTransform P lookup sp pcid dflt = .ok (some out)) :
    ∃ q, PatchCall.Means P lookup (.transform sp pcid dflt) [ps] q ∧
      out.Represents P lookup q := by
  obtain ⟨pa, hpa, hschema, -, hsto⟩ := h.read
  obtain ⟨old, hold, hrun⟩ := bind_eq_ok.mp hrun
  obtain ⟨new, hnew, hrun⟩ := bind_eq_ok.mp hrun
  have hfound := schemaFromPcid_eq_ok.mp hnew
  rw [readPatch, hold, ok_bind] at hpa
  rw [hpa, ok_bind] at hrun
  obtain ⟨paout, hq, hrun⟩ := bind_eq_ok.mp hrun
  obtain ⟨qa, userdata, hqa, hsp⟩ := serializeSome_eq_ok hrun
  -- the converted patch is always made of records
  obtain ⟨q, rfl, rfl⟩ := Option.map_eq_some_iff.mp hqa
  have hop : PatchCall.operation P lookup (.transform sp pcid dflt) =
      .ok (some (.transform pa new dflt)) := by
    rw [PatchCall.operation, readPatch, hold, ok_bind, hpa, ok_bind, hnew]
    rfl
  have hopRun : Operation.run P S (.transform pa new dflt) = .ok (some (.uncompressed q)) := by
    rw [Operation.run, hq]
    rfl
  obtain ⟨hs, hin⟩ := hcond.exact _ hop fun _ => by simp
  obtain ⟨u, hu, -⟩ := hsto.kept.stands.uncompress
  have hpoints := (hsto.kept.stands.holds hu).2
  obtain ⟨hqschema, hkept⟩ := hsto.kept.transform hs (hpoints ▸ hin u hu) hq
  have hrep := (hkept.storable (truthful_transform hq)).write lookup
    (by rw [PcPatch.schema, hqschema, htable.pcid_eq hfound, hfound])
    (hcond.below _ _ hop hopRun fun _ => by simp) hsp
  rw [PcPatch.schema, hqschema, hschema] at hrep
  exact ⟨⟨new, _⟩, ⟨hfound, rfl⟩, hrep⟩

end Patch

/-- Points of an array, put into a patch. The array is not among the stored patches that a
call reads, so what its elements are is said of the elements themselves. -/
theorem represents_fromPointArray {array : ArrayType} {out : SerializedPatch}
    (hcond : CallCondition P lookup S (.fromPointArray array))
    (hrun : pcpatchFromPcpointArray P lookup array = .ok (some out)) :
    ∃ q, PatchCall.Means P lookup (.fromPointArray array) [] q ∧ out.Represents P lookup q := by
  obtain ⟨pa, hpa, hrun⟩ := bind_eq_ok.mp hrun
  obtain ⟨qa, userdata, hqa, hsp⟩ := serializeSome_eq_ok hrun
  obtain ⟨q, rfl, rfl⟩ := Option.map_eq_some_iff.mp hqa
  unfold pcpatchFromPointArray at hpa
  split at hpa
  · cases hpa
  · obtain ⟨_, -, hpa⟩ := bind_eq_ok.mp hpa
    obtain ⟨c, hc, hpa⟩ := bind_eq_ok.mp hpa
    split at hpa
    · cases hpa
    · next hitems =>
        obtain ⟨pl, hpl, hpa⟩ := bind_eq_ok.mp hpa
        obtain ⟨u, hu, hpa⟩ := bind_eq_ok.mp hpa
        cases hpa
        have hop : PatchCall.operation P lookup (.fromPointArray array) =
            .ok (some (.fromPointlist pl)) := by
          rw [PatchCall.operation, hc, ok_bind, hpl]
          rfl
        have hopRun : Operation.run P S (.fromPointlist pl) = .ok (some (.uncompressed q)) := by
          rw [Operation.run, hu]
          rfl
        -- the loop has read the elements, and deserialized all of them with one schema
        obtain ⟨serpts, hserpts, hfrom⟩ := collectElement_from htable hc
        obtain ⟨s, hs, hfound, hall⟩ := hfrom.schema_eq hitems
        have hread : List.Forall₂ (fun (serpt : SerializedPoint) (pt : PcPoint) =>
            lookup serpt.pcid = .ok (some s) ∧ pt.schema = s ∧
              pt.data = serpt.data.take s.size) serpts c.items := hall.imp fun serpt pt hpt =>
          ⟨by rw [hpt.1, hfound], pcPointDeserialize_eq_ok hpt.2⟩
        have hget := (List.forall₂_iff_get.mp hread).2
        have hlen := hread.length_eq
        have hschemas : ∀ pt ∈ c.items, pt.schema = s := fun pt hpt => by
          obtain ⟨i, hi, rfl⟩ := List.mem_iff_getElem.mp hpt
          exact (hget i (by omega) hi).2.1
        -- the condition of the operation speaks of the list, so of the schema of its first point
        obtain ⟨hintegral, hin⟩ := exact_of_pointlist hpl hschemas
          (hcond.exact _ hop fun _ => by simp) hitems
        obtain ⟨hqs, hsto⟩ := storable_of_pointlist hpl hschemas hintegral hin hu
        -- the bytes in the patch are those of the elements, as long as the schema says
        have hdata : c.items.map PcPoint.data =
            serpts.map fun serpt => serpt.data.take s.size := by
          rw [← List.forall₂_eq_eq_eq, List.forall₂_map_left_iff, List.forall₂_map_right_iff]
          exact hread.flip.imp fun pt serpt hpt => hpt.2.2
        have hrep := hsto.write lookup (by rw [PcPatch.schema, hqs, hfound])
          (hcond.below _ _ hop hopRun fun _ => by simp) hsp
        rw [PcPatch.schema, hqs, hdata] at hrep
        refine ⟨⟨s, _⟩, ⟨serpts, hserpts, fun serpt hserpt => ?_, rfl⟩, hrep⟩
        obtain ⟨j, hj, rfl⟩ := List.mem_iff_getElem.mp hserpt
        exact (hget j hj (by omega)).1

/-- Numbers of an array, put into a patch as points. The schema is looked up by the pcid of
the call, and the numbers are rounded to what its dimensions store. -/
theorem represents_fromFloatArray {pcid : Nat} {array : FloatArray} {out : SerializedPatch}
    (hcond : CallCondition P lookup S (.fromFloatArray pcid array))
    (hrun : pcpatchFromFloatArray P lookup pcid array = .ok out) :
    ∃ q, PatchCall.Means P lookup (.fromFloatArray pcid array) [] q ∧
      out.Represents P lookup q := by
  obtain ⟨pl, hpl, hrun⟩ := bind_eq_ok.mp hrun
  obtain ⟨u, hu, hrun⟩ := bind_eq_ok.mp hrun
  obtain ⟨⟨sp, userdata⟩, hsp, hret⟩ := bind_eq_ok.mp hrun
  cases hret
  have hop : PatchCall.operation P lookup (.fromFloatArray pcid array) =
      .ok (some (.fromPointlist pl)) := by
    rw [PatchCall.operation, hpl]
    rfl
  have hopRun : Operation.run P S (.fromPointlist pl) = .ok (some (.uncompressed u)) := by
    rw [Operation.run, hu]
    rfl
  -- the list holds one point for each `ndims` numbers
  obtain ⟨s, hfound, hrest, hpos, hitems⟩ := pointlistOfFloats_eq_ok hpl hu
  have hschemas : ∀ pt ∈ (List.range (array.elems.length / s.ndims)).map fun i =>
      storedPoint P s (numbersAt s array.elems i), pt.schema = s := fun pt hpt => by
    obtain ⟨i, -, rfl⟩ := List.mem_map.mp hpt
    rfl
  obtain ⟨hintegral, hin⟩ := exact_of_pointlist hitems hschemas (hcond.exact _ hop fun _ => by simp)
    (by simpa using (Nat.ne_of_gt hpos))
  obtain ⟨hus, hsto⟩ := storable_of_pointlist hitems hschemas hintegral hin hu
  have hrep := hsto.write lookup (by rw [PcPatch.schema, hus, htable.pcid_eq hfound, hfound])
    (hcond.below _ _ hop hopRun fun _ => by simp) hsp
  rw [PcPatch.schema, hus, List.map_map] at hrep
  exact ⟨⟨s, _⟩, ⟨hfound, hrest, rfl⟩, hrep⟩

/-- Patches of an array, put together. Here `pss` has one sequence for each element that is
not NULL, and an item of the loop is what `readPatch` reads from that element, so the two
lists are joined along the array. -/
theorem represents_fromPatchArray {array : ArrayType} {out : SerializedPatch}
    (hcond : CallCondition P lookup S (.fromPatchArray array))
    {pss : List PointSequence} (h : List.Forall₂ (SerializedPatch.Represents P lookup)
      (PatchCall.inputs P.endian (.fromPatchArray array)) pss)
    (hrun : pcpatchFromPcpatchArray P lookup array = .ok (some out)) :
    ∃ q, PatchCall.Means P lookup (.fromPatchArray array) pss q ∧ out.Represents P lookup q := by
  obtain ⟨pa, hpa, hrun⟩ := bind_eq_ok.mp hrun
  obtain ⟨qa, userdata, hqa, hsp⟩ := serializeSome_eq_ok hrun
  obtain ⟨q, rfl, rfl⟩ := Option.map_eq_some_iff.mp hqa
  unfold pcpatchFromPatchArray at hpa
  split at hpa
  · cases hpa
  · obtain ⟨_, -, hpa⟩ := bind_eq_ok.mp hpa
    obtain ⟨c, hc, hpa⟩ := bind_eq_ok.mp hpa
    split at hpa
    · cases hpa
    · next hitems =>
        obtain ⟨u, hu, hpa⟩ := bind_eq_ok.mp hpa
        cases hpa
        have hop : PatchCall.operation P lookup (.fromPatchArray array) =
            .ok (some (.fromPatchlist c.items)) := by
          rw [PatchCall.operation, hc]
          rfl
        have hopRun : Operation.run P S (.fromPatchlist c.items) =
            .ok (some (.uncompressed q)) := by
          rw [Operation.run, hu]
          rfl
        obtain ⟨serpas, hserpas, hfrom⟩ := collectElement_from htable hc
        -- the elements that the loop reads are the inputs of the call
        have hinputs : PatchCall.inputs P.endian (.fromPatchArray array) = serpas := by
          rw [PatchCall.inputs, elementsOf, hserpas]
          rfl
        rw [hinputs] at h
        obtain ⟨s, hs, hfound, hall⟩ := hfrom.schema_eq hitems
        -- an item is what is read from an element
        have hitem : List.Forall₂ (fun (pa : PcPatch) (ps : PointSequence) =>
            (pa.schema = s ∧ ps.schema = s) ∧ pa.Kept P ps.points) c.items pss := by
          refine (forall₂_join hall h).imp fun pa ps hboth => ?_
          obtain ⟨serpa, ⟨hpcid, hdes⟩, hrep⟩ := hboth
          obtain ⟨r, hr, hschema, -, hsto⟩ := hrep.read
          have hps := hrep.found
          rw [hpcid, hfound] at hps
          cases hps
          rw [readPatch, schemaFromPcid_eq_ok.mpr hrep.found, ok_bind, hdes] at hr
          cases hr
          exact ⟨⟨hschema, rfl⟩, hsto.kept⟩
        obtain ⟨hlen, hget⟩ := List.forall₂_iff_get.mp hitem
        have hschemas : ∀ pa ∈ c.items, pa.schema = s := fun pa hpa => by
          obtain ⟨i, hi, rfl⟩ := List.mem_iff_getElem.mp hpa
          exact (hget i hi (by omega)).1.1
        have hkepts : List.Forall₂ (PcPatch.Kept P) c.items (pss.map PointSequence.points) := by
          rw [List.forall₂_map_right_iff]
          exact hitem.imp fun _ _ hpa => hpa.2
        -- all items have one schema, so the union has the points of all of them in order
        obtain ⟨hsame, hkept⟩ := kept_of_fromPatchlist hkepts
          (fun pa hpa pb hpb _ => (hschemas pa hpa).trans (hschemas pb hpb).symm) hu
        obtain ⟨pa, hpa⟩ := List.exists_mem_of_ne_nil _ hitems
        have hqs : q.schema = s := (hsame pa hpa).symm.trans (hschemas pa hpa)
        have hrep := (hkept.storable (truthful_fromPatchlist hu)).write lookup
          (by rw [PcPatch.schema, hqs, hfound])
          (hcond.below _ _ hop hopRun fun _ => by simp) hsp
        rw [PcPatch.schema, hqs] at hrep
        refine ⟨⟨s, _⟩, ⟨fun ps hps => ?_, rfl⟩, hrep⟩
        obtain ⟨i, hi, rfl⟩ := List.mem_iff_getElem.mp hps
        exact (hget i (by omega) hi).1.2

end Calls

end Pointcloud
