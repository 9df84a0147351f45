/-
Pointcloud.Pgsql.ArrayInputTheorems — the elements of an array that are not NULL
are read in order, each at its start.

`walkArray_eq` says so for whatever is done with an element. What the loops over
points and patches collect is then a fold over the elements: all of them where
they have one pcid, and an error at the first that has another.

The walk is generic, in the function that is applied to an element and in the type
of the variable for the offset, since the two loops of the source differ in that: one
keeps it in an `int`, the other in a `size_t`. Both hold every start that occurs,
because the array lies in memory that was allocated (`store_start`). So the loops
are the same fold, by one induction on the entries (`walkArray_elements`), and
differ only in what an element is parsed to (`ElementOf`).

`Packs` describes the array as it is laid out in memory, and nothing of it is
checked by the loops. Elements that are not NULL stand one behind the other, each
rounded up to a multiple of its alignment; NULLs take no room, and only the bitmap
of nulls tells of them.
-/
import Pointcloud.Patch.UnionTheorems
import Pointcloud.Pgsql.ArrayInput
import Mathlib.Data.Nat.Bitwise

namespace Pointcloud

open Pointcloud.Base

variable {P : Platform}

/-! ## The walk -/

/-- What an element takes, with the bytes up to the next one. -/
def paddedLength (element : Bytes) : Nat := intAlign element.length

/-- The array has these elements, `none` for NULL: the bitmap marks the ones that there
are, and their bytes lie behind each other, with their length in the first word. -/
structure Packs (en : Endian) (array : ArrayType) (elems : List (Option Bytes)) : Prop where
  nelems_eq : array.nelems = elems.length
  bitmap : ∀ bitmap, array.nullbitmap = some bitmap → elems.length ≤ 8 * bitmap.length ∧
    ∀ i e, elems[i]? = some e → (bitmap.getD (i / 8) 0).toNat.testBit (i % 8) = e.isSome
  full : array.nullbitmap = none → ∀ e ∈ elems, e.isSome
  room : ∀ p ∈ starts paddedLength 0 elems.reduceOption, p.1 + p.2.length ≤ array.data.length
  bytes : ∀ p ∈ starts paddedLength 0 elems.reduceOption,
    (array.data.drop p.1).take p.2.length = p.2
  header : ∀ e ∈ elems.reduceOption, 4 ≤ e.length
  length_word : ∀ e ∈ elems.reduceOption, varsize en (en.natOf (e.take 4)) = e.length

section Walk

variable {en : Endian} {array : ArrayType} {elems : List (Option Bytes)}
  (h : Packs en array elems)

include h

/-- The bitmap tells the elements from the NULLs. -/
theorem arrayGetIsnull_eq {i : Nat} {e : Option Bytes} (he : elems[i]? = some e) :
    arrayGetIsnull array.nullbitmap i = .ok e.isNone := by
  have hi := (List.getElem?_eq_some_iff.mp he).1
  unfold arrayGetIsnull
  cases hmap : array.nullbitmap with
  | none =>
      have hsome := h.full hmap e (List.mem_of_getElem? he)
      rw [← Option.not_isSome, hsome, Bool.not_true]
  | some bitmap =>
      obtain ⟨hlen, hbits⟩ := h.bitmap bitmap hmap
      have hbyte : i / 8 < bitmap.length := by omega
      have hbit := hbits i e he
      rw [List.getD_eq_getElem?_getD, List.getElem?_eq_getElem hbyte, Option.getD_some] at hbit
      simp only [wordAt_ok hbyte, ok_bind, pure_eq_ok, Nat.one_shiftLeft, Nat.and_two_pow, hbit]
      cases e <;> simp

theorem elementAt_start {p : Nat × Bytes} (hp : p ∈ starts paddedLength 0 elems.reduceOption) :
    elementAt en array.data (p.1 : Int) = .ok p.2 := by
  have he : p.2 ∈ elems.reduceOption := by
    rw [← map_snd_starts paddedLength 0 elems.reduceOption]
    exact List.mem_map_of_mem hp
  have hroom := h.room p hp
  have hbytes := h.bytes p hp
  have hheader := h.header p.2 he
  have hword : (array.data.drop p.1).take 4 = p.2.take 4 := by
    conv_rhs => rw [← hbytes, List.take_take, Nat.min_eq_left hheader]
  rw [elementAt, readAt_ok (by omega), ok_bind, hword, h.length_word p.2 he,
    readAt_ok hroom, hbytes]

/-- The next offset can be stored in either type. -/
theorem store_start (type : OffsetType) {p : Nat × Bytes}
    (hp : p ∈ starts paddedLength 0 elems.reduceOption) :
    type.store ((p.1 : Int) + intAlign p.2.length) = ((p.1 + paddedLength p.2 : Nat) : Int) := by
  have hroom := h.room p hp
  have hdata := array.data_lt
  have hlt : p.1 + intAlign p.2.length < 1073741828 := by
    unfold intAlign
    omega
  cases type with
  | size =>
      simp only [OffsetType.store, sizeT, paddedLength]
      omega
  | int =>
      simp only [OffsetType.store, paddedLength]
      rw [← Int.natCast_add, int32_natCast (by omega)]

/-- The walk visits the elements that are not NULL in order, at their starts. -/
theorem walkArray_eq {σ : Type} (type : OffsetType) (visit : σ → Int → Run σ) (init : σ) :
    walkArray en type array visit init =
      (starts paddedLength 0 elems.reduceOption).foldlM (fun s p => visit s p.1) init := by
  unfold walkArray
  rw [h.nelems_eq, List.range_eq_range']
  let step := fun (st : σ × Int) i => do
    let isnull ← arrayGetIsnull array.nullbitmap i
    if isnull then return st
    else
      let next ← visit st.1 st.2
      let element ← elementAt en array.data st.2
      return (next, type.store (st.2 + intAlign element.length))
  have hloop : (List.range' 0 elems.length).foldlM step (init, ((0 : Nat) : Int)) = _ :=
    foldlM_slots paddedLength step (fun s p => visit s p.1)
    (fun i st hi => by simp only [step, Nat.zero_add, arrayGetIsnull_eq h hi]; rfl)
    (fun i s p hi hp => by
      simp only [step, Nat.zero_add, arrayGetIsnull_eq h hi, ok_bind, Option.isNone_some]
      simp only [Bool.false_eq_true, if_false, elementAt_start h hp, ok_bind,
        store_start h type hp])
  change ((List.range' 0 elems.length).foldlM step (init, ((0 : Nat) : Int)) >>= _) = _
  rw [hloop, bind_assoc]
  simp only [pure_bind, bind_pure]

/-- A walk that reads the element it visits is a walk over the elements. -/
theorem walkArray_elements {σ : Type} (type : OffsetType) (visit : σ → Bytes → Run σ) (init : σ) :
    walkArray en type array (fun s offset => do
      let element ← elementAt en array.data offset
      visit s element) init = elems.reduceOption.foldlM visit init := by
  have hread : ∀ (ps : List (Nat × Bytes)) (s : σ),
      (∀ p ∈ ps, p ∈ starts paddedLength 0 elems.reduceOption) →
      ps.foldlM (fun s p => do
        let element ← elementAt en array.data (p.1 : Int)
        visit s element) s = (ps.map Prod.snd).foldlM visit s := by
    intro ps
    induction ps with
    | nil => exact fun s _ => rfl
    | cons p ps ih =>
        intro s hps
        rw [List.foldlM_cons, elementAt_start h (hps p (by simp)), ok_bind, List.map_cons,
          List.foldlM_cons]
        exact bind_congr fun s' => ih s' fun q hq => hps q (by simp [hq])
  rw [walkArray_eq h, hread _ init fun _ hp => hp, map_snd_starts]

end Walk

/-! ## What is collected

The first element determines the schema. Another is added if its schema has the same
pcid, and is an error otherwise. `Collected.Has` is the invariant of the loop: it
has these items so far, all of them of that schema. -/

section Collect

variable {S α : Type} {lookup : Nat → Run (Option PcSchema)} {func : String}
  {parse : Bytes → Run S} {pcidOf : S → Nat} {deserialize : S → PcSchema → Run α}
  {schemaOf : α → PcSchema}

/-- The element is deserialized as the item, with the schema that its pcid has. -/
structure ElementOf (lookup : Nat → Run (Option PcSchema)) (parse : Bytes → Run S)
    (pcidOf : S → Nat) (deserialize : S → PcSchema → Run α) (schemaOf : α → PcSchema)
    (element : Bytes) (item : α) : Prop where
  found : lookup (schemaOf item).pcid = .ok (some (schemaOf item))
  pcid_ne : (schemaOf item).pcid ≠ 0
  stored : ∃ ser, parse element = .ok ser ∧ pcidOf ser = (schemaOf item).pcid ∧
    deserialize ser (schemaOf item) = .ok item

/-- What `collectElement` does with the element that it reads. -/
def addElement (lookup : Nat → Run (Option PcSchema)) (func : String) (parse : Bytes → Run S)
    (pcidOf : S → Nat) (deserialize : S → PcSchema → Run α) (c : Collected α) (element : Bytes) :
    Run (Collected α) := do
  let ser ← parse element
  let schema ← (match c.schema with
    | some schema => .ok (some schema)
    | none => lookup (pcidOf ser))
  if c.pcid ≠ 0 ∧ c.pcid ≠ pcidOf ser then
    raise (func ++ ": pcid mismatch (" ++ toString (int32 (pcidOf ser)) ++ " != " ++
      toString (int32 c.pcid) ++ ")")
  else
    match schema with
    | none => fault
    | some s => do
        let item ← deserialize ser s
        return ⟨some s, if c.pcid = 0 then pcidOf ser else c.pcid, c.items ++ [item]⟩

/-- These items have been collected. -/
structure Collected.Has (schemaOf : α → PcSchema) (c : Collected α) (items : List α) : Prop where
  items_eq : c.items = items
  schema_eq : c.schema = items.head?.map schemaOf
  pcid_eq : c.pcid = (items.head?.map fun item => (schemaOf item).pcid).getD 0

variable (func) in
/-- An item of the first one's pcid is added. -/
theorem addElement_ok {c : Collected α} {items : List α} (hc : c.Has schemaOf items)
    {element : Bytes} {item : α}
    (he : ElementOf lookup parse pcidOf deserialize schemaOf element item)
    (hsame : ∀ first, items.head? = some first → schemaOf first = schemaOf item) :
    ∃ c', addElement lookup func parse pcidOf deserialize c element = .ok c' ∧
      c'.Has schemaOf (items ++ [item]) := by
  obtain ⟨ser, hparse, hpcid, hitem⟩ := he.stored
  obtain ⟨hitems, hschema, hc0⟩ := hc
  rw [addElement, hparse, ok_bind]
  cases hhead : items.head? with
  | none =>
      rw [hhead, Option.map_none] at hschema hc0
      rw [Option.getD_none] at hc0
      have hnil : items = [] := List.head?_eq_none_iff.mp hhead
      simp only [hschema, hc0, hpcid, he.found, ok_bind, ne_eq, not_true_eq_false, false_and,
        if_false, hitem, if_true, pure_eq_ok]
      refine ⟨_, rfl, ?_, ?_, ?_⟩ <;> simp [hitems, hnil]
  | some first =>
      have hfirst := hsame first hhead
      rw [hhead, Option.map_some] at hschema hc0
      rw [Option.getD_some, hfirst] at hc0
      simp only [hschema, hc0, hpcid, hfirst, ok_bind, ne_eq, not_true_eq_false, and_false,
        if_false, hitem, he.pcid_ne, pure_eq_ok]
      refine ⟨_, rfl, ?_, ?_, ?_⟩ <;> simp [hitems, hhead, hfirst]

variable (func) in
/-- An item of another pcid is refused. -/
theorem addElement_mismatch {c : Collected α} {items : List α} (hc : c.Has schemaOf items)
    {element : Bytes} {first item : α}
    (he : ElementOf lookup parse pcidOf deserialize schemaOf element item)
    (hfirst : items.head? = some first) (hzero : (schemaOf first).pcid ≠ 0)
    (hne : (schemaOf first).pcid ≠ (schemaOf item).pcid) :
    Raises (addElement lookup func parse pcidOf deserialize c element) := by
  obtain ⟨ser, hparse, hpcid, -⟩ := he.stored
  obtain ⟨-, hschema, hc0⟩ := hc
  rw [hfirst, Option.map_some] at hschema hc0
  rw [Option.getD_some] at hc0
  rw [addElement, hparse, ok_bind, hschema, ok_bind, hc0, hpcid, if_pos ⟨hzero, hne⟩]
  exact ⟨_, rfl⟩

section Items

variable {elements : List Bytes} {items : List α}
  (h : List.Forall₂ (ElementOf lookup parse pcidOf deserialize schemaOf) elements items)

include h

theorem exists_element : ∀ item ∈ items,
    ∃ element, ElementOf lookup parse pcidOf deserialize schemaOf element item :=
  ((List.forall₂_and_left _ _).mp (h.flip.imp fun _ element he => ⟨⟨element, he⟩, he⟩)).1

/-- A pcid stands for one schema, that of the table. -/
theorem schemaOf_eq {a b : α} (ha : a ∈ items) (hb : b ∈ items)
    (hpcid : (schemaOf a).pcid = (schemaOf b).pcid) : schemaOf a = schemaOf b := by
  obtain ⟨_, hafound⟩ := exists_element h a ha
  obtain ⟨_, hbfound⟩ := exists_element h b hb
  have hboth := hafound.found
  rw [hpcid, hbfound.found] at hboth
  simpa using hboth.symm

variable (func) in
/-- Elements of one schema are all collected. -/
theorem collect_ok (hsame : ∀ a ∈ items, ∀ b ∈ items, schemaOf a = schemaOf b) :
    ∃ c, elements.foldlM (addElement lookup func parse pcidOf deserialize) ⟨none, 0, []⟩ = .ok c ∧
      c.Has schemaOf items := by
  have hboth : List.Forall₂ (fun item e =>
      item ∈ items ∧ ElementOf lookup parse pcidOf deserialize schemaOf e item) items elements :=
    (List.forall₂_and_left _ _).mpr ⟨fun _ hitem => hitem, h.flip⟩
  have hadd : ∀ (c : Collected α) (collected : List α) (element : Bytes) (item : α),
      (c.Has schemaOf collected ∧ ∀ i ∈ collected, i ∈ items) →
      (item ∈ items ∧ ElementOf lookup parse pcidOf deserialize schemaOf element item) →
      ∃ c', addElement lookup func parse pcidOf deserialize c element = .ok c' ∧
        c'.Has schemaOf (collected ++ [item]) ∧ ∀ i ∈ collected ++ [item], i ∈ items := by
    rintro c collected element item ⟨hc, hmem⟩ ⟨hitem, he⟩
    obtain ⟨c', hrun, hc'⟩ := addElement_ok func hc he fun first hfirst =>
      hsame first (hmem first (List.mem_of_mem_head? hfirst)) item hitem
    refine ⟨c', hrun, hc', fun i hi => ?_⟩
    rcases List.mem_append.mp hi with hi | hi
    · exact hmem i hi
    · rwa [List.mem_singleton.mp hi]
  have hstart : Collected.Has schemaOf ⟨none, 0, []⟩ [] ∧ ∀ i ∈ ([] : List α), i ∈ items :=
    ⟨⟨rfl, rfl, rfl⟩, by simp⟩
  obtain ⟨c, hrun, hc, -⟩ := foldlM_collect hadd hboth.flip hstart
  exact ⟨c, hrun, hc⟩

variable (func) in
/-- The first element of another pcid is refused. -/
theorem collect_mismatch {first item : α} (hfirst : items.head? = some first)
    (hitem : item ∈ items) (hne : (schemaOf first).pcid ≠ (schemaOf item).pcid) :
    Raises (elements.foldlM (addElement lookup func parse pcidOf deserialize) ⟨none, 0, []⟩) := by
  obtain ⟨b, hb⟩ : ∃ b, items.find? (fun i => (schemaOf i).pcid ≠ (schemaOf first).pcid) = some b :=
    Option.isSome_iff_exists.mp (List.find?_isSome.mpr ⟨item, hitem, by simpa using hne.symm⟩)
  obtain ⟨hother, same, rest, hsplit, hsame⟩ := List.find?_eq_some_iff_append.mp hb
  simp only [ne_eq, decide_not, Bool.not_eq_eq_eq_not, Bool.not_true, decide_eq_false_iff_not,
    Bool.not_not, decide_eq_true_eq] at hother hsame
  have hhead : same.head? = some first := by
    cases same with
    | nil =>
        rw [hsplit, List.nil_append, List.head?_cons, Option.some.injEq] at hfirst
        exact absurd (by rw [hfirst]) hother
    | cons a same =>
        rw [hsplit, List.cons_append, List.head?_cons] at hfirst
        exact hfirst
  have hmem : ∀ i ∈ same ++ b :: rest, i ∈ items := fun i hi => by rwa [hsplit]
  have hfirstmem : first ∈ items := List.mem_of_mem_head? hfirst
  have hbefore := List.forall₂_take_append _ _ _ (hsplit ▸ h)
  have hbehind := List.forall₂_drop_append _ _ _ (hsplit ▸ h)
  obtain ⟨e, es, he, -, hdrop⟩ := List.forall₂_cons_right_iff.mp hbehind
  obtain ⟨c, hrun, hc⟩ := collect_ok func hbefore fun i hi j hj =>
    schemaOf_eq h (hmem i (by simp [hi])) (hmem j (by simp [hj]))
      ((hsame i hi).trans (hsame j hj).symm)
  obtain ⟨_, hzero⟩ := exists_element h first hfirstmem
  obtain ⟨msg, hmsg⟩ := addElement_mismatch func hc he hhead hzero.pcid_ne
    (Ne.symm hother)
  refine ⟨msg, ?_⟩
  rw [← List.take_append_drop same.length elements, List.foldlM_append, hrun, ok_bind, hdrop,
    List.foldlM_cons, hmsg]
  rfl

end Items

end Collect

/-! ## Points -/

/-- The element is the point, as `pc_point_serialize` stores it: the length, the pcid
and the data, and three bytes that the structure ends with. -/
structure PointElement (en : Endian) (lookup : Nat → Run (Option PcSchema)) (element : Bytes)
    (pt : PcPoint) : Prop where
  found : lookup pt.schema.pcid = .ok (some pt.schema)
  pcid_ne : pt.schema.pcid ≠ 0
  readonly_eq : pt.readonly = true
  length_eq : element.length = 11 + pt.schema.size
  length_word : varsize en (en.natOf (element.take 4)) = element.length
  pcid_eq : en.natOf ((element.drop 4).take 4) = pt.schema.pcid
  data_eq : (element.drop 8).take pt.schema.size = pt.data

theorem PointElement.elementOf {lookup : Nat → Run (Option PcSchema)} {element : Bytes}
    {pt : PcPoint} (h : PointElement P.endian lookup element pt) :
    ElementOf lookup (serializedPointOf P.endian) SerializedPoint.pcid
      (pcPointDeserialize P.endian) PcPoint.schema element pt := by
  have hlen := h.length_eq
  have hlt := pt.schema.size_lt
  have hsize : readAt element 0 4 = .ok (element.take 4) := by
    have hat : readAt element ((0 : Nat) : Int) 4 = _ := readAt_ok (by omega)
    rwa [List.drop_zero] at hat
  have hpcid : readAt element ((4 : Nat) : Int) 4 = .ok ((element.drop 4).take 4) :=
    readAt_ok (by omega)
  refine ⟨h.found, h.pcid_ne, ⟨P.endian.natOf (element.take 4),
    P.endian.natOf ((element.drop 4).take 4), element.drop 8⟩, ?_, h.pcid_eq, ?_⟩
  · rw [serializedPointOf, hsize, ok_bind]
    change (readAt element ((4 : Nat) : Int) 4 >>= _) = _
    rw [hpcid, ok_bind, pure_eq_ok]
  · have hdata : pcPointFromData pt.schema (element.drop 8) ((0 : Nat) : Int) = _ :=
      pcPointFromData_ok (by rw [List.length_drop]; omega)
    simp only [List.drop_zero] at hdata
    have hpgsize : pt.schema.size =
        sizeT ((varsize P.endian (P.endian.natOf (element.take 4)) : Int) + 1 -
          sizeofSerializedPoint) := by
      rw [h.length_word, hlen, sizeT, sizeofSerializedPoint]
      omega
    rw [pcPointDeserialize, if_neg (not_not.mpr hpgsize)]
    refine hdata.trans ?_
    obtain ⟨readonly, schema, data, hwidth⟩ := pt
    simp only [Except.ok.injEq, PcPoint.mk.injEq, true_and]
    exact ⟨h.readonly_eq.symm, h.data_eq⟩

/-- Points of one schema are put into a patch. -/
theorem fromPointlist_ok {s : PcSchema} (hvalid : s.Valid) {pts : List PcPoint}
    (hschema : ∀ pt ∈ pts, pt.schema = s) (hne : pts ≠ []) {pl : PcPointlist}
    (hpl : pl.points = pts.map some) (hint : pts.length ≤ 2147483648) :
    ∃ pa, pcPatchUncompressedFromPointlist P pl = .ok pa ∧ pa.schema = s ∧
      pa.Holds (pts.map PcPoint.data) := by
  obtain ⟨first, rest, rfl⟩ := List.exists_cons_of_ne_nil hne
  have hfirst := hschema first (by simp)
  have hsize := s.size_lt
  have hlen : pl.points.length = (first :: rest).length := by rw [hpl, List.length_map]
  have hroom : s.size * (first :: rest).length < 9223372036854775808 := by
    have hle := Nat.mul_le_mul (Nat.le_sub_one_of_lt hsize) hint
    omega
  have hcopy : ∀ pt ∈ first :: rest, copyPoint s pt = .ok pt.data := by
    intro pt hpt
    have hs := hschema pt hpt
    have hread : readAt pt.data ((0 : Nat) : Int) s.size = .ok _ :=
      readAt_ok (by rw [pt.length_eq, hs]; omega)
    rw [List.drop_zero, ← hs, ← pt.length_eq, List.take_length, pt.length_eq, hs] at hread
    rw [copyPoint, if_neg (not_not.mpr (congrArg PcSchema.pcid hs))]
    exact hread
  have hwidth : ∀ r ∈ (first :: rest).map PcPoint.data, r.length = s.size := by
    intro r hr
    obtain ⟨pt, hpt, rfl⟩ := List.mem_map.mp hr
    rw [pt.length_eq, hschema pt hpt]
  have hflat : ((first :: rest).map PcPoint.data).flatten.length =
      s.size * (first :: rest).length := by
    rw [length_flatten_of_width hwidth, List.length_map, Nat.mul_comm]
  obtain ⟨xdim, hx, hxdim⟩ := hvalid.xdimension
  obtain ⟨ydim, hy, hydim⟩ := hvalid.ydimension
  have hlt : ((first :: rest).map PcPoint.data).length < 4294967296 := by
    rw [List.length_map]
    omega
  have hmade := patchOfRecords_holds hwidth hlt
  have hrecords : PcPatchUncompressed.Holds
      { patchOfRecords s ((first :: rest).map PcPoint.data) with bounds := pcBoundsInit }
      ((first :: rest).map PcPoint.data) := ⟨hmade.npoints_lt, hmade.room, hmade.records_eq⟩
  have hint' : ((first :: rest).map PcPoint.data).length ≤ 2147483648 := by rwa [List.length_map]
  have hrun := computeExtent_computeStats_ok P hrecords hint' hxdim hydim hx hy
  refine ⟨_, Eq.trans ?_ hrun, rfl, hrecords.npoints_lt, hrecords.room, hrecords.records_eq⟩
  have hsome : pl.points.filterMap id = first :: rest := by
    rw [hpl, List.filterMap_map]
    exact List.filterMap_some
  have hpoints : pl.points = some first :: rest.map some := hpl
  unfold pcPatchUncompressedFromPointlist
  split
  · next hnil => exact nomatch hnil.symm.trans hpoints
  · next hnone => exact nomatch hnone.symm.trans hpoints
  · next pt _ hcons =>
      have hpt : pt = first := Option.some.inj (List.head_eq_of_cons_eq (hcons.symm.trans hpoints))
      have hzeros : (zeros (s.size * (first :: rest).length)).drop
          ((first :: rest).map PcPoint.data).flatten.length = [] := by
        rw [List.drop_eq_nil_iff, length_zeros, hflat]
      simp only [hpt, hfirst, hlen, hsome]
      rw [pcalloc_ok hroom, ok_bind, intLoop_ok hint, ok_bind, mapM_eq_ok_map hcopy, ok_bind,
        emit_ok (by rw [List.length_nil, Nat.zero_add, hflat]), ok_bind, List.nil_append, hzeros,
        List.append_nil]
      simp only [patchOfRecords, List.length_map]

/-! ## Patches -/

/-- The element is a patch that holds points: `pc_patch_deserialize` reads it with the
schema of its pcid. -/
structure PatchElement (P : Platform) (lookup : Nat → Run (Option PcSchema)) (element : Bytes)
    (pa : PcPatch) : Prop extends
    ElementOf lookup (serializedPatchOf P.endian) SerializedPatch.pcid (pcPatchDeserialize P)
      PcPatch.schema element pa where
  holds : ∃ pts, pa.Holds P pts

/-! ## Arrays

The sections above, for either kind of element (`readsItems`): what the loop makes
of an array whose elements parse, with the cases of no elements and of a mismatch. -/

/-- Different pcids among the items. -/
def Mismatch {α : Type} (schemaOf : α → PcSchema) (items : List α) : Prop :=
  ∃ a ∈ items, ∃ b ∈ items, (schemaOf a).pcid ≠ (schemaOf b).pcid

/-- The loop collects exactly these items and hands them over to `build`. The null
pointer is returned exactly for none, and an error reported exactly for different pcids. -/
structure ReadsItems {α : Type} (schemaOf : α → PcSchema)
    (build : List α → Run PcPatchUncompressed) (loop : Run (Collected α))
    (result : Run (Option PcPatchUncompressed)) (items : List α) : Prop where
  collects : ¬ Mismatch schemaOf items → ∃ c, loop = .ok c ∧ c.items = items
  builds : ¬ Mismatch schemaOf items → items ≠ [] → result = (do
    let pa ← build items
    return some pa)
  null_iff : result = .ok none ↔ items = []
  raises_iff : Raises result ↔ Mismatch schemaOf items

section Arrays

variable {lookup : Nat → Run (Option PcSchema)} {array : ArrayType} {elems : List (Option Bytes)}
  (h : Packs P.endian array elems)

include h

theorem nelems_lt_of_items {α : Type} {R : Bytes → α → Prop} {items : List α}
    (hitems : List.Forall₂ R elems.reduceOption items) : items.length < 134217728 := by
  have hlt := array.nelems_lt
  have hle := List.reduceOption_length_le elems
  rw [← hitems.length_eq]
  rw [h.nelems_eq] at hlt
  omega

/-- What the functions for points and for patches have in common. -/
theorem readsItems {S α : Type} {func : String} {parse : Bytes → Run S} {pcidOf : S → Nat}
    {deserialize : S → PcSchema → Run α} {schemaOf : α → PcSchema}
    {build : List α → Run PcPatchUncompressed} {loop : Run (Collected α)}
    {result : Run (Option PcPatchUncompressed)} {items : List α}
    (hitems : List.Forall₂ (ElementOf lookup parse pcidOf deserialize schemaOf)
      elems.reduceOption items)
    (hloop : loop = elems.reduceOption.foldlM
      (addElement lookup func parse pcidOf deserialize) ⟨none, 0, []⟩)
    (hresult : result = if array.nelems = 0 then .ok none else (do
      let _ ← pcalloc (8 * array.nelems)
      let c ← loop
      if c.items = [] then return none
      else
        let pa ← build c.items
        return some pa))
    (hbuild : (∀ a ∈ items, ∀ b ∈ items, schemaOf a = schemaOf b) → items ≠ [] →
      ¬ Raises (build items)) :
    ReadsItems schemaOf build loop result items := by
  have hnelems := array.nelems_lt
  have hzero : array.nelems = 0 → items = [] := by
    intro hnone
    have hle := List.reduceOption_length_le elems
    rw [hitems.length_eq, ← h.nelems_eq, hnone] at hle
    exact List.eq_nil_of_length_eq_zero (Nat.le_zero.mp hle)
  have hsame : ¬ Mismatch schemaOf items → ∀ a ∈ items, ∀ b ∈ items, schemaOf a = schemaOf b := by
    intro hnone a ha b hb
    refine schemaOf_eq hitems ha hb ?_
    by_contra hne
    exact hnone ⟨a, ha, b, hb, hne⟩
  have hcollect : ¬ Mismatch schemaOf items → ∃ c, loop = .ok c ∧ c.items = items := by
    intro hnone
    obtain ⟨c, hrun, hc⟩ := collect_ok func hitems (hsame hnone)
    exact ⟨c, hloop.trans hrun, hc.items_eq⟩
  have hnull : items = [] → result = .ok none := by
    intro hnil
    obtain ⟨c, hrun, hc⟩ := hcollect (by rw [hnil]; simp [Mismatch])
    rw [hresult]
    split
    · rfl
    · rw [pcalloc_ok (by omega), ok_bind, hrun, ok_bind, if_pos (hc.trans hnil), pure_eq_ok]
  have hbuilds : ¬ Mismatch schemaOf items → items ≠ [] → result = (do
      let pa ← build items
      return some pa) := by
    intro hnone hne
    obtain ⟨c, hrun, hc⟩ := hcollect hnone
    rw [hresult, if_neg fun hnelems => hne (hzero hnelems), pcalloc_ok (by omega), ok_bind, hrun,
      ok_bind, if_neg (by rwa [hc]), hc]
  have hraises : Mismatch schemaOf items → Raises result := by
    rintro ⟨a, ha, b, hb, hdiff⟩
    have hne : items ≠ [] := List.ne_nil_of_mem ha
    obtain ⟨first, hfirst⟩ : ∃ first, items.head? = some first :=
      ⟨items.head hne, List.head?_eq_some_head hne⟩
    have hmismatch : ∃ item ∈ items, (schemaOf first).pcid ≠ (schemaOf item).pcid := by
      by_cases hfa : (schemaOf first).pcid = (schemaOf a).pcid
      · exact ⟨b, hb, fun hfb => hdiff (hfa.symm.trans hfb)⟩
      · exact ⟨a, ha, hfa⟩
    obtain ⟨item, hitem, hother⟩ := hmismatch
    obtain ⟨msg, hmsg⟩ := collect_mismatch func hitems hfirst hitem hother
    rw [hresult, if_neg fun hnelems => hne (hzero hnelems), pcalloc_ok (by omega), ok_bind,
      hloop.trans hmsg, raise_bind]
    exact ⟨msg, rfl⟩
  refine ⟨hcollect, hbuilds, ⟨fun hok => ?_, hnull⟩, ⟨fun hr => ?_, hraises⟩⟩
  · by_contra hne
    by_cases hmismatch : Mismatch schemaOf items
    · obtain ⟨msg, hmsg⟩ := hraises hmismatch
      exact absurd (hmsg.symm.trans hok) (raise_ne_ok _ _)
    · rw [hbuilds hmismatch hne] at hok
      obtain ⟨pa, -, hpa⟩ := bind_eq_ok.mp hok
      exact nomatch hpa
  · by_contra hmismatch
    by_cases hnil : items = []
    · rw [hnull hnil] at hr
      exact not_raises_ok _ hr
    · rw [hbuilds hmismatch hnil, raises_bind] at hr
      rcases hr with hr | ⟨pa, -, hr⟩
      · exact hbuild (hsame hmismatch) hnil hr
      · exact not_raises_ok _ hr

/-- What the loop over points hands over. -/
def patchOfPoints (P : Platform) (pts : List PcPoint) : Run PcPatchUncompressed := do
  let pl ← pointlistOf pts
  pcPatchUncompressedFromPointlist P pl

theorem patchOfPoints_ok (hvalid : ∀ pcid s, lookup pcid = .ok (some s) → s.Valid)
    {pts : List PcPoint}
    (hpts : List.Forall₂ (PointElement P.endian lookup) elems.reduceOption pts)
    (hsame : ∀ a ∈ pts, ∀ b ∈ pts, a.schema = b.schema) (hne : pts ≠ []) :
    ∃ pa, patchOfPoints P pts = .ok pa ∧ pa.Holds (pts.map PcPoint.data) := by
  have hlt := nelems_lt_of_items h hpts
  obtain ⟨first, hfirst⟩ := List.exists_mem_of_ne_nil pts hne
  obtain ⟨_, hfound⟩ := exists_element (hpts.imp fun _ _ he => he.elementOf) first hfirst
  have hshort : (pts.map some).length < 4294967296 := by
    rw [List.length_map]
    omega
  obtain ⟨pl, hpl⟩ : ∃ pl, pl = PcPointlist.mk (pts.map some) hshort := ⟨_, rfl⟩
  obtain ⟨pa, hrun, -, hholds⟩ := fromPointlist_ok (P := P) (hvalid _ _ hfound.found)
    (fun pt hpt => hsame pt hpt first hfirst) hne (congrArg PcPointlist.points hpl) (by omega)
  refine ⟨pa, ?_, hholds⟩
  rw [patchOfPoints, pointlistOf, dif_pos hshort, ok_bind, ← hpl, hrun]

theorem pcpatchFromPointArray_reads (hvalid : ∀ pcid s, lookup pcid = .ok (some s) → s.Valid)
    {pts : List PcPoint}
    (hpts : List.Forall₂ (PointElement P.endian lookup) elems.reduceOption pts) :
    ReadsItems PcPoint.schema (patchOfPoints P) (pointsOfArray P lookup array)
      (pcpatchFromPointArray P lookup array) pts := by
  refine readsItems h (hpts.imp fun _ _ he => he.elementOf) (walkArray_elements h .size _ _) ?_ ?_
  · simp only [pcpatchFromPointArray, patchOfPoints, bind_assoc, pure_eq_ok]
  · intro hsame hne
    obtain ⟨pa, hpa, -⟩ := patchOfPoints_ok h hvalid hpts hsame hne
    rw [hpa]
    exact not_raises_ok pa

theorem pcpatchFromPatchArray_reads {pas : List PcPatch}
    (hpas : List.Forall₂ (PatchElement P lookup) elems.reduceOption pas) :
    ReadsItems PcPatch.schema (pcPatchFromPatchlist P) (patchesOfArray P lookup array)
      (pcpatchFromPatchArray P lookup array) pas := by
  refine readsItems h (hpas.imp fun _ _ he => he.toElementOf) (walkArray_elements h .size _ _)
    rfl fun hsame hne => ?_
  obtain ⟨first, hfirst⟩ : ∃ first, pas.head? = some first :=
    ⟨pas.head hne, List.head?_eq_some_head hne⟩
  have hholds : ∀ pa ∈ pas, ∃ pts, pa.Holds P pts :=
    ((List.forall₂_and_left _ _).mp (hpas.flip.imp fun _ _ he => ⟨he.holds, he⟩)).1
  exact not_raises_fromPatchlist hholds hfirst fun pa hpa =>
    hsame pa hpa first (List.mem_of_mem_head? hfirst)

omit lookup in
theorem arrayToCstringArray_ok : arrayToCstringArray P.endian array =
    .ok (if elems = [] then none else some (elems.reduceOption.map textToCstring),
      elems.reduceOption.length) := by
  have hnelems := array.nelems_lt
  have hcollect : ∀ (es : List Bytes) (strings : List Bytes),
      es.foldlM (fun (cstring : List Bytes) text =>
        (return cstring ++ [textToCstring text] : Run (List Bytes))) strings =
      .ok (strings ++ es.map textToCstring) := by
    intro es
    induction es with
    | nil => simp
    | cons e es ih =>
        intro strings
        rw [List.foldlM_cons, pure_eq_ok, ok_bind, ih, List.append_assoc, List.map_cons]
        rfl
  rw [arrayToCstringArray, pcalloc_ok (by omega), ok_bind, walkArray_elements h .int
    (fun (cstring : List Bytes) text => return cstring ++ [textToCstring text]), hcollect, ok_bind,
    h.nelems_eq, List.nil_append, List.length_map]
  simp only [List.length_eq_zero_iff, pure_eq_ok]

end Arrays

/-- Arrays with NULLs are read exactly: every walk visits the elements that are not NULL
in order, at their starts; points, patches and texts are collected from them. -/
theorem arrayInput_exact {lookup : Nat → Run (Option PcSchema)}
    (hvalid : ∀ pcid s, lookup pcid = .ok (some s) → s.Valid) {array : ArrayType}
    {elems : List (Option Bytes)} (h : Packs P.endian array elems) :
    (∀ (σ : Type) (type : OffsetType) (visit : σ → Int → Run σ) (init : σ),
      walkArray P.endian type array visit init =
        (starts paddedLength 0 elems.reduceOption).foldlM (fun s p => visit s p.1) init) ∧
    (∀ pts, List.Forall₂ (PointElement P.endian lookup) elems.reduceOption pts →
      ReadsItems PcPoint.schema (patchOfPoints P) (pointsOfArray P lookup array)
        (pcpatchFromPointArray P lookup array) pts ∧
      (¬ Mismatch PcPoint.schema pts → pts ≠ [] →
        ∃ pa, pcpatchFromPointArray P lookup array = .ok (some pa) ∧
          pa.Holds (pts.map PcPoint.data))) ∧
    (∀ pas, List.Forall₂ (PatchElement P lookup) elems.reduceOption pas →
      ReadsItems PcPatch.schema (pcPatchFromPatchlist P) (patchesOfArray P lookup array)
        (pcpatchFromPatchArray P lookup array) pas) ∧
    arrayToCstringArray P.endian array =
      .ok (if elems = [] then none else some (elems.reduceOption.map textToCstring),
        elems.reduceOption.length) := by
  refine ⟨fun σ type visit init => walkArray_eq h type visit init, fun pts hpts => ?_,
    fun pas hpas => pcpatchFromPatchArray_reads h hpas, arrayToCstringArray_ok h⟩
  have hreads := pcpatchFromPointArray_reads h hvalid hpts
  refine ⟨hreads, fun hnone hne => ?_⟩
  have hsame : ∀ a ∈ pts, ∀ b ∈ pts, a.schema = b.schema := by
    intro a ha b hb
    refine schemaOf_eq (hpts.imp fun _ _ he => he.elementOf) ha hb ?_
    by_contra hdiff
    exact hnone ⟨a, ha, b, hb, hdiff⟩
  obtain ⟨pa, hpa, hholds⟩ := patchOfPoints_ok h hvalid hpts hsame hne
  refine ⟨pa, ?_, hholds⟩
  rw [hreads.builds hnone hne, hpa, ok_bind, pure_eq_ok]

/-- The stored point (x, y) of pcid 1. -/
def pairElement (x y : Byte) : Bytes := [52, 0, 0, 0, 1, 0, 0, 0, x, y, 0, 0, 0]

/-- The points (5, 7) and (6, 8), with a NULL between them. -/
def pairsWithNull : ArrayType where
  nelems := 3
  nullbitmap := some [5]
  data := pairElement 5 7 ++ [0, 0, 0] ++ pairElement 6 8 ++ [0, 0, 0]
  nelems_lt := by decide
  data_lt := by decide

theorem packs_pairsWithNull :
    Packs Endian.little pairsWithNull [some (pairElement 5 7), none, some (pairElement 6 8)] where
  nelems_eq := rfl
  bitmap bitmap hmap := by
    obtain rfl : [5] = bitmap := Option.some.inj hmap
    refine ⟨by decide, fun i e he => ?_⟩
    match i, he with
    | 0, rfl => rfl
    | 1, rfl => rfl
    | 2, rfl => rfl
  full hnone := nomatch hnone
  room := by decide
  bytes := by decide
  header := by decide
  length_word := by decide

/-- A pair as it is read. -/
def pairPoint (x y : Byte) : PcPoint :=
  ⟨true, xySchema .uint8 .uint8 uint8_known uint8_known 1 .none, [x, y], rfl⟩

/-- A stored patch of pcid 1 with the point (5, 7), its bounds and statistics zero. -/
def onePairElement : Bytes :=
  [28, 1, 0, 0, 1, 0, 0, 0, 0, 0, 0, 0, 1, 0, 0, 0] ++ zeros 38 ++ [5, 7] ++ zeros 15

/-- The patch behind a NULL. -/
def patchBehindNull : ArrayType where
  nelems := 2
  nullbitmap := some [2]
  data := onePairElement ++ [0]
  nelems_lt := by decide
  data_lt := by decide

theorem packs_patchBehindNull :
    Packs Endian.little patchBehindNull [none, some onePairElement] where
  nelems_eq := rfl
  bitmap bitmap hmap := by
    obtain rfl : [2] = bitmap := Option.some.inj hmap
    refine ⟨by decide, fun i e he => ?_⟩
    match i, he with
    | 0, rfl => rfl
    | 1, rfl => rfl
  full hnone := nomatch hnone
  room := by decide
  bytes := by decide
  header := by decide
  length_word := by decide

/-- The patch as it is read. -/
def onePairPatch : PcPatchUncompressed :=
  { patchOfRecords (xySchema .uint8 .uint8 uint8_known uint8_known 1 .none) [[5, 7]] with
    readonly := true
    stats := some ⟨pairPoint 0 0, pairPoint 0 0, pairPoint 0 0⟩
    maxpoints := 0
    data := some ([5, 7] ++ zeros 15) }

theorem onePairElement_is :
    PatchElement Platform.plain onlyPairs onePairElement (.uncompressed onePairPatch) where
  found := rfl
  pcid_ne := Nat.one_ne_zero
  stored := by
    have hzero : ieeeDecode 11 52 0 = 0 := by decide +kernel
    have hread : ∀ off ∈ [(16 : Int), 24, 32, 40],
        pcDoubleFromPtr Endian.little onePairElement off .double = .ok (ieeeDecode 11 52 0) := by
      simp only [List.forall_mem_cons, List.not_mem_nil, false_implies, implies_true, and_true]
      exact ⟨rfl, rfl, rfl, rfl⟩
    refine ⟨⟨284, 1, 0, 1, ⟨0, 0, 0, 0⟩, zeros 6 ++ [5, 7] ++ zeros 15⟩, ?_, rfl, rfl⟩
    simp only [List.forall_mem_cons, hzero] at hread
    simp only [serializedPatchOf, Platform.plain, hread]
    rfl
  holds := ⟨[[5, 7]], by decide, by decide, rfl⟩

/-- Both points are collected, and the patch; as texts, the points are their bytes. -/
theorem arrayInput_exact_witness :
    (∃ pa, pcpatchFromPointArray Platform.plain onlyPairs pairsWithNull = .ok (some pa) ∧
      pa.Holds [[5, 7], [6, 8]]) ∧
    pcpatchFromPatchArray Platform.plain onlyPairs patchBehindNull = (do
      let pa ← pcPatchFromPatchlist Platform.plain [.uncompressed onePairPatch]
      return some pa) ∧
    arrayToCstringArray Endian.little pairsWithNull =
      .ok (some [[1, 0, 0, 0, 5, 7, 0, 0, 0], [1, 0, 0, 0, 6, 8, 0, 0, 0]], 2) := by
  have hword : varsize Endian.little (Endian.little.natOf [52, 0, 0, 0]) = 13 := by decide
  have hpcid : Endian.little.natOf [1, 0, 0, 0] = 1 := by decide
  have helement : ∀ x y : Byte,
      PointElement Endian.little onlyPairs (pairElement x y) (pairPoint x y) := fun x y =>
    ⟨rfl, Nat.one_ne_zero, rfl, rfl, hword, hpcid, rfl⟩
  obtain ⟨-, hpoints, -, htexts⟩ :=
    arrayInput_exact (P := Platform.plain) valid_of_onlyPairs packs_pairsWithNull
  obtain ⟨-, hpatch⟩ := hpoints [pairPoint 5 7, pairPoint 6 8]
    (.cons (helement 5 7) (.cons (helement 6 8) .nil))
  obtain ⟨-, -, hpatches, -⟩ :=
    arrayInput_exact (P := Platform.plain) valid_of_onlyPairs packs_patchBehindNull
  have hone := hpatches [.uncompressed onePairPatch] (.cons onePairElement_is .nil)
  refine ⟨hpatch ?_ (by simp), hone.builds ?_ (by simp), htexts⟩
  · rintro ⟨a, ha, b, hb, hdiff⟩
    simp only [List.mem_cons, List.not_mem_nil, or_false] at ha hb
    rcases ha with rfl | rfl <;> rcases hb with rfl | rfl <;> exact hdiff rfl
  · rintro ⟨a, ha, b, hb, hdiff⟩
    rw [List.mem_singleton.mp ha, List.mem_singleton.mp hb] at hdiff
    exact hdiff rfl

end Pointcloud
