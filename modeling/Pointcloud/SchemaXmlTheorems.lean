/-
Pointcloud.SchemaXmlTheorems — what a schema read from XML is good for.

`pcSchemaFromXml` looks at positions and at the coordinates, and at nothing
else: a schema is returned with a dimension of an unknown type, without a name
or with a scale of zero if the XML says so. `pcSchemaFromXml_usable_iff` says
when it does not. A usable schema is one of those that the rest of the library
is about (`exists_pcSchema`).

The reader changes a schema in steps, and each section follows one of them.

  - Of the children of an element only the last of a name counts, since each
    overwrites the field. `ReadsFrom es d d'` says what reading the entries `es`
    has made of `d`, and grows by an entry at its end.
  - A dimension that is read is stored at its position if the place is free.
    `InPlace s` is the invariant: what stands at a place has that position, and
    the names lead to places.
  - The offsets are the sums of the sizes in front. They are computed in 32 bits,
    and do not wrap around since there are at most ten million dimensions of at
    most eight bytes.
  - Names and metadata only set coordinates, and fields that play no part here
    (`Rechecked`).

So what is returned is determined, dimension by dimension, by the entries of one
element each (`dims_of_pcSchemaFromXml`), and it can be used if and only if these
elements declare something that can be used.
-/
import Pointcloud.Base.Ieee754Theorems
import Pointcloud.SchemaXml

namespace Pointcloud

open Pointcloud.Base

/-! ## A dimension -/

/-- The content of the last value of a name. -/
def lastEntry (name : String) : List (String × Option String) → Option String
  | [] => none
  | entry :: rest => (lastEntry name rest).or (if entry.1 = name then entry.2 else none)

/-- The values that count are those that were read last. -/
structure ReadsFrom (es : List (String × Option String)) (d d' : XmlDimension) : Prop where
  name_eq : d'.name = (lastEntry "name" es).or d.name
  scale_eq : d'.scale = ((lastEntry "scale" es).map atof).getD d.scale
  known : ∀ c, lastEntry "interpretation" es = some c →
    pcInterpretationNumber c = .ok d'.interpretation
  unread : lastEntry "interpretation" es = none → d'.interpretation = d.interpretation

theorem pointee_eq_ok {content : Option String} {c : String} (h : pointee content = .ok c) :
    content = some c := by
  cases content with
  | none => exact absurd h (fault_ne_ok c)
  | some s =>
      cases h
      rfl

/-- Any other value changes neither name, scale nor type. -/
theorem readsFrom_other {tag : String} {content : Option String} {d d' : XmlDimension}
    (hname : tag ≠ "name") (htype : tag ≠ "interpretation") (hscale : tag ≠ "scale")
    (h : d'.name = d.name ∧ d'.scale = d.scale ∧ d'.interpretation = d.interpretation) :
    ReadsFrom [(tag, content)] d d' := by
  constructor <;> simp [lastEntry, hname, htype, hscale, h]

theorem readEntry_ok {d d' : XmlDimension} {entry : String × Option String}
    (h : readEntry d entry = .ok d') : ReadsFrom [entry] d d' := by
  obtain ⟨tag, content⟩ := entry
  unfold readEntry at h
  split at h
  · next heq =>
      obtain ⟨c, hc, hret⟩ := bind_eq_ok.mp h
      cases heq
      cases pointee_eq_ok hc
      cases hret
      exact ⟨rfl, rfl, nofun, fun _ => rfl⟩
  · next heq =>
      obtain ⟨c, -, hret⟩ := bind_eq_ok.mp h
      cases heq
      cases hret
      exact readsFrom_other (by decide) (by decide) (by decide) ⟨rfl, rfl, rfl⟩
  · next heq =>
      obtain ⟨c, -, hret⟩ := bind_eq_ok.mp h
      cases heq
      cases hret
      exact readsFrom_other (by decide) (by decide) (by decide) ⟨rfl, rfl, rfl⟩
  · next heq =>
      obtain ⟨c, -, hret⟩ := bind_eq_ok.mp h
      cases heq
      cases hret
      exact readsFrom_other (by decide) (by decide) (by decide) ⟨rfl, rfl, rfl⟩
  · next heq =>
      obtain ⟨c, -, hret⟩ := bind_eq_ok.mp h
      cases heq
      cases hret
      exact readsFrom_other (by decide) (by decide) (by decide) ⟨rfl, rfl, rfl⟩
  · next heq =>
      obtain ⟨c, hc, hrest⟩ := bind_eq_ok.mp h
      obtain ⟨i, hi, hret⟩ := bind_eq_ok.mp hrest
      cases heq
      cases pointee_eq_ok hc
      cases hret
      refine ⟨rfl, rfl, fun c' hc' => ?_, nofun⟩
      cases Option.some.inj hc'
      exact hi
  · next heq =>
      obtain ⟨c, hc, hret⟩ := bind_eq_ok.mp h
      cases heq
      cases pointee_eq_ok hc
      cases hret
      exact ⟨rfl, rfl, nofun, fun _ => rfl⟩
  · next heq =>
      obtain ⟨c, -, hret⟩ := bind_eq_ok.mp h
      cases heq
      cases hret
      exact readsFrom_other (by decide) (by decide) (by decide) ⟨rfl, rfl, rfl⟩
  · next hname _ _ _ _ htype hscale _ =>
      cases h
      exact readsFrom_other hname htype hscale ⟨rfl, rfl, rfl⟩

theorem ReadsFrom.append {entry : String × Option String} {es : List (String × Option String)}
    {d₀ d₁ d₂ : XmlDimension} (h₁ : ReadsFrom [entry] d₀ d₁) (h₂ : ReadsFrom es d₁ d₂) :
    ReadsFrom (entry :: es) d₀ d₂ := by
  have hcons : ∀ name, lastEntry name (entry :: es) =
      (lastEntry name es).or (lastEntry name [entry]) := fun name => rfl
  refine ⟨?_, ?_, fun c hc => ?_, fun hnone => ?_⟩
  · rw [h₂.name_eq, h₁.name_eq, hcons, Option.or_assoc]
  · rw [h₂.scale_eq, h₁.scale_eq, hcons]
    cases lastEntry "scale" es <;> rfl
  · rw [hcons] at hc
    cases hlast : lastEntry "interpretation" es with
    | some c' =>
        rw [hlast] at hc
        cases hc
        exact h₂.known c hlast
    | none =>
        rw [hlast] at hc
        rw [h₂.unread hlast]
        exact h₁.known c hc
  · rw [hcons] at hnone
    obtain ⟨hlast, hfirst⟩ := Option.or_eq_none_iff.mp hnone
    rw [h₂.unread hlast, h₁.unread hfirst]

theorem readEntries_ok : ∀ {es : List (String × Option String)} {d d' : XmlDimension},
    es.foldlM readEntry d = .ok d' → ReadsFrom es d d'
  | [], d, d', h => by
      cases h
      exact ⟨rfl, rfl, nofun, fun _ => rfl⟩
  | entry :: es, d, d', h => by
      rw [List.foldlM_cons] at h
      obtain ⟨mid, hmid, h⟩ := bind_eq_ok.mp h
      exact (readEntry_ok hmid).append (readEntries_ok h)

/-- A dimension that the library can work with. -/
structure UsableDimension (d : XmlDimension) : Prop where
  known : d.interpretation ≠ .unknown
  scale_ne : ¬ IsZeroWord d.scale
  named : d.name ≠ none

/-- The element has a name, its type is a known one, and its scale is not zero; of several
values the last one counts, and the values are not empty. -/
structure DeclaresUsable (children : List XmlNode) : Prop where
  known : ∃ c i, lastEntry "interpretation" (entries children) = some c ∧
    pcInterpretationNumber c = .ok i ∧ i ≠ .unknown
  scale_ne : ∀ c, lastEntry "scale" (entries children) = some c → ¬ IsZeroWord (atof c)
  named : lastEntry "name" (entries children) ≠ none

theorem usableDimension_iff {children : List XmlNode} {d : XmlDimension}
    (h : readDimension children = .ok d) : UsableDimension d ↔ DeclaresUsable children := by
  obtain ⟨hname, hscale, hknown, hunread⟩ := readEntries_ok h
  have hone : ¬ IsZeroWord pcDimensionNew.scale := by decide
  constructor
  · rintro ⟨htype, hzero, hnamed⟩
    refine ⟨?_, fun c hc => ?_, ?_⟩
    · cases hlast : lastEntry "interpretation" (entries children) with
      | some c => exact ⟨c, d.interpretation, rfl, hknown c hlast, htype⟩
      | none => exact absurd (hunread hlast) htype
    · rwa [hscale, hc] at hzero
    · rwa [hname, show pcDimensionNew.name = none from rfl, Option.or_none] at hnamed
  · rintro ⟨⟨c, i, hlast, hi, hne⟩, hzero, hnamed⟩
    refine ⟨?_, ?_, ?_⟩
    · have heq := (hknown c hlast).symm.trans hi
      rw [Except.ok.injEq] at heq
      rwa [heq]
    · rw [hscale]
      cases hlast' : lastEntry "scale" (entries children) with
      | some c' => exact hzero c' hlast'
      | none => exact hone
    · rwa [hname, show pcDimensionNew.name = none from rfl, Option.or_none]

/-! ## All dimensions

Every element becomes a dimension at its place. A second one for the same place is
refused, and so is a place outside of the schema. -/

/-- Every dimension stands at its own position, the names lead to positions, and no
coordinate is known yet. -/
structure InPlace (s : XmlSchema) : Prop where
  position_eq : ∀ (i : Nat) (d : XmlDimension), s.dims[i]? = some (some d) → d.position = i
  namehash_lt : ∀ e ∈ s.namehash, e.2 < s.dims.length
  unknown : s.xdim = none ∧ s.ydim = none
  unknown_zm : s.zdim = none ∧ s.mdim = none

theorem inPlace_new (ndims : Nat) : InPlace (pcSchemaNew ndims) := by
  refine ⟨fun i d hd => ?_, by simp [pcSchemaNew], ⟨rfl, rfl⟩, rfl, rfl⟩
  exact nomatch List.eq_of_mem_replicate (List.mem_of_getElem? hd)

/-- Filling an empty place loses no dimension. -/
theorem mem_set_iff {α : Type} {l : List (Option α)} {p : Nat} (h : l[p]? = some none) (a x : α) :
    some x ∈ l.set p (some a) ↔ some x ∈ l ∨ x = a := by
  obtain ⟨hp, hnone⟩ := List.getElem?_eq_some_iff.mp h
  constructor
  · intro hmem
    rcases List.mem_or_eq_of_mem_set hmem with hmem | heq
    · exact .inl hmem
    · exact .inr (Option.some.inj heq)
  · rintro (hmem | rfl)
    · obtain ⟨i, hi, heq⟩ := List.mem_iff_getElem.mp hmem
      have hne : p ≠ i := by
        rintro rfl
        rw [heq] at hnone
        exact nomatch hnone
      refine List.mem_iff_getElem.mpr ⟨i, by rwa [List.length_set], ?_⟩
      rw [List.getElem_set_ne hne, heq]
    · exact List.mem_set hp (some x)

theorem InPlace.set {s : XmlSchema} (h : InPlace s) {d : XmlDimension}
    (hfree : s.dims[d.position]? = some none) : InPlace (pcSchemaSetDimension s d) := by
  obtain ⟨hlt, -⟩ := List.getElem?_eq_some_iff.mp hfree
  have hlen : (pcSchemaSetDimension s d).dims.length = s.dims.length := List.length_set
  refine ⟨fun i e he => ?_, fun e he => ?_, h.unknown, h.unknown_zm⟩
  · by_cases hi : d.position = i
    · rw [pcSchemaSetDimension, hi, List.getElem?_set_self (hi ▸ hlt)] at he
      cases he
      exact hi
    · rw [pcSchemaSetDimension, List.getElem?_set_ne hi] at he
      exact h.position_eq i e he
  · rw [hlen]
    cases hname : d.name with
    | none =>
        simp only [pcSchemaSetDimension, hname] at he
        exact h.namehash_lt e he
    | some name =>
        simp only [pcSchemaSetDimension, hname, (enter_perm _ _).mem_iff] at he
        rcases List.mem_cons.mp he with rfl | he
        · exact hlt
        · exact h.namehash_lt e he

/-- The schema has the dimensions that were declared. -/
theorem addDimensions_ok : ∀ {es : List (List XmlNode)} {s s' : XmlSchema},
    addDimensions es s = .ok (some s') → InPlace s →
      InPlace s' ∧ s'.dims.length = s.dims.length ∧
      (∀ e ∈ es, ∃ d, readDimension e = .ok d ∧ some d ∈ s'.dims) ∧
      (∀ d, some d ∈ s.dims → some d ∈ s'.dims) ∧
      ∀ d, some d ∈ s'.dims → some d ∈ s.dims ∨ ∃ e ∈ es, readDimension e = .ok d
  | [], s, s', h, hs => by
      cases h
      exact ⟨hs, rfl, by simp, fun _ hd => hd, fun _ hd => .inl hd⟩
  | e :: es, s, s', h, hs => by
      obtain ⟨d, hd, hrest⟩ := bind_eq_ok.mp h
      split at hrest
      · exact nomatch hrest
      · exact nomatch hrest
      · next hfree =>
          obtain ⟨hplace, hlen, hread, hkept, hfrom⟩ := addDimensions_ok hrest (hs.set hfree)
          have hmem : ∀ x, some x ∈ (pcSchemaSetDimension s d).dims ↔ some x ∈ s.dims ∨ x = d :=
            mem_set_iff hfree d
          refine ⟨hplace, hlen.trans List.length_set, ?_,
            fun x hx => hkept x ((hmem x).mpr (.inl hx)), fun x hx => ?_⟩
          · rw [List.forall_mem_cons]
            exact ⟨⟨d, hd, hkept d ((hmem d).mpr (.inr rfl))⟩, hread⟩
          · rcases hfrom x hx with hx | ⟨e', he', hx⟩
            · rcases (hmem x).mp hx with hx | rfl
              · exact .inl hx
              · exact .inr ⟨e, by simp, hd⟩
            · exact .inr ⟨e', by simp [he'], hx⟩

/-! ## Byte offsets

Places without a dimension take no room, and the offset behind the last place is
the size of a point. -/

/-- The bytes of the dimensions together, each counted in 32 bits. -/
def widthSum (dims : List (Option XmlDimension)) : Nat :=
  (dims.map fun d => (d.map fun d => uint32 d.interpretation.size).getD 0).sum

/-- The offset of a dimension is the bytes in front of it. -/
theorem calculateByteoffsets_eq : ∀ (dims : List (Option XmlDimension)) (off : Nat),
    off + widthSum dims < 18446744073709551616 →
      (calculateByteoffsets off dims).2 = off + widthSum dims ∧
      ∀ i : Nat, (calculateByteoffsets off dims).1[i]? = dims[i]?.map fun d => d.map fun d =>
        { d with
          byteoffset := uint32 (off + widthSum (dims.take i))
          size := uint32 d.interpretation.size }
  | [], off, _ =>
      ⟨by simp [calculateByteoffsets, widthSum], fun i => by simp [calculateByteoffsets]⟩
  | none :: dims, off, h => by
      have hsum : widthSum (none :: dims) = widthSum dims := by simp [widthSum]
      obtain ⟨htotal, hdims⟩ := calculateByteoffsets_eq dims off (hsum ▸ h)
      refine ⟨by rw [calculateByteoffsets, htotal, hsum], fun i => ?_⟩
      cases i with
      | zero => simp [calculateByteoffsets]
      | succ i =>
          have htake : widthSum ((none :: dims).take (i + 1)) = widthSum (dims.take i) := by
            simp [widthSum]
          rw [calculateByteoffsets, List.getElem?_cons_succ, hdims, htake, List.getElem?_cons_succ]
  | some d :: dims, off, h => by
      have hsum : widthSum (some d :: dims) = uint32 d.interpretation.size + widthSum dims := by
        simp [widthSum]
      rw [hsum] at h
      have hoff : (off + uint32 d.interpretation.size) % 18446744073709551616 =
          off + uint32 d.interpretation.size := Nat.mod_eq_of_lt (by omega)
      obtain ⟨htotal, hdims⟩ := calculateByteoffsets_eq dims (off + uint32 d.interpretation.size)
        (by omega)
      refine ⟨by rw [calculateByteoffsets, hoff, htotal, hsum, Nat.add_assoc], fun i => ?_⟩
      cases i with
      | zero => simp [calculateByteoffsets, widthSum]
      | succ i =>
          have htake : widthSum ((some d :: dims).take (i + 1)) =
              uint32 d.interpretation.size + widthSum (dims.take i) := by simp [widthSum]
          rw [calculateByteoffsets, hoff, List.getElem?_cons_succ, hdims, htake,
            List.getElem?_cons_succ, Nat.add_assoc]

@[simp] theorem length_calculateByteoffsets : ∀ (dims : List (Option XmlDimension)) (off : Nat),
    (calculateByteoffsets off dims).1.length = dims.length
  | [], _ => rfl
  | none :: dims, off => congrArg (· + 1) (length_calculateByteoffsets dims off)
  | some _ :: dims, _ => congrArg (· + 1) (length_calculateByteoffsets dims _)

theorem widthSum_take_succ {dims : List (Option XmlDimension)} {i : Nat} {d : XmlDimension}
    (h : dims[i]? = some (some d)) :
    widthSum (dims.take (i + 1)) = widthSum (dims.take i) + uint32 d.interpretation.size := by
  obtain ⟨hi, hd⟩ := List.getElem?_eq_some_iff.mp h
  rw [List.take_succ_eq_append_getElem hi, hd]
  simp [widthSum]

theorem widthSum_take_le (dims : List (Option XmlDimension)) (i : Nat) :
    widthSum (dims.take i) ≤ widthSum dims := by
  have hsplit : widthSum dims = widthSum (dims.take i) + widthSum (dims.drop i) := by
    rw [widthSum, widthSum, widthSum, ← List.sum_append, ← List.map_append, List.take_append_drop]
  omega

theorem widthSum_le {w : Nat} : ∀ {dims : List (Option XmlDimension)},
    (∀ d, some d ∈ dims → uint32 d.interpretation.size ≤ w) → widthSum dims ≤ dims.length * w
  | [], _ => Nat.zero_le _
  | d :: dims, h => by
      have hrest : widthSum dims ≤ dims.length * w := widthSum_le fun d hd => h d (by simp [hd])
      have hfirst : (d.map fun d => uint32 d.interpretation.size).getD 0 ≤ w := by
        cases d with
        | none => exact Nat.zero_le _
        | some d => exact h d (by simp)
      rw [List.length_cons, Nat.succ_mul, Nat.add_comm]
      exact Nat.add_le_add hfirst hrest

/-! ## Coordinates and metadata

Neither touches the dimensions. -/

/-- Only the coordinates may differ, and they are among the first `n` dimensions. -/
structure Rechecked (n : Nat) (s s' : XmlSchema) : Prop where
  dims_eq : s'.dims = s.dims
  size_eq : s'.size = s.size
  namehash_eq : s'.namehash = s.namehash
  xdim_lt : (∀ j ∈ s.xdim, j < n) → ∀ j ∈ s'.xdim, j < n
  ydim_lt : (∀ j ∈ s.ydim, j < n) → ∀ j ∈ s'.ydim, j < n
  zdim_lt : (∀ j ∈ s.zdim, j < n) → ∀ j ∈ s'.zdim, j < n
  mdim_lt : (∀ j ∈ s.mdim, j < n) → ∀ j ∈ s'.mdim, j < n

theorem Rechecked.of_coordinates_eq {n : Nat} {s s' : XmlSchema} (hdims : s'.dims = s.dims)
    (hsize : s'.size = s.size) (hnames : s'.namehash = s.namehash)
    (hxy : s'.xdim = s.xdim ∧ s'.ydim = s.ydim) (hzm : s'.zdim = s.zdim ∧ s'.mdim = s.mdim) :
    Rechecked n s s' := by
  refine ⟨hdims, hsize, hnames, ?_, ?_, ?_, ?_⟩
  · rw [hxy.1]; exact id
  · rw [hxy.2]; exact id
  · rw [hzm.1]; exact id
  · rw [hzm.2]; exact id

theorem Rechecked.trans {n : Nat} {s₀ s₁ s₂ : XmlSchema} (h₁ : Rechecked n s₀ s₁)
    (h₂ : Rechecked n s₁ s₂) : Rechecked n s₀ s₂ :=
  ⟨h₂.dims_eq.trans h₁.dims_eq, h₂.size_eq.trans h₁.size_eq, h₂.namehash_eq.trans h₁.namehash_eq,
    fun h => h₂.xdim_lt (h₁.xdim_lt h), fun h => h₂.ydim_lt (h₁.ydim_lt h),
    fun h => h₂.zdim_lt (h₁.zdim_lt h), fun h => h₂.mdim_lt (h₁.mdim_lt h)⟩

theorem checkName_rechecked (s : XmlSchema) {i n : Nat} (hi : i < n) (name : String) :
    Rechecked n s (checkName s i name) := by
  have hset : ∀ j ∈ some i, j < n := by simp [hi]
  unfold checkName
  split_ifs
  · exact ⟨rfl, rfl, rfl, fun _ => hset, id, id, id⟩
  · exact ⟨rfl, rfl, rfl, id, fun _ => hset, id, id⟩
  · exact ⟨rfl, rfl, rfl, id, id, fun _ => hset, id⟩
  · exact ⟨rfl, rfl, rfl, id, id, id, fun _ => hset⟩
  · exact .of_coordinates_eq rfl rfl rfl ⟨rfl, rfl⟩ ⟨rfl, rfl⟩

theorem checkXyzm_rechecked : ∀ {dims : List (Option XmlDimension)} {i n : Nat} {s s' : XmlSchema},
    i + dims.length ≤ n → checkXyzm i dims s = .ok s' → Rechecked n s s'
  | [], i, n, s, s', _, h => by
      cases h
      exact .of_coordinates_eq rfl rfl rfl ⟨rfl, rfl⟩ ⟨rfl, rfl⟩
  | none :: dims, i, n, s, s', _, h => absurd h (fault_ne_ok s')
  | some d :: dims, i, n, s, s', hn, h => by
      rw [List.length_cons] at hn
      rw [checkXyzm] at h
      cases hname : d.name with
      | none =>
          rw [hname] at h
          exact checkXyzm_rechecked (by omega) h
      | some name =>
          rw [hname] at h
          exact (checkName_rechecked s (by omega) name).trans (checkXyzm_rechecked (by omega) h)

theorem readMetadata_rechecked (n : Nat) :
    ∀ {elements : List (List (String × String) × List XmlNode)} {s s' : XmlSchema},
      elements.foldlM readMetadata s = .ok s' → Rechecked n s s'
  | [], s, s', h => by
      cases h
      exact .of_coordinates_eq rfl rfl rfl ⟨rfl, rfl⟩ ⟨rfl, rfl⟩
  | element :: elements, s, s', h => by
      rw [List.foldlM_cons] at h
      obtain ⟨mid, hmid, hrest⟩ := bind_eq_ok.mp h
      refine Rechecked.trans ?_ (readMetadata_rechecked n hrest)
      unfold readMetadata at hmid
      split at hmid
      · exact absurd hmid (fault_ne_ok mid)
      · cases hmid
        exact .of_coordinates_eq rfl rfl rfl ⟨rfl, rfl⟩ ⟨rfl, rfl⟩
      · cases hmid
        exact .of_coordinates_eq rfl rfl rfl ⟨rfl, rfl⟩ ⟨rfl, rfl⟩

/-! ## Schemas that are returned

The sections above, put together along a run of the reader that has returned a
schema. -/

/-- The dimension elements of a document. -/
def declaredDimensions : Option XmlNode → List (List XmlNode)
  | some (.element ns name _ children) => dimensionElements ns name children
  | _ => []

/-- A schema that is returned comes from a schema with every declared dimension in its
place. -/
theorem pcSchemaFromXml_ok {root : Option XmlNode} {s : XmlSchema}
    (h : pcSchemaFromXml root = .ok (some s)) :
    (declaredDimensions root).length ≤ 10000000 ∧ pcSchemaIsValid s = true ∧
      ∃ s₀, addDimensions (declaredDimensions root) (pcSchemaNew (declaredDimensions root).length) =
        .ok (some s₀) ∧
        Rechecked (declaredDimensions root).length (pcSchemaCalculateByteoffsets s₀) s := by
  unfold pcSchemaFromXml at h
  split at h
  · next ns name attributes children =>
      split at h
      · exact nomatch h
      · next elements helements =>
          unfold nodeSet at helements
          split_ifs at helements with hlen
          · cases helements
            obtain ⟨added, hadded, h⟩ := bind_eq_ok.mp h
            cases added with
            | none => exact nomatch h
            | some s₀ =>
                obtain ⟨s₁, hs₁, h⟩ := bind_eq_ok.mp h
                obtain ⟨s₂, hs₂, h⟩ := bind_eq_ok.mp h
                simp only [pure_eq_ok, Except.ok.injEq] at h
                split_ifs at h with hvalid
                cases h
                have hcount := (addDimensions_ok hadded (inPlace_new _)).2.1
                refine ⟨hlen, hvalid, s₀, hadded, ?_⟩
                refine (checkXyzm_rechecked ?_ hs₁).trans (readMetadata_rechecked _ hs₂)
                rw [pcSchemaCalculateByteoffsets, length_calculateByteoffsets, hcount, Nat.zero_add]
                exact Nat.le_of_eq (List.length_replicate ..)
  · exact nomatch h

/-- A dimension as the rest of the library wants it: of a known type and the size of that
type, with a scale other than zero, with a name, and inside the point. -/
structure UsableIn (size : Nat) (d : XmlDimension) : Prop extends UsableDimension d where
  width : d.size = 1 ∨ d.size = 2 ∨ d.size = 4 ∨ d.size = 8
  inside : d.byteoffset + d.size ≤ size

/-- Every dimension is there and can be used. -/
def Usable (s : XmlSchema) : Prop := ∀ d ∈ s.dims, ∃ dim, d = some dim ∧ UsableIn s.size dim

theorem uint32_size {i : Interpretation} (h : i ≠ .unknown) : uint32 i.size = i.size :=
  uint32_of_lt (Nat.lt_of_le_of_lt (Interpretation.size_le h) (by decide))

/-- The dimensions of the schema are those that were read, laid out. -/
theorem usable_iff_of_laidOut {s s₀ : XmlSchema}
    (hall : ∀ o ∈ s₀.dims, ∃ d, o = some d) (hsize : s.size = widthSum s₀.dims)
    (hdims : ∀ i : Nat, s.dims[i]? = s₀.dims[i]?.map fun d => d.map fun d =>
      { d with
        byteoffset := uint32 (widthSum (s₀.dims.take i))
        size := uint32 d.interpretation.size }) :
    Usable s ↔ ∀ d, some d ∈ s₀.dims → UsableDimension d := by
  have hget : ∀ (i : Nat) (d : XmlDimension), s₀.dims[i]? = some (some d) → s.dims[i]? =
      some (some { d with
        byteoffset := uint32 (widthSum (s₀.dims.take i))
        size := uint32 d.interpretation.size }) := by
    intro i d hi
    rw [hdims, hi]
    rfl
  constructor
  · intro husable d hd
    obtain ⟨i, hi⟩ := List.mem_iff_getElem?.mp hd
    obtain ⟨dim, heq, hdim⟩ := husable _ (List.mem_of_getElem? (hget i d hi))
    cases heq
    exact ⟨hdim.known, hdim.scale_ne, hdim.named⟩
  · intro husable o ho
    obtain ⟨i, hi⟩ := List.mem_iff_getElem?.mp ho
    have hlt : i < s₀.dims.length := by
      by_contra hge
      rw [hdims, List.getElem?_eq_none (Nat.not_lt.mp hge)] at hi
      exact nomatch hi
    obtain ⟨d, hd⟩ := hall _ (List.getElem_mem hlt)
    have hi₀ : s₀.dims[i]? = some (some d) := by rw [List.getElem?_eq_getElem hlt, hd]
    have huse := husable d (List.mem_of_getElem? hi₀)
    rw [hget i d hi₀] at hi
    cases hi
    refine ⟨_, rfl, ⟨huse.known, huse.scale_ne, huse.named⟩, ?_, ?_⟩
    · simp only [uint32_size huse.known]
      exact Interpretation.size_cases huse.known
    · have hnext := widthSum_take_succ hi₀
      have hle := widthSum_take_le s₀.dims (i + 1)
      have hmod : uint32 (widthSum (s₀.dims.take i)) ≤ widthSum (s₀.dims.take i) := Nat.mod_le _ _
      simp only [hsize]
      omega

section Returned

variable {root : Option XmlNode} {s : XmlSchema} (h : pcSchemaFromXml root = .ok (some s))

include h

/-- Where the dimensions of the schema come from. -/
theorem dims_of_pcSchemaFromXml : ∃ s₀, InPlace s₀ ∧ s₀.dims.length ≤ 10000000 ∧
    (∀ e ∈ declaredDimensions root, ∃ d, readDimension e = .ok d ∧ some d ∈ s₀.dims) ∧
    (∀ d, some d ∈ s₀.dims → ∃ e ∈ declaredDimensions root, readDimension e = .ok d) ∧
    (∀ o ∈ s₀.dims, ∃ d, o = some d) ∧ s.size = widthSum s₀.dims ∧
    (∀ i : Nat, s.dims[i]? = s₀.dims[i]?.map fun d => d.map fun d =>
      { d with
        byteoffset := uint32 (widthSum (s₀.dims.take i))
        size := uint32 d.interpretation.size }) ∧
    Rechecked s₀.dims.length (pcSchemaCalculateByteoffsets s₀) s := by
  obtain ⟨hlen, hvalid, s₀, hadded, hre⟩ := pcSchemaFromXml_ok h
  obtain ⟨hplace, hcount, hread, -, hfrom⟩ := addDimensions_ok hadded (inPlace_new _)
  rw [show (pcSchemaNew (declaredDimensions root).length).dims.length = _ from
    List.length_replicate ..] at hcount
  have hbound : 0 + widthSum s₀.dims < 18446744073709551616 := by
    have hle : widthSum s₀.dims ≤ s₀.dims.length * 4294967295 :=
      widthSum_le fun d _ => Nat.le_pred_of_lt (uint32_lt _)
    have := Nat.mul_le_mul_right 4294967295 (hcount ▸ hlen : s₀.dims.length ≤ 10000000)
    omega
  obtain ⟨htotal, hdims⟩ := calculateByteoffsets_eq s₀.dims 0 hbound
  simp only [Nat.zero_add] at htotal hdims
  have hall : ∀ i : Nat, s.dims[i]? = _ :=
    fun i => (congrArg (fun l => l[i]?) hre.dims_eq).trans (hdims i)
  refine ⟨s₀, hplace, hcount ▸ hlen, hread, fun d hd => ?_, fun o ho => ?_,
    hre.size_eq.trans htotal, hall, hcount ▸ hre⟩
  · rcases hfrom d hd with hnew | hd
    · exact nomatch List.eq_of_mem_replicate hnew
    · exact hd
  · obtain ⟨i, hi⟩ := List.mem_iff_getElem?.mp ho
    have hget := hall i
    rw [hi, Option.map_some] at hget
    cases o with
    | some d => exact ⟨d, rfl⟩
    | none =>
        have hsome : s.dims.all Option.isSome = true := by
          simp only [pcSchemaIsValid, Bool.and_eq_true] at hvalid
          exact hvalid.2
        have := List.all_eq_true.mp hsome none (List.mem_of_getElem? hget)
        exact absurd this (by decide)

end Returned

/-- A schema that is returned can be used exactly if every dimension was declared so. -/
theorem pcSchemaFromXml_usable_iff {root : Option XmlNode} {s : XmlSchema}
    (h : pcSchemaFromXml root = .ok (some s)) :
    Usable s ↔ ∀ element ∈ declaredDimensions root, DeclaresUsable element := by
  obtain ⟨s₀, -, -, hread, hfrom, hall, hsize, hdims, -⟩ := dims_of_pcSchemaFromXml h
  rw [usable_iff_of_laidOut hall hsize hdims]
  constructor
  · intro husable element he
    obtain ⟨d, hd, hmem⟩ := hread element he
    exact (usableDimension_iff hd).mp (husable d hmem)
  · intro hdeclares d hd
    obtain ⟨element, he, hread⟩ := hfrom d hd
    exact (usableDimension_iff hread).mpr (hdeclares element he)

/-- An element with a text. -/
def textElement (name content : String) : XmlNode := .element (some "pc") name [] [.text content]

/-- A dimension element. -/
def dimensionElement (children : List XmlNode) : XmlNode :=
  .element (some "pc") "dimension" [] children

/-- A document with two dimensions. -/
def twoDimensions (x y : List XmlNode) : XmlNode :=
  .element (some "pc") "PointCloudSchema" [] [dimensionElement x, dimensionElement y]

/-- The x of a document. -/
def declaredX : List XmlNode :=
  [textElement "name" "X", textElement "interpretation" "int32_t", textElement "position" "1"]

/-- The y of a document, with a scale. -/
def declaredY (scale : String) : List XmlNode :=
  [textElement "name" "Y", textElement "interpretation" "uint16_t", textElement "position" "2",
    textElement "scale" scale]

/-- The schema of such a document. -/
def twoDimensionsSchema (scale : Nat) : XmlSchema where
  pcid := 0
  srid := 0
  dims := [some ⟨some "X", none, 0, 4, 0, .int32, 0x3ff0000000000000, 0, 0⟩,
    some ⟨some "Y", none, 1, 2, 4, .uint16, scale, 0, 0⟩]
  size := 6
  xdim := some 0
  ydim := some 1
  zdim := none
  mdim := none
  compression := .none
  namehash := [("Y", 1), ("X", 0)]

theorem pcSchemaFromXml_usable_iff_witness :
    Usable (twoDimensionsSchema (atof "0.01")) := by
  have hread : pcSchemaFromXml (some (twoDimensions declaredX (declaredY "0.01"))) =
      .ok (some (twoDimensionsSchema (atof "0.01"))) := by decide +kernel
  refine (pcSchemaFromXml_usable_iff hread).mpr ?_
  change ∀ element ∈ [declaredX, declaredY "0.01"], DeclaresUsable element
  rw [List.forall_mem_cons, List.forall_mem_singleton]
  refine ⟨⟨⟨"int32_t", .int32, rfl, by decide +kernel, by decide⟩, nofun, nofun⟩,
    ⟨⟨"uint16_t", .uint16, rfl, by decide +kernel, by decide⟩, fun c hc => ?_, nofun⟩⟩
  cases Option.some.inj hc
  decide +kernel

/-- A scale of zero is accepted. -/
theorem pcSchemaFromXml_fails :
    pcSchemaFromXml (some (twoDimensions declaredX (declaredY "0"))) =
      .ok (some (twoDimensionsSchema 0)) ∧ ¬ Usable (twoDimensionsSchema 0) := by
  refine ⟨by decide +kernel, fun husable => ?_⟩
  obtain ⟨dim, heq, hdim⟩ := husable (some ⟨some "Y", none, 1, 2, 4, .uint16, 0, 0, 0⟩) (by decide)
  cases heq
  exact hdim.scale_ne (by decide)

/-! ## Schemas that can be used

Such a schema satisfies the invariants that `PcSchema` carries in its fields, so it
is one, dimension by dimension; and the functions that compare schemas return
on it. -/

/-- A dimension as the library knows it, with scale and offset as numbers. -/
def XmlDimension.toDimension (d : XmlDimension) : PcDimension :=
  ⟨d.name, d.position, d.size, d.byteoffset, d.interpretation, ieeeDecode 11 52 d.scale,
    ieeeDecode 11 52 d.offset⟩

theorem UsableDimension.toDimension {d : XmlDimension} (h : UsableDimension d) :
    d.toDimension.name ≠ none ∧ d.toDimension.scale ≠ 0 :=
  ⟨h.named, ieeeDecode_ne_zero 11 52 h.scale_ne⟩

theorem exists_map_some {α : Type} : ∀ {l : List (Option α)}, (∀ o ∈ l, ∃ a, o = some a) →
    ∃ as : List α, l = as.map some
  | [], _ => ⟨[], rfl⟩
  | o :: l, h => by
      obtain ⟨a, rfl⟩ := h o (by simp)
      obtain ⟨as, rfl⟩ := exists_map_some (List.forall_mem_cons.mp h).2
      exact ⟨a :: as, rfl⟩

/-- The dimensions of a usable schema are laid out one after the other. -/
structure LaidOut (ds : List XmlDimension) (size : Nat) : Prop where
  usable : ∀ d ∈ ds, UsableDimension d ∧ d.size = d.interpretation.size
  position_eq : ∀ i (h : i < ds.length), ds[i].position = i
  byteoffset_eq : ∀ i (h : i < ds.length),
    ds[i].byteoffset = sizeOfDims ((ds.map XmlDimension.toDimension).take i)
  size_eq : size = sizeOfDims (ds.map XmlDimension.toDimension)
  size_lt : size < 4294967296

theorem laidOut_of_pcSchemaFromXml {root : Option XmlNode} {s : XmlSchema}
    (h : pcSchemaFromXml root = .ok (some s)) (husable : Usable s) :
    ∃ ds, s.dims = ds.map some ∧ LaidOut ds s.size := by
  obtain ⟨s₀, hplace, hlen, -, -, hall, hsize, hdims, -⟩ := dims_of_pcSchemaFromXml h
  have huse := (usable_iff_of_laidOut hall hsize hdims).mp husable
  obtain ⟨ds₀, hds₀⟩ := exists_map_some hall
  obtain ⟨ds, hds⟩ := exists_map_some fun o ho => (husable o ho).imp fun _ => And.left
  rw [hds₀] at hlen hsize hdims huse
  rw [hds] at hdims
  have huse₀ : ∀ d ∈ ds₀, UsableDimension d := fun d hd => huse d (List.mem_map_of_mem hd)
  -- dimension by dimension
  have hget : ∀ i : Nat, ds[i]? = ds₀[i]?.map fun d =>
      { d with
        byteoffset := uint32 (widthSum ((ds₀.map some).take i))
        size := uint32 d.interpretation.size } := by
    intro i
    have hi := hdims i
    rw [List.getElem?_map, List.getElem?_map, Option.map_map] at hi
    refine Option.map_injective (Option.some_injective _) ?_
    rw [hi, Option.map_map]
    rfl
  have hsizes : ds.map XmlDimension.size = ds₀.map fun d => uint32 d.interpretation.size := by
    apply List.ext_getElem?
    intro i
    rw [List.getElem?_map, List.getElem?_map, hget, Option.map_map]
    rfl
  have hsum : ∀ i, widthSum ((ds₀.map some).take i) =
      sizeOfDims ((ds.map XmlDimension.toDimension).take i) := by
    intro i
    have hmap : (ds.map XmlDimension.toDimension).map PcDimension.size =
      ds.map XmlDimension.size := by
      rw [List.map_map]
      rfl
    rw [sizeOfDims, List.map_take, hmap, hsizes, widthSum, List.map_take, List.map_map]
    rfl
  have hwhole : widthSum (ds₀.map some) = sizeOfDims (ds.map XmlDimension.toDimension) := by
    have hlength := congrArg List.length hsizes
    rw [List.length_map, List.length_map] at hlength
    have := hsum ds.length
    rwa [List.take_of_length_le (by rw [List.length_map, hlength]),
      List.take_of_length_le (by rw [List.length_map])] at this
  have hbound : widthSum (ds₀.map some) < 4294967296 := by
    have hle : widthSum (ds₀.map some) ≤ (ds₀.map some).length * 8 := by
      refine widthSum_le fun d hd => ?_
      rw [uint32_size (huse d hd).known]
      exact Interpretation.size_le (huse d hd).known
    have := Nat.mul_le_mul_right 8 hlen
    omega
  have hat : ∀ i (hi : i < ds.length), ∃ hi₀ : i < ds₀.length, ds[i] =
      { ds₀[i] with
        byteoffset := uint32 (widthSum ((ds₀.map some).take i))
        size := uint32 ds₀[i].interpretation.size } := by
    intro i hi
    have hi₀ : i < ds₀.length := by
      have hlength := congrArg List.length hsizes
      rw [List.length_map, List.length_map] at hlength
      omega
    have := hget i
    rw [List.getElem?_eq_getElem hi, List.getElem?_eq_getElem hi₀] at this
    exact ⟨hi₀, Option.some.inj this⟩
  refine ⟨ds, hds, fun d hd => ?_, fun i hi => ?_, fun i hi => ?_, hsize.trans hwhole,
    hsize ▸ hbound⟩
  · obtain ⟨i, hi, rfl⟩ := List.mem_iff_getElem.mp hd
    obtain ⟨hi₀, heq⟩ := hat i hi
    have hd₀ := huse₀ _ (List.getElem_mem hi₀)
    rw [heq]
    exact ⟨⟨hd₀.known, hd₀.scale_ne, hd₀.named⟩, uint32_size hd₀.known⟩
  · obtain ⟨hi₀, heq⟩ := hat i hi
    rw [heq]
    refine hplace.position_eq i ds₀[i] ?_
    rw [hds₀, List.getElem?_map, List.getElem?_eq_getElem hi₀]
    rfl
  · obtain ⟨hi₀, heq⟩ := hat i hi
    rw [heq]
    refine (uint32_of_lt (Nat.lt_of_le_of_lt (widthSum_take_le _ i) hbound)).trans (hsum i)

/-- A usable schema is a schema of the library, valid, with names and with scales other
than zero. -/
theorem exists_pcSchema {root : Option XmlNode} {s : XmlSchema}
    (h : pcSchemaFromXml root = .ok (some s)) (husable : Usable s) {pcid srid : Nat}
    (hpcid : pcid < 4294967296) :
    ∃ S : PcSchema, S.pcid = pcid ∧ S.srid = srid ∧ S.Valid ∧
      s.dims.map (Option.map XmlDimension.toDimension) = S.dims.map some ∧ S.size = s.size ∧
      S.xdim = s.xdim ∧ S.ydim = s.ydim ∧ S.compression = s.compression ∧
      S.namehash = s.namehash ∧ ∀ dim ∈ S.dims, dim.name ≠ none ∧ dim.scale ≠ 0 := by
  obtain ⟨-, hvalid, -⟩ := pcSchemaFromXml_ok h
  obtain ⟨s₀, hplace, -, -, -, -, -, -, hre⟩ := dims_of_pcSchemaFromXml h
  obtain ⟨ds, hds, hlaid⟩ := laidOut_of_pcSchemaFromXml h husable
  have hcount : s₀.dims.length = ds.length := by
    have hlength := congrArg List.length (hds.symm.trans hre.dims_eq)
    rw [List.length_map, pcSchemaCalculateByteoffsets, length_calculateByteoffsets] at hlength
    exact hlength.symm
  simp only [pcSchemaIsValid, Bool.and_eq_true, Bool.not_eq_true', hds] at hvalid
  obtain ⟨⟨⟨hx, hy⟩, hne⟩, -⟩ := hvalid
  have hdims : ∀ d ∈ ds.map XmlDimension.toDimension, ∃ d₀ ∈ ds, d₀.toDimension = d :=
    fun d hd => List.mem_map.mp hd
  refine ⟨{
    pcid := pcid
    srid := srid
    dims := ds.map XmlDimension.toDimension
    size := s.size
    xdim := s.xdim
    ydim := s.ydim
    compression := s.compression
    namehash := s.namehash
    pcid_lt := hpcid
    size_lt := hlaid.size_lt
    dims_ne := by
      intro hnil
      rw [List.map_eq_nil_iff.mp hnil] at hne
      exact nomatch hne
    known := fun d hd => by
      obtain ⟨d₀, hd₀, rfl⟩ := hdims d hd
      exact ⟨(hlaid.usable d₀ hd₀).1.known, (hlaid.usable d₀ hd₀).2⟩
    position_eq := fun i hi => by
      rw [List.getElem_map]
      exact hlaid.position_eq i (by rwa [List.length_map] at hi)
    byteoffset_eq := fun i hi => by
      rw [List.getElem_map]
      exact hlaid.byteoffset_eq i (by rwa [List.length_map] at hi)
    size_eq := hlaid.size_eq
    xdim_lt := fun i hi => by
      rw [List.length_map, ← hcount]
      exact hre.xdim_lt (fun j hj => absurd (hplace.unknown.1.symm.trans hj) nofun) i hi
    ydim_lt := fun i hi => by
      rw [List.length_map, ← hcount]
      exact hre.ydim_lt (fun j hj => absurd (hplace.unknown.2.symm.trans hj) nofun) i hi
    namehash_lt := fun e he => by
      rw [hre.namehash_eq] at he
      rw [List.length_map, ← hcount]
      exact hplace.namehash_lt e he },
    rfl, rfl, ⟨hx, hy⟩, ?_, rfl, rfl, rfl, rfl, rfl, fun d hd => ?_⟩
  · rw [hds, List.map_map, List.map_map]
    rfl
  · obtain ⟨d₀, hd₀, rfl⟩ := hdims d hd
    exact (hlaid.usable d₀ hd₀).1.toDimension

/-- Schemas with names can be compared by their dimensions. -/
theorem sameDimensionsLoop_isOk : ∀ {pairs : List (PcDimension × PcDimension)},
    (∀ p ∈ pairs, p.1.name ≠ none ∧ p.2.name ≠ none) → ∃ b, sameDimensionsLoop pairs = .ok b
  | [], _ => ⟨true, rfl⟩
  | (dim₁, dim₂) :: pairs, h => by
      obtain ⟨h₁, h₂⟩ := h (dim₁, dim₂) (by simp)
      obtain ⟨name₁, hname₁⟩ := Option.ne_none_iff_exists'.mp h₁
      obtain ⟨name₂, hname₂⟩ := Option.ne_none_iff_exists'.mp h₂
      obtain ⟨b, hb⟩ := sameDimensionsLoop_isOk (List.forall_mem_cons.mp h).2
      simp only at hname₁ hname₂
      rw [sameDimensionsLoop, hname₁, hname₂]
      simp only
      split_ifs
      · exact ⟨false, rfl⟩
      · exact ⟨b, hb⟩
      · exact ⟨false, rfl⟩

theorem pcSchemaSameDimensions_isOk {s₁ s₂ : PcSchema} (h₁ : ∀ dim ∈ s₁.dims, dim.name ≠ none)
    (h₂ : ∀ dim ∈ s₂.dims, dim.name ≠ none) : ∃ b, pcSchemaSameDimensions s₁ s₂ = .ok b := by
  unfold pcSchemaSameDimensions
  split_ifs
  · exact ⟨false, rfl⟩
  · exact sameDimensionsLoop_isOk fun p hp => ⟨h₁ _ (List.of_mem_zip hp).1,
      h₂ _ (List.of_mem_zip hp).2⟩

/-- The dimensions of a schema with names can be looked up in any other. -/
theorem sameInterpretationsLoop_isOk (s : PcSchema) : ∀ {dims : List PcDimension},
    (∀ dim ∈ dims, dim.name ≠ none) → ∃ b, sameInterpretationsLoop s dims = .ok b
  | [], _ => ⟨true, rfl⟩
  | dim :: dims, h => by
      obtain ⟨name, hname⟩ := Option.ne_none_iff_exists'.mp (h dim (by simp))
      obtain ⟨b, hb⟩ := sameInterpretationsLoop_isOk s (List.forall_mem_cons.mp h).2
      have hlike : pcSchemaGetDimensionLike s dim = .ok (pcSchemaGetDimensionByName s name) := by
        rw [pcSchemaGetDimensionLike, hname]
      rw [sameInterpretationsLoop, hlike, ok_bind]
      split
      · exact ⟨b, hb⟩
      · simp only [pure_eq_ok]
        split_ifs
        · exact ⟨false, rfl⟩
        · exact ⟨false, rfl⟩
        · exact ⟨false, rfl⟩
        · exact ⟨b, hb⟩

theorem pcSchemaSameInterpretations_isOk (s₁ : PcSchema) {s₂ : PcSchema}
    (h : ∀ dim ∈ s₂.dims, dim.name ≠ none) : ∃ b, pcSchemaSameInterpretations s₁ s₂ = .ok b := by
  unfold pcSchemaSameInterpretations
  split_ifs
  · exact ⟨false, rfl⟩
  · exact sameInterpretationsLoop_isOk s₁ h

end Pointcloud
