/-
Pointcloud.SchemaLayoutTheorems — where the dimensions of a schema come to lie.

Every call of `pc_schema_set_dimension` lays out the dimensions that are there
anew. What an earlier call made of their offsets is not read, so that in the
end every dimension lies behind those of a smaller position, in whatever order
they were set. No two of them have a byte in common: a point whose dimensions
are set from an array stores each number on its own.
-/
import Pointcloud.Patch.StoredStatsTheorems
import Pointcloud.SchemaXmlTheorems

namespace Pointcloud

open Pointcloud.Base

variable {P : Platform}

/-! ## Laying out again -/

/-- A dimension without its place in a point. -/
def XmlDimension.bare (d : XmlDimension) : XmlDimension := { d with size := 0, byteoffset := 0 }

/-- The places of the dimensions are not read. -/
theorem calculateByteoffsets_bare (dims : List (Option XmlDimension)) (off : Nat) :
    calculateByteoffsets off (dims.map (Option.map XmlDimension.bare)) =
      calculateByteoffsets off dims := by
  induction dims generalizing off with
  | nil => rfl
  | cons o dims ih =>
      cases o with
      | none => simp only [List.map_cons, Option.map_none, calculateByteoffsets, ih]
      | some d => simp only [List.map_cons, Option.map_some, calculateByteoffsets,
          XmlDimension.bare, ih]

/-- Nothing else is changed. -/
theorem bare_calculateByteoffsets (dims : List (Option XmlDimension)) (off : Nat) :
    (calculateByteoffsets off dims).1.map (Option.map XmlDimension.bare) =
      dims.map (Option.map XmlDimension.bare) := by
  induction dims generalizing off with
  | nil => rfl
  | cons o dims ih =>
      cases o with
      | none => simp only [List.map_cons, Option.map_none, calculateByteoffsets, ih]
      | some d => simp only [List.map_cons, Option.map_some, calculateByteoffsets,
          XmlDimension.bare, ih]

/-- Offsets that were computed before leave no trace. -/
theorem calculateByteoffsets_set (dims : List (Option XmlDimension)) (off off' p : Nat)
    (d : XmlDimension) :
    calculateByteoffsets off ((calculateByteoffsets off' dims).1.set p (some d)) =
      calculateByteoffsets off (dims.set p (some d)) := by
  rw [← calculateByteoffsets_bare, List.map_set, bare_calculateByteoffsets, ← List.map_set,
    calculateByteoffsets_bare]

theorem pcSchemaCalculateByteoffsets_set (s : XmlSchema) (d : XmlDimension) :
    pcSchemaCalculateByteoffsets (pcSchemaSetDimension (pcSchemaCalculateByteoffsets s) d) =
      pcSchemaCalculateByteoffsets (pcSchemaSetDimension s d) := by
  simp only [pcSchemaCalculateByteoffsets, pcSchemaSetDimension, calculateByteoffsets_set]

/-! ## Setting dimensions -/

/-- Without dimensions there is nothing to lay out. -/
theorem calculateByteoffsets_none (n off : Nat) :
    calculateByteoffsets off (List.replicate n none) = (List.replicate n none, off) := by
  induction n with
  | zero => rfl
  | succ n ih => simp only [List.replicate_succ, calculateByteoffsets, ih]

theorem pcSchemaCalculateByteoffsets_new (n : Nat) :
    pcSchemaCalculateByteoffsets (pcSchemaNew n) = pcSchemaNew n := by
  simp only [pcSchemaCalculateByteoffsets, pcSchemaNew, calculateByteoffsets_none]

/-- Dimensions set one after the other. -/
def setDimensions (s : XmlSchema) (ds : List XmlDimension) : Run XmlSchema :=
  ds.foldlM pcSchemaSetDimensionLaidOut s

/-- The dimensions are laid out once, at the end. -/
theorem setDimensions_ok {ds : List XmlDimension} : ∀ {s : XmlSchema},
    s.dims.length ≤ 2147483648 → (∀ d ∈ ds, d.position < s.dims.length) →
    setDimensions (pcSchemaCalculateByteoffsets s) ds =
      .ok (pcSchemaCalculateByteoffsets (ds.foldl pcSchemaSetDimension s)) := by
  induction ds with
  | nil =>
      intro s _ _
      rfl
  | cons d ds ih =>
      intro s hlen hin
      have hcount : (pcSchemaCalculateByteoffsets s).dims.length = s.dims.length :=
        length_calculateByteoffsets s.dims 0
      have hset : (pcSchemaSetDimension s d).dims.length = s.dims.length := List.length_set
      have hstep : pcSchemaSetDimensionLaidOut (pcSchemaCalculateByteoffsets s) d =
          .ok (pcSchemaCalculateByteoffsets (pcSchemaSetDimension s d)) := by
        rw [pcSchemaSetDimensionLaidOut, hcount, if_pos (hin d (by simp)), intLoop_ok hlen, ok_bind,
          pcSchemaCalculateByteoffsets_set, pure_eq_ok]
      rw [setDimensions, List.foldlM_cons, hstep, ok_bind]
      exact ih (by rwa [hset]) fun e he => by rw [hset]; exact hin e (by simp [he])

/-- Too many dimensions cannot be counted. -/
theorem setDimensions_fault {s : XmlSchema} {ds : List XmlDimension} (hne : ds ≠ [])
    (hin : ∀ d ∈ ds, d.position < s.dims.length) (hlen : 2147483648 < s.dims.length) :
    setDimensions s ds = fault := by
  obtain ⟨d, ds, rfl⟩ := List.exists_cons_of_ne_nil hne
  rw [setDimensions, List.foldlM_cons, pcSchemaSetDimensionLaidOut, if_pos (hin d (by simp)),
    intLoop_fault hlen, fault_bind, fault_bind]

/-- Every dimension that was set is at its position, the others are what they were. -/
theorem dims_foldl_set {ds : List XmlDimension} : ∀ {s : XmlSchema},
    (ds.map XmlDimension.position).Nodup → (∀ d ∈ ds, d.position < s.dims.length) →
    (ds.foldl pcSchemaSetDimension s).dims.length = s.dims.length ∧
      (∀ d ∈ ds, (ds.foldl pcSchemaSetDimension s).dims[d.position]? = some (some d)) ∧
      ∀ i ∉ ds.map XmlDimension.position,
        (ds.foldl pcSchemaSetDimension s).dims[i]? = s.dims[i]? := by
  induction ds with
  | nil =>
      intro s _ _
      exact ⟨rfl, by simp, fun i _ => rfl⟩
  | cons d ds ih =>
      intro s hnodup hin
      rw [List.map_cons, List.nodup_cons] at hnodup
      have hset : (pcSchemaSetDimension s d).dims = s.dims.set d.position (some d) := rfl
      have hlen : (pcSchemaSetDimension s d).dims.length = s.dims.length := List.length_set
      obtain ⟨hcount, hplaced, hothers⟩ := ih (s := pcSchemaSetDimension s d) hnodup.2
        fun e he => by rw [hlen]; exact hin e (by simp [he])
      rw [List.foldl_cons]
      refine ⟨hcount.trans hlen, ?_, fun i hi => ?_⟩
      · rw [List.forall_mem_cons]
        refine ⟨?_, hplaced⟩
        rw [hothers _ hnodup.1, hset, List.getElem?_set_self (hin d (by simp))]
      · rw [List.map_cons, List.mem_cons, not_or] at hi
        rw [hothers i hi.2, hset, List.getElem?_set_ne (fun heq => hi.1 heq.symm)]

/-! ## The order of the positions -/

/-- The bytes of the dimensions in front of a position. -/
def bytesBefore (ds : List XmlDimension) (p : Nat) : Nat :=
  ((ds.filter fun d => d.position < p).map fun d => d.interpretation.size).sum

/-- Each of the positions is that of one dimension. -/
def OnePerPosition (ds : List XmlDimension) : Prop :=
  (ds.map XmlDimension.position).Perm (List.range ds.length)

instance (ds : List XmlDimension) : Decidable (OnePerPosition ds) :=
  inferInstanceAs (Decidable (List.Perm _ _))

section Positions

variable {ds : List XmlDimension} (hpos : OnePerPosition ds)

include hpos

theorem OnePerPosition.nodup : (ds.map XmlDimension.position).Nodup :=
  hpos.nodup_iff.mpr List.nodup_range

theorem OnePerPosition.lt {d : XmlDimension} (hd : d ∈ ds) : d.position < ds.length :=
  List.mem_range.mp (hpos.mem_iff.mp (List.mem_map_of_mem hd))

/-- The dimensions that were set, by their positions. -/
theorem OnePerPosition.ordered : ∃ es : List XmlDimension,
    (ds.foldl pcSchemaSetDimension (pcSchemaNew ds.length)).dims = es.map some ∧ es.Perm ds ∧
      ∀ i (h : i < es.length), es[i].position = i := by
  have hnew : (pcSchemaNew ds.length).dims.length = ds.length := List.length_replicate
  obtain ⟨hlen, hplaced, -⟩ := dims_foldl_set (s := pcSchemaNew ds.length) hpos.nodup
    fun d hd => by rw [hnew]; exact hpos.lt hd
  generalize (ds.foldl pcSchemaSetDimension (pcSchemaNew ds.length)).dims = dims at hlen hplaced
  -- what stands at a position is the dimension that has it
  have hat : ∀ i < dims.length, ∃ d ∈ ds, d.position = i ∧ dims[i]? = some (some d) := by
    intro i hi
    have hmem : i ∈ ds.map XmlDimension.position :=
      hpos.mem_iff.mpr (List.mem_range.mpr (by rwa [hlen, hnew] at hi))
    obtain ⟨d, hd, rfl⟩ := List.mem_map.mp hmem
    exact ⟨d, hd, rfl, hplaced d hd⟩
  obtain ⟨es, rfl⟩ := exists_map_some (l := dims) fun o ho => by
    obtain ⟨i, hi, rfl⟩ := List.mem_iff_getElem.mp ho
    obtain ⟨d, -, -, hd⟩ := hat i hi
    exact ⟨d, Option.some.inj ((List.getElem?_eq_getElem hi).symm.trans hd)⟩
  have hes : ∀ i (h : i < es.length), es[i] ∈ ds ∧ es[i].position = i := by
    intro i hi
    obtain ⟨d, hd, hposition, hget⟩ := hat i (by rwa [List.length_map])
    obtain rfl : es[i] = d := by simpa [hi] using hget
    exact ⟨hd, hposition⟩
  have hrange : es.map XmlDimension.position = List.range es.length :=
    List.ext_getElem (by simp) fun i hi _ => by
      simpa using (hes i (by simpa using hi)).2
  refine ⟨es, rfl, ?_, fun i hi => (hes i hi).2⟩
  refine (List.perm_ext_iff_of_nodup (.of_map XmlDimension.position ?_)
    (.of_map XmlDimension.position hpos.nodup)).mpr fun d => ⟨fun hd => ?_, fun hd => ?_⟩
  · rw [hrange]
    exact List.nodup_range
  · obtain ⟨i, hi, rfl⟩ := List.mem_iff_getElem.mp hd
    exact (hes i hi).1
  · have hget := List.mem_of_getElem? (hplaced d hd)
    simpa using hget

end Positions

/-- In the order of the positions, these are the first dimensions. -/
theorem bytesBefore_eq {ds es : List XmlDimension} (hperm : es.Perm ds)
    (hes : ∀ i (h : i < es.length), es[i].position = i) (p : Nat) :
    bytesBefore ds p = ((es.map fun d => d.interpretation.size).take p).sum := by
  have hfirst : es.filter (fun d => d.position < p) = es.take p := by
    have hlow : ∀ d ∈ es.take p, decide (d.position < p) = true := by
      intro d hd
      obtain ⟨i, hi, rfl⟩ := List.mem_iff_getElem.mp hd
      rw [List.length_take] at hi
      rw [List.getElem_take, hes i (by omega)]
      exact decide_eq_true (by omega)
    have hhigh : ∀ d ∈ es.drop p, ¬ decide (d.position < p) = true := by
      intro d hd
      obtain ⟨i, hi, rfl⟩ := List.mem_iff_getElem.mp hd
      rw [List.length_drop] at hi
      rw [List.getElem_drop, hes (p + i) (by omega), decide_eq_true_eq]
      omega
    conv_lhs => rw [← List.take_append_drop p es]
    rw [List.filter_append, List.filter_eq_self.mpr hlow, List.filter_eq_nil_iff.mpr hhigh,
      List.append_nil]
  rw [← List.map_take, ← hfirst]
  exact ((hperm.filter _).map _).sum_eq.symm

/-! ## The layout -/

/-- A byte of a point belongs to the dimension at a position. -/
def Covers (s : XmlSchema) (i b : Nat) : Prop :=
  ∃ d, s.dims[i]? = some (some d) ∧ d.byteoffset ≤ b ∧ b < d.byteoffset + d.size

/-- The dimensions lie one behind the other in the order of their positions, and every
byte of a point belongs to exactly one of them. -/
structure LaidOutBy (ds : List XmlDimension) (s : XmlSchema) : Prop where
  length_eq : s.dims.length = ds.length
  placed : ∀ d ∈ ds, s.dims[d.position]? = some (some { d with
    byteoffset := bytesBefore ds d.position
    size := d.interpretation.size })
  size_eq : s.size = bytesBefore ds ds.length
  tiled : ∀ b, (∃ i, Covers s i b) ↔ b < s.size
  apart : ∀ i j b, Covers s i b → Covers s j b → i = j

/-- The offsets of the dimensions can be counted. -/
structure LayoutCondition (ds : List XmlDimension) : Prop where
  count_le : ds.length ≤ 2147483648
  offset_lt : ∀ d ∈ ds, bytesBefore ds d.position < 4294967296

section Layout

variable {ds : List XmlDimension} (hpos : OnePerPosition ds)
  (hknown : ∀ d ∈ ds, d.interpretation ≠ .unknown)

include hpos hknown

/-- What the calls make of the dimensions, in 32 bits. -/
theorem setDimensions_dims (hlen : ds.length ≤ 2147483648) :
    ∃ s, setDimensions (pcSchemaNew ds.length) ds = .ok s ∧ s.dims.length = ds.length ∧
      (∀ d ∈ ds, s.dims[d.position]? = some (some { d with
        byteoffset := uint32 (bytesBefore ds d.position)
        size := d.interpretation.size })) ∧
      s.size = bytesBefore ds ds.length := by
  have hnew : (pcSchemaNew ds.length).dims.length = ds.length := List.length_replicate
  obtain ⟨es, hdims, hperm, hes⟩ := hpos.ordered
  have hrun := setDimensions_ok (s := pcSchemaNew ds.length) (by rwa [hnew])
    fun d (hd : d ∈ ds) => by rw [hnew]; exact hpos.lt hd
  rw [pcSchemaCalculateByteoffsets_new] at hrun
  have hwidth : ∀ p, widthSum ((es.map some).take p) = bytesBefore ds p := by
    intro p
    rw [bytesBefore_eq hperm hes, widthSum, ← List.map_take, List.map_map, ← List.map_take]
    refine congrArg List.sum (List.map_congr_left fun d hd => ?_)
    exact uint32_size (hknown d (hperm.mem_iff.mp (List.mem_of_mem_take hd)))
  have htotal : widthSum (es.map some) = bytesBefore ds ds.length := by
    rw [← hwidth, List.take_of_length_le (by rw [List.length_map, hperm.length_eq])]
  have hroom : 0 + widthSum (es.map some) < 18446744073709551616 := by
    have hle : widthSum (es.map some) ≤ (es.map some).length * 8 := by
      refine widthSum_le fun d hd => ?_
      obtain ⟨e, he, heq⟩ := List.mem_map.mp hd
      obtain rfl : e = d := Option.some.inj heq
      have hk := hknown e (hperm.mem_iff.mp he)
      rw [uint32_size hk]
      exact Interpretation.size_le hk
    rw [List.length_map, hperm.length_eq] at hle
    omega
  obtain ⟨hsize, hlaid⟩ := calculateByteoffsets_eq (es.map some) 0 hroom
  refine ⟨_, hrun, ?_, fun d hd => ?_, ?_⟩
  · simp only [pcSchemaCalculateByteoffsets, hdims, length_calculateByteoffsets, List.length_map,
      hperm.length_eq]
  · simp only [pcSchemaCalculateByteoffsets, hdims]
    have hlt : d.position < es.length := by rw [hperm.length_eq]; exact hpos.lt hd
    have hget : (es.map some)[d.position]? = some (some d) := by
      obtain ⟨i, hi, rfl⟩ := List.mem_iff_getElem.mp (hperm.mem_iff.mpr hd)
      simp [hes i hi, hi]
    rw [hlaid, hget, hwidth, Nat.zero_add, Option.map_some, Option.map_some,
      uint32_size (hknown d hd)]
  · simp only [pcSchemaCalculateByteoffsets, hdims, hsize, htotal, Nat.zero_add]

omit hknown in
/-- Offsets that are counted exactly are those of a layout without gaps. -/
theorem laidOutBy_of_placed {s : XmlSchema} (hlen : s.dims.length = ds.length)
    (hplaced : ∀ d ∈ ds, s.dims[d.position]? = some (some { d with
      byteoffset := bytesBefore ds d.position
      size := d.interpretation.size }))
    (hsize : s.size = bytesBefore ds ds.length) : LaidOutBy ds s := by
  obtain ⟨es, -, hperm, hes⟩ := hpos.ordered
  obtain ⟨ws, hws⟩ : ∃ ws, ws = es.map fun d => d.interpretation.size := ⟨_, rfl⟩
  have hbefore : ∀ p, bytesBefore ds p = (ws.take p).sum := by
    intro p
    rw [bytesBefore_eq hperm hes, hws]
  have hcount : ws.length = ds.length := by rw [hws, List.length_map, hperm.length_eq]
  have hcovers : ∀ i b, Covers s i b ↔
      ∃ h : i < ws.length, (ws.take i).sum ≤ b ∧ b < (ws.take i).sum + ws[i] := by
    intro i b
    constructor
    · rintro ⟨d, hd, hlow, hhigh⟩
      obtain ⟨hi, -⟩ := List.getElem?_eq_some_iff.mp hd
      have hi' : i < es.length := by rwa [hperm.length_eq, ← hlen]
      have hplace := hplaced es[i] (hperm.mem_iff.mp (List.getElem_mem hi'))
      rw [hes i hi', hd, Option.some.injEq, Option.some.injEq] at hplace
      subst hplace
      refine ⟨by rwa [hcount, ← hlen], ?_, ?_⟩
      · rwa [← hbefore]
      · simpa [hws, hbefore] using hhigh
    · rintro ⟨hi, hlow, hhigh⟩
      have hi' : i < es.length := by rwa [hperm.length_eq, ← hcount]
      have hplace := hplaced es[i] (hperm.mem_iff.mp (List.getElem_mem hi'))
      rw [hes i hi'] at hplace
      refine ⟨_, hplace, ?_, ?_⟩
      · rwa [← hbefore] at hlow
      · simpa [hws, hbefore] using hhigh
  have hall : s.size = ws.sum := by rw [hsize, hbefore, ← hcount, List.take_length]
  refine ⟨hlen, hplaced, hsize, fun b => ?_, fun i j b hi hj => ?_⟩
  · rw [hall]
    constructor
    · rintro ⟨i, hi⟩
      obtain ⟨hlt, -, hhigh⟩ := (hcovers i b).mp hi
      have hle := piece_end_le (j := ws.length) hlt hlt
      rw [List.take_length] at hle
      omega
    · intro hb
      obtain ⟨i, hi, hin⟩ := exists_piece hb
      exact ⟨i, (hcovers i b).mpr ⟨hi, hin⟩⟩
  · obtain ⟨hilt, hilow, hihigh⟩ := (hcovers i b).mp hi
    obtain ⟨hjlt, hjlow, hjhigh⟩ := (hcovers j b).mp hj
    rcases Nat.lt_trichotomy i j with hij | rfl | hji
    · have hle := piece_end_le hilt hij
      omega
    · rfl
    · have hle := piece_end_le hjlt hji
      omega

omit hknown in
theorem setDimensions_new_fault (hlen : 2147483648 < ds.length) :
    setDimensions (pcSchemaNew ds.length) ds = fault := by
  have hnew : (pcSchemaNew ds.length).dims.length = ds.length := List.length_replicate
  exact setDimensions_fault (List.ne_nil_of_length_pos (by omega))
    (fun d hd => by rw [hnew]; exact hpos.lt hd) (by rwa [hnew])

/-- The order in which the dimensions are set makes no difference. -/
theorem setDimensions_perm {es : List XmlDimension} (hperm : es.Perm ds) :
    (setDimensions (pcSchemaNew ds.length) es).map (fun s => (s.dims, s.size)) =
      (setDimensions (pcSchemaNew ds.length) ds).map (fun s => (s.dims, s.size)) := by
  have hpos' : OnePerPosition es := by
    rw [OnePerPosition, hperm.length_eq]
    exact (hperm.map _).trans hpos
  have hknown' : ∀ d ∈ es, d.interpretation ≠ .unknown := fun d hd => hknown d (hperm.mem_iff.mp hd)
  have hbefore : ∀ p, bytesBefore es p = bytesBefore ds p :=
    fun p => ((hperm.filter _).map _).sum_eq
  rw [← hperm.length_eq]
  by_cases hcount : es.length ≤ 2147483648
  · obtain ⟨s, hs, hlen, hplaced, hsize⟩ := setDimensions_dims hpos' hknown' hcount
    obtain ⟨s', hs', hlen', hplaced', hsize'⟩ :=
      setDimensions_dims hpos hknown (by rwa [hperm.length_eq] at hcount)
    rw [hs, hperm.length_eq, hs']
    have hdims : s.dims = s'.dims := by
      refine List.ext_getElem? fun i => ?_
      by_cases hi : i < es.length
      · have hmem : i ∈ es.map XmlDimension.position :=
          hpos'.mem_iff.mpr (List.mem_range.mpr hi)
        obtain ⟨d, hd, rfl⟩ := List.mem_map.mp hmem
        rw [hplaced d hd, hplaced' d (hperm.mem_iff.mp hd), hbefore]
      · rw [List.getElem?_eq_none (by omega),
          List.getElem?_eq_none (by rw [hlen', ← hperm.length_eq]; omega)]
    have hsizes : s.size = s'.size := by rw [hsize, hsize', hbefore, hperm.length_eq]
    exact congrArg Except.ok (Prod.ext hdims hsizes)
  · rw [setDimensions_new_fault hpos' (by omega), hperm.length_eq,
      setDimensions_new_fault hpos (by rw [← hperm.length_eq]; omega)]

/-- The dimensions are laid out exactly where the offsets can be counted. -/
theorem setDimensions_laidOut_iff :
    (∃ s, setDimensions (pcSchemaNew ds.length) ds = .ok s ∧ LaidOutBy ds s) ↔
      LayoutCondition ds := by
  constructor
  · rintro ⟨s, hrun, hlaid⟩
    have hcount : ds.length ≤ 2147483648 := by
      by_contra hlarge
      rw [setDimensions_new_fault hpos (by omega)] at hrun
      exact fault_ne_ok s hrun
    obtain ⟨s', hrun', -, hplaced, -⟩ := setDimensions_dims hpos hknown hcount
    rw [hrun, Except.ok.injEq] at hrun'
    subst hrun'
    refine ⟨hcount, fun d hd => ?_⟩
    have hplace := hplaced d hd
    rw [hlaid.placed d hd, Option.some.injEq, Option.some.injEq] at hplace
    have hoffset : bytesBefore ds d.position = uint32 (bytesBefore ds d.position) :=
      congrArg XmlDimension.byteoffset hplace
    rw [hoffset]
    exact uint32_lt _
  · rintro ⟨hcount, hoffset⟩
    obtain ⟨s, hrun, hlen, hplaced, hsize⟩ := setDimensions_dims hpos hknown hcount
    refine ⟨s, hrun, laidOutBy_of_placed hpos hlen (fun d hd => ?_) hsize⟩
    rw [hplaced d hd, uint32_of_lt (hoffset d hd)]

end Layout

/-! ## Points -/

/-- Setting a dimension leaves the bytes of all others alone. -/
theorem pcPointSetDouble_frame {s : PcSchema} {pt : PcPoint} (hpt : pt.schema = s)
    {dim : PcDimension} (hd : dim ∈ s.dims) (val : ℚ) :
    ∃ pt', pcPointSetDouble P pt dim val = .ok pt' ∧ pt'.schema = s ∧
      ∀ other ∈ s.dims, other ≠ dim → other.bytesIn pt'.data = other.bytesIn pt.data := by
  obtain ⟨pt', hrun, hschema, -, hwrite⟩ := pcPointSetDouble_eq (P := P) hpt hd val
  refine ⟨pt', hrun, hschema, fun other hother hne => ?_⟩
  have hapart := s.dim_apart hother hd hne
  rw [← s.length_stored (P := P) hd val] at hapart
  exact window_beside_writeAt hwrite hapart

/-- A walk over the indices of a list. -/
theorem foldlM_range_eq {α β : Type} {F : β → Nat → Run β} {G : β → α → Run β} (xs : List α)
    (h : ∀ b i (hi : i < xs.length), F b i = G b xs[i]) (b : β) :
    (List.range xs.length).foldlM F b = xs.foldlM G b := by
  induction xs using List.reverseRecOn generalizing b with
  | nil => rfl
  | append_singleton xs x ih =>
      rw [List.length_append, List.length_singleton, List.range_succ, List.foldlM_append,
        List.foldlM_append, ih fun b i hi => ?_]
      · congr 1
        funext c
        rw [List.foldlM_cons, List.foldlM_cons, h c xs.length (by simp)]
        simp
      · rw [h b i (by simp; omega), List.getElem_append_left hi]

/-- A point made from an array stores the numbers at the places where they are read. -/
theorem pcPointFromDoubleArray_ok {s : PcSchema} (hcount : s.ndims ≤ 2147483648) {array : List ℚ}
    {offset : Nat} (hroom : offset + s.ndims ≤ array.length) :
    pcPointFromDoubleArray P s array offset s.ndims =
      .ok (storedPoint P s fun dim => array.getD (uint32 (offset + dim.position)) 0) := by
  rw [pcPointFromDoubleArray, if_neg (not_not.mpr rfl), pcPointOf_ok false (length_zeros s.size),
    ok_bind, intLoop_ok hcount, ok_bind, PcSchema.ndims, foldlM_range_eq s.dims (G := fun pt dim =>
      pcPointSetDouble P pt dim (array.getD (uint32 (offset + dim.position)) 0))]
  · have hall : (s.dims.map fun dim => (dim, array.getD (uint32 (offset + dim.position)) 0)).foldlM
        (fun pt dv => pcPointSetDouble P pt dv.1 dv.2)
        (⟨false, s, zeros s.size, length_zeros s.size⟩ : PcPoint) = _ :=
      foldlM_pcPointSetDouble_all P _ rfl rfl
    rwa [List.foldlM_map] at hall
  · intro pt i hi
    have hle : uint32 (offset + i) < array.length :=
      Nat.lt_of_le_of_lt (Nat.mod_le _ _) (Nat.lt_of_lt_of_le (Nat.add_lt_add_left hi _) hroom)
    rw [wordAt_ok hle, ok_bind, List.getElem?_eq_getElem hi]
    simp only [s.position_eq i hi, List.getD_eq_getElem _ _ hle]

/-- What is read from a point that stores values. -/
theorem pcPointToDoubleArray_storedPoint {s : PcSchema} (hcount : s.ndims ≤ 2147483648)
    (f : PcDimension → ℚ) : pcPointToDoubleArray P.endian (storedPoint P s f) =
      .ok (s.dims.map fun dim => dim.readBack P (f dim)) := by
  have hread : s.dims.mapM (pcPointGetDouble P.endian (storedPoint P s f)) =
      .ok (s.dims.map fun dim => dim.readBack P (f dim)) := by
    refine mapM_eq_ok_map fun dim hd => ?_
    rw [pcPointGetDouble_ok P.endian (storedPoint P s f) hd, PcDimension.valueIn,
      PcDimension.rawIn, bytesIn_storedPoint s f hd, PcDimension.readBack]
  rw [pcPointToDoubleArray, show (storedPoint P s f).schema = s from rfl,
    intLoop_ok hcount, ok_bind, hread]

/-- A point made from an array gives back, in every dimension, what its own number is
stored as. -/
def RoundTrips (P : Platform) (s : PcSchema) (array : List ℚ) (offset : Nat) : Prop :=
  ∃ pt, pcPointFromDoubleArray P s array offset s.ndims = .ok pt ∧
    pcPointToDoubleArray P.endian pt =
      .ok (s.dims.map fun dim => dim.readBack P (array.getD (offset + dim.position) 0))

/-- The places in the array are counted exactly, or what stands at the wrapped ones is
stored as the same. -/
def ReadsPlaces (P : Platform) (s : PcSchema) (array : List ℚ) (offset : Nat) : Prop :=
  ∀ dim ∈ s.dims, dim.readBack P (array.getD (uint32 (offset + dim.position)) 0) =
    dim.readBack P (array.getD (offset + dim.position) 0)

theorem roundTrips_iff {s : PcSchema} (hcount : s.ndims ≤ 2147483648) {array : List ℚ}
    {offset : Nat} (hroom : offset + s.ndims ≤ array.length) :
    RoundTrips P s array offset ↔ ReadsPlaces P s array offset := by
  have hfrom := pcPointFromDoubleArray_ok (P := P) hcount hroom
  have hto := pcPointToDoubleArray_storedPoint (P := P) hcount
    fun dim => array.getD (uint32 (offset + dim.position)) 0
  rw [ReadsPlaces, ← List.map_inj_left]
  constructor
  · rintro ⟨pt, hpt, hvals⟩
    rw [hfrom, Except.ok.injEq] at hpt
    rw [← hpt, hto, Except.ok.injEq] at hvals
    exact hvals
  · intro hsame
    exact ⟨_, hfrom, hto.trans (congrArg Except.ok hsame)⟩

/-! ## Schemas made by setting their dimensions -/

/-- A schema of the library has the dimensions of one under construction. -/
structure Describes (s : XmlSchema) (S : PcSchema) : Prop where
  dims_eq : s.dims.map (Option.map XmlDimension.toDimension) = S.dims.map some
  size_eq : S.size = s.size

/-- The dimensions are laid out where their offsets can be counted, in every order
alike. In the points of such a schema, setting a dimension leaves the others alone, and
every number of an array is stored on its own where its place can be counted. -/
theorem pcSchemaSetDimension_layout_iff {ds : List XmlDimension} (hpos : OnePerPosition ds)
    (hknown : ∀ d ∈ ds, d.interpretation ≠ .unknown) :
    (∀ es : List XmlDimension, es.Perm ds →
      (setDimensions (pcSchemaNew ds.length) es).map (fun s => (s.dims, s.size)) =
        (setDimensions (pcSchemaNew ds.length) ds).map (fun s => (s.dims, s.size))) ∧
    ((∃ s, setDimensions (pcSchemaNew ds.length) ds = .ok s ∧ LaidOutBy ds s) ↔
      LayoutCondition ds) ∧
    ∀ s, setDimensions (pcSchemaNew ds.length) ds = .ok s → ∀ S : PcSchema, Describes s S →
      (∀ pt : PcPoint, pt.schema = S → ∀ dim ∈ S.dims, ∀ val : ℚ,
        ∃ pt', pcPointSetDouble P pt dim val = .ok pt' ∧ pt'.schema = S ∧
          ∀ other ∈ S.dims, other ≠ dim → other.bytesIn pt'.data = other.bytesIn pt.data) ∧
      ∀ (array : List ℚ) (offset : Nat), offset + S.ndims ≤ array.length →
        (RoundTrips P S array offset ↔ ReadsPlaces P S array offset) := by
  refine ⟨fun es hperm => setDimensions_perm hpos hknown hperm,
    setDimensions_laidOut_iff hpos hknown, fun s hs S hS => ⟨fun pt hpt dim hd val =>
      pcPointSetDouble_frame hpt hd val, fun array offset hroom => roundTrips_iff ?_ hroom⟩⟩
  have hcount : ds.length ≤ 2147483648 := by
    by_contra hlarge
    rw [setDimensions_new_fault hpos (by omega)] at hs
    exact fault_ne_ok s hs
  obtain ⟨s', hs', hlen, -⟩ := setDimensions_dims hpos hknown hcount
  rw [hs, Except.ok.injEq] at hs'
  have hdims := congrArg List.length hS.dims_eq
  rw [List.length_map, List.length_map, hs', hlen] at hdims
  rwa [PcSchema.ndims, ← hdims]

/-- A y and an x, in this order. -/
def yThenX : List XmlDimension :=
  [⟨some "Y", none, 1, 0, 0, .uint8, 0x3ff0000000000000, 0, 0⟩,
    ⟨some "X", none, 0, 0, 0, .uint8, 0x3ff0000000000000, 0, 0⟩]

/-- What they are laid out as. -/
def xThenY : List (Option XmlDimension) :=
  [some ⟨some "X", none, 0, 1, 0, .uint8, 0x3ff0000000000000, 0, 0⟩,
    some ⟨some "Y", none, 1, 1, 1, .uint8, 0x3ff0000000000000, 0, 0⟩]

/-- The schema of the library that it is. -/
def pairSchema : PcSchema := xySchema .uint8 .uint8 uint8_known uint8_known 1 .none

theorem describes_yThenX : ∃ s, setDimensions (pcSchemaNew 2) yThenX = .ok s ∧
    Describes s pairSchema := by
  have hscale : ieeeDecode 11 52 0x3ff0000000000000 = 1 := by decide +kernel
  have hoffset : ieeeDecode 11 52 0 = 0 := by decide +kernel
  refine ⟨{ pcSchemaNew 2 with
    dims := xThenY
    size := 2
    namehash := [("X", 0), ("Y", 1)] }, by decide, ⟨?_, rfl⟩⟩
  simp only [xThenY, pairSchema, xySchema, List.map_cons, List.map_nil, Option.map_some,
    XmlDimension.toDimension, hscale, hoffset, Interpretation.size]

/-- A y and an x are set, in this order; the point (5, 7) is made from an array and read
again. -/
theorem pcSchemaSetDimension_layout_iff_witness :
    (∃ s, setDimensions (pcSchemaNew 2) yThenX = .ok s ∧ LaidOutBy yThenX s) ∧
      RoundTrips Platform.plain pairSchema [0, 5, 7] 1 := by
  obtain ⟨-, hlayout, hpoints⟩ := pcSchemaSetDimension_layout_iff (P := Platform.plain)
    (show OnePerPosition yThenX by decide) (by decide)
  obtain ⟨s, hs, hS⟩ := describes_yThenX
  refine ⟨hlayout.mpr ⟨by decide, by decide⟩, ?_⟩
  refine ((hpoints s hs pairSchema hS).2 [0, 5, 7] 1 (by decide)).mpr ?_
  intro dim hd
  have hposition : dim.position < 2 := by
    revert dim
    decide
  rw [uint32_of_lt (by omega)]

/-- Numbers of which the first and the last are not zero. -/
def manyNumbers (n : Nat) : List ℚ := 1 :: (List.replicate n 0 ++ [5])

/-- Where the place of the last one wraps around, the first one is stored. -/
theorem manyNumbers_not_roundTrips {n : Nat} (hwrap : uint32 (n + 1) = 0) :
    n + pairSchema.ndims ≤ (manyNumbers n).length ∧
      ¬ RoundTrips Platform.plain pairSchema (manyNumbers n) n := by
  have hlen : (manyNumbers n).length = n + 2 := by simp [manyNumbers]
  refine ⟨by rw [hlen]; exact Nat.le_refl _, fun hround => ?_⟩
  have hplaces := (roundTrips_iff (P := Platform.plain) (s := pairSchema) (by decide)
    (by rw [hlen]; exact Nat.le_refl _)).mp hround
  have hy := hplaces ⟨some "Y", 1, 1, 1, .uint8, 1, 0⟩ (by decide)
  have hlast : (manyNumbers n).getD (n + 1) 0 = 5 := by simp [manyNumbers]
  have hfirst : (manyNumbers n).getD 0 0 = 1 := rfl
  simp only [hwrap, hlast, hfirst] at hy
  exact absurd hy (by decide +kernel)

/-- The place of the second of two numbers behind the first `2 ^ 32 - 1` is counted as
the first place of the array. -/
theorem pcPointFromDoubleArray_wraps :
    4294967295 + pairSchema.ndims ≤ (manyNumbers 4294967295).length ∧
      ¬ RoundTrips Platform.plain pairSchema (manyNumbers 4294967295) 4294967295 :=
  manyNumbers_not_roundTrips (n := 4294967295) (by decide)

end Pointcloud
