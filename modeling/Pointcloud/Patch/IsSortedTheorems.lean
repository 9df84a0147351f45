/-
Pointcloud.Patch.IsSortedTheorems — asking a compressed patch whether it is
sorted.

For a single dimension the library asks the stored array instead of the
points. Of plain, significant-bits and zlib arrays the values are compared as
the walk over the points compares them. The walk over runs is a different one:
it stops before the last pair of runs, and looks at the lengths of the runs
when the flag is 1, although it is with 0 that the walk over the points minds
equal neighbours. The theorem of this module says for which runs the two
answers are nevertheless the same.
-/
import Pointcloud.Patch.SortTheorems

namespace Pointcloud

open Pointcloud.Base

variable {P : Platform}

/-! ## Arrays -/

/-- The comparison of two values. -/
def valueCompare (en : Endian) (i : Interpretation) (x y : Bytes) : Int :=
  compareDouble (i.number en x) (i.number en y)

theorem pcComparePcb_ok {en : Endian} {pcb : PcBytes} (hknown : pcb.interpretation ≠ .unknown)
    {a b : Bytes} (ha : pcb.width ≤ a.length) (hb : pcb.width ≤ b.length) :
    pcComparePcb en a b pcb =
      .ok (valueCompare en pcb.interpretation (a.take pcb.width) (b.take pcb.width)) := by
  have hread : ∀ c : Bytes, pcb.width ≤ c.length → pcDoubleFromPtr en c 0 pcb.interpretation =
      .ok (pcb.interpretation.number en (c.take pcb.width)) := by
    intro c hc
    have hend : 0 + pcb.interpretation.size ≤ c.length := by
      rw [Nat.zero_add]
      exact hc
    rw [← Int.natCast_zero, pcDoubleFromPtr_ok hknown hend, List.drop_zero]
    rfl
  rw [pcComparePcb, hread a ha, ok_bind, hread b hb, ok_bind, pure_eq_ok]
  rfl

/-- A plain array with a value. -/
theorem pcBytesUncompressedIsSorted_ok {pcb : PcBytes} (h : pcb.Plain) (hpos : 1 ≤ pcb.npoints)
    (strict : Int) :
    ∃ b, pcBytesUncompressedIsSorted P pcb strict = .ok b ∧
      (b = true ↔ pcb.values.IsChain fun x y =>
        valueCompare P.endian pcb.interpretation x y < strict) := by
  have hwidth := pcb.width_pos
  have hroom := h.room
  have hlen := pcb.length_values
  have hbytes : pcb.bytes ≠ [] := by
    intro hnil
    rw [hnil, List.length_nil] at hroom
    have := Nat.mul_pos hpos hwidth
    omega
  have hcount : (pcb.size - 1) / pcb.width = pcb.values.length - 1 := by
    obtain ⟨n, hn⟩ : ∃ n, pcb.npoints = n + 1 := ⟨pcb.npoints - 1, by omega⟩
    have hlast : pcb.size - 1 = pcb.width * n + (pcb.width - 1) := by
      rw [h.size_eq, hn, Nat.succ_mul, Nat.mul_comm]
      omega
    rw [hlast, Nat.mul_add_div hwidth, Nat.div_eq_of_lt (by omega), hlen, hn]
    omega
  have hrow : ∀ i (hi : i < pcb.values.length), i * pcb.width + pcb.width ≤ pcb.bytes.length ∧
      (pcb.bytes.drop (i * pcb.width)).take pcb.width = pcb.values[i] := by
    intro i hi
    have hend := Nat.mul_le_mul_right pcb.width (Nat.succ_le_of_lt hi)
    rw [Nat.succ_mul, hlen] at hend
    exact ⟨by omega, (records_getElem _ _ _ _ hi).symm⟩
  have hcmp : ∀ i (hi : i + 1 < pcb.values.length), pcComparePcb P.endian
      (pcb.bytes.drop (i * pcb.width)) (pcb.bytes.drop (i * pcb.width + pcb.width)) pcb =
      .ok (valueCompare P.endian pcb.interpretation pcb.values[i] pcb.values[i + 1]) := by
    intro i hi
    obtain ⟨hend, heq⟩ := hrow i (by omega)
    obtain ⟨hend', heq'⟩ := hrow (i + 1) hi
    rw [Nat.succ_mul] at hend' heq'
    rw [pcComparePcb_ok h.known (by rw [List.length_drop]; omega)
      (by rw [List.length_drop]; omega), heq, heq']
  unfold pcBytesUncompressedIsSorted
  rw [assertThat_true h.compression_eq, ok_bind, if_neg hbytes, hcount]
  exact isSortedLoop_chain _ _ strict hcmp

/-! ## Runs -/

/-- The runs that the entries of a block stand for. -/
def PcBytes.runs (pcb : PcBytes) : List (Nat × Bytes) :=
  (rleEntries pcb).map fun entry => ((entry.headD 0).toNat, entry.tail)

theorem RleOf.runs_eq {e : PcBytes} {rs : List (Nat × Bytes)} (h : RleOf e rs) : e.runs = rs := by
  rw [PcBytes.runs, h.rleEntries_eq, List.map_map]
  conv_rhs => rw [← List.map_id rs]
  refine List.map_congr_left ?_
  rintro ⟨count, value⟩ hr
  have hcount := (h.count_range _ hr).2
  simp only [Function.comp_apply, rleEntry, List.headD_cons, List.tail_cons, BitVec.toNat_ofNat,
    id_eq]
  rw [Nat.mod_eq_of_lt (by omega)]

/-- What the walk over the runs asks of them: increasing values in all runs but
the last, and with a flag that is not 0 single values in all runs but the last two. -/
def RunsWalk (c : Bytes → Bytes → Int) (strict : Int) (rs : List (Nat × Bytes)) : Prop :=
  ((rs.dropLast.map Prod.snd).IsChain fun x y => c x y < strict) ∧
    (strict ≠ 0 → ∀ r ∈ rs.dropLast.dropLast, r.1 ≤ 1)

/-- One turn of the walk for each index decides the two conditions at that index. -/
theorem runLengthIsSortedLoop_ok {e : PcBytes} {rs : List (Nat × Bytes)} (h : RleOf e rs)
    (strict : Int) : ∀ {is : List Nat}, (∀ i ∈ is, i + 1 < rs.length) →
    runLengthIsSortedLoop P e strict is = .ok (decide (∀ i ∈ is, ∀ hi : i + 1 < rs.length,
      valueCompare P.endian e.interpretation rs[i].2 rs[i + 1].2 < strict ∧
        (strict ≠ 0 → rs[i].1 ≤ 1)))
  | [], _ => by simp [runLengthIsSortedLoop]
  | i :: is, his => by
      have hi := his i (by simp)
      have hentry : ∀ j (hj : j < rs.length),
          (e.bytes.drop (j * (e.width + 1))).take (e.width + 1) = rleEntry rs[j].1 rs[j].2 ∧
            j * (e.width + 1) + (e.width + 1) ≤ e.bytes.length := by
        intro j hj
        have hend := Nat.mul_le_mul_right (e.width + 1) (Nat.succ_le_of_lt hj)
        rw [Nat.succ_mul, ← h.size_eq] at hend
        have hsize := h.size_le
        have hentries := h.rleEntries_eq
        have hlen : j < (rleEntries e).length := by
          rw [hentries, List.length_map]
          exact hj
        have hget : (rleEntries e)[j] = rleEntry rs[j].1 rs[j].2 := by
          simp only [hentries, List.getElem_map]
        have hrecord : (rleEntries e)[j] = (e.bytes.drop (j * (e.width + 1))).take (e.width + 1) :=
          records_getElem _ _ _ _ hlen
        exact ⟨hrecord.symm.trans hget, by omega⟩
      have hvalue : ∀ j (hj : j < rs.length),
        e.width ≤ ((e.bytes.drop (j * (e.width + 1))).drop 1).length ∧
          ((e.bytes.drop (j * (e.width + 1))).drop 1).take e.width = rs[j].2 := by
        intro j hj
        obtain ⟨heq, hend⟩ := hentry j hj
        have hw := h.width_eq _ (List.getElem_mem hj)
        refine ⟨by rw [List.length_drop, List.length_drop]; omega, ?_⟩
        have htail := congrArg (List.drop 1) heq
        rw [List.drop_take, Nat.add_sub_cancel, rleEntry, List.drop_succ_cons,
          List.drop_zero] at htail
        exact htail
      obtain ⟨hfirst, hend⟩ := hentry i (by omega)
      obtain ⟨hlen, hval⟩ := hvalue i (by omega)
      obtain ⟨hlen', hval'⟩ := hvalue (i + 1) hi
      have hcount := h.count_range _ (List.getElem_mem (show i < rs.length by omega))
      have hrun : wordAt (e.bytes.drop (i * (e.width + 1))) 0 = .ok (BitVec.ofNat 8 rs[i].1) := by
        have hne : 0 < (e.bytes.drop (i * (e.width + 1))).length := by
          rw [List.length_drop]
          omega
        have hhead := congrArg (fun l : Bytes => l[0]?) hfirst
        simp only [List.getElem?_take, Nat.succ_pos, if_true, rleEntry, List.getElem?_cons_zero,
          List.getElem?_eq_getElem hne, Option.some.injEq] at hhead
        rw [wordAt_ok hne, hhead]
      have hnat : (BitVec.ofNat 8 rs[i].1).toNat = rs[i].1 := by
        rw [BitVec.toNat_ofNat, Nat.mod_eq_of_lt (by omega)]
      rw [runLengthIsSortedLoop, hrun, ok_bind, hnat, assertThat_true (by omega), ok_bind,
        pcComparePcb_ok h.known hlen hlen', ok_bind, hval, hval']
      by_cases hstop : strict ≤ valueCompare P.endian e.interpretation rs[i].2 rs[i + 1].2 ∨
          (strict ≠ 0 ∧ 1 < rs[i].1)
      · rw [if_pos hstop, pure_eq_ok, decide_eq_false]
        intro hall
        obtain ⟨hlt, hone⟩ := hall i (by simp) hi
        rcases hstop with hge | ⟨hne, hmany⟩
        · omega
        · have := hone hne
          omega
      · rw [if_neg hstop, runLengthIsSortedLoop_ok h strict fun j hj => his j (by simp [hj])]
        congr 1
        apply decide_eq_decide.mpr
        rw [List.forall_mem_cons]
        refine ⟨fun hrest => ⟨fun _ => ⟨by omega, fun hne => ?_⟩, hrest⟩, fun hall => hall.2⟩
        by_contra hmany
        exact hstop (Or.inr ⟨hne, by omega⟩)

/-- The answer of the walk over the runs. -/
theorem pcBytesRunLengthIsSorted_ok {e : PcBytes} {rs : List (Nat × Bytes)} (h : RleOf e rs)
    (hpos : 1 ≤ e.npoints) (strict : Int) :
    ∃ b, pcBytesRunLengthIsSorted P e strict = .ok b ∧
      (b = true ↔ RunsWalk (valueCompare P.endian e.interpretation) strict rs) := by
  have hsize := h.size_eq
  have hrs : 1 ≤ rs.length := by
    by_contra hzero
    have hnil : rs = [] := List.length_eq_zero_iff.mp (by omega)
    have := h.npoints_eq
    rw [hnil, expand_nil, List.length_nil] at this
    omega
  have hbytes : e.bytes ≠ [] := by
    intro hnil
    have hle := h.size_le
    have hmul := Nat.mul_le_mul_right (e.width + 1) hrs
    rw [hnil, List.length_nil] at hle
    omega
  have hcount : (e.size - e.width - 2) / (e.width + 1) = rs.length - 2 := by
    obtain ⟨k, hk⟩ : ∃ k, rs.length = k + 1 := ⟨rs.length - 1, by omega⟩
    rw [hsize, hk]
    cases k with
    | zero =>
        have hzero : (0 + 1) * (e.width + 1) - e.width - 2 = 0 := by omega
        rw [hzero, Nat.zero_div]
    | succ k =>
        have hlast : (k + 1 + 1) * (e.width + 1) - e.width - 2 = (e.width + 1) * k + e.width := by
          rw [Nat.succ_mul, Nat.succ_mul, Nat.mul_comm]
          omega
        rw [hlast, Nat.mul_add_div (by omega), Nat.div_eq_of_lt (by omega)]
        omega
  have hinside : ∀ i ∈ List.range (rs.length - 2), i + 1 < rs.length := by
    intro i hi
    have := List.mem_range.mp hi
    omega
  have hloop := runLengthIsSortedLoop_ok (P := P) h strict hinside
  refine ⟨_, Eq.trans ?_ hloop, ?_⟩
  · rw [pcBytesRunLengthIsSorted, assertThat_true h.compression_eq, ok_bind, if_neg hbytes, hcount]
  · rw [decide_eq_true_eq, RunsWalk, List.isChain_iff_getElem]
    simp only [List.length_map, List.length_dropLast, List.getElem_map, List.getElem_dropLast]
    constructor
    · intro hall
      refine ⟨fun i hi => (hall i (List.mem_range.mpr (by omega)) (by omega)).1, fun hne r hr => ?_⟩
      obtain ⟨i, hi, rfl⟩ := List.mem_iff_getElem.mp hr
      simp only [List.length_dropLast] at hi
      simp only [List.getElem_dropLast]
      exact (hall i (List.mem_range.mpr (by omega)) (by omega)).2 hne
    · rintro ⟨hchain, hone⟩ i hi hi'
      have hlt := List.mem_range.mp hi
      refine ⟨hchain i (by omega), fun hne => ?_⟩
      have hmem : rs[i] ∈ rs.dropLast.dropLast := by
        rw [List.mem_iff_getElem]
        exact ⟨i, by simp only [List.length_dropLast]; omega, by simp only [List.getElem_dropLast]⟩
      exact hone hne _ hmem

/-! ## The array of a dimension -/

/-- Asking for one dimension, of the stored array. -/
def arrayIsSorted (P : Platform) (e : PcBytes) (strict : Int) : Run Bool :=
  match e.compression with
  | .rle => pcBytesRunLengthIsSorted P e strict
  | .sigbits => pcBytesSigbitsIsSorted P e strict
  | .zlib => pcBytesZlibIsSorted P e strict
  | .none => pcBytesUncompressedIsSorted P e strict
  | .unknown _ => raise "pc_patch_dimensional_is_sorted: Uh oh"

/-- What the answer for an array should come to: its values in order, or for
runs what the walk over them asks. -/
def ArrayWalk (en : Endian) (e : PcBytes) (vs : List Bytes) (strict : Int) : Prop :=
  if e.compression = .rle then RunsWalk (valueCompare en e.interpretation) strict e.runs
  else vs.IsChain fun x y => valueCompare en e.interpretation x y < strict

theorem arrayIsSorted_ok {e : PcBytes} {vs : List Bytes} (h : Stores P e vs) (hpos : 1 ≤ e.npoints)
    (hnp : e.npoints < 4294967296) (strict : Int) :
    ∃ b, arrayIsSorted P e strict = .ok b ∧ (b = true ↔ ArrayWalk P.endian e vs strict) := by
  have hdecoded : ∃ d, pcBytesDecode P e = .ok d ∧ ∃ b,
      pcBytesUncompressedIsSorted P d strict = .ok b ∧ (b = true ↔ vs.IsChain fun x y =>
        valueCompare P.endian e.interpretation x y < strict) := by
    obtain ⟨d, hd, hplain, hvalues, hdn, hinterp, -⟩ := pcBytesDecode_ok h hnp
    refine ⟨d, hd, ?_⟩
    rw [← hvalues, ← hinterp]
    exact pcBytesUncompressedIsSorted_ok hplain (by omega) strict
  obtain ⟨d, hd, b, hb, hiff⟩ := hdecoded
  unfold arrayIsSorted ArrayWalk
  cases hc : e.compression with
  | none =>
      obtain ⟨hplain, hvalues⟩ := h.plainOf hc
      simp only [reduceCtorEq, if_false]
      rw [← hvalues]
      exact pcBytesUncompressedIsSorted_ok hplain hpos strict
  | rle =>
      obtain ⟨rs, hof, -⟩ := h.rleOf hc
      simp only [if_true]
      rw [hof.runs_eq]
      exact pcBytesRunLengthIsSorted_ok hof hpos strict
  | sigbits =>
      simp only [reduceCtorEq, if_false]
      refine ⟨b, ?_, hiff⟩
      rw [pcBytesSigbitsIsSorted, assertThat_true hc, ok_bind, hd, ok_bind, hb]
  | zlib =>
      simp only [reduceCtorEq, if_false]
      refine ⟨b, ?_, hiff⟩
      rw [pcBytesZlibIsSorted, assertThat_true hc, ok_bind, hd, ok_bind, hb]
  | unknown code => exact absurd hc (h.compression_ne code)

/-! ## One dimension of a patch -/

/-- The runs for which the walk over them gives the answer of the walk over the
values: with the flag 0, when the walk has met a pair that does not increase,
or all runs increase and have one value each; with the flag 1, when it has met
a decreasing pair, or the last run is in order exactly when no run but the last
two has more than one value. -/
def RunsAgree (c : Bytes → Bytes → Int) (strict : Bool) (rs : List (Nat × Bytes)) : Prop :=
  if strict then
    ¬ ((rs.dropLast.map Prod.snd).IsChain fun x y => c x y < 1) ∨
      (((rs.map Prod.snd).IsChain fun x y => c x y < 1) ↔ ∀ r ∈ rs.dropLast.dropLast, r.1 ≤ 1)
  else
    ¬ ((rs.dropLast.map Prod.snd).IsChain fun x y => c x y < 0) ∨
      (((rs.map Prod.snd).IsChain fun x y => c x y < 0) ∧ ∀ r ∈ rs, r.1 ≤ 1)

theorem valueCompare_self (en : Endian) (i : Interpretation) (x : Bytes) :
    valueCompare en i x x = 0 := by
  unfold valueCompare compareDouble
  rw [if_neg (lt_irrefl _), if_neg (lt_irrefl _)]

theorem chain_dropLast {R : Bytes → Bytes → Prop} {rs : List (Nat × Bytes)}
    (h : (rs.map Prod.snd).IsChain R) : (rs.dropLast.map Prod.snd).IsChain R := by
  rw [List.isChain_iff_getElem] at h ⊢
  intro i hi
  simp only [List.length_map, List.length_dropLast] at hi
  have := h i (by rw [List.length_map]; omega)
  simpa only [List.getElem_map, List.getElem_dropLast] using this

/-- The two walks agree on these runs. -/
theorem runsAgree_iff (en : Endian) (i : Interpretation) {rs : List (Nat × Bytes)}
    (hcount : ∀ r ∈ rs, 1 ≤ r.1) (strict : Bool) :
    (RunsWalk (valueCompare en i) (if strict then 1 else 0) rs ↔
      (expand rs).IsChain fun x y => valueCompare en i x y < if strict then 1 else 0) ↔
    RunsAgree (valueCompare en i) strict rs := by
  rw [isChain_expand hcount]
  unfold RunsWalk RunsAgree
  have hself := valueCompare_self en i
  cases strict with
  | true =>
      have hdrop : (rs.map Prod.snd).IsChain (fun x y => valueCompare en i x y < 1) → _ :=
        chain_dropLast
      have hruns : ∀ r ∈ rs, 1 < r.1 → valueCompare en i r.2 r.2 < 1 := by
        intro r _ _
        rw [hself]
        decide
      simp only [if_true, ne_eq, one_ne_zero, not_false_eq_true, forall_const]
      tauto
  | false =>
      have hdrop : (rs.map Prod.snd).IsChain (fun x y => valueCompare en i x y < 0) → _ :=
        chain_dropLast
      have hruns : (∀ r ∈ rs, 1 < r.1 → valueCompare en i r.2 r.2 < 0) ↔ ∀ r ∈ rs, r.1 ≤ 1 := by
        refine forall₂_congr fun r _ => ?_
        rw [hself]
        constructor
        · intro h
          by_contra hmany
          exact absurd (h (by omega)) (by decide)
        · intro hone hmany
          omega
      simp only [Bool.false_eq_true, if_false, ne_eq, not_true_eq_false, false_implies, and_true,
        hruns]
      tauto

/-- Both forms of the patch give the same answer, or stop in the same way. -/
def SortedAlike (P : Platform) (d : PcPatchDimensional) (name : String) (strict : Int) : Prop :=
  ∃ u, pcPatchUncompress P (.dimensional d) = .ok u ∧
    pcPatchIsSorted P (.dimensional d) [name] strict =
      pcPatchIsSorted P (.uncompressed u) [name] strict

/-- The arrays for which they do. -/
def SortedAlikeCondition (P : Platform) (d : PcPatchDimensional) (dim : PcDimension)
    (strict : Int) : Prop :=
  0 < dim.scale → ∀ e ∈ d.bytes[dim.position]?, e.compression = .rle →
    RunsAgree (valueCompare P.endian dim.interpretation) (decide (0 < strict)) e.runs

/-- The answers from a patch and from its records, for a dimension with a positive scale. -/
theorem pcPatchIsSorted_alike {d : PcPatchDimensional} {pts : List Bytes} (h : d.Holds P pts)
    (hpos : 1 ≤ d.npoints) (hfits : Fits d.schema d.npoints) {name : String} {dim : PcDimension}
    (hname : pcSchemaGetDimensionByName d.schema name = some dim) (hscale : 0 < dim.scale)
    (strict : Int) :
    SortedAlike P d name strict ↔ SortedAlikeCondition P d dim strict := by
  have hd := mem_of_pcSchemaGetDimensionByName hname
  have hlen := h.npoints_eq
  have hnames : NamesDims d.schema [name] [dim] := .cons ⟨hname, hscale⟩ .nil
  obtain ⟨e, he, hinterp, hnp, hstores⟩ := h.array_at hd
  have hget : d.bytes[dim.position]? = some e := wordAt_eq_ok.mp he
  -- the answer from the array
  obtain ⟨b, hb, hiff⟩ := arrayIsSorted_ok hstores (by omega) (by rw [hnp]; exact h.npoints_lt)
    (if decide (0 < strict) = true then 1 else 0)
  have harray : pcPatchIsSorted P (.dimensional d) [name] strict = .ok b := by
    have hdims : pcSchemaGetDimensionsByName (PcPatch.dimensional d).schema [name] = .ok [dim] :=
      pcSchemaGetDimensionsByName_ok hnames
    have hwalk : pcPatchDimensionalIsSorted P d [dim] (if 0 < strict then 1 else 0) =
        arrayIsSorted P e (if 0 < strict then 1 else 0) := by
      unfold pcPatchDimensionalIsSorted
      simp only [ne_eq, not_true_eq_false, if_false]
      rw [he, ok_bind]
      rfl
    rw [pcPatchIsSorted, hdims, ok_bind]
    simp only [decide_eq_true_eq] at hb
    exact hwalk.trans hb
  -- the answer from the records
  obtain ⟨u, hu, hholds, hschema, -, hsize, hdata⟩ := uncompressed_holds h hfits
  have hrun : pcPatchUncompress P (.dimensional d) = .ok u := hu
  obtain ⟨b', hb', hiff'⟩ := pcPatchUncompressedIsSorted_ok (P := P) hholds hsize (hdata hpos)
    (List.cons_ne_nil dim []) (by rw [hschema]; simpa using hd)
    (if decide (0 < strict) = true then 1 else 0)
  have hanswer : pcPatchIsSorted P (.uncompressed u) [name] strict = .ok b' := by
    have hdims : pcSchemaGetDimensionsByName (PcPatch.uncompressed u).schema [name] = .ok [dim] :=
      pcSchemaGetDimensionsByName_ok (by rw [PcPatch.schema, hschema]; exact hnames)
    rw [pcPatchIsSorted, hdims, ok_bind]
    simp only [decide_eq_true_eq] at hb'
    exact hb'
  have hvalues : (pts.IsChain fun x y => lexCompare P.endian [dim] x y <
      if decide (0 < strict) = true then 1 else 0) ↔
      (pts.map dim.bytesIn).IsChain fun x y => valueCompare P.endian e.interpretation x y <
        if decide (0 < strict) = true then 1 else 0 := by
    have hcmp : ∀ x y, lexCompare P.endian [dim] x y =
        valueCompare P.endian e.interpretation (dim.bytesIn x) (dim.bytesIn y) := by
      intro x y
      rw [lexCompare, lexCompare, hinterp]
      unfold valueCompare PcDimension.rawIn
      split
      · next hzero => rw [hzero]
      · rfl
    simp only [List.isChain_map, hcmp]
  have hbool : SortedAlike P d name strict ↔ b = b' := by
    unfold SortedAlike
    constructor
    · rintro ⟨u', hu', heq⟩
      cases hrun.symm.trans hu'
      rw [harray, hanswer] at heq
      exact Except.ok.inj heq
    · intro heq
      exact ⟨u, hrun, by rw [harray, hanswer, heq]⟩
  rw [hbool, Bool.eq_iff_iff, hiff, hiff', hvalues]
  unfold SortedAlikeCondition ArrayWalk
  rw [hget]
  simp only [Option.mem_def, Option.some.injEq, forall_eq', hscale, forall_const]
  by_cases hc : e.compression = .rle
  · obtain ⟨rs, hof, hexpand⟩ := hstores.rleOf hc
    have hagree := runsAgree_iff P.endian e.interpretation
      (fun r hr => (hof.count_range r hr).1) (decide (0 < strict))
    rw [if_pos hc, hof.runs_eq, ← hexpand, hagree, hinterp]
    exact ⟨fun hruns _ => hruns, fun hruns => hruns hc⟩
  · rw [if_neg hc]
    exact iff_of_true Iff.rfl fun hrle => absurd hrle hc

end Pointcloud
