/-
Pointcloud.Patch.PointnTheorems — access to one point against reading them
all.

`pc_patch_pointn` and `pc_pointlist_from_patch` are two readers of the same
patch. The theorem of this module says exactly when they agree on every
number: for records, as long as the count fits an `int`; for dimensions, when
in addition every value is found at the position at which each of the two
looks for it. The position is where they can part: the list reader counts
bytes in 32 bits, the random-access reader of the significant-bits encoding
counts bits in a word of the array's own width.
-/
import Pointcloud.Bytes.AccessTheorems
import Pointcloud.Patch.CoreTheorems

namespace Pointcloud

open Pointcloud.Base

variable {P : Platform}

/-! ## What the two readers should agree on -/

/-- The index of point number `n`: from 1 on, or backwards from -1. -/
def pointNumber (npoints : Nat) (n : Int) : Option Nat :=
  if 1 ≤ n ∧ n ≤ npoints then some (n - 1).toNat
  else if -npoints ≤ n ∧ n ≤ -1 then some (npoints + n).toNat
  else none

/-- Point number `n` is the one that the list of points has there, and null where
there is none. -/
def PointnAgrees (P : Platform) (p : PcPatch) (n : Int) : Prop :=
  ∃ l r, pcPointlistFromPatch P p = .ok l ∧ pcPatchPointn P p n = .ok r ∧
    r.map PcPoint.data =
      (pointNumber p.npoints n).bind fun i => (l[i]?).map PcPoint.data

/-- In the array of a dimension, both readers look for value `i` where its bits stand. -/
def PositionsAgree (P : Platform) (pts : List Bytes) (dim : PcDimension) (e : PcBytes) : Prop :=
  ∀ i < pts.length,
    if e.compression = .sigbits then
      e.valueAt P.endian (i * e.nbits P.endian % 2 ^ (8 * e.width)) =
        e.valueAt P.endian (wrapIndex dim.size i * e.nbits P.endian)
    else
      (pts.map dim.bytesIn).getD i [] = (pts.map dim.bytesIn).getD (wrapIndex dim.size i) []

/-- The patches on which the readers agree. -/
def PointnSound (P : Platform) : PcPatch → List Bytes → Prop
  | .uncompressed p, _ => p.npoints ≤ 2147483648
  | .dimensional d, pts => d.npoints < 2147483648 ∧
      ∀ de ∈ d.schema.dims.zip d.bytes, PositionsAgree P pts de.1 de.2
  | .lazperf _, _ => False

/-! ## The index -/

/-- The point that is read at an index. -/
def pointAt (P : Platform) (p : PcPatch) (i : Nat) : Run (Option PcPoint) :=
  match p with
  | .uncompressed p => do return some (← pcPatchUncompressedPointn p i)
  | .dimensional d => do return some (← pcPatchDimensionalPointn P d i)
  | .lazperf _ => lazperfNotEnabled "pc_patch_lazperf_pointn"

/-- While the count fits an `int`, the index is computed as it should be. -/
theorem index_of_pointNumber {npoints : Nat} (hint : npoints ≤ 2147483648) {n : Int}
    (hlo : -2147483648 ≤ n) (hhi : n ≤ 2147483647) {m : Int}
    (hm : m = if n < 0 then int32 (npoints + n) else n - 1) :
    match pointNumber npoints n with
      | none => m < 0 ∨ (npoints : Int) ≤ m
      | some i => m = i ∧ i < npoints := by
  unfold int32 at hm
  by_cases hup : 1 ≤ n ∧ n ≤ npoints
  · rw [pointNumber, if_pos hup]
    rw [if_neg (by omega)] at hm
    constructor <;> omega
  · by_cases hdown : -npoints ≤ n ∧ n ≤ -1
    · rw [pointNumber, if_neg hup, if_pos hdown]
      rw [if_pos (by omega)] at hm
      constructor <;> omega
    · rw [pointNumber, if_neg hup, if_neg hdown]
      split at hm <;> omega

theorem pcPatchPointn_eq {p : PcPatch} (hint : p.npoints ≤ 2147483648) {n : Int}
    (hlo : -2147483648 ≤ n) (hhi : n ≤ 2147483647) :
    pcPatchPointn P p n = match pointNumber p.npoints n with
      | none => .ok none
      | some i => pointAt P p i := by
  have hindex := index_of_pointNumber hint hlo hhi rfl
  unfold pcPatchPointn
  simp only
  generalize (if n < 0 then int32 (p.npoints + n) else n - 1) = m at hindex ⊢
  cases hnum : pointNumber p.npoints n with
  | none =>
      rw [hnum] at hindex
      rw [if_pos hindex]
      rfl
  | some i =>
      rw [hnum] at hindex
      obtain ⟨rfl, hi⟩ := hindex
      rw [if_neg (by omega)]
      cases p <;> rfl

theorem pointNumber_lt {npoints : Nat} {n : Int} {i : Nat} (h : pointNumber npoints n = some i) :
    i < npoints := by
  unfold pointNumber at h
  split at h
  · cases h
    omega
  · split at h
    · cases h
      omega
    · cases h

theorem pointNumber_succ {npoints i : Nat} (h : i < npoints) :
    pointNumber npoints (i + 1 : Nat) = some i := by
  unfold pointNumber
  rw [if_pos (by omega)]
  congr 1
  omega

/-! ## Records -/

theorem pcPatchUncompressedPointn_ok {p : PcPatchUncompressed} {pts : List Bytes}
    (h : p.Holds pts) {i : Nat} (hi : i < pts.length) :
    ∃ pt, pcPatchUncompressedPointn p i = .ok pt ∧ pt.data = pts[i] := by
  have hlen := h.length_eq
  have hroom := h.room
  have hend : i * p.schema.size + p.schema.size ≤ p.data.content.length := by
    have hmul := Nat.mul_le_mul_right p.schema.size (Nat.succ_le_of_lt hi)
    rw [Nat.succ_mul, hlen] at hmul
    omega
  have hvalue := records_getElem? p.schema.size p.npoints p.data.content i (by omega)
  rw [h.records_eq, List.getElem?_eq_getElem hi, Option.some.injEq] at hvalue
  have hrun : pcPatchUncompressedPointn p i =
      pcPointFromData p.schema p.data.content (i * p.schema.size : Nat) := rfl
  rw [hrun, pcPointFromData_ok hend]
  exact ⟨_, rfl, hvalue.symm⟩

/-! ## Dimensions -/

/-- The bytes that random access finds for point `i`, dimension by dimension. -/
def accessedPieces (P : Platform) (d : PcPatchDimensional) (pts : List Bytes) (i : Nat) :
    List Bytes :=
  List.zipWith (fun dim e => accessed P e (pts.map dim.bytesIn) i) d.schema.dims d.bytes

section Dimensions

variable {d : PcPatchDimensional} {pts : List Bytes} (h : d.Holds P pts)

include h

theorem PcPatchDimensional.Holds.of_mem_zip {dim : PcDimension} {e : PcBytes}
    (hmem : (dim, e) ∈ d.schema.dims.zip d.bytes) :
    dim ∈ d.schema.dims ∧ e.width = dim.size ∧ e.npoints = d.npoints ∧
      Stores P e (pts.map dim.bytesIn) := by
  have hdim := (List.of_mem_zip hmem).1
  obtain ⟨hinterp, hnp, hstores⟩ := (List.forall₂_iff_zip.mp h.bytes_hold).2 hmem
  refine ⟨hdim, ?_, hnp, hstores⟩
  rw [d.schema.dim_size hdim, PcBytes.width, hinterp]

theorem lengths_accessedPieces {i : Nat} (hi : i < pts.length) :
    (accessedPieces P d pts i).map List.length = d.schema.dims.map PcDimension.size := by
  have hlen := h.bytes_hold.length_eq
  apply List.ext_getElem
  · simp only [accessedPieces, List.length_map, List.length_zipWith]
    omega
  · intro j h₁ h₂
    have hj : j < d.schema.dims.length := by simpa using h₂
    have hj' : j < d.bytes.length := by omega
    have hmem : (d.schema.dims[j], d.bytes[j]) ∈ d.schema.dims.zip d.bytes := by
      rw [List.mem_iff_getElem]
      exact ⟨j, by rw [List.length_zip]; omega, List.getElem_zip⟩
    obtain ⟨-, hwidth, hnp, hstores⟩ := h.of_mem_zip hmem
    have hnp' : d.bytes[j].npoints < 4294967296 := by
      rw [hnp]
      exact h.npoints_lt
    simp only [accessedPieces, List.getElem_map, List.getElem_zipWith]
    rw [(pcBytesToPtr_ok hstores hnp' (by rwa [List.length_map])).2, hwidth]

/-- The copies that put point `i` together. -/
theorem accessedCopies_ok {i : Nat} (hi : i < pts.length) :
    ((d.schema.dims.zip d.bytes).mapM fun (dim, pcb) => (do
        let src ← pcBytesToPtr P pcb i
        return ((dim.byteoffset : Int), src) : Run (Int × Bytes)))
      = .ok (follow 0 (accessedPieces P d pts i)) := by
  have hfollow := zip_offset_eq_follow d.schema (lengths_accessedPieces h hi) 0
  rw [accessedPieces, zip_zipWith, List.map_map] at hfollow
  rw [accessedPieces, ← hfollow]
  refine mapM_eq_ok_map ?_
  rintro ⟨dim, e⟩ hmem
  obtain ⟨-, -, hnp, hstores⟩ := h.of_mem_zip hmem
  have hnp' : e.npoints < 4294967296 := by
    rw [hnp]
    exact h.npoints_lt
  simp only
  rw [(pcBytesToPtr_ok hstores hnp' (by rwa [List.length_map])).1, ok_bind, pure_eq_ok]
  simp

/-- Point `i` is put together from what random access finds. -/
theorem pcPatchDimensionalPointn_ok {i : Nat} (hi : i < pts.length) :
    ∃ pt, pcPatchDimensionalPointn P d i = .ok pt ∧
      pt.data = (accessedPieces P d pts i).flatten := by
  have hpieces := lengths_accessedPieces h hi
  have hlen : (accessedPieces P d pts i).flatten.length = d.schema.size := by
    rw [List.length_flatten, hpieces, d.schema.size_eq, sizeOfDims]
  have hsize := d.schema.size_pos
  refine ⟨⟨false, d.schema, (accessedPieces P d pts i).flatten, hlen⟩, ?_, rfl⟩
  rw [pcPatchDimensionalPointn, pcPointMake, if_neg (by omega), pcPointOf_ok _ (length_zeros _),
    ok_bind, accessedCopies_ok h hi, ok_bind, writeAll_fill (by rw [hlen, length_zeros]), ok_bind,
    pcPointOf_ok _ hlen]

/-- The two readers put the same record together exactly when they find the
same value in every dimension. -/
theorem flatten_accessedPieces_eq_iff {i : Nat} (hi : i < pts.length) :
    (accessedPieces P d pts i).flatten = recordAt d.schema pts i ↔
      ∀ de ∈ d.schema.dims.zip d.bytes,
        accessed P de.2 (pts.map de.1.bytesIn) i =
          de.1.bytesIn (pts.getD (wrapIndex de.1.size i) []) := by
  have hpieces := lengths_accessedPieces h hi
  have hpieces' := lengths_pieces h.width_eq hi
  have hzip : ∀ (ds : List PcDimension) (es : List PcBytes), ds.length = es.length →
      (List.zipWith (fun dim e => accessed P e (pts.map dim.bytesIn) i) ds es =
        (ds.map fun dim => dim.bytesIn (pts.getD (wrapIndex dim.size i) [])) ↔
      ∀ de ∈ ds.zip es, accessed P de.2 (pts.map de.1.bytesIn) i =
        de.1.bytesIn (pts.getD (wrapIndex de.1.size i) [])) := by
    intro ds
    induction ds with
    | nil => simp
    | cons dim ds ih =>
        intro es hes
        cases es with
        | nil => simp at hes
        | cons e es =>
            rw [List.zipWith_cons_cons, List.map_cons, List.cons.injEq, List.zip_cons_cons,
              List.forall_mem_cons, ih es (by simpa using hes)]
  rw [← hzip _ _ h.bytes_hold.length_eq, recordAt]
  constructor
  · intro heq
    change accessedPieces P d pts i = _
    rw [← pieces_flatten (accessedPieces P d pts i), hpieces, heq, ← hpieces', pieces_flatten]
  · intro heq
    rw [accessedPieces, heq]

/-- What random access finds in a dimension, in terms of positions. -/
theorem positionsAgree_iff {dim : PcDimension} {e : PcBytes}
    (hmem : (dim, e) ∈ d.schema.dims.zip d.bytes) :
    (∀ i < pts.length, accessed P e (pts.map dim.bytesIn) i =
      dim.bytesIn (pts.getD (wrapIndex dim.size i) [])) ↔ PositionsAgree P pts dim e := by
  obtain ⟨hdim, hwidth, hnp, hstores⟩ := h.of_mem_zip hmem
  refine forall₂_congr fun i hi => ?_
  have hlt : wrapIndex dim.size i < pts.length := Nat.lt_of_le_of_lt (wrapIndex_le _ _) hi
  have hlt' : wrapIndex dim.size i < (pts.map dim.bytesIn).length := by rwa [List.length_map]
  have hvalue : dim.bytesIn (pts.getD (wrapIndex dim.size i) [])
      = (pts.map dim.bytesIn)[wrapIndex dim.size i] := by
    rw [List.getD_eq_getElem _ _ hlt, List.getElem_map]
  have hlength := hstores.width_eq _ (List.getElem_mem hlt')
  rw [hvalue]
  unfold accessed
  by_cases hc : e.compression = .sigbits
  · rw [if_pos hc, if_pos hc, (hstores.sigbitsOf hc).valueAt_eq hlt']
    constructor
    · intro heq
      rw [← heq, Endian.word_wordBytes]
    · intro heq
      rw [heq, Endian.wordBytes_word _ hlength]
  · rw [if_neg hc, if_neg hc, List.getD_eq_getElem _ _ hlt']

end Dimensions

/-! ## When the readers agree -/

theorem pointnAgrees_uncompressed {p : PcPatchUncompressed} {pts : List Bytes} (h : p.Holds pts) :
    (∀ n : Int, -2147483648 ≤ n → n ≤ 2147483647 → PointnAgrees P (.uncompressed p) n) ↔
      p.npoints ≤ 2147483648 := by
  constructor
  · intro hall
    obtain ⟨l, -, hl, -⟩ := hall 0 (by omega) (by omega)
    by_contra hlt
    exact pcPointlistFromUncompressed_not_ok (Nat.not_le.mp hlt) l hl
  · intro hint n hlo hhi
    have hlen := h.length_eq
    obtain ⟨l, hl, hdata⟩ := pcPointlistFromUncompressed_ok h hint
    have hread := pcPatchPointn_eq (P := P) (p := .uncompressed p) hint hlo hhi
    cases hnum : pointNumber p.npoints n with
    | none =>
        refine ⟨l, none, hl, ?_, ?_⟩
        · simp only [hread, PcPatch.npoints, hnum]
        · simp only [PcPatch.npoints, hnum]
          rfl
    | some i =>
        have hi : i < pts.length := by
          rw [hlen]
          exact pointNumber_lt hnum
        obtain ⟨pt, hpt, hptdata⟩ := pcPatchUncompressedPointn_ok h hi
        refine ⟨l, some pt, hl, ?_, ?_⟩
        · simp only [hread, PcPatch.npoints, hnum, pointAt, hpt, ok_bind, pure_eq_ok]
        · simp only [PcPatch.npoints, hnum, Option.bind_some]
          rw [← List.getElem?_map, hdata, List.getElem?_eq_getElem hi, ← hptdata]
          rfl

theorem pointnAgrees_dimensional {d : PcPatchDimensional} {pts : List Bytes} (h : d.Holds P pts) :
    (∀ n : Int, -2147483648 ≤ n → n ≤ 2147483647 → PointnAgrees P (.dimensional d) n) ↔
      d.npoints < 2147483648 ∧
        ∀ de ∈ d.schema.dims.zip d.bytes, PositionsAgree P pts de.1 de.2 := by
  have hlen := h.npoints_eq
  by_cases hint : d.npoints < 2147483648
  · obtain ⟨l, hl, hdata⟩ := pcPointlistFromDimensional_ok h hint
    have hget : ∀ i, i < pts.length → (l[i]?).map PcPoint.data =
      some (recordAt d.schema pts i) := by
      intro i hi
      rw [← List.getElem?_map, hdata, List.getElem?_eq_getElem (by rwa [length_recordsOf])]
      simp [recordsOf]
    have hread : ∀ n : Int, -2147483648 ≤ n → n ≤ 2147483647 → _ := fun n hlo hhi =>
      pcPatchPointn_eq (P := P) (p := .dimensional d) (Nat.le_of_lt hint) (n := n) hlo hhi
    have hstep : ∀ n i, -2147483648 ≤ n → n ≤ 2147483647 → pointNumber d.npoints n = some i →
        (PointnAgrees P (.dimensional d) n ↔
          (accessedPieces P d pts i).flatten = recordAt d.schema pts i) := by
      intro n i hlo hhi hnum
      have hi : i < pts.length := by rw [hlen]; exact pointNumber_lt hnum
      obtain ⟨pt, hpt, hptdata⟩ := pcPatchDimensionalPointn_ok h hi
      have hrun : pcPatchPointn P (.dimensional d) n = .ok (some pt) := by
        simp only [hread n hlo hhi, PcPatch.npoints, hnum, pointAt, hpt, ok_bind, pure_eq_ok]
      unfold PointnAgrees
      simp only [pcPointlistFromPatch, hl, hrun, PcPatch.npoints, hnum, Option.bind_some]
      constructor
      · rintro ⟨_, _, hl', hr', heq⟩
        cases hl'
        cases hr'
        rw [hget i hi, Option.map_some, Option.some.injEq, hptdata] at heq
        exact heq
      · intro heq
        refine ⟨l, some pt, rfl, rfl, ?_⟩
        rw [hget i hi, Option.map_some, hptdata, heq]
    rw [and_iff_right hint]
    constructor
    · rintro hall ⟨dim, e⟩ hmem
      refine (positionsAgree_iff h hmem).mp fun i hi => ?_
      have hnum : pointNumber d.npoints (i + 1 : Nat) = some i := pointNumber_succ (by omega)
      have hagree := (hstep _ i (by omega) (by omega) hnum).mp (hall _ (by omega) (by omega))
      exact (flatten_accessedPieces_eq_iff h hi).mp hagree ⟨dim, e⟩ hmem
    · intro hsound n hlo hhi
      cases hnum : pointNumber d.npoints n with
      | none =>
          refine ⟨l, none, hl, ?_, ?_⟩
          · simp only [hread n hlo hhi, PcPatch.npoints, hnum]
          · simp only [PcPatch.npoints, hnum]
            rfl
      | some i =>
          have hi : i < pts.length := by rw [hlen]; exact pointNumber_lt hnum
          refine (hstep n i hlo hhi hnum).mpr ((flatten_accessedPieces_eq_iff h hi).mpr ?_)
          rintro ⟨dim, e⟩ hmem
          exact (positionsAgree_iff h hmem).mpr (hsound _ hmem) i hi
  · constructor
    · intro hall
      obtain ⟨l, -, hl, -⟩ := hall 0 (by omega) (by omega)
      exact absurd hl (pcPointlistFromDimensional_not_ok h.npoints_lt (by omega) l)
    · intro hsound
      exact absurd hsound.1 hint

/-! ## One value of a significant-bits array -/

/-- The random-access reader finds every value that the decoder gives. -/
def ToPtrAgrees (P : Platform) (e : PcBytes) : Prop :=
  ∃ d, pcBytesSigbitsDecode P.endian P.shift e = .ok d ∧
    ∀ i < e.npoints, pcBytesSigbitsToPtr P.endian P.shift e i = .ok (d.values.getD i [])

theorem toPtrAgrees_iff {e : PcBytes} {vs : List Bytes} (h : SigbitsOf P.endian e vs) :
    ToPtrAgrees P e ↔ ∀ i < e.npoints,
      e.valueAt P.endian (i * e.nbits P.endian % 2 ^ (8 * e.width)) =
        e.valueAt P.endian (i * e.nbits P.endian) := by
  have hdecode := pcBytesSigbitsDecode_ok P.shift_ne_trap h
  have hvalues : ∀ d : PcBytes,
      d = { e with size := e.width * e.npoints, bytes := vs.flatten, compression := .none,
                   readonly := false } → d.values = vs := by
    rintro d rfl
    change records e.width e.npoints vs.flatten = vs
    rw [← h.npoints_eq]
    exact records_flatten h.width_eq
  have hread : ∀ i < e.npoints,
      (pcBytesSigbitsToPtr P.endian P.shift e i = .ok (vs.getD i []) ↔
        e.valueAt P.endian (i * e.nbits P.endian % 2 ^ (8 * e.width)) =
          e.valueAt P.endian (i * e.nbits P.endian)) := by
    intro i hi
    have hlt : i < vs.length := by rwa [h.npoints_eq]
    have hlength := h.width_eq _ (List.getElem_mem hlt)
    rw [pcBytesSigbitsToPtr_ok P.shift_ne_trap h hlt, List.getD_eq_getElem _ _ hlt,
      h.valueAt_eq hlt, Except.ok.injEq]
    constructor
    · intro heq
      rw [← heq, Endian.word_wordBytes]
    · intro heq
      rw [heq, Endian.wordBytes_word _ hlength]
  constructor
  · rintro ⟨d, hd, hall⟩ i hi
    have heq := Except.ok.inj (hdecode.symm.trans hd)
    have hi' := hall i hi
    rw [hvalues d heq.symm] at hi'
    exact (hread i hi).mp hi'
  · intro hall
    refine ⟨_, hdecode, fun i hi => ?_⟩
    rw [hvalues _ rfl]
    exact (hread i hi).mpr (hall i hi)

/-- Random access agrees with reading the whole patch exactly on the patches of
`PointnSound`, and with decoding an array exactly when the bits of every value
stand where the position, counted in a word of the array, points. -/
theorem pcPatchPointn_agrees_iff (P : Platform) :
    (∀ (p : PcPatch) (pts : List Bytes), p.Holds P pts →
      ((∀ n : Int, -2147483648 ≤ n → n ≤ 2147483647 → PointnAgrees P p n) ↔
        PointnSound P p pts)) ∧
    ∀ (pcb e : PcBytes), pcb.Plain → pcBytesEncode P pcb .sigbits = .ok e →
      (ToPtrAgrees P e ↔ ∀ i < e.npoints,
        e.valueAt P.endian (i * e.nbits P.endian % 2 ^ (8 * e.width)) =
          e.valueAt P.endian (i * e.nbits P.endian)) := by
  constructor
  · intro p pts h
    cases p with
    | uncompressed u => exact pointnAgrees_uncompressed h
    | dimensional d => exact pointnAgrees_dimensional h
    | lazperf l => exact h.elim
  · intro pcb e hplain hencode
    exact toPtrAgrees_iff (pcBytesSigbitsEncode_sigbitsOf hplain hencode)

/-- Two points of two bytes each. -/
def pairPatch : PcPatchUncompressed where
  readonly := false
  schema := xySchema .uint8 .uint8 uint8_known uint8_known 1 .none
  npoints := 2
  bounds := ⟨1, 3, 2, 4⟩
  stats := none
  maxpoints := 2
  datasize := 4
  data := bufOf [1, 2, 3, 4]

/-- Thirty-three values of one byte that have no leading bit in common. -/
def wideArray : PcBytes where
  size := 33
  npoints := 33
  interpretation := .uint8
  compression := .none
  readonly := false
  bytes := (List.range 32).map (BitVec.ofNat 8) ++ [255]

/-- The same values packed: eight unique bits each. -/
def packedArray : PcBytes where
  size := 36
  npoints := 33
  interpretation := .uint8
  compression := .sigbits
  readonly := false
  bytes := [8, 0] ++ (List.range 32).map (BitVec.ofNat 8) ++ [255, 0]

/-- A patch with the packed values as its x, and a y of zeros. -/
def packedPatch : PcPatchDimensional where
  readonly := false
  schema := xySchema .uint8 .uint8 uint8_known uint8_known 1 .dimensional
  npoints := 33
  bounds := ⟨0, 255, 0, 0⟩
  stats := none
  bytes := [packedArray, { wideArray with bytes := zeros 33 }]

theorem wideArray_plain : wideArray.Plain := ⟨by decide, rfl, by decide, by decide⟩

theorem pcBytesEncode_wideArray :
    pcBytesEncode Platform.plain wideArray .sigbits = .ok packedArray := by
  decide +kernel

/-- Both halves: two points one after the other, and the packed array. -/
theorem pcPatchPointn_agrees_iff_witness :
    (∀ n : Int, -2147483648 ≤ n → n ≤ 2147483647 →
      PointnAgrees Platform.plain (.uncompressed pairPatch) n) ∧
    (ToPtrAgrees Platform.plain packedArray ↔ ∀ i < 33,
      packedArray.valueAt .little (i * packedArray.nbits .little % 2 ^ 8) =
        packedArray.valueAt .little (i * packedArray.nbits .little)) := by
  constructor
  · have hpair : PcPatchUncompressed.Holds pairPatch [[1, 2], [3, 4]] :=
      ⟨by decide, by decide, by decide⟩
    exact ((pcPatchPointn_agrees_iff Platform.plain).1 (.uncompressed pairPatch) _ hpair).mpr
      (show pairPatch.npoints ≤ 2147483648 by decide)
  · exact (pcPatchPointn_agrees_iff Platform.plain).2 _ _ wideArray_plain pcBytesEncode_wideArray

/-- The points of `packedPatch`. -/
theorem packedPatch_holds :
    packedPatch.Holds Platform.plain (wideArray.bytes.map fun x => [x, 0]) := by
  have hx : Stores Platform.plain packedArray wideArray.values :=
    ⟨by decide, by decide, by decide +kernel,
      pcBytesSigbitsEncode_sigbitsOf wideArray_plain pcBytesEncode_wideArray⟩
  have hy : PcBytes.Plain { wideArray with bytes := zeros 33 } :=
    ⟨by decide, rfl, by decide, by decide⟩
  refine ⟨by decide, by decide, by decide +kernel, ?_⟩
  refine .cons ⟨rfl, rfl, ?_⟩ (.cons ⟨rfl, rfl, ?_⟩ .nil)
  · convert hx using 1
    decide +kernel
  · convert hy.stores using 1
    decide +kernel

/-- The last point of the packed patch is read back as its first: its bits
begin at position 256, which a byte cannot hold. -/
theorem pcPatchPointn_wraps :
    pcBytesEncode Platform.plain wideArray .sigbits = .ok packedArray ∧
    packedPatch.Holds Platform.plain (wideArray.bytes.map fun x => [x, 0]) ∧
    (pcPatchPointn Platform.plain (.dimensional packedPatch) 33).map (Option.map PcPoint.data) =
      .ok (some [0, 0]) ∧
    (pcPointlistFromPatch Platform.plain (.dimensional packedPatch)).map
        (fun l => (l[32]?).map PcPoint.data) = .ok (some [255, 0]) ∧
    ¬ PointnAgrees Platform.plain (.dimensional packedPatch) 33 ∧
    ¬ ToPtrAgrees Platform.plain packedArray := by
  have hpoint : (pcPatchPointn Platform.plain (.dimensional packedPatch) 33).map
      (Option.map PcPoint.data) = .ok (some [0, 0]) := by decide +kernel
  have hlist : (pcPointlistFromPatch Platform.plain (.dimensional packedPatch)).map
      (fun l => (l[32]?).map PcPoint.data) = .ok (some [255, 0]) := by decide +kernel
  refine ⟨pcBytesEncode_wideArray, packedPatch_holds, hpoint, hlist, ?_, ?_⟩
  · rintro ⟨l, r, hl, hr, hagree⟩
    rw [hl] at hlist
    rw [hr] at hpoint
    have hr' := Except.ok.inj hpoint
    have hl' : (l[32]?).map PcPoint.data = some [255, 0] := Except.ok.inj hlist
    have hnum : pointNumber (PcPatch.dimensional packedPatch).npoints 33 = some 32 := by decide
    rw [hr', hnum, Option.bind_some, hl'] at hagree
    exact absurd hagree (by decide)
  · rintro ⟨d, hd, hall⟩
    have hread := hall 32 (by decide)
    have hvalue : (pcBytesSigbitsDecode .little .zero packedArray).map
        (fun d => d.values.getD 32 []) = .ok [255] := by decide +kernel
    have hptr : pcBytesSigbitsToPtr .little .zero packedArray 32 = .ok [0] := by decide +kernel
    have hd' : pcBytesSigbitsDecode .little .zero packedArray = .ok d := hd
    rw [hd'] at hvalue
    have hget : d.values.getD 32 [] = [255] := Except.ok.inj hvalue
    rw [hget] at hread
    exact absurd (hptr.symm.trans hread) (by decide)

end Pointcloud
