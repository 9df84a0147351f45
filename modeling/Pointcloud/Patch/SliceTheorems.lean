/-
Pointcloud.Patch.SliceTheorems — a range is a slice of the points.

The range of all points is the patch itself; any other is copied from the
records that the patch is uncompressed to. So it is the slice of the points
where the records in it are these points, and two ranges that complement one
another are put together to the records.
-/
import Pointcloud.Patch.UnionTheorems

namespace Pointcloud

open Pointcloud.Base

variable {P : Platform}

/-! ## Slices -/

/-- The points numbered from `first` on, `count` of them as far as there are any. -/
def sliceOf (pts : List Bytes) (first count : Int) : List Bytes :=
  (pts.drop (first - 1).toNat).take count.toNat

/-- The slices of two lists are the same where the lists are. -/
theorem sliceOf_eq_iff {xs ys : List Bytes} (hlen : xs.length = ys.length) {i : Nat}
    {count : Int} : sliceOf xs (i + 1) count = sliceOf ys (i + 1) count ↔
      ∀ j (hx : j < xs.length) (hy : j < ys.length), i ≤ j → (j : Int) < i + count →
        xs[j] = ys[j] := by
  have hi : ((i : Int) + 1 - 1).toNat = i := by omega
  unfold sliceOf
  rw [hi]
  constructor
  · intro hsame j hx hy hij hj
    have hget := congrArg (fun zs => zs[j - i]?) hsame
    have hlt : j - i < count.toNat := by omega
    have hindex : i + (j - i) = j := by omega
    simpa only [List.getElem?_take, if_pos hlt, List.getElem?_drop, hindex,
      List.getElem?_eq_getElem hx, List.getElem?_eq_getElem hy, Option.some.injEq] using hget
  · intro hsame
    refine List.ext_getElem (by simp [hlen]) fun k hk _ => ?_
    rw [List.length_take, List.length_drop] at hk
    simp only [List.getElem_take, List.getElem_drop]
    exact hsame (i + k) (by omega) (by omega) (by omega) (by omega)

/-! ## Ranges -/

/-- There is no range without points. -/
theorem pcPatchRange_none {pa : PcPatch} (hlt : pa.npoints < 2147483648) {first count : Int}
    (hlo : -2147483648 ≤ first) (hhi : first ≤ 2147483647)
    (hnone : first < 1 ∨ count ≤ 0 ∨ (pa.npoints : Int) < first) :
    pcPatchRange P pa first count = .ok none := by
  unfold pcPatchRange int32
  refine if_pos ?_
  split <;> omega

/-- The range of all points is the patch itself. -/
theorem pcPatchRange_whole {pa : PcPatch} (hlt : pa.npoints < 2147483648) (hpos : 1 ≤ pa.npoints)
    {count : Int} (hcount : (pa.npoints : Int) ≤ count) :
    pcPatchRange P pa 1 count = .ok (some pa) := by
  have hstart : int32 (1 - 1) = 0 := by decide
  have hmax : int32 (pa.npoints - 0) = pa.npoints := by unfold int32; omega
  unfold pcPatchRange
  simp only [hstart, hmax]
  rw [if_neg (by split <;> omega), if_pos (by split <;> omega)]
  rfl

/-- Any other range is copied from the records. -/
theorem pcPatchRange_part {pa : PcPatch} {pts : List Bytes} (h : pa.Holds P pts)
    (hvalid : pa.schema.Valid) (hlt : pa.npoints < 2147483648) (i : Nat) (count : Int)
    (hi : i < pa.npoints) (hcount : 0 < count) (hpart : ¬ (i = 0 ∧ (pa.npoints : Int) ≤ count)) :
    ∃ q : PcPatchUncompressed, pcPatchRange P pa (i + 1) count = .ok (some (.uncompressed q)) ∧
      q.Holds (sliceOf (pa.unpacked pts) (i + 1) count) ∧ q.schema = pa.schema := by
  obtain ⟨xdim, hx, hxdim⟩ := hvalid.xdimension
  obtain ⟨ydim, hy, hydim⟩ := hvalid.ydimension
  obtain ⟨u, hu⟩ := h.unpacks (PcPatch.allocatable_of_le (Nat.le_of_lt hlt))
  have hlen : (pa.unpacked pts).length = pa.npoints := by rw [length_unpacked, h.length_eq]
  -- the number of points that are copied
  obtain ⟨n, hn⟩ : ∃ n : Nat, (if (pa.npoints : Int) - i < count then (pa.npoints : Int) - i
      else count) = n := by
    exact Int.eq_ofNat_of_zero_le (by split <;> omega)
  have hinside : i + n ≤ pa.npoints ∧ 1 ≤ n ∧ n ≠ pa.npoints ∧ (n : Int) ≤ count := by
    split at hn <;> omega
  have hslice : sliceOf (pa.unpacked pts) (i + 1) count = ((pa.unpacked pts).drop i).take n := by
    have hdrop : ((i : Int) + 1 - 1).toNat = i := by omega
    rw [sliceOf, hdrop]
    split at hn
    · rw [List.take_of_length_le (by rw [List.length_drop]; omega),
        List.take_of_length_le (by rw [List.length_drop]; omega)]
    · rw [hn, Int.toNat_natCast]
  have hsize := pa.schema.size_lt
  have hroom : pa.schema.size * n < 9223372036854775808 :=
    Nat.lt_of_le_of_lt (Nat.mul_le_mul_left _ (show n ≤ 2147483648 by omega)) (by omega)
  obtain ⟨q, hq, hqs, -, -, hqd⟩ := pcPatchUncompressedMake_ok hroom
  obtain ⟨src, hread, hsrc, hrecords⟩ : ∃ src, readAt u.data.content
      (pa.schema.size * (i : Int)) (pa.schema.size * n) = .ok src ∧
      src.length = pa.schema.size * n ∧
      records pa.schema.size n src = ((pa.unpacked pts).drop i).take n := by
    have hend : pa.schema.size * i + pa.schema.size * n ≤ u.data.content.length := by
      have hub := hu.holds.room
      rw [hu.npoints_eq, hu.schema_eq, Nat.mul_comm] at hub
      rw [← Nat.mul_add]
      exact Nat.le_trans (Nat.mul_le_mul_left _ hinside.1) hub
    have hrecs := hu.holds.records_eq
    rw [hu.schema_eq, hu.npoints_eq] at hrecs
    refine ⟨(u.data.content.drop (pa.schema.size * i)).take (pa.schema.size * n),
      by exact_mod_cast readAt_ok hend, ?_, ?_⟩
    · rw [List.length_take, List.length_drop]
      omega
    · rw [← hrecs, ← records_slice (w := pa.schema.size) u.data.content hinside.1,
        Nat.mul_comm i, Nat.mul_comm n]
  have hholds : PcPatchUncompressed.Holds { q with npoints := n, data := bufOf src }
      (((pa.unpacked pts).drop i).take n) := by
    refine ⟨by simp only; omega, ?_, ?_⟩
    · rw [content_bufOf, hsrc, hqs, Nat.mul_comm]
    · simpa only [content_bufOf, hqs] using hrecords
  rw [← hqs] at hxdim hydim hx hy
  have hextent := computeExtent_computeStats_ok P hholds (show n ≤ 2147483648 by omega) hxdim hydim
    hx hy
  refine ⟨PcPatchUncompressed.summarized P { q with npoints := n, data := bufOf src } xdim ydim
    (((pa.unpacked pts).drop i).take n), ?_, ?_, hqs⟩
  · have hstart : int32 ((i : Int) + 1 - 1) = i := by unfold int32; omega
    have hmax : int32 ((pa.npoints : Int) - i) = pa.npoints - i := by unfold int32; omega
    unfold pcPatchRange
    simp only [hstart, hmax, hn, Int.toNat_natCast]
    rw [if_neg (by omega), if_neg (by omega), hq, ok_bind, hu.uncompress_ok, ok_bind,
      hread, ok_bind,
      emit_ok (by rw [hsrc, hqd, length_zeros, List.length_nil, Nat.zero_add]), ok_bind,
      List.nil_append, List.drop_eq_nil_of_le (by rw [hqd, length_zeros, hsrc]), List.append_nil,
      ← bind_assoc, hextent, ok_bind]
    rfl
  · rw [hslice]
    exact ⟨hholds.npoints_lt, hholds.room, hholds.records_eq⟩

/-- A range is null where there is nothing in the slice, and has the points of the
slice otherwise. -/
def RangeExact (P : Platform) (pa : PcPatch) (pts : List Bytes) (first count : Int) : Prop :=
  if first < 1 ∨ count ≤ 0 ∨ (pts.length : Int) < first then
    pcPatchRange P pa first count = .ok none
  else ∃ q, pcPatchRange P pa first count = .ok (some q) ∧ q.Holds P (sliceOf pts first count)

/-- In a part of a dimensional patch, the values at the wrapped offsets are those of
the points. -/
def RangeRecovered (pa : PcPatch) (pts : List Bytes) (first count : Int) : Prop :=
  match pa with
  | .dimensional d =>
      1 ≤ first → (1 < first ∨ count < pts.length) →
        ∀ dim ∈ d.schema.dims, ∀ (i : Nat) (hi : i < pts.length),
          first ≤ i + 1 → (i : Int) + 1 < first + count →
            dim.bytesIn (pts.getD (wrapIndex dim.size i) []) = dim.bytesIn pts[i]
  | _ => True

/-- So it is in every part where it is in the whole patch. -/
theorem rangeRecovered_of_recovered {pa : PcPatch} {pts : List Bytes}
    (hlt : pts.length < 2147483648) (h : pa.Recovered pts) (first count : Int) :
    RangeRecovered pa pts first count := by
  cases pa with
  | dimensional d =>
      have hvalues : RecordsRecovered d.schema pts := h
      rw [RecordsRecovered, if_pos hlt] at hvalues
      intro _ _ dim hd i hi _ _
      exact hvalues dim hd i hi
  | _ => trivial

/-- The slices of the records are those of the points. -/
theorem sliceOf_unpacked_eq_iff {pa : PcPatch} {pts : List Bytes} (h : pa.Holds P pts)
    (hlt : pa.npoints < 2147483648) {i : Nat} {count : Int}
    (hpart : ¬ (i = 0 ∧ (pa.npoints : Int) ≤ count)) :
    sliceOf (pa.unpacked pts) (i + 1) count = sliceOf pts (i + 1) count ↔
      RangeRecovered pa pts (i + 1) count := by
  cases pa with
  | lazperf l => exact h.elim
  | uncompressed p => exact iff_of_true rfl trivial
  | dimensional d =>
      have hd : d.Holds P pts := h
      have hlen : pts.length = d.npoints := hd.npoints_eq
      have hnpoints : (PcPatch.dimensional d).npoints = d.npoints := rfl
      have hunpacked : (PcPatch.dimensional d).unpacked pts = recordsOf d.schema pts :=
        if_pos (by omega)
      rw [hunpacked, sliceOf_eq_iff (length_recordsOf d.schema pts)]
      constructor
      · intro hsame _ _ dim hdim j hj hfirst hcount
        have hrecord := hsame j (by rwa [length_recordsOf]) hj (by omega) (by omega)
        exact (recordAt_eq_iff hd.width_eq hj).mp (by simpa [recordsOf] using hrecord) dim hdim
      · intro hvalues j _ hj hij hcount
        have hrecord := (recordAt_eq_iff hd.width_eq hj).mpr fun dim hdim =>
          hvalues (by omega) (by omega) dim hdim j hj (by omega) (by omega)
        simpa [recordsOf] using hrecord

/-- A range is exact where the values it needs are recovered. -/
theorem rangeExact_iff {pa : PcPatch} {pts : List Bytes} (h : pa.Holds P pts)
    (hvalid : pa.schema.Valid) (hlt : pa.npoints < 2147483648) {first count : Int}
    (hlo : -2147483648 ≤ first) (hhi : first ≤ 2147483647) :
    RangeExact P pa pts first count ↔ RangeRecovered pa pts first count := by
  have hlen := h.length_eq
  unfold RangeExact
  split
  · next hnone =>
      refine iff_of_true (pcPatchRange_none hlt hlo hhi (by rwa [hlen] at hnone)) ?_
      cases pa with
      | dimensional d =>
          intro hpos _ dim _ i hi hfirst hcount
          omega
      | _ => trivial
  · next hsome =>
      obtain ⟨i, hi⟩ := Int.eq_ofNat_of_zero_le (show 0 ≤ first - 1 by omega)
      obtain rfl : first = i + 1 := by omega
      by_cases hpart : i = 0 ∧ (pa.npoints : Int) ≤ count
      · obtain ⟨rfl, hcount⟩ := hpart
        have hslice : sliceOf pts (((0 : Nat) : Int) + 1) count = pts := by
          rw [sliceOf, show (((0 : Nat) : Int) + 1 - 1).toNat = 0 from rfl, List.drop_zero,
            List.take_of_length_le (by omega)]
        refine iff_of_true ⟨pa, ?_, by rwa [hslice]⟩ ?_
        · exact pcPatchRange_whole hlt (by omega) hcount
        · cases pa with
          | dimensional d =>
              intro _ hproper
              omega
          | _ => trivial
      · obtain ⟨q, hq, hholds, -⟩ := pcPatchRange_part h hvalid hlt i count (by omega)
          (by omega) hpart
        rw [← sliceOf_unpacked_eq_iff h hlt hpart]
        constructor
        · rintro ⟨q', hq', hholds'⟩
          rw [hq, Except.ok.injEq, Option.some.injEq] at hq'
          rw [← hq'] at hholds'
          exact PcPatchUncompressed.Holds.unique hholds hholds'
        · intro hsame
          rw [← hsame]
          exact ⟨_, hq, hholds⟩

/-! ## Complementary ranges -/

/-- The union of the first `k` points and the others has the points of the patch. -/
def RangesRejoin (P : Platform) (pa : PcPatch) (pts : List Bytes) (k : Nat) : Prop :=
  ∃ pb pc q, pcPatchRange P pa 1 k = .ok (some pb) ∧
    pcPatchRange P pa (k + 1) (pa.npoints - k) = .ok (some pc) ∧
    pcPatchFromPatchlist P [pb, pc] = .ok q ∧ q.Holds pts

/-- Two ranges that complement one another are put together to the records. -/
theorem fromPatchlist_ranges {pa : PcPatch} {pts : List Bytes} (h : pa.Holds P pts)
    (hvalid : pa.schema.Valid) (hlt : pa.npoints < 2147483648) {k : Nat} (hk : 1 ≤ k)
    (hkn : k < pa.npoints) :
    ∃ pb pc q, pcPatchRange P pa 1 k = .ok (some pb) ∧
      pcPatchRange P pa (k + 1) (pa.npoints - k) = .ok (some pc) ∧
      pcPatchFromPatchlist P [pb, pc] = .ok q ∧ q.Holds (pa.unpacked pts) := by
  have hlen : (pa.unpacked pts).length = pa.npoints := by rw [length_unpacked, h.length_eq]
  obtain ⟨q₁, hq₁, hholds₁, hs₁⟩ := pcPatchRange_part h hvalid hlt 0 k
    (by omega) (by omega) (by omega)
  obtain ⟨q₂, hq₂, hholds₂, hs₂⟩ := pcPatchRange_part h hvalid hlt k
    ((pa.npoints : Int) - k) hkn (by omega) (by omega)
  -- the slices follow on each other
  have hjoin : q₁.points ++ q₂.points = pa.unpacked pts := by
    have hpoints₁ : q₁.points = _ := hholds₁.records_eq
    have hpoints₂ : q₂.points = _ := hholds₂.records_eq
    have hdrop : ((k : Int) + 1 - 1).toNat = k := by omega
    rw [hpoints₁, hpoints₂, sliceOf, sliceOf, show (((0 : Nat) : Int) + 1 - 1).toNat = 0 from rfl,
      List.drop_zero, Int.toNat_natCast, hdrop, List.take_of_length_le
      (show ((pa.unpacked pts).drop k).length ≤ _ by rw [List.length_drop]; omega)]
    exact List.take_append_drop k _
  have hus : List.Forall₂ (fun pa u => pcPatchUncompress P pa = .ok u ∧ u.Holds u.points)
      [.uncompressed q₁, .uncompressed q₂] [q₁, q₂] :=
    .cons ⟨rfl, by rw [show q₁.points = _ from hholds₁.records_eq]; exact hholds₁⟩
      (.cons ⟨rfl, by rw [show q₂.points = _ from hholds₂.records_eq]; exact hholds₂⟩ .nil)
  have hschema : ∀ pb ∈ [PcPatch.uncompressed q₁, .uncompressed q₂], pb.schema = q₁.schema := by
    simp [PcPatch.schema, hs₁, hs₂]
  have hsize := q₁.schema.size_lt
  have hroom : q₁.schema.size * (pa.unpacked pts).length < 9223372036854775808 :=
    Nat.lt_of_le_of_lt (Nat.mul_le_mul_left _ (show _ ≤ 2147483648 by omega)) (by omega)
  have hflat : ([q₁, q₂].map PcPatchUncompressed.points).flatten = pa.unpacked pts := by
    simpa using hjoin
  obtain ⟨q, hq, hholds, -⟩ := fromPatchlist_ok hus rfl hschema hflat (by omega) hroom
  exact ⟨_, _, q, hq₁, hq₂, hq, hholds⟩

theorem rangesRejoin_iff {pa : PcPatch} {pts : List Bytes} (h : pa.Holds P pts)
    (hvalid : pa.schema.Valid) (hlt : pa.npoints < 2147483648) {k : Nat} (hk : 1 ≤ k)
    (hkn : k < pa.npoints) : RangesRejoin P pa pts k ↔ pa.Recovered pts := by
  obtain ⟨pb, pc, q, hpb, hpc, hq, hholds⟩ := fromPatchlist_ranges h hvalid hlt hk hkn
  rw [← h.unpacked_eq_iff]
  constructor
  · rintro ⟨pb', pc', q', hpb', hpc', hq', hholds'⟩
    rw [hpb, Except.ok.injEq, Option.some.injEq] at hpb'
    rw [hpc, Except.ok.injEq, Option.some.injEq] at hpc'
    rw [← hpb', ← hpc', hq, Except.ok.injEq] at hq'
    rw [← hq'] at hholds'
    exact hholds.unique hholds'
  · intro hsame
    rw [hsame] at hholds
    exact ⟨pb, pc, q, hpb, hpc, hq, hholds⟩

/-! ## Exactness -/

/-- Every range is exact, and every union of two that complement one another, where
the values at the wrapped offsets that it needs are those of the points. -/
theorem pcPatchRange_exact_iff {pa : PcPatch} {pts : List Bytes} (h : pa.Holds P pts)
    (hvalid : pa.schema.Valid) (hlt : pa.npoints < 2147483648) :
    (∀ first count : Int, -2147483648 ≤ first → first ≤ 2147483647 → -2147483648 ≤ count →
      count ≤ 2147483647 →
      (RangeExact P pa pts first count ↔ RangeRecovered pa pts first count)) ∧
    ∀ k : Nat, 1 ≤ k → k < pa.npoints → (RangesRejoin P pa pts k ↔ pa.Recovered pts) :=
  ⟨fun _ _ hlo hhi _ _ => rangeExact_iff h hvalid hlt hlo hhi,
    fun _ hk hkn => rangesRejoin_iff h hvalid hlt hk hkn⟩

/-- Two points in dimensions, with the numbers at the limits of `int`. -/
theorem pcPatchRange_exact_iff_witness :
    let pa := PcPatch.dimensional (dimensionsOfRecords yxSchema [[1, 5], [2, 6]])
    RangeExact Platform.plain pa [[1, 5], [2, 6]] 2 2147483647 ∧
      RangeExact Platform.plain pa [[1, 5], [2, 6]] (-2147483648) 2147483647 ∧
      RangesRejoin Platform.plain pa [[1, 5], [2, 6]] 1 := by
  intro pa
  have hholds : pa.Holds Platform.plain [[1, 5], [2, 6]] :=
    dimensionsOfRecords_holds (by decide) (by decide)
  have hrecovered : pa.Recovered [[1, 5], [2, 6]] := by
    refine (unpackedRecords_eq_iff (by decide)).mp ?_
    exact Fits.unpackedRecords_eq ⟨by decide, by decide⟩ (by decide)
  have hparts := rangeRecovered_of_recovered (by decide) hrecovered
  obtain ⟨hexact, hrejoin⟩ := pcPatchRange_exact_iff hholds ⟨rfl, rfl⟩ (by decide)
  exact ⟨(hexact _ _ (by decide) (by decide) (by decide) (by decide)).mpr (hparts _ _),
    (hexact _ _ (by decide) (by decide) (by decide) (by decide)).mpr (hparts _ _),
    (hrejoin 1 (by decide) (by decide)).mpr hrecovered⟩

/-- Points with an x of 64 bits, of which the last one differs. -/
def lastDiffers (n : Nat) : List Bytes :=
  List.replicate n (zeros 9) ++ [[1, 0, 0, 0, 0, 0, 0, 0, 0]]

/-- Where the offset of the last x wraps around to the first one, that one is found. -/
theorem lastDiffers_not_exact {n : Nat} (hpos : 1 ≤ n) (hlt : n < 2147483647)
    (hwrap : wrapIndex 8 n = 0) :
    let s := xySchema .uint64 .uint8 (by decide) uint8_known 1 .dimensional
    (dimensionsOfRecords s (lastDiffers n)).Holds P (lastDiffers n) ∧
      ¬ RangeExact P (.dimensional (dimensionsOfRecords s (lastDiffers n))) (lastDiffers n)
        (n + 1) 1 := by
  intro s
  have hwidth : ∀ pt ∈ lastDiffers n, pt.length = s.size := by
    intro pt hpt
    rcases List.mem_append.mp hpt with hpt | hpt
    · rw [List.eq_of_mem_replicate hpt]
      rfl
    · rw [List.mem_singleton.mp hpt]
      rfl
  have hlen : (lastDiffers n).length = n + 1 := by simp [lastDiffers]
  have hheld : (dimensionsOfRecords s (lastDiffers n)).Holds P (lastDiffers n) :=
    dimensionsOfRecords_holds hwidth (by omega)
  have hnpoints : (PcPatch.dimensional (dimensionsOfRecords s (lastDiffers n))).npoints =
    (lastDiffers n).length := rfl
  refine ⟨hheld, fun hexact => ?_⟩
  have hpatch : PcPatch.Holds P (.dimensional (dimensionsOfRecords s (lastDiffers n)))
    (lastDiffers n) := hheld
  have hvalues := (rangeExact_iff hpatch ⟨rfl, rfl⟩ (by omega) (by omega) (by omega)).mp hexact
    (by omega) (.inl (by omega)) ⟨some "X", 0, 8, 0, .uint64, 1, 0⟩ List.mem_cons_self n (by omega)
    (by omega) (by omega)
  have hfirst : (lastDiffers n).getD 0 [] = zeros 9 := by
    obtain ⟨m, rfl⟩ := Nat.exists_eq_add_of_le' hpos
    rfl
  simp only [hwrap, hfirst] at hvalues
  simp [lastDiffers] at hvalues
  exact absurd hvalues (by decide)

/-- Of `2 ^ 29` equal points and another one, the range of the last point has the x of
the others. -/
theorem pcPatchRange_wrong_point :
    let s := xySchema .uint64 .uint8 (by decide) uint8_known 1 .dimensional
    (dimensionsOfRecords s (lastDiffers 536870912)).Holds Platform.plain (lastDiffers 536870912) ∧
      ¬ RangeExact Platform.plain (.dimensional (dimensionsOfRecords s (lastDiffers 536870912)))
        (lastDiffers 536870912) 536870913 1 :=
  lastDiffers_not_exact (n := 536870912) (by decide) (by decide) (by decide)

end Pointcloud
