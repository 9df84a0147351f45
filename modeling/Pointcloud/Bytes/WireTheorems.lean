/-
Pointcloud.Bytes.WireTheorems — a segment read back, and the extremes of an
array.

`segment` is the serialized form of an array; writing it and reading it back
gives the array with its stored bytes (`pcBytesDeserialize_segment`), as long
as the segment is shorter than `2 ^ 31` bytes. `pc_bytes_minmax` returns on
every array that holds values, except where the offset of a value overflows
an `int` (`pcBytesMinmax_isOk_iff`).
-/
import Pointcloud.Bytes.ReencodeTheorems
import Pointcloud.Bytes.Wire

namespace Pointcloud

open Pointcloud.Base

variable {P : Platform}

/-! ## Numbers in WKB -/

/-- The number at an offset of the head. -/
def headField (en : Endian) (off : Nat) (wkb : Bytes) : Nat :=
  let bytes := (wkb.drop off).take 4
  en.natOf (if wkb.take 1 != [machineEndian en] then bytes.reverse else bytes)

/-- The byte order is read from the first byte. -/
theorem wkbIsSwapped_ok (en : Endian) {wkb : Bytes} (h : 1 ≤ wkb.length) :
    wkbIsSwapped en wkb = .ok (wkb.take 1 != [machineEndian en]) := by
  have hread : readAt wkb 0 1 = .ok (wkb.take 1) := by
    have hat : readAt wkb ((0 : Nat) : Int) 1 = _ := readAt_ok (by omega)
    rwa [List.drop_zero] at hat
  rw [wkbIsSwapped, hread, ok_bind, pure_eq_ok]

/-- A field of the head is read where it is there. -/
theorem wkbGetField_eq (en : Endian) (off : Nat) (wkb : Bytes) :
    wkbGetField en off wkb =
      if off + 4 ≤ wkb.length then .ok (headField en off wkb) else fault := by
  unfold wkbGetField
  split
  · next hroom =>
      rw [wkbIsSwapped_ok en (by omega), ok_bind, wkbGetInt32, readAt_ok hroom, ok_bind, pure_eq_ok]
      rfl
  · next hroom =>
      by_cases hpos : 1 ≤ wkb.length
      · rw [wkbIsSwapped_ok en hpos, ok_bind, wkbGetInt32,
          readAt_fault (by decide) (.inr (by omega)), fault_bind]
      · rw [wkbIsSwapped, readAt_fault (by decide) (.inr (by omega)), fault_bind, fault_bind]

/-! ## Segments -/

/-- The serialized form of an array. -/
def segment (en : Endian) (pcb : PcBytes) : Bytes :=
  BitVec.ofNat 8 pcb.compression.code :: en.bytesOf 4 pcb.size ++ pcb.data

/-- What is read back from a segment. -/
def PcBytes.reread (pcb : PcBytes) (dim : PcDimension) (readonly : Bool) : PcBytes where
  size := pcb.size
  npoints := 0
  interpretation := dim.interpretation
  compression := pcb.compression
  readonly := readonly
  bytes := pcb.data

theorem length_data {pcb : PcBytes} (h : pcb.size ≤ pcb.bytes.length) :
    pcb.data.length = pcb.size := by
  rw [PcBytes.data, List.length_take, Nat.min_eq_left h]

theorem length_segment (en : Endian) {pcb : PcBytes} (h : pcb.size ≤ pcb.bytes.length) :
    (segment en pcb).length = pcBytesSerializedSize pcb := by
  rw [segment, pcBytesSerializedSize, List.length_append, List.length_cons,
    Endian.length_bytesOf, length_data h, Nat.add_comm 4]

theorem int32_segment {n : Nat} (h : 1 + 4 + n < 2147483648) :
    int32 (1 + 4 + int32 n) = ((1 + 4 + n : Nat) : Int) := by
  rw [int32_natCast (by omega), int32_of_range (by omega) (by omega)]
  rfl

/-- A segment is written behind what stands in front of it. -/
theorem pcBytesSerialize_ok (en : Endian) {pcb : PcBytes} (h : pcb.size ≤ pcb.bytes.length)
    (hlt : pcBytesSerializedSize pcb < 2147483648) {front block : Bytes}
    (hroom : pcBytesSerializedSize pcb ≤ block.length) :
    pcBytesSerialize en pcb (front ++ block) front.length =
      .ok (front ++ segment en pcb ++ block.drop (pcBytesSerializedSize pcb),
        (pcBytesSerializedSize pcb : Nat)) := by
  unfold pcBytesSerializedSize at hlt hroom ⊢
  have hread : readAt pcb.bytes 0 pcb.size = .ok pcb.data := by
    rw [← Int.natCast_zero, readAt_ok (by omega), List.drop_zero, PcBytes.data]
  have hlen := length_data h
  have hcode : writeAt (front ++ block) front.length [BitVec.ofNat 8 pcb.compression.code] =
      .ok (front ++ [BitVec.ofNat 8 pcb.compression.code] ++ block.drop 1) :=
    writeAt_append rfl (by simp only [List.length_singleton]; omega)
  have hsize : writeAt (front ++ [BitVec.ofNat 8 pcb.compression.code] ++ block.drop 1)
      (front.length + 1) (en.bytesOf 4 pcb.size) = .ok _ :=
    writeAt_append (by simp) (by rw [Endian.length_bytesOf, List.length_drop]; omega)
  have hdata : writeAt (front ++ [BitVec.ofNat 8 pcb.compression.code] ++ en.bytesOf 4 pcb.size ++
      (block.drop 1).drop 4) (front.length + 5) pcb.data = .ok _ :=
    writeAt_append
      (by simp only [List.length_append, List.length_singleton, Endian.length_bytesOf]; omega)
      (by rw [List.length_drop, List.length_drop, hlen]; omega)
  rw [Endian.length_bytesOf] at hsize
  unfold pcBytesSerialize
  rw [hcode, ok_bind, hsize, ok_bind, hread, ok_bind, hdata, ok_bind, pure_eq_ok,
    int32_segment hlt, hlen, List.drop_drop, List.drop_drop, segment, ← Nat.add_assoc]
  simp

/-- A number of the wire is read back. -/
theorem wkbGetInt32_ok (en : Endian) {n : Nat} (h : n < 4294967296) {front rest : Bytes} {off : Nat}
    (hoff : off = front.length) :
    wkbGetInt32 en (front ++ en.bytesOf 4 n ++ rest) off false = .ok n := by
  rw [wkbGetInt32, readAt_append (by rw [hoff]) (Endian.length_bytesOf _ _ _).symm, ok_bind]
  simp only [Bool.false_eq_true, if_false, pure_eq_ok]
  rw [Endian.natOf_bytesOf_of_lt en h]

theorem sizeT_natCast {n : Nat} (h : n < 18446744073709551616) : sizeT (n : Int) = n := by
  unfold sizeT
  omega

/-- The numbers of the encodings that arrays are stored in. -/
theorem ofCode_code {c : DimCompression} (h : ∀ code, c ≠ .unknown code) (en : Endian) :
    DimCompression.ofCode (en.natOf [BitVec.ofNat 8 c.code]) = c := by
  cases c with
  | none => cases en <;> rfl
  | rle => cases en <;> rfl
  | sigbits => cases en <;> rfl
  | zlib => cases en <;> rfl
  | unknown code => exact absurd rfl (h code)

/-- A segment is read back as it was written. -/
theorem pcBytesDeserialize_segment (en : Endian) {pcb : PcBytes}
    (h : pcb.size ≤ pcb.bytes.length) (hlt : pcBytesSerializedSize pcb < 2147483648)
    (hc : ∀ code, pcb.compression ≠ .unknown code) {front rest : Bytes} {off : Nat}
    (hoff : off = front.length) (dim : PcDimension) (readonly : Bool) :
    pcBytesDeserialize en (front ++ segment en pcb ++ rest) off dim readonly false =
      .ok (pcb.reread dim readonly) := by
  unfold pcBytesSerializedSize at hlt
  have hcode : readAt (front ++ [BitVec.ofNat 8 pcb.compression.code] ++
      (en.bytesOf 4 pcb.size ++ pcb.data ++ rest)) off 1 = .ok _ :=
    readAt_append (by rw [hoff]) rfl
  have hsize : wkbGetInt32 en (front ++ [BitVec.ofNat 8 pcb.compression.code] ++
      en.bytesOf 4 pcb.size ++ (pcb.data ++ rest)) (off + 1) false = .ok pcb.size :=
    wkbGetInt32_ok en (by omega) (by simp [hoff])
  have hdata : readAt (front ++ [BitVec.ofNat 8 pcb.compression.code] ++ en.bytesOf 4 pcb.size ++
      pcb.data ++ rest) (off + 5 : Nat) pcb.size = .ok pcb.data :=
    readAt_append (by simp [hoff]) (length_data h).symm
  have hsplit : front ++ segment en pcb ++ rest = front ++ [BitVec.ofNat 8 pcb.compression.code] ++
      en.bytesOf 4 pcb.size ++ pcb.data ++ rest := by
    simp [segment]
  rw [← List.append_assoc, ← List.append_assoc, ← hsplit] at hcode
  rw [← List.append_assoc, ← hsplit] at hsize
  rw [← hsplit] at hdata
  unfold pcBytesDeserialize
  rw [hcode, ok_bind, hsize, ok_bind]
  simp only [int32_natCast (show pcb.size < 2147483648 by omega),
    sizeT_natCast (show pcb.size < 18446744073709551616 by omega), Bool.and_false,
    Bool.false_eq_true, if_false, ofCode_code hc en]
  cases readonly with
  | true =>
      simp only [if_true, hdata, ok_bind, pure_eq_ok]
      rfl
  | false =>
      simp only [Bool.false_eq_true, if_false, hdata, ok_bind, pure_eq_ok,
        pcalloc_ok (show pcb.size < 9223372036854775808 by omega)]
      rfl

/-- The array without the bytes behind its data. -/
def PcBytes.trimmed (pcb : PcBytes) (readonly : Bool) : PcBytes :=
  { pcb with bytes := pcb.data, readonly := readonly }

/-- It holds the same values. -/
theorem Stores.trimmed {e : PcBytes} {vs : List Bytes} (h : Stores P e vs) (readonly : Bool) :
    Stores P (e.trimmed readonly) vs := by
  have hsize := h.size_le
  have hall : e.bytes.length = e.size → e.data = e.bytes := by
    intro hlen
    rw [PcBytes.data, ← hlen, List.take_length]
  refine ⟨h.known, h.npoints_eq, h.width_eq, ?_⟩
  unfold PcBytes.trimmed
  cases hc : e.compression with
  | none =>
      obtain ⟨hplain, hvalues⟩ := h.plainOf hc
      refine ⟨⟨h.known, rfl, hplain.size_eq, Nat.le_of_eq (length_data hsize).symm⟩, ?_⟩
      rw [← hvalues]
      exact records_take _ _ _ _ (Nat.le_of_eq hplain.size_eq.symm)
  | rle =>
      obtain ⟨rs, hof, hvs⟩ := h.rleOf hc
      refine ⟨rs, ⟨hof.known, rfl, hof.count_range, hof.width_eq, hof.npoints_eq,
        Nat.le_of_eq (length_data hsize).symm, ?_⟩, hvs⟩
      rw [← hof.data_eq]
      simp only [PcBytes.data, List.take_take, Nat.min_self]
  | sigbits =>
      have hof := h.sigbitsOf hc
      refine ⟨hof.known, rfl, hof.int_le, hof.npoints_eq, hof.width_eq, length_data hsize, ?_⟩
      simp only [hall hof.size_eq]
      exact hof.packed
  | zlib =>
      have hof := h.zlibOf hc
      refine ⟨hof.pos, length_data hsize, hof.size_lt, hof.room, ?_⟩
      simp only [hall hof.size_eq]
      exact hof.inflate_eq
  | unknown code => exact absurd hc (h.compression_ne code)

/-- With its number of points, what is read back is the array without the bytes
behind its data. -/
theorem reread_eq {e : PcBytes} {dim : PcDimension}
    (hinterp : e.interpretation = dim.interpretation)
    (readonly : Bool) :
    { e.reread dim readonly with npoints := e.npoints } = e.trimmed readonly := by
  rw [PcBytes.reread, PcBytes.trimmed, hinterp]

/-! ## Minimum and maximum -/

/-- The offset of a value, a product of two `int`s. -/
theorem int32_offset {n i w : Nat} (hle : n * w ≤ 2147483648) (hi : i < n) (hw : 0 < w) :
    int32 (i * w : Nat) = (i * w : Nat) := by
  have := Nat.mul_le_mul_right w (Nat.succ_le_of_lt hi)
  rw [Nat.succ_mul] at this
  exact int32_natCast (by omega)

/-- The first offset that does not fit into an `int` points in front of the array. -/
theorem int32_offset_neg {w : Nat} (hw : WordWidth w) :
    int32 (2147483648 / w * w : Nat) = -2147483648 := by
  rcases hw with rfl | rfl | rfl | rfl <;> rfl

/-- The extremes of plain values are found where the values are in the block,
and the offsets of all of them are `int`s. -/
theorem pcBytesUncompressedMinmax_isOk_iff (en : Endian) {pcb : PcBytes}
    (hknown : pcb.interpretation ≠ .unknown) :
    (∃ m, pcBytesUncompressedMinmax en pcb = .ok m) ↔
      pcb.npoints * pcb.width ≤ 2147483648 ∧ pcb.npoints * pcb.width ≤ pcb.bytes.length := by
  have hw := wordWidth_of_known hknown
  have hrun : (∃ m, pcBytesUncompressedMinmax en pcb = .ok m) ↔
      ∀ i < pcb.npoints, ∃ d, pcDoubleFromPtr en pcb.bytes (int32 (i * pcb.width : Nat))
        pcb.interpretation = .ok d := by
    have hmap := mapM_isOk_iff (f := fun i : Nat => pcDoubleFromPtr en pcb.bytes
      (int32 (i * pcb.width : Nat)) pcb.interpretation) (l := List.range pcb.npoints)
    simp only [List.mem_range] at hmap
    rw [← hmap, pcBytesUncompressedMinmax]
    constructor
    · rintro ⟨m, hm⟩
      obtain ⟨bs, hbs, -⟩ := bind_eq_ok.mp hm
      exact ⟨bs, hbs⟩
    · rintro ⟨bs, hbs⟩
      exact ⟨_, by rw [hbs, ok_bind, pure_eq_ok]⟩
  rw [hrun]
  constructor
  · intro h
    have hint : pcb.npoints * pcb.width ≤ 2147483648 := by
      by_contra hlarge
      have hi : 2147483648 / pcb.width < pcb.npoints := by
        rw [Nat.div_lt_iff_lt_mul hw.pos]
        omega
      obtain ⟨d, hd⟩ := h _ hi
      rw [int32_offset_neg hw, pcDoubleFromPtr, if_neg hknown,
        readAt_fault (Nat.ne_of_gt (Interpretation.size_pos _)) (Or.inl (by decide))] at hd
      exact fault_ne_ok d hd
    refine ⟨hint, ?_⟩
    by_contra hshort
    have hpos : 0 < pcb.npoints := by
      by_contra h0
      rw [Nat.eq_zero_of_not_pos h0] at hshort
      omega
    have hlast : (pcb.npoints - 1) * pcb.width + pcb.width = pcb.npoints * pcb.width := by
      rw [← Nat.succ_mul, Nat.succ_eq_add_one, Nat.sub_add_cancel hpos]
    obtain ⟨d, hd⟩ := h (pcb.npoints - 1) (by omega)
    rw [int32_offset hint (by omega) hw.pos, pcDoubleFromPtr, if_neg hknown] at hd
    rw [readAt_fault (Nat.ne_of_gt (Interpretation.size_pos _)) (Or.inr ?_)] at hd
    · exact fault_ne_ok d hd
    · change (pcb.bytes.length : Int) < _ + (pcb.width : Int)
      omega
  · rintro ⟨hint, hroom⟩ i hi
    have hend : i * pcb.width + pcb.interpretation.size ≤ pcb.bytes.length := by
      have := Nat.mul_le_mul_right pcb.width (Nat.succ_le_of_lt hi)
      rw [Nat.succ_mul] at this
      exact Nat.le_trans this hroom
    rw [int32_offset hint hi hw.pos]
    exact ⟨_, pcDoubleFromPtr_ok hknown hend⟩

/-! ### The numbers of the values -/

/-- The numbers that values stand for. -/
def PcBytes.numbersOf (en : Endian) (pcb : PcBytes) (vs : List Bytes) : List ℚ :=
  vs.map (pcb.interpretation.number en)

/-- Reading the value of every index. -/
theorem mapM_number_ok (en : Endian) {pcb : PcBytes} (hknown : pcb.interpretation ≠ .unknown)
    (hroom : pcb.npoints * pcb.width ≤ pcb.bytes.length) :
    ((List.range pcb.npoints).mapM fun i : Nat =>
      pcDoubleFromPtr en pcb.bytes (i * pcb.width : Nat) pcb.interpretation) =
        .ok (pcb.numbersOf en pcb.values) := by
  have hvalues : pcb.numbersOf en pcb.values = (List.range pcb.npoints).map fun i =>
      pcb.interpretation.number en ((pcb.bytes.drop (i * pcb.width)).take pcb.width) := by
    rw [PcBytes.numbersOf, PcBytes.values, records_eq_map, List.map_map]
    rfl
  rw [hvalues]
  refine mapM_eq_ok_map fun i hi => pcDoubleFromPtr_ok hknown ?_
  have := Nat.mul_le_mul_right pcb.width (Nat.succ_le_of_lt (List.mem_range.mp hi))
  rw [Nat.succ_mul] at this
  exact Nat.le_trans this hroom

/-- The extremes and the average of plain values. -/
theorem pcBytesUncompressedMinmax_ok (en : Endian) {pcb : PcBytes}
    (hknown : pcb.interpretation ≠ .unknown) (hroom : pcb.npoints * pcb.width ≤ pcb.bytes.length)
    (hint : pcb.npoints * pcb.width ≤ 2147483648) :
    pcBytesUncompressedMinmax en pcb =
      .ok (((pcb.numbersOf en pcb.values).foldl (fun m d => m.add 1 d) MinMax.start).report
        pcb.npoints) := by
  have hoff : ((List.range pcb.npoints).mapM fun i : Nat =>
      pcDoubleFromPtr en pcb.bytes (int32 (i * pcb.width : Nat)) pcb.interpretation) =
        .ok (pcb.numbersOf en pcb.values) := by
    rw [← mapM_number_ok en hknown hroom]
    refine mapM_congr fun i hi => ?_
    rw [int32_offset hint (List.mem_range.mp hi) pcb.width_pos]
  rw [pcBytesUncompressedMinmax, hoff, ok_bind, pure_eq_ok]

/-- A number that stands for several values is taken in like the values. -/
theorem foldl_add_replicate (m : MinMax) (d : ℚ) : ∀ (count : Nat), 1 ≤ count →
    (List.replicate count d).foldl (fun m d => m.add 1 d) m = m.add count d
  | 0, h => absurd h (by decide)
  | 1, _ => rfl
  | count + 2, _ => by
      have ih := foldl_add_replicate (m.add 1 d) d (count + 1) (by omega)
      rw [List.replicate_succ, List.foldl_cons, ih]
      simp only [MinMax.add]
      congr 1
      · by_cases h : d < m.mn <;> simp [h]
      · by_cases h : m.mx < d <;> simp [h]
      · push_cast
        ring

/-- Runs are taken in like the values they stand for. -/
theorem foldl_add_runs : ∀ {rs : List (Nat × ℚ)} (m : MinMax), (∀ r ∈ rs, 1 ≤ r.1) →
    rs.foldl (fun m r => m.add r.1 r.2) m = (expand rs).foldl (fun m d => m.add 1 d) m
  | [], _, _ => rfl
  | r :: rs, m, h => by
      rw [List.foldl_cons, expand_cons, List.foldl_append,
        foldl_add_replicate m r.2 r.1 (h r (by simp)),
        foldl_add_runs _ fun s hs => h s (by simp [hs])]

/-- The value of an entry is read behind its count. -/
theorem pcDoubleFromPtr_rleEntry (en : Endian) {i : Interpretation} (h : i ≠ .unknown) (count : Nat)
    {value : Bytes} (hw : value.length = i.size) :
    pcDoubleFromPtr en (rleEntry count value) 1 i = .ok (i.number en value) := by
  have hread : pcDoubleFromPtr en (rleEntry count value) (1 : Nat) i = .ok _ :=
    pcDoubleFromPtr_ok h (by rw [length_rleEntry, hw, Nat.add_comm])
  rw [Nat.cast_one] at hread
  rw [hread, rleEntry, List.drop_succ_cons, List.drop_zero, ← hw, List.take_length]

/-- The extremes and the average of run-length encoded values. -/
theorem pcBytesRunLengthMinmax_eq (en : Endian) {e : PcBytes} {rs : List (Nat × Bytes)}
    (h : RleOf e rs) :
    pcBytesRunLengthMinmax en e =
      .ok (((e.numbersOf en (expand rs)).foldl (fun m d => m.add 1 d) MinMax.start).report
        e.npoints) := by
  have hruns : (rleEntries e).mapM (fun entry => do
      let count ← entryCount entry
      let d ← pcDoubleFromPtr en entry 1 e.interpretation
      return (count, d)) = .ok (rs.map fun r => (r.1, e.interpretation.number en r.2)) := by
    rw [h.rleEntries_eq, List.mapM_map]
    refine mapM_eq_ok_map fun r hr => ?_
    rw [Function.comp_apply, entryCount_rleEntry (h.count_range r hr).2, ok_bind,
      pcDoubleFromPtr_rleEntry en h.known r.1 (h.width_eq r hr), ok_bind, pure_eq_ok]
  have hcounts : ∀ r ∈ rs.map fun r => (r.1, e.interpretation.number en r.2), 1 ≤ r.1 := by
    intro r hr
    obtain ⟨r', hr', rfl⟩ := List.mem_map.mp hr
    exact (h.count_range r' hr').1
  rw [pcBytesRunLengthMinmax, hruns, ok_bind, pure_eq_ok, foldl_add_runs _ hcounts, expand_map,
    PcBytes.numbersOf]

/-- The extremes of an array that holds values are found, unless they are
searched in plain values whose offsets are not all `int`s. -/
theorem pcBytesMinmax_isOk_iff {e : PcBytes} {vs : List Bytes} (h : Stores P e vs) :
    (∃ m, pcBytesMinmax P e = .ok m) ↔
      (e.compression ≠ .rle → e.npoints * e.width ≤ 2147483648) := by
  have hlen := h.length_flatten
  have hdecoded : (∃ m, pcBytesUncompressedMinmax P.endian { e with
      size := e.width * e.npoints, bytes := vs.flatten, compression := .none,
      readonly := false } = .ok m) ↔ e.npoints * e.width ≤ 2147483648 := by
    rw [pcBytesUncompressedMinmax_isOk_iff _ (by exact h.known)]
    simp only [hlen, PcBytes.width]
    exact and_iff_left (Nat.le_refl _)
  unfold pcBytesMinmax
  cases hc : e.compression with
  | none =>
      have hroom := (h.plainOf hc).plain.room
      simpa [hroom] using pcBytesUncompressedMinmax_isOk_iff P.endian h.known
  | rle =>
      obtain ⟨rs, hof, -⟩ := h.rleOf hc
      simpa using ⟨_, pcBytesRunLengthMinmax_eq P.endian hof⟩
  | sigbits =>
      simp only [pcBytesSigbitsMinmax, pcBytesSigbitsDecode_ok P.shift_ne_trap (h.sigbitsOf hc)]
      rw [ok_bind, hdecoded]
      simp
  | zlib =>
      simp only [pcBytesZlibMinmax, pcBytesZlibDecode_ok (h.zlibOf hc)]
      rw [ok_bind, hdecoded]
      simp
  | unknown code => exact absurd hc (h.compression_ne code)

/-- Taking in numbers is a minimum, a maximum and a sum. -/
theorem foldl_minMax_eq : ∀ (ds : List ℚ) (m : MinMax),
    ds.foldl (fun m d => m.add 1 d) m = ⟨ds.foldl min m.mn, ds.foldl max m.mx, m.sm + ds.sum⟩
  | [], m => by simp
  | d :: ds, m => by
      have hmin : (if d < m.mn then d else m.mn) = min m.mn d := by rw [min_comm, min_def_lt]
      have hmax : (if m.mx < d then d else m.mx) = max m.mx d := by rw [max_def_lt]
      have hadd : m.add 1 d = ⟨min m.mn d, max m.mx d, m.sm + d⟩ := by
        rw [MinMax.add, hmin, hmax, Nat.cast_one, one_mul]
      rw [List.foldl_cons, foldl_minMax_eq ds, hadd, List.foldl_cons, List.foldl_cons,
        List.sum_cons, add_assoc]

/-- The extremes of numbers that stand for several values each. -/
theorem foldl_add_extremes : ∀ (rs : List (Nat × ℚ)) (m : MinMax),
    (rs.foldl (fun m r => m.add r.1 r.2) m).mn = (rs.map Prod.snd).foldl min m.mn ∧
      (rs.foldl (fun m r => m.add r.1 r.2) m).mx = (rs.map Prod.snd).foldl max m.mx
  | [], m => ⟨rfl, rfl⟩
  | r :: rs, m => by
      have hmin : (if r.2 < m.mn then r.2 else m.mn) = min m.mn r.2 := by
        rw [min_comm, min_def_lt]
      have hmax : (if m.mx < r.2 then r.2 else m.mx) = max m.mx r.2 := by
        rw [max_def_lt]
      obtain ⟨hmn, hmx⟩ := foldl_add_extremes rs (m.add r.1 r.2)
      rw [List.foldl_cons, hmn, hmx, List.map_cons, List.foldl_cons, List.foldl_cons, MinMax.add,
        hmin, hmax]
      exact ⟨rfl, rfl⟩

/-- Taking in a value is a minimum, a maximum and a sum. -/
theorem pcDoubleStat_add (st : PcDoubleStat) (val : ℚ) :
    st.add val = ⟨min st.min val, max st.max val, st.sum + val⟩ := by
  have hmin : (if val < st.min then val else st.min) = min st.min val := by
    rw [min_comm, min_def_lt]
  have hmax : (if st.max < val then val else st.max) = max st.max val := by
    rw [max_def_lt]
  rw [PcDoubleStat.add, hmin, hmax]

/-- Taking in numbers one after the other. -/
theorem foldl_add_eq : ∀ (ds : List ℚ) (st : PcDoubleStat),
    ds.foldl PcDoubleStat.add st =
      ⟨ds.foldl min st.min, ds.foldl max st.max, st.sum + ds.sum⟩
  | [], st => by simp
  | d :: ds, st => by
      rw [List.foldl_cons, foldl_add_eq ds, pcDoubleStat_add, List.foldl_cons, List.foldl_cons,
        List.sum_cons, add_assoc]

/-- What is found for an array that holds values. -/
theorem pcBytesMinmax_ok {e : PcBytes} {vs : List Bytes} (h : Stores P e vs)
    (hnp : e.npoints < 4294967296)
    (hint : e.compression ≠ .rle → e.npoints * e.width ≤ 2147483648) :
    pcBytesMinmax P e = .ok ⟨(e.numbersOf P.endian vs).foldl min fltMax,
      (e.numbersOf P.endian vs).foldl max (-fltMax),
      (e.numbersOf P.endian vs).sum / e.npoints⟩ := by
  have hreport : ((e.numbersOf P.endian vs).foldl (fun m d => m.add 1 d) MinMax.start).report
      e.npoints = ⟨(e.numbersOf P.endian vs).foldl min fltMax,
        (e.numbersOf P.endian vs).foldl max (-fltMax),
        (e.numbersOf P.endian vs).sum / e.npoints⟩ := by
    rw [foldl_minMax_eq]
    simp [MinMax.start, MinMax.report]
  have hplainly : e.compression ≠ .rle → ∀ d, d.Plain → d.values = vs → d.npoints = e.npoints →
      d.interpretation = e.interpretation →
      pcBytesUncompressedMinmax P.endian d = .ok ⟨(e.numbersOf P.endian vs).foldl min fltMax,
        (e.numbersOf P.endian vs).foldl max (-fltMax),
        (e.numbersOf P.endian vs).sum / e.npoints⟩ := by
    intro hc d hplain hvalues hdn hinterp
    have hwidth : d.width = e.width := by rw [PcBytes.width, hinterp, PcBytes.width]
    rw [pcBytesUncompressedMinmax_ok P.endian hplain.known hplain.room
      (by rw [hdn, hwidth]; exact hint hc),
      ← hreport, hvalues, hdn]
    simp only [PcBytes.numbersOf, hinterp]
  unfold pcBytesMinmax
  cases hc : e.compression with
  | none =>
      obtain ⟨hplain, hvalues⟩ := h.plainOf hc
      exact hplainly (by simp [hc]) e hplain hvalues rfl rfl
  | rle =>
      obtain ⟨rs, hof, hvs⟩ := h.rleOf hc
      simp only
      rw [pcBytesRunLengthMinmax_eq P.endian hof, hvs, hreport]
  | sigbits =>
      obtain ⟨d, hd, hplain, hvalues, hdn, hinterp, -⟩ := pcBytesDecode_ok h hnp
      simp only [pcBytesDecode, hc] at hd
      simp only [pcBytesSigbitsMinmax, hd, ok_bind]
      exact hplainly (by simp [hc]) d hplain hvalues hdn hinterp
  | zlib =>
      obtain ⟨d, hd, hplain, hvalues, hdn, hinterp, -⟩ := pcBytesDecode_ok h hnp
      simp only [pcBytesDecode, hc] at hd
      simp only [pcBytesZlibMinmax, hd, ok_bind]
      exact hplainly (by simp [hc]) d hplain hvalues hdn hinterp
  | unknown code => exact absurd hc (h.compression_ne code)

end Pointcloud
