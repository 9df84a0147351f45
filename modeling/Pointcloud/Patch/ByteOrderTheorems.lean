/-
Pointcloud.Patch.ByteOrderTheorems — points and records that the other byte
order has written.

`uncompressed_bytes_flip_endian` reverses the bytes of every dimension of every
record. On one record this is its own inverse (`flipRecord_flipRecord`), and
what the other order writes for a record is the flipped record. The `int` index
of the loop bounds the number of records at `2 ^ 31`; up to there records come
back from the other order as they do from the machine's own
(`pcWkb_otherOrder_iff`).
-/
import Pointcloud.Patch.PortableTheorems

namespace Pointcloud

open Pointcloud.Base

variable {P : Platform}

/-! ## One record -/

section Record

variable {s : PcSchema} {record : Bytes} (h : record.length = s.size)

include h

theorem lengths_flipped :
    (s.dims.map fun dim => (dim.bytesIn record).reverse).map List.length =
      s.dims.map PcDimension.size := by
  rw [List.map_map]
  refine List.map_congr_left fun dim hd => ?_
  rw [Function.comp_apply, List.length_reverse, s.length_bytesIn hd h]

theorem length_flipRecord : (flipRecord s record).length = s.size := by
  rw [flipRecord, List.length_flatten, lengths_flipped h, s.size_eq, sizeOfDims]

/-- A flipped record has the reversed bytes in every dimension. -/
theorem bytesIn_flipRecord {dim : PcDimension} (hd : dim ∈ s.dims) :
    dim.bytesIn (flipRecord s record) = (dim.bytesIn record).reverse := by
  have hall := s.bytesIn_flatten (lengths_flipped h)
  exact List.map_inj_left.mp hall dim hd

/-- Flipping a record twice changes nothing. -/
theorem flipRecord_flipRecord : flipRecord s (flipRecord s record) = record := by
  have hback : (s.dims.map fun dim => (dim.bytesIn (flipRecord s record)).reverse) =
      s.dims.map fun dim => dim.bytesIn record := by
    refine List.map_congr_left fun dim hd => ?_
    rw [bytesIn_flipRecord h hd, List.reverse_reverse]
  rw [flipRecord, hback, s.flatten_bytesIn h]

end Record

/-! ## Arrays of records -/

/-- The records, each with the bytes of its dimensions reversed. -/
def flipRecords (s : PcSchema) (recs : List Bytes) : List Bytes := recs.map (flipRecord s)

@[simp] theorem length_flipRecords (s : PcSchema) (recs : List Bytes) :
    (flipRecords s recs).length = recs.length := List.length_map _

section Records

variable {s : PcSchema} {recs : List Bytes} (h : ∀ r ∈ recs, r.length = s.size)

include h

theorem width_flipRecords : ∀ r ∈ flipRecords s recs, r.length = s.size := by
  intro r hr
  obtain ⟨r', hr', rfl⟩ := List.mem_map.mp hr
  exact length_flipRecord (h r' hr')

theorem flipRecords_flipRecords : flipRecords s (flipRecords s recs) = recs := by
  rw [flipRecords, flipRecords, List.map_map]
  conv_rhs => rw [← List.map_id recs]
  exact List.map_congr_left fun r hr => flipRecord_flipRecord (h r hr)

/-- Records are flipped as long as their indices are `int`s. -/
theorem uncompressedBytesFlipEndian_iff (front rest : Bytes) {off : Nat} (hoff : off = front.length)
    (out : Bytes) :
    uncompressedBytesFlipEndian (front ++ recs.flatten ++ rest) off s recs.length = .ok out ↔
      recs.length ≤ 2147483648 ∧ out = (flipRecords s recs).flatten := by
  have hlen : recs.flatten.length = s.size * recs.length := by
    rw [length_flatten_of_width h, Nat.mul_comm]
  have hread : readAt (front ++ recs.flatten ++ rest) off (s.size * recs.length) =
      .ok recs.flatten := readAt_append (by rw [hoff]) hlen.symm
  have hrecords : records s.size recs.length recs.flatten = recs := records_flatten h
  rw [uncompressedBytesFlipEndian, pcalloc_bind_eq_ok, hread, ok_bind, bind_eq_ok]
  constructor
  · rintro ⟨-, u, hloop, hout⟩
    rw [pure_eq_ok, Except.ok.injEq, hrecords] at hout
    refine ⟨?_, hout.symm⟩
    by_contra hlarge
    rw [intLoop_fault (Nat.not_le.mp hlarge)] at hloop
    exact fault_ne_ok u hloop
  · rintro ⟨hint, rfl⟩
    refine ⟨?_, (), intLoop_ok hint, ?_⟩
    · have hsize := Nat.mul_le_mul (Nat.le_of_lt_succ s.size_lt) hint
      omega
    · rw [pure_eq_ok, hrecords]
      rfl

end Records

/-! ## Reading what the other order has written -/

/-- The records in WKB. -/
def recordsWkb (en : Endian) (s : PcSchema) (recs : List Bytes) : Bytes :=
  wkbHead en s.pcid PcCompression.none.code recs.length ++ recs.flatten

/-- The same data in the WKB of the other order: the fields of the head and the
values are reversed. -/
def otherRecordsWkb (en : Endian) (s : PcSchema) (recs : List Bytes) : Bytes :=
  recordsWkb en.opposite s (flipRecords s recs)

/-- A point in WKB. -/
def pointWkb (en : Endian) (s : PcSchema) (record : Bytes) : Bytes :=
  [machineEndian en] ++ en.bytesOf 4 s.pcid ++ record

/-- Flipping the records twice gives them back. -/
def FlipsBack (s : PcSchema) (recs : List Bytes) : Prop :=
  ∃ flipped, uncompressedBytesFlipEndian recs.flatten 0 s recs.length = .ok flipped ∧
    uncompressedBytesFlipEndian flipped 0 s recs.length = .ok recs.flatten

/-- The point is read alike in both orders. -/
def PointReadsAlike (P : Platform) (s : PcSchema) (record : Bytes) : Prop :=
  ∃ pt, pcPointFromWkb P s (pointWkb P.endian s record) (pointWkb P.endian s record).length =
      .ok pt ∧
    pcPointFromWkb P s (pointWkb P.endian.opposite s (flipRecord s record))
      (pointWkb P.endian.opposite s (flipRecord s record)).length = .ok pt ∧
    pt.schema.pcid = s.pcid ∧ pt.data = record ∧
    pcWkbGetPcid P.endian (pointWkb P.endian s record) = .ok s.pcid ∧
    pcWkbGetPcid P.endian (pointWkb P.endian.opposite s (flipRecord s record)) = .ok s.pcid

/-- The records are read alike in both orders. -/
def RecordsReadAlike (P : Platform) (s : PcSchema) (recs : List Bytes) : Prop :=
  ∃ p, pcPatchUncompressedFromWkb P s (recordsWkb P.endian s recs)
      (recordsWkb P.endian s recs).length = .ok p ∧
    pcPatchUncompressedFromWkb P s (otherRecordsWkb P.endian s recs)
      (otherRecordsWkb P.endian s recs).length = .ok p ∧
    p.schema.pcid = s.pcid ∧ p.npoints = recs.length ∧ p.data.content = recs.flatten ∧
    pcWkbGetPcid P.endian (recordsWkb P.endian s recs) = .ok s.pcid ∧
    pcWkbGetPcid P.endian (otherRecordsWkb P.endian s recs) = .ok s.pcid

/-- Records that can be flipped are flipped back. -/
theorem flipsBack_iff {s : PcSchema} {recs : List Bytes} (h : ∀ r ∈ recs, r.length = s.size) :
    FlipsBack s recs ↔ recs.length ≤ 2147483648 := by
  have hflip : ∀ {out}, uncompressedBytesFlipEndian recs.flatten 0 s recs.length = .ok out ↔
      recs.length ≤ 2147483648 ∧ out = (flipRecords s recs).flatten := by
    intro out
    have := uncompressedBytesFlipEndian_iff h [] [] (show 0 = _ from rfl) out
    rwa [List.nil_append, List.append_nil] at this
  have hback : ∀ {out}, uncompressedBytesFlipEndian (flipRecords s recs).flatten 0 s recs.length =
      .ok out ↔ recs.length ≤ 2147483648 ∧ out = recs.flatten := by
    intro out
    have := uncompressedBytesFlipEndian_iff (width_flipRecords h) [] [] (show 0 = _ from rfl)
      out
    rwa [List.nil_append, List.append_nil, flipRecords_flipRecords h, length_flipRecords] at this
  constructor
  · rintro ⟨out, hout, -⟩
    exact (hflip.mp hout).1
  · intro hint
    exact ⟨_, hflip.mpr ⟨hint, rfl⟩, hback.mpr ⟨hint, rfl⟩⟩


section Flag

variable (en : Endian) (rest : Bytes)

theorem wkbIsSwapped_own : wkbIsSwapped en ([machineEndian en] ++ rest) = .ok false := by
  have hread : readAt ([] ++ [machineEndian en] ++ rest) 0 1 = .ok _ := readAt_append rfl rfl
  rw [List.nil_append] at hread
  rw [wkbIsSwapped, hread, ok_bind]
  simp

theorem wkbIsSwapped_other : wkbIsSwapped en ([machineEndian en.opposite] ++ rest) = .ok true := by
  have hread : readAt ([] ++ [machineEndian en.opposite] ++ rest) 0 1 = .ok _ :=
    readAt_append rfl rfl
  rw [List.nil_append] at hread
  rw [wkbIsSwapped, hread, ok_bind]
  simpa using Endian.opposite_ne en

variable {pcid : Nat} (hpcid : pcid < 4294967296)

include hpcid

/-- The pcid behind the flag, in either order. -/
theorem pcWkbGetPcid_own :
    pcWkbGetPcid en ([machineEndian en] ++ en.bytesOf 4 pcid ++ rest) = .ok pcid := by
  rw [pcWkbGetPcid, wkbGetField, List.append_assoc, wkbIsSwapped_own, ok_bind, ← List.append_assoc]
  exact wkbGetInt32_ok en hpcid rfl

theorem pcWkbGetPcid_other :
    pcWkbGetPcid en ([machineEndian en.opposite] ++ en.opposite.bytesOf 4 pcid ++ rest) =
      .ok pcid := by
  rw [pcWkbGetPcid, wkbGetField, List.append_assoc, wkbIsSwapped_other, ok_bind,
    ← List.append_assoc]
  exact wkbGetInt32_opposite en hpcid rfl

end Flag

theorem length_pointWkb (en : Endian) (s : PcSchema) (record : Bytes) :
    (pointWkb en s record).length = 5 + record.length := by
  simp [pointWkb]
  omega

/-- Points are read alike. -/
theorem pointReadsAlike (P : Platform) (s : PcSchema) {record : Bytes}
    (h : record.length = s.size) :
    PointReadsAlike P s record := by
  have hsize := s.size_lt
  have hflipped := length_flipRecord h
  have hlen : (pointWkb P.endian s record).length = 5 + s.size := by rw [length_pointWkb, h]
  have hlen' : (pointWkb P.endian.opposite s (flipRecord s record)).length = 5 + s.size := by
    rw [length_pointWkb, hflipped]
  have hrest : sizeT (((5 + s.size : Nat) : Int) - 5) = s.size := by
    rw [show ((5 + s.size : Nat) : Int) - 5 = (s.size : Int) from by omega,
      sizeT_natCast (by omega)]
  refine ⟨⟨false, s, record, h⟩, ?_, ?_, rfl, rfl, pcWkbGetPcid_own _ _ s.pcid_lt,
    pcWkbGetPcid_other _ _ s.pcid_lt⟩
  · have hread : readAt (pointWkb P.endian s record ++ []) 5 s.size = .ok record :=
      readAt_append (by simp) h.symm
    have hflag : wkbIsSwapped P.endian (pointWkb P.endian s record) = .ok false := by
      rw [pointWkb, List.append_assoc, wkbIsSwapped_own]
    rw [List.append_nil] at hread
    rw [hlen, pcPointFromWkb, if_neg (by omega), hflag, ok_bind, hrest, if_neg (by simp),
      if_neg (by simp), pcalloc_ok (by omega), ok_bind, hread, ok_bind, pcPointOf_ok _ h]
  · have hwidth : ∀ r ∈ [flipRecord s record], r.length = s.size := by simpa using hflipped
    have hflip := (uncompressedBytesFlipEndian_iff hwidth ([machineEndian P.endian.opposite]
      ++ P.endian.opposite.bytesOf 4 s.pcid) [] (show 5 = _ from by simp) _).mpr
      ⟨by simp, rfl⟩
    have hback : (flipRecords s [flipRecord s record]).flatten = record := by
      simp [flipRecords, flipRecord_flipRecord h]
    have hflag : wkbIsSwapped P.endian (pointWkb P.endian.opposite s (flipRecord s record)) =
        .ok true := by
      rw [pointWkb, List.append_assoc, wkbIsSwapped_other]
    rw [hback, List.flatten_cons, List.flatten_nil, List.append_nil, List.append_nil] at hflip
    rw [hlen', pcPointFromWkb, if_neg (by omega), hflag, ok_bind, hrest,
      if_neg (by simp), if_pos rfl, pointWkb]
    rw [List.length_singleton] at hflip
    rw [hflip, ok_bind, pcPointOf_ok _ h]

section Patches

variable (P : Platform) {s : PcSchema} {recs : List Bytes} (h : ∀ r ∈ recs, r.length = s.size)
  (hlt : recs.length < 4294967296)

include h in
theorem length_recordsWkb (en : Endian) :
    (recordsWkb en s recs).length = 13 + s.size * recs.length := by
  rw [recordsWkb, List.length_append, length_wkbHead, length_flatten_of_width h, Nat.mul_comm]

include hlt in
/-- The size in front of which the head stands. -/
theorem recordsWkb_rest :
    sizeT (((13 + s.size * recs.length : Nat) : Int) - 13) = s.size * recs.length := by
  have hsize := s.size_lt
  have hprod : s.size * recs.length ≤ 4294967295 * 4294967295 :=
    Nat.mul_le_mul (by omega) (by omega)
  rw [show ((13 + s.size * recs.length : Nat) : Int) - 13 =
    ((s.size * recs.length : Nat) : Int) from
    by omega, sizeT_natCast (by omega)]

include h hlt

/-- Records in the machine's own order are read when they can be allocated. -/
theorem pcPatchUncompressedFromWkb_own {p : PcPatchUncompressed} :
    pcPatchUncompressedFromWkb P s (recordsWkb P.endian s recs)
        (recordsWkb P.endian s recs).length = .ok p ↔
      recs.length * s.size < 9223372036854775808 ∧ p = patchOfRecords s recs := by
  have hread : readAt (recordsWkb P.endian s recs ++ []) 13 (recs.length * s.size) =
      .ok recs.flatten :=
    readAt_append (by simp) (length_flatten_of_width h).symm
  rw [List.append_nil] at hread
  rw [pcPatchUncompressedFromWkb, length_recordsWkb h, recordsWkb_rest hlt]
  rw [recordsWkb] at hread ⊢
  rw [wkbIsSwapped_head, ok_bind, wkbGetCompression_head _ _ (by decide), ok_bind,
    wkbGetNpoints_head _ _ hlt, ok_bind, if_neg (by simp), if_neg (by simp), if_neg (by simp)]
  constructor
  · intro hp
    obtain ⟨data, hdata, hret⟩ := bind_eq_ok.mp hp
    obtain ⟨halloc, hdata⟩ := pcalloc_bind_eq_ok.mp hdata
    rw [hread, Except.ok.injEq] at hdata
    rw [pure_eq_ok, Except.ok.injEq] at hret
    rw [← hret, ← hdata, patchOfRecords]
    exact ⟨halloc, rfl⟩
  · rintro ⟨halloc, rfl⟩
    rw [pcalloc_ok halloc, ok_bind, hread, ok_bind]
    rfl

/-- Records in the other order are read when they can be flipped. -/
theorem pcPatchUncompressedFromWkb_other {p : PcPatchUncompressed} :
    pcPatchUncompressedFromWkb P s (otherRecordsWkb P.endian s recs)
        (otherRecordsWkb P.endian s recs).length = .ok p ↔
      recs.length ≤ 2147483648 ∧ p = patchOfRecords s recs := by
  have hflipped := width_flipRecords h
  have hlen := length_recordsWkb hflipped P.endian.opposite
  have hflip := fun out => uncompressedBytesFlipEndian_iff hflipped
    (wkbHead P.endian.opposite s.pcid PcCompression.none.code recs.length) []
    (show 13 = _ from by simp) out
  simp only [List.append_nil, flipRecords_flipRecords h, length_flipRecords] at hflip hlen
  rw [pcPatchUncompressedFromWkb, otherRecordsWkb, hlen, recordsWkb_rest hlt, recordsWkb,
    length_flipRecords, wkbIsSwapped_opposite, ok_bind,
    wkbGetCompression_opposite _ _ (by decide), ok_bind, wkbGetNpoints_opposite _ _ hlt, ok_bind,
    if_neg (by simp), if_neg (by simp), if_pos rfl]
  constructor
  · intro hp
    obtain ⟨data, hdata, hret⟩ := bind_eq_ok.mp hp
    obtain ⟨hint, rfl⟩ := (hflip data).mp hdata
    rw [pure_eq_ok, Except.ok.injEq] at hret
    exact ⟨hint, hret.symm⟩
  · rintro ⟨hint, rfl⟩
    rw [(hflip _).mpr ⟨hint, rfl⟩]
    rfl

/-- Records are read alike as long as they can be flipped. -/
theorem recordsReadAlike_iff : RecordsReadAlike P s recs ↔ recs.length ≤ 2147483648 := by
  constructor
  · rintro ⟨p, -, hother, -⟩
    exact ((pcPatchUncompressedFromWkb_other P h hlt).mp hother).1
  · intro hint
    have hroom : recs.length * s.size < 9223372036854775808 := by
      have := Nat.mul_le_mul hint (Nat.le_of_lt_succ s.size_lt)
      omega
    refine ⟨patchOfRecords s recs, (pcPatchUncompressedFromWkb_own P h hlt).mpr ⟨hroom, rfl⟩,
      (pcPatchUncompressedFromWkb_other P h hlt).mpr ⟨hint, rfl⟩, rfl, rfl, content_bufOf _, ?_, ?_⟩
    · rw [recordsWkb, pcWkbGetPcid_head _ _ s.pcid_lt]
    · rw [otherRecordsWkb, recordsWkb, wkbHead]
      simp only [List.append_assoc]
      rw [← List.append_assoc]
      exact pcWkbGetPcid_other _ _ s.pcid_lt

end Patches

/-- Points are portable between byte orders; arrays of records are flipped back,
and read alike in both orders, exactly as long as an `int` counts them. -/
theorem pcWkb_otherOrder_iff (P : Platform) (s : PcSchema) :
    (∀ record : Bytes, record.length = s.size →
      FlipsBack s [record] ∧ PointReadsAlike P s record) ∧
    ∀ recs : List Bytes, (∀ r ∈ recs, r.length = s.size) → recs.length < 4294967296 →
      ((FlipsBack s recs ↔ recs.length ≤ 2147483648) ∧
        (RecordsReadAlike P s recs ↔ recs.length ≤ 2147483648)) := by
  refine ⟨fun record h => ⟨?_, pointReadsAlike P s h⟩, fun recs h hlt =>
    ⟨flipsBack_iff h, recordsReadAlike_iff P h hlt⟩⟩
  have hwidth : ∀ r ∈ [record], r.length = s.size := by simpa using h
  rw [flipsBack_iff hwidth]
  simp

/-- Two points of an x of two bytes and a y of one. -/
theorem pcWkb_otherOrder_iff_witness :
    let s := xySchema .uint16 .uint8 (by decide) uint8_known 1 .none
    (FlipsBack s [[1, 2, 3]] ∧ PointReadsAlike Platform.plain s [1, 2, 3]) ∧
      FlipsBack s [[1, 2, 3], [4, 5, 6]] ∧
      RecordsReadAlike Platform.plain s [[1, 2, 3], [4, 5, 6]] := by
  intro s
  have htwo := (pcWkb_otherOrder_iff Platform.plain s).2 [[1, 2, 3], [4, 5, 6]] (by decide)
    (by decide)
  exact ⟨(pcWkb_otherOrder_iff Platform.plain s).1 [1, 2, 3] (by decide),
    htwo.1.mpr (by decide), htwo.2.mpr (by decide)⟩

/-- `2 ^ 31 + 1` records are not flipped. -/
theorem pcWkb_otherOrder_fails :
    let s := xySchema .uint16 .uint8 (by decide) uint8_known 1 .none
    let recs := List.replicate 2147483649 (zeros 3)
    (∀ r ∈ recs, r.length = s.size) ∧ ¬ FlipsBack s recs ∧
      ¬ RecordsReadAlike Platform.plain s recs := by
  intro s recs
  have hwidth : ∀ r ∈ recs, r.length = s.size := by
    intro r hr
    rw [List.eq_of_mem_replicate hr, length_zeros]
    rfl
  have hlen : recs.length = 2147483649 := List.length_replicate
  refine ⟨hwidth, ?_, ?_⟩
  · rw [flipsBack_iff hwidth]
    omega
  · rw [recordsReadAlike_iff _ hwidth (by omega)]
    omega

end Pointcloud
