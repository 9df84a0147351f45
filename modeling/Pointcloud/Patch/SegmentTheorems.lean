/-
Pointcloud.Patch.SegmentTheorems — the segments of WKB as a grammar.

A dimensional patch stands in WKB as one segment for each dimension, and a segment says itself
how long it is. `SegmentsRead` is what may stand there, with what it is read as:

* a segment has an encoding, a size that is not negative, and as many bytes, which become the
  array of its dimension whatever they are;
* in the other byte order the bytes of a segment are flipped while neither their type nor their
  number is known, which only plain and deflated bytes get through. An encoding that is none of
  the four is reported, and nothing behind it is read.

The grammar is sound and complete for `pc_patch_dimensional_from_wkb`: what it describes is read
so (`SegmentsRead.deserialize`), and where the reader returns or reports an error, the bytes are
of this form (`segmentsRead_of_answers`). It is what the bytes have to be for the reader to stay
inside them, since the reader itself compares nothing with the size of the WKB.
-/
import Pointcloud.Bytes.MalformedTheorems
import Pointcloud.Patch.PortableTheorems

namespace Pointcloud

open Pointcloud.Base

/-! ## Segments

A segment is read where its five bytes of head are there, the size in them is a number of at
least zero, and as many bytes follow. Nothing else is looked at, except in the other byte order:
there the bytes are flipped, with the number of points and the type not set yet. -/

/-- The byte order of the writer. -/
def writerOrder (en : Endian) (swapped : Bool) : Endian := if swapped then en.opposite else en

/-- A segment as it stands in WKB, whatever its bytes are: the encoding, the size in the writer's
byte order, and the bytes. -/
def wireSegment (wr : Endian) (code : Byte) (data : Bytes) : Bytes :=
  code :: wr.bytesOf 4 data.length ++ data

/-- The array that a segment is read as. -/
def receivedArray (n : Nat) (dim : PcDimension) (code : Byte) (data : Bytes) : PcBytes where
  size := data.length
  npoints := n
  interpretation := dim.interpretation
  compression := .ofCode code.toNat
  readonly := false
  bytes := data

theorem length_wireSegment (wr : Endian) (code : Byte) (data : Bytes) :
    (wireSegment wr code data).length = 1 + 4 + data.length := by
  rw [wireSegment, List.length_append, List.length_cons, Endian.length_bytesOf, Nat.add_comm 4]

theorem natOf_singleton (en : Endian) (b : Byte) : en.natOf [b] = b.toNat := by
  cases en <;> simp [Endian.natOf, Endian.arrange, leNat]

section Deserialize

variable (en : Endian) (swapped : Bool) (code : Byte) {data : Bytes}

/-- The bytes of a segment are flipped before it is known what they are: as an array of no points
and of the type that there is not. -/
theorem pcBytesDeserialize_wire (hlt : data.length < 2147483648) (front rest : Bytes)
    (dim : PcDimension) :
    pcBytesDeserialize en (front ++ wireSegment (writerOrder en swapped) code data ++ rest)
      front.length dim false swapped = (do
        let pcb : PcBytes := ⟨data.length, 0, .unknown, .ofCode code.toNat, false, data⟩
        let pcb ← (if swapped then pcBytesFlipEndian pcb else .ok pcb)
        return { pcb with interpretation := dim.interpretation }) := by
  have hcode : readAt (front ++ [code] ++ ((writerOrder en swapped).bytesOf 4 data.length ++ data ++
      rest)) front.length 1 = .ok [code] := readAt_append rfl rfl
  have hsize : wkbGetInt32 en (front ++ [code] ++ (writerOrder en swapped).bytesOf 4 data.length ++
      (data ++ rest)) (front.length + 1) swapped = .ok data.length := by
    cases swapped with
    | true => exact wkbGetInt32_opposite en (by omega) (by simp)
    | false => exact wkbGetInt32_ok en (by omega) (by simp)
  have hdata : readAt (front ++ [code] ++ (writerOrder en swapped).bytesOf 4 data.length ++ data ++
      rest) (front.length + 5 : Nat) data.length = .ok data := readAt_append (by simp) rfl
  have hsplit : front ++ wireSegment (writerOrder en swapped) code data ++ rest =
      front ++ [code] ++ (writerOrder en swapped).bytesOf 4 data.length ++ data ++ rest := by
    simp [wireSegment]
  rw [← List.append_assoc, ← List.append_assoc, ← hsplit] at hcode
  rw [← List.append_assoc, ← hsplit] at hsize
  rw [← hsplit] at hdata
  unfold pcBytesDeserialize
  rw [hcode, ok_bind, hsize, ok_bind]
  simp only [int32_natCast (show data.length < 2147483648 from hlt),
    sizeT_natCast (show data.length < 18446744073709551616 by omega), Bool.false_and,
    Bool.false_eq_true, if_false, hdata, ok_bind, natOf_singleton,
    pcalloc_ok (show data.length < 9223372036854775808 by omega)]

/-- The number that a reader takes four bytes for is the one that the writer's order gives
them. -/
theorem natOf_writerOrder (bs : Bytes) :
    (writerOrder en swapped).natOf bs = en.natOf (if swapped then bs.reverse else bs) := by
  cases swapped with
  | true => exact Endian.natOf_opposite en bs
  | false => rfl

/-- A segment is there where reading it does more than leave the bytes. -/
theorem exists_wire_of_deserialize {front bytes : Bytes} {dim : PcDimension}
    (h : pcBytesDeserialize en (front ++ bytes) front.length dim false swapped ≠ fault) :
    ∃ code data rest, data.length < 2147483648 ∧
      bytes = wireSegment (writerOrder en swapped) code data ++ rest := by
  have hlen : (front ++ bytes).length = front.length + bytes.length := List.length_append
  by_cases hhead : 5 ≤ bytes.length
  · obtain ⟨code, tail, rfl⟩ := List.exists_cons_of_ne_nil (List.ne_nil_of_length_pos
      (show 0 < bytes.length by omega))
    have hfour : (tail.take 4).length = 4 := by
      rw [List.length_take, Nat.min_eq_left (Nat.le_of_succ_le_succ hhead)]
    have hsplit : front ++ code :: tail = front ++ [code] ++ tail.take 4 ++ tail.drop 4 := by
      simp
    -- the number that is read in the head
    generalize hn : (writerOrder en swapped).natOf (tail.take 4) = n
    have hcode : readAt (front ++ code :: tail) front.length 1 = .ok [code] := by
      rw [hsplit, List.append_assoc]
      exact readAt_append rfl rfl
    have hsize : wkbGetInt32 en (front ++ code :: tail) (front.length + 1) swapped = .ok n := by
      rw [wkbGetInt32, hsplit, readAt_append (by simp) hfour.symm, ok_bind, ← hn,
        natOf_writerOrder, pure_eq_ok]
    unfold pcBytesDeserialize at h
    rw [hcode, ok_bind, hsize, ok_bind] at h
    simp only [Bool.false_and, Bool.false_eq_true, if_false] at h
    have hlt : n < 4294967296 := by
      have := (writerOrder en swapped).natOf_lt (tail.take 4)
      rw [hfour] at this
      omega
    have hint : n < 2147483648 := by
      -- a negative size is far too large for memory
      by_contra hlarge
      have hnegative : ¬ sizeT (int32 n) < 9223372036854775808 := by
        unfold sizeT int32
        omega
      rw [pcalloc, if_neg hnegative, fault_bind] at h
      exact h rfl
    rw [int32_natCast hint, sizeT_natCast (by omega), pcalloc_ok (by omega), ok_bind] at h
    -- the bytes are copied from behind the head
    have hroom : n ≤ tail.length - 4 := by
      by_contra hshort
      rw [readAt_fault (by omega) (.inr (by rw [hlen, List.length_cons]; omega)), fault_bind] at h
      exact h rfl
    have hdata : ((tail.drop 4).take n).length = n := by
      rw [List.length_take, List.length_drop, Nat.min_eq_left hroom]
    refine ⟨code, (tail.drop 4).take n, (tail.drop 4).drop n, by omega, ?_⟩
    have hbytes := (writerOrder en swapped).bytesOf_natOf (tail.take 4)
    rw [hfour, hn] at hbytes
    rw [wireSegment, hdata, hbytes, List.append_assoc, List.take_append_drop,
      List.cons_append, List.take_append_drop]
  · -- the head is not there, so its size is not
    refine absurd ?_ h
    have hshort : wkbGetInt32 en (front ++ bytes) (front.length + 1) swapped = fault := by
      rw [wkbGetInt32, readAt_fault (by decide) (.inr (by rw [hlen]; omega)), fault_bind]
    by_cases hpos : 1 ≤ bytes.length
    · rw [pcBytesDeserialize, readAt_ok (by omega), ok_bind, hshort, fault_bind]
    · rw [pcBytesDeserialize, readAt_fault (by decide) (.inr (by rw [hlen]; omega)), fault_bind]

/-- Where nothing is flipped, the segment is read as it stands. -/
theorem pcBytesDeserialize_wire_ok (hlt : data.length < 2147483648)
    (hflip : swapped = true → (DimCompression.ofCode code.toNat).Unflipped) (front rest : Bytes)
    (dim : PcDimension) :
    pcBytesDeserialize en (front ++ wireSegment (writerOrder en swapped) code data ++ rest)
      front.length dim false swapped = .ok (receivedArray 0 dim code data) := by
  rw [pcBytesDeserialize_wire en swapped code hlt]
  cases swapped with
  | true =>
      have hc : ∀ c, DimCompression.ofCode code.toNat ≠ .unknown c := by
        rintro c hc
        rcases hflip rfl with h | h <;> rw [hc] at h <;> cases h
      simp only [if_true]
      rw [(pcBytesFlipEndian_early hc (by omega)).mpr ⟨hflip rfl, rfl⟩, ok_bind, pure_eq_ok]
      rfl
  | false => rfl

/-- In the other byte order an encoding that there is not is reported, and one that would have
to be flipped does not get that far. -/
theorem pcBytesFlipEndian_received (n : Nat) (dim : PcDimension) (hlt : data.length < 2147483648) :
    let run := pcBytesFlipEndian ⟨data.length, 0, .unknown, .ofCode code.toNat, false, data⟩
    (Raises run ↔ (receivedArray n dim code data).knownEncoding = false) ∧
      ((∃ r, run = .ok r) → (DimCompression.ofCode code.toNat).Unflipped) := by
  unfold PcBytes.knownEncoding receivedArray
  cases hc : DimCompression.ofCode code.toNat with
  | unknown c =>
      have hraise : pcBytesFlipEndian ⟨data.length, 0, .unknown, .unknown c, false, data⟩ =
          raise "pc_bytes_flip_endian: unknown compression" := rfl
      simp [hraise]
  | rle =>
      -- an array of no points fails the assertion about them
      have hstop : pcBytesFlipEndian ⟨data.length, 0, .unknown, .rle, false, data⟩ =
          .error .assertion := pcBytesRunLengthFlipEndian_empty rfl rfl
      simp [hstop, Raises, raise]
  | sigbits =>
      have hfault : pcBytesSigbitsFlipEndian ⟨data.length, 0, .unknown, .sigbits, false, data⟩ =
          fault :=
        pcBytesSigbitsFlipEndian_fault (by rw [PcBytes.width, size_unknown]; omega)
          (by rw [PcBytes.width, size_unknown]; exact Nat.lt_trans hlt (by decide))
      simp [pcBytesFlipEndian, hfault]
  | none => simp [pcBytesFlipEndian, DimCompression.Unflipped]
  | zlib => simp [pcBytesFlipEndian, DimCompression.Unflipped]

end Deserialize

/-- The segments that are read for the dimensions, and what they are read as: the arrays, or
none where an encoding is reported. What stands behind the last segment, or behind one whose
encoding is reported, is not looked at. -/
inductive SegmentsRead (en : Endian) (swapped : Bool) (n : Nat) :
    List PcDimension → Bytes → Option (List PcBytes) → Prop
  | nil (rest : Bytes) : SegmentsRead en swapped n [] rest (some [])
  | next {dim : PcDimension} {dims : List PcDimension} {code : Byte} {data rest : Bytes}
      {r : Option (List PcBytes)} (hlt : data.length < 2147483648)
      (hflip : swapped = true → (DimCompression.ofCode code.toNat).Unflipped)
      (hrest : SegmentsRead en swapped n dims rest r) :
      SegmentsRead en swapped n (dim :: dims)
        (wireSegment (writerOrder en swapped) code data ++ rest)
        (r.map (receivedArray n dim code data :: ·))
  | unknown {dim : PcDimension} {dims : List PcDimension} {code : Byte} {data rest : Bytes}
      (hlt : data.length < 2147483648) (hswapped : swapped = true)
      (hcode : (receivedArray n dim code data).knownEncoding = false) :
      SegmentsRead en swapped n (dim :: dims)
        (wireSegment (writerOrder en swapped) code data ++ rest) none

/-- What stands in the segments is what the reader makes of them, by induction on the
segments. -/
theorem SegmentsRead.deserialize {en : Endian} {swapped : Bool} {n : Nat} {dims : List PcDimension}
    {bytes : Bytes} {r : Option (List PcBytes)} (h : SegmentsRead en swapped n dims bytes r) :
    ∀ front : Bytes,
      (∀ es ∈ r, deserializeDimensions en (front ++ bytes) n false swapped dims front.length =
        .ok es) ∧
      (r = none →
        Raises (deserializeDimensions en (front ++ bytes) n false swapped dims front.length)) := by
  induction h with
  | nil rest => exact fun front => ⟨by simp [deserializeDimensions], by simp⟩
  | @next dim dims code data rest r hlt hflip hrest ih =>
      intro front
      have hhead := pcBytesDeserialize_wire_ok en swapped code hlt hflip front rest dim
      obtain ⟨hok, hraises⟩ := ih (front ++ wireSegment (writerOrder en swapped) code data)
      have hlen : (front ++ wireSegment (writerOrder en swapped) code data).length =
          front.length + pcBytesSerializedSize (receivedArray 0 dim code data) := by
        rw [List.length_append, length_wireSegment]
        rfl
      rw [hlen, List.append_assoc] at hok hraises
      rw [List.append_assoc] at hhead
      rw [deserializeDimensions, hhead, ok_bind]
      constructor
      · intro es hes
        obtain ⟨es', hes', rfl⟩ := Option.map_eq_some_iff.mp hes
        rw [hok es' hes', ok_bind, pure_eq_ok]
        rfl
      · intro hnone
        obtain ⟨msg, hmsg⟩ := hraises (Option.map_eq_none_iff.mp hnone)
        rw [hmsg, raise_bind]
        exact raises_raise msg
  | @unknown dim dims code data rest hlt hswapped hcode =>
      intro front
      subst hswapped
      have hhead := pcBytesDeserialize_wire en true code hlt front rest dim
      obtain ⟨msg, hmsg⟩ := (pcBytesFlipEndian_received code n dim hlt).1.mpr hcode
      simp only [if_true] at hhead
      rw [hmsg, raise_bind, List.append_assoc] at hhead
      rw [deserializeDimensions, hhead, raise_bind]
      exact ⟨by simp, fun _ => raises_raise msg⟩

/-- Where the reader answers, the segments are there, by induction on the dimensions. -/
theorem segmentsRead_of_answers {en : Endian} {swapped : Bool} {n : Nat} :
    ∀ {dims : List PcDimension} {front bytes : Bytes},
      Answers (deserializeDimensions en (front ++ bytes) n false swapped dims front.length) →
      ∃ r, SegmentsRead en swapped n dims bytes r
  | [], _, bytes, _ => ⟨_, .nil bytes⟩
  | dim :: dims, front, bytes, h => by
      rw [deserializeDimensions, answers_bind] at h
      obtain ⟨hhead, hrest⟩ := h
      obtain ⟨code, data, rest, hlt, rfl⟩ := exists_wire_of_deserialize en swapped fun hfault =>
        not_answers_fault (hfault ▸ hhead)
      have hrun := pcBytesDeserialize_wire en swapped code hlt front rest dim
      rw [List.append_assoc] at hrun
      by_cases hflip : swapped = true → (DimCompression.ofCode code.toNat).Unflipped
      · have hok := pcBytesDeserialize_wire_ok en swapped code hlt hflip front rest dim
        rw [List.append_assoc] at hok
        have hbehind := (answers_bind.mp (hrest _ hok)).1
        have hlen : front.length + pcBytesSerializedSize (receivedArray 0 dim code data) =
            (front ++ wireSegment (writerOrder en swapped) code data).length := by
          rw [List.length_append, length_wireSegment]
          rfl
        rw [hlen, ← List.append_assoc] at hbehind
        obtain ⟨r, hr⟩ := segmentsRead_of_answers hbehind
        exact ⟨_, .next hlt hflip hr⟩
      · -- flipping did not return, so it has reported the encoding
        obtain ⟨hswapped, hnot⟩ := Classical.not_imp.mp hflip
        subst hswapped
        obtain ⟨hraises, hok⟩ := pcBytesFlipEndian_received code n dim hlt
        simp only [if_true] at hrun
        rw [hrun, answers_bind] at hhead
        exact ⟨_, .unknown hlt rfl (hraises.mp (hhead.1.resolve_left fun h => hnot (hok h)))⟩

/-- The arrays of the segments: of the types of the dimensions, each with all of its block in
use. -/
def ReceivedArrays (n : Nat) (dims : List PcDimension) (es : List PcBytes) : Prop :=
  List.Forall₂ (fun (dim : PcDimension) (e : PcBytes) =>
    e.interpretation = dim.interpretation ∧ e.npoints = n ∧ e.size = e.bytes.length ∧
      e.size < 2147483648) dims es

/-- What is read is of the types of the dimensions, whatever the bytes are. -/
theorem SegmentsRead.arrays {en : Endian} {swapped : Bool} {n : Nat} {dims : List PcDimension}
    {bytes : Bytes} {r : Option (List PcBytes)} (h : SegmentsRead en swapped n dims bytes r) :
    ∀ es ∈ r, ReceivedArrays n dims es := by
  induction h with
  | nil rest =>
      intro es hes
      cases hes
      exact .nil
  | next hlt hflip hrest ih =>
      intro es hes
      obtain ⟨es', hes', rfl⟩ := Option.map_eq_some_iff.mp hes
      exact .cons ⟨rfl, rfl, rfl, hlt⟩ (ih es' hes')
  | unknown hlt hswapped hcode => simp

theorem ReceivedArrays.received {s : PcSchema} {n : Nat} {es : List PcBytes}
    (h : ReceivedArrays n s.dims es) (hn : n < 4294967296) {e : PcBytes} (he : e ∈ es) :
    e.Received := by
  obtain ⟨i, hi, rfl⟩ := List.mem_iff_getElem.mp he
  obtain ⟨hlen, hall⟩ := List.forall₂_iff_get.mp h
  obtain ⟨hinterp, hnp, hsize, -⟩ := hall i (by omega) hi
  simp only [List.get_eq_getElem] at hinterp hnp hsize
  exact ⟨hinterp ▸ s.dim_known (List.getElem_mem _), hsize, hnp ▸ hn⟩

end Pointcloud
