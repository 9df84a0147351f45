/-
Pointcloud.Patch.WkbTheorems — reading WKB back on the machine that wrote it.

`patchWkb` is the format: a head of thirteen bytes and the payload. The
writers produce it (`pcPatchToWkb_ok`), and the readers recover the patch from
it (`patchFromWkb_ok`); what can still stop `pc_patch_from_wkb` is the search
for the extent, and memory. `pcWkb_roundTrip_iff` says exactly which patches
come back.
-/
import Pointcloud.Patch.PointnTheorems
import Pointcloud.Patch.StatsTheorems
import Pointcloud.Patch.Wkb

namespace Pointcloud

open Pointcloud.Base

variable {P : Platform}

/-! ## The format -/

/-- The head of the WKB of a patch. -/
def wkbHead (en : Endian) (pcid compression npoints : Nat) : Bytes :=
  [machineEndian en] ++ en.bytesOf 4 pcid ++ en.bytesOf 4 compression ++ en.bytesOf 4 npoints

/-- What stands behind the head. -/
def PcPatch.payload (en : Endian) : PcPatch → Bytes
  | .uncompressed p => p.data.content.take p.datasize
  | .dimensional d => (d.bytes.map (segment en)).flatten
  | .lazperf _ => []

/-- The WKB of a patch. -/
def patchWkb (en : Endian) (p : PcPatch) : Bytes :=
  wkbHead en p.schema.pcid p.type.code p.npoints ++ p.payload en

theorem patchWkb_uncompressed (en : Endian) (p : PcPatchUncompressed) :
    patchWkb en (.uncompressed p) =
      wkbHead en p.schema.pcid PcCompression.none.code p.npoints ++
        p.data.content.take p.datasize := rfl

theorem patchWkb_dimensional (en : Endian) (d : PcPatchDimensional) :
    patchWkb en (.dimensional d) =
      wkbHead en d.schema.pcid PcCompression.dimensional.code d.npoints ++
        (d.bytes.map (segment en)).flatten := rfl

@[simp] theorem length_wkbHead (en : Endian) (pcid compression npoints : Nat) :
    (wkbHead en pcid compression npoints).length = 13 := by
  simp [wkbHead]

section Head

variable (en : Endian) {pcid compression npoints : Nat} (rest : Bytes)

theorem wkbIsSwapped_head :
    wkbIsSwapped en (wkbHead en pcid compression npoints ++ rest) = .ok false := by
  have hread : readAt ([] ++ [machineEndian en] ++ (en.bytesOf 4 pcid ++ en.bytesOf 4 compression ++
      en.bytesOf 4 npoints ++ rest)) 0 1 = .ok [machineEndian en] := readAt_append rfl rfl
  simp only [List.nil_append, ← List.append_assoc] at hread
  rw [wkbIsSwapped, wkbHead, hread, ok_bind]
  simp

theorem pcWkbGetPcid_head (h : pcid < 4294967296) :
    pcWkbGetPcid en (wkbHead en pcid compression npoints ++ rest) = .ok pcid := by
  have hread : wkbGetInt32 en
    ([machineEndian en] ++ en.bytesOf 4 pcid ++ (en.bytesOf 4 compression ++
      en.bytesOf 4 npoints ++ rest)) 1 false = .ok pcid := wkbGetInt32_ok en h rfl
  simp only [← List.append_assoc] at hread
  rw [pcWkbGetPcid, wkbGetField, wkbIsSwapped_head, ok_bind, wkbHead, hread]

theorem wkbGetCompression_head (h : compression < 4294967296) :
    wkbGetCompression en (wkbHead en pcid compression npoints ++ rest) = .ok compression := by
  have hread : wkbGetInt32 en
    ([machineEndian en] ++ en.bytesOf 4 pcid ++ en.bytesOf 4 compression ++
      (en.bytesOf 4 npoints ++ rest)) 5 false = .ok compression := wkbGetInt32_ok en h (by simp)
  simp only [← List.append_assoc] at hread
  rw [wkbGetCompression, wkbGetField, wkbIsSwapped_head, ok_bind, wkbHead, hread]

theorem wkbGetNpoints_head (h : npoints < 4294967296) :
    wkbGetNpoints en (wkbHead en pcid compression npoints ++ rest) = .ok npoints := by
  have hread : wkbGetInt32 en
    ([machineEndian en] ++ en.bytesOf 4 pcid ++ en.bytesOf 4 compression ++
      en.bytesOf 4 npoints ++ rest) 9 false = .ok npoints := wkbGetInt32_ok en h (by simp)
  rw [wkbGetNpoints, wkbGetField, wkbIsSwapped_head, ok_bind, wkbHead, hread]

end Head

/-! ## Writing

The writers go over a block of the size computed before, and fill it. -/

theorem writeWkbHead_ok (pcid compression npoints : Nat) {block : Bytes} (h : 13 ≤ block.length) :
    writeWkbHead P block pcid compression npoints =
      .ok (wkbHead P.endian pcid compression npoints ++ block.drop 13) := by
  have h₁ : writeAt ([] ++ block) 0 [machineEndian P.endian] = .ok _ :=
    writeAt_append rfl (by rw [List.length_singleton]; omega)
  have h₂ : writeAt ([] ++ [machineEndian P.endian] ++ block.drop 1) 1 (P.endian.bytesOf 4 pcid) =
      .ok _ := writeAt_append rfl (by rw [Endian.length_bytesOf, List.length_drop]; omega)
  have h₃ : writeAt ([] ++ [machineEndian P.endian] ++ P.endian.bytesOf 4 pcid ++
      (block.drop 1).drop 4) 5 (P.endian.bytesOf 4 compression) = .ok _ :=
    writeAt_append (by simp) (by simp only [Endian.length_bytesOf, List.length_drop]; omega)
  have h₄ : writeAt ([] ++ [machineEndian P.endian] ++ P.endian.bytesOf 4 pcid ++
      P.endian.bytesOf 4 compression ++ ((block.drop 1).drop 4).drop 4) 9
      (P.endian.bytesOf 4 npoints) = .ok _ :=
    writeAt_append (by simp) (by simp only [Endian.length_bytesOf, List.length_drop]; omega)
  rw [List.nil_append, List.length_singleton] at h₁
  rw [Endian.length_bytesOf] at h₂ h₃ h₄
  rw [writeWkbHead, h₁, ok_bind, h₂, ok_bind, h₃, ok_bind, h₄, wkbHead]
  simp [List.drop_drop]

/-- The segments are written one behind the other. -/
theorem serializeDimensions_ok (en : Endian) : ∀ {pcbs : List PcBytes} {front block : Bytes},
    (∀ e ∈ pcbs, e.size ≤ e.bytes.length ∧ pcBytesSerializedSize e < 2147483648) →
    (pcbs.map pcBytesSerializedSize).sum ≤ block.length →
    serializeDimensions en pcbs (front ++ block) front.length =
      .ok (front ++ (pcbs.map (segment en)).flatten ++
        block.drop (pcbs.map pcBytesSerializedSize).sum)
  | [], front, block, _, _ => by simp [serializeDimensions]
  | e :: pcbs, front, block, h, hroom => by
      obtain ⟨hsize, hlt⟩ := h e (by simp)
      rw [List.map_cons, List.sum_cons] at hroom
      have hlen := length_segment en hsize
      have hrest : serializeDimensions en pcbs
          (front ++ segment en e ++ block.drop (pcBytesSerializedSize e))
          (front ++ segment en e).length = .ok _ :=
        serializeDimensions_ok en (fun e' he' => h e' (by simp [he']))
          (by rw [List.length_drop]; omega)
      rw [List.length_append, hlen, Nat.cast_add] at hrest
      rw [serializeDimensions, pcBytesSerialize_ok en hsize hlt (by omega), ok_bind]
      simp only
      rw [hrest, List.drop_drop, List.map_cons, List.flatten_cons, List.map_cons, List.sum_cons,
        List.append_assoc front]

/-- The sizes that the format counts are those of the patch. -/
def WkbSized : PcPatch → Prop
  | .uncompressed p => p.datasize = p.npoints * p.schema.size
  | .dimensional d => ∀ e ∈ d.bytes, pcBytesSerializedSize e < 2147483648
  | .lazperf _ => False

theorem PcPatchDimensional.Holds.size_le {d : PcPatchDimensional} {pts : List Bytes}
    (h : d.Holds P pts) : ∀ e ∈ d.bytes, e.size ≤ e.bytes.length := by
  intro e he
  obtain ⟨i, hi, rfl⟩ := List.mem_iff_getElem.mp he
  exact ((List.forall₂_iff_get.mp h.bytes_hold).2 i (h.bytes_hold.length_eq ▸ hi) hi).2.2.size_le

theorem length_segments (en : Endian) {pcbs : List PcBytes}
    (h : ∀ e ∈ pcbs, e.size ≤ e.bytes.length) :
    (pcbs.map (segment en)).flatten.length = (pcbs.map pcBytesSerializedSize).sum := by
  rw [List.length_flatten, List.map_map]
  congr 1
  exact List.map_congr_left fun e he => length_segment en (h e he)

/-- The memory of the writers: more than `2 ^ 63` bytes are not granted. -/
theorem pcalloc_bind_eq_ok {α : Type} {size : Nat} {f : Bytes → Run α} {r : α} :
    (pcalloc size >>= f) = .ok r ↔ size < 9223372036854775808 ∧ f (zeros size) = .ok r := by
  by_cases h : size < 9223372036854775808
  · rw [pcalloc_ok h, ok_bind, and_iff_right h]
  · rw [pcalloc, if_neg h, fault_bind]
    exact ⟨fun hr => absurd hr (fault_ne_ok r), fun hr => absurd hr.1 h⟩

theorem length_patchWkb_uncompressed {p : PcPatchUncompressed} {pts : List Bytes} (h : p.Holds pts)
    (hsized : p.datasize = p.npoints * p.schema.size) (en : Endian) :
    (patchWkb en (.uncompressed p)).length = 13 + p.datasize := by
  have hroom := h.room
  rw [patchWkb, List.length_append, length_wkbHead, PcPatch.payload, List.length_take,
    Nat.min_eq_left (by omega)]

theorem length_patchWkb_dimensional {d : PcPatchDimensional} {pts : List Bytes} (h : d.Holds P pts)
    (en : Endian) :
    (patchWkb en (.dimensional d)).length = 13 + pcPatchDimensionalSerializedSize d := by
  rw [patchWkb, List.length_append, length_wkbHead, PcPatch.payload, length_segments en h.size_le,
    pcPatchDimensionalSerializedSize]

/-- Writing gives the format and its length, wherever that can be allocated. -/
theorem pcPatchToWkb_eq_ok {p : PcPatch} {pts : List Bytes} (h : p.Holds P pts)
    (hsized : WkbSized p)
    {r : Bytes × Nat} :
    pcPatchToWkb P p = .ok r ↔ (patchWkb P.endian p).length < 9223372036854775808 ∧
      r = (patchWkb P.endian p, (patchWkb P.endian p).length) := by
  cases p with
  | uncompressed u =>
      have hroom := PcPatchUncompressed.Holds.room h
      have hsize : u.datasize = u.npoints * u.schema.size := hsized
      have hlen := length_patchWkb_uncompressed h hsized P.endian
      have hdata : readAt u.data.content 0 u.datasize = .ok (u.data.content.take u.datasize) := by
        rw [← Int.natCast_zero, readAt_ok (by omega), List.drop_zero]
      have hwrite : writeAt (wkbHead P.endian u.schema.pcid PcCompression.none.code u.npoints ++
          (zeros (13 + u.datasize)).drop 13) 13 (u.data.content.take u.datasize) =
          .ok (patchWkb P.endian (.uncompressed u)) := by
        rw [writeAt_append (by simp) (by simp), List.drop_eq_nil_of_le (by simp; omega),
          List.append_nil]
        rfl
      rw [hlen, pcPatchToWkb, pcPatchUncompressedToWkb,
        pcalloc_bind_eq_ok, writeWkbHead_ok _ _ _ (by simp), ok_bind, hdata, ok_bind]
      simp only [show 1 + 4 + 4 + 4 + u.datasize = 13 + u.datasize from by omega]
      rw [hwrite, ok_bind, pure_eq_ok, Except.ok.injEq, eq_comm (a := (_, _))]
  | dimensional d =>
      have hsize : ∀ e ∈ d.bytes, pcBytesSerializedSize e < 2147483648 := hsized
      have hlen := length_patchWkb_dimensional h P.endian
      have hwrite : serializeDimensions P.endian d.bytes
          (wkbHead P.endian d.schema.pcid PcCompression.dimensional.code d.npoints ++
            (zeros (13 + pcPatchDimensionalSerializedSize d)).drop 13)
          (wkbHead P.endian d.schema.pcid PcCompression.dimensional.code d.npoints).length =
          .ok (patchWkb P.endian (.dimensional d)) := by
        rw [serializeDimensions_ok P.endian
          (fun e he => ⟨PcPatchDimensional.Holds.size_le h e he, hsize e he⟩)
          (by simp [pcPatchDimensionalSerializedSize]),
          List.drop_eq_nil_of_le (by simp [pcPatchDimensionalSerializedSize]), List.append_nil]
        rfl
      rw [length_wkbHead] at hwrite
      rw [hlen, pcPatchToWkb, pcPatchDimensionalToWkb,
        pcalloc_bind_eq_ok, writeWkbHead_ok _ _ _ (by simp), ok_bind]
      simp only [show 1 + 4 + 4 + 4 + pcPatchDimensionalSerializedSize d =
        13 + pcPatchDimensionalSerializedSize d from by omega]
      rw [show ((13 : Nat) : Int) = 13 from rfl] at hwrite
      rw [hwrite, ok_bind, pure_eq_ok, Except.ok.injEq, eq_comm (a := (_, _))]
  | lazperf l => exact h.elim

/-! ## Reading

The reader of a dimension takes its segment from the front and leaves what follows, so
the segments are read one after the other by induction on the arrays. -/

/-- The segments are read back one behind the other. -/
theorem deserializeDimensions_ok (en : Endian) (npoints : Nat) (readonly : Bool) :
    ∀ {dims : List PcDimension} {pcbs : List PcBytes} {front rest : Bytes} {off : Nat},
      List.Forall₂ (fun (dim : PcDimension) (e : PcBytes) =>
        e.interpretation = dim.interpretation ∧ e.npoints = npoints ∧ e.size ≤ e.bytes.length ∧
          pcBytesSerializedSize e < 2147483648 ∧ ∀ code, e.compression ≠ .unknown code) dims pcbs →
      off = front.length →
      deserializeDimensions en (front ++ (pcbs.map (segment en)).flatten ++ rest) npoints readonly
        false dims off = .ok (pcbs.map fun e => e.trimmed readonly)
  | [], [], front, rest, off, .nil, _ => rfl
  | dim :: dims, e :: pcbs, front, rest, off, .cons h hs, hoff => by
      obtain ⟨hinterp, hnp, hsize, hlt, hc⟩ := h
      have hlen := length_segment en hsize
      have hhead : pcBytesDeserialize en (front ++ segment en e ++
          ((pcbs.map (segment en)).flatten ++ rest)) off dim readonly false = .ok _ :=
        pcBytesDeserialize_segment en hsize hlt hc hoff dim readonly
      have hrest : deserializeDimensions en (front ++ segment en e ++
          (pcbs.map (segment en)).flatten ++ rest) npoints readonly false dims
          (off + pcBytesSerializedSize e) = .ok _ :=
        deserializeDimensions_ok en npoints readonly hs (by rw [List.length_append, hlen, hoff])
      rw [← List.append_assoc] at hhead
      rw [List.map_cons, List.flatten_cons, ← List.append_assoc front, deserializeDimensions, hhead,
        ok_bind]
      have hoff' : pcBytesSerializedSize (e.reread dim readonly) = pcBytesSerializedSize e := rfl
      rw [hoff', hrest, ok_bind, ← hnp, reread_eq hinterp, pure_eq_ok, List.map_cons]

/-- The uncompressed patch that is read back, before its extent and statistics
are computed. -/
def PcPatchUncompressed.reread (p : PcPatchUncompressed) : PcPatchUncompressed where
  readonly := false
  schema := p.schema
  npoints := p.npoints
  bounds := ⟨0, 0, 0, 0⟩
  stats := none
  maxpoints := p.npoints
  datasize := p.datasize
  data := bufOf (p.data.content.take p.datasize)

/-- The dimensional patch that is read back, before its extent and statistics
are computed. -/
def PcPatchDimensional.reread (d : PcPatchDimensional) : PcPatchDimensional where
  readonly := false
  schema := d.schema
  npoints := d.npoints
  bounds := ⟨0, 0, 0, 0⟩
  stats := none
  bytes := d.bytes.map fun e => e.trimmed false

/-- It holds the same points. -/
theorem PcPatchUncompressed.Holds.reread {p : PcPatchUncompressed} {pts : List Bytes}
    (h : p.Holds pts) (hsize : p.datasize = p.npoints * p.schema.size) : p.reread.Holds pts := by
  have hroom := h.room
  refine ⟨h.npoints_lt, ?_, ?_⟩
  · simp only [PcPatchUncompressed.reread, content_bufOf, List.length_take]
    omega
  · simp only [PcPatchUncompressed.reread, content_bufOf]
    rw [records_take _ _ _ _ (Nat.le_of_eq hsize.symm), h.records_eq]

theorem PcPatchDimensional.Holds.reread {d : PcPatchDimensional} {pts : List Bytes}
    (h : d.Holds P pts) : d.reread.Holds P pts := by
  refine ⟨h.npoints_lt, h.npoints_eq, h.width_eq, ?_⟩
  rw [PcPatchDimensional.reread, List.forall₂_map_right_iff]
  exact h.bytes_hold.imp fun dim e he => ⟨he.1, he.2.1, he.2.2.trimmed false⟩

/-- The readers recover the patch from the format. -/
theorem pcPatchUncompressedFromWkb_ok {p : PcPatchUncompressed} {pts : List Bytes} (h : p.Holds pts)
    (hsize : p.datasize = p.npoints * p.schema.size)
    (hlt : (patchWkb P.endian (.uncompressed p)).length < 9223372036854775808) :
    pcPatchUncompressedFromWkb P p.schema (patchWkb P.endian (.uncompressed p))
      (patchWkb P.endian (.uncompressed p)).length = .ok p.reread := by
  have hroom := h.room
  have hlen := length_patchWkb_uncompressed h hsize P.endian
  have hdatasize : sizeT (((patchWkb P.endian (.uncompressed p)).length : Int) - 13) =
      p.datasize := by
    rw [hlen, show ((13 + p.datasize : Nat) : Int) - 13 = (p.datasize : Int) from by omega,
      sizeT_natCast (by omega)]
  have hread : readAt (patchWkb P.endian (.uncompressed p)) 13 (p.npoints * p.schema.size) =
      .ok (p.data.content.take p.datasize) := by
    rw [← List.append_nil (patchWkb P.endian (.uncompressed p)), patchWkb_uncompressed]
    exact readAt_append (by simp) (by rw [List.length_take]; omega)
  unfold pcPatchUncompressedFromWkb
  rw [hdatasize]
  rw [patchWkb_uncompressed] at hread ⊢
  rw [wkbIsSwapped_head, ok_bind, wkbGetCompression_head _ _ (by decide), ok_bind,
    wkbGetNpoints_head _ _ h.npoints_lt, ok_bind, if_neg (by simp),
    if_neg (by rw [hsize, Nat.mul_comm]; simp), if_neg (by simp), pcalloc_ok (by omega), ok_bind,
    hread, ok_bind, pure_eq_ok, PcPatchUncompressed.reread]

/-- The dimensions of a patch as the serialized form needs them. -/
theorem PcPatchDimensional.Holds.segments {d : PcPatchDimensional} {pts : List Bytes}
    (h : d.Holds P pts) (hlt : ∀ e ∈ d.bytes, pcBytesSerializedSize e < 2147483648) :
    List.Forall₂ (fun (dim : PcDimension) (e : PcBytes) =>
      e.interpretation = dim.interpretation ∧ e.npoints = d.npoints ∧ e.size ≤ e.bytes.length ∧
        pcBytesSerializedSize e < 2147483648 ∧ ∀ code, e.compression ≠ .unknown code)
      d.schema.dims d.bytes := by
  refine List.forall₂_iff_get.mpr ⟨h.bytes_hold.length_eq, fun i hi hi' => ?_⟩
  obtain ⟨hinterp, hnp, hstores⟩ := (List.forall₂_iff_get.mp h.bytes_hold).2 i hi hi'
  exact ⟨hinterp, hnp, hstores.size_le, hlt _ (List.get_mem _ _), hstores.compression_ne⟩

theorem pcPatchDimensionalFromWkb_ok {d : PcPatchDimensional} {pts : List Bytes}
    (h : d.Holds P pts) (hlt : ∀ e ∈ d.bytes, pcBytesSerializedSize e < 2147483648) :
    pcPatchDimensionalFromWkb P d.schema (patchWkb P.endian (.dimensional d)) = .ok d.reread := by
  have hdims : deserializeDimensions P.endian (wkbHead P.endian d.schema.pcid
      PcCompression.dimensional.code d.npoints ++ (d.bytes.map (segment P.endian)).flatten ++ [])
      d.npoints false false d.schema.dims 13 = .ok _ :=
    deserializeDimensions_ok P.endian d.npoints false (h.segments hlt) (by simp)
  rw [List.append_nil] at hdims
  unfold pcPatchDimensionalFromWkb
  rw [patchWkb_dimensional, wkbIsSwapped_head, ok_bind, wkbGetCompression_head _ _ (by decide),
    ok_bind, wkbGetNpoints_head _ _ h.npoints_lt, ok_bind, if_neg (by simp), hdims, ok_bind,
    pure_eq_ok, PcPatchDimensional.reread]

/-! ## The round trip

What is read back is not the same patch: its memory is its own, and its extent and
statistics have been computed. `SameWkb` compares what WKB carries. -/

/-- `q` agrees with `p` in what WKB carries: pcid, type, number of points, and
the bytes of the points, or the encoding, size and bytes of each dimension. -/
def SameWkb : PcPatch → PcPatch → Prop
  | .uncompressed p, .uncompressed q =>
      q.schema.pcid = p.schema.pcid ∧ q.npoints = p.npoints ∧ q.datasize = p.datasize ∧
        q.data.content = p.data.content.take p.datasize
  | .dimensional p, .dimensional q =>
      q.schema.pcid = p.schema.pcid ∧ q.npoints = p.npoints ∧
        List.Forall₂ (fun e e' : PcBytes =>
          e'.compression = e.compression ∧ e'.size = e.size ∧ e'.bytes = e.data) p.bytes q.bytes
  | _, _ => False

/-- The patch is written in the format, with its length, and read back. -/
def WkbRoundTrip (P : Platform) (p : PcPatch) : Prop :=
  ∃ q, pcPatchToWkb P p = .ok (patchWkb P.endian p, (patchWkb P.endian p).length) ∧
    pcPatchFromWkb P p.schema (patchWkb P.endian p) (patchWkb P.endian p).length = .ok q ∧
    SameWkb p q

/-- The point is written with its length, and read back. -/
def PointWkbRoundTrip (P : Platform) (pt : PcPoint) : Prop :=
  ∃ wkb q, pcPointToWkb P pt = .ok (wkb, wkb.length) ∧
    wkb = [machineEndian P.endian] ++ P.endian.bytesOf 4 pt.schema.pcid ++ pt.data ∧
    pcPointFromWkb P pt.schema wkb wkb.length = .ok q ∧ q.schema.pcid = pt.schema.pcid ∧
    q.data = pt.data

/-- The patches that can be read: the indices of the records are `int`s; so are
the offsets of the values of x and y, if these are not run-length encoded, and
the WKB and the records can be allocated. -/
def WkbReadable : PcPatch → Prop
  | .uncompressed p => p.npoints ≤ 2147483648
  | .dimensional d =>
      13 + pcPatchDimensionalSerializedSize d < 9223372036854775808 ∧
        d.schema.size * d.npoints < 9223372036854775808 ∧
        ∀ dim, (d.schema.xdimension = some dim ∨ d.schema.ydimension = some dim) →
          ∀ e, d.bytes[dim.position]? = some e →
            e.compression ≠ .rle → e.npoints * e.width ≤ 2147483648
  | .lazperf _ => False

theorem patchFromWkb_none (s : PcSchema) (wkb : Bytes) (wkbsize : Nat) :
    patchFromWkb P s wkb wkbsize PcCompression.none.code = (do
      let p ← pcPatchUncompressedFromWkb P s wkb wkbsize
      return .uncompressed p) := rfl

theorem patchFromWkb_dimensional (s : PcSchema) (wkb : Bytes) (wkbsize : Nat) :
    patchFromWkb P s wkb wkbsize PcCompression.dimensional.code = (do
      let p ← pcPatchDimensionalFromWkb P s wkb
      return .dimensional p) := rfl

/-- Behind the head the reader goes by the compression. -/
theorem pcPatchFromWkb_head (s : PcSchema) (compression npoints : Nat) (payload : Bytes)
    (hc : compression < 4294967296) :
    let wkb := wkbHead P.endian s.pcid compression npoints ++ payload
    pcPatchFromWkb P s wkb wkb.length = (do
      let patch ← patchFromWkb P s wkb wkb.length compression
      let patch ← pcPatchComputeExtent P patch
      pcPatchComputeStats P patch) := by
  intro wkb
  have hne : wkb.length ≠ 0 := by
    simp only [wkb, List.length_append, length_wkbHead]
    omega
  rw [pcPatchFromWkb, if_neg hne, pcWkbGetPcid_head _ _ s.pcid_lt, ok_bind,
    wkbGetCompression_head _ _ hc, ok_bind, if_neg (by simp)]

theorem pcPatchFromWkb_uncompressed {p : PcPatchUncompressed} {pts : List Bytes} (h : p.Holds pts)
    (hsize : p.datasize = p.npoints * p.schema.size)
    (hlt : (patchWkb P.endian (.uncompressed p)).length < 9223372036854775808) :
    pcPatchFromWkb P p.schema (patchWkb P.endian (.uncompressed p))
      (patchWkb P.endian (.uncompressed p)).length = (do
        let patch ← pcPatchComputeExtent P (.uncompressed p.reread)
        pcPatchComputeStats P patch) := by
  have hread := pcPatchUncompressedFromWkb_ok h hsize hlt
  rw [patchWkb_uncompressed] at hread ⊢
  rw [pcPatchFromWkb_head _ _ _ _ (by decide), patchFromWkb_none, hread, ok_bind, pure_eq_ok,
    ok_bind]

theorem pcPatchFromWkb_dimensional {d : PcPatchDimensional} {pts : List Bytes} (h : d.Holds P pts)
    (hsized : ∀ e ∈ d.bytes, pcBytesSerializedSize e < 2147483648) :
    pcPatchFromWkb P d.schema (patchWkb P.endian (.dimensional d))
      (patchWkb P.endian (.dimensional d)).length = (do
        let patch ← pcPatchComputeExtent P (.dimensional d.reread)
        pcPatchComputeStats P patch) := by
  have hread := pcPatchDimensionalFromWkb_ok h hsized
  rw [patchWkb_dimensional] at hread ⊢
  rw [pcPatchFromWkb_head _ _ _ _ (by decide), patchFromWkb_dimensional, hread, ok_bind,
    pure_eq_ok, ok_bind]

/-- Points come back from their WKB. -/
theorem pcPoint_wkbRoundTrip (P : Platform) (pt : PcPoint) : PointWkbRoundTrip P pt := by
  have hsize := pt.schema.size_lt
  have hdata := pt.length_eq
  have hlen : ([machineEndian P.endian] ++ P.endian.bytesOf 4 pt.schema.pcid ++ pt.data).length =
      1 + 4 + pt.schema.size := by
    simp only [List.length_append, List.length_singleton, Endian.length_bytesOf, hdata]
  refine ⟨_, ⟨false, pt.schema, pt.data, hdata⟩, ?_, rfl, ?_, rfl, rfl⟩
  · have h₁ : writeAt ([] ++ zeros (1 + 4 + pt.schema.size)) 0 [machineEndian P.endian] = .ok _ :=
      writeAt_append rfl (by rw [List.length_singleton, length_zeros]; omega)
    have h₂ : writeAt ([] ++ [machineEndian P.endian] ++ (zeros (1 + 4 + pt.schema.size)).drop 1) 1
        (P.endian.bytesOf 4 pt.schema.pcid) = .ok _ :=
      writeAt_append rfl (by rw [Endian.length_bytesOf, List.length_drop, length_zeros]; omega)
    have h₃ : writeAt ([] ++ [machineEndian P.endian] ++ P.endian.bytesOf 4 pt.schema.pcid ++
        ((zeros (1 + 4 + pt.schema.size)).drop 1).drop 4) 5 pt.data = .ok _ :=
      writeAt_append (by simp) (by simp only [hdata, List.length_drop, length_zeros]; omega)
    have hread : readAt pt.data 0 pt.schema.size = .ok pt.data := by
      rw [← Int.natCast_zero, readAt_ok (by omega), List.drop_zero, ← hdata, List.take_length]
    rw [List.nil_append, List.length_singleton] at h₁
    rw [Endian.length_bytesOf] at h₂
    have hall : (((zeros (1 + 4 + pt.schema.size)).drop 1).drop 4).drop pt.data.length = [] :=
      List.drop_eq_nil_of_le (by simp only [hdata, List.length_drop, length_zeros]; omega)
    rw [hall, List.append_nil] at h₃
    rw [pcPointToWkb, pcalloc_ok (by omega), ok_bind, h₁, ok_bind, h₂, ok_bind, hread, ok_bind, h₃,
      ok_bind, pure_eq_ok, hlen]
    rfl
  · have hflag : wkbIsSwapped P.endian ([machineEndian P.endian] ++
        P.endian.bytesOf 4 pt.schema.pcid ++ pt.data) = .ok false := by
      have hread : readAt ([] ++ [machineEndian P.endian] ++ (P.endian.bytesOf 4 pt.schema.pcid ++
          pt.data)) 0 1 = .ok _ := readAt_append rfl rfl
      rw [List.nil_append, ← List.append_assoc] at hread
      rw [wkbIsSwapped, hread, ok_bind]
      simp
    have hrest : sizeT ((1 + 4 + pt.schema.size : Nat) - 5) = pt.schema.size := by
      rw [show ((1 + 4 + pt.schema.size : Nat) : Int) - 5 = (pt.schema.size : Int) from by omega,
        sizeT_natCast (by omega)]
    have hread : readAt ([machineEndian P.endian] ++ P.endian.bytesOf 4 pt.schema.pcid ++ pt.data ++
        []) 5 pt.schema.size = .ok pt.data := readAt_append (by simp) hdata.symm
    rw [List.append_nil] at hread
    rw [hlen, pcPointFromWkb, if_neg (by omega), hflag, ok_bind, hrest, if_neg (by simp),
      if_neg (by simp), pcalloc_ok (by omega), ok_bind, hread, ok_bind, pcPointOf_ok _ hdata]

/-- An uncompressed patch comes back when the indices of its records are `int`s. -/
theorem wkbRoundTrip_uncompressed_iff {p : PcPatchUncompressed} {pts : List Bytes}
    (hvalid : p.schema.Valid) (h : p.Holds pts) (hsize : p.datasize = p.npoints * p.schema.size) :
    WkbRoundTrip P (.uncompressed p) ↔ p.npoints ≤ 2147483648 := by
  have hheld : PcPatch.Holds P (.uncompressed p) pts := h
  have hlen := length_patchWkb_uncompressed h hsize P.endian
  have hextent := pcPatchUncompressedComputeExtent_isOk_iff P.endian (p := p.reread) hvalid
    (h.reread hsize).room
  constructor
  · rintro ⟨q, hwrite, hread, -⟩
    have hlt := ((pcPatchToWkb_eq_ok hheld hsize).mp hwrite).1
    rw [show (PcPatch.uncompressed p).schema = p.schema from rfl,
      pcPatchFromWkb_uncompressed h hsize hlt] at hread
    obtain ⟨patch, hpatch, -⟩ := bind_eq_ok.mp hread
    obtain ⟨q', hq', -⟩ := bind_eq_ok.mp hpatch
    exact hextent.mp ⟨q', hq'⟩
  · intro hint
    have hlt : (patchWkb P.endian (.uncompressed p)).length < 9223372036854775808 := by
      have := Nat.mul_le_mul hint (Nat.le_of_lt_succ p.schema.size_lt)
      omega
    obtain ⟨q, hq⟩ := hextent.mpr hint
    have hq' := pcPatchUncompressedComputeExtent_eq hq
    have hroom : q.npoints * q.schema.size ≤ q.data.content.length := by
      rw [hq']
      exact (h.reread hsize).room
    obtain ⟨stats, hstats, -⟩ := pcPatchUncompressedComputeStats_ok P hroom
    refine ⟨.uncompressed { q with stats := some stats },
      (pcPatchToWkb_eq_ok hheld hsize).mpr ⟨hlt, rfl⟩, ?_, ?_⟩
    · rw [show (PcPatch.uncompressed p).schema = p.schema from rfl,
        pcPatchFromWkb_uncompressed h hsize hlt, pcPatchComputeExtent, hq, ok_bind, pure_eq_ok,
        ok_bind, pcPatchComputeStats, hstats, ok_bind, pure_eq_ok]
    · rw [hq']
      exact ⟨rfl, rfl, rfl, content_bufOf _⟩

/-- A dimensional patch comes back when the extremes of x and y are found, and
the memory for the WKB and for the records is granted. -/
theorem wkbRoundTrip_dimensional_iff {d : PcPatchDimensional} {pts : List Bytes}
    (hvalid : d.schema.Valid) (h : d.Holds P pts)
    (hsized : ∀ e ∈ d.bytes, pcBytesSerializedSize e < 2147483648) :
    WkbRoundTrip P (.dimensional d) ↔ WkbReadable (.dimensional d) := by
  have hheld : PcPatch.Holds P (.dimensional d) pts := h
  have hlen := length_patchWkb_dimensional h P.endian
  have hread := pcPatchFromWkb_dimensional h hsized
  have hextent : (∃ q, pcPatchDimensionalComputeExtent P d.reread = .ok q) ↔
      ∀ dim, (d.schema.xdimension = some dim ∨ d.schema.ydimension = some dim) →
        ∀ e, d.bytes[dim.position]? = some e →
          e.compression ≠ .rle → e.npoints * e.width ≤ 2147483648 := by
    rw [pcPatchDimensionalComputeExtent_isOk_iff (d := d.reread) hvalid h.reread]
    refine forall_congr' fun dim => forall_congr' fun _ => ?_
    simp only [PcPatchDimensional.reread, List.getElem?_map, Option.map_eq_some_iff]
    constructor
    · intro hall e he
      exact hall (e.trimmed false) ⟨e, he, rfl⟩
    · rintro hall _ ⟨e, he, rfl⟩
      exact hall e he
  have hstats : ∀ q, pcPatchDimensionalComputeExtent P d.reread = .ok q →
      ((∃ r, pcPatchComputeStats P (.dimensional q) = .ok r) ↔
        d.schema.size * d.npoints < 9223372036854775808) := by
    intro q hq
    have hq' := pcPatchDimensionalComputeExtent_eq hq
    have hholds : q.Holds P pts := by
      rw [hq']
      exact ⟨h.reread.npoints_lt, h.reread.npoints_eq, h.reread.width_eq, h.reread.bytes_hold⟩
    rw [pcPatchComputeStats_dimensional hholds, hq']
    rfl
  rw [WkbReadable, ← hextent, ← hlen]
  constructor
  · rintro ⟨r, hwrite, hr, -⟩
    rw [show (PcPatch.dimensional d).schema = d.schema from rfl, hread, pcPatchComputeExtent] at hr
    obtain ⟨patch, hpatch, hr⟩ := bind_eq_ok.mp hr
    obtain ⟨q, hq, hpatch⟩ := bind_eq_ok.mp hpatch
    rw [pure_eq_ok, Except.ok.injEq] at hpatch
    rw [← hpatch] at hr
    exact ⟨((pcPatchToWkb_eq_ok hheld hsized).mp hwrite).1, (hstats q hq).mp ⟨r, hr⟩, ⟨q, hq⟩⟩
  · rintro ⟨hlt, hsize, ⟨q, hq⟩⟩
    obtain ⟨r, hr⟩ := (hstats q hq).mpr hsize
    refine ⟨r, (pcPatchToWkb_eq_ok hheld hsized).mpr ⟨hlt, rfl⟩, ?_, ?_⟩
    · rw [show (PcPatch.dimensional d).schema = d.schema from rfl, hread, pcPatchComputeExtent, hq,
        ok_bind, pure_eq_ok, ok_bind, hr]
    · obtain ⟨stats, rfl⟩ := pcPatchComputeStats_dimensional_eq hr
      rw [pcPatchDimensionalComputeExtent_eq hq]
      refine ⟨rfl, rfl, ?_⟩
      rw [PcPatchDimensional.reread, List.forall₂_map_right_iff, List.forall₂_same]
      exact fun e _ => ⟨rfl, rfl, rfl⟩

/-- Every point, and exactly the patches of `WkbReadable`, come back from the
WKB that the same machine has written. -/
theorem pcWkb_roundTrip_iff (P : Platform) :
    (∀ pt : PcPoint, pt.schema.Valid → PointWkbRoundTrip P pt) ∧
    ∀ (p : PcPatch) (pts : List Bytes), p.schema.Valid → p.Holds P pts → WkbSized p →
      (WkbRoundTrip P p ↔ WkbReadable p) := by
  refine ⟨fun pt _ => pcPoint_wkbRoundTrip P pt, fun p pts hvalid h hsized => ?_⟩
  cases p with
  | uncompressed u => exact wkbRoundTrip_uncompressed_iff hvalid h hsized
  | dimensional d => exact wkbRoundTrip_dimensional_iff hvalid h hsized
  | lazperf l => exact h.elim

/-- A point, two points one after the other, and a patch with a packed x. -/
theorem pcWkb_roundTrip_iff_witness :
    PointWkbRoundTrip Platform.plain ⟨false, pairPatch.schema, [1, 2], by decide⟩ ∧
    WkbRoundTrip Platform.plain (.uncompressed pairPatch) ∧
    WkbRoundTrip Platform.plain (.dimensional packedPatch) := by
  refine ⟨(pcWkb_roundTrip_iff Platform.plain).1 _ ⟨rfl, rfl⟩, ?_, ?_⟩
  · have hpair : PcPatchUncompressed.Holds pairPatch [[1, 2], [3, 4]] :=
      ⟨by decide, by decide, by decide⟩
    exact ((pcWkb_roundTrip_iff Platform.plain).2 (.uncompressed pairPatch) _ ⟨rfl, rfl⟩ hpair
      rfl).mpr (show pairPatch.npoints ≤ 2147483648 by decide)
  · have hsized : WkbSized (.dimensional packedPatch) :=
      show ∀ e ∈ packedPatch.bytes, pcBytesSerializedSize e < 2147483648 by decide
    have hsmall : ∀ e ∈ packedPatch.bytes, e.npoints * e.width ≤ 2147483648 := by decide
    refine ((pcWkb_roundTrip_iff Platform.plain).2 (.dimensional packedPatch) _ ⟨rfl, rfl⟩
      packedPatch_holds hsized).mpr ⟨by decide, by decide, fun dim _ e he _ => ?_⟩
    exact hsmall e (List.mem_of_getElem? he)

/-- A patch of `2 ^ 31 + 1` points. -/
def hugePatch : PcPatchUncompressed where
  readonly := false
  schema := xySchema .uint8 .uint8 uint8_known uint8_known 1 .none
  npoints := 2147483649
  bounds := ⟨0, 0, 0, 0⟩
  stats := none
  maxpoints := 2147483649
  datasize := 2147483649 * 2
  data := some (zeros (2147483649 * 2))

/-- Its index turns negative in front of the last point. -/
theorem pcWkb_roundTrip_fails :
    hugePatch.schema.Valid ∧
    hugePatch.Holds (records 2 2147483649 (zeros (2147483649 * 2))) ∧
    hugePatch.datasize = hugePatch.npoints * hugePatch.schema.size ∧
    ¬ WkbRoundTrip Platform.plain (.uncompressed hugePatch) := by
  have hholds : hugePatch.Holds (records 2 2147483649 (zeros (2147483649 * 2))) := by
    refine ⟨by decide, ?_, rfl⟩
    rw [show hugePatch.data.content = zeros (2147483649 * 2) from rfl, length_zeros]
    decide
  refine ⟨⟨rfl, rfl⟩, hholds, rfl, ?_⟩
  rw [wkbRoundTrip_uncompressed_iff ⟨rfl, rfl⟩ hholds rfl]
  decide

end Pointcloud
