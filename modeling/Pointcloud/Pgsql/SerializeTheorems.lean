/-
Pointcloud.Pgsql.SerializeTheorems — patches come back from the disk.

A patch in the compression of its schema is written as the bytes of its
statistics and its payload (`serialized`), the payload being the one of WKB,
and is read back as it was (`deserialize_serialized`). Another patch is
compressed first; `pcPatchSerialize_roundTrip_iff` says when that goes well.

The proof has three parts.

* Without any compression the two directions are inverse: the writers fill a block
  of known size from the front (`serializeByType_ok`), and the readers take the same
  pieces from the front again. Fifteen bytes at the end are allocated and never
  written: the data begins 48 bytes into the structure, but the sizes count the
  structure as 64 bytes, the next multiple of 32, less one for the first byte of the
  data. `serialized` has the fifteen bytes as zeros.
* What is written for a patch is described by `Written`: the patch in the
  compression of the schema, with the same points and summary. There is one lemma for
  each way to get there: as it is, uncompressed, or encoded.
* Encoding is the only way that can fail. `EncodesDims` is the condition, and
  `encodes_of_compress` shows that it is necessary: an encoder that returns has met it.

The side conditions come from PostgreSQL. It allocates no object of `2 ^ 30` bytes or
more (`BelowGigabyte`), and below that size the word of the length, which keeps two bits
for itself, is read back as it was stored. The same bound keeps the 32-bit offsets of the
encoders from wrapping around, so that nothing else has to be asked of the records.
-/
import Pointcloud.Patch.CompressTheorems
import Pointcloud.Patch.StoredStatsTheorems
import Pointcloud.Patch.WkbTheorems
import Pointcloud.Pgsql.Serialize

namespace Pointcloud

open Pointcloud.Base

variable {P : Platform}

/-! ## The statistics

Least, greatest and average point stand one after the other at the front of the data. -/

/-- The points of the statistics have the size of the points of a schema. This is less than
`StatsOver`, which says that the schema is theirs: what is stored depends on the bytes only,
and a schema swapped under a patch leaves the points of the statistics with the old one. -/
structure StatsWidth (s : PcSchema) (st : PcStats) : Prop where
  min : st.min.data.length = s.size
  max : st.max.data.length = s.size
  avg : st.avg.data.length = s.size

/-- Points over the schema have its size. -/
theorem StatsOver.width {s : PcSchema} {st : PcStats} (h : StatsOver s st) : StatsWidth s st := by
  obtain ⟨hmin, hmax, havg⟩ := h
  exact ⟨by rw [st.min.length_eq, hmin], by rw [st.max.length_eq, hmax],
    by rw [st.avg.length_eq, havg]⟩

/-- The bytes of the statistics. -/
def statsBytes (st : PcStats) : Bytes := st.min.data ++ st.max.data ++ st.avg.data

/-- Three points, as many bytes as the size of a patch counts for statistics. -/
theorem StatsWidth.length_statsBytes {s : PcSchema} {st : PcStats} (h : StatsWidth s st) :
    (statsBytes st).length = pcStatsSize s := by
  simp only [statsBytes, List.length_append, h.min, h.max, h.avg, pcStatsSize]
  omega

section Stats

variable {s : PcSchema} {st : PcStats} (h : StatsWidth s st)

include h

/-- The statistics take the front of a block, and what is behind them stays. -/
theorem pcPatchStatsSerialize_ok {block : Bytes} (hroom : pcStatsSize s ≤ block.length) :
    pcPatchStatsSerialize block s st = .ok (statsBytes st ++ block.drop (pcStatsSize s)) := by
  unfold pcStatsSize at hroom ⊢
  have hread : ∀ data : Bytes, data.length = s.size → readAt data 0 s.size = .ok data := by
    intro data hlen
    rw [← Int.natCast_zero, readAt_ok (by omega), List.drop_zero, ← hlen, List.take_length]
  -- each point is written behind the ones in front of it
  have h₁ : writeAt ([] ++ block) 0 st.min.data = .ok _ := writeAt_append rfl (by rw [h.min]; omega)
  have h₂ : writeAt ([] ++ st.min.data ++ block.drop st.min.data.length) s.size st.max.data =
      .ok _ := writeAt_append (by simp [h.min]) (by rw [List.length_drop, h.min, h.max]; omega)
  have h₃ : writeAt ([] ++ st.min.data ++ st.max.data ++
      (block.drop st.min.data.length).drop st.max.data.length) (2 * s.size : Nat) st.avg.data =
      .ok _ :=
    writeAt_append (by simp only [List.nil_append, List.length_append, h.min, h.max]; omega)
      (by simp only [List.length_drop, h.min, h.max, h.avg]; omega)
  -- the three writes, one behind the other, leave the block behind the third point
  rw [List.nil_append] at h₁
  rw [pcPatchStatsSerialize, hread _ h.min, ok_bind, h₁, ok_bind, hread _ h.max, ok_bind,
    h₂, ok_bind,
    hread _ h.avg, ok_bind, h₃, List.drop_drop, List.drop_drop, h.min, h.max, h.avg, statsBytes,
    List.nil_append, show s.size + (s.size + s.size) = 3 * s.size from by omega]

/-- The statistics are read back, as points of the schema. -/
theorem pcPatchStatsDeserialize_ok (rest : Bytes) :
    ∃ st', pcPatchStatsDeserialize s (statsBytes st ++ rest) = .ok st' ∧ StatsOver s st' ∧
      st'.min.data = st.min.data ∧ st'.max.data = st.max.data ∧ st'.avg.data = st.avg.data := by
  -- a point between what was read and what is left
  have hread : ∀ (front data back : Bytes), data.length = s.size → ∀ off : Int,
      off = front.length → ∃ pt, pcPointFromData s (front ++ data ++ back) off = .ok pt ∧
        pt.schema = s ∧ pt.data = data := by
    intro front data back hlen off hoff
    rw [pcPointFromData, readAt_append hoff hlen.symm, ok_bind, pcPointOf_ok true hlen]
    exact ⟨_, rfl, rfl, rfl⟩
  -- each of the three stands behind the ones in front of it
  obtain ⟨min, hmin, hmins, hmind⟩ := hread [] st.min.data
    (st.max.data ++ st.avg.data ++ rest) h.min
    0 rfl
  obtain ⟨max, hmax, hmaxs, hmaxd⟩ := hread st.min.data st.max.data (st.avg.data ++ rest) h.max
    s.size (by rw [h.min])
  obtain ⟨avg, havg, havgs, havgd⟩ := hread (st.min.data ++ st.max.data) st.avg.data rest h.avg
    (2 * s.size : Nat) (by rw [List.length_append, h.min, h.max]; omega)
  simp only [List.nil_append, ← List.append_assoc] at hmin hmax havg
  refine ⟨⟨min, max, avg⟩, ?_, ⟨hmins, hmaxs, havgs⟩, hmind, hmaxd, havgd⟩
  rw [pcPatchStatsDeserialize, statsBytes, hmin, ok_bind, hmax, ok_bind, havg, ok_bind, pure_eq_ok]

end Stats

/-! ## A patch in the compression of its schema

Three writers share one frame (`serializeWith`): memory of the counted size is cleared, the head
is filled in, the statistics are put at the front of the data, and the payload behind them. So
the frame is compared with `serialized` once, for whatever puts the payload. -/

/-- What is stored for a patch. Fifteen bytes of the memory stay unused. The bounds stand in
the head, where they are read without the data; the type is that of the patch, which need not
be the compression of its schema. -/
def serialized (en : Endian) (p : PcPatch) (st : PcStats) : SerializedPatch where
  size := setVarsize en (pcPatchSerializedSize p)
  pcid := p.schema.pcid
  compression := p.type.code
  npoints := p.npoints
  bounds := p.bounds
  data := statsBytes st ++ p.payload en ++ zeros 15

/-- The size is that of the statistics and the payload, and 63: the structure as 64 bytes,
less the one byte of data that is counted in it. -/
theorem pcPatchSerializedSize_eq {p : PcPatch} {pts : List Bytes} (h : p.Holds P pts)
    (hsized : WkbSized p) (en : Endian) :
    pcPatchSerializedSize p = 63 + pcStatsSize p.schema + (p.payload en).length := by
  cases p with
  | uncompressed u =>
      have hsize : u.datasize = u.npoints * u.schema.size := hsized
      have hroom := PcPatchUncompressed.Holds.room h
      have hlen : (u.data.content.take u.datasize).length = u.datasize := by
        rw [List.length_take, Nat.min_eq_left (by omega)]
      rw [PcPatch.payload, hlen]
      rfl
  | dimensional d =>
      rw [PcPatch.payload, length_segments en (PcPatchDimensional.Holds.size_le h)]
      rfl
  | lazperf l => exact h.elim

section Same

variable {p : PcPatch} {pts : List Bytes} (h : p.Holds P pts) {st : PcStats}
  (hst : p.stats = some st) (hwidth : StatsWidth p.schema st)
  (hlt : pcPatchSerializedSize p < 1073741824)

include h hst hwidth hlt

/-- The writers fill the memory they ask for up to the last fifteen bytes. -/
theorem serializeByType_ok (hsized : WkbSized p) :
    serializeByType P p = .ok (serialized P.endian p st) := by
  have hsize := pcPatchSerializedSize_eq h hsized P.endian
  have hhead := hwidth.length_statsBytes
  have hblock : ((zeros (pcPatchSerializedSize p)).drop offsetofData).length =
      15 + pcStatsSize p.schema + (p.payload P.endian).length := by
    rw [List.length_drop, length_zeros, hsize, offsetofData]
    omega
  have hzeros : ∀ n m, (zeros n).drop m = zeros (n - m) := fun n m => List.drop_replicate
  have hstats : pcPatchStatsSerialize ((zeros (pcPatchSerializedSize p)).drop offsetofData) p.schema
      st = .ok _ := pcPatchStatsSerialize_ok hwidth (by omega)
  -- what the statistics leave is zeros, the payload and the unused bytes
  have hrest : ((zeros (pcPatchSerializedSize p)).drop offsetofData).drop (pcStatsSize p.schema) =
      zeros (15 + (p.payload P.endian).length) := by
    rw [hzeros, hzeros]
    congr 1
    rw [hsize, offsetofData]
    omega
  rw [hrest] at hstats
  -- all writers differ only in what they put behind the statistics
  have hput : ∀ (func : String) (put : Bytes → Nat → Run Bytes),
      put (statsBytes st ++ zeros (15 + (p.payload P.endian).length)) (pcStatsSize p.schema) =
        .ok (statsBytes st ++ p.payload P.endian ++ zeros 15) →
      serializeWith P func p put = .ok (serialized P.endian p st) := by
    intro func put hput
    unfold serializeWith
    simp only [pcalloc_ok (show pcPatchSerializedSize p < 9223372036854775808 by omega),
      ok_bind, hst, hstats, hput, pure_eq_ok]
    rfl
  cases p with
  | uncompressed u =>
      have hdata : u.datasize = u.npoints * u.schema.size := hsized
      have hroom := PcPatchUncompressed.Holds.room h
      have hread : readAt u.data.content 0 u.datasize = .ok (u.data.content.take u.datasize) := by
        rw [← Int.natCast_zero, readAt_ok (by omega), List.drop_zero]
      rw [serializeByType, pcPatchUncompressedSerialize]
      refine hput _ _ ?_
      simp only [hread, ok_bind]
      rw [writeAt_append (by rw [hhead]) (by rw [length_zeros, PcPatch.payload]; omega), hzeros,
        PcPatch.payload, Nat.add_sub_cancel]
  | dimensional d =>
      have hsegments : ∀ e ∈ d.bytes, pcBytesSerializedSize e < 2147483648 := hsized
      have hlen := length_segments P.endian (PcPatchDimensional.Holds.size_le h)
      rw [serializeByType, pcPatchDimensionalSerialize]
      refine hput _ _ ?_
      rw [← hhead, serializeDimensions_ok P.endian
        (fun e he => ⟨PcPatchDimensional.Holds.size_le h e he, hsegments e he⟩)
        (by rw [length_zeros, PcPatch.payload, hlen]; omega), PcPatch.payload, hzeros, hlen,
        Nat.add_sub_cancel]
  | lazperf l => exact h.elim

end Same

/-- The patch `q` is the patch `p` with the points `pts`. Not all of `p` comes back: `q` is
read only, its block begins inside what was read, and its arrays are trimmed to the bytes that
were written. What is said of the statistics is their bytes, for their points are made anew. -/
structure Restores (P : Platform) (p : PcPatch) (pts : List Bytes) (q : PcPatch) : Prop where
  schema_eq : q.schema = p.schema
  npoints_eq : q.npoints = p.npoints
  bounds_eq : q.bounds = p.bounds
  stats_eq : ∃ st st', p.stats = some st ∧ q.stats = some st' ∧ st'.min.data = st.min.data ∧
    st'.max.data = st.max.data ∧ st'.avg.data = st.avg.data
  holds : q.Holds P pts

section Read

variable {pts : List Bytes} {st : PcStats}

/-- Records are read back. Their size is not stored: it is what the length leaves behind the
statistics, and the reader compares it with the number of points. -/
theorem deserialize_uncompressed {u : PcPatchUncompressed} (h : u.Holds pts)
    (hst : u.stats = some st) (hwidth : StatsWidth u.schema st)
    (hsized : u.datasize = u.npoints * u.schema.size)
    (hlt : pcPatchSerializedSize (.uncompressed u) < 1073741824) :
    ∃ q, pcPatchDeserialize P (serialized P.endian (.uncompressed u) st) u.schema = .ok q ∧
      q.type = .none ∧ Restores P (.uncompressed u) pts q := by
  have hroom := h.room
  have hhead := hwidth.length_statsBytes
  obtain ⟨payload, hpayload⟩ : ∃ payload, payload = u.data.content.take u.datasize := ⟨_, rfl⟩
  have hlen : payload.length = u.datasize := by
    rw [hpayload, List.length_take, Nat.min_eq_left (by omega)]
  have hdata : (serialized P.endian (.uncompressed u) st).data =
    statsBytes st ++ (payload ++ zeros 15) := by
    rw [hpayload, ← List.append_assoc]
    rfl
  obtain ⟨st', hread, -, hmin, hmax, havg⟩ :=
    pcPatchStatsDeserialize_ok hwidth (payload ++ zeros 15)
  -- reading subtracts what writing has added: the aligned structure less one byte
  have hdatasize : sizeT ((varsize P.endian (serialized P.endian (.uncompressed u) st).size : Int) -
      bufferAlign sizeofSerializedPatch + 1 - pcStatsSize u.schema) = u.datasize := by
    have hvalue : ((63 + pcStatsSize u.schema + u.datasize : Nat) : Int) - (64 : Nat) + 1 -
        pcStatsSize u.schema = (u.datasize : Nat) := by omega
    rw [serialized, varsize_setVarsize P.endian hlt]
    refine (congrArg sizeT hvalue).trans (sizeT_natCast ?_)
    exact Nat.lt_of_le_of_lt (Nat.le_add_left _ (63 + pcStatsSize u.schema))
      (Nat.lt_trans hlt (by decide))
  -- so the number of points in the head agrees with the size, and the reader goes on
  have hok : pcPatchUncompressedDeserialize P (serialized P.endian (.uncompressed u) st) u.schema =
      .ok { readonly := true, schema := u.schema, npoints := u.npoints, bounds := u.bounds,
            stats := some st', maxpoints := 0, datasize := u.datasize,
            data := some (payload ++ zeros 15) } := by
    unfold pcPatchUncompressedDeserialize
    simp only [hdata, hread, ok_bind, hdatasize, List.drop_left' hhead]
    exact if_neg (not_not.mpr hsized)
  have hdes : pcPatchDeserialize P (serialized P.endian (.uncompressed u) st) u.schema = (do
      let q ← pcPatchUncompressedDeserialize P (serialized P.endian (.uncompressed u) st) u.schema
      return .uncompressed q) := rfl
  rw [hok, ok_bind, pure_eq_ok] at hdes
  refine ⟨_, hdes, rfl, rfl, rfl, rfl, ⟨st, st', hst, rfl, hmin, hmax, havg⟩, h.npoints_lt, ?_, ?_⟩
  · simp only [Buf.content_some, List.length_append, hlen]
    omega
  · simp only [Buf.content_some]
    rw [← records_take _ _ _ _ (Nat.le_of_eq hsized.symm), List.take_left' hlen, hpayload,
      records_take _ _ _ _ (Nat.le_of_eq hsized.symm), h.records_eq]

/-- A dimensional patch is read back by any schema with its dimensions. The schema need not be
that of the patch: `PC_Compress` stores under a copy, and the reader looks the original up. -/
theorem read_dimensional {d : PcPatchDimensional} (h : d.Holds P pts) {s : PcSchema}
    (hdims : s.dims = d.schema.dims) (hwidth : StatsWidth s st)
    (hsized : ∀ e ∈ d.bytes, pcBytesSerializedSize e < 2147483648) :
    ∃ st', st'.min.data = st.min.data ∧ st'.max.data = st.max.data ∧ st'.avg.data = st.avg.data ∧
      pcPatchDeserialize P (serialized P.endian (.dimensional d) st) s =
        .ok (.dimensional {
          readonly := true, schema := s, npoints := d.npoints, bounds := d.bounds,
          stats := some st', bytes := d.bytes.map fun e => e.trimmed true }) := by
  obtain ⟨st', hread, -, hmin, hmax, havg⟩ := pcPatchStatsDeserialize_ok hwidth
    ((d.bytes.map (segment P.endian)).flatten ++ zeros 15)
  rw [← List.append_assoc] at hread
  -- each array was written as a segment that the reader can step over
  have hall : List.Forall₂ (fun (dim : PcDimension) (e : PcBytes) =>
      e.interpretation = dim.interpretation ∧ e.npoints = d.npoints ∧
        e.size ≤ e.bytes.length ∧ pcBytesSerializedSize e < 2147483648 ∧
        ∀ code, e.compression ≠ .unknown code) d.schema.dims d.bytes := by
    refine List.forall₂_iff_get.mpr ⟨h.bytes_hold.length_eq, fun i hi hi' => ?_⟩
    obtain ⟨hinterp, hnp, hstores⟩ := (List.forall₂_iff_get.mp h.bytes_hold).2 i hi hi'
    exact ⟨hinterp, hnp, hstores.size_le, hsized _ (List.getElem_mem hi'), hstores.compression_ne⟩
  rw [← hdims] at hall
  have hsegments : deserializeDimensions P.endian (statsBytes st ++
      (d.bytes.map (segment P.endian)).flatten ++ zeros 15) d.npoints true false s.dims
      (pcStatsSize s) = .ok _ :=
    deserializeDimensions_ok P.endian d.npoints true hall hwidth.length_statsBytes.symm
  have hok : pcPatchDimensionalDeserialize P (serialized P.endian (.dimensional d) st) s =
      .ok { readonly := true, schema := s, npoints := d.npoints, bounds := d.bounds,
            stats := some st', bytes := d.bytes.map fun e => e.trimmed true } := by
    unfold pcPatchDimensionalDeserialize
    change (do
      let stats ← pcPatchStatsDeserialize s (statsBytes st ++
        (d.bytes.map (segment P.endian)).flatten ++ zeros 15)
      let bytes ← deserializeDimensions P.endian (statsBytes st ++
        (d.bytes.map (segment P.endian)).flatten ++ zeros 15) d.npoints true false s.dims
        (pcStatsSize s)
      return PcPatchDimensional.mk true s d.npoints d.bounds (some stats) bytes) = _
    rw [hread, ok_bind, hsegments, ok_bind, pure_eq_ok]
  have hdes : pcPatchDeserialize P (serialized P.endian (.dimensional d) st) s = (do
      let q ← pcPatchDimensionalDeserialize P (serialized P.endian (.dimensional d) st) s
      return .dimensional q) := rfl
  rw [hok, ok_bind, pure_eq_ok] at hdes
  exact ⟨st', hmin, hmax, havg, hdes⟩

/-- Arrays are read back, trimmed to the bytes that were written. -/
theorem deserialize_dimensional {d : PcPatchDimensional} (h : d.Holds P pts)
    (hst : d.stats = some st) (hwidth : StatsWidth d.schema st)
    (hsized : ∀ e ∈ d.bytes, pcBytesSerializedSize e < 2147483648) :
    ∃ q, pcPatchDeserialize P (serialized P.endian (.dimensional d) st) d.schema = .ok q ∧
      q.type = .dimensional ∧ Restores P (.dimensional d) pts q := by
  obtain ⟨st', hmin, hmax, havg, hdes⟩ := read_dimensional h rfl hwidth hsized
  refine ⟨_, hdes, rfl, rfl, rfl, rfl, ⟨st, st', hst, rfl, hmin, hmax, havg⟩, h.npoints_lt,
    h.npoints_eq, h.width_eq, ?_⟩
  rw [List.forall₂_map_right_iff]
  exact h.bytes_hold.imp fun dim e he => ⟨he.1, he.2.1, he.2.2.trimmed true⟩

/-- What is stored is read back, by the reader of the type that is stored with it. -/
theorem deserialize_serialized {p : PcPatch} (h : p.Holds P pts) (hst : p.stats = some st)
    (hwidth : StatsWidth p.schema st) (hsized : WkbSized p)
    (hlt : pcPatchSerializedSize p < 1073741824) :
    ∃ q, pcPatchDeserialize P (serialized P.endian p st) p.schema = .ok q ∧ q.type = p.type ∧
      Restores P p pts q := by
  cases p with
  | uncompressed u => exact deserialize_uncompressed h hst hwidth hsized hlt
  | dimensional d => exact deserialize_dimensional h hst hwidth hsized
  | lazperf l => exact h.elim

/-! ## What a read patch looks like

These hold of everything that a reader returns, also of bytes that no writer has written. -/

/-- A point has the schema that it is read with. -/
theorem schema_of_pcPointFromData {s : PcSchema} {block : Bytes} {off : Int} {pt : PcPoint}
    (h : pcPointFromData s block off = .ok pt) : pt.schema = s := by
  obtain ⟨data, -, h⟩ := bind_eq_ok.mp h
  unfold pcPointOf at h
  split at h
  · cases h
    rfl
  · exact absurd h (fault_ne_ok pt)

/-- The points of the statistics that are read have the schema. So statistics on disk are
those of the schema that the pcid leads to when they are read. -/
theorem statsOver_of_deserialize {s : PcSchema} {buf : Bytes} {st : PcStats}
    (h : pcPatchStatsDeserialize s buf = .ok st) : StatsOver s st := by
  obtain ⟨min, hmin, h⟩ := bind_eq_ok.mp h
  obtain ⟨max, hmax, h⟩ := bind_eq_ok.mp h
  obtain ⟨avg, havg, h⟩ := bind_eq_ok.mp h
  cases h
  exact ⟨schema_of_pcPointFromData hmin, schema_of_pcPointFromData hmax,
    schema_of_pcPointFromData havg⟩

/-- What is read has the schema, statistics over it, and records as it says. -/
theorem fields_of_deserialize {s : PcSchema} {sp : SerializedPatch} {q : PcPatch}
    (h : pcPatchDeserialize P sp s = .ok q) :
    q.schema = s ∧ (∃ st, q.stats = some st ∧ StatsOver s st) ∧ RecordsSized q := by
  unfold pcPatchDeserialize at h
  split at h
  · obtain ⟨u, hu, h⟩ := bind_eq_ok.mp h
    cases h
    obtain ⟨st, hst, hu⟩ := bind_eq_ok.mp hu
    simp only at hu
    split at hu
    · exact absurd hu (raise_ne_ok _ u)
    · next hsize =>
        cases hu
        exact ⟨rfl, ⟨st, rfl, statsOver_of_deserialize hst⟩, not_not.mp hsize⟩
  · obtain ⟨d, hd, h⟩ := bind_eq_ok.mp h
    cases h
    obtain ⟨st, hst, hd⟩ := bind_eq_ok.mp hd
    obtain ⟨bytes, -, hd⟩ := bind_eq_ok.mp hd
    cases hd
    exact ⟨rfl, ⟨st, rfl, statsOver_of_deserialize hst⟩, trivial⟩
  · obtain ⟨l, hl, h⟩ := bind_eq_ok.mp h
    cases h
    obtain ⟨st, hst, hl⟩ := bind_eq_ok.mp hl
    obtain ⟨size, -, hl⟩ := bind_eq_ok.mp hl
    obtain ⟨room, -, hl⟩ := bind_eq_ok.mp hl
    obtain ⟨data, -, hl⟩ := bind_eq_ok.mp hl
    cases hl
    exact ⟨rfl, ⟨st, rfl, statsOver_of_deserialize hst⟩, trivial⟩
  · exact absurd h (raise_ne_ok _ q)

end Read

/-! ## Patches that are compressed first

Records of a schema with dimensional compression are split into arrays, statistics choose an
encoding for each, and the arrays are encoded. Of the four encodings only that of the
significant bits can go wrong below `2 ^ 30` bytes: it counts the bits of its output with
32. -/

/-- The dimensions of the records can be encoded as the statistics `pds` recommend. Before the
sample is complete the patch is counted, and common bits are divided by the number of patches:
a counter that wraps around to `0` is a division by zero. Behind that the recommendation has
to be one of the four encodings, and the bits of the significant ones must not wrap. -/
structure EncodesDims (P : Platform) (u : PcPatchUncompressed) (pts : List Bytes)
    (pds : PcDimStats) : Prop where
  patches : pds.totalPoints < pcdimstatsMinSample → uint32 (pds.totalPatches + 1) ≠ 0
  known : ∀ t ∈ slots (u.dimensional pts) (pds.after P (u.dimensional pts)),
    ∀ code, t.2.recommendedCompression ≠ .unknown code
  bits : ∀ t ∈ slots (u.dimensional pts) (pds.after P (u.dimensional pts)),
    t.2.recommendedCompression = .sigbits →
      uniqueBits (t.1.2.words P.endian) * u.npoints < 4294967296

section Compressed

variable {u : PcPatchUncompressed} {pts : List Bytes} (h : u.Holds pts) (hne : pts ≠ [])
  (hrecords : u.npoints * u.schema.size < 1073741824)

include h hne hrecords

/-- Below `2 ^ 30` bytes these are the only limits of the encodings. Run lengths ask for an
`int` of points, zlib for a value and for four times its bytes as room. -/
theorem compressSound_of_encodes {pds : PcDimStats} (henc : EncodesDims P u pts pds) :
    CompressSound P (u.dimensional pts) pts pds := by
  have hfits := fits_of_records hrecords
  rw [compressSound_plain_iff h hne hfits]
  refine ⟨henc.patches, fun t ht => ?_⟩
  have hholds := h.dimensional (P := P)
  obtain ⟨hint, hwidth, -⟩ := hholds.array_fits hfits ht
  obtain ⟨hd, -, hnp, -⟩ := hholds.of_mem_slots ht
  have hnp' : t.1.2.npoints = u.npoints := hnp
  have hpos : 1 ≤ u.npoints := h.length_eq ▸ List.length_pos_iff.mpr hne
  have hmem : t.1.2 ∈ (u.dimensional pts).bytes := (List.of_mem_zip (List.of_mem_zip ht).1).2
  obtain ⟨dim, hdim, heq⟩ := List.mem_map.mp hmem
  -- before they are encoded the arrays are plain, with a word for each point
  have hplain : t.1.2.Plain := heq ▸ plainArray_plain hdim (width_bytesIn h.width_eq hdim)
  have hle : t.1.2.width ≤ u.schema.size := by
    rw [hwidth]
    exact Nat.le_trans (Nat.le_add_left _ _) (u.schema.dim_end_le hd)
  have hsmall : t.1.2.npoints * t.1.2.width < 1073741824 := by
    rw [hnp']
    exact Nat.lt_of_le_of_lt (Nat.mul_le_mul_left _ hle) hrecords
  -- what each encoding needs to give the values back
  cases hc : t.2.recommendedCompression with
  | none => trivial
  | rle => exact hint
  | sigbits =>
      refine ⟨Nat.le_trans (Nat.le_mul_of_pos_left _ (hnp' ▸ hpos)) hplain.room, hint, ?_⟩
      rw [hnp']
      exact henc.bits t ht hc
  | zlib =>
      have hlen : t.1.2.data.length = t.1.2.npoints * t.1.2.width := by
        rw [hplain.length_data, hplain.size_eq]
      have hdata : t.1.2.data ≠ [] := by
        intro hnil
        have := Nat.mul_pos (hnp' ▸ hpos : 0 < t.1.2.npoints) t.1.2.width_pos
        rw [hnil, List.length_nil] at hlen
        omega
      exact ⟨hnp' ▸ hpos, P.zlib.keeps_of_lt hdata (by omega)⟩
  | unknown code => exact absurd hc (henc.known t ht code)

/-- Compression returns only within them: the product of the encoder is checked nowhere, but
where it wraps around the buffer is left and the run is a fault. -/
theorem encodes_of_compress {userdata : Option PcDimStats}
    (huser : ∀ pds ∈ userdata, pds.stats.length = u.schema.dims.length)
    {r : PcPatchDimensional × Option PcDimStats}
    (hok : pcPatchDimensionalCompress P (u.dimensional pts) userdata = .ok r) :
    EncodesDims P u pts (userdata.getD (pcDimstatsMake u.schema)) := by
  have hfits := fits_of_records hrecords
  have hholds := h.dimensional (P := P)
  have hpos : 1 ≤ u.npoints := h.length_eq ▸ List.length_pos_iff.mpr hne
  -- from a run that returned, what each encoder was asked and met
  have hc := compresses_of_ok hholds huser hpos (Nat.le_of_lt hfits.npoints_lt) hok
  refine ⟨fun hlt => (hc.sampleable hlt).patches_ne, fun t ht code hcode => ?_,
    fun t ht hsig => ?_⟩
  · have hre := hc.reencodes t ht
    rw [hcode] at hre
    exact hre
  · have hre := hc.reencodes t ht
    rw [hsig] at hre
    have hnp : t.1.2.npoints = u.npoints := (hholds.of_mem_slots ht).2.2.1
    rw [← hnp]
    exact hre.2

omit h hne hrecords in
/-- Only the arrays of a patch change. -/
theorem pcPatchDimensionalCompress_eq {d d' : PcPatchDimensional}
    {userdata userdata' : Option PcDimStats}
    (hok : pcPatchDimensionalCompress P d userdata = .ok (d', userdata')) :
    d'.bounds = d.bounds ∧ d'.stats = pcStatsClone d.stats := by
  obtain ⟨pds, -, hok⟩ := bind_eq_ok.mp hok
  obtain ⟨bytes, -, hok⟩ := bind_eq_ok.mp hok
  cases hok
  exact ⟨rfl, rfl⟩

/-- The dimensional form of the records, encoded. That the values come back is a second
question next to the one whether the encoders return, and `CompressSound` answers both. -/
theorem compress_of_encodes {userdata : Option PcDimStats}
    (huser : ∀ pds ∈ userdata, pds.stats.length = u.schema.dims.length)
    (henc : EncodesDims P u pts (userdata.getD (pcDimstatsMake u.schema))) :
    ∃ d userdata', pcPatchDimensionalCompress P (u.dimensional pts) userdata = .ok (d, userdata') ∧
      d.schema = u.schema ∧ d.npoints = u.npoints ∧ d.bounds = u.bounds ∧
      d.stats = pcStatsClone (pcStatsClone u.stats) ∧ d.Holds P pts := by
  have hfits := fits_of_records hrecords
  have hholds := h.dimensional (P := P)
  have hsound := compressSound_of_encodes h hne hrecords henc
  obtain ⟨d, userdata', hok, hschema, hnp, hd⟩ :=
    pcPatchDimensionalCompress_ok hholds hne hfits huser hsound.compresses
  obtain ⟨hbounds, hstats⟩ := pcPatchDimensionalCompress_eq hok
  have hafter := length_after (P := P) (length_getD_pcDimstatsMake huser)
    hholds.bytes_hold.length_eq.symm
  -- the arrays hold the points again, since every encoding gives its values back
  have hkeep := (pointsOf_slotValues_eq_iff hholds hne hfits hafter
    hsound.compresses.reencodes).mpr hsound.values_eq
  rw [hkeep] at hd
  exact ⟨d, userdata', hok, hschema, hnp, hbounds, hstats, hd⟩

end Compressed

/-! ## Patches come back -/

/-- The patch is stored, and what is read back has the pcid, the number of points,
the bounds, the statistics and the points of the patch, in the compression of the
schema. -/
def RoundTripsOnDisk (P : Platform) (p : PcPatch) (pts : List Bytes)
    (userdata : Option PcDimStats) : Prop :=
  ∃ sp userdata' q, pcPatchSerialize P p userdata = .ok (sp, userdata') ∧
    pcPatchDeserialize P sp p.schema = .ok q ∧ sp.pcid = p.schema.pcid ∧
    q.type = p.schema.compression ∧ Restores P p pts q

/-- Neither the records, where the patch is compressed or uncompressed, nor the
serialized patch has `2 ^ 30` bytes. PostgreSQL grants no more for either. Where the patch is
written as it is, no records are made, and arrays may stand for more bytes than that. -/
structure BelowGigabyte (P : Platform) (p : PcPatch) (userdata : Option PcDimStats) : Prop where
  records : p.type ≠ p.schema.compression → p.npoints * p.schema.size < 1073741824
  output : ∀ q userdata', patchToSerialize P p userdata = .ok (q, userdata') →
    pcPatchSerializedSize q < 1073741824

/-- Where records are compressed, their dimensions can be encoded as recommended. Arrays are
written as they are, so nothing is asked of them. -/
def DiskCondition (P : Platform) (p : PcPatch) (pts : List Bytes)
    (userdata : Option PcDimStats) : Prop :=
  match p with
  | .uncompressed u => u.schema.compression = .dimensional →
      EncodesDims P u pts (userdata.getD (pcDimstatsMake u.schema))
  | _ => True

/-- A copy of statistics has their data. -/
theorem pcStatsClone_data (st : PcStats) :
    ∃ st', pcStatsClone (some st) = some st' ∧ st'.min.data = st.min.data ∧
      st'.max.data = st.max.data ∧ st'.avg.data = st.avg.data :=
  ⟨_, rfl, rfl, rfl, rfl⟩

/-- A patch in the compression of its schema is written as it is. -/
theorem patchToSerialize_same {p : PcPatch} (h : p.type = p.schema.compression)
    (userdata : Option PcDimStats) : patchToSerialize P p userdata = .ok (p, userdata) :=
  if_neg (not_not.mpr h)

/-- The patch `q` is what is written for the patch `p`: in the compression of the
schema, with the same points and the same statistics. -/
structure Written (P : Platform) (p : PcPatch) (pts : List Bytes) (st : PcStats)
    (userdata : Option PcDimStats) (q : PcPatch) (st' : PcStats) (userdata' : Option PcDimStats) :
    Prop where
  ok : patchToSerialize P p userdata = .ok (q, userdata')
  schema_eq : q.schema = p.schema
  npoints_eq : q.npoints = p.npoints
  bounds_eq : q.bounds = p.bounds
  type_eq : q.type = p.schema.compression
  stats_eq : q.stats = some st'
  min_eq : st'.min.data = st.min.data
  max_eq : st'.max.data = st.max.data
  avg_eq : st'.avg.data = st.avg.data
  holds : q.Holds P pts
  sized : WkbSized q
  size_lt : pcPatchSerializedSize q < 1073741824

/-- A patch with statistics is brought into the compression of its schema, and
written. -/
theorem pcPatchSerialize_eq {p : PcPatch} {st : PcStats} (hst : p.stats = some st)
    (userdata : Option PcDimStats) :
    pcPatchSerialize P p userdata = (do
      let (patch, userdata) ← patchToSerialize P p userdata
      let serpatch ← serializeByType P patch
      return (serpatch, userdata)) := by
  rw [pcPatchSerialize, hst, Option.isNone_some]
  rfl

section Written

variable {p q : PcPatch} {pts : List Bytes} {st st' : PcStats}
  {userdata userdata' : Option PcDimStats} (hst : p.stats = some st)
  (hwidth : StatsWidth p.schema st) (hw : Written P p pts st userdata q st' userdata')

include hst hwidth hw

omit hst in
/-- The statistics that are written have the size of the points, being copies of those of the
patch. -/
theorem Written.width : StatsWidth q.schema st' := by
  rw [hw.schema_eq]
  exact ⟨hw.min_eq ▸ hwidth.min, hw.max_eq ▸ hwidth.max, hw.avg_eq ▸ hwidth.avg⟩

/-- The patch is written by the writer of its type. -/
theorem Written.serialize_ok :
    pcPatchSerialize P p userdata = .ok (serialized P.endian q st', userdata') := by
  have hwrite := serializeByType_ok hw.holds hw.stats_eq (hw.width hwidth) hw.size_lt hw.sized
  rw [pcPatchSerialize_eq hst, hw.ok, ok_bind]
  simp only [hwrite, ok_bind, pure_eq_ok]

/-- The patch that is written is read back. -/
theorem Written.roundTrips : RoundTripsOnDisk P p pts userdata := by
  obtain ⟨r, hread, hrtype, hr⟩ := deserialize_serialized hw.holds hw.stats_eq (hw.width hwidth)
    hw.sized hw.size_lt
  rw [hw.schema_eq] at hread
  refine ⟨serialized P.endian q st', userdata', r, hw.serialize_ok hst hwidth, hread,
    by rw [← hw.schema_eq]; rfl, hrtype.trans hw.type_eq, hr.schema_eq.trans hw.schema_eq,
    hr.npoints_eq.trans hw.npoints_eq, hr.bounds_eq.trans hw.bounds_eq, ?_, hr.holds⟩
  -- statistics of the patch, of what was written, and of what was read
  obtain ⟨st₁, st₂, hst₁, hst₂, hmin, hmax, havg⟩ := hr.stats_eq
  rw [hw.stats_eq, Option.some.injEq] at hst₁
  subst hst₁
  exact ⟨st, st₂, hst, hst₂, hmin.trans hw.min_eq, hmax.trans hw.max_eq, havg.trans hw.avg_eq⟩

end Written

/-- Where the whole is below `2 ^ 30` bytes, no segment comes to the limit of the `int` that
the readers count it with. -/
theorem segments_below {d : PcPatchDimensional}
    (hlt : pcPatchSerializedSize (.dimensional d) < 1073741824) :
    ∀ e ∈ d.bytes, pcBytesSerializedSize e < 2147483648 := by
  intro e he
  have hle : pcBytesSerializedSize e ≤ pcPatchDimensionalSerializedSize d :=
    List.le_sum_of_mem (List.mem_map_of_mem he)
  have hall : pcPatchDimensionalSerializedSize d ≤ pcPatchSerializedSize (.dimensional d) :=
    Nat.le_add_left _ _
  omega

/-- Records are written for a schema with dimensional compression only where their
dimensions can be encoded. -/
theorem patchToSerialize_dimensional {u : PcPatchUncompressed} {pts : List Bytes}
    (h : u.Holds pts) (hne : pts ≠ []) (hrecords : u.npoints * u.schema.size < 1073741824)
    (hdim : u.schema.compression = .dimensional) (userdata : Option PcDimStats) :
    patchToSerialize P (.uncompressed u) userdata = (do
      let (pcdd, userdata) ← pcPatchDimensionalCompress P (u.dimensional pts) userdata
      return (.dimensional pcdd, userdata)) := by
  have hsplit := pcPatchDimensionalFromUncompressed_ok h hne (fits_of_records hrecords)
  have hdim' : (PcPatch.uncompressed u).schema.compression = .dimensional := hdim
  -- the type of records is not that of the schema, so they are compressed
  rw [patchToSerialize, hdim', if_pos nofun, pcPatchCompress, hdim']
  simp only [hsplit, ok_bind]
  rfl

/-- So what was written could be encoded. It is the direction from the run to the condition,
and it needs no bound on what is written. -/
theorem encodes_of_patchToSerialize {u : PcPatchUncompressed} {pts : List Bytes}
    (h : u.Holds pts) (hne : pts ≠ []) (hrecords : u.npoints * u.schema.size < 1073741824)
    (hdim : u.schema.compression = .dimensional) {userdata : Option PcDimStats}
    (huser : ∀ pds ∈ userdata, pds.stats.length = u.schema.dims.length)
    {r : PcPatch × Option PcDimStats}
    (hok : patchToSerialize P (.uncompressed u) userdata = .ok r) :
    EncodesDims P u pts (userdata.getD (pcDimstatsMake u.schema)) := by
  rw [patchToSerialize_dimensional h hne hrecords hdim] at hok
  obtain ⟨d, hd, -⟩ := bind_eq_ok.mp hok
  exact encodes_of_compress h hne hrecords huser hd

section Disk

variable {p : PcPatch} {pts : List Bytes} {st : PcStats} {userdata : Option PcDimStats}
  (hst : p.stats = some st) (hbelow : BelowGigabyte P p userdata)

include hst hbelow

/-- A dimensional patch is written as it is, or as its records. -/
theorem written_dimensional {d : PcPatchDimensional} (hp : p = .dimensional d)
    (h : d.Holds P pts)
    (hcomp : p.schema.compression = .none ∨ p.schema.compression = .dimensional) :
    ∃ q st' userdata', Written P p pts st userdata q st' userdata' := by
  subst hp
  rcases hcomp with hnone | hdim
  · -- uncompressed, which below `2 ^ 30` bytes of records gives the points back
    have hrecords : d.npoints * d.schema.size < 1073741824 :=
      hbelow.records (by rw [hnone]; exact nofun)
    obtain ⟨v, hv, hholds, hvs, hvn, hvsize, -⟩ := uncompressed_holds h (fits_of_records hrecords)
    have hfields := pcPatchUncompressedFromDimensional_fields hv
    have hq : patchToSerialize P (.dimensional d) userdata = .ok (.uncompressed v, userdata) := by
      have hcompress : pcPatchCompress P (.dimensional d) userdata =
          .ok (.uncompressed v, userdata) := by
        rw [pcPatchCompress, hnone]
        simp only [hv, ok_bind, pure_eq_ok]
      rw [patchToSerialize, hnone, if_pos nofun, hcompress]
    obtain ⟨st', hclone, hmin, hmax, havg⟩ := pcStatsClone_data st
    refine ⟨_, st', _, hq, hvs, hvn, hfields.1, hnone.symm, ?_, hmin, hmax, havg, hholds, hvsize,
      hbelow.output _ _ hq⟩
    rw [show (PcPatch.uncompressed v).stats = v.stats from rfl, hfields.2,
      show d.stats = some st from hst, hclone]
  · have hq := patchToSerialize_same (P := P) (p := .dimensional d) hdim.symm userdata
    have hlt := hbelow.output _ _ hq
    exact ⟨_, st, _, hq, rfl, rfl, rfl, hdim.symm, hst, rfl, rfl, rfl, h, segments_below hlt, hlt⟩

/-- Records are written as they are for a schema without compression. -/
theorem written_plain {u : PcPatchUncompressed} (hp : p = .uncompressed u) (h : u.Holds pts)
    (hsized : RecordsSized p) (hnone : p.schema.compression = .none) :
    ∃ q st' userdata', Written P p pts st userdata q st' userdata' := by
  subst hp
  have hq := patchToSerialize_same (P := P) (p := .uncompressed u) hnone.symm userdata
  exact ⟨_, st, _, hq, rfl, rfl, rfl, hnone.symm, hst, rfl, rfl, rfl, h, hsized,
    hbelow.output _ _ hq⟩

omit hst hbelow in
/-- Nothing is written for a schema with another compression: without lazperf in the build the
compression is an error, and a code that names none is one as well. -/
theorem compression_of_patchToSerialize (h : p.Holds P pts) {r : PcPatch × Option PcDimStats}
    (hok : patchToSerialize P p userdata = .ok r) :
    p.schema.compression = .none ∨ p.schema.compression = .dimensional := by
  cases hcomp : p.schema.compression with
  | none => exact .inl rfl
  | dimensional => exact .inr rfl
  | lazperf =>
      cases p with
      | uncompressed u =>
          rw [patchToSerialize, pcPatchCompress, hcomp] at hok
          exact absurd hok (raise_ne_ok _ r)
      | dimensional d =>
          rw [patchToSerialize, pcPatchCompress, hcomp] at hok
          obtain ⟨v, -, hok⟩ := bind_eq_ok.mp (show (pcPatchUncompressedFromDimensional P d >>= _) =
            .ok r from hok)
          exact absurd hok (raise_ne_ok _ r)
      | lazperf l => exact h.elim
  | unknown code =>
      cases p with
      | uncompressed u =>
          rw [patchToSerialize, pcPatchCompress, hcomp] at hok
          exact absurd hok (raise_ne_ok _ r)
      | dimensional d =>
          rw [patchToSerialize, pcPatchCompress, hcomp] at hok
          exact absurd hok (raise_ne_ok _ r)
      | lazperf l => exact h.elim

omit hst hbelow in
/-- Dimensions without values are not encoded. -/
theorem patchToSerialize_empty {u : PcPatchUncompressed} (h : u.Holds [])
    (hdim : u.schema.compression = .dimensional) (r : PcPatch × Option PcDimStats) :
    patchToSerialize P (.uncompressed u) userdata ≠ .ok r := by
  have hzero : u.npoints = 0 := h.length_eq.symm
  have hdim' : (PcPatch.uncompressed u).schema.compression = .dimensional := hdim
  have hsplit : pcPatchDimensionalFromUncompressed u = .ok none := by
    rw [pcPatchDimensionalFromUncompressed, hzero]
    rfl
  rw [patchToSerialize, hdim', if_pos nofun, pcPatchCompress, hdim']
  simp only [hsplit, ok_bind]
  exact raise_ne_ok _ r

/-- Records are encoded for a schema with dimensional compression. The statistics are copied
twice, once with the records and once with the arrays. -/
theorem written_encoded {u : PcPatchUncompressed} (hp : p = .uncompressed u) (h : u.Holds pts)
    (hne : pts ≠ []) (hdim : p.schema.compression = .dimensional)
    (huser : ∀ pds ∈ userdata, pds.stats.length = p.schema.dims.length)
    (henc : EncodesDims P u pts (userdata.getD (pcDimstatsMake u.schema))) :
    ∃ q st' userdata', Written P p pts st userdata q st' userdata' := by
  subst hp
  have hrecords : u.npoints * u.schema.size < 1073741824 :=
    hbelow.records (by rw [hdim]; exact nofun)
  obtain ⟨d, userdata', hok, hschema, hnp, hbounds, hstats, hd⟩ :=
    compress_of_encodes h hne hrecords huser henc
  have hq : patchToSerialize P (.uncompressed u) userdata = .ok (.dimensional d, userdata') := by
    rw [patchToSerialize_dimensional h hne hrecords hdim, hok, ok_bind]
    rfl
  -- only now is there an output, of which the bound can be asked
  have hlt := hbelow.output _ _ hq
  rw [show u.stats = some st from hst] at hstats
  exact ⟨_, _, _, hq, hschema, hnp, hbounds, hdim.symm, hstats, rfl, rfl, rfl, hd,
    segments_below hlt, hlt⟩

/-- A patch that can be brought into the compression of its schema is written. Here the
condition of the encoders is not asked for but read off the run. -/
theorem written_of_patchToSerialize (h : p.Holds P pts) (hsized : RecordsSized p)
    (huser : ∀ pds ∈ userdata, pds.stats.length = p.schema.dims.length)
    {r : PcPatch × Option PcDimStats} (hok : patchToSerialize P p userdata = .ok r) :
    ∃ q st' userdata', Written P p pts st userdata q st' userdata' := by
  have hcomp := compression_of_patchToSerialize h hok
  cases p with
  | lazperf l => exact h.elim
  | dimensional d => exact written_dimensional hst hbelow rfl h hcomp
  | uncompressed u =>
      rcases hcomp with hnone | hdim
      · exact written_plain hst hbelow rfl h hsized hnone
      · have hne : pts ≠ [] := by
          intro hnil
          subst hnil
          exact patchToSerialize_empty h hdim r hok
        have hrecords : u.npoints * u.schema.size < 1073741824 :=
          hbelow.records (by rw [hdim]; exact nofun)
        exact written_encoded hst hbelow rfl h hne hdim huser
          (encodes_of_patchToSerialize h hne hrecords hdim huser hok)

end Disk

/-- Records can be written for a schema. The condition is about schema and points alone, so
it can be asked before there is a patch. -/
def Writable (P : Platform) (s : PcSchema) (pts : List Bytes) : Prop :=
  s.compression = .none ∨
    s.compression = .dimensional ∧ pts ≠ [] ∧
      EncodesDims P (patchOfRecords s pts) pts (pcDimstatsMake s)

/-- Only the schema and the points count: the dimensional form has bounds and statistics as
well, but no encoder looks at them. -/
theorem encodesDims_records_iff {u : PcPatchUncompressed} {pts : List Bytes} (h : u.Holds pts)
    {pds : PcDimStats} :
    EncodesDims P u pts pds ↔ EncodesDims P (patchOfRecords u.schema pts) pts pds := by
  have hnp := h.length_eq
  obtain ⟨readonly, schema, npoints, bounds, stats, maxpoints, datasize, data⟩ := u
  simp only at hnp ⊢
  subst hnp
  exact ⟨fun ⟨hpatches, hknown, hbits⟩ => ⟨hpatches, hknown, hbits⟩,
    fun ⟨hpatches, hknown, hbits⟩ => ⟨hpatches, hknown, hbits⟩⟩

/-- Records are written exactly for such a schema. -/
theorem patchToSerialize_isOk_iff {u : PcPatchUncompressed} {pts : List Bytes} (h : u.Holds pts)
    (hrecords : u.schema.compression ≠ .none → u.npoints * u.schema.size < 1073741824) :
    (∃ r, patchToSerialize P (.uncompressed u) none = .ok r) ↔ Writable P u.schema pts := by
  have huser : ∀ pds ∈ (none : Option PcDimStats), pds.stats.length = u.schema.dims.length := by
    simp
  constructor
  · rintro ⟨r, hok⟩
    rcases compression_of_patchToSerialize (p := .uncompressed u) h hok with hnone | hdim
    · exact .inl hnone
    · have hdim' : u.schema.compression = .dimensional := hdim
      have hne : pts ≠ [] := by
        intro hnil
        subst hnil
        exact patchToSerialize_empty h hdim r hok
      refine .inr ⟨hdim', hne, (encodesDims_records_iff h).mp ?_⟩
      exact encodes_of_patchToSerialize h hne (hrecords (by rw [hdim']; exact nofun)) hdim huser hok
  -- and conversely nothing else can stop the writer
  · rintro (hnone | ⟨hdim, hne, henc⟩)
    · exact ⟨_, patchToSerialize_same (p := .uncompressed u) hnone.symm none⟩
    · have hlt := hrecords (by rw [hdim]; exact nofun)
      obtain ⟨d, userdata', hok, -⟩ := compress_of_encodes h hne hlt huser
        ((encodesDims_records_iff h).mpr henc)
      rw [patchToSerialize_dimensional h hne hlt hdim, hok, ok_bind]
      exact ⟨_, rfl⟩

/-- A patch comes back from the disk exactly under this condition. -/
theorem pcPatchSerialize_roundTrip_iff (P : Platform) {p : PcPatch} {pts : List Bytes}
    {userdata : Option PcDimStats} (h : p.Holds P pts) (hne : pts ≠ []) (hsized : RecordsSized p)
    {st : PcStats} (hst : p.stats = some st) (hover : StatsOver p.schema st)
    (hcomp : p.schema.compression = .none ∨ p.schema.compression = .dimensional)
    (huser : ∀ pds ∈ userdata, pds.stats.length = p.schema.dims.length)
    (hbelow : BelowGigabyte P p userdata) :
    RoundTripsOnDisk P p pts userdata ↔ DiskCondition P p pts userdata := by
  have hwidth := hover.width
  cases p with
  | lazperf l => exact h.elim
  | dimensional d =>
      -- arrays are never encoded again
      obtain ⟨q, st', userdata', hw⟩ := written_dimensional hst hbelow rfl h hcomp
      exact iff_of_true (hw.roundTrips hst hwidth) trivial
  | uncompressed u =>
      have hu : u.Holds pts := h
      rcases hcomp with hnone | hdim
      · obtain ⟨q, st', userdata', hw⟩ := written_plain hst hbelow rfl hu hsized hnone
        refine iff_of_true (hw.roundTrips hst hwidth) fun hdim => ?_
        rw [show u.schema.compression = .none from hnone] at hdim
        exact nomatch hdim
      · have hrecords : u.npoints * u.schema.size < 1073741824 :=
          hbelow.records (by rw [hdim]; exact nofun)
        constructor
        · rintro ⟨sp, userdata', q, hwrite, -⟩ -
          rw [pcPatchSerialize_eq hst] at hwrite
          obtain ⟨r, hr, -⟩ := bind_eq_ok.mp hwrite
          exact encodes_of_patchToSerialize hu hne hrecords hdim huser hr
        · intro hcondition
          obtain ⟨q, st', userdata', hw⟩ :=
            written_encoded hst hbelow rfl hu hne hdim huser (hcondition hdim)
          exact hw.roundTrips hst hwidth

/-! ## Examples -/

/-- Statistics of zeros. -/
def zeroStats (s : PcSchema) : PcStats :=
  ⟨⟨false, s, zeros s.size, length_zeros _⟩, ⟨false, s, zeros s.size, length_zeros _⟩,
    ⟨false, s, zeros s.size, length_zeros _⟩⟩

/-- `pairOfDims` with statistics. -/
def storedPair : PcPatchUncompressed :=
  { pairOfDims with stats := some (zeroStats pairOfDims.schema) }

/-- Two points in dimensions, for which zlib is recommended. -/
theorem pcPatchSerialize_roundTrip_iff_witness :
    RoundTripsOnDisk Platform.plain (.uncompressed storedPair) [[1, 2], [3, 4]] none := by
  have hholds : storedPair.Holds [[1, 2], [3, 4]] := ⟨by decide, by decide, by decide⟩
  have hslots : ∀ t ∈ slots (storedPair.dimensional [[1, 2], [3, 4]])
      ((pcDimstatsMake storedPair.schema).after Platform.plain
        (storedPair.dimensional [[1, 2], [3, 4]])), t.2.recommendedCompression = .zlib := by
    decide +kernel
  have hsize : (patchToSerialize Platform.plain (.uncompressed storedPair) none).map
      (fun r => pcPatchSerializedSize r.1) = .ok 83 := by decide +kernel
  refine (pcPatchSerialize_roundTrip_iff Platform.plain (p := .uncompressed storedPair) hholds
    (by decide) rfl rfl ⟨rfl, rfl, rfl⟩ (.inr rfl) (by simp)
    ⟨fun _ => by decide, fun q userdata' hq => ?_⟩).mpr fun _ =>
      ⟨fun _ => by decide, fun t ht code => ?_, fun t ht hsig => ?_⟩
  · rw [hq] at hsize
    exact Nat.lt_of_le_of_lt (Nat.le_of_eq (Except.ok.inj hsize)) (by decide)
  · rw [hslots t ht]
    exact nofun
  · rw [hslots t ht] at hsig
    exact nomatch hsig

/-- Points with an x of 64 bits. -/
def wideSchema : PcSchema := xySchema .uint64 .uint8 (by decide) uint8_known 1 .dimensional

/-- Their x. -/
def wideX : PcDimension := ⟨some "X", 0, 8, 0, .uint64, 1, 0⟩

/-- Points whose x have no bit in common: the first is zero, all others have the first bit. -/
def widePoints (n : Nat) : List Bytes := zeros 9 :: List.replicate n [0, 0, 0, 0, 0, 0, 0, 128, 0]

/-- A patch of these points. -/
def widePatch (n : Nat) : PcPatchUncompressed :=
  { patchOfRecords wideSchema (widePoints n) with stats := some (zeroStats wideSchema) }

/-- Statistics that recommend to cut the bits of x that are in common. -/
def cutBits : PcDimStats := ⟨10000, 1, [⟨0, 0, .sigbits⟩, ⟨0, 0, .none⟩]⟩

/-- The records are the points. -/
theorem widePatch_holds {n : Nat} (h : n < 4294967295) : (widePatch n).Holds (widePoints n) := by
  have hwidth : ∀ pt ∈ widePoints n, pt.length = wideSchema.size := by
    intro pt hpt
    rcases List.mem_cons.mp hpt with rfl | hpt
    · rfl
    · rw [List.eq_of_mem_replicate hpt]
      rfl
  have hlen : (widePoints n).length < 4294967296 := by
    rw [widePoints, List.length_cons, List.length_replicate]
    omega
  have hheld := patchOfRecords_holds hwidth hlen
  exact ⟨hheld.npoints_lt, hheld.room, hheld.records_eq⟩

/-- A fold over equal elements that change nothing. -/
theorem foldl_replicate_fixed {α β : Type} (f : α → β → α) {a : α} {b : β} (h : f a b = a) :
    ∀ n, (List.replicate n b).foldl f a = a
  | 0 => rfl
  | n + 1 => by rw [List.replicate_succ, List.foldl_cons, h, foldl_replicate_fixed f h n]

/-- Words that differ in their first bit have none in common. -/
theorem uniqueBits_wide (n : Nat) :
    uniqueBits ((0 : BitVec 64) :: List.replicate (n + 1) 9223372036854775808) = 64 := by
  have hand : (List.replicate (n + 1) (9223372036854775808 : BitVec 64)).foldl (· &&& ·) (0 &&& 0) =
      0 := foldl_replicate_fixed _ (by decide) _
  have hor : (List.replicate (n + 1) (9223372036854775808 : BitVec 64)).foldl (· ||| ·) (0 ||| 0) =
      9223372036854775808 := by
    rw [List.replicate_succ, List.foldl_cons]
    exact foldl_replicate_fixed _ (by decide) _
  rw [uniqueBits, List.headD_cons, List.foldl_cons, List.foldl_cons, hand, hor]
  decide +kernel

/-- All bits of x are told apart, which are more than a 32-bit number counts. -/
theorem widePatch_not_encodes {n : Nat} (h : 67108863 ≤ n) :
    ¬ EncodesDims Platform.plain (widePatch n) (widePoints n) cutBits := by
  intro henc
  have hx : wideX ∈ wideSchema.dims := List.mem_cons_self
  have hcolumn : (widePoints n).map wideX.bytesIn =
      zeros 8 :: List.replicate n [0, 0, 0, 0, 0, 0, 0, 128] := by
    rw [widePoints, List.map_cons, List.map_replicate]
    rfl
  have hwidth : ∀ v ∈ (widePoints n).map wideX.bytesIn, v.length = wideX.size := by
    intro v hv
    rw [hcolumn] at hv
    rcases List.mem_cons.mp hv with rfl | hv
    · rfl
    · rw [List.eq_of_mem_replicate hv]
      rfl
  have hwords : (plainArray wideX ((widePoints n).map wideX.bytesIn)).words .little =
      (0 : BitVec 64) :: List.replicate n 9223372036854775808 := by
    rw [PcBytes.words, values_plainArray hx hwidth, hcolumn, List.map_cons, List.map_replicate]
    rfl
  have hafter : cutBits.after Platform.plain ((widePatch n).dimensional (widePoints n)) = cutBits :=
    if_neg (by decide)
  have hslot : ((wideX, plainArray wideX ((widePoints n).map wideX.bytesIn)), ⟨0, 0, .sigbits⟩) ∈
      slots ((widePatch n).dimensional (widePoints n))
        (cutBits.after Platform.plain ((widePatch n).dimensional (widePoints n))) := by
    rw [hafter]
    exact List.mem_cons_self
  have hbits : uniqueBits ((plainArray wideX ((widePoints n).map wideX.bytesIn)).words .little) *
      (widePatch n).npoints < 4294967296 := henc.bits _ hslot rfl
  have hlen : (widePatch n).npoints = n + 1 := by
    change (widePoints n).length = n + 1
    rw [widePoints, List.length_cons, List.length_replicate]
  obtain ⟨m, rfl⟩ : ∃ m, n = m + 1 := ⟨n - 1, by omega⟩
  have hunique : uniqueBits
    ((plainArray wideX ((widePoints (m + 1)).map wideX.bytesIn)).words .little) =
      64 := (congrArg uniqueBits hwords).trans (uniqueBits_wide m)
  rw [hunique, hlen] at hbits
  omega

/-- `2 ^ 26` points of nine bytes: the packed x would have `2 ^ 32` bits, which the
encoder counts with 32. -/
theorem pcPatchSerialize_fails :
    ∃ n, n = 67108863 ∧ (widePatch n).Holds (widePoints n) ∧
      RecordsSized (.uncompressed (widePatch n)) ∧
      BelowGigabyte Platform.plain (.uncompressed (widePatch n)) (some cutBits) ∧
      ¬ RoundTripsOnDisk Platform.plain (.uncompressed (widePatch n)) (widePoints n)
        (some cutBits) := by
  obtain ⟨n, hn⟩ : ∃ n, n = 67108863 := ⟨_, rfl⟩
  have hlen : (widePoints n).length = n + 1 := by
    rw [widePoints, List.length_cons, List.length_replicate]
  have hholds := widePatch_holds (n := n) (by omega)
  have hne : widePoints n ≠ [] := List.cons_ne_nil _ _
  have hrecords : (widePatch n).npoints * (widePatch n).schema.size < 1073741824 := by
    change (widePoints n).length * 9 < 1073741824
    omega
  have hfails : ∀ r, patchToSerialize Platform.plain (.uncompressed (widePatch n)) (some cutBits) ≠
      .ok r := by
    intro r hok
    refine widePatch_not_encodes (Nat.le_of_eq hn.symm) ?_
    exact encodes_of_patchToSerialize hholds hne hrecords rfl (by simp [cutBits]; rfl) hok
  refine ⟨n, hn, hholds, Nat.mul_comm _ _, ⟨fun _ => hrecords, fun q userdata' hq =>
    absurd hq (hfails _)⟩, ?_⟩
  rintro ⟨sp, userdata', q, hwrite, -⟩
  obtain ⟨r, hr, -⟩ := bind_eq_ok.mp (show (patchToSerialize Platform.plain
    (.uncompressed (widePatch n)) (some cutBits) >>= _) = .ok (sp, userdata') from hwrite)
  exact hfails r hr

end Pointcloud
