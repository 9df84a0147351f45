/-
Pointcloud.Patch.LazperfTheorems — LAZ compression fails cleanly or loses nothing.

The adapter counts the records that fit into the data of a patch, not the points. If
there are as many of both, what an engine returns is the points again; if not, the
compressed buffer is never set, and copied from all the same (`converts_iff`).
-/
import Pointcloud.Patch.Lazperf
import Pointcloud.Patch.BuildTheorems

namespace Pointcloud

open Pointcloud.Base

namespace LazEngine

/-! ## Fields -/

theorem fieldsOf_width {t : Interpretation} (h : t ≠ .unknown) :
    ∃ fields, fieldsOf t = some fields ∧ fieldsWidth fields = t.size := by
  cases t with
  | unknown => exact absurd rfl h
  | _ => exact ⟨_, rfl, rfl⟩

theorem fieldsWidth_append (fs gs : List LazField) :
    fieldsWidth (fs ++ gs) = fieldsWidth fs + fieldsWidth gs := by
  simp [fieldsWidth]

theorem foldl_addField {dims : List PcDimension}
    (h : ∀ d ∈ dims, d.interpretation ≠ .unknown ∧ d.size = d.interpretation.size)
    (lay : Layout) :
    fieldsWidth (dims.foldl addField lay).fields = fieldsWidth lay.fields + sizeOfDims dims ∧
      (dims.foldl addField lay).pointsize = lay.pointsize + sizeOfDims dims := by
  induction dims generalizing lay with
  | nil => simp [sizeOfDims]
  | cons d dims ih =>
      obtain ⟨hknown, hsize⟩ := h d (by simp)
      obtain ⟨fields, hfields, hwidth⟩ := fieldsOf_width hknown
      have hadd : addField lay d = ⟨lay.fields ++ fields, lay.pointsize + d.size⟩ := by
        rw [addField, hfields]
      obtain ⟨hall, hpoint⟩ := ih (fun e he => h e (by simp [he])) (addField lay d)
      rw [List.foldl_cons, hall, hpoint, hadd]
      simp only [fieldsWidth_append, hwidth, ← hsize, sizeOfDims, List.map_cons, List.sum_cons]
      omega

/-- The fields of a schema add up to its size. -/
theorem initSchema_width (s : PcSchema) :
    fieldsWidth (initSchema s).fields = s.size ∧ (initSchema s).pointsize = s.size := by
  obtain ⟨hfields, hpoint⟩ := foldl_addField s.known ⟨[], 0⟩
  rw [initSchema, hfields, hpoint, s.size_eq]
  simp [fieldsWidth]

variable {E : LazEngine}

/-! ## The loops -/

/-- Every record that fits is given to the engine. -/
theorem compressLoop_ok {lay : Layout} {w : Nat} (hw : 0 < w) (hpoint : lay.pointsize = w)
    (hfields : fieldsWidth lay.fields = w) {data : Bytes} {inputsize : Nat}
    (hroom : inputsize ≤ data.length) :
    ∀ (turns input size : Nat) (c : E.Compressor), inputsize - input < turns →
      E.compressLoop lay data inputsize turns input size c =
        .ok (size + (inputsize - input) / w,
          (records w ((inputsize - input) / w) (data.drop input)).foldl E.compress c)
  | 0, _, _, _, h => absurd h (Nat.not_lt_zero _)
  | turns + 1, input, size, c, h => by
      rw [compressLoop, hpoint, hfields]
      by_cases hfits : input + w ≤ inputsize
      · have hcount : (inputsize - input) / w = (inputsize - (input + w)) / w + 1 := by
          rw [← Nat.sub_sub]
          exact Nat.div_eq_sub_div hw (by omega)
        rw [if_pos hfits, readAt_ok (by omega), ok_bind,
          compressLoop_ok hw hpoint hfields hroom turns _ _ _ (by omega), hcount, records_succ,
          List.foldl_cons, List.drop_drop, Nat.add_assoc, Nat.add_comm 1]
      · have hnone : (inputsize - input) / w = 0 := Nat.div_eq_of_lt (by omega)
        rw [if_neg hfits, hnone]
        rfl

theorem decompressLoop_succ (lay : Layout) (outputsize turns output size : Nat)
    (d : E.Decompressor) (block : Bytes) :
    E.decompressLoop lay outputsize (turns + 1) output size d block =
      if output + lay.pointsize ≤ outputsize then
        writeAt block output (E.decompress d).1 >>= fun block =>
          E.decompressLoop lay outputsize turns (output + lay.pointsize) (size + 1)
            (E.decompress d).2 block
      else .ok (size, block) := rfl

/-- The records that the engine returns are laid one behind the other. -/
theorem decompressLoop_ok {lay : Layout} {w : Nat} (hw : 0 < w) (hpoint : lay.pointsize = w) :
    ∀ (n turns size : Nat) (d : E.Decompressor) (front block : Bytes),
      (∀ r ∈ E.decoded d n, r.length = w) → block.length = n * w → n * w < turns →
      E.decompressLoop lay (front.length + n * w) turns front.length size d (front ++ block) =
        .ok (size + n, front ++ (E.decoded d n).flatten)
  | _, 0, _, _, _, _, _, _, h => absurd h (Nat.not_lt_zero _)
  | 0, turns + 1, size, d, front, block, _, hlen, _ => by
      have hnil : block = [] := List.length_eq_zero_iff.mp (by omega)
      rw [decompressLoop_succ, hpoint, if_neg (by omega), hnil]
      rfl
  | n + 1, turns + 1, size, d, front, block, hwidth, hlen, hturns => by
      have hfirst : (E.decompress d).1.length = w := hwidth _ (by simp [decoded])
      rw [Nat.succ_mul] at hlen hturns
      rw [decompressLoop_succ, hpoint, if_pos (by rw [Nat.succ_mul]; omega),
        writeAt_append rfl (by omega), ok_bind]
      have hfront : front.length + w = (front ++ (E.decompress d).1).length := by
        rw [List.length_append, hfirst]
      have htotal : front.length + (n + 1) * w = (front ++ (E.decompress d).1).length + n * w := by
        rw [← hfront, Nat.succ_mul]
        omega
      rw [hfront, htotal, decompressLoop_ok hw hpoint n turns _ _ _ _
        (fun r hr => hwidth r (by simp [decoded, hr])) (by rw [List.length_drop]; omega) (by omega)]
      simp only [decoded, List.flatten_cons, List.append_assoc, Nat.add_assoc, Nat.add_comm 1]

/-! ## There and back -/

/-- A block that is copied as a whole. -/
theorem readAt_whole {bs : Bytes} {len : Nat} (h : bs.length = len) : readAt bs 0 len = .ok bs := by
  subst h
  have hread := readAt_ok (show 0 + bs.length ≤ bs.length by omega)
  rwa [List.drop_zero, List.take_length] at hread

theorem compressAll_ok (s : PcSchema) {data : Bytes} {inputsize : Nat}
    (hroom : inputsize ≤ data.length) :
    E.compressAll s data inputsize = .ok (inputsize / s.size,
      E.encoded (initSchema s).fields (records s.size (inputsize / s.size) data)) := by
  obtain ⟨hfields, hpoint⟩ := initSchema_width s
  rw [compressAll, compressLoop_ok s.size_pos hpoint hfields hroom (inputsize + 1) 0 0 _ (by omega),
    ok_bind]
  simp [encoded]

section Convert

variable {pa : PcPatchUncompressed} {pts : List Bytes} (h : pa.Holds pts)
  (hdata : pa.datasize ≤ pa.data.content.length)

include hdata in
/-- With more or fewer records than points the buffer is not set, and copied from. -/
theorem pcPatchLazperfFromUncompressed_fault (hcount : pa.datasize / pa.schema.size ≠ pa.npoints) :
    E.pcPatchLazperfFromUncompressed pa = fault := by
  rw [pcPatchLazperfFromUncompressed, lazperfCompressFromUncompressed,
    compressAll_ok pa.schema hdata, ok_bind]
  simp only [if_neg hcount]
  rfl

include h hdata in
theorem pcPatchLazperfFromUncompressed_ok (hcount : pa.datasize / pa.schema.size = pa.npoints)
    (hout : (E.encoded (initSchema pa.schema).fields pts).length < 9223372036854775808) :
    E.pcPatchLazperfFromUncompressed pa = .ok {
      readonly := false
      schema := pa.schema
      npoints := pa.npoints
      bounds := pa.bounds
      stats := pcStatsClone pa.stats
      lazperf := E.encoded (initSchema pa.schema).fields pts } := by
  rw [pcPatchLazperfFromUncompressed, lazperfCompressFromUncompressed,
    compressAll_ok pa.schema hdata, ok_bind, hcount, h.records_eq]
  have hsize : (E.encoded (initSchema pa.schema).fields pts).length ≠ sizeMax := by
    unfold sizeMax
    omega
  simp only [if_true, pure_eq_ok]
  rw [ok_bind]
  simp only [ne_eq, hsize, not_false_eq_true, if_true]
  rw [pcalloc_ok hout, ok_bind]
  rw [readAt_whole rfl, ok_bind]

end Convert

/-- What was compressed is returned. -/
theorem pcPatchUncompressedFromLazperf_ok (hE : E.Lossless) {l : PcPatchLazperf}
    {pts : List Bytes} (hlen : pts.length = l.npoints)
    (hwidth : ∀ pt ∈ pts, pt.length = l.schema.size)
    (hmem : l.schema.size * l.npoints < 9223372036854775808)
    (hl : l.lazperf = E.encoded (initSchema l.schema).fields pts)
    (hout : l.lazperf.length < 9223372036854775808) :
    E.pcPatchUncompressedFromLazperf l = .ok {
      readonly := false
      schema := l.schema
      npoints := l.npoints
      bounds := l.bounds
      stats := pcStatsClone l.stats
      maxpoints := l.npoints
      datasize := l.schema.size * l.npoints
      data := bufOf pts.flatten } := by
  obtain ⟨hfields, hpoint⟩ := initSchema_width l.schema
  have hdecoded := hE (initSchema l.schema).fields pts (by rwa [hfields])
  have hflat : pts.flatten.length = l.schema.size * l.npoints := by
    rw [length_flatten_of_width hwidth, hlen, Nat.mul_comm]
  rw [← hl, hlen] at hdecoded
  have hloop := decompressLoop_ok (E := E) l.schema.size_pos hpoint l.npoints
    (l.npoints * l.schema.size + 1) 0 (E.makeDecompressor (initSchema l.schema).fields l.lazperf) []
    (zeros (l.npoints * l.schema.size)) (by rwa [hdecoded]) (length_zeros _) (by omega)
  rw [hdecoded, List.nil_append, List.nil_append, List.length_nil, Nat.zero_add, Nat.zero_add]
    at hloop
  have hsize : l.lazperf.length ≠ sizeMax := by
    unfold sizeMax
    omega
  rw [pcPatchUncompressedFromLazperf, lazperfUncompressFromCompressed]
  simp only
  rw [pcalloc_ok hmem, ok_bind, Nat.mul_comm l.schema.size, hloop, ok_bind]
  simp only [if_true, pure_eq_ok]
  rw [ok_bind]
  simp only [ne_eq, hsize, not_false_eq_true, if_true]
  rw [ok_bind, readAt_whole (by rw [hflat, Nat.mul_comm]), ok_bind]

/-- The fields that were added add up to the size of a point, and the conversion either
reports an error or is turned back into the points. -/
structure Converts (E : LazEngine) (pa : PcPatchUncompressed) (pts : List Bytes) : Prop where
  fields_eq : fieldsWidth (initSchema pa.schema).fields = pa.schema.size
  outcome : Raises (E.pcPatchLazperfFromUncompressed pa) ∨
    ∃ l u, E.pcPatchLazperfFromUncompressed pa = .ok l ∧
      E.pcPatchUncompressedFromLazperf l = .ok u ∧ u.schema = pa.schema ∧
      u.npoints = pa.npoints ∧ u.Holds pts

/-- LAZ conversion fails cleanly or loses nothing exactly if the data of the patch has room
for its points and for no other. -/
theorem converts_iff (hE : E.Lossless) {pa : PcPatchUncompressed} {pts : List Bytes}
    (h : pa.Holds pts) (hdata : pa.datasize ≤ pa.data.content.length)
    (hmem : pa.data.content.length < 9223372036854775808)
    (hout : (E.encoded (initSchema pa.schema).fields pts).length < 9223372036854775808) :
    E.Converts pa pts ↔ pa.datasize / pa.schema.size = pa.npoints := by
  constructor
  · intro hconverts
    by_contra hcount
    have hfault := pcPatchLazperfFromUncompressed_fault (E := E) hdata hcount
    rcases hconverts.outcome with hraises | ⟨l, u, hl, -⟩
    · rw [hfault] at hraises
      exact not_raises_fault hraises
    · rw [hfault] at hl
      exact fault_ne_ok _ hl
  · intro hcount
    have hflat : pts.flatten.length = pts.length * pa.schema.size :=
      length_flatten_of_width h.width_eq
    have hroom : pa.schema.size * pa.npoints < 9223372036854775808 := by
      have hle := h.room
      rw [Nat.mul_comm]
      omega
    refine ⟨(initSchema_width pa.schema).1, .inr ⟨_, _,
      pcPatchLazperfFromUncompressed_ok h hdata hcount hout,
      pcPatchUncompressedFromLazperf_ok hE h.length_eq h.width_eq hroom rfl hout, rfl, rfl, ?_⟩⟩
    refine ⟨h.npoints_lt, ?_, ?_⟩
    · simp only [content_bufOf]
      rw [hflat, h.length_eq]
    · simp only [content_bufOf]
      rw [← h.length_eq]
      exact records_flatten h.width_eq

/-! ## An engine -/

/-- An engine that stores the records as they are. -/
def storing : LazEngine where
  Compressor := Bytes
  Decompressor := Nat × Bytes
  makeCompressor _ := []
  compress output record := output ++ record
  done output := output
  makeDecompressor fields input := (fieldsWidth fields, input)
  decompress d := (d.2.take d.1, (d.1, d.2.drop d.1))

theorem foldl_append_eq (records : List Bytes) (output : Bytes) :
    records.foldl (· ++ ·) output = output ++ records.flatten := by
  induction records generalizing output with
  | nil => simp
  | cons r records ih => simp [ih]

theorem decoded_storing (w n : Nat) (bs : Bytes) :
    storing.decoded (w, bs) n = records w n bs := by
  induction n generalizing bs with
  | zero => rfl
  | succ n ih => simp [decoded, records_succ, storing, ← ih]

theorem storing_lossless : storing.Lossless := by
  intro fields recs hwidth
  have hencoded : storing.encoded fields recs = recs.flatten :=
    foldl_append_eq recs []
  rw [hencoded]
  exact (decoded_storing _ _ _).trans (records_flatten hwidth)

/-- Two points in data that has room for two. -/
theorem converts_iff_witness :
    storing.Converts (patchOfRecords smallPoint.schema [[1, 2], [3, 4]]) [[1, 2], [3, 4]] :=
  (converts_iff storing_lossless (patchOfRecords_holds (by decide) (by decide)) (by decide)
    (by decide) (by decide)).mpr (by decide)

/-- A patch that was made for four points and got one: its data has room for four records, and
the bytes at an unset pointer are copied. -/
theorem converts_fails :
    ∃ p, pcPatchUncompressedBuild Platform.plain smallPoint.schema 4 [smallPoint] = .ok p ∧
      p.Holds [smallPoint.data] ∧ p.datasize = 4 * p.schema.size ∧ p.npoints = 1 ∧
      storing.lazperfCompressFromUncompressed p = .ok (1, none) ∧
      storing.pcPatchLazperfFromUncompressed p = fault ∧
      ¬ storing.Converts p [smallPoint.data] := by
  refine ⟨_, rfl, ⟨by decide, by decide, by decide⟩, rfl, rfl, by rfl, by rfl, fun h => ?_⟩
  rcases h.outcome with hraises | ⟨l, u, hl, -⟩
  · exact not_raises_fault hraises
  · exact fault_ne_ok _ hl

end LazEngine

end Pointcloud
