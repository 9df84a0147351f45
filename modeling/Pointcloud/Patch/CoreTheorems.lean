/-
Pointcloud.Patch.CoreTheorems — a patch stands for a list of points.

The abstract patch is the list of its points, each the bytes of a record.
`PcPatch.Holds P p pts` relates a stored patch to it: an uncompressed patch
has the records one after the other, a dimensional patch has for every
dimension, in some encoding, the values of the points in that dimension. The
conversions between the forms and the lists of points that the library reads
from a patch are shown to agree with it.

Both readers of the dimensional form find the value of a point at an offset
counted in 32 bits. `recordAt` is the record they put together; it is the
point itself as long as no array is longer than `2 ^ 32` bytes
(`recordAt_eq`).
-/
import Pointcloud.Bytes.CodecTheorems
import Pointcloud.Patch.Core
import Mathlib.Data.List.GetD

namespace Pointcloud

open Pointcloud.Base

variable {P : Platform}

/-! ## What a patch holds -/

/-- The records of an uncompressed patch. -/
def PcPatchUncompressed.points (u : PcPatchUncompressed) : List Bytes :=
  records u.schema.size u.npoints u.data.content

/-- The records of an uncompressed patch are `pts`. -/
structure PcPatchUncompressed.Holds (p : PcPatchUncompressed) (pts : List Bytes) : Prop where
  npoints_lt : p.npoints < 4294967296
  room : p.npoints * p.schema.size ≤ p.data.content.length
  records_eq : records p.schema.size p.npoints p.data.content = pts

/-- Every dimension of a dimensional patch holds the values of `pts`. -/
structure PcPatchDimensional.Holds (P : Platform) (d : PcPatchDimensional) (pts : List Bytes) :
    Prop where
  npoints_lt : d.npoints < 4294967296
  npoints_eq : pts.length = d.npoints
  width_eq : ∀ pt ∈ pts, pt.length = d.schema.size
  bytes_hold : List.Forall₂ (fun (dim : PcDimension) (e : PcBytes) =>
    e.interpretation = dim.interpretation ∧ e.npoints = d.npoints ∧
      Stores P e (pts.map dim.bytesIn)) d.schema.dims d.bytes

/-- The points of a patch are `pts`. -/
def PcPatch.Holds (P : Platform) : PcPatch → List Bytes → Prop
  | .uncompressed p, pts => p.Holds pts
  | .dimensional d, pts => d.Holds P pts
  | .lazperf _, _ => False

theorem PcPatchUncompressed.Holds.length_eq {p : PcPatchUncompressed} {pts : List Bytes}
    (h : p.Holds pts) : pts.length = p.npoints := by
  rw [← h.records_eq, length_records]

theorem PcPatchUncompressed.Holds.width_eq {p : PcPatchUncompressed} {pts : List Bytes}
    (h : p.Holds pts) : ∀ pt ∈ pts, pt.length = p.schema.size := by
  rw [← h.records_eq]
  exact fun pt hpt => length_of_mem_records h.room hpt

theorem PcPatch.Holds.length_eq {p : PcPatch} {pts : List Bytes} (h : p.Holds P pts) :
    pts.length = p.npoints := by
  cases p with
  | uncompressed u => exact PcPatchUncompressed.Holds.length_eq h
  | dimensional d => exact PcPatchDimensional.Holds.npoints_eq h
  | lazperf l => exact h.elim

theorem PcPatch.Holds.npoints_lt {p : PcPatch} {pts : List Bytes} (h : p.Holds P pts) :
    p.npoints < 4294967296 := by
  cases p with
  | uncompressed u => exact PcPatchUncompressed.Holds.npoints_lt h
  | dimensional d => exact PcPatchDimensional.Holds.npoints_lt h
  | lazperf l => exact h.elim

theorem PcPatch.Holds.width_eq {p : PcPatch} {pts : List Bytes} (h : p.Holds P pts) :
    ∀ pt ∈ pts, pt.length = p.schema.size := by
  cases p with
  | uncompressed u => exact PcPatchUncompressed.Holds.width_eq h
  | dimensional d => exact PcPatchDimensional.Holds.width_eq h
  | lazperf l => exact h.elim

/-- The statistics of a patch have no part in its points. -/
theorem PcPatchUncompressed.Holds.with_stats {p : PcPatchUncompressed} {pts : List Bytes}
    (h : p.Holds pts) (stats : Option PcStats) : ({ p with stats := stats }).Holds pts :=
  ⟨h.npoints_lt, h.room, h.records_eq⟩

theorem PcPatchDimensional.Holds.with_stats {d : PcPatchDimensional} {pts : List Bytes}
    (h : d.Holds P pts) (stats : Option PcStats) : ({ d with stats := stats }).Holds P pts :=
  ⟨h.npoints_lt, h.npoints_eq, h.width_eq, h.bytes_hold⟩

/-- A dimension of the schema has its array at its position. -/
theorem PcPatchDimensional.Holds.array_at {d : PcPatchDimensional} {pts : List Bytes}
    (h : d.Holds P pts) {dim : PcDimension} (hd : dim ∈ d.schema.dims) :
    ∃ e, wordAt d.bytes dim.position = .ok e ∧ e.interpretation = dim.interpretation ∧
      e.npoints = d.npoints ∧ Stores P e (pts.map dim.bytesIn) := by
  obtain ⟨i, hi, rfl⟩ := List.mem_iff_getElem.mp hd
  have hi' : i < d.bytes.length := by
    rw [← h.bytes_hold.length_eq]
    exact hi
  refine ⟨d.bytes[i], ?_, (List.forall₂_iff_get.mp h.bytes_hold).2 i hi hi'⟩
  rw [d.schema.position_eq i hi, wordAt_ok hi']

/-- An array of the patch is that of a dimension. -/
theorem PcPatchDimensional.Holds.dim_of_mem {d : PcPatchDimensional} {pts : List Bytes}
    (h : d.Holds P pts) {e : PcBytes} (he : e ∈ d.bytes) :
    ∃ dim ∈ d.schema.dims, e.interpretation = dim.interpretation ∧ e.npoints = d.npoints ∧
      Stores P e (pts.map dim.bytesIn) := by
  obtain ⟨i, hi, rfl⟩ := List.mem_iff_getElem.mp he
  have hi' : i < d.schema.dims.length := by
    rw [h.bytes_hold.length_eq]
    exact hi
  exact ⟨d.schema.dims[i], List.getElem_mem hi',
    (List.forall₂_iff_get.mp h.bytes_hold).2 i hi' hi⟩

/-- The size of an uncompressed patch is that of its records. -/
def RecordsSized : PcPatch → Prop
  | .uncompressed u => u.datasize = u.npoints * u.schema.size
  | _ => True

/-! ## A patch holds one list of points -/

/-- An array holds one list of values. -/
theorem Stores.unique {e : PcBytes} {vs us : List Bytes} (h : Stores P e vs) (h' : Stores P e us)
    (hnp : e.npoints < 4294967296) : vs = us := by
  obtain ⟨d, hd, -, hvs, -⟩ := pcBytesDecode_ok h hnp
  obtain ⟨d', hd', -, hus, -⟩ := pcBytesDecode_ok h' hnp
  rw [hd, Except.ok.injEq] at hd'
  rw [← hvs, ← hus, hd']

/-- Points with the same columns are the same. -/
theorem points_eq_of_columns {s : PcSchema} {pts qts : List Bytes}
    (hpts : ∀ pt ∈ pts, pt.length = s.size) (hqts : ∀ pt ∈ qts, pt.length = s.size)
    (hcolumns : ∀ d ∈ s.dims, pts.map d.bytesIn = qts.map d.bytesIn) : pts = qts := by
  obtain ⟨d, hd⟩ := List.exists_mem_of_ne_nil s.dims s.dims_ne
  have hlen : pts.length = qts.length := by
    rw [← List.length_map d.bytesIn, hcolumns d hd, List.length_map]
  apply List.ext_getElem hlen
  intro i hi hi'
  rw [← s.flatten_bytesIn (hpts _ (List.getElem_mem hi)),
    ← s.flatten_bytesIn (hqts _ (List.getElem_mem hi'))]
  congr 1
  refine List.map_congr_left fun d hd => ?_
  have hget := congrArg (fun column => column[i]?) (hcolumns d hd)
  simpa [hi, hi'] using hget

theorem PcPatchUncompressed.Holds.unique {p : PcPatchUncompressed} {pts qts : List Bytes}
    (h : p.Holds pts) (h' : p.Holds qts) : pts = qts := h.records_eq.symm.trans h'.records_eq

theorem PcPatchDimensional.Holds.unique {d : PcPatchDimensional} {pts qts : List Bytes}
    (h : d.Holds P pts) (h' : d.Holds P qts) : pts = qts := by
  refine points_eq_of_columns h.width_eq h'.width_eq fun dim hd => ?_
  obtain ⟨e, he, -, hnp, hstores⟩ := h.array_at hd
  obtain ⟨e', he', -, -, hstores'⟩ := h'.array_at hd
  rw [he, Except.ok.injEq] at he'
  subst he'
  exact hstores.unique hstores' (hnp ▸ h.npoints_lt)

theorem PcPatch.Holds.unique {p : PcPatch} {pts qts : List Bytes} (h : p.Holds P pts)
    (h' : p.Holds P qts) : pts = qts := by
  cases p with
  | uncompressed u => exact PcPatchUncompressed.Holds.unique h h'
  | dimensional d => exact PcPatchDimensional.Holds.unique h h'
  | lazperf l => exact h.elim

/-! ## Records put together from dimensions -/

/-- The index of the value that is read for point `i` in an array of values of
width `w`: the offset `w * i` is counted in 32 bits. -/
def wrapIndex (w i : Nat) : Nat := i % (4294967296 / w)

/-- The record that is put together for point `i`. -/
def recordAt (s : PcSchema) (pts : List Bytes) (i : Nat) : Bytes :=
  (s.dims.map fun d => d.bytesIn (pts.getD (wrapIndex d.size i) [])).flatten

theorem wrapIndex_le (w i : Nat) : wrapIndex w i ≤ i := Nat.mod_le _ _

theorem uint32_mul {w : Nat} (hw : WordWidth w) (i : Nat) :
    uint32 (w * i) = w * wrapIndex w i := by
  have hdvd : 4294967296 = w * (4294967296 / w) := by
    rcases hw with rfl | rfl | rfl | rfl <;> rfl
  unfold uint32 wrapIndex
  conv_lhs => rw [hdvd]
  exact Nat.mul_mod_mul_left w i _

theorem wrapIndex_of_lt {w i : Nat} (hw : WordWidth w) (h : w * i < 4294967296) :
    wrapIndex w i = i := by
  apply Nat.mod_eq_of_lt
  rw [Nat.lt_div_iff_mul_lt hw.pos]
  rcases hw with rfl | rfl | rfl | rfl <;> omega

theorem PcSchema.wordWidth (s : PcSchema) {d : PcDimension} (hd : d ∈ s.dims) :
    WordWidth d.size := by
  rw [s.dim_size hd]
  exact Interpretation.size_cases (s.dim_known hd)

theorem zip_zipWith {α β γ : Type} (f : α → β → γ) : ∀ (xs : List α) (ys : List β),
    xs.zip (List.zipWith f xs ys) = (xs.zip ys).map fun p => (p.1, f p.1 p.2)
  | [], _ => rfl
  | _ :: _, [] => rfl
  | x :: xs, y :: ys => by
      rw [List.zipWith_cons_cons, List.zip_cons_cons, zip_zipWith f xs ys]
      rfl

/-- Pieces of the sizes of the dimensions, each at the offset of its
dimension, follow on each other. -/
theorem zip_offset_eq_follow (s : PcSchema) {cs : List Bytes}
    (h : cs.map List.length = s.dims.map PcDimension.size) (start : Nat) :
    ((s.dims.zip cs).map fun dc => (((start + dc.1.byteoffset : Nat) : Int), dc.2)) =
      follow start cs := by
  have hlen : cs.length = s.dims.length := by
    have := congrArg List.length h
    simpa using this
  apply List.ext_getElem?
  intro j
  by_cases hj : j < s.dims.length
  · have hj' : j < cs.length := by omega
    have hoff : (cs.take j).flatten.length = s.dims[j].byteoffset := by
      rw [List.length_flatten, List.map_take, h, s.byteoffset_eq j hj, sizeOfDims, List.map_take]
    have hzip : j < (s.dims.zip cs).length := by
      rw [List.length_zip]
      omega
    rw [follow_getElem? _ _ _ hj', hoff, List.getElem?_map, List.getElem?_eq_getElem hzip,
      List.getElem_zip]
    rfl
  · rw [List.getElem?_eq_none (by simp; omega), List.getElem?_eq_none (by simp; omega)]

/-- The same for pieces that depend on the dimension alone. -/
theorem map_offset_eq_follow (s : PcSchema) {g : PcDimension → Bytes}
    (h : ∀ d ∈ s.dims, (g d).length = d.size) (start : Nat) :
    (s.dims.map fun d => (((start + d.byteoffset : Nat) : Int), g d)) =
      follow start (s.dims.map g) := by
  have hlen : (s.dims.map g).map List.length = s.dims.map PcDimension.size := by
    rw [List.map_map]
    exact List.map_congr_left fun d hd => h d hd
  rw [← zip_offset_eq_follow s hlen start, zip_map_self, List.map_map]
  rfl

section Records

variable {s : PcSchema} {pts : List Bytes} (hwidth : ∀ pt ∈ pts, pt.length = s.size)

include hwidth

theorem length_piece {d : PcDimension} (hd : d ∈ s.dims) {i : Nat} (hi : i < pts.length) :
    (d.bytesIn (pts.getD (wrapIndex d.size i) [])).length = d.size := by
  have hlt : wrapIndex d.size i < pts.length := Nat.lt_of_le_of_lt (wrapIndex_le _ _) hi
  rw [List.getD_eq_getElem _ _ hlt]
  exact s.length_bytesIn hd (hwidth _ (List.getElem_mem hlt))

theorem lengths_pieces {i : Nat} (hi : i < pts.length) :
    (s.dims.map fun d => d.bytesIn (pts.getD (wrapIndex d.size i) [])).map List.length =
      s.dims.map PcDimension.size := by
  rw [List.map_map]
  exact List.map_congr_left fun d hd => length_piece hwidth hd hi

theorem length_recordAt {i : Nat} (hi : i < pts.length) : (recordAt s pts i).length = s.size := by
  rw [recordAt, List.length_flatten, lengths_pieces hwidth hi, s.size_eq, sizeOfDims]

/-- Where no offset wraps around, the record is the point. -/
theorem recordAt_eq {i : Nat} (hi : i < pts.length)
    (hsmall : ∀ d ∈ s.dims, d.size * i < 4294967296) : recordAt s pts i = pts[i] := by
  have hpieces : (s.dims.map fun d => d.bytesIn (pts.getD (wrapIndex d.size i) []))
      = s.dims.map fun d => d.bytesIn pts[i] := by
    apply List.map_congr_left
    intro d hd
    rw [wrapIndex_of_lt (s.wordWidth hd) (hsmall d hd), List.getD_eq_getElem _ _ hi]
  rw [recordAt, hpieces, s.flatten_bytesIn (hwidth _ (List.getElem_mem hi))]

end Records

/-- The arrays of the dimensions hold the values of the points as they are. -/
def PlainDims (s : PcSchema) (pts : List Bytes) (bytes : List PcBytes) : Prop :=
  List.Forall₂ (fun (dim : PcDimension) (e : PcBytes) =>
    e.interpretation = dim.interpretation ∧ e.Plain ∧ e.values = pts.map dim.bytesIn) s.dims bytes

/-- What is read for point `i` in the array of a dimension. -/
theorem readAt_value {s : PcSchema} {pts : List Bytes} {dim : PcDimension}
    (hd : dim ∈ s.dims) {e : PcBytes} (hinterp : e.interpretation = dim.interpretation)
    (hplain : e.Plain) (hvalues : e.values = pts.map dim.bytesIn) {i : Nat} (hi : i < pts.length) :
    readAt e.bytes (uint32 (dim.size * i)) dim.size =
      .ok (dim.bytesIn (pts.getD (wrapIndex dim.size i) [])) := by
  have hwidth : e.width = dim.size := by rw [s.dim_size hd, PcBytes.width, hinterp]
  have hlen : e.npoints = pts.length := by
    rw [← e.length_values, hvalues, List.length_map]
  have hlt : wrapIndex dim.size i < pts.length := Nat.lt_of_le_of_lt (wrapIndex_le _ _) hi
  have hroom := hplain.room
  rw [hwidth, hlen] at hroom
  have hend : dim.size * wrapIndex dim.size i + dim.size ≤ e.bytes.length := by
    have := Nat.mul_le_mul_right dim.size (Nat.succ_le_of_lt hlt)
    rw [Nat.succ_mul, Nat.mul_comm] at this
    omega
  have hvalue := records_getElem? e.width e.npoints e.bytes (wrapIndex dim.size i)
    (by rw [hlen]; exact hlt)
  rw [← PcBytes.values, hvalues, List.getElem?_map, List.getElem?_eq_getElem hlt, Option.map_some,
    Option.some.injEq, hwidth, Nat.mul_comm] at hvalue
  rw [uint32_mul (s.wordWidth hd), readAt_ok hend, List.getD_eq_getElem _ _ hlt, ← hvalue]

/-- Of the arrays only the bytes are read. -/
theorem recordCopies_congr (s : PcSchema) (n : Nat) {bytes bytes' : List PcBytes}
    (h : bytes.map PcBytes.bytes = bytes'.map PcBytes.bytes) :
    recordCopies s bytes n = recordCopies s bytes' n := by
  have hbytes : ∀ bs : List PcBytes, recordCopies s bs n = (do
      let copies ← (List.range n).mapM fun i =>
        (s.dims.zip (bs.map PcBytes.bytes)).mapM fun (dim, block) => do
          let src ← readAt block (uint32 (dim.size * i)) dim.size
          return (((i * s.size + dim.byteoffset : Nat) : Int), src)
      return copies.flatten) := by
    intro bs
    simp only [recordCopies, List.zip_map_right, List.mapM_map]
    rfl
  rw [hbytes, hbytes, h]

/-- The copies that put record `i` together. -/
theorem rowCopies_ok {s : PcSchema} {pts : List Bytes} (hwidth : ∀ pt ∈ pts, pt.length = s.size)
    {bytes : List PcBytes} (h : PlainDims s pts bytes) {i : Nat} (hi : i < pts.length) :
    ((s.dims.zip bytes).mapM fun (dim, pcb) => (do
        let src ← readAt pcb.bytes (uint32 (dim.size * i)) dim.size
        return (((i * s.size + dim.byteoffset : Nat) : Int), src) : Run (Int × Bytes)))
      = .ok (follow (i * s.size)
          (s.dims.map fun d => d.bytesIn (pts.getD (wrapIndex d.size i) []))) := by
  rw [← map_offset_eq_follow s (fun d hd => length_piece hwidth hd hi) (i * s.size)]
  refine mapM_zip_eq_ok h ?_
  rintro dim e hd ⟨hinterp, hplain, hvalues⟩
  simp only
  rw [readAt_value hd hinterp hplain hvalues hi, ok_bind, pure_eq_ok]

/-- The copies that put the records together follow on each other. -/
theorem recordCopies_ok {s : PcSchema} {pts : List Bytes}
    (hwidth : ∀ pt ∈ pts, pt.length = s.size) {bytes : List PcBytes} (h : PlainDims s pts bytes)
    {n : Nat} (hn : n ≤ pts.length) :
    recordCopies s bytes n = .ok (follow 0 ((List.range n).map fun i =>
      s.dims.map fun d => d.bytesIn (pts.getD (wrapIndex d.size i) [])).flatten) := by
  have hlen : ∀ i < n, (s.dims.map fun d =>
      d.bytesIn (pts.getD (wrapIndex d.size i) [])).flatten.length = s.size :=
    fun i hi => length_recordAt hwidth (Nat.lt_of_lt_of_le hi hn)
  rw [recordCopies, mapM_eq_ok_map fun i hi => rowCopies_ok hwidth h
    (Nat.lt_of_lt_of_le (List.mem_range.mp hi) hn), ok_bind, pure_eq_ok, follow_rows _ n hlen]

/-- Written into a block of the size of all records, they fill it. -/
theorem writeAll_recordCopies {s : PcSchema} {pts : List Bytes}
    (hwidth : ∀ pt ∈ pts, pt.length = s.size) {n : Nat} (hn : n ≤ pts.length) {block : Bytes}
    (hblock : block.length = n * s.size) :
    writeAll block (follow 0 ((List.range n).map fun i =>
      s.dims.map fun d => d.bytesIn (pts.getD (wrapIndex d.size i) [])).flatten) =
    .ok ((List.range n).map (recordAt s pts)).flatten := by
  have hjoin : (((List.range n).map fun i =>
      s.dims.map fun d => d.bytesIn (pts.getD (wrapIndex d.size i) [])).flatten).flatten
      = ((List.range n).map (recordAt s pts)).flatten := by
    rw [List.flatten_flatten, List.map_map]
    rfl
  have hlen : ((List.range n).map (recordAt s pts)).flatten.length = n * s.size := by
    rw [length_flatten_of_width (w := s.size), List.length_map, List.length_range]
    intro c hc
    obtain ⟨i, hi, rfl⟩ := List.mem_map.mp hc
    exact length_recordAt hwidth (Nat.lt_of_lt_of_le (List.mem_range.mp hi) hn)
  rw [writeAll_fill (by rw [hjoin, hlen, hblock]), hjoin]

/-! ## Room for records -/

/-- What a patch is made with. -/
theorem pcPatchUncompressedMake_fields {s : PcSchema} {maxpoints : Nat} {p : PcPatchUncompressed}
    (h : pcPatchUncompressedMake s maxpoints = .ok p) :
    p.schema = s ∧ p.npoints = 0 ∧ p.maxpoints = maxpoints ∧ p.datasize = s.size * maxpoints ∧
      p.data.content.length = s.size * maxpoints := by
  rw [pcPatchUncompressedMake, if_neg (Nat.ne_of_gt s.size_pos)] at h
  obtain ⟨data, hdata, h⟩ := bind_eq_ok.mp h
  cases h
  unfold pcalloc at hdata
  split at hdata
  · cases hdata
    exact ⟨rfl, rfl, rfl, rfl, by rw [content_bufOf, length_zeros]⟩
  · exact absurd hdata (fault_ne_ok data)

/-- Nothing is known of its points yet. -/
theorem pcPatchUncompressedMake_summary {s : PcSchema} {maxpoints : Nat} {p : PcPatchUncompressed}
    (h : pcPatchUncompressedMake s maxpoints = .ok p) :
    p.bounds = pcBoundsInit ∧ p.stats = none := by
  rw [pcPatchUncompressedMake, if_neg (Nat.ne_of_gt s.size_pos)] at h
  obtain ⟨data, -, h⟩ := bind_eq_ok.mp h
  cases h
  exact ⟨rfl, rfl⟩

/-- A patch that was made could be allocated. -/
theorem room_of_pcPatchUncompressedMake {s : PcSchema} {maxpoints : Nat} {p : PcPatchUncompressed}
    (h : pcPatchUncompressedMake s maxpoints = .ok p) :
    s.size * maxpoints < 9223372036854775808 := by
  rw [pcPatchUncompressedMake, if_neg (Nat.ne_of_gt s.size_pos)] at h
  obtain ⟨data, hdata, -⟩ := bind_eq_ok.mp h
  by_contra hlarge
  rw [pcalloc, if_neg hlarge] at hdata
  exact fault_ne_ok data hdata

/-- A new patch with room for records. -/
theorem pcPatchUncompressedMake_ok {s : PcSchema} {n : Nat}
    (hroom : s.size * n < 9223372036854775808) :
    ∃ q, pcPatchUncompressedMake s n = .ok q ∧ q.schema = s ∧ q.datasize = s.size * n ∧
      q.bounds = pcBoundsInit ∧ q.data.content = zeros (s.size * n) := by
  have hpos := s.size_pos
  unfold pcPatchUncompressedMake
  rw [if_neg (by omega), pcalloc_ok hroom, ok_bind, pure_eq_ok]
  exact ⟨_, rfl, rfl, rfl, rfl, content_bufOf _⟩

/-- The patch that is read from records. -/
def patchOfRecords (s : PcSchema) (recs : List Bytes) : PcPatchUncompressed where
  readonly := false
  schema := s
  npoints := recs.length
  bounds := ⟨0, 0, 0, 0⟩
  stats := none
  maxpoints := recs.length
  datasize := s.size * recs.length
  data := bufOf recs.flatten

theorem patchOfRecords_holds {s : PcSchema} {recs : List Bytes}
    (h : ∀ r ∈ recs, r.length = s.size) (hlt : recs.length < 4294967296) :
    (patchOfRecords s recs).Holds recs := by
  refine ⟨hlt, ?_, ?_⟩
  · rw [patchOfRecords, content_bufOf, length_flatten_of_width h]
  · rw [patchOfRecords, content_bufOf, records_flatten h]

/-! ## From dimensions to records -/

/-- Decoding a dimensional patch gives the values of its points. -/
theorem pcPatchDimensionalDecompress_ok {d : PcPatchDimensional} {pts : List Bytes}
    (h : d.Holds P pts) :
    ∃ bytes, pcPatchDimensionalDecompress P d =
        .ok { d with bytes := bytes, stats := pcStatsClone d.stats } ∧
      PlainDims d.schema pts bytes := by
  have hdecode : ∀ (dim : PcDimension) (e : PcBytes), dim ∈ d.schema.dims →
      (e.interpretation = dim.interpretation ∧ e.npoints = d.npoints ∧
        Stores P e (pts.map dim.bytesIn)) →
      ∃ z, pcBytesDecode P e = .ok z ∧ (z.interpretation = dim.interpretation ∧ z.Plain ∧
        z.values = pts.map dim.bytesIn) := by
    rintro dim e - ⟨hinterp, hnp, hstores⟩
    obtain ⟨z, hz, hplain, hvalues, -, hzi, -⟩ :=
      pcBytesDecode_ok hstores (by rw [hnp]; exact h.npoints_lt)
    exact ⟨z, hz, hzi.trans hinterp, hplain, hvalues⟩
  obtain ⟨bytes, hbytes, hplain⟩ := mapM_forall₂ h.bytes_hold hdecode
  refine ⟨bytes, ?_, hplain⟩
  rw [pcPatchDimensionalDecompress, hbytes, ok_bind, pure_eq_ok]

theorem intCount_of_lt {n : Nat} (h : n < 2147483648) : intCount n = n := by
  rw [intCount, int32_natCast h, Int.toNat_natCast]

/-- The records that are put together for all points. -/
def recordsOf (s : PcSchema) (pts : List Bytes) : List Bytes :=
  (List.range pts.length).map (recordAt s pts)

@[simp] theorem length_recordsOf (s : PcSchema) (pts : List Bytes) :
    (recordsOf s pts).length = pts.length := by
  simp [recordsOf]

theorem width_recordsOf {s : PcSchema} {pts : List Bytes}
    (hwidth : ∀ pt ∈ pts, pt.length = s.size) : ∀ r ∈ recordsOf s pts, r.length = s.size := by
  intro r hr
  obtain ⟨i, hi, rfl⟩ := List.mem_map.mp hr
  exact length_recordAt hwidth (List.mem_range.mp hi)

/-- Where no offset wraps around, these are the points. -/
theorem recordsOf_eq {s : PcSchema} {pts : List Bytes} (hwidth : ∀ pt ∈ pts, pt.length = s.size)
    (hsmall : ∀ d ∈ s.dims, d.size * pts.length ≤ 4294967296) : recordsOf s pts = pts := by
  apply List.ext_getElem (length_recordsOf s pts)
  intro i _ hi
  simp only [recordsOf, List.getElem_map, List.getElem_range]
  refine recordAt_eq hwidth hi fun d hd => ?_
  have hle := hsmall d hd
  have hlt := Nat.mul_lt_mul_of_pos_left hi (s.wordWidth hd).pos
  omega

/-- Points wrapped around the records of a block. -/
theorem mapM_pcPointFromData (s : PcSchema) {data : Bytes} {n : Nat}
    (h : n * s.size ≤ data.length) :
    ∃ l, (List.range n).mapM (fun i => pcPointFromData s data (i * s.size : Nat)) = .ok l ∧
      l.map PcPoint.data = records s.size n data := by
  have hpoint : ∀ i j : Nat, i ∈ List.range n → i = j →
      ∃ z, pcPointFromData s data (j * s.size : Nat) = .ok z ∧
        z.data = (data.drop (i * s.size)).take s.size := by
    rintro i _ hi rfl
    have hend : i * s.size + s.size ≤ data.length := by
      have := Nat.mul_le_mul_right s.size (Nat.succ_le_of_lt (List.mem_range.mp hi))
      rw [Nat.succ_mul] at this
      omega
    exact ⟨_, pcPointFromData_ok hend, rfl⟩
  obtain ⟨l, hl, hdata⟩ := mapM_forall₂ (List.forall₂_same.mpr fun i _ => rfl) hpoint
  have hlen : l.length = n := by rw [← hdata.length_eq, List.length_range]
  refine ⟨l, hl, ?_⟩
  apply List.ext_getElem (by rw [List.length_map, length_records, hlen])
  intro i h₁ h₂
  have hi : i < (List.range n).length := by simpa [hlen] using h₁
  have hi' : i < l.length := by simpa using h₁
  have hget := (List.forall₂_iff_get.mp hdata).2 i hi hi'
  rw [List.get_eq_getElem, List.get_eq_getElem, List.getElem_range] at hget
  rw [List.getElem_map, records_getElem, hget]

/-- The decoded arrays of a patch have the bytes of plain arrays of the values of
`pts`. -/
structure DecodesTo (P : Platform) (d : PcPatchDimensional) (pts : List Bytes) : Prop where
  npoints_eq : pts.length = d.npoints
  width_eq : ∀ pt ∈ pts, pt.length = d.schema.size
  decoded : ∃ bytes plain, pcPatchDimensionalDecompress P d =
      .ok { d with bytes := bytes, stats := pcStatsClone d.stats } ∧
    PlainDims d.schema pts plain ∧ bytes.map PcBytes.bytes = plain.map PcBytes.bytes

theorem PcPatchDimensional.Holds.decodesTo {d : PcPatchDimensional} {pts : List Bytes}
    (h : d.Holds P pts) : DecodesTo P d pts := by
  obtain ⟨bytes, hplain, hdims⟩ := pcPatchDimensionalDecompress_ok h
  exact ⟨h.npoints_eq, h.width_eq, bytes, bytes, hplain, hdims, rfl⟩

section DecodesTo

variable {d : PcPatchDimensional} {pts : List Bytes} (h : DecodesTo P d pts)
  (hint : d.npoints < 2147483648)

include h hint

theorem DecodesTo.uncompressed :
    pcPatchUncompressedFromDimensional P d = .ok {
      readonly := false
      schema := d.schema
      npoints := d.npoints
      bounds := d.bounds
      stats := pcStatsClone d.stats
      maxpoints := d.npoints
      datasize := d.schema.size * d.npoints
      data := bufOf (recordsOf d.schema pts).flatten } := by
  obtain ⟨bytes, plain, hdecoded, hdims, hbytes⟩ := h.decoded
  have hsize := d.schema.size_lt
  have hle : d.schema.size * d.npoints < 9223372036854775808 :=
    Nat.mul_lt_mul'' hsize hint
  have hlen := h.npoints_eq
  unfold pcPatchUncompressedFromDimensional
  simp only
  rw [pcalloc_ok hle, ok_bind, hdecoded, ok_bind, intCount_of_lt hint,
    recordCopies_congr d.schema d.npoints hbytes, recordCopies_ok h.width_eq hdims (by omega),
    ok_bind, writeAll_recordCopies h.width_eq (by omega) (by rw [length_zeros, Nat.mul_comm]),
    ok_bind, pure_eq_ok, recordsOf, hlen]

theorem DecodesTo.pointlist :
    ∃ l, pcPointlistFromDimensional P d = .ok l ∧
      l.map PcPoint.data = recordsOf d.schema pts := by
  obtain ⟨bytes, plain, hdecoded, hdims, hbytes⟩ := h.decoded
  have hlen := h.npoints_eq
  have hle : d.npoints * d.schema.size < 9223372036854775808 :=
    Nat.mul_lt_mul'' hint d.schema.size_lt
  have hwidth := width_recordsOf h.width_eq
  have hflat : (recordsOf d.schema pts).flatten.length = d.npoints * d.schema.size := by
    rw [length_flatten_of_width hwidth, length_recordsOf, hlen]
  obtain ⟨l, hl, hdata⟩ := mapM_pcPointFromData d.schema (Nat.le_of_eq hflat.symm)
  refine ⟨l, ?_, ?_⟩
  · unfold pcPointlistFromDimensional
    rw [hdecoded, ok_bind, int32_natCast hint, if_neg (by omega), pcalloc_ok hle, ok_bind,
      intCount_of_lt hint, recordCopies_congr d.schema d.npoints hbytes,
      recordCopies_ok h.width_eq hdims (by omega), ok_bind,
      writeAll_recordCopies h.width_eq (by omega) (length_zeros _), ok_bind, ← hl, recordsOf, hlen]
  · rw [hdata, ← hlen, ← length_recordsOf d.schema pts, records_flatten hwidth]

end DecodesTo

/-- The uncompressed form of a dimensional patch. -/
theorem pcPatchUncompressedFromDimensional_ok {d : PcPatchDimensional} {pts : List Bytes}
    (h : d.Holds P pts) (hint : d.npoints < 2147483648) :
    pcPatchUncompressedFromDimensional P d = .ok {
      readonly := false
      schema := d.schema
      npoints := d.npoints
      bounds := d.bounds
      stats := pcStatsClone d.stats
      maxpoints := d.npoints
      datasize := d.schema.size * d.npoints
      data := bufOf (recordsOf d.schema pts).flatten } := h.decodesTo.uncompressed hint

/-- The points that the library reads from a dimensional patch. -/
theorem pcPointlistFromDimensional_ok {d : PcPatchDimensional} {pts : List Bytes}
    (h : d.Holds P pts) (hint : d.npoints < 2147483648) :
    ∃ l, pcPointlistFromDimensional P d = .ok l ∧
      l.map PcPoint.data = recordsOf d.schema pts := h.decodesTo.pointlist hint

/-- The points that the library reads from an uncompressed patch. -/
theorem pcPointlistFromUncompressed_ok {p : PcPatchUncompressed} {pts : List Bytes}
    (h : p.Holds pts) (hint : p.npoints ≤ 2147483648) :
    ∃ l, pcPointlistFromUncompressed p = .ok l ∧ l.map PcPoint.data = pts := by
  obtain ⟨l, hl, hdata⟩ := mapM_pcPointFromData p.schema h.room
  refine ⟨l, ?_, hdata.trans h.records_eq⟩
  rw [pcPointlistFromUncompressed, intLoop_ok hint, ok_bind, hl]

/-- From `2 ^ 31` points on the reader of the dimensional form asks for memory
of a negative size. -/
theorem pcPointlistFromDimensional_not_ok {d : PcPatchDimensional} (hlt : d.npoints < 4294967296)
    (hint : 2147483648 ≤ d.npoints) (l : List PcPoint) :
    pcPointlistFromDimensional P d ≠ .ok l := by
  have hneg : int32 d.npoints < 0 := by
    unfold int32
    omega
  intro hok
  obtain ⟨plain, -, hrest⟩ := bind_eq_ok.mp hok
  rw [if_pos hneg] at hrest
  exact fault_ne_ok _ hrest

theorem pcPointlistFromUncompressed_not_ok {p : PcPatchUncompressed}
    (hint : 2147483648 < p.npoints) (l : List PcPoint) :
    pcPointlistFromUncompressed p ≠ .ok l := by
  rw [pcPointlistFromUncompressed, intLoop_fault hint, fault_bind]
  exact fault_ne_ok l

end Pointcloud
