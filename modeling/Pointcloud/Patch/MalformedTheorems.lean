/-
Pointcloud.Patch.MalformedTheorems — reading WKB that no writer has written.

`pc_patch_from_wkb` is given the size of the WKB, but of the functions that it calls only the
reader of records compares anything with it. The head is read without a look at the size, and so
are the segments of dimensions; what stands in a segment is not looked at before the extent and
the statistics are computed. So there are bytes on which the reader leaves the WKB or a segment,
or fails an assertion. `WkbAnswers` are those on which it does not, and returns a patch or
reports an error (`pcPatchFromWkb_answers_iff`).

The condition has a part for each part of the reader.

* The head: nine bytes for pcid and compression, and four more where the number of points is
  read. An error that is reported about them ends the reading, and asks for nothing else.
* Records: they are all there, or the difference in size is reported. What is left are an
  `int` that runs over the points, and a schema without x or y.
* Segments: the bytes are of the form that `SegmentsRead` describes.
* Arrays: the extent searches those of x and y, and the statistics decode all of them, one after
  the other up to the first whose encoding is reported. What a single array has to be for that is
  said in `Pointcloud.Bytes.MalformedTheorems`. A plain array is not decoded; it may be shorter
  than its values as long as nobody copies them.

Every step of the proof is an equivalence, so that the whole is one: `answers_bind` and
`answers_mapM` take a sequence apart into its first run and what follows on its value.
-/
import Mathlib.Data.List.TakeWhile
import Pointcloud.Patch.ByteOrderTheorems
import Pointcloud.Patch.SegmentTheorems
import Pointcloud.Patch.SentinelTheorems

namespace Pointcloud

open Pointcloud.Base

variable {P : Platform}

/-! ## Putting the records together

Of every array the value of every point is copied to its place in the records, at an offset
that is a product of two 32-bit numbers. A segment has less than 2^31 bytes, but what is decoded
may have up to eight times 2^32 of them. So there are two cases: a block that has room for all
values, where an offset that wraps around stays inside, and a plain one that has not. -/

/-- The values of a block are read where it has room for them: a product that wraps around
points into the block only if that is larger than any segment. -/
theorem readable_iff {w n : Nat} (hw : WordWidth w) {block : Bytes}
    (hshort : block.length < 2147483648 ∨ n * w ≤ block.length) :
    (∀ i < n, ∃ src, readAt block (uint32 (w * i)) w = .ok src) ↔ n * w ≤ block.length := by
  have hpos := hw.pos
  constructor
  · intro h
    by_contra hlarge
    have hlt := hshort.resolve_right hlarge
    by_cases hwrap : n * w ≤ 2147483648
    · -- the last value
      have hn : 1 ≤ n := by
        by_contra hzero
        rw [Nat.eq_zero_of_not_pos hzero] at hlarge
        omega
      have hlast : w * (n - 1) + w = n * w := by
        rw [← Nat.mul_succ, Nat.succ_eq_add_one, Nat.sub_add_cancel hn, Nat.mul_comm]
      obtain ⟨src, hread⟩ := h (n - 1) (by omega)
      rw [uint32_of_lt (by omega), readAt_eq_ok] at hread
      omega
    · -- the value that would begin at `2 ^ 31`
      have hhalf : w * (2147483648 / w) = 2147483648 := by
        rcases hw with rfl | rfl | rfl | rfl <;> rfl
      obtain ⟨src, hread⟩ := h (2147483648 / w) (by
        rw [Nat.div_lt_iff_lt_mul hpos]
        omega)
      rw [hhalf, uint32_of_lt (by decide), readAt_eq_ok] at hread
      omega
  · intro hroom i hi
    have hle : uint32 (w * i) ≤ w * i := Nat.mod_le _ _
    have hend : (i + 1) * w ≤ n * w := Nat.mul_le_mul_right w hi
    rw [Nat.add_one_mul, Nat.mul_comm i] at hend
    exact ⟨_, readAt_ok (by omega)⟩

section Copies

variable {s : PcSchema} {bytes : List PcBytes} {n : Nat}

/-- The copies are made where each value is read from its array. -/
theorem recordCopies_isOk_iff : (∃ copies, recordCopies s bytes n = .ok copies) ↔
    ∀ p ∈ s.dims.zip bytes, ∀ i < n,
      ∃ src, readAt p.2.bytes (uint32 (p.1.size * i)) p.1.size = .ok src := by
  have hrow : ∀ i, (∃ row, ((s.dims.zip bytes).mapM fun p => do
      let src ← readAt p.2.bytes (uint32 (p.1.size * i)) p.1.size
      return (((i * s.size + p.1.byteoffset : Nat) : Int), src)) = .ok row) ↔
      ∀ p ∈ s.dims.zip bytes,
        ∃ src, readAt p.2.bytes (uint32 (p.1.size * i)) p.1.size = .ok src := by
    intro i
    rw [mapM_isOk_iff]
    refine forall₂_congr fun p hp => ?_
    constructor
    · rintro ⟨copy, hcopy⟩
      obtain ⟨src, hsrc, -⟩ := bind_eq_ok.mp hcopy
      exact ⟨src, hsrc⟩
    · rintro ⟨src, hsrc⟩
      exact ⟨_, bind_eq_ok.mpr ⟨src, hsrc, rfl⟩⟩
  rw [recordCopies]
  constructor
  · rintro ⟨copies, h⟩ p hp i hi
    obtain ⟨rows, hrows, -⟩ := bind_eq_ok.mp h
    obtain ⟨row, -, hri⟩ := exists_mem_of_mapM hrows i (List.mem_range.mpr hi)
    exact (hrow i).mp ⟨row, hri⟩ p hp
  · intro h
    obtain ⟨rows, hrows⟩ := mapM_isOk_iff.mpr fun i hi =>
      (hrow i).mpr fun p hp => h p hp i (List.mem_range.mp hi)
    exact ⟨_, by rw [hrows, ok_bind, pure_eq_ok]⟩

theorem not_raises_recordCopies : ¬ Raises (recordCopies s bytes n) :=
  not_raises_bind (not_raises_mapM fun _ => not_raises_mapM fun _ =>
    not_raises_bind (not_raises_readAt _ _ _) fun _ => not_raises_ok _) fun _ => not_raises_ok _

/-- Every copy goes into the record of its point. -/
theorem recordCopies_inside {copies : List (Int × Bytes)} (h : recordCopies s bytes n = .ok copies)
    {p : Int × Bytes} (hp : p ∈ copies) :
    ∃ off : Nat, p.1 = off ∧ off + p.2.length ≤ s.size * n := by
  obtain ⟨rows, hrows, h⟩ := bind_eq_ok.mp h
  cases h
  obtain ⟨row, hrow, hp⟩ := List.mem_flatten.mp hp
  obtain ⟨i, hi, hri⟩ := exists_mem_of_mem_mapM hrows row hrow
  obtain ⟨q, hq, hcopy⟩ := exists_mem_of_mem_mapM hri p hp
  obtain ⟨src, hsrc, hcopy⟩ := bind_eq_ok.mp hcopy
  cases hcopy
  refine ⟨_, rfl, ?_⟩
  have hend := s.dim_end_le (List.of_mem_zip hq).1
  have hrecord := record_end_le (w := s.size) (List.mem_range.mp hi)
  rw [length_of_readAt hsrc, Nat.mul_comm s.size]
  omega

end Copies

/-- A plain array is copied from where it has room for its values; what was decoded has it. -/
theorem readable_array_iff {n : Nat} {dim : PcDimension} {e b : PcBytes} (h : e.Received)
    (hlt : e.size < 2147483648) (hsize : dim.size = e.width) (hn : e.npoints = n)
    (hb : pcBytesDecode P e = .ok b) :
    (∀ i < n, ∃ src, readAt b.bytes (uint32 (dim.size * i)) dim.size = .ok src) ↔
      (e.compression = .none → n * e.width ≤ e.size) := by
  have hw := wordWidth_of_known h.known
  rw [hsize]
  by_cases hc : e.compression = .none
  · have hlen : b.bytes.length = e.size := by
      have hclone : pcBytesClone e = .ok b := by simpa only [pcBytesDecode, hc] using hb
      rw [pcBytesClone_ok (Nat.le_of_eq h.size_eq)] at hclone
      cases hclone
      simp only
      split
      · exact h.size_eq.symm
      · exact length_data (Nat.le_of_eq h.size_eq)
    rw [readable_iff hw (.inl (by omega)), hlen]
    exact ⟨fun hle _ => hle, fun hle => hle hc⟩
  · have hroom := room_of_pcBytesDecode h hb hc
    rw [hn] at hroom
    rw [readable_iff hw (.inr hroom)]
    exact iff_of_true hroom fun hnone => absurd hnone hc

/-- The arrays of a patch, one after the other along the dimensions. -/
theorem readable_arrays_iff {n : Nat} (hn : n < 4294967296) {dims : List PcDimension}
    {es : List PcBytes} (h : ReceivedArrays n dims es) :
    ∀ {plain : List PcBytes},
      (∀ dim ∈ dims, dim.interpretation ≠ .unknown ∧ dim.size = dim.interpretation.size) →
      List.Forall₂ (fun e b => pcBytesDecode P e = .ok b) es plain →
      ((∀ p ∈ dims.zip plain, ∀ i < n,
          ∃ src, readAt p.2.bytes (uint32 (p.1.size * i)) p.1.size = .ok src) ↔
        ∀ e ∈ es, e.compression = .none → n * e.width ≤ e.size) := by
  induction h with
  | nil => simp
  | @cons dim e dims es harray _ ih =>
      intro plain hdims hplain
      obtain ⟨hinterp, hnp, hsize, hlt⟩ := harray
      obtain ⟨b, bs, hb, hbs, rfl⟩ := List.forall₂_cons_left_iff.mp hplain
      obtain ⟨hdim, hdims⟩ := List.forall_mem_cons.mp hdims
      rw [List.zip_cons_cons, List.forall_mem_cons, List.forall_mem_cons, ih hdims hbs]
      refine and_congr_left' (readable_array_iff ⟨hinterp ▸ hdim.1, hsize, hnp ▸ hn⟩ hlt ?_ hnp hb)
      rw [hdim.2, PcBytes.width, hinterp]

/-! ## The arrays of a patch

The arrays are taken in an order, and an encoding that is none of the four ends the reading with
an error. So the conditions are about the arrays in front of the first such encoding, and what
comes after asks for something only where there is none. -/

/-- What putting the records together asks of the arrays. -/
structure ArraysUncompress (en : Endian) (s : PcSchema) (n : Nat) (es : List PcBytes) : Prop where
  -- the records are allocated first
  room : s.size * n < 9223372036854775808
  decodes : ∀ e ∈ es.takeWhile PcBytes.knownEncoding, e.Decodes en
  -- as an `int`, a number of points from 2^31 on is negative, and nothing is copied
  plain : (∀ e ∈ es, e.knownEncoding) → n < 2147483648 →
    ∀ e ∈ es, e.compression = .none → n * e.width ≤ e.size

/-- The arrays are decoded up to the first whose encoding is reported. -/
theorem pcPatchDimensionalDecompress_answers_iff {d : PcPatchDimensional}
    (h : ∀ e ∈ d.bytes, e.Received) : Answers (pcPatchDimensionalDecompress P d) ↔
      ∀ e ∈ d.bytes.takeWhile PcBytes.knownEncoding, e.Decodes P.endian := by
  have hdecode : Answers (d.bytes.mapM (pcBytesDecode P)) ↔
      ∀ e ∈ d.bytes.takeWhile PcBytes.knownEncoding, ∃ b, pcBytesDecode P e = .ok b :=
    answers_mapM fun e he => raises_pcBytesDecode_iff P (h e he).known
  rw [pcPatchDimensionalDecompress, answers_bind, hdecode]
  refine (and_iff_left fun bytes _ => answers_ok _).trans (forall₂_congr fun e he => ?_)
  exact pcBytesDecode_isOk_iff (h e (List.takeWhile_subset _ he))

/-- The records are put together where there is memory for them, the arrays are decoded, and
the plain ones have room for the values that are copied. -/
theorem pcPatchUncompressedFromDimensional_answers_iff {d : PcPatchDimensional}
    (hn : d.npoints < 4294967296) (h : ReceivedArrays d.npoints d.schema.dims d.bytes) :
    Answers (pcPatchUncompressedFromDimensional P d) ↔
      ArraysUncompress P.endian d.schema d.npoints d.bytes := by
  have hreceived : ∀ e ∈ d.bytes, e.Received := fun e he => h.received hn he
  -- what follows on decoding
  have hbehind : ∀ (block : Bytes) (plain : PcPatchDimensional),
      block.length = d.schema.size * d.npoints → pcPatchDimensionalDecompress P d = .ok plain →
      (Answers (do
        let copies ← recordCopies d.schema plain.bytes (intCount d.npoints)
        let data ← writeAll block copies
        return ({
          readonly := false
          schema := d.schema
          npoints := d.npoints
          bounds := d.bounds
          stats := pcStatsClone d.stats
          maxpoints := d.npoints
          datasize := d.schema.size * d.npoints
          data := bufOf data } : PcPatchUncompressed)) ↔
        (d.npoints < 2147483648 → ∀ e ∈ d.bytes, e.compression = .none →
          d.npoints * e.width ≤ e.size)) := by
    intro block plain hblock hplain
    obtain ⟨bytes, hbytes, hplain⟩ := bind_eq_ok.mp hplain
    cases hplain
    have hcount : intCount d.npoints ≤ d.npoints := by
      unfold intCount int32
      omega
    rw [answers_bind, answers_iff_isOk not_raises_recordCopies, recordCopies_isOk_iff]
    -- the copies lie inside the records
    refine (and_iff_left fun copies hcopies => ?_).trans ?_
    · have hinside : ∀ p ∈ copies, ∃ off : Nat, p.1 = off ∧ off + p.2.length ≤ block.length := by
        intro p hp
        obtain ⟨off, hoff, hend⟩ := recordCopies_inside hcopies hp
        have := Nat.mul_le_mul_left d.schema.size hcount
        exact ⟨off, hoff, by omega⟩
      obtain ⟨out, hout⟩ := writeAll_inside hinside
      rw [hout, ok_bind, pure_eq_ok]
      exact answers_ok _
    · by_cases hint : d.npoints < 2147483648
      · rw [intCount_of_lt hint, readable_arrays_iff hn h d.schema.known (mapM_eq_ok_iff.mp hbytes)]
        exact ⟨fun hall _ => hall, fun hall => hall hint⟩
      · rw [intCount_of_le (Nat.not_lt.mp hint) hn]
        exact iff_of_true (fun _ _ i hi => absurd hi (Nat.not_lt_zero i)) fun hlt => absurd hlt hint
  unfold pcPatchUncompressedFromDimensional
  simp only
  by_cases hroom : d.schema.size * d.npoints < 9223372036854775808
  · rw [pcalloc_ok hroom, ok_bind, answers_bind, pcPatchDimensionalDecompress_answers_iff hreceived]
    constructor
    · rintro ⟨hdecodes, hplain⟩
      refine ⟨hroom, hdecodes, fun hknown => ?_⟩
      rw [List.takeWhile_eq_self_iff.mpr hknown] at hdecodes
      obtain ⟨bytes, hbytes⟩ := mapM_isOk_iff.mpr fun e he =>
        (pcBytesDecode_isOk_iff (hreceived e he)).mpr (hdecodes e he)
      have hrun : pcPatchDimensionalDecompress P d =
          .ok { d with bytes := bytes, stats := pcStatsClone d.stats } := by
        rw [pcPatchDimensionalDecompress, hbytes, ok_bind, pure_eq_ok]
      exact (hbehind _ _ (length_zeros _) hrun).mp (hplain _ hrun)
    · rintro ⟨-, hdecodes, hplain⟩
      refine ⟨hdecodes, fun plain hrun => (hbehind _ _ (length_zeros _) hrun).mpr ?_⟩
      -- what was decoded has a known encoding
      obtain ⟨bytes, hbytes, -⟩ := bind_eq_ok.mp hrun
      refine hplain fun e he => ?_
      obtain ⟨b, -, hb⟩ := exists_mem_of_mapM hbytes e he
      by_contra hunknown
      have hraises := (raises_pcBytesDecode_iff P (hreceived e he).known).mpr
        (Bool.eq_false_iff.mpr hunknown)
      rw [hb] at hraises
      exact not_raises_ok b hraises
  · rw [pcalloc, if_neg hroom, fault_bind]
    exact iff_of_false not_answers_fault fun h => hroom h.room

/-- The arrays of x and y, in this order. -/
def axisArrays (s : PcSchema) (es : List PcBytes) : List PcBytes :=
  [s.xdimension, s.ydimension].filterMap fun axis => axis.bind fun dim => es[dim.position]?

/-- What the extent and the statistics of a patch ask of its arrays. -/
structure ArraysAnswer (en : Endian) (s : PcSchema) (n : Nat) (es : List PcBytes) : Prop where
  -- without x or y an assertion fails
  valid : s.Valid
  searchable : ∀ e ∈ (axisArrays s es).takeWhile PcBytes.knownEncoding, e.Searchable en
  uncompress : (∀ e ∈ axisArrays s es, e.knownEncoding) → ArraysUncompress en s n es

theorem mem_of_axisArrays {s : PcSchema} {es : List PcBytes} {e : PcBytes}
    (h : e ∈ axisArrays s es) : e ∈ es := by
  obtain ⟨axis, -, he⟩ := List.mem_filterMap.mp h
  obtain ⟨dim, -, he⟩ := Option.bind_eq_some_iff.mp he
  exact List.mem_of_getElem? he

/-- The search goes through the array of x and then through that of y. So `answers_mapM` says when
it answers, as it does for the decoding of all arrays. -/
theorem pcPatchDimensionalComputeExtent_eq_search {d : PcPatchDimensional}
    (hlen : d.bytes.length = d.schema.dims.length) (hvalid : d.schema.Valid) :
    ∃ f : List MinMaxAvg → PcPatchDimensional, pcPatchDimensionalComputeExtent P d = (do
      let ms ← (axisArrays d.schema d.bytes).mapM (pcBytesMinmax P)
      return f ms) := by
  have hat : ∀ dim ∈ d.schema.dims, ∃ e, d.bytes[dim.position]? = some e := by
    intro dim hdim
    obtain ⟨i, hi, rfl⟩ := List.mem_iff_getElem.mp hdim
    rw [d.schema.position_eq i hi]
    exact ⟨_, List.getElem?_eq_getElem (by omega)⟩
  obtain ⟨xdim, hx, hxdim⟩ := hvalid.xdimension
  obtain ⟨ydim, hy, hydim⟩ := hvalid.ydimension
  obtain ⟨ex, hex⟩ := hat xdim hx
  obtain ⟨ey, hey⟩ := hat ydim hy
  have haxes : axisArrays d.schema d.bytes = [ex, ey] := by
    simp [axisArrays, hxdim, hydim, hex, hey]
  have hrun : pcPatchDimensionalComputeExtent P d = (do
      let x ← pcBytesMinmax P ex
      let y ← pcBytesMinmax P ey
      return { d with bounds := {
        xmin := pcValueScaleOffset x.min xdim
        xmax := pcValueScaleOffset x.max xdim
        ymin := pcValueScaleOffset y.min ydim
        ymax := pcValueScaleOffset y.max ydim } }) := by
    unfold pcPatchDimensionalComputeExtent
    rw [hxdim, hydim]
    simp only [Option.isSome_some, assertThat_true, ok_bind, wordAt_eq_ok.mpr hex,
      wordAt_eq_ok.mpr hey]
  refine ⟨fun ms => { d with bounds := {
    xmin := pcValueScaleOffset (ms.getD 0 ⟨0, 0, 0⟩).min xdim
    xmax := pcValueScaleOffset (ms.getD 0 ⟨0, 0, 0⟩).max xdim
    ymin := pcValueScaleOffset (ms.getD 1 ⟨0, 0, 0⟩).min ydim
    ymax := pcValueScaleOffset (ms.getD 1 ⟨0, 0, 0⟩).max ydim } }, ?_⟩
  rw [hrun, haxes, List.mapM_cons, List.mapM_cons, List.mapM_nil]
  simp only [bind_assoc, pure_eq_ok, ok_bind]
  rfl

/-- Without x or y an assertion fails. -/
theorem pcPatchDimensionalComputeExtent_invalid {d : PcPatchDimensional}
    (hvalid : ¬ d.schema.Valid) : pcPatchDimensionalComputeExtent P d = .error .assertion := by
  have hsome : ∀ {axis : Option Nat}, (axis.bind fun i => d.schema.dims[i]?).isSome → axis.isSome
    | some _, _ => rfl
  unfold pcPatchDimensionalComputeExtent
  by_cases hx : d.schema.xdimension.isSome
  · have hy : ¬ d.schema.ydimension.isSome := fun hy => hvalid ⟨hsome hx, hsome hy⟩
    rw [assertThat_true hx, ok_bind, assertThat, if_neg hy, error_bind]
  · rw [assertThat, if_neg hx, error_bind]

/-- The extent is found where the arrays of x and y are searched, up to one whose encoding is
reported. -/
theorem pcPatchDimensionalComputeExtent_answers_iff {d : PcPatchDimensional}
    (hn : d.npoints < 4294967296) (h : ReceivedArrays d.npoints d.schema.dims d.bytes) :
    Answers (pcPatchDimensionalComputeExtent P d) ↔ d.schema.Valid ∧
      ∀ e ∈ (axisArrays d.schema d.bytes).takeWhile PcBytes.knownEncoding,
        e.Searchable P.endian := by
  by_cases hvalid : d.schema.Valid
  · have hsearch : Answers ((axisArrays d.schema d.bytes).mapM (pcBytesMinmax P)) ↔
        ∀ e ∈ (axisArrays d.schema d.bytes).takeWhile PcBytes.knownEncoding,
          ∃ m, pcBytesMinmax P e = .ok m :=
      answers_mapM fun e he => raises_pcBytesMinmax_iff (h.received hn (mem_of_axisArrays he))
    obtain ⟨f, hrun⟩ := pcPatchDimensionalComputeExtent_eq_search (P := P) h.length_eq.symm hvalid
    rw [hrun, answers_bind, hsearch, and_iff_right hvalid]
    refine (and_iff_left fun ms _ => answers_ok _).trans (forall₂_congr fun e he => ?_)
    have hmem := mem_of_axisArrays (List.takeWhile_subset _ he)
    exact pcBytesMinmax_received_iff (h.received hn hmem)
  · rw [pcPatchDimensionalComputeExtent_invalid hvalid]
    exact iff_of_false not_answers_assertion fun h => hvalid h.1

/-- What is searched has an encoding that there is. -/
theorem PcBytes.Searchable.known {en : Endian} {e : PcBytes} (h : e.Searchable en) :
    e.knownEncoding = true := by
  unfold PcBytes.Searchable at h
  unfold PcBytes.knownEncoding
  cases hc : e.compression with
  | unknown code =>
      rw [hc] at h
      exact h.elim
  | _ => rfl

/-- With x and y in the schema, the extent is found where both arrays are searched. -/
theorem pcPatchDimensionalComputeExtent_received_iff {d : PcPatchDimensional}
    (hn : d.npoints < 4294967296) (h : ReceivedArrays d.npoints d.schema.dims d.bytes)
    (hvalid : d.schema.Valid) : (∃ q, pcPatchDimensionalComputeExtent P d = .ok q) ↔
      ∀ e ∈ axisArrays d.schema d.bytes, e.Searchable P.endian := by
  obtain ⟨f, hrun⟩ := pcPatchDimensionalComputeExtent_eq_search (P := P) h.length_eq.symm hvalid
  have hsearch : (∃ ms, (axisArrays d.schema d.bytes).mapM (pcBytesMinmax P) = .ok ms) ↔
      ∀ e ∈ axisArrays d.schema d.bytes, e.Searchable P.endian :=
    mapM_isOk_iff.trans (forall₂_congr fun e he =>
      pcBytesMinmax_received_iff (h.received hn (mem_of_axisArrays he)))
  rw [hrun, ← hsearch]
  constructor
  · rintro ⟨q, hq⟩
    obtain ⟨ms, hms, -⟩ := bind_eq_ok.mp hq
    exact ⟨ms, hms⟩
  · rintro ⟨ms, hms⟩
    exact ⟨_, bind_eq_ok.mpr ⟨ms, hms, rfl⟩⟩

/-- The extent and the statistics of a patch of segments. -/
theorem dimensional_answers_iff {d : PcPatchDimensional} (hn : d.npoints < 4294967296)
    (h : ReceivedArrays d.npoints d.schema.dims d.bytes) :
    Answers (do
      let patch ← pcPatchComputeExtent P (.dimensional d)
      pcPatchComputeStats P patch) ↔ ArraysAnswer P.endian d.schema d.npoints d.bytes := by
  -- the statistics look at the arrays, which the extent leaves as they are
  have hstats : ∀ b : PcBounds,
      Answers (pcPatchComputeStats P (.dimensional { d with bounds := b })) ↔
        ArraysUncompress P.endian d.schema d.npoints d.bytes := by
    intro b
    rw [← pcPatchUncompressedFromDimensional_answers_iff (d := { d with bounds := b }) hn h,
      pcPatchComputeStats, answers_bind]
    refine and_iff_left fun u hu => ?_
    obtain ⟨hschema, hnp, hlen⟩ := pcPatchUncompressedFromDimensional_room hu
    obtain ⟨stats, hstats, -⟩ := pcPatchUncompressedComputeStats_ok P (p := u)
      (by rw [hlen, hschema, hnp, Nat.mul_comm])
    rw [hstats, ok_bind, pure_eq_ok]
    exact answers_ok _
  rw [pcPatchComputeExtent, bind_assoc, answers_bind,
    pcPatchDimensionalComputeExtent_answers_iff hn h]
  simp only [pure_eq_ok, ok_bind]
  constructor
  · rintro ⟨⟨hvalid, hsearch⟩, hbehind⟩
    -- where both encodings are known the extent was found, and the statistics follow
    refine ⟨hvalid, hsearch, fun hknown => ?_⟩
    rw [List.takeWhile_eq_self_iff.mpr hknown] at hsearch
    obtain ⟨q, hq⟩ := (pcPatchDimensionalComputeExtent_received_iff hn h hvalid).mpr hsearch
    have hanswers := hbehind q hq
    rw [pcPatchDimensionalComputeExtent_eq hq] at hanswers
    exact (hstats q.bounds).mp hanswers
  · rintro ⟨hvalid, hsearch, huncompress⟩
    refine ⟨⟨hvalid, hsearch⟩, fun q hq => ?_⟩
    have hall := (pcPatchDimensionalComputeExtent_received_iff hn h hvalid).mp ⟨q, hq⟩
    rw [pcPatchDimensionalComputeExtent_eq hq]
    exact (hstats q.bounds).mpr (huncompress fun e he => (hall e he).known)

/-! ## Records

The reader of records compares the size of the WKB with the one that the number of points asks
for, so nothing is read behind the end. What is left are the loops with an `int` index, and a
schema without x or y. -/

/-- The extent of records reports nothing: all types of a schema are known. -/
theorem not_raises_computeExtent {en : Endian} {p : PcPatchUncompressed} :
    ¬ Raises (pcPatchUncompressedComputeExtent en p) := by
  have hcoordinate : ∀ (off : Int) (axis : Option PcDimension),
      (∀ dim ∈ axis, dim ∈ p.schema.dims) →
      ¬ Raises (pcPointGetCoordinate en p.data.content off axis) := by
    rintro off (_ | dim) hdim
    · exact not_raises_fault
    · exact not_raises_bind (not_raises_pcDoubleFromPtr (p.schema.dim_known (hdim dim rfl)))
        fun _ => not_raises_ok _
  have haxis : ∀ (axis : Option Nat), ∀ dim ∈ axis.bind fun i => p.schema.dims[i]?,
      dim ∈ p.schema.dims := by
    intro axis dim hdim
    obtain ⟨i, -, hi⟩ := Option.bind_eq_some_iff.mp hdim
    exact List.mem_of_getElem? hi
  exact not_raises_bind (not_raises_mapM fun i =>
    not_raises_bind (hcoordinate _ _ (haxis _)) fun _ =>
      not_raises_bind (hcoordinate _ _ (haxis _)) fun _ => not_raises_ok _) fun _ => not_raises_ok _

/-- The extent and the statistics of records. -/
theorem uncompressed_answers_iff {p : PcPatchUncompressed}
    (hroom : p.npoints * p.schema.size ≤ p.data.content.length) :
    Answers (do
      let patch ← pcPatchComputeExtent P (.uncompressed p)
      pcPatchComputeStats P patch) ↔
      p.npoints ≤ 2147483648 ∧ (p.npoints ≠ 0 → p.schema.Valid) := by
  have hextent : (∃ q, pcPatchUncompressedComputeExtent P.endian p = .ok q) ↔
      p.npoints ≤ 2147483648 ∧ (p.npoints ≠ 0 → p.schema.Valid) := by
    by_cases hvalid : p.schema.Valid
    · rw [pcPatchUncompressedComputeExtent_isOk_iff P.endian hvalid hroom]
      exact (and_iff_left fun _ => hvalid).symm
    · by_cases hzero : p.npoints = 0
      · have hnone : pcPatchUncompressedComputeExtent P.endian p =
            .ok { p with bounds := pcBoundsInit } := by
          rw [pcPatchUncompressedComputeExtent, hzero]
          rfl
        exact iff_of_true ⟨_, hnone⟩ ⟨by omega, fun hne => absurd hzero hne⟩
      · refine iff_of_false ?_ fun h => hvalid (h.2 hzero)
        rintro ⟨q, hq⟩
        exact hvalid (valid_of_computeExtent (Nat.pos_of_ne_zero hzero) hq)
  rw [← hextent, ← answers_iff_isOk not_raises_computeExtent, pcPatchComputeExtent, bind_assoc,
    answers_bind]
  -- the statistics find all records in the buffer
  refine and_iff_left fun q hq => ?_
  rw [pcPatchUncompressedComputeExtent_eq hq, pure_eq_ok, ok_bind, pcPatchComputeStats]
  obtain ⟨stats, hstats, -⟩ := pcPatchUncompressedComputeStats_ok P
    (p := { p with bounds := q.bounds }) hroom
  rw [hstats, ok_bind, pure_eq_ok]
  exact answers_ok _

/-- The records behind the head, flipped or copied. -/
def recordsRun (s : PcSchema) (wkb : Bytes) (swapped : Bool) (n : Nat) : Run Bytes :=
  if swapped then uncompressedBytesFlipEndian wkb 13 s n
  else do
    let _ ← pcalloc (n * s.size)
    readAt wkb 13 (n * s.size)

section RecordsRun

variable {s : PcSchema} {wkb : Bytes} {swapped : Bool} {n : Nat}

theorem not_raises_recordsRun : ¬ Raises (recordsRun s wkb swapped n) :=
  not_raises_ite
    (not_raises_bind (not_raises_pcalloc _) fun _ => not_raises_bind (not_raises_readAt _ _ _)
      fun _ => not_raises_bind (not_raises_intLoop _) fun _ => not_raises_ok _)
    (not_raises_bind (not_raises_pcalloc _) fun _ => not_raises_readAt _ _ _)

theorem length_of_recordsRun {data : Bytes} (h : recordsRun s wkb swapped n = .ok data) :
    data.length = n * s.size := by
  unfold recordsRun at h
  split at h
  · obtain ⟨_, -, h⟩ := bind_eq_ok.mp h
    obtain ⟨copy, hcopy, h⟩ := bind_eq_ok.mp h
    obtain ⟨_, -, h⟩ := bind_eq_ok.mp h
    cases h
    have hlen := length_of_readAt hcopy
    have hwidth : ∀ r ∈ (records s.size n copy).map (flipRecord s), r.length = s.size := by
      intro r hr
      obtain ⟨record, hrecord, rfl⟩ := List.mem_map.mp hr
      exact length_flipRecord (length_of_mem_records (by rw [hlen, Nat.mul_comm]) hrecord)
    rw [length_flatten_of_width hwidth, List.length_map, length_records]
  · obtain ⟨_, -, h⟩ := bind_eq_ok.mp h
    exact length_of_readAt h

theorem recordsRun_isOk (hroom : 13 + n * s.size ≤ wkb.length) (hint : n ≤ 2147483648) :
    ∃ data, recordsRun s wkb swapped n = .ok data := by
  have hsize : n * s.size < 9223372036854775808 := by
    have := Nat.mul_le_mul hint (Nat.le_of_lt_succ s.size_lt)
    omega
  unfold recordsRun
  split
  · rw [Nat.mul_comm] at hroom hsize
    exact ⟨_, by rw [uncompressedBytesFlipEndian, pcalloc_ok hsize, ok_bind,
      readAt_ok hroom, ok_bind, intLoop_ok hint, ok_bind, pure_eq_ok]⟩
  · exact ⟨_, by rw [pcalloc_ok hsize, ok_bind]; exact readAt_ok hroom⟩

end RecordsRun

/-! ## The head

The byte order stands first, then pcid, compression and the number of points, of four bytes each.
Both readers look at the compression again, and then at the number of points. -/

/-- What reading records asks of the bytes behind the head: the number of points, and where they
are as many as it says, an `int` that can run over them. A difference is reported. -/
def RecordsAnswer (en : Endian) (s : PcSchema) (wkb : Bytes) : Prop :=
  13 ≤ wkb.length ∧ (sizeT (wkb.length - 13) = s.size * headField en 9 wkb →
    headField en 9 wkb ≤ 2147483648 ∧ (headField en 9 wkb ≠ 0 → s.Valid))

/-- What reading segments asks of the bytes behind the head: the number of points, segments for all
dimensions up to one whose encoding is reported, and arrays that can be searched and decoded. -/
def SegmentsAnswer (en : Endian) (s : PcSchema) (wkb : Bytes) : Prop :=
  13 ≤ wkb.length ∧ ∃ r, SegmentsRead en (wkb.take 1 != [machineEndian en]) (headField en 9 wkb)
    s.dims (wkb.drop 13) r ∧ ∀ es ∈ r, ArraysAnswer en s (headField en 9 wkb) es

/-- What reading a patch asks of the WKB. No bytes, another pcid and any other compression are
reported. -/
def WkbAnswers (en : Endian) (s : PcSchema) (wkb : Bytes) : Prop :=
  wkb = [] ∨ 9 ≤ wkb.length ∧ (headField en 1 wkb = s.pcid →
    (headField en 5 wkb = PcCompression.none.code → RecordsAnswer en s wkb) ∧
      (headField en 5 wkb = PcCompression.dimensional.code → SegmentsAnswer en s wkb))

/-- Reading records. -/
theorem recordsAnswer_iff {s : PcSchema} {wkb : Bytes} (h9 : 9 ≤ wkb.length)
    (hc : headField P.endian 5 wkb = PcCompression.none.code) :
    Answers (do
      let p ← pcPatchUncompressedFromWkb P s wkb wkb.length
      let patch ← pcPatchComputeExtent P (.uncompressed p)
      pcPatchComputeStats P patch) ↔ RecordsAnswer P.endian s wkb := by
  unfold pcPatchUncompressedFromWkb RecordsAnswer
  rw [wkbIsSwapped_ok P.endian (by omega), ok_bind, wkbGetCompression, wkbGetField_eq,
    if_pos (by omega), ok_bind, if_neg (not_not_intro hc), wkbGetNpoints, wkbGetField_eq]
  by_cases h13 : 13 ≤ wkb.length
  · rw [if_pos (by omega), ok_bind, and_iff_right h13]
    by_cases hsize : sizeT (wkb.length - 13) = s.size * headField P.endian 9 wkb
    · have hroom : 13 + headField P.endian 9 wkb * s.size ≤ wkb.length := by
        rw [Nat.mul_comm, ← hsize]
        unfold sizeT
        omega
      rw [if_neg (not_not_intro hsize), forall_prop_of_true hsize, bind_assoc]
      change Answers (recordsRun s wkb (wkb.take 1 != [machineEndian P.endian])
        (headField P.endian 9 wkb) >>= _) ↔ _
      rw [answers_bind, answers_iff_isOk not_raises_recordsRun]
      have hbehind : ∀ data, recordsRun s wkb (wkb.take 1 != [machineEndian P.endian])
          (headField P.endian 9 wkb) = .ok data → headField P.endian 9 wkb * s.size ≤
            (bufOf data).content.length := by
        intro data hdata
        rw [content_bufOf, length_of_recordsRun hdata]
      constructor
      · rintro ⟨⟨data, hdata⟩, h⟩
        exact (uncompressed_answers_iff (hbehind data hdata)).mp (h data hdata)
      · intro h
        exact ⟨recordsRun_isOk hroom h.1, fun data hdata =>
          (uncompressed_answers_iff (hbehind data hdata)).mpr h⟩
    · rw [if_pos hsize, raise_bind]
      exact iff_of_true (answers_raise _) fun h => absurd h hsize
  · rw [if_neg (by omega), fault_bind, fault_bind]
    exact iff_of_false not_answers_fault fun h => h13 h.1

/-- Reading segments. -/
theorem segmentsAnswer_iff {s : PcSchema} {wkb : Bytes} (h9 : 9 ≤ wkb.length)
    (hc : headField P.endian 5 wkb = PcCompression.dimensional.code) :
    Answers (do
      let p ← pcPatchDimensionalFromWkb P s wkb
      let patch ← pcPatchComputeExtent P (.dimensional p)
      pcPatchComputeStats P patch) ↔ SegmentsAnswer P.endian s wkb := by
  unfold pcPatchDimensionalFromWkb SegmentsAnswer
  rw [wkbIsSwapped_ok P.endian (by omega), ok_bind, wkbGetCompression, wkbGetField_eq,
    if_pos (by omega), ok_bind, if_neg (not_not_intro hc), wkbGetNpoints, wkbGetField_eq]
  by_cases h13 : 13 ≤ wkb.length
  · have hn : headField P.endian 9 wkb < 4294967296 :=
      wkbGetNpoints_lt (by rw [wkbGetNpoints, wkbGetField_eq, if_pos (by omega)])
    have hfront : (wkb.take 13).length = 13 := by rw [List.length_take, Nat.min_eq_left h13]
    have hreads : ∀ {r}, SegmentsRead P.endian (wkb.take 1 != [machineEndian P.endian])
        (headField P.endian 9 wkb) s.dims (wkb.drop 13) r → _ := fun h =>
      h.deserialize (wkb.take 13)
    have hanswers : Answers (deserializeDimensions P.endian (wkb.take 13 ++ wkb.drop 13)
        (headField P.endian 9 wkb) false (wkb.take 1 != [machineEndian P.endian]) s.dims
        (wkb.take 13).length) → _ := segmentsRead_of_answers
    rw [List.take_append_drop, hfront] at hreads hanswers
    rw [if_pos (by omega), ok_bind, and_iff_right h13, bind_assoc, answers_bind]
    constructor
    · rintro ⟨hsegments, hbehind⟩
      obtain ⟨r, hr⟩ := hanswers hsegments
      refine ⟨r, hr, fun es hes => ?_⟩
      exact (dimensional_answers_iff hn (hr.arrays es hes)).mp (hbehind es ((hreads hr).1 es hes))
    · rintro ⟨r, hr, hall⟩
      obtain ⟨hok, hraises⟩ := hreads hr
      cases r with
      | none =>
          obtain ⟨msg, hmsg⟩ := hraises rfl
          rw [hmsg]
          exact ⟨answers_raise msg, fun es hes => absurd hes (raise_ne_ok msg es)⟩
      | some es =>
          rw [hok es rfl]
          refine ⟨answers_ok es, fun es' hes' => ?_⟩
          cases hes'
          exact (dimensional_answers_iff hn (hr.arrays es rfl)).mpr (hall es rfl)
  · rw [if_neg (by omega), fault_bind, fault_bind]
    exact iff_of_false not_answers_fault fun h => h13 h.1

/-- The reader answers exactly under `WkbAnswers`: on all other bytes it reads or writes beyond its
memory, or an assertion fails. -/
theorem pcPatchFromWkb_answers_iff (P : Platform) (s : PcSchema) (wkb : Bytes) :
    Answers (pcPatchFromWkb P s wkb wkb.length) ↔ WkbAnswers P.endian s wkb := by
  unfold pcPatchFromWkb WkbAnswers
  by_cases hempty : wkb = []
  · rw [hempty]
    exact iff_of_true (answers_raise _) (.inl rfl)
  · rw [if_neg (fun h => hempty (List.length_eq_zero_iff.mp h)), or_iff_right hempty,
      pcWkbGetPcid, wkbGetCompression, wkbGetField_eq, wkbGetField_eq]
    by_cases h9 : 9 ≤ wkb.length
    · rw [if_pos (by omega), if_pos (by omega), ok_bind, ok_bind, and_iff_right h9]
      by_cases hpcid : headField P.endian 1 wkb = s.pcid
      · rw [if_neg (not_not_intro hpcid), forall_prop_of_true hpcid]
        have hrecords := recordsAnswer_iff (P := P) (s := s) h9
        have hsegments := segmentsAnswer_iff (P := P) (s := s) h9
        -- the compression of the head decides
        generalize headField P.endian 5 wkb = c at hrecords hsegments ⊢
        obtain _ | _ | _ | c := c
        · have hrun := patchFromWkb_none (P := P) s wkb wkb.length
          rw [PcCompression.code] at hrun
          rw [hrun, bind_assoc]
          exact (hrecords rfl).trans ⟨fun h => ⟨fun _ => h, by simp [PcCompression.code]⟩,
            fun h => h.1 rfl⟩
        · have hrun := patchFromWkb_dimensional (P := P) s wkb wkb.length
          rw [PcCompression.code] at hrun
          rw [Nat.zero_add, hrun, bind_assoc]
          exact (hsegments rfl).trans ⟨fun h => ⟨by simp [PcCompression.code], fun _ => h⟩,
            fun h => h.2 rfl⟩
        -- LAZPERF is not built in, and any other compression is unknown
        · exact iff_of_true (answers_raise _) (by simp [PcCompression.code])
        · exact iff_of_true (answers_raise _) (by simp [PcCompression.code])
      · rw [if_pos hpcid]
        exact iff_of_true (answers_raise _) fun h => absurd h hpcid
    · refine iff_of_false ?_ fun h => h9 h.1
      by_cases h5 : 1 + 4 ≤ wkb.length
      · rw [if_pos h5, if_neg (by omega), ok_bind, fault_bind]
        exact not_answers_fault
      · rw [if_neg h5, fault_bind]
        exact not_answers_fault

/-! Each of the following goes wrong in another part: in the head, in the size of a segment, in the
counts of the runs and in the head of the bit-packed values. -/

/-- A head that breaks off in the compression. -/
def shortHead : Bytes := [1, 1, 0, 0, 0, 1]

/-- The head of a dimensional patch of one point. -/
def onePointHead : Bytes := [1, 1, 0, 0, 0, 1, 0, 0, 0, 1, 0, 0, 0]

/-- A size of nine bytes, with one behind it. -/
def longSegment : Bytes := onePointHead ++ [0, 9, 0, 0, 0, 7]

/-- A run of five for one point. -/
def fiveRun : Bytes := onePointHead ++ [1, 2, 0, 0, 0, 5, 7] ++ [0, 1, 0, 0, 0, 3]

/-- Nine unique bits in words of eight. -/
def nineBits : Bytes := onePointHead ++ [2, 3, 0, 0, 0, 9, 0, 0] ++ [0, 1, 0, 0, 0, 3]

/-- None of these is rejected; with as many values as points the patch is read. -/
theorem pcPatchFromWkb_not_answers :
    ¬ Answers (pcPatchFromWkb Platform.plain yxSchema shortHead shortHead.length) ∧
      ¬ Answers (pcPatchFromWkb Platform.plain yxSchema longSegment longSegment.length) ∧
      ¬ Answers (pcPatchFromWkb Platform.plain yxSchema fiveRun fiveRun.length) ∧
      ¬ Answers (pcPatchFromWkb Platform.plain yxSchema nineBits nineBits.length) := by
  decide +kernel

example : Answers (pcPatchFromWkb Platform.plain yxSchema
    (onePointHead ++ [1, 2, 0, 0, 0, 1, 7] ++ [0, 1, 0, 0, 0, 3]) 26) := by
  decide +kernel

end Pointcloud
