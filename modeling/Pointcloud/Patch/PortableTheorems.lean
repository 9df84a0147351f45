/-
Pointcloud.Patch.PortableTheorems — reading WKB that the other byte order has
written.

`pc_bytes_deserialize` flips the bytes of a dimension before it sets the
interpretation, and before its caller sets the number of points. So plain and
deflated values are not flipped at all, the walk over the runs stops at its
assertion, and the words of significant bits are taken to be as wide as an
unknown type. `pcPatchWkb_portable_iff` says what is left: the patches without
runs and without packed bits all of whose values read the same both ways.
-/
import Pointcloud.Patch.WkbTheorems

namespace Pointcloud

open Pointcloud.Base

variable {P : Platform}

/-! ## Numbers of the other order -/

theorem Endian.opposite_ne (en : Endian) : machineEndian en.opposite ≠ machineEndian en := by
  cases en <;> decide

/-- A number that the other order has written. -/
theorem wkbGetInt32_opposite (en : Endian) {n : Nat} (h : n < 4294967296) {front rest : Bytes}
    {off : Nat} (hoff : off = front.length) :
    wkbGetInt32 en (front ++ en.opposite.bytesOf 4 n ++ rest) off true = .ok n := by
  rw [wkbGetInt32, readAt_append (by rw [hoff]) (Endian.length_bytesOf _ _ _).symm, ok_bind]
  simp only [if_true, pure_eq_ok]
  rw [Endian.bytesOf_opposite, List.reverse_reverse, Endian.natOf_bytesOf_of_lt en h]

section Head

variable (en : Endian) {pcid compression npoints : Nat} (rest : Bytes)

theorem wkbIsSwapped_opposite :
    wkbIsSwapped en (wkbHead en.opposite pcid compression npoints ++ rest) = .ok true := by
  have hread : readAt ([] ++ [machineEndian en.opposite] ++ (en.opposite.bytesOf 4 pcid ++
      en.opposite.bytesOf 4 compression ++ en.opposite.bytesOf 4 npoints ++ rest)) 0 1 =
      .ok [machineEndian en.opposite] := readAt_append rfl rfl
  simp only [List.nil_append, ← List.append_assoc] at hread
  rw [wkbIsSwapped, wkbHead, hread, ok_bind]
  simpa using Endian.opposite_ne en

theorem wkbGetCompression_opposite (h : compression < 4294967296) :
    wkbGetCompression en (wkbHead en.opposite pcid compression npoints ++ rest) =
      .ok compression := by
  have hread : wkbGetInt32 en ([machineEndian en.opposite] ++ en.opposite.bytesOf 4 pcid ++
      en.opposite.bytesOf 4 compression ++ (en.opposite.bytesOf 4 npoints ++ rest)) 5 true =
      .ok compression := wkbGetInt32_opposite en h (by simp)
  simp only [← List.append_assoc] at hread
  rw [wkbGetCompression, wkbGetField, wkbIsSwapped_opposite, ok_bind, wkbHead, hread]

theorem wkbGetNpoints_opposite (h : npoints < 4294967296) :
    wkbGetNpoints en (wkbHead en.opposite pcid compression npoints ++ rest) = .ok npoints := by
  have hread : wkbGetInt32 en ([machineEndian en.opposite] ++ en.opposite.bytesOf 4 pcid ++
      en.opposite.bytesOf 4 compression ++ en.opposite.bytesOf 4 npoints ++ rest) 9 true =
      .ok npoints := wkbGetInt32_opposite en h (by simp)
  rw [wkbGetNpoints, wkbGetField, wkbIsSwapped_opposite, ok_bind, wkbHead, hread]

end Head

/-! ## Segments of the other order -/

/-- The encodings whose bytes are not touched when they are flipped. -/
def DimCompression.Unflipped (c : DimCompression) : Prop := c = .none ∨ c = .zlib

/-- The words of the header must lie inside the block. -/
theorem pcBytesSigbitsFlipEndian_fault {pcb : PcBytes} (hw : 2 ≤ pcb.width)
    (h : pcb.bytes.length < pcb.width) : pcBytesSigbitsFlipEndian pcb = fault := by
  unfold pcBytesSigbitsFlipEndian
  simp only
  rw [if_neg (by omega), readAt_fault (by omega) (Or.inr (by omega)), fault_bind]

/-- The walk over the runs asks for a point. -/
theorem pcBytesRunLengthFlipEndian_empty {pcb : PcBytes} (hc : pcb.compression = .rle)
    (h : pcb.npoints = 0) : pcBytesRunLengthFlipEndian pcb = .error .assertion := by
  rw [pcBytesRunLengthFlipEndian, assertThat_true hc, ok_bind, assertThat, if_neg (by omega),
    error_bind]

theorem size_unknown : Interpretation.unknown.size = 18446744073709551615 := rfl

/-- Bytes of an unknown type, for no points, are flipped without a word being
reversed, or not at all. -/
theorem pcBytesFlipEndian_early {size : Nat} {c : DimCompression} (hc : ∀ code, c ≠ .unknown code)
    {bytes : Bytes} (hlen : bytes.length < 18446744073709551615) {r : PcBytes} :
    pcBytesFlipEndian ⟨size, 0, .unknown, c, false, bytes⟩ = .ok r ↔
      c.Unflipped ∧ r = ⟨size, 0, .unknown, c, false, bytes⟩ := by
  cases c with
  | none => simp [pcBytesFlipEndian, DimCompression.Unflipped, eq_comm]
  | zlib => simp [pcBytesFlipEndian, DimCompression.Unflipped, eq_comm]
  | rle =>
      have hstop : pcBytesRunLengthFlipEndian ⟨size, 0, .unknown, .rle, false, bytes⟩ =
          .error .assertion := pcBytesRunLengthFlipEndian_empty rfl rfl
      simp only [pcBytesFlipEndian, hstop, DimCompression.Unflipped]
      simp
  | sigbits =>
      have hfault : pcBytesSigbitsFlipEndian ⟨size, 0, .unknown, .sigbits, false, bytes⟩ = fault :=
        pcBytesSigbitsFlipEndian_fault (by rw [PcBytes.width, size_unknown]; omega)
          (by rw [PcBytes.width, size_unknown]; exact hlen)
      simp only [pcBytesFlipEndian, hfault, DimCompression.Unflipped]
      simp
  | unknown code => exact absurd rfl (hc code)

/-- A segment of the other order is read where its bytes need no flipping, and
then as it was written. -/
theorem pcBytesDeserialize_opposite (en : Endian) {pcb : PcBytes}
    (h : pcb.size ≤ pcb.bytes.length) (hlt : pcBytesSerializedSize pcb < 2147483648)
    (hc : ∀ code, pcb.compression ≠ .unknown code) {front rest : Bytes} {off : Nat}
    (hoff : off = front.length) (dim : PcDimension) {r : PcBytes} :
    pcBytesDeserialize en (front ++ segment en.opposite pcb ++ rest) off dim false true = .ok r ↔
      pcb.compression.Unflipped ∧ r = pcb.reread dim false := by
  unfold pcBytesSerializedSize at hlt
  have hcode : readAt (front ++ [BitVec.ofNat 8 pcb.compression.code] ++
      (en.opposite.bytesOf 4 pcb.size ++ pcb.data ++ rest)) off 1 = .ok _ :=
    readAt_append (by rw [hoff]) rfl
  have hsize : wkbGetInt32 en (front ++ [BitVec.ofNat 8 pcb.compression.code] ++
      en.opposite.bytesOf 4 pcb.size ++ (pcb.data ++ rest)) (off + 1) true = .ok pcb.size :=
    wkbGetInt32_opposite en (by omega) (by simp [hoff])
  have hdata : readAt (front ++ [BitVec.ofNat 8 pcb.compression.code] ++
      en.opposite.bytesOf 4 pcb.size ++ pcb.data ++ rest) (off + 5 : Nat) pcb.size = .ok pcb.data :=
    readAt_append (by simp [hoff]) (length_data h).symm
  have hsplit : front ++ segment en.opposite pcb ++ rest =
      front ++ [BitVec.ofNat 8 pcb.compression.code] ++ en.opposite.bytesOf 4 pcb.size ++
        pcb.data ++ rest := by
    simp [segment]
  rw [← List.append_assoc, ← List.append_assoc, ← hsplit] at hcode
  rw [← List.append_assoc, ← hsplit] at hsize
  rw [← hsplit] at hdata
  have hlen := length_data h
  unfold pcBytesDeserialize
  rw [hcode, ok_bind, hsize, ok_bind]
  simp only [int32_natCast (show pcb.size < 2147483648 by omega),
    sizeT_natCast (show pcb.size < 18446744073709551616 by omega), Bool.false_and,
    Bool.false_eq_true, if_false, if_true, ofCode_code hc en, hdata, ok_bind, pure_eq_ok,
    pcalloc_ok (show pcb.size < 9223372036854775808 by omega)]
  rw [bind_eq_ok]
  constructor
  · rintro ⟨r', hr', hr⟩
    obtain ⟨hunflipped, rfl⟩ := (pcBytesFlipEndian_early hc (by omega)).mp hr'
    exact ⟨hunflipped, (Except.ok.inj hr).symm⟩
  · rintro ⟨hunflipped, rfl⟩
    exact ⟨_, (pcBytesFlipEndian_early hc (by omega)).mpr ⟨hunflipped, rfl⟩, rfl⟩

/-- The segments of the other order are read where none of them needs flipping. -/
theorem deserializeDimensions_opposite (en : Endian) (npoints : Nat) :
    ∀ {dims : List PcDimension} {pcbs : List PcBytes} {front rest : Bytes} {off : Nat}
      {rs : List PcBytes},
      List.Forall₂ (fun (dim : PcDimension) (e : PcBytes) =>
        e.interpretation = dim.interpretation ∧ e.npoints = npoints ∧ e.size ≤ e.bytes.length ∧
          pcBytesSerializedSize e < 2147483648 ∧ ∀ code, e.compression ≠ .unknown code) dims pcbs →
      off = front.length →
      (deserializeDimensions en (front ++ (pcbs.map (segment en.opposite)).flatten ++ rest) npoints
        false true dims off = .ok rs ↔
        (∀ e ∈ pcbs, e.compression.Unflipped) ∧ rs = pcbs.map fun e => e.trimmed false)
  | [], [], front, rest, off, rs, .nil, _ => by
      simp [deserializeDimensions, eq_comm]
  | dim :: dims, e :: pcbs, front, rest, off, rs, .cons h hs, hoff => by
      obtain ⟨hinterp, hnp, hsize, hlt, hc⟩ := h
      have hlen := length_segment en.opposite hsize
      have hhead : ∀ r, pcBytesDeserialize en (front ++ segment en.opposite e ++
          ((pcbs.map (segment en.opposite)).flatten ++ rest)) off dim false true = .ok r ↔ _ :=
        fun r => pcBytesDeserialize_opposite en hsize hlt hc hoff dim
      have hrest : ∀ rs, deserializeDimensions en (front ++ segment en.opposite e ++
          (pcbs.map (segment en.opposite)).flatten ++ rest) npoints false true dims
          (off + pcBytesSerializedSize e) = .ok rs ↔ _ :=
        fun rs => deserializeDimensions_opposite en npoints hs
          (by rw [List.length_append, hlen, hoff])
      simp only [← List.append_assoc] at hhead
      rw [List.map_cons, List.flatten_cons, ← List.append_assoc front, deserializeDimensions,
        bind_eq_ok, List.forall_mem_cons]
      constructor
      · rintro ⟨r, hr, hr'⟩
        obtain ⟨hunflipped, rfl⟩ := (hhead r).mp hr
        obtain ⟨rs', hrs', hret⟩ := bind_eq_ok.mp hr'
        obtain ⟨hall, rfl⟩ := (hrest rs').mp hrs'
        rw [pure_eq_ok, Except.ok.injEq, ← hnp, reread_eq hinterp] at hret
        exact ⟨⟨hunflipped, hall⟩, hret.symm⟩
      · rintro ⟨⟨hunflipped, hall⟩, rfl⟩
        refine ⟨_, (hhead _).mpr ⟨hunflipped, rfl⟩, ?_⟩
        have hsame : pcBytesSerializedSize (e.reread dim false) = pcBytesSerializedSize e := rfl
        rw [hsame, (hrest _).mpr ⟨hall, rfl⟩, ok_bind, ← hnp, reread_eq hinterp, pure_eq_ok,
          List.map_cons]

/-! ## Patches of the other order -/

/-- The patch of the other order is read where no dimension needs flipping. -/
theorem pcPatchDimensionalFromWkb_opposite {d q : PcPatchDimensional} {pts : List Bytes}
    (h : d.Holds P.opposite pts) (hlt : ∀ e ∈ d.bytes, pcBytesSerializedSize e < 2147483648) :
    pcPatchDimensionalFromWkb P d.schema (patchWkb P.opposite.endian (.dimensional d)) = .ok q ↔
      (∀ e ∈ d.bytes, e.compression.Unflipped) ∧ q = d.reread := by
  have hdims : ∀ rs, deserializeDimensions P.endian (wkbHead P.endian.opposite d.schema.pcid
      PcCompression.dimensional.code d.npoints ++
        (d.bytes.map (segment P.endian.opposite)).flatten ++ []) d.npoints false true d.schema.dims
        13 = .ok rs ↔ _ :=
    fun rs => deserializeDimensions_opposite P.endian d.npoints (h.segments hlt) (by simp)
  simp only [List.append_nil] at hdims
  have hen : P.opposite.endian = P.endian.opposite := rfl
  unfold pcPatchDimensionalFromWkb
  rw [hen, patchWkb_dimensional, wkbIsSwapped_opposite, ok_bind,
    wkbGetCompression_opposite _ _ (by decide), ok_bind, wkbGetNpoints_opposite _ _ h.npoints_lt,
    ok_bind, if_neg (by simp), bind_eq_ok]
  constructor
  · rintro ⟨rs, hrs, hq⟩
    obtain ⟨hall, rfl⟩ := (hdims rs).mp hrs
    rw [pure_eq_ok, Except.ok.injEq] at hq
    exact ⟨hall, hq.symm⟩
  · rintro ⟨hall, rfl⟩
    exact ⟨_, (hdims _).mpr ⟨hall, rfl⟩, rfl⟩

/-- An encoding that is not flipped means the same to both orders. -/
theorem Stores.other {e : PcBytes} {vs : List Bytes} (h : Stores P.opposite e vs)
    (hc : e.compression.Unflipped) : Stores P e vs := by
  refine ⟨h.known, h.npoints_eq, h.width_eq, ?_⟩
  rcases hc with hc | hc
  · rw [hc]
    exact h.plainOf hc
  · rw [hc]
    exact h.zlibOf hc

/-- The numbers that a machine reads in a plain array. -/
def PcBytes.numbers (en : Endian) (pcb : PcBytes) : List Nat := pcb.values.map en.natOf

/-- What the WKB of `d`, written in the other order, is read as here decodes to
the same numbers as where it was written. -/
def WkbPortable (P : Platform) (d : PcPatchDimensional) : Prop :=
  ∃ wkb wkbsize q q₀ x y,
    pcPatchDimensionalToWkb P.opposite d = .ok (wkb, wkbsize) ∧
    pcPatchDimensionalFromWkb P d.schema wkb = .ok q ∧
    pcPatchDimensionalFromWkb P.opposite d.schema wkb = .ok q₀ ∧
    pcPatchDimensionalDecompress P q = .ok x ∧
    pcPatchDimensionalDecompress P.opposite q₀ = .ok y ∧
    x.npoints = y.npoints ∧
    List.Forall₂ (fun e e₀ : PcBytes => e.numbers P.endian = e₀.numbers P.opposite.endian)
      x.bytes y.bytes

/-- No dimension needs flipping, every value reads the same both ways, and the
WKB can be allocated. -/
structure ReadsBothWays (d : PcPatchDimensional) (pts : List Bytes) : Prop where
  alloc : 13 + pcPatchDimensionalSerializedSize d < 9223372036854775808
  unflipped : ∀ e ∈ d.bytes, e.compression.Unflipped
  palindrome : ∀ dim ∈ d.schema.dims, ∀ pt ∈ pts, (dim.bytesIn pt).reverse = dim.bytesIn pt

/-- Both orders read the same number where the bytes are a palindrome. -/
theorem natOf_opposite_iff (en : Endian) (bs : Bytes) :
    en.natOf bs = en.opposite.natOf bs ↔ bs.reverse = bs := by
  rw [Endian.natOf_opposite]
  constructor
  · intro h
    have hback := en.bytesOf_natOf bs
    rw [h, ← List.length_reverse, en.bytesOf_natOf] at hback
    exact hback
  · intro h
    rw [h]

theorem numbers_eq_iff (en : Endian) {e e₀ : PcBytes} {vs : List Bytes} (h : e.values = vs)
    (h₀ : e₀.values = vs) :
    e.numbers en = e₀.numbers en.opposite ↔ ∀ v ∈ vs, v.reverse = v := by
  rw [PcBytes.numbers, PcBytes.numbers, h, h₀, List.map_inj_left]
  exact forall_congr' fun v => forall_congr' fun _ => natOf_opposite_iff en v

/-- Both orders read the same numbers in all dimensions. -/
theorem numbers_forall₂_iff (en : Endian) {pts : List Bytes} :
    ∀ {dims : List PcDimension} {xs ys : List PcBytes},
      List.Forall₂ (fun (dim : PcDimension) (e : PcBytes) => e.values = pts.map dim.bytesIn)
        dims xs →
      List.Forall₂ (fun (dim : PcDimension) (e : PcBytes) => e.values = pts.map dim.bytesIn)
        dims ys →
      (List.Forall₂ (fun e e₀ : PcBytes => e.numbers en = e₀.numbers en.opposite) xs ys ↔
        ∀ dim ∈ dims, ∀ pt ∈ pts, (dim.bytesIn pt).reverse = dim.bytesIn pt)
  | [], _, _, .nil, .nil => by simp
  | dim :: dims, x :: xs, y :: ys, .cons hx hxs, .cons hy hys => by
      rw [List.forall₂_cons, numbers_forall₂_iff en hxs hys, numbers_eq_iff en hx hy,
        List.forall_mem_cons, List.forall_mem_map]

/-- The WKB of a patch can be read by the other order exactly when there is
nothing in it to flip. -/
theorem pcPatchWkb_portable_iff (P : Platform) {d : PcPatchDimensional} {pts : List Bytes}
    (h : d.Holds P.opposite pts) (hlt : ∀ e ∈ d.bytes, pcBytesSerializedSize e < 2147483648) :
    WkbPortable P d ↔ ReadsBothWays d pts := by
  have hheld : PcPatch.Holds P.opposite (.dimensional d) pts := h
  have hwrite : ∀ r, pcPatchDimensionalToWkb P.opposite d = .ok r ↔ _ :=
    fun r => pcPatchToWkb_eq_ok hheld hlt
  rw [length_patchWkb_dimensional h] at hwrite
  have hnative := pcPatchDimensionalFromWkb_ok h hlt
  obtain ⟨ys, hy, hydims⟩ := pcPatchDimensionalDecompress_ok h.reread
  have hvalues : ∀ {bytes : List PcBytes}, PlainDims d.schema pts bytes →
      List.Forall₂ (fun (dim : PcDimension) (e : PcBytes) => e.values = pts.map dim.bytesIn)
        d.schema.dims bytes := fun hdims => hdims.imp fun dim e he => he.2.2
  -- both readers get the same arrays, and read them here once the encodings allow it
  have hhere : (∀ e ∈ d.bytes, e.compression.Unflipped) → d.reread.Holds P pts := by
    intro hall
    have hre := h.reread
    refine ⟨hre.npoints_lt, hre.npoints_eq, hre.width_eq, ?_⟩
    have hsame := hre.bytes_hold
    rw [PcPatchDimensional.reread, List.forall₂_map_right_iff] at hsame ⊢
    refine List.forall₂_iff_get.mpr ⟨hsame.length_eq, fun i hi hi' => ?_⟩
    obtain ⟨hinterp, hnp, hstores⟩ := (List.forall₂_iff_get.mp hsame).2 i hi hi'
    exact ⟨hinterp, hnp, hstores.other (hall (d.bytes.get ⟨i, hi'⟩) (List.get_mem _ _))⟩
  constructor
  · rintro ⟨wkb, wkbsize, q, q₀, x, y, hto, hfrom, hfrom₀, hx, hy', -, hnumbers⟩
    obtain ⟨hlt', heq⟩ := (hwrite _).mp hto
    obtain ⟨rfl, -⟩ := Prod.mk.inj heq
    obtain ⟨hall, rfl⟩ := (pcPatchDimensionalFromWkb_opposite h hlt).mp hfrom
    rw [hnative, Except.ok.injEq] at hfrom₀
    rw [← hfrom₀, hy, Except.ok.injEq] at hy'
    obtain ⟨xs, hxs, hxdims⟩ := pcPatchDimensionalDecompress_ok (hhere hall)
    rw [hxs, Except.ok.injEq] at hx
    rw [← hx, ← hy'] at hnumbers
    exact ⟨hlt', hall, (numbers_forall₂_iff P.endian (hvalues hxdims) (hvalues hydims)).mp hnumbers⟩
  · rintro ⟨hlt', hall, hpalindrome⟩
    obtain ⟨xs, hxs, hxdims⟩ := pcPatchDimensionalDecompress_ok (hhere hall)
    exact ⟨_, _, _, _, _, _, (hwrite _).mpr ⟨hlt', rfl⟩,
      (pcPatchDimensionalFromWkb_opposite h hlt).mpr ⟨hall, rfl⟩, hnative, hxs, hy, rfl,
      (numbers_forall₂_iff P.endian (hvalues hxdims) (hvalues hydims)).mpr hpalindrome⟩

/-- Three points of two 16-bit words that read the same both ways. Those of y are
deflated. -/
def palindromePatch : PcPatchDimensional where
  readonly := false
  schema := xySchema .uint16 .uint16 (by decide) (by decide) 1 .dimensional
  npoints := 3
  bounds := ⟨257, 771, 1028, 1542⟩
  stats := none
  bytes := [⟨6, 3, .uint16, .none, false, [1, 1, 2, 2, 3, 3]⟩,
    ⟨6, 3, .uint16, .zlib, false, [4, 4, 6, 6, 5, 5]⟩]

theorem pcPatchWkb_portable_iff_witness : WkbPortable Platform.plain palindromePatch := by
  have hx : PcBytes.Plain ⟨6, 3, .uint16, .none, false, [1, 1, 2, 2, 3, 3]⟩ :=
    ⟨by decide, rfl, by decide, by decide⟩
  have hy : PcBytes.Plain ⟨6, 3, .uint16, .none, false, [4, 4, 6, 6, 5, 5]⟩ :=
    ⟨by decide, rfl, by decide, by decide⟩
  obtain ⟨e, he, hstores, -⟩ := @pcBytesEncode_ok Platform.plain.opposite _ hy .zlib
    ⟨by decide, Zlib.keeps_of_lt _ (by decide) (by decide)⟩
  have hdeflated : pcBytesEncode Platform.plain.opposite
      ⟨6, 3, .uint16, .none, false, [4, 4, 6, 6, 5, 5]⟩ .zlib =
        .ok ⟨6, 3, .uint16, .zlib, false, [4, 4, 6, 6, 5, 5]⟩ := by decide +kernel
  cases he.symm.trans hdeflated
  have hholds : palindromePatch.Holds Platform.plain.opposite
      [[1, 1, 4, 4], [2, 2, 6, 6], [3, 3, 5, 5]] :=
    ⟨by decide, by decide, by decide, .cons ⟨rfl, rfl, hx.stores⟩ (.cons ⟨rfl, rfl, hstores⟩ .nil)⟩
  refine (pcPatchWkb_portable_iff Platform.plain hholds (by decide)).mpr
    ⟨by decide, fun e he => ?_, by decide⟩
  have hplain : ∀ e ∈ palindromePatch.bytes, e.compression = .none ∨ e.compression = .zlib := by
    decide
  exact hplain e he

/-- One point of two 16-bit words on a big-endian machine, stored as they are. -/
def wordPatch : PcPatchDimensional where
  readonly := false
  schema := xySchema .uint16 .uint16 (by decide) (by decide) 1 .dimensional
  npoints := 1
  bounds := ⟨1, 1, 0, 0⟩
  stats := none
  bytes := [⟨2, 1, .uint16, .none, false, [0, 1]⟩, ⟨2, 1, .uint16, .none, false, [0, 0]⟩]

/-- The same point with its x as a run. -/
def runPatch : PcPatchDimensional :=
  { wordPatch with bytes := [⟨3, 1, .uint16, .rle, false, [1, 0, 1]⟩,
      ⟨2, 1, .uint16, .none, false, [0, 0]⟩] }

/-- A little-endian reader takes the 1 for 256, and stops at an assertion for
the run. -/
theorem pcPatchWkb_not_portable :
    wordPatch.Holds Platform.plain.opposite [[0, 1, 0, 0]] ∧
    ¬ WkbPortable Platform.plain wordPatch ∧
    (do
      let r ← pcPatchDimensionalToWkb Platform.plain.opposite wordPatch
      let q ← pcPatchDimensionalFromWkb Platform.plain wordPatch.schema r.1
      return q.bytes.map (PcBytes.numbers .little)) = .ok [[256], [0]] ∧
    (do
      let r ← pcPatchDimensionalToWkb Platform.plain.opposite runPatch
      let q ← pcPatchDimensionalFromWkb Platform.plain runPatch.schema r.1
      return q.bytes) = .error .assertion := by
  have hx : PcBytes.Plain ⟨2, 1, .uint16, .none, false, [0, 1]⟩ :=
    ⟨by decide, rfl, by decide, by decide⟩
  have hy : PcBytes.Plain ⟨2, 1, .uint16, .none, false, [0, 0]⟩ :=
    ⟨by decide, rfl, by decide, by decide⟩
  have hholds : wordPatch.Holds Platform.plain.opposite [[0, 1, 0, 0]] :=
    ⟨by decide, by decide, by decide,
      .cons ⟨rfl, rfl, hx.stores⟩ (.cons ⟨rfl, rfl, hy.stores⟩ .nil)⟩
  refine ⟨hholds, ?_, by decide +kernel, by decide +kernel⟩
  rw [pcPatchWkb_portable_iff Platform.plain hholds (by decide)]
  intro hboth
  exact absurd (hboth.palindrome ⟨some "X", 0, 2, 0, .uint16, 1, 0⟩ (by decide) [0, 1, 0, 0]
    (by decide)) (by decide)

end Pointcloud
