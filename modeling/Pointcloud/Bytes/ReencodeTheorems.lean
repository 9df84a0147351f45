/-
Pointcloud.Bytes.ReencodeTheorems — encoding an array that is encoded already.

`pc_bytes_encode` does not look at the compression of what it is given: it
takes the stored bytes for plain values. Only the request for no encoding
copies the array with its compression. This module says when the call returns
at all on an array that holds values in some encoding (`Reencodes`), and what
values its result then holds (`rereadValues`); on a plain array these are the
values of the array as long as it can be encoded (`reencode_plain_iff`).
-/
import Pointcloud.Bytes.CodecTheorems

namespace Pointcloud

open Pointcloud.Base

variable {P : Platform}

/-- A clone holds what the array holds. -/
theorem Stores.clone {e : PcBytes} {vs : List Bytes} (h : Stores P e vs) :
    ∃ e', pcBytesClone e = .ok e' ∧ Stores P e' vs ∧ e'.npoints = e.npoints ∧
      e'.interpretation = e.interpretation ∧ e'.compression = e.compression := by
  have hall : e.bytes.length = e.size → (if pcBytesEmpty e then e.bytes else e.data) = e.bytes := by
    intro hsize
    rw [PcBytes.data, ← hsize, List.take_length, ite_self]
  cases hc : e.compression with
  | none =>
      obtain ⟨hplain, hvalues⟩ := h.plainOf hc
      obtain ⟨e', he', hstores, hnp, hinterp, hcomp, -⟩ := pcBytesEncode_ok (P := P) hplain
        (c := .none) trivial
      exact ⟨e', he', hvalues ▸ hstores, hnp, hinterp, hcomp⟩
  | rle =>
      obtain ⟨rs, hof, hvs⟩ := h.rleOf hc
      refine ⟨_, pcBytesClone_ok hof.size_le, ⟨h.known, h.npoints_eq, h.width_eq, ?_⟩, rfl, rfl, hc⟩
      simp only [hc]
      refine ⟨rs, ⟨hof.known, rfl, hof.count_range, hof.width_eq, hof.npoints_eq, ?_, ?_⟩, hvs⟩
      · simp only
        split
        · exact hof.size_le
        · rw [PcBytes.data, List.length_take, Nat.min_eq_left hof.size_le]
      · rw [← hof.data_eq]
        unfold PcBytes.data
        simp only
        split
        · rfl
        · rw [List.take_take, Nat.min_self]
  | sigbits =>
      have hof := h.sigbitsOf hc
      refine ⟨_, pcBytesClone_ok (Nat.le_of_eq hof.size_eq.symm), ?_, rfl, rfl, hc⟩
      rw [hall hof.size_eq]
      refine ⟨h.known, h.npoints_eq, h.width_eq, ?_⟩
      simp only [hc]
      exact ⟨hof.known, rfl, hof.int_le, hof.npoints_eq, hof.width_eq, hof.size_eq, hof.packed⟩
  | zlib =>
      have hof := h.zlibOf hc
      refine ⟨_, pcBytesClone_ok (Nat.le_of_eq hof.size_eq.symm), ?_, rfl, rfl, hc⟩
      rw [hall hof.size_eq]
      refine ⟨h.known, h.npoints_eq, h.width_eq, ?_⟩
      simp only [hc]
      exact ⟨hof.pos, hof.size_eq, hof.size_lt, hof.room, hof.inflate_eq⟩
  | unknown code => exact absurd hc (h.compression_ne code)

theorem Stores.size_le {e : PcBytes} {vs : List Bytes} (h : Stores P e vs) :
    e.size ≤ e.bytes.length := by
  cases hc : e.compression with
  | none => exact (h.plainOf hc).plain.size_le
  | rle =>
      obtain ⟨rs, hof, -⟩ := h.rleOf hc
      exact hof.size_le
  | sigbits => exact Nat.le_of_eq (h.sigbitsOf hc).size_eq.symm
  | zlib => exact Nat.le_of_eq (h.zlibOf hc).size_eq.symm
  | unknown code => exact absurd hc (h.compression_ne code)

/-! ## Encoding the stored bytes -/

/-- The encoder returns, whatever the array holds. -/
def Reencodes (P : Platform) (e : PcBytes) : DimCompression → Prop
  | .none => True
  | .rle => e.npoints * e.width ≤ e.bytes.length
  | .sigbits => e.npoints * e.width ≤ e.bytes.length ∧
      uniqueBits (e.words P.endian) * e.npoints < 4294967296
  | .zlib => 0 < e.size ∧ 4 * e.size < 9223372036854775808
  | .unknown _ => False

/-- What is inflated from the stored bytes, deflated. -/
def reinflated (P : Platform) (e : PcBytes) : Bytes :=
  filled (e.width * e.npoints) (P.zlib.inflate
    (P.zlib.deflate (e.bytes.take (uint32 e.size)) (uint32 (4 * e.size))) (e.width * e.npoints))

/-- The values that the result of the encoder holds, for an array that holds `vs`. -/
def rereadValues (P : Platform) (e : PcBytes) (vs : List Bytes) : DimCompression → List Bytes
  | .none => vs
  | .rle => e.values
  | .sigbits => e.values
  | .zlib => records e.width e.npoints (reinflated P e)
  | .unknown _ => []

section Encode

variable {e : PcBytes} {vs : List Bytes} (h : Stores P e vs) (hpos : 1 ≤ e.npoints)
  (hint : e.npoints ≤ 2147483648) (hroom : e.width * e.npoints < 4294967296)

theorem length_reinflated (P : Platform) (e : PcBytes) :
    (reinflated P e).length = e.width * e.npoints :=
  length_filled (P.zlib.length_inflate _ _)

include h hpos hint hroom

/-- Where the encoder returns, its result holds the values it has read. -/
theorem pcBytesEncode_reencode {c : DimCompression} (hc : Reencodes P e c) :
    ∃ e', pcBytesEncode P e c = .ok e' ∧ Stores P e' (rereadValues P e vs c) ∧
      e'.npoints = e.npoints ∧ e'.interpretation = e.interpretation := by
  have hlen : (reinflated P e).length = e.npoints * e.width := by
    rw [length_reinflated, Nat.mul_comm]
  match c, hc with
  | .none, _ =>
      obtain ⟨e', he', hstores, hnp, hinterp, -⟩ := h.clone
      exact ⟨e', he', hstores, hnp, hinterp⟩
  | .rle, hfit =>
      obtain ⟨hok, hof⟩ := pcBytesRunLengthEncode_ok h.known hfit hint
      exact ⟨_, hok, ⟨h.known, e.length_values,
        fun v hv => length_of_mem_records hfit hv, _, hof, expand_runs 255 _⟩, rfl, rfl⟩
  | .sigbits, ⟨hfit, hbits⟩ =>
      have hne : e.width ≤ e.bytes.length :=
        Nat.le_trans (Nat.le_mul_of_pos_left _ hpos) hfit
      obtain ⟨bytes, hok, hof⟩ :=
        pcBytesSigbitsEncode_ok P.endian P.shift_ne_trap h.known hne hfit hint hbits
      exact ⟨_, hok, ⟨h.known, e.length_values,
        fun v hv => length_of_mem_records hfit hv, hof⟩, rfl, rfl⟩
  | .zlib, ⟨hsize, hcalloc⟩ =>
      have hread : readAt e.bytes 0 (uint32 e.size) = .ok (e.bytes.take (uint32 e.size)) := by
        have hle : uint32 e.size ≤ e.bytes.length :=
          Nat.le_trans (Nat.mod_le _ _) h.size_le
        rw [← Int.natCast_zero, readAt_ok (by omega), List.drop_zero]
      refine ⟨{ e with
        size := (P.zlib.deflate (e.bytes.take (uint32 e.size)) (uint32 (4 * e.size))).length
        bytes := P.zlib.deflate (e.bytes.take (uint32 e.size)) (uint32 (4 * e.size))
        compression := .zlib
        readonly := false }, ?_, ?_, rfl, rfl⟩
      · change pcBytesZlibEncode P e = _
        unfold pcBytesZlibEncode
        simp only
        rw [pcalloc_ok hcalloc, ok_bind, assertThat_true (by omega), ok_bind, hread, ok_bind,
          pure_eq_ok]
      · refine ⟨h.known, length_records _ _ _,
          fun v hv => length_of_mem_records (Nat.le_of_eq hlen.symm) hv, ?_⟩
        refine ⟨hpos, rfl, ?_, hroom, ?_⟩
        · exact Nat.lt_of_le_of_lt (P.zlib.length_deflate _ _) (uint32_lt _)
        · exact (flatten_records_of_length hlen).symm

omit h hpos hint hroom in
/-- The encoder returns only then. -/
theorem reencodes_of_ok (hknown : e.interpretation ≠ .unknown) {c : DimCompression} {e' : PcBytes}
    (hok : pcBytesEncode P e c = .ok e') : Reencodes P e c := by
  cases c with
  | none => trivial
  | rle =>
      by_contra hfit
      have hfault : pcBytesRunLengthEncode e = fault := by
        rw [pcBytesRunLengthEncode, readValues_fault (Or.inr (Nat.not_le.mp hfit)), fault_bind]
      exact fault_ne_ok e' (hfault.symm.trans hok)
  | sigbits =>
      have hw := wordWidth_of_known hknown
      have hfit : e.npoints * e.width ≤ e.bytes.length := by
        by_contra hfit
        have hshort : (wordsOf P.endian e.width e.bytes).length < e.npoints := by
          rw [length_wordsOf]
          exact (Nat.div_lt_iff_lt_mul hw.pos).mpr (Nat.not_le.mp hfit)
        have hfault : pcBytesSigbitsEncode P.endian P.shift e = fault := by
          rw [pcBytesSigbitsEncode_eq _ _ hw rfl, sigbitsCountWords_fault (Or.inr (Or.inl hshort)),
            fault_bind]
        exact fault_ne_ok e' (hfault.symm.trans hok)
      refine ⟨hfit, ?_⟩
      by_contra hbits
      have hfault := pcBytesSigbitsEncode_fault P.endian P.shift_ne_trap hknown hfit
        (Or.inr (Nat.not_lt.mp hbits))
      exact fault_ne_ok e' (hfault.symm.trans hok)
  | zlib =>
      obtain ⟨_, halloc, hrest⟩ := bind_eq_ok.mp hok
      obtain ⟨_, hassert, -⟩ := bind_eq_ok.mp hrest
      have hne := assertThat_eq_ok.mp hassert
      refine ⟨by omega, ?_⟩
      by_contra hcalloc
      rw [pcalloc, if_neg hcalloc] at halloc
      exact fault_ne_ok _ halloc
  | unknown code => exact absurd hok (raise_ne_ok _ _)

end Encode

/-- On a plain array nothing is lost exactly when it can be encoded. -/
theorem reencode_plain_iff {e : PcBytes} (h : e.Plain) (hpos : 1 ≤ e.npoints)
    (hint : e.npoints ≤ 2147483648) (hroom : e.width * e.npoints < 4294967296)
    (c : DimCompression) :
    (Reencodes P e c ∧ rereadValues P e e.values c = e.values) ↔ Encodable P e c := by
  have hsize := h.size_eq
  rw [Nat.mul_comm] at hsize
  have hwidth := e.width_pos
  have hne : e.width ≤ e.bytes.length :=
    Nat.le_trans (Nat.le_mul_of_pos_left _ hpos) h.room
  cases c with
  | none => simp [Reencodes, rereadValues, Encodable]
  | rle => simp [Reencodes, rereadValues, Encodable, h.room, hint]
  | sigbits => simp [Reencodes, rereadValues, Encodable, h.room, hint, hne]
  | zlib =>
      have hpos' : 0 < e.size := by
        rw [hsize]
        exact Nat.mul_pos hwidth hpos
      have hvalues : records e.width e.npoints (reinflated P e) = e.values ↔
          reinflated P e = e.data := by
        rw [← h.flatten_values]
        constructor
        · intro heq
          rw [← heq, flatten_records_of_length (by rw [length_reinflated, Nat.mul_comm])]
        · intro heq
          rw [heq]
          conv_lhs => rw [← e.length_values]
          exact records_flatten fun v hv => h.length_of_mem_values hv
      have hinflated : reinflated P e = filled e.data.length
          (P.zlib.inflate (P.zlib.deflate e.data (uint32 (4 * e.data.length))) e.data.length) := by
        rw [reinflated, uint32_of_lt (by omega), h.length_data, PcBytes.data, hsize]
      simp only [Reencodes, rereadValues, Encodable, Zlib.Keeps, hvalues]
      rw [hinflated, h.length_data]
      constructor
      · rintro ⟨-, hkeep⟩
        exact ⟨hpos, by omega, hkeep⟩
      · rintro ⟨-, -, hkeep⟩
        exact ⟨⟨hpos', by omega⟩, hkeep⟩
  | unknown code => simp [Reencodes, Encodable]

end Pointcloud
