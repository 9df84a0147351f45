/-
Pointcloud.Bytes.CodecTheorems — every encoding keeps the values.

`Stores P e vs` says that `e` holds the values `vs` in the encoding that its
compression names. It is what `pc_bytes_encode` establishes for the values of
a plain array (`pcBytesEncode_ok`), as long as the array can be encoded in
that way at all (`Encodable`), and what `pc_bytes_decode` needs to give these
values back (`pcBytesDecode_ok`).
-/
import Pointcloud.Bytes.Codec
import Pointcloud.Bytes.RunLengthTheorems
import Pointcloud.Bytes.SigbitsTheorems

namespace Pointcloud

open Pointcloud.Base

variable {P : Platform}

/-! ## What an encoded array holds -/

/-- `e` holds the values `vs` as they are. -/
structure PlainOf (e : PcBytes) (vs : List Bytes) : Prop where
  plain : e.Plain
  values_eq : e.values = vs

/-- `e` holds a stream that inflates to the values `vs`. -/
structure ZlibOf (Z : Zlib) (e : PcBytes) (vs : List Bytes) : Prop where
  pos : 1 ≤ e.npoints
  size_eq : e.bytes.length = e.size
  size_lt : e.size < 4294967296
  room : e.width * e.npoints < 4294967296
  inflate_eq : filled (e.width * e.npoints) (Z.inflate e.bytes (e.width * e.npoints)) = vs.flatten

/-- `e` holds the values `vs` in the encoding that its compression names. -/
structure Stores (P : Platform) (e : PcBytes) (vs : List Bytes) : Prop where
  known : e.interpretation ≠ .unknown
  npoints_eq : vs.length = e.npoints
  width_eq : ∀ v ∈ vs, v.length = e.width
  encoded : match e.compression with
    | .none => PlainOf e vs
    | .rle => ∃ rs, RleOf e rs ∧ expand rs = vs
    | .sigbits => SigbitsOf P.endian e vs
    | .zlib => ZlibOf P.zlib e vs
    | .unknown _ => False

theorem PcBytes.Plain.stores {pcb : PcBytes} (h : pcb.Plain) : Stores P pcb pcb.values := by
  refine ⟨h.known, pcb.length_values, fun v hv => h.length_of_mem_values hv, ?_⟩
  rw [h.compression_eq]
  exact ⟨h, rfl⟩

section Cases

variable {e : PcBytes} {vs : List Bytes} (h : Stores P e vs)

include h

theorem Stores.plainOf (hc : e.compression = .none) : PlainOf e vs := by
  have henc := h.encoded
  rwa [hc] at henc

theorem Stores.rleOf (hc : e.compression = .rle) : ∃ rs, RleOf e rs ∧ expand rs = vs := by
  have henc := h.encoded
  rwa [hc] at henc

theorem Stores.sigbitsOf (hc : e.compression = .sigbits) : SigbitsOf P.endian e vs := by
  have henc := h.encoded
  rwa [hc] at henc

theorem Stores.zlibOf (hc : e.compression = .zlib) : ZlibOf P.zlib e vs := by
  have henc := h.encoded
  rwa [hc] at henc

theorem Stores.compression_ne (code : Nat) : e.compression ≠ .unknown code := by
  intro hc
  have henc := h.encoded
  rw [hc] at henc
  exact henc

theorem Stores.length_flatten : vs.flatten.length = e.npoints * e.width := by
  rw [length_flatten_of_width h.width_eq, h.npoints_eq]

end Cases

/-! ## zlib -/

theorem pcBytesZlibDecode_ok {e : PcBytes} {vs : List Bytes} (h : ZlibOf P.zlib e vs) :
    pcBytesZlibDecode P e =
      .ok { e with size := e.width * e.npoints, bytes := vs.flatten, compression := .none,
                   readonly := false } := by
  have hwidth : 0 < e.width := Interpretation.size_pos _
  have hne : e.width * e.npoints ≠ 0 := Nat.mul_ne_zero (by omega) (by have := h.pos; omega)
  have hroom := h.room
  have hread : readAt e.bytes 0 e.size = .ok e.bytes := by
    rw [← Int.natCast_zero, readAt_ok (by rw [h.size_eq, Nat.zero_add]), List.drop_zero,
      ← h.size_eq, List.take_length]
  unfold pcBytesZlibDecode
  simp only
  rw [pcalloc_ok (by omega), ok_bind, assertThat_true hne, ok_bind, uint32_of_lt h.size_lt,
    hread, ok_bind, uint32_of_lt hroom, ← h.inflate_eq, filled, pure_eq_ok]

/-- What `deflate` writes for an array on which it loses nothing. -/
theorem pcBytesZlibEncode_ok {pcb : PcBytes} (hsize : pcb.size ≤ pcb.bytes.length)
    (hpos : 0 < pcb.size) (hlt : pcb.size < 4294967296) :
    pcBytesZlibEncode P pcb =
      .ok { pcb with
            size := (P.zlib.deflate pcb.data (uint32 (4 * pcb.size))).length
            bytes := P.zlib.deflate pcb.data (uint32 (4 * pcb.size))
            compression := .zlib, readonly := false } := by
  have hread : readAt pcb.bytes 0 pcb.size = .ok pcb.data := by
    rw [← Int.natCast_zero, readAt_ok (by omega), List.drop_zero, PcBytes.data]
  unfold pcBytesZlibEncode
  simp only
  rw [pcalloc_ok (by omega), ok_bind, assertThat_true (by omega), ok_bind, uint32_of_lt hlt,
    hread, ok_bind, pure_eq_ok]

/-! ## All encodings -/

/-- An array that the given encoding can hold: no count it computes wraps, and
zlib loses nothing. -/
def Encodable (P : Platform) (pcb : PcBytes) : DimCompression → Prop
  | .none => True
  | .rle => pcb.npoints ≤ 2147483648
  | .sigbits => pcb.width ≤ pcb.bytes.length ∧ pcb.npoints ≤ 2147483648 ∧
      uniqueBits (pcb.words P.endian) * pcb.npoints < 4294967296
  | .zlib => 1 ≤ pcb.npoints ∧ P.zlib.Keeps pcb.data
  | .unknown _ => False

/-- An encoded array holds the values of the plain one. -/
theorem pcBytesEncode_ok {pcb : PcBytes} (h : pcb.Plain) {c : DimCompression}
    (henc : Encodable P pcb c) :
    ∃ e, pcBytesEncode P pcb c = .ok e ∧ Stores P e pcb.values ∧ e.npoints = pcb.npoints ∧
      e.interpretation = pcb.interpretation ∧ e.compression = c ∧ e.readonly = false := by
  have hwidth : ∀ v ∈ pcb.values, v.length = pcb.width := fun v hv => h.length_of_mem_values hv
  match c, henc with
  | .none, _ =>
      refine ⟨_, pcBytesClone_ok h.size_le, ⟨h.known, pcb.length_values, hwidth, ?_⟩, rfl, rfl,
        h.compression_eq, rfl⟩
      rw [h.compression_eq]
      refine ⟨⟨h.known, rfl, h.size_eq, ?_⟩, ?_⟩
      · simp only
        split
        · exact h.size_le
        · rw [h.length_data]
      · unfold PcBytes.values PcBytes.width
        simp only
        split
        · rfl
        · rw [PcBytes.data, records_take]
          exact Nat.le_of_eq h.size_eq.symm
  | .rle, hint =>
      obtain ⟨hok, hof⟩ := pcBytesRunLengthEncode_ok h.known h.room hint
      exact ⟨_, hok, ⟨h.known, pcb.length_values, hwidth, _, hof, expand_runs 255 _⟩,
        rfl, rfl, rfl, rfl⟩
  | .sigbits, ⟨hne, hint, hbits⟩ =>
      obtain ⟨bytes, hok, hof⟩ :=
        pcBytesSigbitsEncode_ok P.endian P.shift_ne_trap h.known hne h.room hint hbits
      exact ⟨_, hok, ⟨h.known, pcb.length_values, hwidth, hof⟩, rfl, rfl, rfl, rfl⟩
  | .zlib, ⟨hpos, hlt, hkeeps⟩ =>
      have hw : 0 < pcb.width := Interpretation.size_pos _
      have hsize : 0 < pcb.size := by
        rw [h.size_eq]
        exact Nat.mul_pos hpos hw
      rw [h.length_data] at hlt hkeeps
      refine ⟨_, pcBytesZlibEncode_ok h.size_le hsize hlt, ⟨h.known, pcb.length_values, hwidth, ?_⟩,
        rfl, rfl, rfl, rfl⟩
      refine ⟨hpos, rfl, ?_, ?_, ?_⟩
      · exact Nat.lt_of_le_of_lt (P.zlib.length_deflate _ _) (uint32_lt _)
      · change pcb.width * pcb.npoints < _
        rw [Nat.mul_comm, ← h.size_eq]
        exact hlt
      · change filled (pcb.width * pcb.npoints) (P.zlib.inflate _ (pcb.width * pcb.npoints)) = _
        rw [Nat.mul_comm pcb.width, ← h.size_eq]
        exact hkeeps.trans h.flatten_values.symm

/-- What the encoder of significant bits returns holds the values of the plain array. -/
theorem pcBytesSigbitsEncode_sigbitsOf {pcb e : PcBytes} (h : pcb.Plain)
    (hencode : pcBytesEncode P pcb .sigbits = .ok e) : SigbitsOf P.endian e pcb.values := by
  have hrun : pcBytesSigbitsEncode P.endian P.shift pcb = .ok e := hencode
  have hsmall : ¬(2147483648 < pcb.npoints ∨
      4294967296 ≤ uniqueBits (pcb.words P.endian) * pcb.npoints) := by
    intro hlarge
    rw [pcBytesSigbitsEncode_fault P.endian P.shift_ne_trap h.known h.room hlarge] at hrun
    exact fault_ne_ok e hrun
  have hne : pcb.width ≤ pcb.bytes.length := by
    by_contra hshort
    rw [pcBytesSigbitsEncode_empty P.endian P.shift h.known (Nat.not_le.mp hshort)] at hrun
    exact fault_ne_ok e hrun
  obtain ⟨bytes, hok, hof⟩ := pcBytesSigbitsEncode_ok P.endian P.shift_ne_trap h.known hne h.room
    (by omega) (by omega)
  rw [hok] at hrun
  cases hrun
  exact hof

/-- Decoding changes neither the number of values nor their type. -/
theorem pcBytesDecode_fields {e d : PcBytes} (h : pcBytesDecode P e = .ok d) :
    d.npoints = e.npoints ∧ d.interpretation = e.interpretation ∧ d.compression = .none := by
  have hwords : ∀ w step, sigbitsDecodeWords P.endian P.shift w step e = .ok d →
      d.npoints = e.npoints ∧ d.interpretation = e.interpretation ∧ d.compression = .none := by
    intro w step hrun
    obtain ⟨nbits, -, hrun⟩ := bind_eq_ok.mp hrun
    obtain ⟨common, -, hrun⟩ := bind_eq_ok.mp hrun
    obtain ⟨mask, -, hrun⟩ := bind_eq_ok.mp hrun
    obtain ⟨_, -, hrun⟩ := bind_eq_ok.mp hrun
    obtain ⟨out, -, hrun⟩ := bind_eq_ok.mp hrun
    cases hrun
    exact ⟨rfl, rfl, rfl⟩
  unfold pcBytesDecode at h
  split at h
  · obtain ⟨_, -, h⟩ := bind_eq_ok.mp h
    obtain ⟨counts, -, h⟩ := bind_eq_ok.mp h
    obtain ⟨_, -, h⟩ := bind_eq_ok.mp h
    obtain ⟨values, -, h⟩ := bind_eq_ok.mp h
    split at h
    · cases h
      exact ⟨rfl, rfl, rfl⟩
    · exact absurd h (fault_ne_ok d)
  · unfold pcBytesSigbitsDecode at h
    split at h
    · exact hwords 1 _ h
    · exact hwords 2 _ h
    · exact hwords 4 _ h
    · exact hwords 8 _ h
    · exact absurd h (raise_ne_ok _ d)
  · obtain ⟨block, -, h⟩ := bind_eq_ok.mp h
    obtain ⟨_, -, h⟩ := bind_eq_ok.mp h
    obtain ⟨input, -, h⟩ := bind_eq_ok.mp h
    cases h
    exact ⟨rfl, rfl, rfl⟩
  · next hnone =>
      unfold pcBytesClone at h
      split at h
      · cases h
        exact ⟨rfl, rfl, hnone⟩
      · obtain ⟨bytes, -, h⟩ := bind_eq_ok.mp h
        cases h
        exact ⟨rfl, rfl, hnone⟩
  · exact absurd h (raise_ne_ok _ d)

/-- Decoding gives the values back. -/
theorem pcBytesDecode_ok {e : PcBytes} {vs : List Bytes} (h : Stores P e vs)
    (hnp : e.npoints < 4294967296) :
    ∃ d, pcBytesDecode P e = .ok d ∧ d.Plain ∧ d.values = vs ∧ d.npoints = e.npoints ∧
      d.interpretation = e.interpretation ∧ d.readonly = false := by
  have hlen := h.length_flatten
  have hdecoded : ∀ d : PcBytes,
      d = { e with size := e.width * e.npoints, bytes := vs.flatten, compression := .none,
                   readonly := false } →
      d.Plain ∧ d.values = vs ∧ d.npoints = e.npoints ∧ d.interpretation = e.interpretation ∧
        d.readonly = false := by
    rintro d rfl
    refine ⟨⟨h.known, rfl, Nat.mul_comm _ _, ?_⟩, ?_, rfl, rfl, rfl⟩
    · simp only
      rw [hlen, Nat.mul_comm]
    · change records e.width e.npoints vs.flatten = vs
      rw [← h.npoints_eq]
      exact records_flatten h.width_eq
  unfold pcBytesDecode
  cases hc : e.compression with
  | none =>
      obtain ⟨hplain, hvalues⟩ := h.plainOf hc
      obtain ⟨d, hd, hstores, hnp, hinterp, hcomp, hro⟩ := pcBytesEncode_ok hplain
        (show Encodable P e .none from trivial)
      obtain ⟨hplain', hvalues'⟩ := hstores.plainOf hcomp
      exact ⟨d, hd, hplain', hvalues'.trans hvalues, hnp, hinterp, hro⟩
  | rle =>
      obtain ⟨rs, hof, hvs⟩ := h.rleOf hc
      have hd := pcBytesRunLengthDecode_ok hof hnp
      rw [hvs] at hd
      exact ⟨_, hd, hdecoded _ rfl⟩
  | sigbits =>
      exact ⟨_, pcBytesSigbitsDecode_ok P.shift_ne_trap (h.sigbitsOf hc), hdecoded _ rfl⟩
  | zlib => exact ⟨_, pcBytesZlibDecode_ok (h.zlibOf hc), hdecoded _ rfl⟩
  | unknown code => exact absurd hc (h.compression_ne code)

end Pointcloud
