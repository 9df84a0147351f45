/-
Pointcloud.Patch.BufferTheorems — the buffers that are written without a look at their size.

The packing loops of the significant-bits encoders and the loop that splits records by
dimension trust the size that their buffer was allocated with. Both sizes come from a
product of 32 bits, and are large enough exactly while that does not wrap around
(`bufferSizes_suffice_iff`).
-/
import Pointcloud.Bytes.SigbitsTheorems
import Pointcloud.Patch.TransposeTheorems

namespace Pointcloud

open Pointcloud.Base

/-! ## The buffers of the encoders -/

/-- The size of the buffer in `pc_bytes_sigbits_encode_N`, for words of `w` bytes. -/
def encoderSize (w nbits npoints : Nat) : Nat := sizeOutOf w (uint32 (nbits * npoints))

/-- The buffer of an encoder has room for the two header words and the packed bits, and
the packing loop does not leave it. -/
structure EncoderRoom (w nbits npoints : Nat) : Prop where
  size_le : 2 * w + (nbits * npoints + 7) / 8 ≤ encoderSize w nbits npoints
  stays : ∀ (sh : FullShift) (words : List (Word w)), words.length = npoints → 0 < nbits →
    ∃ st, packLoop sh nbits (lowMask (8 * w) nbits) words
      ⟨List.replicate (encoderSize w nbits npoints / w - 2) 0, 0, 8 * w⟩ = .ok st

/-- A number that is more than it is in 32 bits is more by `2 ^ 32` at least. -/
theorem uint32_of_ge {n : Nat} (h : 4294967296 ≤ n) : uint32 n + 4294967296 ≤ n := by
  unfold uint32
  omega

theorem encoderRoom_iff {w nbits : Nat} (hw : WordWidth w) (hnbits : nbits ≤ 8 * w)
    (npoints : Nat) : EncoderRoom w nbits npoints ↔ nbits * npoints < 4294967296 := by
  obtain ⟨len, hpos, hsize, hbits, hroom⟩ :=
    roomFor_sizeOutOf hw (uint32 (nbits * npoints))
  have hflat : (len + 2) * w = len * w + 2 * w := Nat.add_mul len 2 w
  have height : len * (8 * w) = 8 * (len * w) := Nat.mul_left_comm len 8 w
  constructor
  · intro h
    have hle := h.size_le
    rw [encoderSize, hsize, hflat] at hle
    by_contra hwrap
    have hlost := uint32_of_ge (Nat.not_lt.mp hwrap)
    omega
  · intro hlt
    rw [uint32_of_lt hlt] at hsize hbits hroom
    refine ⟨?_, fun sh words hlen hnz => ?_⟩
    · rw [encoderSize, uint32_of_lt hlt, hsize, hflat]
      omega
    · have hfree : encoderSize w nbits npoints / w - 2 = len := by
        rw [encoderSize, uint32_of_lt hlt, hsize, Nat.mul_div_cancel _ hw.pos]
        omega
      have hstart : (⟨List.replicate len 0, 0, 8 * w⟩ : PackState (8 * w)).pos = 0 := by
        simp [PackState.pos]
      have hw' := hw.pos
      rw [hfree]
      obtain ⟨st, hst, -⟩ := packLoop_ok sh hnz hnbits words ⟨List.replicate len 0, 0, 8 * w⟩
        (by simp only; omega) (Nat.le_refl _) (fun p _ => streamBit_zeros len p) (by
          rw [hstart, List.length_replicate, hlen, Nat.mul_comm npoints]
          omega)
      exact ⟨st, hst⟩

/-! ## The arrays of the dimensions -/

/-- The array that `pc_bytes_make` allocates has room for the values of all points, and
the loop that fills it from records does not leave it. -/
structure ArrayRoom (dim : PcDimension) (npoints : Nat) : Prop where
  size_le : npoints * dim.size ≤ (pcBytesMake dim npoints).size
  stays : ∀ (s : PcSchema) (data : Bytes), dim ∈ s.dims → npoints * s.size ≤ data.length →
    npoints < 4294967296 → ∃ e, dimensionFromRecords s data npoints dim = .ok e

/-- A negative number of points fills nothing. -/
theorem dimensionFromRecords_unfilled {npoints : Nat} (hint : 2147483648 ≤ npoints)
    (hlt : npoints < 4294967296) (s : PcSchema) (data : Bytes) (dim : PcDimension) :
    dimensionFromRecords s data npoints dim = .ok (pcBytesMake dim npoints) := by
  rw [dimensionFromRecords, intCount_of_le hint hlt]
  rfl

theorem arrayRoom_iff (dim : PcDimension) (npoints : Nat) :
    ArrayRoom dim npoints ↔ npoints * dim.size < 4294967296 := by
  constructor
  · intro h
    have hle := h.size_le
    simp only [pcBytesMake, Nat.mul_comm dim.size] at hle
    have hlt := uint32_lt (npoints * dim.size)
    omega
  · intro hlt
    have hlt' : dim.size * npoints < 4294967296 := by rwa [Nat.mul_comm]
    refine ⟨?_, fun s data hd hroom hcount => ?_⟩
    · rw [pcBytesMake, uint32_of_lt hlt', Nat.mul_comm]
    · by_cases hint : npoints < 2147483648
      · have hlen : (records s.size npoints data).length = npoints := length_records _ _ _
        have hfilled : dimensionFromRecords s data (records s.size npoints data).length dim =
            .ok _ := dimensionFromRecords_ok (by rw [hlen]) (by rwa [hlen]) (by rwa [hlen]) hd
          (by rwa [hlen])
        rw [hlen] at hfilled
        exact ⟨_, hfilled⟩
      · exact ⟨_, dimensionFromRecords_unfilled (Nat.not_lt.mp hint) hcount s data dim⟩

/-! ## Both -/

/-- The sizes of the buffers are large enough, and nothing is written behind them, exactly
while the products that they come from do not wrap around. -/
theorem bufferSizes_suffice_iff {w nbits : Nat} (hw : WordWidth w) (hnbits : nbits ≤ 8 * w)
    (pcb : PcBytes) (dim : PcDimension) (npoints : Nat) :
    (EncoderRoom w nbits pcb.npoints ↔ nbits * pcb.npoints < 4294967296) ∧
      (ArrayRoom dim npoints ↔ npoints * dim.size < 4294967296) :=
  ⟨encoderRoom_iff hw hnbits pcb.npoints, arrayRoom_iff dim npoints⟩

/-- Nine words of 32 bits with thirteen bits of their own, and a dimension of doubles in
three points. -/
theorem bufferSizes_suffice_iff_witness :
    EncoderRoom 4 13 9 ∧ ArrayRoom ⟨some "x", 0, 8, 0, .double, 1, 0⟩ 3 := by
  obtain ⟨hencoder, harray⟩ := bufferSizes_suffice_iff (.inr (.inr (.inl rfl)))
    (by decide : 13 ≤ 8 * 4) ⟨36, 9, .uint32, .none, false, zeros 36⟩
    ⟨some "x", 0, 8, 0, .double, 1, 0⟩ 3
  exact ⟨hencoder.mpr (by decide), harray.mpr (by decide)⟩

/-- `2 ^ 29` bytes with nothing in common get a buffer of three bytes, and the encoder leaves
it; the values of `2 ^ 29` points in a dimension of doubles get no memory at all. -/
theorem bufferSizes_fail :
    (encoderSize 1 8 536870912 = 3 ∧ ¬ EncoderRoom 1 8 536870912 ∧
      ∀ pcb : PcBytes, pcb.npoints = 536870912 → pcb.bytes.length = 536870912 →
        ∀ en sh commonvalue, pcBytesSigbitsEncode8 en sh pcb commonvalue 0 = fault) ∧
    (pcBytesMake ⟨some "x", 0, 8, 0, .double, 1, 0⟩ 536870912).size = 0 ∧
      ¬ ArrayRoom ⟨some "x", 0, 8, 0, .double, 1, 0⟩ 536870912 := by
  have hsize : encoderSize 1 8 536870912 = 3 := by decide
  have hmake : (pcBytesMake ⟨some "x", 0, 8, 0, .double, 1, 0⟩ 536870912).size = 0 := by
    rw [pcBytesMake]
    decide
  refine ⟨⟨hsize, fun h => ?_, fun pcb hnpoints hlen en sh commonvalue => ?_⟩, hmake, fun h => ?_⟩
  · have hle := h.size_le
    omega
  · have hroom : pcb.npoints ≤ (wordsOf en 1 pcb.bytes).length := by simp [hlen, hnpoints]
    have hbits : 4294967296 ≤ 8 * pcb.npoints := by omega
    exact sigbitsEncodeWords_fault en sh Nat.one_pos (by decide) roomFor_sizeOut8 hroom (by omega)
      commonvalue (Nat.le_refl 8) hbits
  · have hle := h.size_le
    rw [hmake] at hle
    exact absurd hle (by decide)

end Pointcloud
