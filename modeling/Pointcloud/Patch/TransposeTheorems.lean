/-
Pointcloud.Patch.TransposeTheorems — from records to dimensions and back.

The dimensions of a patch, each in any encoding, are put together to its
points again. The offsets into the arrays of the dimensions are products of
32 bits, and so are the sizes of these arrays: an array of `2 ^ 32` bytes or
more is allocated too small, and filling it leaves its memory.
-/
import Pointcloud.Patch.DimensionalTheorems

namespace Pointcloud

open Pointcloud.Base

variable {P : Platform}

/-! ## Encodings of an array -/

/-- `e` decodes to the bytes of `pcb`. -/
def DecodesAs (P : Platform) (pcb e : PcBytes) : Prop :=
  ∃ d, pcBytesDecode P e = .ok d ∧ d.bytes = pcb.bytes

/-- A plain array is an encoding of itself. -/
theorem DecodesAs.refl {pcb : PcBytes} (hcomp : pcb.compression = .none)
    (hlen : pcb.bytes.length = pcb.size) : DecodesAs P pcb pcb := by
  have hdecode : pcBytesDecode P pcb = pcBytesClone pcb := by rw [pcBytesDecode, hcomp]
  refine ⟨_, hdecode.trans (pcBytesClone_ok (Nat.le_of_eq hlen.symm)), ?_⟩
  simp only [PcBytes.data, ← hlen, List.take_length, ite_self]

/-- A dimensional patch whose arrays are encodings of plain ones. -/
theorem decodesTo_of_decodesAs {d : PcPatchDimensional} {pts : List Bytes}
    (hlen : pts.length = d.npoints) (hwidth : ∀ pt ∈ pts, pt.length = d.schema.size)
    (h : List.Forall₂ (DecodesAs P) (plainArrays d.schema pts) d.bytes) : DecodesTo P d pts := by
  refine ⟨hlen, hwidth, ?_⟩
  obtain ⟨bytes, hbytes, hsame⟩ := mapM_forall₂ h fun pcb e _ he => he
  refine ⟨bytes, plainArrays d.schema pts, ?_, ?_, ?_⟩
  · rw [pcPatchDimensionalDecompress, hbytes, ok_bind, pure_eq_ok]
  · rw [PlainDims, plainArrays, List.forall₂_map_right_iff, List.forall₂_same]
    intro dim hd
    have hpieces := width_bytesIn hwidth hd
    exact ⟨rfl, plainArray_plain hd hpieces, values_plainArray hd hpieces⟩
  · rw [← List.forall₂_eq_eq_eq, List.forall₂_map_left_iff, List.forall₂_map_right_iff]
    exact hsame.flip

/-! ## Arrays that are filled -/

section Filled

variable {s : PcSchema} {data : Bytes} {n : Nat} {dim : PcDimension} {e : PcBytes}
  (h : dimensionFromRecords s data n dim = .ok e)

include h

/-- The array is plain, and has the size it was allocated with. -/
theorem dimensionFromRecords_fields : e.compression = .none ∧ e.bytes.length = e.size := by
  obtain ⟨copies, -, hwrite⟩ := bind_eq_ok.mp h
  obtain ⟨bytes, hbytes, he⟩ := bind_eq_ok.mp hwrite
  cases he
  refine ⟨rfl, ?_⟩
  simp only
  rw [length_of_writeAll hbytes]
  exact length_zeros _

/-- An array that could be filled has fewer than `2 ^ 32` bytes: the value that
ends there would lie outside of it. -/
theorem size_lt_of_dimensionFromRecords (hd : dim ∈ s.dims) (hint : n < 2147483648) :
    dim.size * n < 4294967296 := by
  by_contra hlarge
  have hw := s.wordWidth hd
  obtain ⟨copies, hcopies, hwrite⟩ := bind_eq_ok.mp h
  obtain ⟨bytes, hbytes, -⟩ := bind_eq_ok.mp hwrite
  have hlast : ∃ j < n, dim.size * j + dim.size = 4294967296 := by
    refine ⟨4294967296 / dim.size - 1, ?_⟩
    rcases hw with hw | hw | hw | hw <;> rw [hw] at hlarge ⊢ <;> omega
  obtain ⟨j, hj, hend⟩ := hlast
  rw [intCount_of_lt hint] at hcopies
  obtain ⟨copy, hmem, hcopy⟩ := exists_mem_of_mapM hcopies j (List.mem_range.mpr hj)
  obtain ⟨src, hsrc, hcopy⟩ := bind_eq_ok.mp hcopy
  cases hcopy
  have hlen := length_of_readAt hsrc
  have hinside := inside_of_writeAll hbytes _ hmem
  have hsize := uint32_lt (dim.size * n)
  have hoff : uint32 (dim.size * j) = dim.size * j := uint32_of_lt (by have := hw.pos; omega)
  simp only [pcBytesMake, length_zeros, hoff, hlen] at hinside
  have hpos := hw.pos
  rcases hinside with hnil | hle
  · rw [hnil, List.length_nil] at hlen
    omega
  · omega

end Filled

/-! ## The points of a patch, by dimension and back -/

/-- By dimension, each dimension in any encoding, and back to records and to a
list of points: the points stay as they are. -/
def Transposes (P : Platform) (p : PcPatchUncompressed) (pts : List Bytes) : Prop :=
  ∃ d, pcPatchDimensionalFromUncompressed p = .ok (some d) ∧
    ∀ bytes, List.Forall₂ (DecodesAs P) d.bytes bytes →
      (∃ u, pcPatchUncompressedFromDimensional P { d with bytes := bytes } = .ok u ∧
        u.schema = p.schema ∧ u.Holds pts) ∧
      ∃ l, pcPointlistFromDimensional P { d with bytes := bytes } = .ok l ∧
        l.map PcPoint.data = pts

section Transposes

variable {p : PcPatchUncompressed} {pts : List Bytes} (h : p.Holds pts)

include h

theorem transposes_of_fits (hne : pts ≠ []) (hfits : Fits p.schema p.npoints) :
    Transposes P p pts := by
  refine ⟨_, pcPatchDimensionalFromUncompressed_ok h hne hfits, fun bytes hbytes => ?_⟩
  have hdecodes := decodesTo_of_decodesAs (P := P)
    (d := ⟨false, p.schema, p.npoints, p.bounds, pcStatsClone p.stats, bytes⟩)
    h.length_eq h.width_eq hbytes
  obtain ⟨u, hu, hholds, hschema, -⟩ := hdecodes.uncompressed_holds hfits
  obtain ⟨l, hl, hdata⟩ := hdecodes.pointlist hfits.npoints_lt
  refine ⟨⟨u, hu, hschema, hholds⟩, l, hl, ?_⟩
  rw [hdata]
  exact Fits.recordsOf_eq (by rwa [h.length_eq]) h.width_eq

theorem fits_of_transposes (htransposes : Transposes P p pts) : Fits p.schema p.npoints := by
  obtain ⟨d, hd, hall⟩ := htransposes
  unfold pcPatchDimensionalFromUncompressed at hd
  split at hd
  · cases hd
  · obtain ⟨bytes, hbytes, hd⟩ := bind_eq_ok.mp hd
    cases hd
    have hint : p.npoints < 2147483648 := by
      by_contra hlarge
      have hself : List.Forall₂ (DecodesAs P) bytes bytes := by
        rw [List.forall₂_same]
        intro e he
        obtain ⟨dim, -, hfill⟩ := exists_mem_of_mem_mapM hbytes e he
        obtain ⟨hcomp, hlen⟩ := dimensionFromRecords_fields hfill
        exact .refl hcomp hlen
      obtain ⟨-, l, hl, -⟩ := hall bytes hself
      exact pcPointlistFromDimensional_not_ok h.npoints_lt (Nat.not_lt.mp hlarge) l hl
    refine ⟨hint, fun dim hdim => ?_⟩
    obtain ⟨e, -, hfill⟩ := exists_mem_of_mapM hbytes dim hdim
    exact size_lt_of_dimensionFromRecords hfill hdim hint

end Transposes

/-- Transposition keeps the points exactly where the counts of the code are exact. -/
theorem pcPatchDimensionalFromUncompressed_transposes_iff {p : PcPatchUncompressed}
    {pts : List Bytes} (h : p.Holds pts) (hne : pts ≠ []) :
    Transposes P p pts ↔ Fits p.schema p.npoints :=
  ⟨fits_of_transposes h, transposes_of_fits h hne⟩

/-- Two points of an x of two bytes and a y of one. -/
theorem pcPatchDimensionalFromUncompressed_transposes_iff_witness :
    let s := xySchema .uint16 .uint8 (by decide) uint8_known 1 .dimensional
    Transposes Platform.plain (patchOfRecords s [[1, 2, 3], [4, 5, 6]]) [[1, 2, 3], [4, 5, 6]] := by
  intro s
  have hholds : (patchOfRecords s [[1, 2, 3], [4, 5, 6]]).Holds [[1, 2, 3], [4, 5, 6]] :=
    patchOfRecords_holds (by decide) (by decide)
  exact (pcPatchDimensionalFromUncompressed_transposes_iff hholds (by simp)).mpr (by decide)

/-- `2 ^ 29` points with a dimension of eight bytes are not split by dimension. -/
theorem pcPatchDimensionalFromUncompressed_overflows :
    let s := xySchema .uint64 .uint8 (by decide) uint8_known 1 .dimensional
    let recs := List.replicate 536870912 (zeros 9)
    (patchOfRecords s recs).Holds recs ∧ recs ≠ [] ∧
      ¬ Transposes Platform.plain (patchOfRecords s recs) recs := by
  intro s recs
  have hwidth : ∀ r ∈ recs, r.length = s.size := by
    intro r hr
    rw [List.eq_of_mem_replicate hr, length_zeros]
    rfl
  have hlen : recs.length = 536870912 := List.length_replicate
  have hholds := patchOfRecords_holds hwidth (by omega)
  refine ⟨hholds, List.ne_nil_of_length_pos (by omega), fun htransposes => ?_⟩
  have hsize := (fits_of_transposes hholds htransposes).size_lt
    ⟨some "X", 0, 8, 0, .uint64, 1, 0⟩ (by simp [s, xySchema, patchOfRecords, Interpretation.size])
  have hnpoints : (patchOfRecords s recs).npoints = 536870912 := hlen
  simp only [hnpoints] at hsize
  omega

end Pointcloud
