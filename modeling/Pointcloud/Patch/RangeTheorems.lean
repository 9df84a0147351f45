/-
Pointcloud.Patch.RangeTheorems — the points of a range.

A range is a part of the records of a patch, copied into a patch of its own.
The range of all points is the patch itself.
-/
import Pointcloud.Patch.Edit
import Pointcloud.Patch.StatsTheorems

namespace Pointcloud

open Pointcloud.Base

variable {P : Platform}

/-- A part of the records of a patch, in a patch that is summarized anew. -/
structure RangeOf (P : Platform) (pa qa : PcPatch) (u : PcPatchUncompressed) (pts : List Bytes) :
    Prop where
  uncompress_ok : pcPatchUncompress P pa = .ok u
  ne : pts ≠ []
  part : pts <:+: u.points
  computed : ∃ p r q : PcPatchUncompressed, p.Holds pts ∧ p.schema = pa.schema ∧
    p.datasize = p.npoints * p.schema.size ∧
    pcPatchUncompressedComputeExtent P.endian p = .ok r ∧
    pcPatchUncompressedComputeStats P r = .ok q ∧ qa = .uncompressed q

/-- What comes back is the patch itself, or a part of its records. -/
theorem rangeOf_of_ok {pa qa : PcPatch} (hlt : pa.npoints < 4294967296) {first count : Int}
    (h : pcPatchRange P pa first count = .ok (some qa)) :
    qa = pa ∨ ∃ u pts, RangeOf P pa qa u pts := by
  unfold pcPatchRange at h
  simp only at h
  generalize hi : int32 (first - 1) = start at h
  generalize htaken : (if int32 (pa.npoints - start) < count then int32 (pa.npoints - start)
    else count) = taken at h
  split at h
  · cases h
  · next hsome =>
      split at h
      · cases h
        exact .inl rfl
      · next hpart =>
          obtain ⟨q, hq, h⟩ := bind_eq_ok.mp h
          obtain ⟨u, hu, h⟩ := bind_eq_ok.mp h
          obtain ⟨src, hsrc, h⟩ := bind_eq_ok.mp h
          obtain ⟨written, hwritten, h⟩ := bind_eq_ok.mp h
          obtain ⟨r, hextent, h⟩ := bind_eq_ok.mp h
          obtain ⟨t, hstats, h⟩ := bind_eq_ok.mp h
          cases h
          obtain ⟨hus, hun⟩ := schema_of_uncompress hu
          obtain ⟨hqs, -, -, hqsize, hqlen⟩ := pcPatchUncompressedMake_fields hq
          -- the range lies inside the patch
          obtain ⟨i, rfl⟩ := Int.eq_ofNat_of_zero_le (show 0 ≤ start by omega)
          obtain ⟨n, rfl⟩ := Int.eq_ofNat_of_zero_le (show 0 ≤ taken by omega)
          have hstart : (i : Int) < 2147483648 := by
            rw [← hi]
            unfold int32
            omega
          have hinside : i + n ≤ pa.npoints := by
            unfold int32 at htaken
            split at htaken <;> omega
          have hpos : 1 ≤ n := by omega
          rw [Int.toNat_natCast] at hqsize hqlen hsrc hextent
          have hlen := length_of_readAt hsrc
          have hpts := records_slice (w := pa.schema.size) u.data.content hinside
          have hcontent : written ++ q.data.content.drop written.length = src := by
            rw [emit_ok (by rw [hlen, hqlen, List.length_nil, Nat.zero_add]), Except.ok.injEq,
              List.nil_append] at hwritten
            rw [← hwritten, List.drop_eq_nil_of_le (by rw [hlen, hqlen]), List.append_nil]
          have hsource : (u.data.content.drop (i * pa.schema.size)).take (n * pa.schema.size) =
              src := by
            rw [Nat.mul_comm i, Nat.mul_comm n]
            exact (readAt_eq_ok.mp hsrc).2
          refine .inr ⟨u, records pa.schema.size n src, hu, ?_, ?_, { q with
            npoints := n
            data := bufOf (written ++ q.data.content.drop written.length) }, r, t, ?_, hqs, ?_,
            hextent, hstats, rfl⟩
          · rw [← List.length_pos_iff, length_records]
            exact hpos
          · rw [← hsource, hpts, PcPatchUncompressed.points, hus, hun]
            exact (List.take_prefix _ _).isInfix.trans (List.drop_suffix _ _).isInfix
          · refine ⟨by simp only; omega, ?_, ?_⟩
            · simp only [content_bufOf, hcontent, hqs, hlen, Nat.mul_comm, Nat.le_refl]
            · simp only [content_bufOf, hcontent, hqs]
          · simp only [hqsize, hqs, Nat.mul_comm]

end Pointcloud
