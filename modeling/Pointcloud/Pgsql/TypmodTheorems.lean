/-
Pointcloud.Pgsql.TypmodTheorems — which pcid a type modifier stands for.

The text of a modifier is read as a `long`, cast to 32 bits and cut to 16. So a modifier
stands for the pcid that was written exactly if that has 16 bits
(`pcTypmodIn_faithful_iff`); any other number that a `long` can hold is taken, and the
column accepts the points of another pcid, or of all.
-/
import Pointcloud.Pgsql.Typmod

namespace Pointcloud

open Pointcloud.Base

/-! ## Reading a modifier -/

theorem ne_nil_of_denotes {cs : List Char} {v : Int} (h : Denotes cs v) : cs ≠ [] := by
  obtain ⟨spaces, sign, ds, rfl, -, hne, -⟩ := h
  simp [hne]

/-- The number of a text that denotes one. -/
theorem typmodOfElement_of_denotes {s : String} {v : Int} (h : Denotes s.toList v) :
    typmodOfElement s =
      if InLong v then .ok (v % 4294967296).toNat
      else raise ("value \"" ++ s ++ "\" is out of range for type uint32") := by
  have hlen : ¬ ([] : List Char).length = s.toList.length := fun heq =>
    ne_nil_of_denotes h (List.length_eq_zero_iff.mp heq.symm)
  unfold typmodOfElement
  rw [strtolEnd_of_denotes h]
  simp only [if_neg hlen]
  by_cases hlong : InLong v
  · have hclamp : max (-9223372036854775808) (min v 9223372036854775807) = v := by
      have hbounds : -9223372036854775808 ≤ v ∧ v ≤ 9223372036854775807 := hlong
      omega
    have hlt : ¬ 4294967295 < (v % 4294967296).toNat := by omega
    simp [hlong, hclamp, hlt]
  · simp [hlong]

/-- Any other text is an error. -/
theorem typmodOfElement_raises {s : String} (h : ∀ v, ¬ Denotes s.toList v) :
    Raises (typmodOfElement s) := by
  have hend : s.toList = [] ∨ (strtolEnd s.toList).endp ≠ [] := by
    by_cases hempty : s.toList = []
    · exact .inl hempty
    · refine .inr fun hnil => ?_
      obtain ⟨v, hv⟩ := denotes_of_strtolEnd hempty hnil
      exact h v hv
  unfold typmodOfElement
  rcases hend with hempty | hleft
  · rw [hempty]
    exact raises_raise _
  · simp only [hleft, ne_eq, not_false_eq_true, if_true]
    split
    · exact raises_raise _
    · split
      · exact raises_raise _
      · exact raises_raise _

theorem pcTypmodIn_single (s : String) :
    pcTypmodIn (.single s) = typmodOfElement s >>= fun typmod => .ok (int32 typmod) := rfl

/-! ## What a modifier stands for -/

/-- The modifier of a column stands for the number that was written: no restriction if
that is zero, and else the pcid, which has 16 bits. -/
structure StandsFor (typmod v : Int) : Prop where
  pcid_eq : (pcTypmodPcid typmod).map Int.ofNat = if v = 0 then none else some v
  out_eq : pcTypmodOut typmod = if v = 0 then "" else "(" ++ toString v ++ ")"
  accepts : ∀ pcid < 4294967296, pcidConsistent pcid (pcidFromTypmod typmod) = .ok () ↔
    (pcid : Int) = v ∨ v = 0

/-- A text is rejected, or taken as the number that it denotes. -/
def FaithfulTypmod (s : String) : Prop :=
  Raises (pcTypmodIn (.single s)) ∨
    ∃ typmod v, pcTypmodIn (.single s) = .ok typmod ∧ Denotes s.toList v ∧ StandsFor typmod v

/-- What a modifier stands for has 16 bits. -/
theorem StandsFor.fits {typmod v : Int} (h : StandsFor typmod v) : 0 ≤ v ∧ v < 65536 := by
  have hpcid := h.pcid_eq
  by_cases hv : v = 0
  · omega
  · have hlt : pcidFromTypmod typmod < 65536 := by
      unfold pcidFromTypmod
      split <;> omega
    simp only [pcTypmodPcid, hv, if_false] at hpcid
    split at hpcid
    · cases hpcid
    · obtain rfl : Int.ofNat (pcidFromTypmod typmod) = v := Option.some.inj hpcid
      exact ⟨Int.natCast_nonneg _, Int.ofNat_lt.mpr hlt⟩

/-- Numbers of 16 bits stand for themselves. -/
theorem standsFor_self {v : Int} (h : 0 ≤ v ∧ v < 65536) : StandsFor v v := by
  have hpcid : pcidFromTypmod v = v.toNat := by
    rw [pcidFromTypmod, if_neg (by omega), Int.emod_eq_of_lt h.1 h.2]
  have hzero : v.toNat = 0 ↔ v = 0 := by omega
  obtain ⟨n, rfl⟩ := Int.eq_ofNat_of_zero_le h.1
  rw [Int.toNat_natCast] at hpcid hzero
  refine ⟨?_, ?_, fun pcid _ => ?_⟩
  · simp only [pcTypmodPcid, hpcid, hzero]
    split <;> rfl
  · simp only [pcTypmodOut, hpcid, hzero]
    split <;> rfl
  · rw [hpcid, pcidConsistent]
    split
    · next hdiffer =>
        refine ⟨fun hraise => absurd hraise (raise_ne_ok _ _), fun hsame => ?_⟩
        omega
    · next hsame =>
        refine ⟨fun _ => ?_, fun _ => rfl⟩
        omega

/-- A modifier stands for what was written exactly if no number is taken that 16 bits do
not hold. -/
theorem pcTypmodIn_faithful_iff (s : String) :
    FaithfulTypmod s ↔ ∀ v, Denotes s.toList v → InLong v → 0 ≤ v ∧ v < 65536 := by
  constructor
  · rintro hfaithful v hv hlong
    have hrun : pcTypmodIn (.single s) = .ok (int32 (v % 4294967296).toNat) := by
      rw [pcTypmodIn_single, typmodOfElement_of_denotes hv, if_pos hlong, ok_bind]
    rcases hfaithful with hraises | ⟨typmod, w, hok, hw, hstands⟩
    · rw [hrun] at hraises
      exact absurd hraises (not_raises_ok _)
    · rw [hv.unique hw hlong]
      exact hstands.fits
  · intro hfits
    by_cases hdenotes : ∃ v, Denotes s.toList v
    · obtain ⟨v, hv⟩ := hdenotes
      by_cases hlong : InLong v
      · have hv' := hfits v hv hlong
        have hcast : int32 (v % 4294967296).toNat = v := by
          rw [int32]
          omega
        refine .inr ⟨v, v, ?_, hv, standsFor_self hv'⟩
        rw [pcTypmodIn_single, typmodOfElement_of_denotes hv, if_pos hlong, ok_bind, hcast]
      · refine .inl ?_
        rw [pcTypmodIn_single, typmodOfElement_of_denotes hv, if_neg hlong]
        exact raises_raise _
    · refine .inl ?_
      rw [pcTypmodIn_single, raises_bind]
      exact .inl (typmodOfElement_raises (not_exists.mp hdenotes))

/-- Modifiers that are numbers of more bits: the column of `65537` takes the points of
pcid 1, and `-1` takes all points. -/
theorem pcTypmodIn_fails :
    ¬ (∀ s, FaithfulTypmod s) ∧
      (pcTypmodIn (.single "65537") = .ok 65537 ∧ pcTypmodPcid 65537 = some 1) ∧
      (pcTypmodIn (.single "-1") = .ok (-1) ∧ pcTypmodPcid (-1) = none) := by
  have hbig : Denotes "65537".toList 65537 :=
    ⟨[], none, ['6', '5', '5', '3', '7'], rfl, by simp, by simp, by simp [digitValue], by decide⟩
  have hminus : Denotes "-1".toList (-1) :=
    ⟨[], some true, ['1'], rfl, by simp, by simp, by simp [digitValue], by decide⟩
  have hrun : pcTypmodIn (.single "65537") = .ok 65537 := by
    rw [pcTypmodIn_single, typmodOfElement_of_denotes hbig, if_pos (by decide), ok_bind]
    rfl
  have hrun' : pcTypmodIn (.single "-1") = .ok (-1) := by
    rw [pcTypmodIn_single, typmodOfElement_of_denotes hminus, if_pos (by decide), ok_bind]
    rfl
  refine ⟨fun hall => ?_, ⟨hrun, by decide⟩, hrun', by decide⟩
  rcases hall "65537" with hraises | ⟨typmod, v, -, hv, hstands⟩
  · rw [hrun] at hraises
    exact not_raises_ok _ hraises
  · have hv' := hbig.unique hv (by decide)
    have hfits := hstands.fits
    omega

end Pointcloud
