/-
Pointcloud.LimitTheorems — numbers inside the limits of the floating point types.

The searches for extremes start from `FLT_MAX` or from `DBL_MAX`. Every number
of an integer type is inside these limits. One of a floating point type that
is inside those of `float` is finite, and stays inside when it is stored again.
-/
import Pointcloud.Base.Extremes
import Pointcloud.ValTheorems

namespace Pointcloud

open Pointcloud.Base

variable {P : Platform}

/-- Inside the limits of `float`. -/
def WithinFloat (x : ℚ) : Prop := -fltMax < x ∧ x < fltMax

/-- Inside the limits of `double`. -/
def WithinDouble (x : ℚ) : Prop := -dblMax < x ∧ x < dblMax

instance (x : ℚ) : Decidable (WithinFloat x) := inferInstanceAs (Decidable (_ ∧ _))

/-- What is inside the limits of `float` is inside those of `double`. -/
theorem WithinFloat.withinDouble {x : ℚ} (h : WithinFloat x) : WithinDouble x := by
  have hlt : fltMax < dblMax := by decide +kernel
  obtain ⟨hlow, hhigh⟩ := h
  constructor <;> linarith

theorem withinFloat_zero : WithinFloat 0 := ⟨by decide +kernel, by decide +kernel⟩

/-- The integer types are inside the limits. -/
theorem Interpretation.Whole.number_within {i : Interpretation} (h : i.Whole) (en : Endian)
    {bs : Bytes} (hlen : bs.length = i.size) : WithinFloat (i.number en bs) := by
  obtain ⟨n, hn, hlow, hhigh, -⟩ := h.number_eq en hlen
  have hrange : -18446744073709551616 ≤ i.range.1 ∧ i.range.2 ≤ 18446744073709551616 := by
    cases i <;> decide
  have hmax : (18446744073709551616 : ℚ) < fltMax := by decide +kernel
  have hmin : ((-18446744073709551616 : Int) : ℚ) ≤ n := by
    exact_mod_cast Int.le_trans hrange.1 hlow
  have hle : (n : ℚ) ≤ ((18446744073709551616 : Int) : ℚ) := by
    exact_mod_cast Int.le_trans hhigh hrange.2
  push_cast at hmin hle
  rw [hn]
  constructor <;> linarith

/-- A word of a floating point type inside the limits is that of a rational, or a zero. -/
theorem finiteWord_or_zero (eb mb : Nat) {bits : Nat} (hlt : bits < 2 ^ (eb + mb + 1))
    (hzero : ieeeDecode eb mb (2 ^ (eb + mb)) = 0)
    (hlimit : fltMax ≤ ieeeMagnitude eb mb ((2 ^ eb - 1) * 2 ^ mb))
    (h : WithinFloat (ieeeDecode eb mb bits)) :
    FiniteWord eb mb bits ∨ ieeeDecode eb mb bits = 0 := by
  by_cases hsign : bits = 2 ^ (eb + mb)
  · exact .inr (hsign ▸ hzero)
  · refine .inl (finiteWord_of_magnitude_lt hlt hsign (lt_of_lt_of_le ?_ hlimit))
    obtain ⟨hlow, hhigh⟩ := h
    unfold ieeeDecode at hlow hhigh
    split at hhigh
    · exact hhigh
    · next hneg =>
        rw [if_neg hneg] at hlow
        linarith

/-- Zero is stored as zeros. -/
theorem Interpretation.stored_zero {i : Interpretation} (h : i = .float ∨ i = .double) :
    i.stored P 0 = zeros i.size := by
  have hzeros : i.stored P (i.number P.endian (zeros i.size)) = zeros i.size :=
    stored_number (by rcases h with rfl | rfl <;> decide) (by rcases h with rfl | rfl <;> decide)
      (length_zeros _) (isRational_zeros P.endian i)
  rwa [number_zeros] at hzeros

theorem Interpretation.number_stored_zero {i : Interpretation} (hknown : i ≠ .unknown) :
    WithinFloat (i.number P.endian (i.stored P 0)) := by
  by_cases hwhole : i.Whole
  · exact hwhole.number_within P.endian (i.length_stored hknown 0)
  · have hfloat : i = .float ∨ i = .double := by
      simp only [Whole] at hwhole
      tauto
    rw [stored_zero hfloat, number_zeros]
    exact withinFloat_zero

/-- A number inside the limits that is stored again stays inside. -/
theorem Interpretation.number_stored_within {i : Interpretation} (hknown : i ≠ .unknown)
    {bs : Bytes} (hlen : bs.length = i.size) (h : WithinFloat (i.number P.endian bs)) :
    WithinFloat (i.number P.endian (i.stored P (i.number P.endian bs))) := by
  have hword := P.endian.natOf_lt bs
  rw [hlen] at hword
  -- a word of a floating point type comes back, or it is one of the zeros
  have hfloat : i ≠ .uint64 → (i.IsRational P.endian bs ∨ i.number P.endian bs = 0) →
      WithinFloat (i.number P.endian (i.stored P (i.number P.endian bs))) := by
    rintro huint64 (hfinite | hzero)
    · rwa [stored_number hknown huint64 hlen hfinite]
    · rw [hzero]
      exact number_stored_zero hknown
  cases i with
  | unknown => exact absurd rfl hknown
  | float =>
      exact hfloat (by decide) (finiteWord_or_zero 8 23 hword (by decide +kernel)
        (by decide +kernel) h)
  | double =>
      exact hfloat (by decide) (finiteWord_or_zero 11 52 hword (by decide +kernel)
        (by decide +kernel) h)
  | _ => exact Whole.number_within (by decide) P.endian (length_stored hknown _)

/-! ## Extremes -/

/-- Numbers inside the limits leave the limits behind. -/
theorem foldl_min_mem {xs : List ℚ} (hne : xs ≠ []) {limit : ℚ} (h : ∀ x ∈ xs, x < limit) :
    xs.foldl min limit ∈ xs := by
  obtain ⟨x, hx⟩ := List.exists_mem_of_ne_nil xs hne
  exact ((leastOf_foldl_iff hne limit).mpr ⟨x, hx, le_of_lt (h x hx)⟩).1

theorem foldl_max_mem {xs : List ℚ} (hne : xs ≠ []) {limit : ℚ} (h : ∀ x ∈ xs, limit < x) :
    xs.foldl max limit ∈ xs := by
  obtain ⟨x, hx⟩ := List.exists_mem_of_ne_nil xs hne
  exact ((greatestOf_foldl_iff hne limit).mpr ⟨x, hx, le_of_lt (h x hx)⟩).1

end Pointcloud
