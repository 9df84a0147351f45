/-
Pointcloud.Base.Ieee754Theorems — words that come back from their numbers.

The magnitude of a word grows with the word, through the subnormal words and
over the boundaries of the exponents. So the search from the top bit finds
the word of a magnitude again, and encoding undoes decoding for every finite
word but the negative zero, whose number has two words.
-/
import Pointcloud.Base.Ieee754
import Mathlib.Algebra.Order.Field.Power
import Mathlib.Tactic.FieldSimp
import Mathlib.Tactic.Linarith
import Mathlib.Data.Int.ConditionallyCompleteOrder
import Mathlib.Tactic.Positivity
import Mathlib.Tactic.Ring

namespace Pointcloud.Base

/-! ## Powers of two -/

theorem pow2_eq_zpow (e : Int) : pow2 e = (2 : ℚ) ^ e := by
  unfold pow2
  split
  · next he =>
      conv_rhs => rw [← Int.toNat_of_nonneg he]
      rw [zpow_natCast]
  · next he =>
      have hneg : ((-e).toNat : Int) = -e := Int.toNat_of_nonneg (by omega)
      rw [one_div, ← zpow_natCast, hneg, zpow_neg, inv_inv]

theorem pow2_pos (e : Int) : 0 < pow2 e := by
  rw [pow2_eq_zpow]
  positivity

theorem pow2_succ (e : Int) : pow2 (e + 1) = 2 * pow2 e := by
  rw [pow2_eq_zpow, pow2_eq_zpow, zpow_add_one₀ (by norm_num), mul_comm]

/-- Only the zeros are read as zero. -/
theorem ieeeDecode_ne_zero (eb mb : Nat) {bits : Nat} (h : bits % 2 ^ (eb + mb) ≠ 0) :
    ieeeDecode eb mb bits ≠ 0 := by
  have hfields : bits % 2 ^ mb + 2 ^ mb * (bits / 2 ^ mb % 2 ^ eb) ≠ 0 := by
    rwa [← Nat.mod_mul, ← Nat.pow_add, Nat.add_comm]
  have hmagnitude : ieeeMagnitude eb mb bits ≠ 0 := by
    simp only [ieeeMagnitude]
    split_ifs with he
    · rw [he, Nat.mul_zero, Nat.add_zero] at hfields
      exact mul_ne_zero (Nat.cast_ne_zero.mpr hfields) (pow2_pos _).ne'
    · have hpos : 2 ^ mb + bits % 2 ^ mb ≠ 0 := by
        have := Nat.two_pow_pos mb
        omega
      exact mul_ne_zero (Nat.cast_ne_zero.mpr hpos) (pow2_pos _).ne'
  unfold ieeeDecode
  split_ifs
  · exact hmagnitude
  · exact neg_ne_zero.mpr hmagnitude

/-! ## Magnitudes grow -/

section Magnitude

variable {eb mb : Nat}

/-- The magnitude of a word by its exponent and mantissa. -/
theorem ieeeMagnitude_eq {e m : Nat} (he : e < 2 ^ eb) (hm : m < 2 ^ mb) :
    ieeeMagnitude eb mb (e * 2 ^ mb + m) =
      if e = 0 then m * pow2 (1 - (2 ^ (eb - 1) - 1) - mb)
      else (2 ^ mb + m : Nat) * pow2 (e - (2 ^ (eb - 1) - 1) - mb) := by
  have hdiv : (e * 2 ^ mb + m) / 2 ^ mb = e := by
    rw [Nat.add_comm, Nat.add_mul_div_right _ _ (Nat.two_pow_pos mb), Nat.div_eq_of_lt hm,
      Nat.zero_add]
  have hmod : (e * 2 ^ mb + m) % 2 ^ mb = m := by
    rw [Nat.add_comm, Nat.add_mul_mod_self_right, Nat.mod_eq_of_lt hm]
  simp only [ieeeMagnitude, hdiv, hmod, Nat.mod_eq_of_lt he]

/-- A word is its exponent and its mantissa. -/
theorem exists_fields {bits : Nat} (h : bits < 2 ^ (eb + mb)) :
    ∃ e m, e < 2 ^ eb ∧ m < 2 ^ mb ∧ bits = e * 2 ^ mb + m := by
  refine ⟨bits / 2 ^ mb, bits % 2 ^ mb, ?_, Nat.mod_lt _ (Nat.two_pow_pos mb), ?_⟩
  · rw [Nat.div_lt_iff_lt_mul (Nat.two_pow_pos mb), ← Nat.pow_add]
    exact h
  · rw [Nat.mul_comm, Nat.div_add_mod]

/-- The next word has a greater magnitude. -/
theorem ieeeMagnitude_lt_succ {bits : Nat} (h : bits + 1 < 2 ^ (eb + mb)) :
    ieeeMagnitude eb mb bits < ieeeMagnitude eb mb (bits + 1) := by
  obtain ⟨e, m, he, hm, rfl⟩ := exists_fields (show bits < 2 ^ (eb + mb) by omega)
  by_cases hcarry : m + 1 < 2 ^ mb
  · -- the same exponent
    rw [Nat.add_assoc, ieeeMagnitude_eq he hm, ieeeMagnitude_eq he hcarry]
    split
    · have hpos := pow2_pos (1 - (2 ^ (eb - 1) - 1) - mb)
      push_cast
      nlinarith
    · have hpos := pow2_pos (e - (2 ^ (eb - 1) - 1) - mb)
      push_cast
      nlinarith
  · -- the next exponent, and no mantissa
    have hlast : m + 1 = 2 ^ mb := by omega
    have hnext : e * 2 ^ mb + m + 1 = (e + 1) * 2 ^ mb + 0 := by
      rw [Nat.add_assoc, hlast, Nat.succ_mul, Nat.add_zero]
    have he' : e + 1 < 2 ^ eb := by
      rw [hnext, Nat.add_zero, Nat.pow_add] at h
      exact Nat.lt_of_mul_lt_mul_right h
    have hcast : (m : ℚ) + 1 = 2 ^ mb := by exact_mod_cast hlast
    rw [hnext, ieeeMagnitude_eq he hm, ieeeMagnitude_eq he' (Nat.two_pow_pos mb),
      if_neg (Nat.succ_ne_zero e)]
    by_cases hzero : e = 0
    · have hpos := pow2_pos (1 - (2 ^ (eb - 1) - 1) - mb)
      rw [if_pos hzero, hzero]
      push_cast
      rw [← hcast]
      nlinarith
    · have hexp : ((e + 1 : Nat) : Int) - (2 ^ (eb - 1) - 1) - mb =
          ((e : Int) - (2 ^ (eb - 1) - 1) - mb) + 1 := by
        push_cast
        ring
      have hpos := pow2_pos (e - (2 ^ (eb - 1) - 1) - mb)
      rw [if_neg hzero, hexp, pow2_succ]
      push_cast
      rw [← hcast]
      nlinarith

theorem ieeeMagnitude_lt {a b : Nat} (hab : a < b) (hb : b < 2 ^ (eb + mb)) :
    ieeeMagnitude eb mb a < ieeeMagnitude eb mb b := by
  induction b with
  | zero => exact absurd hab (Nat.not_lt_zero a)
  | succ b ih =>
      have hstep := ieeeMagnitude_lt_succ hb
      rcases Nat.lt_succ_iff_lt_or_eq.mp hab with hlt | rfl
      · exact lt_trans (ih hlt (by omega)) hstep
      · exact hstep

theorem ieeeMagnitude_le_iff {a b : Nat} (ha : a < 2 ^ (eb + mb)) (hb : b < 2 ^ (eb + mb)) :
    ieeeMagnitude eb mb a ≤ ieeeMagnitude eb mb b ↔ a ≤ b := by
  constructor
  · intro hle
    by_contra hlt
    exact absurd hle (not_le.mpr (ieeeMagnitude_lt (by omega) ha))
  · intro hle
    rcases Nat.lt_or_eq_of_le hle with hlt | rfl
    · exact le_of_lt (ieeeMagnitude_lt hlt hb)
    · exact le_refl _

/-! ## Encoding undoes decoding -/

/-- The search sets a bit when the word has it. -/
theorem ieeeFloor_step {b : Nat} (hb : b < 2 ^ (eb + mb)) {n : Nat} (hn : n + 1 ≤ eb + mb) :
    (if ieeeMagnitude eb mb (b / 2 ^ (n + 1) * 2 ^ (n + 1) + 2 ^ n) ≤ ieeeMagnitude eb mb b then
      b / 2 ^ (n + 1) * 2 ^ (n + 1) + 2 ^ n
    else b / 2 ^ (n + 1) * 2 ^ (n + 1)) = b / 2 ^ n * 2 ^ n := by
  have hpos := Nat.two_pow_pos n
  have hhalf : b / 2 ^ (n + 1) * 2 ^ (n + 1) = b / 2 ^ n / 2 * 2 * 2 ^ n := by
    rw [pow_succ, ← Nat.div_div_eq_div_mul, Nat.mul_assoc, Nat.mul_comm 2]
  have htop : 2 ^ (eb + mb) = 2 ^ (eb + mb - n - 1) * 2 * 2 ^ n := by
    rw [← pow_succ, ← Nat.pow_add]
    congr 1
    omega
  have hlt : b / 2 ^ n < 2 ^ (eb + mb - n - 1) * 2 := by
    rw [Nat.div_lt_iff_lt_mul hpos, ← htop]
    exact hb
  have hroom : (b / 2 ^ n / 2 * 2 + 1) * 2 ^ n < 2 ^ (eb + mb) := by
    rw [htop]
    exact (Nat.mul_lt_mul_right hpos).mpr (by omega)
  rw [hhalf, ← Nat.succ_mul, Nat.succ_eq_add_one]
  simp only [ieeeMagnitude_le_iff hroom hb, ← Nat.le_div_iff_mul_le hpos]
  split
  · next hset =>
      have hodd : b / 2 ^ n / 2 * 2 + 1 = b / 2 ^ n := by omega
      rw [hodd]
  · next hclear =>
      have heven : b / 2 ^ n / 2 * 2 = b / 2 ^ n := by omega
      rw [heven]

/-- From the bits above `n` the search adds the bits below. -/
theorem ieeeFloor_from {b : Nat} (hb : b < 2 ^ (eb + mb)) : ∀ n, n ≤ eb + mb →
    (List.range n).reverse.foldl
      (fun bits i => if ieeeMagnitude eb mb (bits + 2 ^ i) ≤ ieeeMagnitude eb mb b then bits + 2 ^ i
        else bits) (b / 2 ^ n * 2 ^ n) = b
  | 0, _ => by simp
  | n + 1, hn => by
      rw [List.range_succ, List.reverse_append, List.reverse_singleton, List.singleton_append,
        List.foldl_cons, ieeeFloor_step hb hn]
      exact ieeeFloor_from hb n (by omega)

theorem ieeeFloor_magnitude {b : Nat} (hb : b < 2 ^ (eb + mb)) :
    ieeeFloor eb mb (ieeeMagnitude eb mb b) = b := by
  have hall := ieeeFloor_from hb (eb + mb) (Nat.le_refl _)
  rwa [Nat.div_eq_of_lt hb, Nat.zero_mul] at hall

/-- A word of a finite number, without sign. -/
theorem ieeeEncode_magnitude (heb : 0 < eb) {b : Nat} (hb : b < (2 ^ eb - 1) * 2 ^ mb) :
    ieeeEncode eb mb (ieeeMagnitude eb mb b) = b ∧
      (b ≠ 0 → ieeeEncode eb mb (-ieeeMagnitude eb mb b) = 2 ^ (eb + mb) + b) := by
  have hone : 1 < 2 ^ eb := Nat.one_lt_two_pow (Nat.ne_of_gt heb)
  have htop : (2 ^ eb - 1) * 2 ^ mb < 2 ^ (eb + mb) := by
    rw [Nat.pow_add]
    exact (Nat.mul_lt_mul_right (Nat.two_pow_pos mb)).mpr (by omega)
  have hlt : b < 2 ^ (eb + mb) := by omega
  have hzero : ieeeMagnitude eb mb 0 = 0 := by simp [ieeeMagnitude]
  have hnonneg : 0 ≤ ieeeMagnitude eb mb b := by
    rw [← hzero]
    exact (ieeeMagnitude_le_iff (Nat.two_pow_pos _) hlt).mpr (Nat.zero_le b)
  have habove : ieeeMagnitude eb mb b < ieeeMagnitude eb mb (b + 1) :=
    ieeeMagnitude_lt_succ (by omega)
  have hbits : ∀ x : ℚ, (if x < 0 then -x else x) = ieeeMagnitude eb mb b →
      ieeeEncode eb mb x = if x < 0 then 2 ^ (eb + mb) + b else b := by
    intro x hx
    simp only [ieeeEncode, hx, ieeeFloor_magnitude hlt]
    rw [if_pos (Or.inl (by linarith)), Nat.min_eq_left (by omega)]
  refine ⟨?_, fun hne => ?_⟩
  · rw [hbits _ (if_neg (not_lt.mpr hnonneg)), if_neg (not_lt.mpr hnonneg)]
  · have hpos : 0 < ieeeMagnitude eb mb b := by
      rw [← hzero]
      exact ieeeMagnitude_lt (Nat.pos_of_ne_zero hne) hlt
    have hneg : -ieeeMagnitude eb mb b < 0 := by linarith
    rw [hbits _ (by rw [if_pos hneg, neg_neg]), if_pos hneg]

/-- A finite word other than the negative zero. -/
def FiniteWord (eb mb bits : Nat) : Prop :=
  bits < 2 ^ (eb + mb + 1) ∧ bits % 2 ^ (eb + mb) < (2 ^ eb - 1) * 2 ^ mb ∧ bits ≠ 2 ^ (eb + mb)

/-- The sign has no part in the magnitude. -/
theorem ieeeMagnitude_mod (bits : Nat) :
    ieeeMagnitude eb mb (bits % 2 ^ (eb + mb)) = ieeeMagnitude eb mb bits := by
  have hexp : bits % 2 ^ (eb + mb) / 2 ^ mb % 2 ^ eb = bits / 2 ^ mb % 2 ^ eb := by
    rw [Nat.add_comm eb mb, Nat.pow_add, Nat.mod_mul_right_div_self, Nat.mod_mod]
  have hmantissa : bits % 2 ^ (eb + mb) % 2 ^ mb = bits % 2 ^ mb :=
    Nat.mod_mod_of_dvd bits (Nat.pow_dvd_pow 2 (Nat.le_add_left mb eb))
  simp only [ieeeMagnitude, hexp, hmantissa]

/-- A word is finite where its magnitude is below that of infinity. -/
theorem finiteWord_of_magnitude_lt {bits : Nat} (hlt : bits < 2 ^ (eb + mb + 1))
    (hsign : bits ≠ 2 ^ (eb + mb))
    (hmagnitude : ieeeMagnitude eb mb bits < ieeeMagnitude eb mb ((2 ^ eb - 1) * 2 ^ mb)) :
    FiniteWord eb mb bits := by
  refine ⟨hlt, ?_, hsign⟩
  have hinfinity : (2 ^ eb - 1) * 2 ^ mb < 2 ^ (eb + mb) := by
    rw [Nat.pow_add]
    exact Nat.mul_lt_mul_of_pos_right (Nat.sub_lt (Nat.two_pow_pos eb) one_pos) (Nat.two_pow_pos mb)
  by_contra hle
  rw [← ieeeMagnitude_mod bits] at hmagnitude
  exact absurd hmagnitude (not_lt.mpr ((ieeeMagnitude_le_iff hinfinity
    (Nat.mod_lt _ (Nat.two_pow_pos _))).mpr (not_lt.mp hle)))

/-- A finite word comes back from its number. -/
theorem ieeeEncode_ieeeDecode (heb : 0 < eb) {bits : Nat} (h : FiniteWord eb mb bits) :
    ieeeEncode eb mb (ieeeDecode eb mb bits) = bits := by
  obtain ⟨hlt, hfinite, hzero⟩ := h
  have hpos := Nat.two_pow_pos (eb + mb)
  rw [pow_succ] at hlt
  have hsign : bits / 2 ^ (eb + mb) < 2 := by
    rw [Nat.div_lt_iff_lt_mul hpos, Nat.mul_comm]
    exact hlt
  have hsplit := Nat.div_add_mod bits (2 ^ (eb + mb))
  obtain ⟨hplus, hminus⟩ := ieeeEncode_magnitude heb hfinite
  unfold ieeeDecode
  rw [← ieeeMagnitude_mod bits, Nat.mod_eq_of_lt hsign]
  split
  · next hpositive =>
      rw [hpositive, Nat.mul_zero, Nat.zero_add] at hsplit
      rw [hplus, hsplit]
  · next hnegative =>
      have hone : bits / 2 ^ (eb + mb) = 1 :=
        Nat.le_antisymm (Nat.le_of_lt_succ hsign) (Nat.one_le_iff_ne_zero.mpr hnegative)
      rw [hone, Nat.mul_one] at hsplit
      have hne : bits % 2 ^ (eb + mb) ≠ 0 := by
        intro hnone
        rw [hnone, Nat.add_zero] at hsplit
        exact hzero hsplit.symm
      rw [hminus hne, hsplit]

end Magnitude

/-! ## Rounding to integers -/

/-- Rounding moves a number by at most one half. -/
theorem abs_roundHalfAway_sub_le (x : ℚ) : |(roundHalfAway x : ℚ) - x| ≤ 1 / 2 := by
  unfold roundHalfAway
  split
  · have hle := Int.floor_le (x + 1 / 2)
    have hlt := Int.lt_floor_add_one (x + 1 / 2)
    rw [abs_le]
    constructor <;> linarith
  · have hle := Int.floor_le (-x + 1 / 2)
    have hlt := Int.lt_floor_add_one (-x + 1 / 2)
    rw [abs_le]
    push_cast
    constructor <;> linarith

/-- An integer is its own nearest one. -/
theorem roundHalfAway_intCast (n : Int) : roundHalfAway n = n := by
  have hfloor : ∀ m : Int, ⌊(m : ℚ) + 1 / 2⌋ = m := by
    intro m
    rw [Int.floor_eq_iff]
    constructor <;> linarith
  unfold roundHalfAway
  split
  · exact hfloor n
  · rw [← Int.cast_neg, hfloor, neg_neg]

theorem roundHalfAway_mono : Monotone roundHalfAway := by
  intro a b hab
  unfold roundHalfAway
  by_cases ha : 0 ≤ a
  · rw [if_pos ha, if_pos (le_trans ha hab)]
    exact Int.floor_le_floor (by linarith)
  · have hneg : 0 ≤ ⌊-a + 1 / 2⌋ := Int.floor_nonneg.mpr (by linarith)
    rw [if_neg ha]
    by_cases hb : 0 ≤ b
    · have hpos : 0 ≤ ⌊b + 1 / 2⌋ := Int.floor_nonneg.mpr (by linarith)
      rw [if_pos hb]
      omega
    · have hle : ⌊-b + 1 / 2⌋ ≤ ⌊-a + 1 / 2⌋ := Int.floor_le_floor (by linarith)
      rw [if_neg hb]
      omega

/-- Above zero, the tie below an integer is rounded up to it. -/
theorem le_roundHalfAway_iff {n : Int} (hn : 0 < n) (x : ℚ) :
    n ≤ roundHalfAway x ↔ (n : ℚ) - 1 / 2 ≤ x := by
  unfold roundHalfAway
  split
  · rw [Int.le_floor]
    constructor <;> intro h <;> linarith
  · next hx =>
      have hone : (1 : ℚ) ≤ n := by exact_mod_cast hn
      have hneg : 0 ≤ ⌊-x + 1 / 2⌋ := Int.floor_nonneg.mpr (by linarith)
      constructor
      · intro h
        omega
      · intro h
        linarith

end Pointcloud.Base
