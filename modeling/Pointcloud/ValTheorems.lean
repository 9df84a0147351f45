/-
Pointcloud.ValTheorems — numbers that are stored and read back.

Storing a number clamps it to its type and rounds it, up to the greatest
`long`: above that `lround` overflows, which the limits of the types of 64
bits do not prevent. A number that was read from an integer type comes back as
the same bytes, for the unsigned type of 64 bits below `2 ^ 63` only. A word
of a floating point type comes back if it is that of a rational: neither an
infinity nor a NaN, nor the negative zero.
-/
import Pointcloud.Base.Ieee754Theorems
import Pointcloud.Val

namespace Pointcloud

open Pointcloud.Base

variable {P : Platform}

/-! ## Stored values -/

/-- The bytes in which a number is stored. -/
def Interpretation.stored (P : Platform) (i : Interpretation) (val : ℚ) : Bytes :=
  match pcDoubleToPtr P i val with
  | .ok bs => bs
  | .error _ => []

theorem pcDoubleToPtr_stored {i : Interpretation} (h : i ≠ .unknown) (val : ℚ) :
    pcDoubleToPtr P i val = .ok (i.stored P val) := by
  obtain ⟨bs, hbs, -⟩ := pcDoubleToPtr_ok P h val
  rw [Interpretation.stored, hbs]

theorem Interpretation.length_stored {i : Interpretation} (h : i ≠ .unknown) (val : ℚ) :
    (i.stored P val).length = i.size := by
  obtain ⟨bs, hbs, hlen⟩ := pcDoubleToPtr_ok P h val
  rw [stored, hbs]
  exact hlen

/-- Bytes of zero stand for zero. -/
theorem Interpretation.number_zeros (en : Endian) (i : Interpretation) :
    i.number en (zeros i.size) = 0 := by
  cases i <;> simp [number, Endian.word, Endian.natOf_zeros, ieeeDecode, ieeeMagnitude]

/-! ## Integer types -/

/-- The integer types. -/
def Interpretation.Whole (i : Interpretation) : Prop := i ≠ .unknown ∧ i ≠ .float ∧ i ≠ .double

instance (i : Interpretation) : Decidable i.Whole := inferInstanceAs (Decidable (_ ∧ _))

/-- The integer types of at most 32 bits. -/
def Interpretation.Narrow (i : Interpretation) : Prop :=
  i = .int8 ∨ i = .uint8 ∨ i = .int16 ∨ i = .uint16 ∨ i = .int32 ∨ i = .uint32

instance (i : Interpretation) : Decidable i.Narrow := inferInstanceAs (Decidable (_ ∨ _))

theorem Interpretation.Narrow.whole {i : Interpretation} (h : i.Narrow) : i.Whole ∧ i.size ≠ 8 := by
  rcases h with rfl | rfl | rfl | rfl | rfl | rfl <;> decide

theorem clamp_of_mem {val : ℚ} {limits : ℚ × ℚ} (h : limits.1 ≤ val ∧ val ≤ limits.2) :
    clamp val limits = val := by
  rw [clamp, if_neg (not_lt.mpr h.2), if_neg (not_lt.mpr h.1)]

theorem clamp_mem (val : ℚ) {low high : ℚ} (h : low ≤ high) :
    low ≤ clamp val (low, high) ∧ clamp val (low, high) ≤ high := by
  unfold clamp
  split
  · exact ⟨h, le_rfl⟩
  · next hhigh =>
      split
      · exact ⟨le_rfl, h⟩
      · next hlow => exact ⟨not_lt.mp hlow, not_lt.mp hhigh⟩

theorem clamp_lt {val low high c : ℚ} (hlow : low < c) (hval : val < c) :
    clamp val (low, high) < c := by
  unfold clamp
  split
  · next hhigh => exact lt_trans hhigh hval
  · split
    · exact hlow
    · exact hval

theorem le_clamp {val low high c : ℚ} (hhigh : c ≤ high) (hval : c ≤ val) :
    c ≤ clamp val (low, high) := by
  unfold clamp
  split
  · exact hhigh
  · split
    · next hlow => exact le_trans hval (le_of_lt hlow)
    · exact hval

/-- Below the tie above an integer, a limit above it does as well as the integer. -/
theorem roundHalfAway_clamp {val low limit : ℚ} {high : Int} (hlow : low ≤ high) (hhigh : 0 < high)
    (hval : val < high + 1 / 2) (hlimit : high ≤ limit) :
    roundHalfAway (clamp val (low, limit)) = roundHalfAway (clamp val (low, ↑high)) := by
  by_cases hle : val ≤ high
  · simp only [clamp, if_neg (not_lt.mpr hle), if_neg (not_lt.mpr (le_trans hle hlimit))]
  · have hgt : (high : ℚ) < val := not_le.mp hle
    have hge : (high : ℚ) ≤ clamp val (low, limit) := by
      unfold clamp
      split
      · exact hlimit
      · rw [if_neg (not_lt.mpr (le_trans hlow hgt.le))]
        exact hgt.le
    have hlt : clamp val (low, limit) < high + 1 / 2 := clamp_lt (by linarith) hval
    have hleast : high ≤ roundHalfAway (clamp val (low, limit)) := by
      rw [← roundHalfAway_intCast high]
      exact roundHalfAway_mono hge
    have hmost : ¬ high + 1 ≤ roundHalfAway (clamp val (low, limit)) := by
      rw [le_roundHalfAway_iff (by omega)]
      push_cast
      linarith
    have hright : clamp val (low, ↑high) = high := by rw [clamp, if_pos hgt]
    rw [hright, roundHalfAway_intCast]
    omega

theorem lround_of_lt {val : ℚ} (hlow : -9223372036854775808 ≤ val)
    (hhigh : val < 9223372036854775808 - 1 / 2) : lround P val = roundHalfAway val := by
  have hleast : (-9223372036854775808 : Int) ≤ roundHalfAway val := by
    rw [← roundHalfAway_intCast (-9223372036854775808)]
    exact roundHalfAway_mono (by exact_mod_cast hlow)
  have hmost : ¬ (9223372036854775808 : Int) ≤ roundHalfAway val := by
    rw [le_roundHalfAway_iff (by decide)]
    push_cast
    linarith
  rw [lround, if_pos ⟨hleast, by omega⟩]

/-- From `2 ^ 63 - 1 / 2` on the language leaves the result open. -/
theorem lround_of_ge {val : ℚ} (h : 9223372036854775808 - 1 / 2 ≤ val) :
    lround P val = P.lroundOverflow val := by
  have hle : (9223372036854775808 : Int) ≤ roundHalfAway val :=
    (le_roundHalfAway_iff (by decide) val).mpr (by exact_mod_cast h)
  rw [lround, if_neg (by omega)]

/-- The rounded number, kept within the range of the type. -/
def Interpretation.saturated (i : Interpretation) (val : ℚ) : Int :=
  roundHalfAway (clamp val (i.range.1, i.range.2))

section Integers

variable {i : Interpretation} (h : i.Whole)

include h

/-- The bytes of an integer type stand for an integer of its range. -/
theorem Interpretation.Whole.number_eq (en : Endian) {bs : Bytes} (hlen : bs.length = i.size) :
    ∃ n : Int, i.number en bs = n ∧ i.range.1 ≤ n ∧ n ≤ i.range.2 ∧
      en.wordBytes (BitVec.ofInt (8 * i.size) n) = bs := by
  have hsigned : ∀ w, bs.length = w → ∃ n : Int, ((en.word w bs).toInt : ℚ) = n ∧
      -2 ^ (8 * w - 1) ≤ n ∧ n ≤ 2 ^ (8 * w - 1) - 1 ∧
      en.wordBytes (BitVec.ofInt (8 * w) n) = bs := by
    intro w hw
    have hlow := BitVec.le_toInt (en.word w bs)
    have hhigh := BitVec.toInt_lt (x := en.word w bs)
    refine ⟨(en.word w bs).toInt, rfl, hlow, by omega, ?_⟩
    rw [BitVec.ofInt_toInt, en.wordBytes_word hw]
  have hunsigned : ∀ w, bs.length = w → ∃ n : Int, (en.natOf bs : ℚ) = n ∧ 0 ≤ n ∧
      n ≤ 256 ^ w - 1 ∧ en.wordBytes (BitVec.ofInt (8 * w) n) = bs := by
    intro w hw
    have hlt := en.natOf_lt bs
    rw [hw] at hlt
    refine ⟨(en.natOf bs : Int), by rw [Int.cast_natCast], Int.natCast_nonneg _, ?_, ?_⟩
    · have hcast : (en.natOf bs : Int) < 256 ^ w := by exact_mod_cast hlt
      omega
    · rw [BitVec.ofInt_natCast]
      exact en.wordBytes_word hw
  cases i with
  | unknown => exact absurd rfl h.1
  | float => exact absurd rfl h.2.1
  | double => exact absurd rfl h.2.2
  | int8 => exact hsigned 1 hlen
  | int16 => exact hsigned 2 hlen
  | int32 => exact hsigned 4 hlen
  | int64 => exact hsigned 8 hlen
  | uint8 => exact hunsigned 1 hlen
  | uint16 => exact hunsigned 2 hlen
  | uint32 => exact hunsigned 4 hlen
  | uint64 => exact hunsigned 8 hlen

/-- An integer of the range is read back from its bytes. -/
theorem Interpretation.Whole.number_wordBytes (en : Endian) {n : Int} (hlow : i.range.1 ≤ n)
    (hhigh : n ≤ i.range.2) : i.number en (en.wordBytes (BitVec.ofInt (8 * i.size) n)) = n := by
  obtain ⟨m, hm, hmlow, hmhigh, hbytes⟩ :=
    h.number_eq en (en.length_wordBytes (BitVec.ofInt (8 * i.size) n))
  have hint := congrArg BitVec.toInt (en.wordBytes_inj.mp hbytes)
  rw [hm]
  congr 1
  cases i with
  | unknown => exact absurd rfl h.1
  | float => exact absurd rfl h.2.1
  | double => exact absurd rfl h.2.2
  | _ =>
      simp only [range, size, BitVec.toInt_ofInt, Int.bmod] at hlow hhigh hmlow hmhigh hint
      omega

theorem Interpretation.Whole.stored_eq (val : ℚ) :
    i.stored P val =
      P.endian.wordBytes (BitVec.ofInt (8 * i.size) (lround P (clamp val i.limits))) := by
  cases i with
  | unknown => exact absurd rfl h.1
  | float => exact absurd rfl h.2.1
  | double => exact absurd rfl h.2.2
  | _ => rfl

/-- Where the rounded number fits into a `long`, the limits that `CLAMP` compares
with do as well as the ends of the range. -/
theorem Interpretation.Whole.lround_clamp {val : ℚ}
    (hlong : i.size = 8 → val < 9223372036854775808 - 1 / 2) :
    lround P (clamp val i.limits) = i.saturated val := by
  have hnarrow : ∀ {low high : Int}, -9223372036854775808 ≤ low → low ≤ high →
      high < 9223372036854775808 →
      lround P (clamp val (low, high)) = roundHalfAway (clamp val (low, high)) := by
    intro low high hlow hle hhigh
    have hends : (low : ℚ) ≤ high := by exact_mod_cast hle
    obtain ⟨hge, hlt⟩ := clamp_mem val hends
    have hmost : (high : ℚ) ≤ 9223372036854775807 := by
      exact_mod_cast Int.lt_add_one_iff.mp hhigh
    have hleast : (-9223372036854775808 : ℚ) ≤ low := by exact_mod_cast hlow
    exact lround_of_lt (le_trans hleast hge) (by linarith [le_trans hlt hmost])
  have hwide : ∀ {low : ℚ} {limit : ℚ} {high : Int}, i.size = 8 → -9223372036854775808 ≤ low →
      low ≤ 0 → 9223372036854775807 ≤ high → (high : ℚ) ≤ limit →
      lround P (clamp val (low, limit)) = roundHalfAway (clamp val (low, ↑high)) := by
    intro low limit high hsize hlow hneg hhigh hlimit
    have hval := hlong hsize
    have hmost : (9223372036854775807 : ℚ) ≤ high := by exact_mod_cast hhigh
    obtain ⟨hge, -⟩ := clamp_mem val (by linarith : low ≤ limit)
    have hlt : clamp val (low, limit) < 9223372036854775808 - 1 / 2 :=
      clamp_lt (by linarith) hval
    rw [lround_of_lt (le_trans hlow hge) hlt]
    exact roundHalfAway_clamp (by linarith) (by omega) (by linarith) hlimit
  cases i with
  | unknown => exact absurd rfl h.1
  | float => exact absurd rfl h.2.1
  | double => exact absurd rfl h.2.2
  | int64 => exact hwide rfl (by norm_num [limits]) (by norm_num) (by decide) (by norm_num [range])
  | uint64 => exact hwide rfl (by norm_num) le_rfl (by decide) (by norm_num [range])
  | _ => exact hnarrow (by decide) (by decide) (by decide)

/-- From there on a type of 64 bits gets what `lround` makes of it. -/
theorem Interpretation.Whole.stored_overflow (hsize : i.size = 8) {val : ℚ}
    (hval : 9223372036854775808 - 1 / 2 ≤ val) : ∃ x, i.stored P val =
      P.endian.wordBytes (BitVec.ofInt (8 * i.size) (P.lroundOverflow x)) := by
  have hlimit : 9223372036854775808 - 1 / 2 ≤ i.limits.2 := by
    cases i with
    | double => exact absurd rfl h.2.2
    | int64 | uint64 => norm_num [limits]
    | _ => exact absurd hsize (by decide)
  exact ⟨clamp val i.limits, by rw [h.stored_eq, lround_of_ge (le_clamp hlimit hval)]⟩

/-- The numbers from one to the greatest of the type are not stored as zero. -/
theorem Interpretation.Whole.wordBytes_ne_zero (en : Endian) {n : Int} (hpos : 0 < n)
    (hhigh : n ≤ i.range.2) :
    en.wordBytes (BitVec.ofInt (8 * i.size) n) ≠ en.wordBytes (BitVec.ofInt (8 * i.size) 0) := by
  intro heq
  have hmost : i.range.2 < ((2 ^ (8 * i.size) : Nat) : Int) := by
    cases i with
    | unknown => exact absurd rfl h.1
    | _ => norm_num [range, size]
  have hlt : n < ((2 ^ (8 * i.size) : Nat) : Int) := Int.lt_of_le_of_lt hhigh hmost
  have hnat := congrArg BitVec.toNat (en.wordBytes_inj.mp heq)
  rw [BitVec.toNat_ofInt, BitVec.toNat_ofInt, Int.emod_eq_of_lt hpos.le hlt, Int.zero_emod,
    Int.toNat_zero, Int.toNat_eq_zero] at hnat
  exact absurd hpos (not_lt.mpr hnat)

theorem Interpretation.Whole.saturated_mem (val : ℚ) :
    i.range.1 ≤ i.saturated val ∧ i.saturated val ≤ i.range.2 := by
  have hle : (i.range.1 : ℚ) ≤ i.range.2 := by
    cases i <;> norm_num [range]
  obtain ⟨hlow, hhigh⟩ := clamp_mem val hle
  have hrounded := And.intro (roundHalfAway_mono hlow) (roundHalfAway_mono hhigh)
  rwa [roundHalfAway_intCast, roundHalfAway_intCast] at hrounded

/-- What is stored is the rounded number, saturated. -/
theorem Interpretation.Whole.stored_saturated {val : ℚ}
    (hlong : i.size = 8 → val < 9223372036854775808 - 1 / 2) :
    i.stored P val = P.endian.wordBytes (BitVec.ofInt (8 * i.size) (i.saturated val)) := by
  rw [h.stored_eq, h.lround_clamp hlong]

/-- The number that is read back is the rounded one, saturated. -/
theorem Interpretation.Whole.number_stored {val : ℚ}
    (hlong : i.size = 8 → val < 9223372036854775808 - 1 / 2) :
    i.number P.endian (i.stored P val) = i.saturated val := by
  obtain ⟨hlow, hhigh⟩ := h.saturated_mem val
  rw [h.stored_saturated hlong, h.number_wordBytes P.endian hlow hhigh]

/-- An integer of the range, below `2 ^ 63`, is stored as it is. -/
theorem Interpretation.Whole.stored_int {n : Int} (hlow : i.range.1 ≤ n) (hhigh : n ≤ i.range.2)
    (hlong : n < 9223372036854775808) :
    i.stored P n = P.endian.wordBytes (BitVec.ofInt (8 * i.size) n) := by
  have hqlow : (i.range.1 : ℚ) ≤ n := by exact_mod_cast hlow
  have hqhigh : (n : ℚ) ≤ i.range.2 := by exact_mod_cast hhigh
  have hval : (n : ℚ) < 9223372036854775808 - 1 / 2 := by
    have hle : (n : ℚ) ≤ 9223372036854775807 := by exact_mod_cast Int.lt_add_one_iff.mp hlong
    linarith
  rw [h.stored_saturated fun _ => hval, saturated, clamp_of_mem ⟨hqlow, hqhigh⟩,
    roundHalfAway_intCast]

/-- What was read from an integer type is stored as the same bytes. -/
theorem Interpretation.Whole.stored_number {bs : Bytes} (hlen : bs.length = i.size)
    (hlong : i = .uint64 → i.number P.endian bs < 9223372036854775808) :
    i.stored P (i.number P.endian bs) = bs := by
  obtain ⟨n, hn, hlow, hhigh, hbytes⟩ := h.number_eq P.endian hlen
  have hlt : n < 9223372036854775808 := by
    by_cases hi : i = .uint64
    · have hq := hlong hi
      rw [hn] at hq
      exact_mod_cast hq
    · have hmost : i.range.2 < 9223372036854775808 := by
        cases i <;> first | decide | exact absurd rfl hi
      exact Int.lt_of_le_of_lt hhigh hmost
  rw [hn, h.stored_int hlow hhigh hlt, hbytes]

end Integers

/-! ## Rounding and saturation -/

/-- A number that a double stands for. -/
def IsDouble (x : ℚ) : Prop := ∃ bits, FiniteWord 11 52 bits ∧ ieeeDecode 11 52 bits = x

/-- Integer types round and saturate, but for the tie below `2 ^ 63` and what is
above it in the types of 64 bits; so what was read comes back, but for the
numbers from `2 ^ 63` on of the unsigned one. -/
theorem pcDoubleToPtr_saturates_iff {i : Interpretation} (h : i.Whole) (en : Endian) :
    (∀ val : ℚ,
      (∀ P : Platform, P.endian = en → pcDoubleToPtr P i val =
        .ok (en.wordBytes (BitVec.ofInt (8 * i.size) (i.saturated val)))) ↔
      (i.size = 8 → val < 9223372036854775808 - 1 / 2)) ∧
    ∀ bs : Bytes, bs.length = i.size → IsDouble (i.number en bs) →
      ((∀ P : Platform, P.endian = en →
        pcDoubleFromPtr en bs 0 i >>= pcDoubleToPtr P i = .ok bs) ↔
      (i = .uint64 → i.number en bs < 9223372036854775808)) := by
  -- a platform whose `lround` gives zero when it overflows
  have hzero : ∀ val, i.size = 8 → 9223372036854775808 - 1 / 2 ≤ val →
      i.stored { Platform.plain with endian := en } val =
        en.wordBytes (BitVec.ofInt (8 * i.size) 0) := by
    intro val hsize hval
    obtain ⟨x, hx⟩ := h.stored_overflow hsize hval
    exact hx
  have hread : ∀ (P : Platform) (bs : Bytes), bs.length = i.size →
      pcDoubleFromPtr en bs 0 i >>= pcDoubleToPtr P i = .ok (i.stored P (i.number en bs)) := by
    intro P bs hlen
    have hfrom : pcDoubleFromPtr en bs (0 : Nat) i = .ok (i.number en ((bs.drop 0).take i.size)) :=
      pcDoubleFromPtr_ok h.1 (by omega)
    rw [List.drop_zero, ← hlen, List.take_length] at hfrom
    rw [show (0 : Int) = ((0 : Nat) : Int) from rfl, hfrom, ok_bind, pcDoubleToPtr_stored h.1]
  refine ⟨fun val => ⟨fun hall hsize => ?_, ?_⟩, fun bs hlen _ => ⟨fun hall hi => ?_, ?_⟩⟩
  · by_contra hge
    have hval := not_lt.mp hge
    have hstored := hall { Platform.plain with endian := en } rfl
    rw [pcDoubleToPtr_stored h.1, hzero val hsize hval, Except.ok.injEq] at hstored
    refine h.wordBytes_ne_zero en ?_ (h.saturated_mem val).2 hstored.symm
    have hhigh : (1 : ℚ) - 1 / 2 ≤ i.range.2 := by
      cases i with
      | double => exact absurd rfl h.2.2
      | int64 | uint64 => norm_num [Interpretation.range]
      | _ => exact absurd hsize (by decide)
    exact (le_roundHalfAway_iff (n := 1) one_pos _).mpr
      (by exact_mod_cast le_clamp hhigh (by linarith : (1 : ℚ) - 1 / 2 ≤ val))
  · intro hval P hP
    subst hP
    rw [pcDoubleToPtr_stored h.1, h.stored_saturated hval]
  · by_contra hge
    have hback := hall { Platform.plain with endian := en } rfl
    have hval := not_lt.mp hge
    obtain ⟨n, hn, -, hhigh, hbytes⟩ := h.number_eq en hlen
    rw [hread _ bs hlen, hzero _ (by rw [hi]; rfl) (by linarith), Except.ok.injEq] at hback
    refine h.wordBytes_ne_zero en ?_ hhigh (hbytes.trans hback.symm)
    rw [hn] at hval
    exact_mod_cast lt_of_lt_of_le (by norm_num : (0 : ℚ) < 9223372036854775808) hval
  · intro hval P hP
    subst hP
    rw [hread P bs hlen, h.stored_number hlen hval]

theorem pcDoubleToPtr_saturates_iff_witness :
    pcDoubleToPtr Platform.plain .int8 (-1000) = .ok [0x80] := by
  have hmin := ((pcDoubleToPtr_saturates_iff (i := .int8) (by decide) .little).1 (-1000)).mpr
    (by decide) Platform.plain rfl
  exact hmin.trans (by decide +kernel)

/-- Where `lround` gives `LONG_MIN` when it overflows, `2 ^ 63` is stored as
`INT64_MIN`. -/
theorem pcDoubleToPtr_wraps :
    pcDoubleToPtr { Platform.plain with lroundOverflow := fun _ => -9223372036854775808 } .int64
        9223372036854775808 = .ok [0, 0, 0, 0, 0, 0, 0, 0x80] ∧
      Endian.little.wordBytes (BitVec.ofInt (8 * Interpretation.int64.size)
        (Interpretation.int64.saturated 9223372036854775808)) =
        [0xff, 0xff, 0xff, 0xff, 0xff, 0xff, 0xff, 0x7f] := by
  decide +kernel

/-! ## Floating point types -/

/-- The bytes of a floating point type are those of a rational. -/
def Interpretation.IsRational (en : Endian) (i : Interpretation) (bs : Bytes) : Prop :=
  match i with
  | .float => FiniteWord 8 23 (en.natOf bs)
  | .double => FiniteWord 11 52 (en.natOf bs)
  | _ => True

theorem isRational_zeros (en : Endian) (i : Interpretation) : i.IsRational en (zeros i.size) := by
  cases i with
  | float =>
      rw [Interpretation.IsRational, en.natOf_zeros]
      exact ⟨by decide, by decide, by decide⟩
  | double =>
      rw [Interpretation.IsRational, en.natOf_zeros]
      exact ⟨by decide, by decide, by decide⟩
  | _ => trivial

/-- What was read from a type, other than the unsigned one of 64 bits, is stored
as the same bytes. -/
theorem Interpretation.stored_number {i : Interpretation} (hknown : i ≠ .unknown)
    (huint64 : i ≠ .uint64) {bs : Bytes} (hlen : bs.length = i.size)
    (hrational : i.IsRational P.endian bs) : i.stored P (i.number P.endian bs) = bs := by
  cases i with
  | unknown => exact absurd rfl hknown
  | uint64 => exact absurd rfl huint64
  | float =>
      have hword := ieeeEncode_ieeeDecode (by decide) hrational
      have hbytes := P.endian.bytesOf_natOf bs
      rw [hlen] at hbytes
      simp only [stored, pcDoubleToPtr, number, hword]
      exact hbytes
  | double =>
      have hword := ieeeEncode_ieeeDecode (by decide) hrational
      have hbytes := P.endian.bytesOf_natOf bs
      rw [hlen] at hbytes
      simp only [stored, pcDoubleToPtr, number, hword]
      exact hbytes
  | int8 => exact Whole.stored_number (by decide) hlen nofun
  | uint8 => exact Whole.stored_number (by decide) hlen nofun
  | int16 => exact Whole.stored_number (by decide) hlen nofun
  | uint16 => exact Whole.stored_number (by decide) hlen nofun
  | int32 => exact Whole.stored_number (by decide) hlen nofun
  | uint32 => exact Whole.stored_number (by decide) hlen nofun
  | int64 => exact Whole.stored_number (by decide) hlen nofun

end Pointcloud
