/-
Pointcloud.Base.Ieee754 — the numbers that binary floating point words stand
for.

A format has `eb` bits of exponent and `mb` bits of mantissa; above them
stands the sign. Words are read as exact rationals. The exponent of all ones,
which stands for infinities and NaNs, is read by the same formula as the
others, so that no word is left without a number.
-/
import Mathlib.Algebra.Order.Field.Rat
import Mathlib.Algebra.Order.Floor.Defs
import Mathlib.Data.Rat.Floor

namespace Pointcloud.Base

/-- `2 ^ e` for an exponent of either sign. -/
def pow2 (e : Int) : ℚ := if 0 ≤ e then 2 ^ e.toNat else 1 / 2 ^ (-e).toNat

/-- The number of a word without its sign. -/
def ieeeMagnitude (eb mb bits : Nat) : ℚ :=
  let bias : Int := 2 ^ (eb - 1) - 1
  let e := bits / 2 ^ mb % 2 ^ eb
  let m := bits % 2 ^ mb
  if e = 0 then m * pow2 (1 - bias - mb) else (2 ^ mb + m : Nat) * pow2 (e - bias - mb)

/-- The number of a word. -/
def ieeeDecode (eb mb bits : Nat) : ℚ :=
  if bits / 2 ^ (eb + mb) % 2 = 0 then ieeeMagnitude eb mb bits else -ieeeMagnitude eb mb bits

/-- The largest word whose number is at most `x`, bit by bit from the top. -/
def ieeeFloor (eb mb : Nat) (x : ℚ) : Nat :=
  (List.range (eb + mb)).reverse.foldl
    (fun bits i => if ieeeMagnitude eb mb (bits + 2 ^ i) ≤ x then bits + 2 ^ i else bits) 0

/-- The word nearest to `x`, the even one of two that are equally near;
infinity where the format has no finite number left. -/
def ieeeEncode (eb mb : Nat) (x : ℚ) : Nat :=
  let a := if x < 0 then -x else x
  let lo := ieeeFloor eb mb a
  let below := a - ieeeMagnitude eb mb lo
  let above := ieeeMagnitude eb mb (lo + 1) - a
  let bits := if below < above ∨ (below = above ∧ lo % 2 = 0) then lo else lo + 1
  let bits := min bits ((2 ^ eb - 1) * 2 ^ mb)
  if x < 0 then 2 ^ (eb + mb) + bits else bits

/-- The nearest integer, away from zero when two are equally near. -/
def roundHalfAway (x : ℚ) : Int := if 0 ≤ x then ⌊x + 1 / 2⌋ else -⌊-x + 1 / 2⌋

example : ieeeDecode 8 23 0x3fc00000 = 3 / 2 ∧ ieeeEncode 11 52 (-2) = 0xc000000000000000 := by
  decide +kernel

end Pointcloud.Base
