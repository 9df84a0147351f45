/-
Pointcloud.Val — reading and storing values (`pc_val.c`).

Doubles are read as exact rationals, those in between the steps of a
computation too.
-/
import Pointcloud.Base.Ieee754
import Pointcloud.Platform
import Pointcloud.Schema

namespace Pointcloud

open Pointcloud.Base

/-! ## Scale and offset -/

/-- `pc_value_unscale_unoffset`. -/
def pcValueUnscaleUnoffset (val : ℚ) (dim : PcDimension) : ℚ :=
  let val := if dim.offset ≠ 0 then val - dim.offset else val
  if dim.scale ≠ 1 then val / dim.scale else val

/-- `pc_value_scale_offset`. -/
def pcValueScaleOffset (val : ℚ) (dim : PcDimension) : ℚ :=
  let val := if dim.scale ≠ 1 then val * dim.scale else val
  if dim.offset ≠ 0 then val + dim.offset else val

/-- In exact arithmetic the tests of scale and offset change nothing. -/
theorem pcValueScaleOffset_eq (val : ℚ) (dim : PcDimension) :
    pcValueScaleOffset val dim = val * dim.scale + dim.offset := by
  unfold pcValueScaleOffset
  by_cases hs : dim.scale = 1 <;> by_cases ho : dim.offset = 0 <;> simp [hs, ho]

theorem pcValueUnscaleUnoffset_eq (val : ℚ) (dim : PcDimension) :
    pcValueUnscaleUnoffset val dim = (val - dim.offset) / dim.scale := by
  unfold pcValueUnscaleUnoffset
  by_cases hs : dim.scale = 1 <;> by_cases ho : dim.offset = 0 <;> simp [hs, ho]

/-- With a scale, taking offset and scale away undoes applying them. -/
theorem pcValueUnscaleUnoffset_scaleOffset {dim : PcDimension} (h : dim.scale ≠ 0) (val : ℚ) :
    pcValueUnscaleUnoffset (pcValueScaleOffset val dim) dim = val := by
  rw [pcValueUnscaleUnoffset_eq, pcValueScaleOffset_eq, add_sub_cancel_right,
    mul_div_cancel_right₀ val h]

/-- A positive scale keeps the order. -/
theorem pcValueScaleOffset_mono {dim : PcDimension} (h : 0 < dim.scale) :
    Monotone fun val => pcValueScaleOffset val dim := by
  intro a b hab
  simp only [pcValueScaleOffset_eq]
  have hmul : a * dim.scale ≤ b * dim.scale := mul_le_mul_of_nonneg_right hab (le_of_lt h)
  linarith

/-! ## Stored numbers -/

/-- The number that the bytes of a value stand for. -/
def Interpretation.number (en : Endian) (i : Interpretation) (bs : Bytes) : ℚ :=
  match i with
  | .unknown => 0
  | .uint8 | .uint16 | .uint32 | .uint64 => en.natOf bs
  | .int8 => (en.word 1 bs).toInt
  | .int16 => (en.word 2 bs).toInt
  | .int32 => (en.word 4 bs).toInt
  | .int64 => (en.word 8 bs).toInt
  | .float => ieeeDecode 8 23 (en.natOf bs)
  | .double => ieeeDecode 11 52 (en.natOf bs)

/-- `pc_double_from_ptr`, of the bytes at an offset of a block. -/
def pcDoubleFromPtr (en : Endian) (block : Bytes) (off : Int) (i : Interpretation) : Run ℚ :=
  if i = .unknown then
    raise "unknown interpretation type 0 encountered in pc_double_from_ptr"
  else do
    let v ← readAt block off i.size
    return i.number en v

/-- The least and the greatest number of an integer type. -/
def Interpretation.range : Interpretation → Int × Int
  | .int8 => (-128, 127)
  | .uint8 => (0, 255)
  | .int16 => (-32768, 32767)
  | .uint16 => (0, 65535)
  | .int32 => (-2147483648, 2147483647)
  | .uint32 => (0, 4294967295)
  | .int64 => (-9223372036854775808, 9223372036854775807)
  | .uint64 => (0, 18446744073709551615)
  | .unknown | .double | .float => (0, 0)

/-- The limits that a number is compared with, as doubles: those of the range,
but for `INT64_MAX` and `UINT64_MAX`, which become the powers of two above
them. -/
def Interpretation.limits : Interpretation → ℚ × ℚ
  | .int64 => (-9223372036854775808, 9223372036854775808)
  | .uint64 => (0, 18446744073709551616)
  | i => (i.range.1, i.range.2)

/-- `CLAMP`. -/
def clamp (val : ℚ) (limits : ℚ × ℚ) : ℚ :=
  if limits.2 < val then limits.2 else if val < limits.1 then limits.1 else val

/-- `lround`: defined where the rounded number fits into a `long`. -/
def lround (P : Platform) (val : ℚ) : Int :=
  let r := roundHalfAway val
  if -9223372036854775808 ≤ r ∧ r ≤ 9223372036854775807 then r else P.lroundOverflow val

/-- The bytes that `pc_double_to_ptr` stores. -/
def pcDoubleToPtr (P : Platform) (i : Interpretation) (val : ℚ) : Run Bytes :=
  match i with
  | .unknown => raise "unknown interpretation type 0 encountered in pc_double_to_ptr"
  | .float => .ok (P.endian.bytesOf 4 (ieeeEncode 8 23 val))
  | .double => .ok (P.endian.bytesOf 8 (ieeeEncode 11 52 val))
  | i => .ok (P.endian.wordBytes
      (BitVec.ofInt (8 * i.size) (lround P (clamp val i.limits))))

/-- The limits are the doubles nearest to the ends of the range. -/
example : ∀ i ∈ [Interpretation.int64, .uint64, .int32, .uint8],
    i.limits = (ieeeDecode 11 52 (ieeeEncode 11 52 i.range.1),
      ieeeDecode 11 52 (ieeeEncode 11 52 i.range.2)) := by
  decide +kernel

/-- What is stored has the width of the type. -/
theorem pcDoubleToPtr_ok (P : Platform) {i : Interpretation} (h : i ≠ .unknown) (val : ℚ) :
    ∃ bs, pcDoubleToPtr P i val = .ok bs ∧ bs.length = i.size := by
  cases i with
  | unknown => exact absurd rfl h
  | float => exact ⟨_, rfl, Endian.length_bytesOf _ _ _⟩
  | double => exact ⟨_, rfl, Endian.length_bytesOf _ _ _⟩
  | int8 => exact ⟨_, rfl, Endian.length_wordBytes _ _⟩
  | uint8 => exact ⟨_, rfl, Endian.length_wordBytes _ _⟩
  | int16 => exact ⟨_, rfl, Endian.length_wordBytes _ _⟩
  | uint16 => exact ⟨_, rfl, Endian.length_wordBytes _ _⟩
  | int32 => exact ⟨_, rfl, Endian.length_wordBytes _ _⟩
  | uint32 => exact ⟨_, rfl, Endian.length_wordBytes _ _⟩
  | int64 => exact ⟨_, rfl, Endian.length_wordBytes _ _⟩
  | uint64 => exact ⟨_, rfl, Endian.length_wordBytes _ _⟩

theorem pcDoubleFromPtr_ok {en : Endian} {i : Interpretation} (h : i ≠ .unknown) {block : Bytes}
    {off : Nat} (hend : off + i.size ≤ block.length) :
    pcDoubleFromPtr en block off i = .ok (i.number en ((block.drop off).take i.size)) := by
  unfold pcDoubleFromPtr
  rw [if_neg h, readAt_ok hend, ok_bind, pure_eq_ok]

/-! ## The limits of the floating point types -/

/-- `FLT_MAX`. -/
def fltMax : ℚ := (2 ^ 24 - 1) * 2 ^ 104

/-- `DBL_MAX`. -/
def dblMax : ℚ := (2 ^ 53 - 1) * 2 ^ 971

end Pointcloud
