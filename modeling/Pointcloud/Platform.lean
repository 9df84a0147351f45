/-
Pointcloud.Platform — what the library is compiled for and linked with.

The byte order, the reading of a shift by the full width, zlib, the result of
`lround` where the language leaves it open, and the sizes that PostgreSQL gives
memory for. Everything that depends on one of these takes the platform as an
argument, so a theorem for all platforms holds on each.
-/
import Pointcloud.Base.Word
import Mathlib.Algebra.Order.Field.Rat

namespace Pointcloud

open Pointcloud.Base

/-- zlib, as far as the library uses it: one call to `deflate` or `inflate`
with `Z_FINISH`, given its whole input and a buffer with some room. The
result is what the call has written. -/
structure Zlib where
  deflate : Bytes → Nat → Bytes
  inflate : Bytes → Nat → Bytes
  length_deflate : ∀ b room, (deflate b room).length ≤ room
  length_inflate : ∀ b room, (inflate b room).length ≤ room
  /-- Four times the input is room enough to lose nothing. -/
  inflate_deflate : ∀ b room, b ≠ [] → inflate (deflate b (4 * b.length)) room = b.take room

/-- A zlib that stores its input as it is. -/
def Zlib.stored : Zlib where
  deflate := fun b room => b.take room
  inflate := fun b room => b.take room
  length_deflate := fun b room => by simp
  length_inflate := fun b room => by simp
  inflate_deflate := fun b room _ => by
    have hall : b.take (4 * b.length) = b := List.take_of_length_le (by omega)
    simp only [hall]

/-- A zeroed buffer of the given size into which `out` has been written. -/
def filled (size : Nat) (out : Bytes) : Bytes := out ++ (zeros size).drop out.length

theorem filled_of_length_eq {size : Nat} {out : Bytes} (h : out.length = size) :
    filled size out = out := by
  rw [filled, List.drop_eq_nil_of_le (by rw [length_zeros, h]), List.append_nil]

theorem length_filled {size : Nat} {out : Bytes} (h : out.length ≤ size) :
    (filled size out).length = size := by
  rw [filled, List.length_append, List.length_drop, length_zeros]
  omega

/-- zlib loses nothing on these bytes when it is given four times their size
as room, counted in 32 bits. -/
def Zlib.Keeps (Z : Zlib) (b : Bytes) : Prop :=
  b.length < 4294967296 ∧
    filled b.length (Z.inflate (Z.deflate b (uint32 (4 * b.length))) b.length) = b

/-- Below `2 ^ 30` bytes the room is not cut short. -/
theorem Zlib.keeps_of_lt (Z : Zlib) {b : Bytes} (hne : b ≠ []) (h : b.length < 1073741824) :
    Z.Keeps b := by
  refine ⟨by omega, ?_⟩
  rw [uint32_of_lt (by omega), Z.inflate_deflate b _ hne, List.take_length, filled_of_length_eq rfl]

/-- The platform. -/
structure Platform where
  endian : Endian
  shift : FullShift
  shift_ne_trap : shift ≠ .trap
  zlib : Zlib
  /-- `lround` of a number outside the range of `long`. -/
  lroundOverflow : ℚ → Int
  /-- `palloc` gives memory of a size. It does so below `2 ^ 30` bytes, its
  documented limit; nothing is said of larger sizes. -/
  grants : Nat → Bool
  grants_of_lt : ∀ {size}, size < 1073741824 → grants size = true

/-- A little-endian platform on which full shifts give zero and zlib stores; of
`2 ^ 30` bytes on no memory is given. -/
def Platform.plain : Platform where
  endian := .little
  shift := .zero
  shift_ne_trap := by decide
  zlib := Zlib.stored
  lroundOverflow := fun _ => 0
  grants := fun size => decide (size < 1073741824)
  grants_of_lt := decide_eq_true

/-- The same platform with the other byte order. -/
def Platform.opposite (P : Platform) : Platform := { P with endian := P.endian.opposite }

end Pointcloud
