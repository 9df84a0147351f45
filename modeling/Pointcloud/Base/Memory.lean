/-
Pointcloud.Base.Memory — blocks of bytes and the words kept in them.

A pointer is either null or points to a block; a block is the list of its
bytes, so its length is the size of the object and every access can be
checked against it (`readAt`, `writeAt`). Offsets are integers: an offset
that a narrow index has driven below zero is an access before the block.

Words are read from and written to blocks in the byte order of a machine.
`natLe` and `leNat` are the little-endian form of a number in a fixed
number of bytes and its inverse; a big-endian machine keeps the same bytes
the other way round.
-/
import Pointcloud.Base.Outcome
import Mathlib.Data.BitVec
import Mathlib.Tactic.Ring

namespace Pointcloud.Base

abbrev Byte := BitVec 8

abbrev Bytes := List Byte

/-! ## Blocks -/

/-- A pointer to a block of bytes: `none` is the null pointer. -/
abbrev Buf := Option Bytes

/-- The bytes behind a pointer; none behind the null pointer. -/
def Buf.content (b : Buf) : Bytes := b.getD []

@[simp] theorem Buf.content_none : Buf.content none = [] := rfl

@[simp] theorem Buf.content_some (bs : Bytes) : Buf.content (some bs) = bs := rfl

/-- A zeroed block of `n` bytes. -/
def zeros (n : Nat) : Bytes := List.replicate n 0

@[simp] theorem length_zeros (n : Nat) : (zeros n).length = n := by simp [zeros]

/-- A block that holds the bytes given; the allocator makes none of size zero. -/
def bufOf (bs : Bytes) : Buf := if bs = [] then none else some bs

@[simp] theorem content_bufOf (bs : Bytes) : (bufOf bs).content = bs := by
  by_cases h : bs = [] <;> simp [bufOf, h]

/-- Read `len` bytes at an offset. Reading nothing is possible anywhere. -/
def readAt (bs : Bytes) (off : Int) (len : Nat) : Run Bytes :=
  if len = 0 then .ok []
  else if 0 ≤ off ∧ off + len ≤ bs.length then .ok ((bs.drop off.toNat).take len)
  else fault

/-- Write bytes at an offset. Writing nothing is possible anywhere. -/
def writeAt (bs : Bytes) (off : Int) (src : Bytes) : Run Bytes :=
  if src = [] then .ok bs
  else if 0 ≤ off ∧ off + src.length ≤ bs.length then
    .ok (bs.take off.toNat ++ src ++ bs.drop (off.toNat + src.length))
  else fault

/-- A read inside the block. -/
theorem readAt_ok {bs : Bytes} {off len : Nat} (h : off + len ≤ bs.length) :
    readAt bs off len = .ok ((bs.drop off).take len) := by
  unfold readAt
  by_cases h0 : len = 0
  · simp [h0]
  · rw [if_neg h0, if_pos ⟨by omega, by omega⟩, Int.toNat_natCast]

/-- A read that leaves the block is a fault. -/
theorem readAt_fault {bs : Bytes} {off : Int} {len : Nat} (h0 : len ≠ 0)
    (h : off < 0 ∨ bs.length < off + len) : readAt bs off len = fault := by
  unfold readAt
  rw [if_neg h0, if_neg (by omega)]

/-- A read reports no error. -/
theorem not_raises_readAt (bs : Bytes) (off : Int) (len : Nat) : ¬ Raises (readAt bs off len) := by
  unfold readAt
  split
  · exact not_raises_ok _
  · split <;> simp

/-- A read returns as many bytes as were asked for. -/
theorem length_of_readAt {bs out : Bytes} {off : Int} {len : Nat}
    (h : readAt bs off len = .ok out) :
    out.length = len := by
  unfold readAt at h
  split at h
  · next hlen =>
      cases h
      exact hlen.symm
  · split at h
    · cases h
      rw [List.length_take, List.length_drop]
      omega
    · exact absurd h (fault_ne_ok out)

/-- What a read returns, and that it stayed inside the block. -/
theorem readAt_eq_ok {bs out : Bytes} {off len : Nat} :
    readAt bs off len = .ok out ↔
      (len = 0 ∨ off + len ≤ bs.length) ∧ (bs.drop off).take len = out := by
  by_cases h0 : len = 0
  · subst h0; simp [readAt]
  · by_cases h : off + len ≤ bs.length
    · simp [readAt_ok h, h]
    · rw [readAt_fault h0 (by omega)]
      simp [h0, h]

/-- A write inside the block. -/
theorem writeAt_ok {bs src : Bytes} {off : Nat} (h : off + src.length ≤ bs.length) :
    writeAt bs off src = .ok (bs.take off ++ src ++ bs.drop (off + src.length)) := by
  unfold writeAt
  by_cases h0 : src = []
  · simp [h0]
  · rw [if_neg h0, if_pos ⟨by omega, by omega⟩, Int.toNat_natCast]

/-- A write that leaves the block is a fault. -/
theorem writeAt_fault {bs src : Bytes} {off : Int} (h0 : src ≠ [])
    (h : off < 0 ∨ bs.length < off + src.length) : writeAt bs off src = fault := by
  unfold writeAt
  rw [if_neg h0, if_neg (by omega)]

/-- A read of what stands between two parts of a block. -/
theorem readAt_append {front src rest : Bytes} {off : Int} {len : Nat} (hoff : off = front.length)
    (hlen : len = src.length) : readAt (front ++ src ++ rest) off len = .ok src := by
  subst hoff hlen
  rw [readAt_ok (by simp only [List.length_append]; omega), List.append_assoc,
    List.drop_left' rfl, List.take_left' rfl]

/-- A write behind the front part of a block. -/
theorem writeAt_append {front block src : Bytes} {off : Int} (hoff : off = front.length)
    (h : src.length ≤ block.length) :
    writeAt (front ++ block) off src = .ok (front ++ src ++ block.drop src.length) := by
  subst hoff
  rw [writeAt_ok (by rw [List.length_append]; omega), List.take_left' rfl, List.drop_append,
    Nat.add_sub_cancel_left, List.drop_eq_nil_of_le (Nat.le_add_right _ _), List.nil_append]

/-- A write does not change the size of the block. -/
theorem length_of_writeAt {bs src out : Bytes} {off : Int}
    (h : writeAt bs off src = .ok out) : out.length = bs.length := by
  unfold writeAt at h
  split at h
  · cases h; rfl
  · split at h
    · next hin =>
        cases h
        have hpos : 0 < src.length := List.length_pos_iff.mpr (by assumption)
        simp only [List.length_append, List.length_take, List.length_drop]
        omega
    · simp at h

/-- The bytes of a block after a write. -/
theorem getElem?_of_writeAt {bs src out : Bytes} {off : Nat} (h : writeAt bs off src = .ok out)
    (k : Nat) : out[k]? = if off ≤ k ∧ k < off + src.length then src[k - off]? else bs[k]? := by
  by_cases hsrc : src = []
  · subst hsrc
    cases h
    rw [if_neg (by simp)]
  · have hend : off + src.length ≤ bs.length := by
      by_contra hout
      rw [writeAt_fault hsrc (Or.inr (by omega))] at h
      exact fault_ne_ok out h
    rw [writeAt_ok hend, Except.ok.injEq] at h
    subst h
    have hfront : (bs.take off).length = off := by
      rw [List.length_take]
      omega
    rw [List.append_assoc, List.getElem?_append, hfront]
    by_cases hk : k < off
    · rw [if_pos hk, if_neg (by omega), List.getElem?_take_of_lt hk]
    · rw [if_neg hk, List.getElem?_append]
      by_cases hin : k - off < src.length
      · rw [if_pos hin, if_pos (by omega)]
      · rw [if_neg hin, if_neg (by omega), List.getElem?_drop]
        congr 1
        omega

/-- The window that was written. -/
theorem window_of_writeAt {bs src out : Bytes} {off w : Nat} (h : writeAt bs off src = .ok out)
    (hw : src.length = w) : (out.drop off).take w = src := by
  subst hw
  apply List.ext_getElem?
  intro k
  by_cases hk : k < src.length
  · rw [List.getElem?_take_of_lt hk, List.getElem?_drop, getElem?_of_writeAt h,
      if_pos (by omega), Nat.add_sub_cancel_left]
  · rw [List.getElem?_eq_none (by rw [List.length_take]; omega), List.getElem?_eq_none (by omega)]

/-- A window beside the one that was written. -/
theorem window_beside_writeAt {bs src out : Bytes} {off o w : Nat}
    (h : writeAt bs off src = .ok out) (hbeside : o + w ≤ off ∨ off + src.length ≤ o) :
    (out.drop o).take w = (bs.drop o).take w := by
  apply List.ext_getElem?
  intro k
  by_cases hk : k < w
  · rw [List.getElem?_take_of_lt hk, List.getElem?_take_of_lt hk, List.getElem?_drop,
      List.getElem?_drop, getElem?_of_writeAt h, if_neg (by omega)]
  · rw [List.getElem?_eq_none (by rw [List.length_take]; omega),
      List.getElem?_eq_none (by rw [List.length_take]; omega)]

/-! ## Numbers in bytes -/

/-- The order in which a machine keeps the bytes of a number. -/
inductive Endian where
  | little
  | big
  deriving DecidableEq, Repr

/-- The other byte order. -/
def Endian.opposite : Endian → Endian
  | .little => .big
  | .big => .little

/-- The number with the given bytes, least significant first. -/
def leNat : Bytes → Nat
  | [] => 0
  | b :: bs => b.toNat + 256 * leNat bs

/-- The `w` least significant bytes of a number, least significant first. -/
def natLe : Nat → Nat → Bytes
  | 0, _ => []
  | w + 1, n => BitVec.ofNat 8 n :: natLe w (n / 256)

@[simp] theorem length_natLe (w n : Nat) : (natLe w n).length = w := by
  induction w generalizing n with
  | zero => rfl
  | succ w ih => simp [natLe, ih]

theorem leNat_lt (bs : Bytes) : leNat bs < 256 ^ bs.length := by
  induction bs with
  | nil => simp [leNat]
  | cons b bs ih =>
      have hb : b.toNat < 256 := b.isLt
      rw [leNat, List.length_cons, pow_succ]
      omega

theorem leNat_natLe (w n : Nat) : leNat (natLe w n) = n % 256 ^ w := by
  induction w generalizing n with
  | zero => simp [natLe, leNat, Nat.mod_one]
  | succ w ih =>
      rw [natLe, leNat, ih, pow_succ', Nat.mod_mul, BitVec.toNat_ofNat]

theorem natLe_leNat (bs : Bytes) : natLe bs.length (leNat bs) = bs := by
  induction bs with
  | nil => rfl
  | cons b bs ih =>
      have hb : b.toNat < 256 := b.isLt
      rw [List.length_cons, natLe, leNat]
      congr 1
      · apply BitVec.eq_of_toNat_eq
        rw [BitVec.toNat_ofNat]
        omega
      · rw [Nat.add_mul_div_left _ _ (by decide), Nat.div_eq_of_lt hb, Nat.zero_add, ih]

/-- The bytes of a number, arranged in a machine's order (or back from it). -/
def Endian.arrange (en : Endian) (bs : Bytes) : Bytes :=
  match en with
  | .little => bs
  | .big => bs.reverse

@[simp] theorem Endian.length_arrange (en : Endian) (bs : Bytes) :
    (en.arrange bs).length = bs.length := by
  cases en <;> simp [arrange]

@[simp] theorem Endian.arrange_arrange (en : Endian) (bs : Bytes) :
    en.arrange (en.arrange bs) = bs := by
  cases en <;> simp [arrange]

/-- The other machine keeps the same bytes the other way round. -/
theorem Endian.arrange_opposite (en : Endian) (bs : Bytes) :
    en.opposite.arrange bs = (en.arrange bs).reverse := by
  cases en <;> simp [arrange, opposite]

/-- The number a machine reads in these bytes. -/
def Endian.natOf (en : Endian) (bs : Bytes) : Nat := leNat (en.arrange bs)

/-- The `w` bytes in which a machine keeps a number. -/
def Endian.bytesOf (en : Endian) (w n : Nat) : Bytes := en.arrange (natLe w n)

@[simp] theorem Endian.length_bytesOf (en : Endian) (w n : Nat) : (en.bytesOf w n).length = w := by
  simp [bytesOf]

theorem leNat_zeros (w : Nat) : leNat (zeros w) = 0 := by
  induction w with
  | zero => rfl
  | succ w ih =>
      rw [zeros, List.replicate_succ, leNat, ← zeros, ih]
      rfl

theorem Endian.natOf_zeros (en : Endian) (w : Nat) : en.natOf (zeros w) = 0 := by
  cases en with
  | little => exact leNat_zeros w
  | big => rw [natOf, arrange, zeros, List.reverse_replicate, ← zeros, leNat_zeros]

theorem Endian.natOf_lt (en : Endian) (bs : Bytes) : en.natOf bs < 256 ^ bs.length := by
  have h := leNat_lt (en.arrange bs)
  rwa [length_arrange] at h

@[simp] theorem Endian.natOf_bytesOf (en : Endian) (w n : Nat) :
    en.natOf (en.bytesOf w n) = n % 256 ^ w := by
  rw [natOf, bytesOf, arrange_arrange, leNat_natLe]

/-- A number that fits is read back as it was written. -/
theorem Endian.natOf_bytesOf_of_lt (en : Endian) {w n : Nat} (h : n < 256 ^ w) :
    en.natOf (en.bytesOf w n) = n := by
  rw [natOf_bytesOf, Nat.mod_eq_of_lt h]

theorem Endian.bytesOf_natOf (en : Endian) (bs : Bytes) :
    en.bytesOf bs.length (en.natOf bs) = bs := by
  rw [bytesOf, natOf, ← length_arrange en bs, natLe_leNat, arrange_arrange]

/-- The other machine writes a number as the reversed bytes. -/
theorem Endian.bytesOf_opposite (en : Endian) (w n : Nat) :
    en.opposite.bytesOf w n = (en.bytesOf w n).reverse := by
  rw [bytesOf, arrange_opposite, bytesOf]

/-- Reading the reversed bytes on the other machine gives the same number. -/
theorem Endian.natOf_opposite (en : Endian) (bs : Bytes) :
    en.opposite.natOf bs = en.natOf bs.reverse := by
  cases en <;> simp [natOf, arrange, opposite]

end Pointcloud.Base
