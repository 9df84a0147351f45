/-
Pointcloud.Base.Hex — bytes written as hexadecimal digits.

A byte is written as two digits, the high half first, in upper case. Both
cases are read. `hexOf` and `bytesOfHex` are inverse to each other up to the
case of the digits; a text is read exactly if it is made of pairs of digits.
-/
import Pointcloud.Base.Memory

namespace Pointcloud.Base

/-! ## Digits -/

/-- The number that a digit stands for. -/
def hexValue (c : Byte) : Option Nat :=
  if 48 ≤ c.toNat ∧ c.toNat ≤ 57 then some (c.toNat - 48)
  else if 65 ≤ c.toNat ∧ c.toNat ≤ 70 then some (c.toNat - 55)
  else if 97 ≤ c.toNat ∧ c.toNat ≤ 102 then some (c.toNat - 87)
  else none

/-- A hexadecimal digit, of either case. -/
def IsHex (c : Byte) : Prop := (hexValue c).isSome

instance (c : Byte) : Decidable (IsHex c) := inferInstanceAs (Decidable (_ = true))

/-- A digit is a character of ASCII. -/
theorem IsHex.lt {c : Byte} (h : IsHex c) : c.toNat < 128 := by
  obtain ⟨v, hv⟩ := Option.isSome_iff_exists.mp h
  unfold hexValue at hv
  split_ifs at hv <;> omega

/-- The digit of a number below 16. -/
def hexDigit (v : Nat) : Byte := if v < 10 then BitVec.ofNat 8 (48 + v) else BitVec.ofNat 8 (55 + v)

/-- A letter in upper case. -/
def upperByte (c : Byte) : Byte :=
  if 97 ≤ c.toNat ∧ c.toNat ≤ 122 then BitVec.ofNat 8 (c.toNat - 32) else c

theorem hexValue_lt {c : Byte} {v : Nat} (h : hexValue c = some v) : v < 16 := by
  unfold hexValue at h
  split_ifs at h <;> cases h <;> omega

/-- A digit stands for its number. -/
theorem hexValue_hexDigit {v : Nat} (h : v < 16) : hexValue (hexDigit v) = some v := by
  have hall : ∀ v < 16, hexValue (hexDigit v) = some v := by decide
  exact hall v h

/-- The digit of the number is the same digit in upper case. -/
theorem hexDigit_of_hexValue {c : Byte} {v : Nat} (h : hexValue c = some v) :
    hexDigit v = upperByte c := by
  have hall : ∀ c : Fin 256, ∀ v < 16, hexValue (BitVec.ofFin c) = some v →
      hexDigit v = upperByte (BitVec.ofFin c) := by decide +kernel
  exact hall c.toFin v (hexValue_lt h) h

/-- A byte and its halves. -/
theorem byte_of_halves {h l : Nat} (hh : h < 16) (hl : l < 16) :
    (BitVec.ofNat 8 (h * 16 + l)).toNat / 16 = h ∧
      (BitVec.ofNat 8 (h * 16 + l)).toNat % 16 = l := by
  rw [BitVec.toNat_ofNat]
  omega

/-! ## Bytes -/

/-- The bytes of a text in pairs; a last one without a partner is left out. -/
def bytePairs : Bytes → List (Byte × Byte)
  | a :: b :: rest => (a, b) :: bytePairs rest
  | _ => []

/-- The byte that two digits stand for. -/
def byteOfPair (p : Byte × Byte) : Option Byte :=
  match hexValue p.1, hexValue p.2 with
  | some h, some l => some (BitVec.ofNat 8 (h * 16 + l))
  | _, _ => none

/-- The digits of a byte. -/
def hexPair (b : Byte) : Bytes := [hexDigit (b.toNat / 16), hexDigit (b.toNat % 16)]

/-- The digits of bytes. -/
def hexOf (bs : Bytes) : Bytes := bs.flatMap hexPair

@[simp] theorem length_hexOf (bs : Bytes) : (hexOf bs).length = 2 * bs.length := by
  induction bs with
  | nil => rfl
  | cons b bs ih =>
      rw [hexOf, List.flatMap_cons, List.length_append, List.length_cons]
      rw [hexOf] at ih
      simp only [hexPair, List.length_cons, List.length_nil, ih]
      omega

theorem length_bytePairs : ∀ cs : Bytes, (bytePairs cs).length = cs.length / 2
  | [] => rfl
  | [c] => by simp [bytePairs]
  | a :: b :: rest => by
      rw [bytePairs, List.length_cons, length_bytePairs rest, List.length_cons, List.length_cons]
      omega

/-- Pair `i` is made of the bytes `2 * i` and `2 * i + 1`. -/
theorem bytePairs_getElem? : ∀ (cs : Bytes) (i : Nat), i < cs.length / 2 →
    ∃ a b, (bytePairs cs)[i]? = some (a, b) ∧ cs[2 * i]? = some a ∧ cs[2 * i + 1]? = some b
  | [], i, h => absurd h (Nat.not_lt_zero i)
  | [c], i, h => absurd h (by simp)
  | a :: b :: rest, 0, _ => ⟨a, b, rfl, rfl, rfl⟩
  | a :: b :: rest, i + 1, h => by
      rw [List.length_cons, List.length_cons] at h
      obtain ⟨x, y, hxy, hx, hy⟩ := bytePairs_getElem? rest i (by omega)
      refine ⟨x, y, by rwa [bytePairs, List.getElem?_cons_succ], ?_, ?_⟩
      · rwa [Nat.mul_succ, List.getElem?_cons_succ, List.getElem?_cons_succ]
      · rwa [Nat.mul_succ, Nat.add_right_comm, List.getElem?_cons_succ, List.getElem?_cons_succ]

/-- A text of an even length is digits if its pairs are. -/
theorem forall_bytePairs {q : Byte → Prop} : ∀ {cs : Bytes}, cs.length % 2 = 0 →
    ((∀ p ∈ bytePairs cs, q p.1 ∧ q p.2) ↔ ∀ c ∈ cs, q c)
  | [], _ => by simp [bytePairs]
  | [c], h => absurd h (by simp)
  | a :: b :: rest, h => by
      rw [List.length_cons, List.length_cons] at h
      have ih := @forall_bytePairs q rest (by omega)
      simp only [bytePairs, List.forall_mem_cons, ih, and_assoc]

theorem bytePairs_hexOf (bs : Bytes) :
    bytePairs (hexOf bs) = bs.map fun b => (hexDigit (b.toNat / 16), hexDigit (b.toNat % 16)) := by
  induction bs with
  | nil => rfl
  | cons b bs ih =>
      rw [hexOf, List.flatMap_cons]
      simp only [hexPair, List.cons_append, List.nil_append, bytePairs, List.map_cons]
      rw [← ih, hexOf]

/-- Two digits are read as a byte. -/
theorem byteOfPair_isSome_iff {p : Byte × Byte} :
    (byteOfPair p).isSome ↔ IsHex p.1 ∧ IsHex p.2 := by
  unfold byteOfPair IsHex
  cases hexValue p.1 <;> cases hexValue p.2 <;> simp

/-- The digits of a byte are read as the byte. -/
theorem byteOfPair_hexDigits (b : Byte) :
    byteOfPair (hexDigit (b.toNat / 16), hexDigit (b.toNat % 16)) = some b := by
  have hlt := b.isLt
  simp only [byteOfPair, hexValue_hexDigit (show b.toNat / 16 < 16 by omega),
    hexValue_hexDigit (show b.toNat % 16 < 16 by omega), Option.some.injEq]
  apply BitVec.eq_of_toNat_eq
  rw [BitVec.toNat_ofNat]
  omega

/-- The byte that is read has these digits, in upper case. -/
theorem hexPair_of_byteOfPair {p : Byte × Byte} {b : Byte} (h : byteOfPair p = some b) :
    hexPair b = [upperByte p.1, upperByte p.2] := by
  unfold byteOfPair at h
  split at h
  · next hi lo hhi hlo =>
      cases h
      obtain ⟨hdiv, hmod⟩ := byte_of_halves (hexValue_lt hhi) (hexValue_lt hlo)
      rw [hexPair, hdiv, hmod, hexDigit_of_hexValue hhi, hexDigit_of_hexValue hlo]
  · exact nomatch h

/-- Bytes read from a text are written as the text in upper case. -/
theorem hexOf_of_forall₂ : ∀ {cs bs : Bytes}, cs.length % 2 = 0 →
    List.Forall₂ (fun p b => byteOfPair p = some b) (bytePairs cs) bs → hexOf bs = cs.map upperByte
  | [], bs, _, h => by
      rw [List.forall₂_nil_left_iff.mp h]
      rfl
  | [_], _, heven, _ => absurd heven (by simp)
  | a :: c :: rest, bs, heven, h => by
      obtain ⟨b, bs', hb, hrest, rfl⟩ := List.forall₂_cons_left_iff.mp h
      rw [List.length_cons, List.length_cons] at heven
      have ih := @hexOf_of_forall₂ rest bs' (by omega) hrest
      rw [hexOf, List.flatMap_cons, hexPair_of_byteOfPair hb, ← hexOf, ih]
      rfl

end Pointcloud.Base
