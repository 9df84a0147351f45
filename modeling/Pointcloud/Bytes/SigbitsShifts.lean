/-
Pointcloud.Bytes.SigbitsShifts — the shifts of the significant-bits codec (`pc_bytes.c`).

The functions of `Bytes.Sigbits` once more, with a note of every shift that they
execute: the width of the left operand after its promotion, and the amount. Without the
notes each is the function itself (`run_tracedCountWords` and so on).
-/
import Pointcloud.Base.Traced
import Pointcloud.Bytes.Sigbits

namespace Pointcloud

open Pointcloud.Base

/-- A shift, by its promoted left operand's width and its amount. -/
structure Shift where
  width : Nat
  amount : Int
  deriving DecidableEq, Repr

/-- The amounts for which C defines a shift. -/
def Shift.InRange (s : Shift) : Prop := 0 ≤ s.amount ∧ s.amount < s.width

instance (s : Shift) : Decidable s.InRange := inferInstanceAs (Decidable (_ ∧ _))

variable {N : Nat} (sh : FullShift)

/-- `x >> amount`. -/
def tracedShr (x : BitVec N) (amount : Int) : Traced Shift (BitVec N) :=
  .note ⟨promoted N, amount⟩ (cShr sh x amount)

/-- `x << amount`. -/
def tracedShl (x : BitVec N) (amount : Int) : Traced Shift (BitVec N) :=
  .note ⟨promoted N, amount⟩ (cShl sh x amount)

@[simp] theorem run_tracedShr (x : BitVec N) (amount : Int) :
    (tracedShr sh x amount).run = cShr sh x amount := rfl

@[simp] theorem run_tracedShl (x : BitVec N) (amount : Int) :
    (tracedShl sh x amount).run = cShl sh x amount := rfl

@[simp] theorem all_tracedShr {p : Shift → Prop} {x : BitVec N} {amount : Int} :
    (tracedShr sh x amount).All p ↔ p ⟨promoted N, amount⟩ := Traced.all_note

@[simp] theorem all_tracedShl {p : Shift → Prop} {x : BitVec N} {amount : Int} :
    (tracedShl sh x amount).All p ↔ p ⟨promoted N, amount⟩ := Traced.all_note

/-! ## Counting -/

/-- `commonbitsLoop`: each turn shifts both words. -/
def tracedCommonbitsLoop (elemAnd elemOr : BitVec N) : Nat → Traced Shift (BitVec N × Nat)
  | 0 => return (elemAnd, 0)
  | commonbits + 1 =>
      if elemAnd = elemOr then return (elemAnd, commonbits + 1)
      else do
        let elemAnd ← tracedShr sh elemAnd 1
        let elemOr ← tracedShr sh elemOr 1
        tracedCommonbitsLoop elemAnd elemOr commonbits

/-- `pc_bytes_sigbits_count_N`. -/
def tracedCountWords (w : Nat) (words : List (Word w)) (npoints : Nat) :
    Traced Shift (Word w × Nat) := do
  let first ← .lift (wordAt words 0)
  let elems ← .lift (intIndexed words npoints)
  let elemAnd := elems.foldl (· &&& ·) first
  let elemOr := elems.foldl (· ||| ·) first
  let shifted ← tracedCommonbitsLoop sh elemAnd elemOr (8 * w)
  let commonvalue ← tracedShl sh shifted.1 (8 * w - shifted.2 : Nat)
  return (commonvalue, shifted.2)

/-! ## Packing -/

/-- `packStep`. -/
def tracedPackStep (nbits : Nat) (val : BitVec N) (st : PackState N) :
    Traced Shift (PackState N) :=
  if nbits ≤ st.bit then do
    let v ← tracedShl sh val (st.bit - nbits : Nat)
    let words ← .lift (orAt st.words st.ptr v)
    if st.bit - nbits = 0 then return ⟨words, st.ptr + 1, N⟩
    else return ⟨words, st.ptr, st.bit - nbits⟩
  else do
    let s := nbits - st.bit
    let v ← tracedShr sh val s
    let words ← .lift (orAt st.words st.ptr v)
    let v ← tracedShl sh val (N - s : Nat)
    let words ← .lift (orAt words (st.ptr + 1) v)
    return ⟨words, st.ptr + 1, N - s⟩

/-- `packLoop`. -/
def tracedPackLoop (nbits : Nat) (mask : BitVec N) :
    List (BitVec N) → PackState N → Traced Shift (PackState N)
  | [], st => return st
  | x :: xs, st => do
      let st ← tracedPackStep sh nbits (x &&& mask) st
      tracedPackLoop nbits mask xs st

/-- `pc_bytes_sigbits_encode_N`. -/
def tracedEncodeWords (en : Endian) (w : Nat) (sizeOut : Nat → Nat) (pcb : PcBytes)
    (commonvalue : Word w) (commonbits : Nat) : Traced Shift PcBytes := do
  let bitwidth := 8 * w
  let nbits := bitwidth - commonbits
  let size := sizeOut (uint32 (nbits * pcb.npoints))
  let mask ← tracedShr sh (BitVec.allOnes bitwidth) commonbits
  let head := [BitVec.ofNat bitwidth nbits, commonvalue]
  let free := List.replicate (size / w - 2) (0 : BitVec bitwidth)
  if bitwidth = commonbits then
    return { pcb with size := size, bytes := bytesOfWords en (head ++ free),
                      compression := .sigbits, readonly := false }
  else
    let words ← .lift (intIndexed (wordsOf en w pcb.bytes) pcb.npoints)
    let st ← tracedPackLoop sh nbits mask words ⟨free, 0, bitwidth⟩
    return { pcb with size := size, bytes := bytesOfWords en (head ++ st.words),
                      compression := .sigbits, readonly := false }

/-! ## Unpacking -/

/-- `unpackStep`. -/
def tracedUnpackStep (words : List (BitVec N)) (nbits : Nat) (mask commonvalue : BitVec N)
    (st : ReadState) : Traced Shift (BitVec N × ReadState) := do
  let val ← .lift (wordAt words st.ptr)
  if nbits ≤ st.bit then
    let v ← tracedShr sh val (st.bit - nbits : Nat)
    if st.bit - nbits = 0 then return (v &&& mask ||| commonvalue, ⟨st.ptr + 1, N⟩)
    else return (v &&& mask ||| commonvalue, ⟨st.ptr, st.bit - nbits⟩)
  else
    let s := nbits - st.bit
    let upper ← tracedShl sh val s
    let val ← .lift (wordAt words (st.ptr + 1))
    let lower ← tracedShr sh val (N - s : Nat)
    return (upper &&& mask ||| commonvalue ||| lower &&& mask, ⟨st.ptr + 1, N - s⟩)

/-- `unpackStep8`. -/
def tracedUnpackStep8 (words : List (BitVec N)) (nbits : Nat) (mask commonvalue : BitVec N)
    (st : ReadState) : Traced Shift (BitVec N × ReadState) := do
  let val ← .lift (wordAt words st.ptr)
  if nbits ≤ st.bit then
    let v ← tracedShr sh val (st.bit - nbits : Nat)
    return (v &&& mask ||| commonvalue, ⟨st.ptr, st.bit - nbits⟩)
  else
    let s := nbits - st.bit
    let upper ← tracedShl sh val s
    let val ← .lift (wordAt words (st.ptr + 1))
    let lower ← tracedShr sh val (N - s : Nat)
    return (upper &&& mask ||| commonvalue ||| lower &&& mask, ⟨st.ptr + 1, N - s⟩)

/-- `unpackLoop`. -/
def tracedUnpackLoop (step : ReadState → Traced Shift (BitVec N × ReadState)) :
    Nat → ReadState → Traced Shift (List (BitVec N))
  | 0, _ => return []
  | n + 1, st => do
      let (val, st) ← step st
      let rest ← tracedUnpackLoop step n st
      return val :: rest

/-- The decoding step for words of `w` bytes. -/
def tracedUnpackStepOf (w : Nat) :
    List (Word w) → Nat → Word w → Word w → ReadState → Traced Shift (Word w × ReadState) :=
  if w = 1 then tracedUnpackStep8 sh else tracedUnpackStep sh

/-- `pc_bytes_sigbits_decode_N`. -/
def tracedDecodeWords (en : Endian) (w : Nat)
    (step : List (Word w) → Nat → Word w → Word w → ReadState → Traced Shift (Word w × ReadState))
    (pcb : PcBytes) : Traced Shift PcBytes := do
  let words := wordsOf en w pcb.bytes
  let nbits ← .lift (wordAt words 0)
  let commonvalue ← .lift (wordAt words 1)
  let mask ← tracedShr sh (BitVec.allOnes (8 * w)) ((8 * w : Nat) - nbits.toNat : Int)
  .lift (intLoop pcb.npoints)
  let out ← tracedUnpackLoop (step (words.drop 2) nbits.toNat mask commonvalue) pcb.npoints
    ⟨0, 8 * w⟩
  return { pcb with size := w * pcb.npoints, bytes := bytesOfWords en out,
                    compression := .none, readonly := false }

/-! ## Random access -/

/-- `pc_bytes_sigbits_to_ptr_N`. -/
def tracedToPtrWords (en : Endian) (w : Nat) (pcb : PcBytes) (n : Int) : Traced Shift Bytes := do
  let words := wordsOf en w pcb.bytes
  let nbits ← .lift (wordAt words 0)
  let commonvalue ← .lift (wordAt words 1)
  let mask ← tracedShr sh (BitVec.allOnes 64) (64 - nbits.toNat : Int)
  let mask : Word w := mask.setWidth (8 * w)
  let bitoffset : Word w := BitVec.ofInt (8 * w) (n * nbits.toNat)
  let payload := words.drop 2
  let ptr := bitoffset.toNat / (8 * w)
  let shift : Int := (8 * w : Nat) - (bitoffset.toNat % (8 * w) : Nat) - nbits.toNat
  let val ← .lift (wordAt payload ptr)
  if shift < 0 then
    let upper ← tracedShl sh val (-shift)
    let val ← .lift (wordAt payload (ptr + 1))
    let lower ← tracedShr sh val (shift + (8 * w : Nat))
    return en.wordBytes (commonvalue ||| upper &&& mask ||| lower &&& mask)
  else
    let val ← tracedShr sh val shift
    return en.wordBytes (commonvalue ||| val &&& mask)

/-! ## Without the notes -/

theorem run_tracedCommonbitsLoop (elemAnd elemOr : BitVec N) (commonbits : Nat) :
    (tracedCommonbitsLoop sh elemAnd elemOr commonbits).run =
      .ok (commonbitsLoop elemAnd elemOr commonbits) := by
  induction commonbits generalizing elemAnd elemOr with
  | zero => rfl
  | succ commonbits ih =>
      have hshr : ∀ x : BitVec N, cShr sh x 1 = .ok (x >>> 1) := fun x =>
        cShr_ok sh x (Nat.lt_of_lt_of_le (by decide) (Nat.le_max_right N 32))
      unfold tracedCommonbitsLoop commonbitsLoop
      split
      · rfl
      · rw [Traced.run_bind, run_tracedShr, hshr, ok_bind, Traced.run_bind, run_tracedShr, hshr,
          ok_bind, ih]

theorem run_tracedCountWords (w : Nat) (words : List (Word w)) (npoints : Nat) :
    (tracedCountWords sh w words npoints).run = sigbitsCountWords sh w words npoints := by
  simp only [tracedCountWords, sigbitsCountWords, Traced.run_bind, Traced.run_lift,
    run_tracedCommonbitsLoop, run_tracedShl, Traced.run_pure]
  rfl

theorem run_tracedPackStep (nbits : Nat) (val : BitVec N) (st : PackState N) :
    (tracedPackStep sh nbits val st).run = packStep sh nbits val st := by
  unfold tracedPackStep packStep
  split <;>
    simp only [Traced.run_bind, Traced.run_lift, run_tracedShr, run_tracedShl, Traced.run_ite,
      Traced.run_pure, pure_eq_ok]

theorem run_tracedPackLoop (nbits : Nat) (mask : BitVec N) (xs : List (BitVec N))
    (st : PackState N) :
    (tracedPackLoop sh nbits mask xs st).run = packLoop sh nbits mask xs st := by
  induction xs generalizing st with
  | nil => rfl
  | cons x xs ih => simp [tracedPackLoop, packLoop, run_tracedPackStep, ih]

theorem run_tracedEncodeWords (en : Endian) (w : Nat) (sizeOut : Nat → Nat) (pcb : PcBytes)
    (commonvalue : Word w) (commonbits : Nat) :
    (tracedEncodeWords sh en w sizeOut pcb commonvalue commonbits).run =
      sigbitsEncodeWords en sh w sizeOut pcb commonvalue commonbits := by
  simp only [tracedEncodeWords, sigbitsEncodeWords, Traced.run_bind, run_tracedShr,
    Traced.run_ite, Traced.run_lift, run_tracedPackLoop, Traced.run_pure, pure_eq_ok]

theorem run_tracedUnpackStep (words : List (BitVec N)) (nbits : Nat)
    (mask commonvalue : BitVec N) (st : ReadState) :
    (tracedUnpackStep sh words nbits mask commonvalue st).run =
      unpackStep sh words nbits mask commonvalue st := by
  simp only [tracedUnpackStep, unpackStep, Traced.run_bind, Traced.run_lift, Traced.run_ite,
    run_tracedShr, run_tracedShl, Traced.run_pure, pure_eq_ok]

theorem run_tracedUnpackStep8 (words : List (BitVec N)) (nbits : Nat)
    (mask commonvalue : BitVec N) (st : ReadState) :
    (tracedUnpackStep8 sh words nbits mask commonvalue st).run =
      unpackStep8 sh words nbits mask commonvalue st := by
  simp only [tracedUnpackStep8, unpackStep8, Traced.run_bind, Traced.run_lift, Traced.run_ite,
    run_tracedShr, run_tracedShl, Traced.run_pure, pure_eq_ok]

theorem run_tracedUnpackLoop {step : ReadState → Traced Shift (BitVec N × ReadState)}
    {step' : ReadState → Run (BitVec N × ReadState)} (h : ∀ st, (step st).run = step' st)
    (n : Nat) (st : ReadState) : (tracedUnpackLoop step n st).run = unpackLoop step' n st := by
  induction n generalizing st with
  | zero => rfl
  | succ n ih => simp [tracedUnpackLoop, unpackLoop, h, ih]

theorem run_tracedDecodeWords (en : Endian) (w : Nat)
    {step : List (Word w) → Nat → Word w → Word w → ReadState → Traced Shift (Word w × ReadState)}
    {step' : List (Word w) → Nat → Word w → Word w → ReadState → Run (Word w × ReadState)}
    (h : ∀ words nbits mask commonvalue st,
      (step words nbits mask commonvalue st).run = step' words nbits mask commonvalue st)
    (pcb : PcBytes) :
    (tracedDecodeWords sh en w step pcb).run = sigbitsDecodeWords en sh w step' pcb := by
  simp only [tracedDecodeWords, sigbitsDecodeWords, Traced.run_bind, Traced.run_lift,
    run_tracedShr, run_tracedUnpackLoop (h _ _ _ _), Traced.run_pure, pure_eq_ok]

theorem run_tracedToPtrWords (en : Endian) (w : Nat) (pcb : PcBytes) (n : Int) :
    (tracedToPtrWords sh en w pcb n).run = sigbitsToPtrWords en sh w pcb n := by
  simp only [tracedToPtrWords, sigbitsToPtrWords, Traced.run_bind, Traced.run_lift,
    Traced.run_ite, run_tracedShr, run_tracedShl, Traced.run_pure, pure_eq_ok]

end Pointcloud
