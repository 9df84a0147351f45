/-
Pointcloud.Bytes.SilentTheorems — the encoders and the decoders report no error.

For the four encodings, `pc_bytes_encode` and `pc_bytes_decode` either return or
do something without a meaning: on an array whose type is known, no branch
reports an error. An encoding that is none of them is reported.
-/
import Pointcloud.Bytes.Codec

namespace Pointcloud

open Pointcloud.Base

variable {α β : Type}

/-! ## Runs -/

/-- A sequence of runs without errors has none. -/
theorem not_raises_bind {x : Run α} {f : α → Run β} (hx : ¬ Raises x)
    (hf : ∀ a, ¬ Raises (f a)) : ¬ Raises (x >>= f) := by
  intro h
  rcases raises_bind.mp h with h | ⟨a, -, h⟩
  · exact hx h
  · exact hf a h

theorem not_raises_ite {p : Prop} [Decidable p] {x y : Run α} (hx : ¬ Raises x)
    (hy : ¬ Raises y) : ¬ Raises (if p then x else y) := by
  split
  · exact hx
  · exact hy

theorem not_raises_intLoop (n : Nat) : ¬ Raises (intLoop n) :=
  not_raises_ite (not_raises_ok _) not_raises_fault

theorem not_raises_wordAt (xs : List α) (i : Nat) : ¬ Raises (wordAt xs i) := by
  unfold wordAt
  split <;> simp

theorem not_raises_intIndexed (xs : List α) (n : Nat) : ¬ Raises (intIndexed xs n) :=
  not_raises_bind (not_raises_intLoop n) fun _ => not_raises_ite (not_raises_ok _) not_raises_fault

theorem not_raises_pcalloc (size : Nat) : ¬ Raises (pcalloc size) :=
  not_raises_ite (not_raises_ok _) not_raises_fault

theorem not_raises_assertThat (p : Prop) [Decidable p] : ¬ Raises (assertThat p) :=
  not_raises_ite (not_raises_ok _) (by simp [Raises, raise])

/-! ## Significant bits -/

section Words

variable {N : Nat} (sh : FullShift)

theorem not_raises_apply (x : BitVec N) : ¬ Raises (sh.apply x) := by
  cases sh <;> simp [FullShift.apply]

theorem not_raises_cShr (x : BitVec N) (amount : Int) : ¬ Raises (cShr sh x amount) :=
  not_raises_ite not_raises_fault (not_raises_ite (not_raises_apply sh x) (not_raises_ok _))

theorem not_raises_cShl (x : BitVec N) (amount : Int) : ¬ Raises (cShl sh x amount) :=
  not_raises_ite not_raises_fault (not_raises_ite (not_raises_apply sh x) (not_raises_ok _))

theorem not_raises_orAt (ws : List (BitVec N)) (i : Nat) (v : BitVec N) :
    ¬ Raises (orAt ws i v) := not_raises_ite (not_raises_ok _) not_raises_fault

theorem not_raises_packStep (nbits : Nat) (val : BitVec N) (st : PackState N) :
    ¬ Raises (packStep sh nbits val st) := by
  unfold packStep
  refine not_raises_ite ?_ ?_
  · refine not_raises_bind (not_raises_cShl sh _ _) fun v => ?_
    refine not_raises_bind (not_raises_orAt _ _ _) fun words => ?_
    exact not_raises_ite (not_raises_ok _) (not_raises_ok _)
  · refine not_raises_bind (not_raises_cShr sh _ _) fun v => ?_
    refine not_raises_bind (not_raises_orAt _ _ _) fun words => ?_
    refine not_raises_bind (not_raises_cShl sh _ _) fun v => ?_
    exact not_raises_bind (not_raises_orAt _ _ _) fun words => not_raises_ok _

theorem not_raises_packLoop (nbits : Nat) (mask : BitVec N) (xs : List (BitVec N)) :
    ∀ st : PackState N, ¬ Raises (packLoop sh nbits mask xs st) := by
  induction xs with
  | nil => exact fun st => not_raises_ok st
  | cons x xs ih => exact fun st => not_raises_bind (not_raises_packStep sh _ _ st) ih

end Words

section Encode

variable {en : Endian} {sh : FullShift} {w : Nat} {pcb : PcBytes}

theorem not_raises_sigbitsCountWords (words : List (Word w)) (npoints : Nat) :
    ¬ Raises (sigbitsCountWords sh w words npoints) :=
  not_raises_bind (not_raises_wordAt _ _) fun _ =>
    not_raises_bind (not_raises_intIndexed _ _) fun _ =>
      not_raises_bind (not_raises_cShl sh _ _) fun _ => not_raises_ok _

theorem not_raises_sigbitsEncodeWords (sizeOut : Nat → Nat) (commonvalue : Word w)
    (commonbits : Nat) : ¬ Raises (sigbitsEncodeWords en sh w sizeOut pcb commonvalue commonbits) :=
  not_raises_bind (not_raises_cShr sh _ _) fun _ =>
    not_raises_ite (not_raises_ok _) (not_raises_bind (not_raises_intIndexed _ _) fun _ =>
      not_raises_bind (not_raises_packLoop sh _ _ _ _) fun _ => not_raises_ok _)

theorem not_raises_pcBytesSigbitsEncode (hknown : pcb.interpretation ≠ .unknown) :
    ¬ Raises (pcBytesSigbitsEncode en sh pcb) := by
  have hall : pcb.width = 1 ∨ pcb.width = 2 ∨ pcb.width = 4 ∨ pcb.width = 8 := by
    unfold PcBytes.width
    revert hknown
    cases pcb.interpretation <;> simp [Interpretation.size]
  unfold pcBytesSigbitsEncode
  rcases hall with hw | hw | hw | hw <;> rw [hw] <;>
    exact not_raises_bind (not_raises_sigbitsCountWords _ _) fun _ =>
      not_raises_sigbitsEncodeWords _ _ _

/-! ## Runs of equal values -/

theorem not_raises_emit (capacity : Nat) (out src : Bytes) : ¬ Raises (emit capacity out src) :=
  not_raises_ite (not_raises_ok _) not_raises_fault

theorem not_raises_runLengthLoop (capacity : Nat) (vs : List Bytes) :
    ∀ (runstart : Bytes) (runlength : Nat) (out : Bytes),
      ¬ Raises (runLengthLoop capacity vs runstart runlength out) := by
  induction vs with
  | nil => exact fun _ _ _ => not_raises_emit _ _ _
  | cons v vs ih =>
      intro runstart runlength out
      exact not_raises_ite (ih _ _ _) (not_raises_bind (not_raises_emit _ _ _) fun _ => ih _ _ _)

theorem not_raises_pcBytesRunLengthEncode : ¬ Raises (pcBytesRunLengthEncode pcb) := by
  refine not_raises_bind (not_raises_bind (not_raises_intLoop _) fun _ =>
    not_raises_ite (not_raises_ok _) not_raises_fault) fun values => ?_
  cases values with
  | nil => exact not_raises_bind (not_raises_ok _) fun _ => not_raises_ok _
  | cons v vs =>
      exact not_raises_bind (not_raises_runLengthLoop _ _ _ _ _) fun _ => not_raises_ok _

end Encode

/-! ## All encodings -/

/-- An encoding that there is. -/
theorem not_raises_pcBytesEncode (P : Platform) {pcb : PcBytes}
    (hknown : pcb.interpretation ≠ .unknown) {c : DimCompression} (hc : ∀ code, c ≠ .unknown code) :
    ¬ Raises (pcBytesEncode P pcb c) := by
  cases c with
  | none =>
      exact not_raises_ite (not_raises_ok _)
        (not_raises_bind (not_raises_readAt _ _ _) fun _ => not_raises_ok _)
  | rle => exact not_raises_pcBytesRunLengthEncode
  | sigbits => exact not_raises_pcBytesSigbitsEncode hknown
  | zlib =>
      exact not_raises_bind (not_raises_pcalloc _) fun _ =>
        not_raises_bind (not_raises_assertThat _) fun _ =>
          not_raises_bind (not_raises_readAt _ _ _) fun _ => not_raises_ok _
  | unknown code => exact absurd rfl (hc code)

/-! ## Decoding -/

theorem not_raises_mapM {f : α → Run β} {l : List α} (h : ∀ a, ¬ Raises (f a)) :
    ¬ Raises (l.mapM f) := by
  intro hraises
  obtain ⟨a, -, ha⟩ := exists_raises_of_mapM hraises
  exact h a ha

section Decode

variable {pcb : PcBytes}

theorem not_raises_entryCount (entry : Bytes) : ¬ Raises (entryCount entry) := by
  cases entry <;> simp [entryCount]

theorem not_raises_entryValues (w : Nat) (entry : Bytes) : ¬ Raises (entryValues w entry) :=
  not_raises_bind (not_raises_entryCount entry) fun _ =>
    not_raises_ite (not_raises_ok _)
      (not_raises_bind (not_raises_ite (not_raises_ok _) not_raises_fault) fun _ =>
        not_raises_ok _)

theorem not_raises_pcBytesRunLengthDecode : ¬ Raises (pcBytesRunLengthDecode pcb) :=
  not_raises_bind (not_raises_assertThat _) fun _ =>
    not_raises_bind (not_raises_mapM not_raises_entryCount) fun _ =>
      not_raises_bind (not_raises_assertThat _) fun _ =>
        not_raises_bind (not_raises_mapM (not_raises_entryValues _)) fun _ =>
          not_raises_ite (not_raises_ok _) not_raises_fault

section Unpack

variable {N : Nat} (sh : FullShift)

theorem not_raises_unpackStep (words : List (BitVec N)) (nbits : Nat) (mask commonvalue : BitVec N)
    (st : ReadState) : ¬ Raises (unpackStep sh words nbits mask commonvalue st) := by
  refine not_raises_bind (not_raises_wordAt _ _) fun val => not_raises_ite ?_ ?_
  · exact not_raises_bind (not_raises_cShr sh _ _) fun _ =>
      not_raises_ite (not_raises_ok _) (not_raises_ok _)
  · refine not_raises_bind (not_raises_cShl sh _ _) fun _ => ?_
    exact not_raises_bind (not_raises_wordAt _ _) fun _ =>
      not_raises_bind (not_raises_cShr sh _ _) fun _ => not_raises_ok _

theorem not_raises_unpackStep8 (words : List (BitVec N)) (nbits : Nat)
    (mask commonvalue : BitVec N) (st : ReadState) :
    ¬ Raises (unpackStep8 sh words nbits mask commonvalue st) := by
  refine not_raises_bind (not_raises_wordAt _ _) fun val => not_raises_ite ?_ ?_
  · exact not_raises_bind (not_raises_cShr sh _ _) fun _ => not_raises_ok _
  · refine not_raises_bind (not_raises_cShl sh _ _) fun _ => ?_
    exact not_raises_bind (not_raises_wordAt _ _) fun _ =>
      not_raises_bind (not_raises_cShr sh _ _) fun _ => not_raises_ok _

theorem not_raises_unpackLoop {step : ReadState → Run (BitVec N × ReadState)}
    (h : ∀ st, ¬ Raises (step st)) : ∀ (n : Nat) (st : ReadState), ¬ Raises (unpackLoop step n st)
  | 0, _ => not_raises_ok _
  | n + 1, st => not_raises_bind (h st) fun r =>
      not_raises_bind (not_raises_unpackLoop h n r.2) fun _ => not_raises_ok _

end Unpack

theorem not_raises_sigbitsDecodeWords {en : Endian} {sh : FullShift} {w : Nat}
    {step : List (Word w) → Nat → Word w → Word w → ReadState → Run (Word w × ReadState)}
    (h : ∀ words nbits mask commonvalue st, ¬ Raises (step words nbits mask commonvalue st)) :
    ¬ Raises (sigbitsDecodeWords en sh w step pcb) :=
  not_raises_bind (not_raises_wordAt _ _) fun _ =>
    not_raises_bind (not_raises_wordAt _ _) fun _ =>
      not_raises_bind (not_raises_cShr sh _ _) fun _ =>
        not_raises_bind (not_raises_intLoop _) fun _ =>
          not_raises_bind (not_raises_unpackLoop (h _ _ _ _) _ _) fun _ => not_raises_ok _

theorem not_raises_pcBytesSigbitsDecode {en : Endian} {sh : FullShift}
    (hknown : pcb.interpretation ≠ .unknown) : ¬ Raises (pcBytesSigbitsDecode en sh pcb) := by
  have hall : pcb.width = 1 ∨ pcb.width = 2 ∨ pcb.width = 4 ∨ pcb.width = 8 :=
    Interpretation.size_cases hknown
  unfold pcBytesSigbitsDecode
  rcases hall with hw | hw | hw | hw <;> rw [hw]
  · exact not_raises_sigbitsDecodeWords (not_raises_unpackStep8 sh)
  · exact not_raises_sigbitsDecodeWords (not_raises_unpackStep sh)
  · exact not_raises_sigbitsDecodeWords (not_raises_unpackStep sh)
  · exact not_raises_sigbitsDecodeWords (not_raises_unpackStep sh)

theorem not_raises_pcBytesZlibDecode (P : Platform) : ¬ Raises (pcBytesZlibDecode P pcb) :=
  not_raises_bind (not_raises_pcalloc _) fun _ =>
    not_raises_bind (not_raises_assertThat _) fun _ =>
      not_raises_bind (not_raises_readAt _ _ _) fun _ => not_raises_ok _

/-- The encoding is one of the four. -/
def PcBytes.knownEncoding (pcb : PcBytes) : Bool :=
  match pcb.compression with
  | .unknown _ => false
  | _ => true

/-- What decoding reports is an encoding that there is not. -/
theorem raises_pcBytesDecode_iff (P : Platform) (hknown : pcb.interpretation ≠ .unknown) :
    Raises (pcBytesDecode P pcb) ↔ pcb.knownEncoding = false := by
  unfold pcBytesDecode PcBytes.knownEncoding
  cases pcb.compression with
  | none =>
      exact iff_of_false (not_raises_ite (not_raises_ok _)
        (not_raises_bind (not_raises_readAt _ _ _) fun _ => not_raises_ok _)) (by simp)
  | rle => exact iff_of_false not_raises_pcBytesRunLengthDecode (by simp)
  | sigbits => exact iff_of_false (not_raises_pcBytesSigbitsDecode hknown) (by simp)
  | zlib => exact iff_of_false (not_raises_pcBytesZlibDecode P) (by simp)
  | unknown code => exact iff_of_true (raises_raise _) rfl

end Decode

end Pointcloud
