/-
Pointcloud.Bytes.ShiftTheorems — which shifts of the significant-bits codec C defines.

Between counting and access every amount comes from the number of unique bits and from
a cursor that stands inside a word. Two arrays are the exception: one whose words are
all equal, where nothing is left of a word under the mask, and one of 32 or 64-bit words
that share no leading bit, where nothing is in common. There a word is shifted by its
full width (`sigbitsShifts_inRange_iff`).
-/
import Pointcloud.Bytes.SigbitsShifts
import Pointcloud.Bytes.SigbitsTheorems

namespace Pointcloud

open Pointcloud.Base

variable {N : Nat}

theorem inRange_natCast {width amount : Nat} :
    Shift.InRange ⟨width, amount⟩ ↔ amount < width := by
  simp [Shift.InRange]

theorem promoted_pos (N : Nat) : 0 < promoted N :=
  Nat.lt_of_lt_of_le (by decide) (Nat.le_max_right N 32)

/-- Narrow words are promoted to 32 bits. -/
theorem promoted_word {w : Nat} (hw : WordWidth w) :
    w ≤ 2 ∧ promoted (8 * w) = 32 ∨ 4 ≤ w ∧ promoted (8 * w) = 8 * w := by
  rcases hw with rfl | rfl | rfl | rfl <;> decide

/-! ## Words that differ -/

/-- Two of the words differ. -/
def SomeDiffer (xs : List (BitVec N)) : Prop := ∃ x ∈ xs, ∃ y ∈ xs, x ≠ y

/-- The words begin with the same bit. -/
def SameLeadingBit (xs : List (BitVec N)) : Prop := ∀ x ∈ xs, ∀ y ∈ xs, x.msb = y.msb

theorem ushiftRight_width (x y : BitVec N) : x >>> N = y >>> N := by
  rw [BitVec.ushiftRight_eq_zero (Nat.le_refl N), BitVec.ushiftRight_eq_zero (Nat.le_refl N)]

/-- The loop does not stop before the two words agree. -/
theorem commonbitsLoop_differ (a o : BitVec N) (c b : Nat)
    (h : b < c - (commonbitsLoop a o c).2) : a >>> b ≠ o >>> b := by
  induction c generalizing a o b with
  | zero => exact absurd h (by omega)
  | succ c ih =>
      unfold commonbitsLoop at h
      split at h
      · exact absurd h (by simp)
      · next hne =>
          cases b with
          | zero => simpa using hne
          | succ b =>
              rw [Nat.add_comm b 1, BitVec.shiftRight_add, BitVec.shiftRight_add]
              exact ih _ _ _ (by omega)

/-- Conjunction and disjunction of an array agree in a bit where all its words do. -/
theorem getLsbD_and_or_iff (i : Nat) (x : BitVec N) (xs : List (BitVec N)) :
    ((x :: xs).foldl (· &&& ·) x).getLsbD i = ((x :: xs).foldl (· ||| ·) x).getLsbD i ↔
      ∀ y ∈ x :: xs, y.getLsbD i = x.getLsbD i := by
  rw [getLsbD_foldl_and, getLsbD_foldl_or]
  cases hx : x.getLsbD i with
  | false => simp [hx]
  | true => simp [hx]

theorem uniqueBits_pos_iff {xs : List (BitVec N)} (hne : xs ≠ []) :
    0 < uniqueBits xs ↔ SomeDiffer xs := by
  obtain ⟨x, xs, rfl⟩ := List.exists_cons_of_ne_nil hne
  set a := (x :: xs).foldl (· &&& ·) x with ha
  set o := (x :: xs).foldl (· ||| ·) x with ho
  have hsame : uniqueBits (x :: xs) = 0 ↔ a = o := by
    rw [uniqueBits, List.headD_cons, ← ha, ← ho]
    constructor
    · intro hzero
      obtain ⟨-, -, hagree⟩ := commonbitsLoop_spec a o N (ushiftRight_width a o)
      simpa [hzero] using hagree
    · intro heq
      rw [heq, commonbitsLoop_self, Nat.sub_self]
  have hbits : a = o ↔ ∀ y ∈ x :: xs, y = x := by
    constructor
    · intro heq y hy
      apply BitVec.eq_of_getLsbD_eq
      intro i _
      exact (getLsbD_and_or_iff i x xs).mp (by rw [← ha, ← ho, heq]) y hy
    · intro hall
      apply BitVec.eq_of_getLsbD_eq
      intro i _
      exact (getLsbD_and_or_iff i x xs).mpr fun y hy => by rw [hall y hy]
  rw [Nat.pos_iff_ne_zero, ne_eq, hsame, hbits]
  constructor
  · intro hnot
    obtain ⟨y, hy, hdiffer⟩ := not_forall₂.mp hnot
    exact ⟨y, hy, x, by simp, hdiffer⟩
  · rintro ⟨y, hy, z, hz, hdiffer⟩ hall
    exact hdiffer ((hall y hy).trans (hall z hz).symm)

theorem uniqueBits_lt_iff (hN : 0 < N) {xs : List (BitVec N)} (hne : xs ≠ []) :
    uniqueBits xs < N ↔ SameLeadingBit xs := by
  obtain ⟨x, xs, rfl⟩ := List.exists_cons_of_ne_nil hne
  have hlead : uniqueBits (x :: xs) < N ↔ ∀ y ∈ x :: xs, y.msb = x.msb := by
    simp only [BitVec.msb_eq_getLsbD_last]
    rw [← getLsbD_and_or_iff, uniqueBits, List.headD_cons]
    set a := (x :: xs).foldl (· &&& ·) x
    set o := (x :: xs).foldl (· ||| ·) x
    obtain ⟨hle, -, hagree⟩ := commonbitsLoop_spec a o N (ushiftRight_width a o)
    constructor
    · intro hlt
      have hbit := congrArg (fun v => v.getLsbD ((commonbitsLoop a o N).2 - 1)) hagree
      simp only [BitVec.getLsbD_ushiftRight] at hbit
      have hidx : N - (commonbitsLoop a o N).2 + ((commonbitsLoop a o N).2 - 1) = N - 1 := by
        omega
      rwa [hidx] at hbit
    · intro hbit
      by_contra hfull
      refine commonbitsLoop_differ a o N (N - 1) (by omega) ?_
      apply BitVec.eq_of_getLsbD_eq
      intro i _
      rw [BitVec.getLsbD_ushiftRight, BitVec.getLsbD_ushiftRight]
      cases i with
      | zero => exact hbit
      | succ i => rw [BitVec.getLsbD_of_ge _ _ (by omega), BitVec.getLsbD_of_ge _ _ (by omega)]
  rw [hlead]
  exact ⟨fun hall y hy z hz => (hall y hy).trans (hall z hz).symm,
    fun hall y hy => hall y hy x (by simp)⟩

/-! ## Counting -/

theorem all_tracedCommonbitsLoop (sh : FullShift) (a o : BitVec N) (c : Nat) :
    (tracedCommonbitsLoop sh a o c).All Shift.InRange := by
  induction c generalizing a o with
  | zero => exact Traced.all_pure _
  | succ c ih =>
      have hone : Shift.InRange ⟨promoted N, 1⟩ := by
        have hle : 32 ≤ promoted N := Nat.le_max_right N 32
        exact ⟨by simp, by simp only; omega⟩
      unfold tracedCommonbitsLoop
      split
      · exact Traced.all_pure _
      · simp [Traced.all_bind, hone, ih]

section Counting

variable {sh : FullShift} {w : Nat} {words : List (Word w)} {npoints : Nat}

/-- What is counted, where the function returns. -/
theorem count_of_ok {common : Word w × Nat}
    (h : sigbitsCountWords sh w words npoints = .ok common) :
    common.2 = 8 * w - uniqueBits (words.take npoints) ∧ npoints ≤ 2147483648 := by
  have hreads : 0 < words.length ∧ npoints ≤ words.length ∧ npoints ≤ 2147483648 := by
    by_contra hnot
    rw [sigbitsCountWords_fault (by omega)] at h
    exact fault_ne_ok _ h
  obtain ⟨hne, hlen, hint⟩ := hreads
  rw [sigbitsCountWords, wordAt_ok hne, ok_bind, intIndexed_ok hlen hint, ok_bind] at h
  obtain ⟨commonvalue, -, hcommon⟩ := bind_eq_ok.mp h
  cases hcommon
  have hle := (commonbitsLoop_spec ((words.take npoints).foldl (· &&& ·) words[0])
    ((words.take npoints).foldl (· ||| ·) words[0]) (8 * w) (ushiftRight_width _ _)).1
  refine ⟨?_, hint⟩
  rw [uniqueBits_take hne]
  exact (Nat.sub_sub_self hle).symm

/-- Where the last shift is in range, the function returns. -/
theorem count_ok (hne : 0 < words.length) (hlen : npoints ≤ words.length)
    (hint : npoints ≤ 2147483648) (hbits : uniqueBits (words.take npoints) < promoted (8 * w)) :
    ∃ commonvalue, sigbitsCountWords sh w words npoints =
      .ok (commonvalue, 8 * w - uniqueBits (words.take npoints)) := by
  have hrun : ∃ common, sigbitsCountWords sh w words npoints = .ok common := by
    rw [uniqueBits_take hne] at hbits
    rw [sigbitsCountWords, wordAt_ok hne, ok_bind, intIndexed_ok hlen hint, ok_bind]
    simp only
    rw [cShl_ok sh _ hbits, ok_bind]
    exact ⟨_, rfl⟩
  obtain ⟨⟨commonvalue, commonbits⟩, hcommon⟩ := hrun
  obtain ⟨rfl, -⟩ := count_of_ok hcommon
  exact ⟨commonvalue, hcommon⟩

/-- The last shift puts the common bits back in their place. -/
theorem all_tracedCountWords_iff (hne : 0 < words.length) (hlen : npoints ≤ words.length) :
    (tracedCountWords sh w words npoints).All Shift.InRange ↔
      (npoints ≤ 2147483648 → uniqueBits (words.take npoints) < promoted (8 * w)) := by
  rw [tracedCountWords, Traced.all_lift_bind (wordAt_ok hne)]
  by_cases hint : npoints ≤ 2147483648
  · rw [Traced.all_lift_bind (intIndexed_ok hlen hint), uniqueBits_take hne]
    simp [Traced.all_bind, all_tracedCommonbitsLoop, run_tracedCommonbitsLoop,
      inRange_natCast, hint]
  · rw [Traced.all_bind]
    have hfault : intIndexed words npoints = fault :=
      intIndexed_fault (.inr (Nat.not_le.mp hint))
    simp [hfault, hint, fault_ne_ok]

end Counting

/-! ## Packing -/

/-- Bits of the current word are free. -/
def PackState.Free (st : PackState N) : Prop := 0 < st.bit ∧ st.bit ≤ N

section Packing

variable (sh : FullShift) {nbits : Nat} (hpos : 0 < nbits) (hN : nbits ≤ N)

include hpos hN

theorem free_of_packStep {val : BitVec N} {st st' : PackState N} (hfree : st.Free)
    (h : packStep sh nbits val st = .ok st') : st'.Free := by
  obtain ⟨hbit, hbitN⟩ := hfree
  unfold packStep at h
  split at h
  · obtain ⟨v, -, h⟩ := bind_eq_ok.mp h
    obtain ⟨words, -, h⟩ := bind_eq_ok.mp h
    split at h
    · cases h
      exact ⟨Nat.lt_of_lt_of_le hpos hN, Nat.le_refl N⟩
    · cases h
      refine ⟨?_, ?_⟩ <;> simp only <;> omega
  · obtain ⟨v, -, h⟩ := bind_eq_ok.mp h
    obtain ⟨words, -, h⟩ := bind_eq_ok.mp h
    obtain ⟨v, -, h⟩ := bind_eq_ok.mp h
    obtain ⟨words, -, h⟩ := bind_eq_ok.mp h
    cases h
    refine ⟨?_, ?_⟩ <;> simp only <;> omega

theorem all_tracedPackStep (val : BitVec N) {st : PackState N} (hfree : st.Free) :
    (tracedPackStep sh nbits val st).All Shift.InRange := by
  obtain ⟨hbit, hbitN⟩ := hfree
  have hle := le_promoted N
  unfold tracedPackStep
  split
  · have hshift : st.bit - nbits < promoted N := by omega
    simp only [Traced.all_bind, all_tracedShl, inRange_natCast, hshift, true_and]
    refine fun v _ => ⟨Traced.all_lift _, fun words _ => ?_⟩
    split <;> exact Traced.all_pure _
  · have hupper : nbits - st.bit < promoted N := by omega
    have hlower : N - (nbits - st.bit) < promoted N := by omega
    simp [Traced.all_bind, inRange_natCast, hupper, hlower]

theorem all_tracedPackLoop (mask : BitVec N) (xs : List (BitVec N)) {st : PackState N}
    (hfree : st.Free) : (tracedPackLoop sh nbits mask xs st).All Shift.InRange := by
  induction xs generalizing st with
  | nil => exact Traced.all_pure _
  | cons x xs ih =>
      rw [tracedPackLoop, Traced.all_bind]
      refine ⟨all_tracedPackStep sh hpos hN _ hfree, fun st' hst' => ?_⟩
      rw [run_tracedPackStep] at hst'
      exact ih (free_of_packStep sh hpos hN hfree hst')

end Packing

/-- The mask of the unique bits is the only shift of the encoder that may go too far. -/
theorem all_tracedEncodeWords_iff (sh : FullShift) (en : Endian) {w : Nat} (hw : 0 < w)
    (sizeOut : Nat → Nat) (pcb : PcBytes) (commonvalue : Word w) {nbits : Nat}
    (hN : nbits ≤ 8 * w) :
    (tracedEncodeWords sh en w sizeOut pcb commonvalue (8 * w - nbits)).All Shift.InRange ↔
      8 * w - nbits < promoted (8 * w) := by
  rw [tracedEncodeWords, Traced.all_bind, all_tracedShr, inRange_natCast]
  refine and_iff_left_of_imp fun hmask mask _ => ?_
  split
  · exact Traced.all_pure _
  · next hdiffer =>
      have hsub : 8 * w - (8 * w - nbits) = nbits := Nat.sub_sub_self hN
      simp only [hsub, Traced.all_bind, Traced.all_lift, Traced.all_pure, true_and, implies_true,
        and_true]
      intro words _
      exact all_tracedPackLoop sh (by omega) hN mask words ⟨by simp only; omega, Nat.le_refl _⟩

/-- What the encoder returns is the header words and a payload. -/
theorem bytes_of_sigbitsEncodeWords {sh : FullShift} {en : Endian} {w : Nat}
    {sizeOut : Nat → Nat} {pcb e : PcBytes} {commonvalue : Word w} {nbits : Nat}
    (hN : nbits ≤ 8 * w)
    (h : sigbitsEncodeWords en sh w sizeOut pcb commonvalue (8 * w - nbits) = .ok e) :
    ∃ payload, e.bytes = sigbitsBytes en nbits commonvalue payload := by
  have hsub : 8 * w - (8 * w - nbits) = nbits := Nat.sub_sub_self hN
  obtain ⟨mask, -, h⟩ := bind_eq_ok.mp h
  simp only [hsub] at h
  split at h
  · cases h
    exact ⟨_, rfl⟩
  · obtain ⟨words, -, h⟩ := bind_eq_ok.mp h
    obtain ⟨st, -, h⟩ := bind_eq_ok.mp h
    cases h
    exact ⟨_, rfl⟩

/-! ## Unpacking -/

/-- Every state that a decoding step comes to from the start shifts in range. -/
def ShiftsWell (step : ReadState → Traced Shift (BitVec N × ReadState)) : Prop :=
  ∃ Inv : ReadState → Prop, Inv ⟨0, N⟩ ∧
    ∀ st, Inv st → (step st).All Shift.InRange ∧ ∀ val st', (step st).run = .ok (val, st') → Inv st'

theorem all_tracedUnpackLoop {step : ReadState → Traced Shift (BitVec N × ReadState)}
    {Inv : ReadState → Prop}
    (hstep : ∀ st, Inv st →
      (step st).All Shift.InRange ∧ ∀ val st', (step st).run = .ok (val, st') → Inv st')
    (n : Nat) {st : ReadState} (hst : Inv st) :
    (tracedUnpackLoop step n st).All Shift.InRange := by
  induction n generalizing st with
  | zero => exact Traced.all_pure _
  | succ n ih =>
      obtain ⟨hall, hnext⟩ := hstep st hst
      rw [tracedUnpackLoop, Traced.all_bind]
      refine ⟨hall, fun r hr => ?_⟩
      simp [Traced.all_bind, ih (hnext r.1 r.2 hr)]

section Unpacking

variable (sh : FullShift) {nbits : Nat} (hpos : 0 < nbits) (hN : nbits ≤ N)
  (words : List (BitVec N)) (mask commonvalue : BitVec N)

include hpos hN

theorem shiftsWell_tracedUnpackStep :
    ShiftsWell (tracedUnpackStep sh words nbits mask commonvalue) := by
  have hle := le_promoted N
  refine ⟨fun st => 0 < st.bit ∧ st.bit ≤ N, ⟨by simp only; omega, Nat.le_refl N⟩, ?_⟩
  rintro st ⟨hbit, hbitN⟩
  refine ⟨?_, fun val st' hst' => ?_⟩
  · rw [tracedUnpackStep, Traced.all_bind]
    refine ⟨Traced.all_lift _, fun val _ => ?_⟩
    split
    · have hshift : st.bit - nbits < promoted N := by omega
      rw [Traced.all_bind, all_tracedShr, inRange_natCast]
      refine ⟨hshift, fun v _ => ?_⟩
      split <;> exact Traced.all_pure _
    · have hupper : nbits - st.bit < promoted N := by omega
      have hlower : N - (nbits - st.bit) < promoted N := by omega
      simp [Traced.all_bind, inRange_natCast, hupper, hlower]
  · rw [run_tracedUnpackStep] at hst'
    obtain ⟨w, -, hst'⟩ := bind_eq_ok.mp hst'
    split at hst'
    · obtain ⟨v, -, hst'⟩ := bind_eq_ok.mp hst'
      split at hst'
      · cases hst'
        exact ⟨by simp only; omega, Nat.le_refl N⟩
      · cases hst'
        refine ⟨?_, ?_⟩ <;> simp only <;> omega
    · obtain ⟨upper, -, hst'⟩ := bind_eq_ok.mp hst'
      obtain ⟨w', -, hst'⟩ := bind_eq_ok.mp hst'
      obtain ⟨lower, -, hst'⟩ := bind_eq_ok.mp hst'
      cases hst'
      refine ⟨?_, ?_⟩ <;> simp only <;> omega

/-- The cursor of the 8-bit decoder may stand at the end of a word. -/
theorem shiftsWell_tracedUnpackStep8 (hnarrow : N < promoted N) :
    ShiftsWell (tracedUnpackStep8 sh words nbits mask commonvalue) := by
  refine ⟨fun st => st.bit ≤ N, Nat.le_refl N, fun st hbitN => ⟨?_, fun val st' hst' => ?_⟩⟩
  · rw [tracedUnpackStep8, Traced.all_bind]
    refine ⟨Traced.all_lift _, fun val _ => ?_⟩
    split
    · have hshift : st.bit - nbits < promoted N := by omega
      simp [Traced.all_bind, inRange_natCast, hshift]
    · have hupper : nbits - st.bit < promoted N := by omega
      have hlower : N - (nbits - st.bit) < promoted N := by omega
      simp [Traced.all_bind, inRange_natCast, hupper, hlower]
  · rw [run_tracedUnpackStep8] at hst'
    obtain ⟨w, -, hst'⟩ := bind_eq_ok.mp hst'
    split at hst'
    · obtain ⟨v, -, hst'⟩ := bind_eq_ok.mp hst'
      cases hst'
      simp only
      omega
    · obtain ⟨upper, -, hst'⟩ := bind_eq_ok.mp hst'
      obtain ⟨w', -, hst'⟩ := bind_eq_ok.mp hst'
      obtain ⟨lower, -, hst'⟩ := bind_eq_ok.mp hst'
      cases hst'
      simp only
      omega

end Unpacking

theorem shiftsWell_tracedUnpackStepOf (sh : FullShift) {w : Nat} {nbits : Nat} (hpos : 0 < nbits)
    (hN : nbits ≤ 8 * w) (words : List (Word w)) (mask commonvalue : Word w) :
    ShiftsWell (tracedUnpackStepOf sh w words nbits mask commonvalue) := by
  unfold tracedUnpackStepOf
  split
  · next hone =>
      subst hone
      exact shiftsWell_tracedUnpackStep8 sh hpos hN words mask commonvalue (by decide)
  · exact shiftsWell_tracedUnpackStep sh hpos hN words mask commonvalue

/-- Without the notes it is the step of the decoder. -/
theorem run_tracedUnpackStepOf (sh : FullShift) (w : Nat) (words : List (Word w)) (nbits : Nat)
    (mask commonvalue : Word w) (st : ReadState) :
    (tracedUnpackStepOf sh w words nbits mask commonvalue st).run =
      unpackStepOf sh w words nbits mask commonvalue st := by
  unfold tracedUnpackStepOf unpackStepOf
  split
  · exact run_tracedUnpackStep8 sh words nbits mask commonvalue st
  · exact run_tracedUnpackStep sh words nbits mask commonvalue st

/-! ## The encoder's output -/

section Output

variable (sh : FullShift) {en : Endian} {w : Nat} (hw : 0 < w) {nbits : Nat} (hN : nbits ≤ 8 * w)
  {commonvalue : Word w} {payload : List (Word w)} {e : PcBytes}
  (hbytes : e.bytes = sigbitsBytes en nbits commonvalue payload)

include hw hN hbytes

/-- The readers begin with the header words. -/
theorem header_of_bytes : wordAt (wordsOf en w e.bytes) 0 = .ok (BitVec.ofNat (8 * w) nbits) ∧
    wordAt (wordsOf en w e.bytes) 1 = .ok commonvalue ∧
    (BitVec.ofNat (8 * w) nbits).toNat = nbits := by
  rw [hbytes, sigbitsBytes, wordsOf_bytesOfWords en hw]
  exact ⟨rfl, rfl, toNat_ofNat_of_le hN⟩

theorem all_tracedDecodeWords (hpos : 0 < nbits) :
    (tracedDecodeWords sh en w (tracedUnpackStepOf sh w) e).All Shift.InRange := by
  obtain ⟨hnbits, hcommon, htoNat⟩ := header_of_bytes hw hN hbytes
  rw [tracedDecodeWords, Traced.all_lift_bind hnbits, Traced.all_lift_bind hcommon, htoNat,
    Traced.all_bind, all_tracedShr]
  have hle := le_promoted (8 * w)
  refine ⟨⟨by simp only; omega, by simp only; omega⟩, fun mask _ => ?_⟩
  obtain ⟨Inv, hstart, hstep⟩ := shiftsWell_tracedUnpackStepOf sh hpos hN
    ((wordsOf en w e.bytes).drop 2) mask commonvalue
  simp [Traced.all_bind, all_tracedUnpackLoop hstep e.npoints hstart]

/-- The mask of an access is shifted as a 64-bit word. -/
theorem all_tracedToPtrWords_iff (hw8 : w ≤ 8) (n : Int) :
    (tracedToPtrWords sh en w e n).All Shift.InRange ↔ 0 < nbits := by
  obtain ⟨hnbits, hcommon, htoNat⟩ := header_of_bytes hw hN hbytes
  rw [tracedToPtrWords, Traced.all_lift_bind hnbits, Traced.all_lift_bind hcommon, htoNat,
    Traced.all_bind, all_tracedShr]
  have hmask : Shift.InRange ⟨promoted 64, 64 - nbits⟩ ↔ 0 < nbits := by
    have hwide : promoted 64 = 64 := rfl
    simp only [Shift.InRange, hwide]
    omega
  rw [hmask]
  refine and_iff_left_of_imp fun hpos mask _ => ?_
  simp only
  rw [Traced.all_bind]
  refine ⟨Traced.all_lift _, fun val _ => ?_⟩
  have hle := le_promoted (8 * w)
  have hmod := Nat.mod_lt (BitVec.ofInt (8 * w) (n * nbits)).toNat (show 8 * w > 0 by omega)
  split
  · have hupper : Shift.InRange ⟨promoted (8 * w), -((8 * w : Nat) -
        ((BitVec.ofInt (8 * w) (n * nbits)).toNat % (8 * w) : Nat) - nbits : Int)⟩ := by
      refine ⟨?_, ?_⟩ <;> simp only <;> omega
    have hlower : Shift.InRange ⟨promoted (8 * w), (8 * w : Nat) -
        ((BitVec.ofInt (8 * w) (n * nbits)).toNat % (8 * w) : Nat) - nbits + (8 * w : Nat)⟩ := by
      refine ⟨?_, ?_⟩ <;> simp only <;> omega
    rw [Traced.all_bind, all_tracedShl]
    refine ⟨hupper, fun upper _ => ?_⟩
    rw [Traced.all_bind]
    refine ⟨Traced.all_lift _, fun val' _ => ?_⟩
    rw [Traced.all_bind, all_tracedShr]
    exact ⟨hlower, fun lower _ => Traced.all_pure _⟩
  · have hshift : Shift.InRange ⟨promoted (8 * w), (8 * w : Nat) -
        ((BitVec.ofInt (8 * w) (n * nbits)).toNat % (8 * w) : Nat) - nbits⟩ := by
      refine ⟨?_, ?_⟩ <;> simp only <;> omega
    rw [Traced.all_bind, all_tracedShr]
    exact ⟨hshift, fun val' _ => Traced.all_pure _⟩

end Output

/-! ## The codec -/

/-- `e` is what the encoder makes of an array with the bits that were counted. -/
def Encodes (en : Endian) (sh : FullShift) (w : Nat) (pcb e : PcBytes) : Prop :=
  ∃ common, sigbitsCountWords sh w (wordsOf en w pcb.bytes) pcb.npoints = .ok common ∧
    sigbitsEncodeWords en sh w (sizeOutOf w) pcb common.1 common.2 = .ok e

/-- Every shift is in range: in counting, in encoding with what was counted, and, on what
the encoder returns, in decoding and in each access. -/
structure ShiftsInRange (en : Endian) (sh : FullShift) (w : Nat) (pcb : PcBytes) : Prop where
  count : (tracedCountWords sh w (wordsOf en w pcb.bytes) pcb.npoints).All Shift.InRange
  encode : ∀ common, sigbitsCountWords sh w (wordsOf en w pcb.bytes) pcb.npoints = .ok common →
    (tracedEncodeWords sh en w (sizeOutOf w) pcb common.1 common.2).All Shift.InRange
  decode : ∀ e, Encodes en sh w pcb e →
    (tracedDecodeWords sh en w (tracedUnpackStepOf sh w) e).All Shift.InRange
  toPtr : ∀ e, Encodes en sh w pcb e → ∀ n : Nat, n < pcb.npoints →
    (tracedToPtrWords sh en w e n).All Shift.InRange

section Codec

variable {en : Endian} {sh : FullShift} {w : Nat} {pcb : PcBytes}

theorem length_wordsOf_ge (hw : WordWidth w) (hroom : pcb.npoints * w ≤ pcb.bytes.length) :
    pcb.npoints ≤ (wordsOf en w pcb.bytes).length := by
  rw [length_wordsOf]
  exact (Nat.le_div_iff_mul_le hw.pos).mpr hroom

/-- What was counted and encoded. -/
theorem Encodes.header {e : PcBytes} (h : Encodes en sh w pcb e) :
    ∃ (commonvalue : Word w) (payload : List (Word w)),
      e.bytes = sigbitsBytes en (uniqueBits ((wordsOf en w pcb.bytes).take pcb.npoints))
        commonvalue payload := by
  obtain ⟨⟨commonvalue, commonbits⟩, hcount, hencode⟩ := h
  obtain ⟨rfl, -⟩ := count_of_ok hcount
  exact ⟨commonvalue, bytes_of_sigbitsEncodeWords (uniqueBits_le _) hencode⟩

/-- Equal words are encoded if their mask can be shifted. -/
theorem encodes_of_equal (hne : 0 < (wordsOf en w pcb.bytes).length)
    (hlen : pcb.npoints ≤ (wordsOf en w pcb.bytes).length) (hint : pcb.npoints ≤ 2147483648)
    (hequal : uniqueBits ((wordsOf en w pcb.bytes).take pcb.npoints) = 0)
    (hmask : ∀ common, sigbitsCountWords sh w (wordsOf en w pcb.bytes) pcb.npoints = .ok common →
      common.2 < promoted (8 * w)) : ∃ e, Encodes en sh w pcb e := by
  obtain ⟨commonvalue, hcount⟩ := count_ok hne hlen hint (by rw [hequal]; exact promoted_pos _)
  have hshift := hmask _ hcount
  rw [hequal, Nat.sub_zero] at hcount hshift
  have hencode : ∃ e, sigbitsEncodeWords en sh w (sizeOutOf w) pcb commonvalue (8 * w) = .ok e := by
    rw [sigbitsEncodeWords, cShr_ok sh _ hshift, ok_bind, if_pos rfl]
    exact ⟨_, rfl⟩
  obtain ⟨e, he⟩ := hencode
  exact ⟨e, _, hcount, he⟩

/-- In terms of the bits that the words do not have in common. -/
theorem shiftsInRange_iff_uniqueBits (hw : WordWidth w) (hpos : 1 ≤ pcb.npoints)
    (hroom : pcb.npoints * w ≤ pcb.bytes.length) :
    ShiftsInRange en sh w pcb ↔ (pcb.npoints ≤ 2147483648 →
      0 < uniqueBits ((wordsOf en w pcb.bytes).take pcb.npoints) ∧
        uniqueBits ((wordsOf en w pcb.bytes).take pcb.npoints) < promoted (8 * w)) := by
  have hlen : pcb.npoints ≤ (wordsOf en w pcb.bytes).length := length_wordsOf_ge hw hroom
  have hcount : (tracedCountWords sh w (wordsOf en w pcb.bytes) pcb.npoints).All Shift.InRange ↔
      _ := all_tracedCountWords_iff (by omega) hlen
  have hN := uniqueBits_le ((wordsOf en w pcb.bytes).take pcb.npoints)
  have hencode : ∀ common : Word w × Nat,
      sigbitsCountWords sh w (wordsOf en w pcb.bytes) pcb.npoints = .ok common →
      ((tracedEncodeWords sh en w (sizeOutOf w) pcb common.1 common.2).All Shift.InRange ↔
        common.2 < promoted (8 * w)) := by
    intro common hcommon
    rw [(count_of_ok hcommon).1]
    exact all_tracedEncodeWords_iff sh en hw.pos _ pcb common.1 hN
  constructor
  · intro h hint
    refine ⟨?_, hcount.mp h.count hint⟩
    by_contra hzero
    obtain ⟨e, he⟩ : ∃ e, Encodes en sh w pcb e :=
      encodes_of_equal (by omega) hlen hint (by omega) fun common hcommon =>
        (hencode common hcommon).mp (h.encode common hcommon)
    obtain ⟨commonvalue, payload, hbytes⟩ := he.header
    exact hzero ((all_tracedToPtrWords_iff sh hw.pos hN hbytes hw.le 0).mp (h.toPtr e he 0 hpos))
  · intro h
    refine ⟨hcount.mpr fun hint => (h hint).2, fun common hcommon => ?_, fun e he => ?_,
      fun e he n _ => ?_⟩
    · obtain ⟨hcommonbits, hint⟩ := count_of_ok hcommon
      have hle := le_promoted (8 * w)
      have hunique := (h hint).1
      rw [hencode common hcommon, hcommonbits]
      omega
    · obtain ⟨commonvalue, payload, hbytes⟩ := he.header
      obtain ⟨common, hcommon, -⟩ := he
      exact all_tracedDecodeWords sh hw.pos hN hbytes (h (count_of_ok hcommon).2).1
    · obtain ⟨commonvalue, payload, hbytes⟩ := he.header
      obtain ⟨common, hcommon, -⟩ := he
      exact (all_tracedToPtrWords_iff sh hw.pos hN hbytes hw.le n).mpr (h (count_of_ok hcommon).2).1

end Codec

/-- Every shift of the codec is in range exactly if the words are not all equal and, where a
word is as wide as its promoted type, begin with the same bit. In an array of more than
`2 ^ 31` words the index of the count turns negative before anything is shifted. -/
theorem sigbitsShifts_inRange_iff (en : Endian) (sh : FullShift) {w : Nat} (hw : WordWidth w)
    {pcb : PcBytes} (hpos : 1 ≤ pcb.npoints) (hroom : pcb.npoints * w ≤ pcb.bytes.length) :
    ShiftsInRange en sh w pcb ↔
      2147483648 < pcb.npoints ∨
        SomeDiffer ((wordsOf en w pcb.bytes).take pcb.npoints) ∧
          (w ≤ 2 ∨ SameLeadingBit ((wordsOf en w pcb.bytes).take pcb.npoints)) := by
  have hlen : pcb.npoints ≤ (wordsOf en w pcb.bytes).length := length_wordsOf_ge hw hroom
  have hne : (wordsOf en w pcb.bytes).take pcb.npoints ≠ [] := by
    rw [← List.length_pos_iff, List.length_take]
    omega
  have hlead := uniqueBits_lt_iff (by have := hw.pos; omega) hne
  have hN := uniqueBits_le ((wordsOf en w pcb.bytes).take pcb.npoints)
  rw [shiftsInRange_iff_uniqueBits hw hpos hroom, uniqueBits_pos_iff hne, ← hlead,
    imp_iff_not_or, Nat.not_le]
  refine or_congr_right (and_congr_right fun _ => ?_)
  rcases promoted_word hw with ⟨hnarrow, hwidth⟩ | ⟨hwide, hwidth⟩
  · rw [hwidth]
    omega
  · rw [hwidth]
    omega

/-- Two 32-bit words with a common first bit. -/
theorem sigbitsShifts_inRange_iff_witness :
    ShiftsInRange .little .trap 4 ⟨8, 2, .uint32, .none, false, [1, 0, 0, 0, 2, 0, 0, 0]⟩ := by
  have hwords : (wordsOf .little 4 [1, 0, 0, 0, 2, 0, 0, 0]).take 2 = [1, 2] := by decide +kernel
  have hdiffer : SomeDiffer ((wordsOf .little 4 [1, 0, 0, 0, 2, 0, 0, 0]).take 2) := by
    rw [hwords]
    exact ⟨1, by simp, 2, by simp, by decide⟩
  have hsame : SameLeadingBit ((wordsOf .little 4 [1, 0, 0, 0, 2, 0, 0, 0]).take 2) := by
    have hlead : ∀ x ∈ ([1, 2] : List (Word 4)), x.msb = false :=
      List.forall_mem_cons.mpr ⟨by decide, List.forall_mem_singleton.mpr (by decide)⟩
    rw [hwords]
    exact fun x hx y hy => (hlead x hx).trans (hlead y hy).symm
  exact (sigbitsShifts_inRange_iff .little .trap (.inr (.inr (.inl rfl))) (by decide)
    (by decide)).mpr (.inr ⟨hdiffer, .inr hsame⟩)

/-- Equal words shift the 64-bit mask of an access by 64, and the mask of the encoder by 32 if
they have 32 bits; where 32-bit words share no leading bit, the count ends with a shift by 32. -/
theorem sigbitsShifts_out_of_range :
    ¬ ShiftsInRange .little .zero 1 ⟨2, 2, .uint8, .none, false, [5, 5]⟩ ∧
      ⟨64, 64⟩ ∈ (tracedToPtrWords .zero .little 1 ⟨3, 2, .uint8, .sigbits, false,
        [0, 5, 0]⟩ 1).notes ∧
    ¬ ShiftsInRange .little .zero 4 ⟨8, 2, .uint32, .none, false, [7, 0, 0, 0, 7, 0, 0, 0]⟩ ∧
      ⟨32, 32⟩ ∈ (tracedEncodeWords .zero .little 4 sizeOut32
        ⟨8, 2, .uint32, .none, false, [7, 0, 0, 0, 7, 0, 0, 0]⟩ 7 32).notes ∧
    ¬ ShiftsInRange .little .zero 4 ⟨8, 2, .uint32, .none, false, [7, 0, 0, 0, 7, 0, 0, 128]⟩ ∧
      ⟨32, 32⟩ ∈ (tracedCountWords .zero 4
        (wordsOf .little 4 [7, 0, 0, 0, 7, 0, 0, 128]) 2).notes := by
  have hbytes : WordWidth 1 := .inl rfl
  have hwords : WordWidth 4 := .inr (.inr (.inl rfl))
  rw [shiftsInRange_iff_uniqueBits hbytes (by decide) (by decide),
    shiftsInRange_iff_uniqueBits hwords (by decide) (by decide),
    shiftsInRange_iff_uniqueBits hwords (by decide) (by decide)]
  refine ⟨?_, ?_, ?_, ?_, ?_, ?_⟩ <;> decide +kernel

end Pointcloud
