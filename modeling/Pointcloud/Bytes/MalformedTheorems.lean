/-
Pointcloud.Bytes.MalformedTheorems — decoding bytes that no encoder has written.

The bytes of an array that is read from WKB are whatever the sender put there. Decoding
them (`PcBytes.Decodes`) and searching them for their extremes (`PcBytes.Searchable`) stays
inside the array under conditions that nothing checks. Each function either returns
under its condition, reports an error where the encoding is none of the four, or reads or
writes beyond its memory, or aborts.

The conditions are those of the source read as a specification of its input:

* runs must have all values between them, and a run that has values must be whole; the
  search also looks at the values of runs that have none;
* bit-packed values need the two words of the head, no more unique bits than a word has,
  and as many packed words as the values take. Where a value has no bit of its own, the
  first of these words is read all the same;
* deflated values need a value, for zlib takes no null pointer to write to. What is
  deflated may be anything: what the inflater leaves stays zero.
-/
import Pointcloud.Bytes.AccessTheorems
import Pointcloud.Bytes.SilentTheorems
import Pointcloud.Bytes.YieldTheorems

namespace Pointcloud

open Pointcloud.Base

variable {P : Platform}

/-! ## Bit-packed values

A step of the unpacking loop stands in a word with some bits of it left, and reads the next
word as well where these do not suffice. So the loop reads as far as its values reach, and
the first word even where they have no bits. -/

section Unpack

variable {N : Nat} {words : List (BitVec N)} {nbits : Nat}

/-- The words that a step reads are there. -/
def StepReads (words : List (BitVec N)) (nbits : Nat) (st : ReadState) : Prop :=
  st.ptr < words.length ∧ (st.bit < nbits → st.ptr + 1 < words.length)

/-- A step that returns where the words are there, and moves on by the bits of a value. -/
structure StepsThrough (words : List (BitVec N)) (nbits : Nat) (Inv : ReadState → Prop)
    (step : ReadState → Run (BitVec N × ReadState)) : Prop where
  bit_le : ∀ st, Inv st → st.bit ≤ N
  isOk_iff : ∀ st, Inv st → ((∃ r, step st = .ok r) ↔ StepReads words nbits st)
  moves : ∀ st, Inv st → ∀ r, step st = .ok r →
    Inv r.2 ∧ r.2.pos N = st.pos N + nbits ∧ (nbits = 0 → r.2 = st)

/-- The steps of the decoders differ in what they do behind a value that lies in one word. They
read the same words, and shift by less than the width that the compiler computes in. -/
theorem step_isOk_iff {sh : FullShift} (hsh : sh ≠ .trap) {st : ReadState}
    {mask commonvalue : BitVec N} {inside : BitVec N → Run (BitVec N × ReadState)}
    (hbit : st.bit ≤ N) (hshift : st.bit < nbits → nbits - st.bit < promoted N) (hN : nbits ≤ N)
    (hinside : ∀ v, ∃ r, inside v = .ok r) :
    (∃ r, (do
      let val ← wordAt words st.ptr
      if nbits ≤ st.bit then
        let v ← cShr sh val (st.bit - nbits : Nat)
        inside v
      else
        let s := nbits - st.bit
        let upper ← cShl sh val s
        let val ← wordAt words (st.ptr + 1)
        let lower ← cShr sh val (N - s : Nat)
        return (upper &&& mask ||| commonvalue ||| lower &&& mask,
          (⟨st.ptr + 1, N - s⟩ : ReadState))) = .ok r) ↔ StepReads words nbits st := by
  have hpromoted := le_promoted N
  unfold StepReads
  by_cases hptr : st.ptr < words.length
  · rw [wordAt_ok hptr, ok_bind]
    by_cases hfit : nbits ≤ st.bit
    · -- the value lies in the word
      obtain ⟨v, hv⟩ := cShr_isOk hsh words[st.ptr] (show st.bit - nbits ≤ promoted N by omega)
      rw [if_pos hfit, hv, ok_bind]
      exact iff_of_true (hinside v) ⟨hptr, fun hlt => by omega⟩
    · -- the value goes on in the next word
      have hlt := Nat.not_le.mp hfit
      rw [if_neg hfit]
      simp only
      rw [cShl_ok sh _ (hshift hlt), ok_bind]
      by_cases hnext : st.ptr + 1 < words.length
      · rw [wordAt_ok hnext, ok_bind, cShr_ok sh _ (by omega), ok_bind]
        exact iff_of_true ⟨_, rfl⟩ ⟨hptr, fun _ => hnext⟩
      · rw [wordAt_fault (Nat.not_lt.mp hnext), fault_bind]
        exact iff_of_false (by simp) fun h => hnext (h.2 hlt)
  · rw [wordAt_fault (Nat.not_lt.mp hptr), fault_bind]
    exact iff_of_false (by simp) fun h => hptr h.1

/-- The step of the 16, 32 and 64-bit decoders, which never stands behind its last bit. -/
theorem unpackStep_stepsThrough {sh : FullShift} (hsh : sh ≠ .trap) (hpos : 0 < N) (hN : nbits ≤ N)
    (mask commonvalue : BitVec N) :
    StepsThrough words nbits (fun st => 0 < st.bit ∧ st.bit ≤ N)
      (unpackStep sh words nbits mask commonvalue) := by
  have hpromoted := le_promoted N
  refine ⟨fun st h => h.2, fun st h => ?_, fun st h r hr => ?_⟩
  · refine step_isOk_iff hsh h.2 (fun hlt => by omega) hN fun v => ?_
    split
    · exact ⟨_, rfl⟩
    · exact ⟨_, rfl⟩
  · obtain ⟨hbit, hbitN⟩ := h
    have hsucc : (st.ptr + 1) * N = st.ptr * N + N := Nat.succ_mul _ _
    obtain ⟨val, -, hr⟩ := bind_eq_ok.mp hr
    unfold ReadState.pos
    split at hr
    · obtain ⟨v, -, hr⟩ := bind_eq_ok.mp hr
      split at hr
      · -- the word is used up, and the next one begins
        cases hr
        simp only [hsucc]
        exact ⟨⟨hpos, Nat.le_refl N⟩, by omega, fun hzero => by omega⟩
      · cases hr
        refine ⟨⟨by simp only; omega, by simp only; omega⟩, by simp only; omega, fun hzero => ?_⟩
        rw [hzero, Nat.sub_zero]
    · obtain ⟨upper, -, hr⟩ := bind_eq_ok.mp hr
      obtain ⟨next, -, hr⟩ := bind_eq_ok.mp hr
      obtain ⟨lower, -, hr⟩ := bind_eq_ok.mp hr
      cases hr
      simp only [hsucc]
      exact ⟨⟨by omega, by omega⟩, by omega, fun hzero => by omega⟩

/-- The step of the 8-bit decoder, which may stand behind the last bit of a word. It then shifts
by the whole word, which an `int` has room for. -/
theorem unpackStep8_stepsThrough {sh : FullShift} (hsh : sh ≠ .trap) (hnarrow : N < promoted N)
    (hN : nbits ≤ N) (mask commonvalue : BitVec N) :
    StepsThrough words nbits (fun st => st.bit ≤ N)
      (unpackStep8 sh words nbits mask commonvalue) := by
  refine ⟨fun st h => h, fun st hbitN => ?_, fun st hbitN r hr => ?_⟩
  · exact step_isOk_iff hsh hbitN (fun _ => by omega) hN fun v => ⟨_, rfl⟩
  · have hsucc : (st.ptr + 1) * N = st.ptr * N + N := Nat.succ_mul _ _
    obtain ⟨val, -, hr⟩ := bind_eq_ok.mp hr
    unfold ReadState.pos
    split at hr
    · obtain ⟨v, -, hr⟩ := bind_eq_ok.mp hr
      cases hr
      refine ⟨by simp only; omega, by simp only; omega, fun hzero => ?_⟩
      rw [hzero, Nat.sub_zero]
    · obtain ⟨upper, -, hr⟩ := bind_eq_ok.mp hr
      obtain ⟨next, -, hr⟩ := bind_eq_ok.mp hr
      obtain ⟨lower, -, hr⟩ := bind_eq_ok.mp hr
      cases hr
      simp only [hsucc]
      exact ⟨by omega, by omega, fun hzero => by omega⟩

/-- The words that a step reads are those up to the end of its value. -/
theorem stepReads_iff {st : ReadState} (hbit : st.bit ≤ N) (hN : nbits ≤ N) :
    StepReads words nbits st ↔ st.ptr < words.length ∧ st.pos N + nbits ≤ words.length * N := by
  have hsucc : (st.ptr + 1) * N = st.ptr * N + N := Nat.succ_mul _ _
  have hsucc' : (st.ptr + 1 + 1) * N = (st.ptr + 1) * N + N := Nat.succ_mul _ _
  unfold StepReads ReadState.pos
  refine and_congr_right fun hptr => ⟨fun hnext => ?_, fun hroom hlt => ?_⟩
  · by_cases hfit : st.bit < nbits
    · have : (st.ptr + 1 + 1) * N ≤ words.length * N := Nat.mul_le_mul_right N (hnext hfit)
      omega
    · have : (st.ptr + 1) * N ≤ words.length * N := Nat.mul_le_mul_right N hptr
      omega
  · by_contra hge
    have := Nat.mul_le_mul_right N (Nat.not_lt.mp hge)
    omega

/-- The loop returns where the words are there that its values take, by induction on the
number of values. -/
theorem unpackLoop_isOk_iff {Inv : ReadState → Prop}
    {step : ReadState → Run (BitVec N × ReadState)} (h : StepsThrough words nbits Inv step)
    (hN : nbits ≤ N) :
    ∀ (n : Nat) (st : ReadState), Inv st → ((∃ out, unpackLoop step n st = .ok out) ↔
      (n ≠ 0 → st.ptr < words.length ∧ st.pos N + n * nbits ≤ words.length * N))
  | 0, st, _ => iff_of_true ⟨[], rfl⟩ fun hne => absurd rfl hne
  | n + 1, st, hinv => by
      have hstep := h.isOk_iff st hinv
      rw [stepReads_iff (h.bit_le st hinv) hN] at hstep
      rw [Nat.succ_mul]
      constructor
      · rintro ⟨out, hout⟩ -
        obtain ⟨⟨val, st'⟩, hval, hout⟩ := bind_eq_ok.mp hout
        obtain ⟨rest, hrest, -⟩ := bind_eq_ok.mp hout
        obtain ⟨hinv', hpos, -⟩ := h.moves st hinv _ hval
        obtain ⟨hptr, hroom⟩ := hstep.mp ⟨_, hval⟩
        refine ⟨hptr, ?_⟩
        by_cases hzero : n = 0
        · rw [hzero]
          omega
        · have hbehind := ((unpackLoop_isOk_iff h hN n st' hinv').mp ⟨rest, hrest⟩ hzero).2
          simp only at hpos
          omega
      · intro hroom
        obtain ⟨hptr, hroom⟩ := hroom (Nat.succ_ne_zero n)
        obtain ⟨⟨val, st'⟩, hval⟩ := hstep.mpr ⟨hptr, by omega⟩
        obtain ⟨hinv', hpos, hstay⟩ := h.moves st hinv _ hval
        simp only at hinv' hpos hstay
        obtain ⟨rest, hrest⟩ := (unpackLoop_isOk_iff h hN n st' hinv').mpr fun hne => by
          refine ⟨?_, by omega⟩
          by_cases hzero : nbits = 0
          · -- without bits the step stays where it is
            rw [hstay hzero]
            exact hptr
          · by_contra hge
            have hbits := Nat.mul_pos (Nat.pos_of_ne_zero hne) (Nat.pos_of_ne_zero hzero)
            have := Nat.mul_le_mul_right N (Nat.not_lt.mp hge)
            have hle : st'.ptr * N ≤ st'.pos N := Nat.le_add_right _ _
            omega
        exact ⟨val :: rest, by rw [unpackLoop, hval, ok_bind]; simp only; rw [hrest]; rfl⟩

/-- The step of every width, from the start of the payload. -/
theorem unpackStepOf_stepsThrough {sh : FullShift} (hsh : sh ≠ .trap) {w : Nat} (hw : WordWidth w)
    (payload : List (Word w)) (hN : nbits ≤ 8 * w) (mask commonvalue : Word w) :
    ∃ Inv, StepsThrough payload nbits Inv (unpackStepOf sh w payload nbits mask commonvalue) ∧
      Inv ⟨0, 8 * w⟩ := by
  have hpos := hw.pos
  unfold unpackStepOf
  split
  · next hone =>
      subst hone
      exact ⟨_, unpackStep8_stepsThrough hsh (by decide) hN mask commonvalue, Nat.le_refl _⟩
  · exact ⟨_, unpackStep_stepsThrough hsh (by omega) hN mask commonvalue,
      by simp only; omega, Nat.le_refl _⟩

theorem length_of_unpackLoop {step : ReadState → Run (BitVec N × ReadState)} :
    ∀ {n : Nat} {st : ReadState} {out : List (BitVec N)}, unpackLoop step n st = .ok out →
      out.length = n
  | 0, _, out, h => by
      cases h
      rfl
  | n + 1, st, out, h => by
      obtain ⟨⟨val, st'⟩, -, h⟩ := bind_eq_ok.mp h
      obtain ⟨rest, hrest, h⟩ := bind_eq_ok.mp h
      cases h
      rw [List.length_cons, length_of_unpackLoop hrest]

end Unpack

/-- The two words of the head and the payload hold what the number of values and the number
of unique bits ask for. -/
structure PcBytes.BitsHeld (en : Endian) (e : PcBytes) : Prop where
  head : 2 * e.width ≤ e.bytes.length
  -- a larger number makes the shift of the mask negative
  nbits_le : e.nbits en ≤ 8 * e.width
  -- the loop counts with an `int`
  int_le : e.npoints ≤ 2147483648
  -- the first word of the payload is read for any value, with bits of its own or not
  payload : e.npoints ≠ 0 → 2 < e.bytes.length / e.width ∧
    e.npoints * e.nbits en ≤ (e.bytes.length / e.width - 2) * (8 * e.width)

/-- Unpacking returns where all words are there that the numbers of values and of bits make it
read. -/
theorem pcBytesSigbitsDecode_isOk_iff (en : Endian) {sh : FullShift} (hsh : sh ≠ .trap)
    {e : PcBytes} (hknown : e.interpretation ≠ .unknown) :
    (∃ d, pcBytesSigbitsDecode en sh e = .ok d) ↔ e.BitsHeld en := by
  have hw := wordWidth_of_known hknown
  have hhead : 2 * e.width ≤ e.bytes.length ↔ 2 ≤ (wordsOf en e.width e.bytes).length := by
    rw [length_wordsOf, Nat.le_div_iff_mul_le hw.pos]
  have hfirst : ∀ {nbits : Word e.width}, wordAt (wordsOf en e.width e.bytes) 0 = .ok nbits →
      nbits.toNat = e.nbits en := by
    intro nbits h
    rw [PcBytes.nbits, List.getD_eq_getElem?_getD, wordAt_eq_ok.mp h, Option.getD_some]
  -- the loop, with the numbers of the head
  have hloop : ∀ (mask commonvalue : Word e.width), e.nbits en ≤ 8 * e.width →
      ((∃ out, unpackLoop (unpackStepOf sh e.width ((wordsOf en e.width e.bytes).drop 2)
        (e.nbits en) mask commonvalue) e.npoints ⟨0, 8 * e.width⟩ = .ok out) ↔
      (e.npoints ≠ 0 → 2 < e.bytes.length / e.width ∧
        e.npoints * e.nbits en ≤ (e.bytes.length / e.width - 2) * (8 * e.width))) := by
    intro mask commonvalue hbits
    obtain ⟨Inv, hsteps, hstart⟩ := unpackStepOf_stepsThrough hsh hw
      ((wordsOf en e.width e.bytes).drop 2) hbits mask commonvalue
    rw [unpackLoop_isOk_iff hsteps hbits e.npoints _ hstart, List.length_drop, length_wordsOf]
    simp only [ReadState.pos, Nat.zero_mul, Nat.sub_self, Nat.zero_add, Nat.sub_pos_iff_lt]
  rw [pcBytesSigbitsDecode_eq en sh hw rfl]
  constructor
  · -- each part is what one of the steps of the decoder has got through
    rintro ⟨d, h⟩
    obtain ⟨nbits, hnbits, h⟩ := bind_eq_ok.mp h
    obtain ⟨commonvalue, hcommon, h⟩ := bind_eq_ok.mp h
    obtain ⟨mask, hmask, h⟩ := bind_eq_ok.mp h
    obtain ⟨_, hint, h⟩ := bind_eq_ok.mp h
    obtain ⟨out, hout, -⟩ := bind_eq_ok.mp h
    rw [hfirst hnbits] at hmask hout
    have hbits : e.nbits en ≤ 8 * e.width := by
      by_contra hlarge
      rw [cShr, if_pos (by omega)] at hmask
      exact fault_ne_ok mask hmask
    have hlen := (List.getElem?_eq_some_iff.mp (wordAt_eq_ok.mp hcommon)).1
    exact ⟨hhead.mpr hlen, hbits, intLoop_eq_ok.mp hint, (hloop _ _ hbits).mp ⟨out, hout⟩⟩
  · intro h
    have hlen := hhead.mp h.head
    obtain ⟨mask, hmask, -⟩ := cShr_mask hsh h.nbits_le
    have hnbits : wordAt (wordsOf en e.width e.bytes) 0 = .ok _ := wordAt_ok (by omega)
    have hcommon : wordAt (wordsOf en e.width e.bytes) 1 = .ok _ := wordAt_ok hlen
    obtain ⟨out, hout⟩ := (hloop mask (wordsOf en e.width e.bytes)[1] h.nbits_le).mpr h.payload
    refine ⟨{ e with size := e.width * e.npoints, bytes := bytesOfWords en out,
                     compression := .none, readonly := false }, ?_⟩
    unfold sigbitsDecodeWords
    simp only
    rw [hnbits, ok_bind, hcommon, ok_bind, hfirst hnbits, hmask, ok_bind, intLoop_ok h.int_le,
      ok_bind, hout, ok_bind, pure_eq_ok]

/-! ## Runs

A walk looks at an entry where the pointer is in front of the end, so an entry has its count,
but not always all of its value. The decoder reads the value of a run that has values, and
writes them into a block for as many as there are points, if the counts, added up in 32 bits,
say so. The search reads the value of every entry. -/

section Runs

variable {e : PcBytes} (hsize : e.size ≤ e.bytes.length)

include hsize

/-- A walk stays in front of the end. -/
theorem ne_nil_of_mem_rleEntries {entry : Bytes} (h : entry ∈ rleEntries e) : entry ≠ [] := by
  rw [rleEntries, records_eq_map] at h
  obtain ⟨i, hi, rfl⟩ := List.mem_map.mp h
  have hbefore : i * (e.width + 1) < e.size := by
    have hi : i + 1 ≤ (e.size + e.width) / (e.width + 1) := List.mem_range.mp hi
    rw [Nat.le_div_iff_mul_le e.width.succ_pos, Nat.add_one_mul] at hi
    rw [Nat.succ_eq_add_one] at hi
    omega
  rw [← List.length_pos_iff, List.length_take, List.length_drop]
  omega

theorem entryCount_ok {entry : Bytes} (h : entry ∈ rleEntries e) :
    entryCount entry = .ok (entry.headD 0).toNat := by
  cases entry with
  | nil => exact absurd rfl (ne_nil_of_mem_rleEntries hsize h)
  | cons count value => rfl

end Runs

/-- The runs have as many values as there are points, and those with values are whole. -/
structure PcBytes.RunsHeld (e : PcBytes) : Prop where
  sum_eq : (e.runsOf.map Prod.fst).sum = e.npoints
  whole : ∀ r ∈ e.runsOf, r.1 ≠ 0 → r.2.length = e.width

/-- Runs are decoded where they have the right number of values, all of them whole. -/
theorem pcBytesRunLengthDecode_isOk_iff {e : PcBytes} (hc : e.compression = .rle)
    (hsize : e.size ≤ e.bytes.length) (hnp : e.npoints < 4294967296) :
    (∃ d, pcBytesRunLengthDecode e = .ok d) ↔ e.RunsHeld := by
  constructor
  · rintro ⟨d, hd⟩
    obtain ⟨-, hheld, hlen, -⟩ := heldRuns_of_decode hd
    refine ⟨?_, fun r hr hne => (hheld r ?_).2⟩
    · -- runs without values do not count
      rw [← length_expand, ← expand_filter_pos]
      exact hlen
    · exact List.mem_filter.mpr ⟨hr, by simpa using Nat.pos_of_ne_zero hne⟩
  · rintro ⟨hsum, hwhole⟩
    -- the counts are read from all entries, the values from those that have some
    have hcounts : (rleEntries e).mapM entryCount = .ok (e.runsOf.map Prod.fst) := by
      rw [PcBytes.runsOf, List.map_map]
      exact mapM_eq_ok_map fun entry hentry => entryCount_ok hsize hentry
    have hvalues : (rleEntries e).mapM (entryValues e.width) =
        .ok (e.runsOf.map fun r => List.replicate r.1 r.2) := by
      rw [PcBytes.runsOf, List.map_map]
      refine mapM_eq_ok_map fun entry hentry => ?_
      rw [entryValues, entryCount_ok hsize hentry, ok_bind]
      split
      · next hzero =>
          simp only [Function.comp_apply, hzero, List.replicate_zero, pure_eq_ok]
      · next hne =>
          have hlen := hwhole _ (List.mem_map_of_mem hentry) hne
          have hpos := List.length_pos_iff.mpr (ne_nil_of_mem_rleEntries hsize hentry)
          rw [List.length_tail] at hlen
          rw [entryValue, if_pos (by omega), ok_bind, pure_eq_ok]
          rfl
    have hflat : (e.runsOf.map fun r => List.replicate r.1 r.2).flatten = expand e.runsOf := by
      rw [expand, List.flatMap_def]
    have hlen : (expand e.runsOf).length = e.npoints := by rw [length_expand, hsum]
    exact ⟨_, by
      rw [pcBytesRunLengthDecode, assertThat_true hc, ok_bind, hcounts, ok_bind,
        assertThat_true (by rw [hsum, uint32_of_lt hnp]), ok_bind, hvalues, ok_bind, hflat,
        if_pos (Nat.le_of_eq hlen), pure_eq_ok]⟩

/-- Runs are searched where each is whole, those without values too. -/
theorem pcBytesRunLengthMinmax_isOk_iff (en : Endian) {e : PcBytes}
    (hknown : e.interpretation ≠ .unknown) (hsize : e.size ≤ e.bytes.length) :
    (∃ m, pcBytesRunLengthMinmax en e = .ok m) ↔ ∀ r ∈ e.runsOf, r.2.length = e.width := by
  have hentry : ∀ entry ∈ rleEntries e, (∃ r, (do
      let count ← entryCount entry
      let d ← pcDoubleFromPtr en entry 1 e.interpretation
      return (count, d)) = (.ok r : Run (Nat × ℚ))) ↔ entry.tail.length = e.width := by
    intro entry hentry
    have hpos := List.length_pos_iff.mpr (ne_nil_of_mem_rleEntries hsize hentry)
    have hle := length_of_mem_rleEntries hentry
    rw [entryCount_ok hsize hentry, ok_bind, List.length_tail]
    by_cases hwhole : 1 + e.interpretation.size ≤ entry.length
    · have hread : pcDoubleFromPtr en entry (1 : Nat) e.interpretation = .ok _ :=
        pcDoubleFromPtr_ok hknown hwhole
      rw [Nat.cast_one] at hread
      rw [hread, ok_bind, pure_eq_ok]
      exact iff_of_true ⟨_, rfl⟩ (by rw [PcBytes.width] at hle ⊢; omega)
    · rw [pcDoubleFromPtr, if_neg hknown, readAt_fault (Nat.ne_of_gt (Interpretation.size_pos _))
        (.inr (by omega)), fault_bind, fault_bind]
      exact iff_of_false (by simp) (by rw [PcBytes.width]; omega)
  rw [PcBytes.runsOf, List.forall_mem_map, ← forall₂_congr hentry, ← mapM_isOk_iff]
  constructor
  · rintro ⟨m, hm⟩
    obtain ⟨runs, hruns, -⟩ := bind_eq_ok.mp hm
    exact ⟨runs, hruns⟩
  · rintro ⟨runs, hruns⟩
    exact ⟨_, by rw [pcBytesRunLengthMinmax, hruns, ok_bind, pure_eq_ok]⟩

/-! ## All encodings -/

/-- An array as it is read from WKB: of a known type, with all of its block in use. -/
structure PcBytes.Received (e : PcBytes) : Prop where
  known : e.interpretation ≠ .unknown
  size_eq : e.size = e.bytes.length
  npoints_lt : e.npoints < 4294967296

/-- What decoding an array asks of it. A plain array is copied as it is, whatever its size. -/
def PcBytes.Decodes (en : Endian) (e : PcBytes) : Prop :=
  match e.compression with
  | .none => True
  | .rle => e.RunsHeld
  | .sigbits => e.BitsHeld en
  | .zlib => e.npoints ≠ 0
  | .unknown _ => False

/-- What the search for the extremes of an array asks of it. All values are looked at, through an
`int` offset where they are plain. -/
def PcBytes.Searchable (en : Endian) (e : PcBytes) : Prop :=
  match e.compression with
  | .none => e.npoints * e.width ≤ 2147483648 ∧ e.npoints * e.width ≤ e.bytes.length
  | .rle => ∀ r ∈ e.runsOf, r.2.length = e.width
  | .sigbits | .zlib => e.Decodes en ∧ e.npoints * e.width ≤ 2147483648
  | .unknown _ => False

theorem not_raises_pcDoubleFromPtr {en : Endian} {block : Bytes} {off : Int} {i : Interpretation}
    (h : i ≠ .unknown) : ¬ Raises (pcDoubleFromPtr en block off i) := by
  rw [pcDoubleFromPtr, if_neg h]
  exact not_raises_bind (not_raises_readAt _ _ _) fun _ => not_raises_ok _

section Received

variable {e : PcBytes} (h : e.Received)

include h

/-- zlib may be given anything, but not a buffer for no bytes. -/
theorem pcBytesZlibDecode_isOk_iff : (∃ d, pcBytesZlibDecode P e = .ok d) ↔ e.npoints ≠ 0 := by
  have hwidth := Interpretation.size_le h.known
  have hsize : e.width * e.npoints < 9223372036854775808 := by
    have := Nat.mul_le_mul_right e.npoints (show e.width ≤ 8 from hwidth)
    have := h.npoints_lt
    omega
  have hne : e.width * e.npoints ≠ 0 ↔ e.npoints ≠ 0 := by
    rw [Nat.mul_ne_zero_iff]
    exact and_iff_right (Nat.ne_of_gt e.width_pos)
  have hread : readAt e.bytes 0 (uint32 e.size) = .ok (e.bytes.take (uint32 e.size)) := by
    have hle : 0 + uint32 e.size ≤ e.bytes.length := by
      rw [Nat.zero_add, ← h.size_eq]
      exact Nat.mod_le _ _
    have := readAt_ok hle
    rwa [List.drop_zero] at this
  rw [pcBytesZlibDecode]
  simp only [pcalloc_ok hsize, ok_bind, hread]
  by_cases hzero : e.npoints = 0
  · exact iff_of_false (by simp [assertThat, hzero]) (not_not_intro hzero)
  · rw [assertThat_true (hne.mpr hzero), ok_bind]
    exact iff_of_true ⟨_, rfl⟩ hzero

/-- Decoding returns exactly under `PcBytes.Decodes`. -/
theorem pcBytesDecode_isOk_iff : (∃ d, pcBytesDecode P e = .ok d) ↔ e.Decodes P.endian := by
  have hsize := Nat.le_of_eq h.size_eq
  unfold pcBytesDecode PcBytes.Decodes
  cases hc : e.compression with
  | none => exact iff_of_true ⟨_, pcBytesClone_ok hsize⟩ trivial
  | rle => exact pcBytesRunLengthDecode_isOk_iff hc hsize h.npoints_lt
  | sigbits => exact pcBytesSigbitsDecode_isOk_iff P.endian P.shift_ne_trap h.known
  | zlib => exact pcBytesZlibDecode_isOk_iff h
  | unknown code => exact iff_of_false (by simp) id

/-- What decoding writes has room for all values. -/
theorem room_of_pcBytesDecode {d : PcBytes} (hd : pcBytesDecode P e = .ok d)
    (hc : e.compression ≠ .none) : e.npoints * e.width ≤ d.bytes.length := by
  have hw := wordWidth_of_known h.known
  obtain ⟨hdn, hinterp, -⟩ := pcBytesDecode_fields hd
  unfold pcBytesDecode at hd
  split at hd
  · -- the block is the values that the runs have
    obtain ⟨-, hheld, hlen, hvalues⟩ := heldRuns_of_decode hd
    have hwidth : ∀ v ∈ d.values, v.length = e.width := by
      intro v hv
      rw [hvalues] at hv
      obtain ⟨r, hr, rfl⟩ := mem_expand hv
      exact (hheld r hr).2
    have htotal := length_flatten_of_width hwidth
    rw [d.length_values, PcBytes.values, flatten_records, List.length_take, hdn] at htotal
    rw [← htotal]
    exact Nat.min_le_right _ _
  · rw [pcBytesSigbitsDecode_eq P.endian P.shift hw rfl] at hd
    obtain ⟨nbits, -, hd⟩ := bind_eq_ok.mp hd
    obtain ⟨commonvalue, -, hd⟩ := bind_eq_ok.mp hd
    obtain ⟨mask, -, hd⟩ := bind_eq_ok.mp hd
    obtain ⟨_, -, hd⟩ := bind_eq_ok.mp hd
    obtain ⟨out, hout, hd⟩ := bind_eq_ok.mp hd
    cases hd
    -- one word for each turn of the loop
    rw [length_bytesOfWords, length_of_unpackLoop hout]
  · obtain ⟨block, hblock, hd⟩ := bind_eq_ok.mp hd
    obtain ⟨_, -, hd⟩ := bind_eq_ok.mp hd
    obtain ⟨input, -, hd⟩ := bind_eq_ok.mp hd
    cases hd
    -- what is inflated is written over the front of a buffer for all values
    have hlen := length_of_pcalloc hblock
    rw [List.length_append, List.length_drop, hlen, Nat.mul_comm]
    omega
  · next hnone => exact absurd hnone hc
  · exact absurd hd (raise_ne_ok _ d)

omit h in
/-- Bit-packed and deflated values are decoded first. -/
theorem pcBytesMinmax_decoded (hc : e.compression = .sigbits ∨ e.compression = .zlib) :
    pcBytesMinmax P e = pcBytesDecode P e >>= pcBytesUncompressedMinmax P.endian := by
  unfold pcBytesMinmax pcBytesDecode
  rcases hc with hc | hc <;> rw [hc] <;> rfl

/-- The search, as decoding, reports no more than an encoding that there is not. -/
theorem raises_pcBytesMinmax_iff : Raises (pcBytesMinmax P e) ↔ e.knownEncoding = false := by
  have hplain : ∀ pcb : PcBytes, pcb.interpretation = e.interpretation →
      ¬ Raises (pcBytesUncompressedMinmax P.endian pcb) := fun pcb hinterp =>
    not_raises_bind (not_raises_mapM fun i => not_raises_pcDoubleFromPtr (hinterp ▸ h.known))
      fun _ => not_raises_ok _
  have hdecoded : e.compression = .sigbits ∨ e.compression = .zlib →
      (Raises (pcBytesMinmax P e) ↔ e.knownEncoding = false) := by
    intro hc
    rw [pcBytesMinmax_decoded hc, raises_bind, raises_pcBytesDecode_iff P h.known]
    refine or_iff_left fun hsearch => ?_
    obtain ⟨d, hd, hraises⟩ := hsearch
    exact hplain d (pcBytesDecode_fields hd).2.1 hraises
  cases hc : e.compression with
  | none =>
      rw [pcBytesMinmax, hc, PcBytes.knownEncoding, hc]
      exact iff_of_false (hplain e rfl) (by simp)
  | rle =>
      rw [pcBytesMinmax, hc, PcBytes.knownEncoding, hc]
      refine iff_of_false (not_raises_bind (not_raises_mapM fun entry => ?_)
        fun _ => not_raises_ok _) (by simp)
      exact not_raises_bind (not_raises_entryCount entry) fun _ =>
        not_raises_bind (not_raises_pcDoubleFromPtr h.known) fun _ => not_raises_ok _
  | sigbits => exact hdecoded (.inl hc)
  | zlib => exact hdecoded (.inr hc)
  | unknown code =>
      rw [pcBytesMinmax, hc, PcBytes.knownEncoding, hc]
      exact iff_of_true (raises_raise _) rfl

/-- The search returns exactly under `PcBytes.Searchable`. -/
theorem pcBytesMinmax_received_iff :
    (∃ m, pcBytesMinmax P e = .ok m) ↔ e.Searchable P.endian := by
  have hdecoded : e.compression = .sigbits ∨ e.compression = .zlib →
      ((∃ m, pcBytesMinmax P e = .ok m) ↔
        e.Decodes P.endian ∧ e.npoints * e.width ≤ 2147483648) := by
    intro hc
    have hsearch : ∀ d, pcBytesDecode P e = .ok d →
        ((∃ m, pcBytesUncompressedMinmax P.endian d = .ok m) ↔
          e.npoints * e.width ≤ 2147483648) := by
      intro d hd
      obtain ⟨hdn, hinterp, -⟩ := pcBytesDecode_fields hd
      have hroom := room_of_pcBytesDecode h hd (by rcases hc with hc | hc <;> simp [hc])
      rw [pcBytesUncompressedMinmax_isOk_iff P.endian (hinterp ▸ h.known), hdn, PcBytes.width,
        hinterp, ← PcBytes.width]
      exact and_iff_left hroom
    rw [pcBytesMinmax_decoded hc, ← pcBytesDecode_isOk_iff h]
    -- what was decoded has room for all values, so only the `int` is left
    constructor
    · rintro ⟨m, hm⟩
      obtain ⟨d, hd, hm⟩ := bind_eq_ok.mp hm
      exact ⟨⟨d, hd⟩, (hsearch d hd).mp ⟨m, hm⟩⟩
    · rintro ⟨⟨d, hd⟩, hint⟩
      obtain ⟨m, hm⟩ := (hsearch d hd).mpr hint
      exact ⟨m, bind_eq_ok.mpr ⟨d, hd, hm⟩⟩
  unfold PcBytes.Searchable
  cases hc : e.compression with
  | none =>
      rw [pcBytesMinmax, hc]
      exact pcBytesUncompressedMinmax_isOk_iff P.endian h.known
  | rle =>
      rw [pcBytesMinmax, hc]
      exact pcBytesRunLengthMinmax_isOk_iff P.endian h.known (Nat.le_of_eq h.size_eq)
  | sigbits => exact hdecoded (.inl hc)
  | zlib => exact hdecoded (.inr hc)
  | unknown code =>
      rw [pcBytesMinmax, hc]
      exact iff_of_false (by simp) id

end Received

end Pointcloud
