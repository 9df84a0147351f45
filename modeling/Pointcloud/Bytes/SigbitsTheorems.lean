/-
Pointcloud.Bytes.SigbitsTheorems — the significant-bits encoding loses
nothing.

The argument has three parts. The common bits: every word is the common bits
or-ed with its own low bits (`sigbitsCountWords_spec`). The packer: with
enough room, value `k` becomes the field at position `k * nbits` of the
payload, and without it the last writes leave the buffer (`packLoop_ok`,
`packLoop_fault`); the size the encoders allocate is enough exactly while
`nbits * npoints` does not wrap. The unpacker: at a position of the stream
each of the two decoding steps returns the field there and moves on by
`nbits` (`unpackStep_ok`, `unpackStep8_ok`).

`Packed` is the relation in the middle: what the packer establishes and all
that any reader of the payload needs to know.
-/
import Pointcloud.Bytes.Sigbits

namespace Pointcloud

open Pointcloud.Base

variable {N : Nat}

/-! ## The common bits -/

/-- The loop stops where the two words agree. -/
theorem commonbitsLoop_spec (a o : BitVec N) (c : Nat) (h : a >>> c = o >>> c) :
    (commonbitsLoop a o c).2 ≤ c ∧
    (commonbitsLoop a o c).1 = a >>> (c - (commonbitsLoop a o c).2) ∧
    a >>> (c - (commonbitsLoop a o c).2) = o >>> (c - (commonbitsLoop a o c).2) := by
  induction c generalizing a o with
  | zero => simpa [commonbitsLoop] using h
  | succ c ih =>
      unfold commonbitsLoop
      by_cases heq : a = o
      · simp [heq]
      · have hshift : a >>> 1 >>> c = o >>> 1 >>> c := by
          rw [← BitVec.shiftRight_add, ← BitVec.shiftRight_add, Nat.add_comm 1 c, h]
        obtain ⟨hle, hfst, hagree⟩ := ih (a >>> 1) (o >>> 1) hshift
        rw [if_neg heq]
        have hsub : c + 1 - (commonbitsLoop (a >>> 1) (o >>> 1) c).2
            = 1 + (c - (commonbitsLoop (a >>> 1) (o >>> 1) c).2) := by omega
        refine ⟨by omega, ?_, ?_⟩
        · rw [hsub, BitVec.shiftRight_add, ← hfst]
        · rw [hsub, BitVec.shiftRight_add, BitVec.shiftRight_add, hagree]

theorem getLsbD_foldl_and (i : Nat) : ∀ (xs : List (BitVec N)) (x : BitVec N),
    (xs.foldl (· &&& ·) x).getLsbD i = (x.getLsbD i && xs.all fun y => y.getLsbD i)
  | [], x => by simp
  | y :: ys, x => by
      rw [List.foldl_cons, getLsbD_foldl_and i ys, BitVec.getLsbD_and, List.all_cons,
        Bool.and_assoc]

theorem getLsbD_foldl_or (i : Nat) : ∀ (xs : List (BitVec N)) (x : BitVec N),
    (xs.foldl (· ||| ·) x).getLsbD i = (x.getLsbD i || xs.any fun y => y.getLsbD i)
  | [], x => by simp
  | y :: ys, x => by
      rw [List.foldl_cons, getLsbD_foldl_or i ys, BitVec.getLsbD_or, List.any_cons,
        Bool.or_assoc]

/-- Where conjunction and disjunction of an array agree, all its words agree with them. -/
theorem ushiftRight_eq_of_and_or {first : BitVec N} {xs : List (BitVec N)} {b : Nat}
    (h : xs.foldl (· &&& ·) first >>> b = xs.foldl (· ||| ·) first >>> b) {x : BitVec N}
    (hx : x ∈ xs) : x >>> b = xs.foldl (· &&& ·) first >>> b := by
  apply BitVec.eq_of_getLsbD_eq
  intro i hi
  have hbit := congrArg (fun v => v.getLsbD i) h
  simp only [BitVec.getLsbD_ushiftRight, getLsbD_foldl_and, getLsbD_foldl_or] at hbit ⊢
  cases hxi : x.getLsbD (b + i) with
  | true =>
      have hany : (xs.any fun y => y.getLsbD (b + i)) = true := List.any_eq_true.mpr ⟨x, hx, hxi⟩
      rw [hbit, hany, Bool.or_true]
  | false =>
      have hall : (xs.all fun y => y.getLsbD (b + i)) = false := by
        rw [List.all_eq_false]
        exact ⟨x, hx, by simp [hxi]⟩
      rw [hall, Bool.and_false]

/-- A word is its upper bits and its `b` low bits. -/
theorem eq_low_or_upper {x a : BitVec N} {b : Nat} (hb : b ≤ N) (h : x >>> b = a >>> b) :
    x = x &&& lowMask N b ||| (a >>> b) <<< b := by
  rw [← h]
  apply BitVec.eq_of_getLsbD_eq
  intro i hi
  rw [BitVec.getLsbD_or, BitVec.getLsbD_and, getLsbD_lowMask hb, BitVec.getLsbD_shiftLeft,
    BitVec.getLsbD_ushiftRight]
  by_cases hib : i < b
  · simp [hib]
  · have hidx : b + (i - b) = i := by omega
    simp [hib, hi, hidx]

/-- The shift that puts the common bits back in place. -/
theorem cShl_upper {sh : FullShift} (hsh : sh ≠ .trap) (a : BitVec N) {b : Nat} (hb : b ≤ N) :
    cShl sh (a >>> b) (b : Int) = .ok ((a >>> b) <<< b) := by
  by_cases hfull : b = promoted N
  · have hle := le_promoted N
    have hzero : a >>> b = 0 := BitVec.ushiftRight_eq_zero (by omega)
    have hshl : cShl sh (0 : BitVec N) (b : Int) = .ok 0 := cShl_zero hsh (by omega)
    rw [hzero, hshl]
    simp
  · have hle := le_promoted N
    exact cShl_ok sh _ (by omega)

theorem commonbitsLoop_self (a : BitVec N) : ∀ c, commonbitsLoop a a c = (a, c)
  | 0 => rfl
  | c + 1 => by rw [commonbitsLoop, if_pos rfl]

/-- How many bits the words do not have in common. -/
def uniqueBits (xs : List (BitVec N)) : Nat :=
  N - (commonbitsLoop (xs.foldl (· &&& ·) (xs.headD 0)) (xs.foldl (· ||| ·) (xs.headD 0)) N).2

theorem uniqueBits_le (xs : List (BitVec N)) : uniqueBits xs ≤ N := Nat.sub_le _ _

/-- The first word of the array takes part, also where no word is counted. -/
theorem uniqueBits_take {words : List (BitVec N)} (hne : 0 < words.length) (n : Nat) :
    uniqueBits (words.take n) =
      N - (commonbitsLoop ((words.take n).foldl (· &&& ·) words[0])
        ((words.take n).foldl (· ||| ·) words[0]) N).2 := by
  unfold uniqueBits
  match n with
  | 0 => simp [commonbitsLoop_self]
  | n + 1 =>
      have hhead : (words.take (n + 1)).headD 0 = words[0] := by
        cases words with
        | nil => simp at hne
        | cons x xs => rfl
      rw [hhead]

/-- What counting returns: every word is the common value or-ed with its unique bits. -/
theorem sigbitsCountWords_spec {sh : FullShift} (hsh : sh ≠ .trap) {w : Nat}
    {words : List (Word w)} {npoints : Nat} (hne : 0 < words.length)
    (hlen : npoints ≤ words.length) (hint : npoints ≤ 2147483648) :
    ∃ commonvalue, sigbitsCountWords sh w words npoints =
        .ok (commonvalue, 8 * w - uniqueBits (words.take npoints)) ∧
      ∀ x ∈ words.take npoints,
        x = x &&& lowMask (8 * w) (uniqueBits (words.take npoints)) ||| commonvalue := by
  rw [uniqueBits_take hne]
  set a := (words.take npoints).foldl (· &&& ·) words[0] with ha
  set o := (words.take npoints).foldl (· ||| ·) words[0] with ho
  have hall : a >>> (8 * w) = o >>> (8 * w) := by
    rw [BitVec.ushiftRight_eq_zero (Nat.le_refl _), BitVec.ushiftRight_eq_zero (Nat.le_refl _)]
  obtain ⟨hle, hfst, hagree⟩ := commonbitsLoop_spec a o (8 * w) hall
  set c := commonbitsLoop a o (8 * w) with hc
  have hsub : 8 * w - (8 * w - c.2) = c.2 := by omega
  refine ⟨(a >>> (8 * w - c.2)) <<< (8 * w - c.2), ?_, ?_⟩
  · rw [sigbitsCountWords, wordAt_ok hne, ok_bind, intIndexed_ok hlen hint, ok_bind]
    simp only [← ha, ← ho, ← hc]
    rw [hfst, cShl_upper hsh a (by omega), ok_bind, pure_eq_ok, hsub]
  · intro x hx
    exact eq_low_or_upper (by omega) (ushiftRight_eq_of_and_or hagree hx)

/-- Without a first word, or with an index that runs past the array, counting faults. -/
theorem sigbitsCountWords_fault {sh : FullShift} {w : Nat} {words : List (Word w)} {npoints : Nat}
    (h : words.length = 0 ∨ words.length < npoints ∨ 2147483648 < npoints) :
    sigbitsCountWords sh w words npoints = fault := by
  by_cases hne : 0 < words.length
  · rw [sigbitsCountWords, wordAt_ok hne, ok_bind, intIndexed_fault (by omega), fault_bind]
  · rw [sigbitsCountWords, wordAt_fault (by omega), fault_bind]

/-! ## What a payload holds -/

/-- The payload holds the low `nbits` bits of the words `xs`, whose other bits are common. -/
structure Packed (payload : List (BitVec N)) (nbits : Nat) (commonvalue : BitVec N)
    (xs : List (BitVec N)) : Prop where
  nbits_le : nbits ≤ N
  room : xs.length * nbits ≤ payload.length * N
  nonempty : 0 < payload.length
  /-- With no unique bit the readers still look at the first word. -/
  zero : nbits = 0 → payload.getD 0 0 = 0
  value_eq : ∀ k (h : k < xs.length), xs[k] = field payload (k * nbits) nbits ||| commonvalue

/-! ## The packer -/

/-- The position in the stream that the next bit is written to. -/
def PackState.pos (st : PackState N) : Nat := st.ptr * N + (N - st.bit)

/-- A turn of the loop that has room for the value. -/
theorem packStep_ok (sh : FullShift) {nbits : Nat} (hpos : 0 < nbits) (hN : nbits ≤ N)
    {val : BitVec N} (hval : ∀ i, nbits ≤ i → val.getLsbD i = false) {st : PackState N}
    (hbit : 0 < st.bit) (hbitN : st.bit ≤ N) (hroom : st.pos + nbits ≤ st.words.length * N) :
    ∃ st', packStep sh nbits val st = .ok st' ∧ Puts st.words st.pos nbits val st'.words ∧
      st'.pos = st.pos + nbits ∧ 0 < st'.bit ∧ st'.bit ≤ N := by
  have hpromoted := le_promoted N
  have hsucc : (st.ptr + 1) * N = st.ptr * N + N := Nat.succ_mul _ _
  unfold PackState.pos at hroom ⊢
  by_cases hfit : nbits ≤ st.bit
  · have hptr : st.ptr < st.words.length := by
      by_contra hge
      have := Nat.mul_le_mul_right N (Nat.not_lt.mp hge)
      omega
    have hput := puts_inWord (by omega) hptr hbitN hfit hval
    unfold packStep
    rw [if_pos hfit, cShl_ok sh val (by omega), ok_bind, orAt_ok hptr, ok_bind]
    by_cases hend : st.bit - nbits = 0
    · rw [if_pos hend]
      refine ⟨_, rfl, hput, ?_, by simp only; omega, Nat.le_refl N⟩
      simp only [hsucc]
      omega
    · rw [if_neg hend]
      refine ⟨_, rfl, hput, ?_, by simp only; omega, ?_⟩
      · simp only
        omega
      · simp only
        omega
  · have hptr : st.ptr + 1 < st.words.length := by
      by_contra hge
      have := Nat.mul_le_mul_right N (Nat.not_lt.mp hge)
      omega
    have hput := puts_split (by omega) hptr hN (Nat.not_le.mp hfit) hval rfl
    unfold packStep
    rw [if_neg hfit]
    simp only
    rw [cShr_ok sh val (by omega), ok_bind, orAt_ok (by omega), ok_bind,
      cShl_ok sh val (by omega), ok_bind, orAt_ok (by rw [List.length_set]; exact hptr), ok_bind]
    refine ⟨_, rfl, hput, ?_, ?_, ?_⟩
    · simp only [hsucc]
      omega
    · simp only
      omega
    · simp only
      omega

/-- A turn of the loop that has no room for the value. -/
theorem packStep_fault (sh : FullShift) {nbits : Nat} (hpos : 0 < nbits) (hN : nbits ≤ N)
    (val : BitVec N) {st : PackState N} (hbit : 0 < st.bit) (hbitN : st.bit ≤ N)
    (hroom : st.words.length * N < st.pos + nbits) : packStep sh nbits val st = fault := by
  have hpromoted := le_promoted N
  have hsucc : (st.ptr + 1) * N = st.ptr * N + N := Nat.succ_mul _ _
  have hsucc' : (st.ptr + 1 + 1) * N = st.ptr * N + N + N := by
    rw [Nat.succ_mul, hsucc]
  unfold PackState.pos at hroom
  unfold packStep
  by_cases hfit : nbits ≤ st.bit
  · have hptr : st.words.length ≤ st.ptr := by
      by_contra hlt
      have := Nat.mul_le_mul_right N (Nat.not_le.mp hlt)
      rw [Nat.succ_mul] at this
      omega
    rw [if_pos hfit, cShl_ok sh val (by omega), ok_bind, orAt_fault hptr, fault_bind]
  · have hptr : st.words.length ≤ st.ptr + 1 := by
      by_contra hlt
      have := Nat.mul_le_mul_right N (Nat.not_le.mp hlt)
      rw [Nat.succ_mul] at this
      omega
    rw [if_neg hfit]
    simp only
    rw [cShr_ok sh val (by omega), ok_bind]
    by_cases hlast : st.ptr < st.words.length
    · rw [orAt_ok hlast, ok_bind, cShl_ok sh val (by omega), ok_bind,
        orAt_fault (by rw [List.length_set]; exact hptr), fault_bind]
    · rw [orAt_fault (by omega), fault_bind]

theorem getLsbD_and_lowMask {nbits : Nat} (hN : nbits ≤ N) (x : BitVec N) :
    ∀ i, nbits ≤ i → (x &&& lowMask N nbits).getLsbD i = false := by
  intro i hi
  rw [BitVec.getLsbD_and, getLsbD_lowMask hN, decide_eq_false (by omega), Bool.and_false]

/-- With room for all values the loop writes each as the field at its place
and keeps the fields in front. The invariant is that the stream is zero from
the writing position on. -/
theorem packLoop_ok (sh : FullShift) {nbits : Nat} (hpos : 0 < nbits) (hN : nbits ≤ N) :
    ∀ (xs : List (BitVec N)) (st : PackState N), 0 < st.bit → st.bit ≤ N →
      (∀ p, st.pos ≤ p → streamBit st.words p = false) →
      st.pos + xs.length * nbits ≤ st.words.length * N →
      ∃ st', packLoop sh nbits (lowMask N nbits) xs st = .ok st' ∧
        st'.words.length = st.words.length ∧
        (∀ k (h : k < xs.length),
          field st'.words (st.pos + k * nbits) nbits = xs[k] &&& lowMask N nbits) ∧
        (∀ p, p + nbits ≤ st.pos → field st'.words p nbits = field st.words p nbits)
  | [], st, _, _, _, _ => by
      refine ⟨st, rfl, rfl, ?_, fun _ _ => rfl⟩
      intro k h
      simp at h
  | x :: xs, st, hbit, hbitN, hzero, hroom => by
      rw [List.length_cons, Nat.succ_mul] at hroom
      have hval := getLsbD_and_lowMask hN x
      obtain ⟨st₁, hstep, hput, hpos₁, hbit₁, hbitN₁⟩ :=
        packStep_ok sh hpos hN hval hbit hbitN (by omega)
      have hzero₁ : ∀ p, st₁.pos ≤ p → streamBit st₁.words p = false := by
        intro p hp
        rw [hput.bit_after (by omega)]
        exact hzero p (by omega)
      obtain ⟨st₂, hrest, hlen, hfields, hfront⟩ :=
        packLoop_ok sh hpos hN xs st₁ hbit₁ hbitN₁ hzero₁ (by rw [hput.length_eq]; omega)
      refine ⟨st₂, ?_, ?_, ?_, ?_⟩
      · rw [packLoop, hstep, ok_bind, hrest]
      · rw [hlen, hput.length_eq]
      · intro k h
        match k with
        | 0 =>
            rw [Nat.zero_mul, Nat.add_zero, hfront _ (by omega),
              hput.field_eq hN hval fun p hp _ => hzero p hp]
            rfl
        | k + 1 =>
            have hk : k < xs.length := by simpa using h
            have hplace : st.pos + (k + 1) * nbits = st₁.pos + k * nbits := by
              rw [Nat.succ_mul]
              omega
            rw [hplace, hfields k hk]
            rfl
      · intro p hp
        rw [hfront p (by omega), hput.field_before hN hp]

/-- Without room for all values the loop writes past the buffer. -/
theorem packLoop_fault (sh : FullShift) {nbits : Nat} (hpos : 0 < nbits) (hN : nbits ≤ N) :
    ∀ (xs : List (BitVec N)) (st : PackState N), 0 < st.bit → st.bit ≤ N → xs ≠ [] →
      st.words.length * N < st.pos + xs.length * nbits →
      packLoop sh nbits (lowMask N nbits) xs st = fault
  | [], _, _, _, hne, _ => absurd rfl hne
  | x :: xs, st, hbit, hbitN, _, hroom => by
      rw [List.length_cons, Nat.succ_mul] at hroom
      by_cases hfirst : st.pos + nbits ≤ st.words.length * N
      · obtain ⟨st₁, hstep, hput, hpos₁, hbit₁, hbitN₁⟩ :=
          packStep_ok sh hpos hN (getLsbD_and_lowMask hN x) hbit hbitN hfirst
        have hne : xs ≠ [] := by
          rintro rfl
          simp at hroom
          omega
        rw [packLoop, hstep, ok_bind]
        exact packLoop_fault sh hpos hN xs st₁ hbit₁ hbitN₁ hne (by rw [hput.length_eq]; omega)
      · rw [packLoop, packStep_fault sh hpos hN _ hbit hbitN (by omega), fault_bind]

/-! ## The encoders -/

/-- A size formula that leaves room for the header and the given number of
bits, in whole words, and for little more. -/
def RoomFor (w : Nat) (sizeOut : Nat → Nat) : Prop :=
  ∀ bits, ∃ len, 0 < len ∧ sizeOut bits = (len + 2) * w ∧ bits ≤ len * (8 * w) ∧
    len * (8 * w) ≤ bits + 72

theorem roomFor_sizeOut8 : RoomFor 1 sizeOut8 := fun bits =>
  ⟨bits / 8 + 1, by omega, by unfold sizeOut8; omega, by omega, by omega⟩

theorem roomFor_sizeOut16 : RoomFor 2 sizeOut16 := fun bits =>
  ⟨(bits / 8 + 1 + (bits / 8 + 1) % 2) / 2, by omega, by unfold sizeOut16; omega, by omega,
    by omega⟩

theorem roomFor_sizeOut32 : RoomFor 4 sizeOut32 := fun bits =>
  ⟨(bits / 8 + 1 + (4 - (bits / 8 + 1) % 4)) / 4, by omega, by unfold sizeOut32; omega, by omega,
    by omega⟩

theorem roomFor_sizeOut64 : RoomFor 8 sizeOut64 := fun bits =>
  ⟨(bits / 8 + 1 + (8 - (bits / 8 + 1) % 8)) / 8, by omega, by unfold sizeOut64; omega, by omega,
    by omega⟩

/-- The mask of the unique bits, where there are any. -/
theorem cShr_allOnes (sh : FullShift) {nbits : Nat} (hpos : 0 < nbits) (hN : nbits ≤ N) :
    cShr sh (BitVec.allOnes N) ((N - nbits : Nat) : Int) = .ok (lowMask N nbits) := by
  have := le_promoted N
  rw [cShr_ok sh _ (by omega), lowMask]

/-- The encoders pack an array whose bits are few enough to be counted in 32 bits. -/
theorem sigbitsEncodeWords_ok (en : Endian) {sh : FullShift} (hsh : sh ≠ .trap) {w : Nat}
    (hw : 0 < w) {sizeOut : Nat → Nat} (hout : RoomFor w sizeOut) {pcb : PcBytes}
    (hlen : pcb.npoints ≤ (wordsOf en w pcb.bytes).length) (hint : pcb.npoints ≤ 2147483648)
    {commonvalue : Word w} {nbits : Nat} (hN : nbits ≤ 8 * w)
    (hbits : nbits * pcb.npoints < 4294967296)
    (hcommon : ∀ x ∈ (wordsOf en w pcb.bytes).take pcb.npoints,
      x = x &&& lowMask (8 * w) nbits ||| commonvalue) :
    ∃ payload, Packed payload nbits commonvalue ((wordsOf en w pcb.bytes).take pcb.npoints) ∧
      sigbitsEncodeWords en sh w sizeOut pcb commonvalue (8 * w - nbits) =
        .ok { pcb with
              size := (payload.length + 2) * w
              bytes := bytesOfWords en (BitVec.ofNat (8 * w) nbits :: commonvalue :: payload)
              compression := .sigbits
              readonly := false } := by
  set xs := (wordsOf en w pcb.bytes).take pcb.npoints with hxs
  have hxslen : xs.length = pcb.npoints := by rw [hxs, List.length_take]; omega
  obtain ⟨len, hpos, hsize, hroom, -⟩ := hout (nbits * pcb.npoints)
  have hdiv : (len + 2) * w / w - 2 = len := by
    rw [Nat.mul_div_cancel _ hw]
    omega
  have hsub : 8 * w - (8 * w - nbits) = nbits := by omega
  have hfree : ∀ p, streamBit (List.replicate len (0 : Word w)) p = false :=
    streamBit_zeros len
  unfold sigbitsEncodeWords
  simp only [hsub]
  rw [uint32_of_lt hbits, hsize, hdiv]
  by_cases hzero : nbits = 0
  · -- all words are equal, and the loop is not entered
    subst hzero
    obtain ⟨mask, hmask⟩ := cShr_isOk hsh (BitVec.allOnes (8 * w)) (le_promoted (8 * w))
    refine ⟨List.replicate len 0, ⟨by omega, by simp, by simpa using hpos, ?_, ?_⟩, ?_⟩
    · intro _
      simp [List.getD, hpos]
    · intro k h
      have hx := hcommon xs[k] (List.getElem_mem h)
      have hno : lowMask (8 * w) 0 = 0 := by
        rw [lowMask, Nat.sub_zero]
        exact BitVec.ushiftRight_eq_zero (Nat.le_refl _)
      rw [hno] at hx
      rw [field_zero]
      simpa using hx
    · rw [Nat.sub_zero, hmask, ok_bind, if_pos rfl, List.length_replicate]
      rfl
  · have hne : ¬ 8 * w = 8 * w - nbits := by omega
    rw [cShr_allOnes sh (by omega) hN, ok_bind, if_neg hne, intIndexed_ok hlen hint, ok_bind]
    have hstart : PackState.pos ⟨List.replicate len (0 : Word w), 0, 8 * w⟩ = 0 := by
      simp [PackState.pos]
    obtain ⟨st, hst, hstlen, hfields, -⟩ := packLoop_ok sh (by omega) hN xs
      ⟨List.replicate len 0, 0, 8 * w⟩ (by simp only; omega) (Nat.le_refl _)
      (fun p _ => hfree p)
      (by rw [hstart, hxslen, List.length_replicate, Nat.zero_add, Nat.mul_comm]; exact hroom)
    rw [List.length_replicate] at hstlen
    refine ⟨st.words, ⟨hN, ?_, by omega, fun h => absurd h hzero, ?_⟩, ?_⟩
    · rw [hxslen, hstlen, Nat.mul_comm]
      exact hroom
    · intro k h
      rw [hstart] at hfields
      have hk := hfields k h
      rw [Nat.zero_add] at hk
      rw [hk]
      exact hcommon xs[k] (List.getElem_mem h)
    · rw [hst, ok_bind, pure_eq_ok, hstlen]
      rfl

/-- Where the number of bits wraps around, the buffer is too small and the packer leaves it. -/
theorem sigbitsEncodeWords_fault (en : Endian) (sh : FullShift) {w : Nat}
    (hw : 0 < w) (hw8 : w ≤ 8) {sizeOut : Nat → Nat} (hout : RoomFor w sizeOut) {pcb : PcBytes}
    (hlen : pcb.npoints ≤ (wordsOf en w pcb.bytes).length) (hint : pcb.npoints ≤ 2147483648)
    (commonvalue : Word w) {nbits : Nat} (hN : nbits ≤ 8 * w)
    (hbits : 4294967296 ≤ nbits * pcb.npoints) :
    sigbitsEncodeWords en sh w sizeOut pcb commonvalue (8 * w - nbits) = fault := by
  obtain ⟨len, hpos, hsize, -, hroom⟩ := hout (uint32 (nbits * pcb.npoints))
  have hdiv : (len + 2) * w / w - 2 = len := by
    rw [Nat.mul_div_cancel _ hw]
    omega
  have hsub : 8 * w - (8 * w - nbits) = nbits := by omega
  have hnz : 0 < nbits := by
    rcases Nat.eq_zero_or_pos nbits with h | h
    · rw [h] at hbits
      omega
    · exact h
  have hnp : 0 < pcb.npoints := by
    rcases Nat.eq_zero_or_pos pcb.npoints with h | h
    · rw [h] at hbits
      omega
    · exact h
  set xs := (wordsOf en w pcb.bytes).take pcb.npoints with hxs
  have hxslen : xs.length = pcb.npoints := by rw [hxs, List.length_take]; omega
  have hwrap := uint32_lt (nbits * pcb.npoints)
  have hshort : len * (8 * w) < xs.length * nbits := by
    have hmod : uint32 (nbits * pcb.npoints) + 4294967296 ≤ nbits * pcb.npoints := by
      unfold uint32
      omega
    rw [hxslen, Nat.mul_comm pcb.npoints]
    omega
  unfold sigbitsEncodeWords
  simp only [hsub]
  rw [hsize, hdiv, cShr_allOnes sh hnz hN, ok_bind, if_neg (by omega), intIndexed_ok hlen hint,
    ok_bind, packLoop_fault sh hnz hN xs _ (by simp only; omega) (Nat.le_refl _)
      (by rintro h; rw [h] at hxslen; simp at hxslen; omega)
      (by simpa [PackState.pos] using hshort), fault_bind]

/-- The encoders return the buffer that they have asked for. -/
theorem size_of_sigbitsEncodeWords {en : Endian} {sh : FullShift} {w : Nat}
    {sizeOut : Nat → Nat} {pcb e : PcBytes} {commonvalue : Word w} {commonbits : Nat}
    (hok : sigbitsEncodeWords en sh w sizeOut pcb commonvalue commonbits = .ok e) :
    e.size = sizeOut (uint32 ((8 * w - commonbits) * pcb.npoints)) := by
  obtain ⟨mask, -, hrest⟩ := bind_eq_ok.mp hok
  simp only at hrest
  split at hrest
  · exact Except.ok.inj hrest ▸ rfl
  · obtain ⟨words, -, hrest⟩ := bind_eq_ok.mp hrest
    obtain ⟨st, -, hrest⟩ := bind_eq_ok.mp hrest
    exact Except.ok.inj hrest ▸ rfl

/-! ## The decoders -/

/-- The position in the stream that the next bit is read from. -/
def ReadState.pos (N : Nat) (st : ReadState) : Nat := st.ptr * N + (N - st.bit)

/-- The states in which a decoding step returns the field at its position and
moves on behind it; the start of the payload is one. -/
def Walks (payload : List (BitVec N)) (nbits : Nat) (commonvalue : BitVec N)
    (step : ReadState → Run (BitVec N × ReadState)) : Prop :=
  ∃ Inv : ReadState → Prop, Inv ⟨0, N⟩ ∧
    ∀ st, Inv st → st.pos N + nbits ≤ payload.length * N →
      ∃ st', step st = .ok (field payload (st.pos N) nbits ||| commonvalue, st') ∧
        st'.pos N = st.pos N + nbits ∧ Inv st'

/-- The masked word, or-ed with the common bits, in the order of the decoders. -/
theorem or_right_comm (x y z : BitVec N) : x ||| y ||| z = x ||| z ||| y := by
  rw [BitVec.or_assoc, BitVec.or_comm y, BitVec.or_assoc]

/-- With no unique bit both steps stay at the first word, which is zero. -/
theorem zero_bits_step {sh : FullShift} (hsh : sh ≠ .trap) {payload : List (BitVec N)}
    (hne : 0 < payload.length) (hzero : payload.getD 0 0 = 0) (mask commonvalue : BitVec N) :
    (do
      let val ← wordAt payload 0
      let v ← cShr sh val ((N - 0 : Nat) : Int)
      return v &&& mask ||| commonvalue) = .ok (field payload 0 0 ||| commonvalue) := by
  have hword : payload[0] = 0 := by
    simpa [List.getD, hne] using hzero
  rw [wordAt_ok hne, ok_bind, hword, cShr_zero hsh (by have := le_promoted N; omega), ok_bind,
    field_zero, pure_eq_ok]
  simp

/-- The step of the 16, 32 and 64-bit decoders. -/
theorem unpackStep_walks {sh : FullShift} (hsh : sh ≠ .trap) (hpos : 0 < N)
    {payload : List (BitVec N)} {nbits : Nat} {commonvalue : BitVec N} {xs : List (BitVec N)}
    (h : Packed payload nbits commonvalue xs) {mask : BitVec N}
    (hmask : 0 < nbits → mask = lowMask N nbits) :
    Walks payload nbits commonvalue (unpackStep sh payload nbits mask commonvalue) := by
  have hN := h.nbits_le
  have hpromoted := le_promoted N
  rcases Nat.eq_zero_or_pos nbits with rfl | hnbits
  · refine ⟨fun st => st = ⟨0, N⟩, rfl, ?_⟩
    rintro st rfl -
    have hstep := zero_bits_step hsh h.nonempty (h.zero rfl) mask commonvalue
    refine ⟨⟨0, N⟩, ?_, rfl, rfl⟩
    unfold unpackStep
    simp only [Nat.zero_le, if_true, Nat.sub_zero, Nat.pos_iff_ne_zero.mp hpos, if_false,
      ReadState.pos, Nat.zero_mul, Nat.sub_self, Nat.add_zero] at hstep ⊢
    rw [wordAt_ok h.nonempty, ok_bind] at hstep ⊢
    obtain ⟨v, hv, hval⟩ := bind_eq_ok.mp hstep
    rw [hv, ok_bind]
    rw [pure_eq_ok, Except.ok.injEq] at hval
    rw [hval, pure_eq_ok]
  · refine ⟨fun st => 0 < st.bit ∧ st.bit ≤ N, ⟨hpos, Nat.le_refl N⟩, ?_⟩
    rintro st ⟨hbit, hbitN⟩ hroom
    have hsucc : (st.ptr + 1) * N = st.ptr * N + N := Nat.succ_mul _ _
    rw [hmask hnbits]
    unfold ReadState.pos at hroom ⊢
    have hptr : st.ptr < payload.length := by
      by_contra hge
      have := Nat.mul_le_mul_right N (Nat.not_lt.mp hge)
      omega
    unfold unpackStep
    rw [wordAt_ok hptr, ok_bind]
    by_cases hfit : nbits ≤ st.bit
    · have hread := read_inWord payload st.ptr hbitN hfit
      rw [List.getD, List.getElem?_eq_getElem hptr, Option.getD_some] at hread
      rw [if_pos hfit, cShr_ok sh _ (by omega), ok_bind, hread]
      by_cases hend : st.bit - nbits = 0
      · rw [if_pos hend]
        refine ⟨_, rfl, ?_, hpos, Nat.le_refl N⟩
        simp only [hsucc]
        omega
      · rw [if_neg hend]
        refine ⟨_, rfl, ?_, ?_, ?_⟩
        · simp only
          omega
        · simp only
          omega
        · simp only
          omega
    · have hptr' : st.ptr + 1 < payload.length := by
        by_contra hge
        have := Nat.mul_le_mul_right N (Nat.not_lt.mp hge)
        omega
      have hread := read_split payload st.ptr hN (Nat.not_le.mp hfit)
      rw [List.getD, List.getElem?_eq_getElem hptr, Option.getD_some, List.getD,
        List.getElem?_eq_getElem hptr', Option.getD_some] at hread
      rw [if_neg hfit]
      simp only
      rw [cShl_ok sh _ (by omega), ok_bind, wordAt_ok hptr', ok_bind, cShr_ok sh _ (by omega),
        ok_bind, or_right_comm, hread]
      refine ⟨_, rfl, ?_, ?_, ?_⟩
      · simp only [hsucc]
        omega
      · simp only
        omega
      · simp only
        omega

/-- The step of the 8-bit decoder, which may stand at the end of a word. It then
shifts by the width of the word, which only a word narrower than `int` allows. -/
theorem unpackStep8_walks {sh : FullShift} (hsh : sh ≠ .trap) (hnarrow : N < promoted N)
    {payload : List (BitVec N)} {nbits : Nat} {commonvalue : BitVec N} {xs : List (BitVec N)}
    (h : Packed payload nbits commonvalue xs) {mask : BitVec N}
    (hmask : 0 < nbits → mask = lowMask N nbits) :
    Walks payload nbits commonvalue (unpackStep8 sh payload nbits mask commonvalue) := by
  have hN := h.nbits_le
  have hpromoted := le_promoted N
  rcases Nat.eq_zero_or_pos nbits with rfl | hnbits
  · refine ⟨fun st => st = ⟨0, N⟩, rfl, ?_⟩
    rintro st rfl -
    have hstep := zero_bits_step hsh h.nonempty (h.zero rfl) mask commonvalue
    refine ⟨⟨0, N⟩, ?_, rfl, rfl⟩
    unfold unpackStep8
    simp only [Nat.zero_le, if_true, Nat.sub_zero,
      ReadState.pos, Nat.zero_mul, Nat.sub_self, Nat.add_zero] at hstep ⊢
    rw [wordAt_ok h.nonempty, ok_bind] at hstep ⊢
    obtain ⟨v, hv, hval⟩ := bind_eq_ok.mp hstep
    rw [hv, ok_bind]
    rw [pure_eq_ok, Except.ok.injEq] at hval
    rw [hval, pure_eq_ok]
  · refine ⟨fun st => st.bit ≤ N, Nat.le_refl N, ?_⟩
    intro st hbitN hroom
    have hsucc : (st.ptr + 1) * N = st.ptr * N + N := Nat.succ_mul _ _
    rw [hmask hnbits]
    unfold ReadState.pos at hroom ⊢
    have hptr : st.ptr < payload.length := by
      by_contra hge
      have := Nat.mul_le_mul_right N (Nat.not_lt.mp hge)
      omega
    unfold unpackStep8
    rw [wordAt_ok hptr, ok_bind]
    by_cases hfit : nbits ≤ st.bit
    · have hread := read_inWord payload st.ptr hbitN hfit
      rw [List.getD, List.getElem?_eq_getElem hptr, Option.getD_some] at hread
      rw [if_pos hfit, cShr_ok sh _ (by omega), ok_bind, hread]
      refine ⟨_, rfl, ?_, ?_⟩
      · simp only
        omega
      · simp only
        omega
    · have hptr' : st.ptr + 1 < payload.length := by
        by_contra hge
        have := Nat.mul_le_mul_right N (Nat.not_lt.mp hge)
        omega
      have hread := read_split payload st.ptr hN (Nat.not_le.mp hfit)
      rw [List.getD, List.getElem?_eq_getElem hptr, Option.getD_some, List.getD,
        List.getElem?_eq_getElem hptr', Option.getD_some] at hread
      rw [if_neg hfit]
      simp only
      rw [cShl_ok sh _ (by omega), ok_bind, wordAt_ok hptr', ok_bind, cShr_ok sh _ (by omega),
        ok_bind, or_right_comm, hread]
      refine ⟨_, rfl, ?_, ?_⟩
      · simp only [hsucc]
        omega
      · simp only
        omega

/-- The loop returns the fields one after the other. -/
theorem unpackLoop_ok {payload : List (BitVec N)} {nbits : Nat} {commonvalue : BitVec N}
    {step : ReadState → Run (BitVec N × ReadState)} {Inv : ReadState → Prop}
    (hstep : ∀ st, Inv st → st.pos N + nbits ≤ payload.length * N →
      ∃ st', step st = .ok (field payload (st.pos N) nbits ||| commonvalue, st') ∧
        st'.pos N = st.pos N + nbits ∧ Inv st') :
    ∀ (n : Nat) (st : ReadState), Inv st → st.pos N + n * nbits ≤ payload.length * N →
      ∃ out, unpackLoop step n st = .ok out ∧ out.length = n ∧
        ∀ k (h : k < out.length),
          out[k] = field payload (st.pos N + k * nbits) nbits ||| commonvalue
  | 0, st, _, _ => ⟨[], rfl, rfl, fun k h => by simp at h⟩
  | n + 1, st, hinv, hroom => by
      rw [Nat.succ_mul] at hroom
      obtain ⟨st', hval, hpos, hinv'⟩ := hstep st hinv (by omega)
      obtain ⟨rest, hrest, hlen, hfields⟩ := unpackLoop_ok hstep n st' hinv' (by omega)
      refine ⟨(field payload (st.pos N) nbits ||| commonvalue) :: rest, ?_, ?_, ?_⟩
      · rw [unpackLoop, hval, ok_bind]
        simp only
        rw [hrest, ok_bind, pure_eq_ok]
      · rw [List.length_cons, hlen]
      · intro k h
        match k with
        | 0 => simp
        | k + 1 =>
            have hplace : st.pos N + (k + 1) * nbits = st'.pos N + k * nbits := by
              rw [Nat.succ_mul]
              omega
            rw [List.getElem_cons_succ, hfields k (by simpa using h), hplace]

/-- The loop returns the packed words. -/
theorem unpackLoop_packed {payload : List (BitVec N)} {nbits : Nat} {commonvalue : BitVec N}
    {xs : List (BitVec N)} (h : Packed payload nbits commonvalue xs)
    {step : ReadState → Run (BitVec N × ReadState)} (hstep : Walks payload nbits commonvalue step) :
    unpackLoop step xs.length ⟨0, N⟩ = .ok xs := by
  obtain ⟨Inv, hstart, hwalk⟩ := hstep
  have hpos : ReadState.pos N ⟨0, N⟩ = 0 := by simp [ReadState.pos]
  obtain ⟨out, hout, hlen, hfields⟩ :=
    unpackLoop_ok hwalk xs.length ⟨0, N⟩ hstart (by rw [hpos, Nat.zero_add]; exact h.room)
  rw [hout]
  congr 1
  apply List.ext_getElem hlen
  intro k h₁ h₂
  rw [hfields k h₁, hpos, Nat.zero_add, h.value_eq k h₂]

/-- The bytes of a packed array: the header words, then the payload. -/
def sigbitsBytes (en : Endian) {w : Nat} (nbits : Nat) (commonvalue : Word w)
    (payload : List (Word w)) : Bytes :=
  bytesOfWords en (BitVec.ofNat (8 * w) nbits :: commonvalue :: payload)

theorem toNat_ofNat_of_le {n : Nat} (h : n ≤ N) : (BitVec.ofNat N n).toNat = n := by
  rw [BitVec.toNat_ofNat, Nat.mod_eq_of_lt]
  exact Nat.lt_of_le_of_lt h Nat.lt_two_pow_self

/-- The mask that the decoders compute from the header. -/
theorem cShr_mask {sh : FullShift} (hsh : sh ≠ .trap) {nbits : Nat} (hN : nbits ≤ N) :
    ∃ mask, cShr sh (BitVec.allOnes N) ((N : Int) - nbits) = .ok mask ∧
      (0 < nbits → mask = lowMask N nbits) := by
  have hcast : (N : Int) - nbits = ((N - nbits : Nat) : Int) := by omega
  have hle := le_promoted N
  rcases Nat.eq_zero_or_pos nbits with h | h
  · have hamount : N - nbits ≤ promoted N := by omega
    obtain ⟨mask, hmask⟩ := cShr_isOk hsh (BitVec.allOnes N) hamount
    exact ⟨mask, by rw [hcast, hmask], fun hpos => absurd h (by omega)⟩
  · exact ⟨lowMask N nbits, by rw [hcast, cShr_allOnes sh h hN], fun _ => rfl⟩

/-- A decoder returns the packed words. -/
theorem sigbitsDecodeWords_ok (en : Endian) {sh : FullShift} (hsh : sh ≠ .trap) {w : Nat}
    (hw : 0 < w)
    {step : List (Word w) → Nat → Word w → Word w → ReadState → Run (Word w × ReadState)}
    (hstep : ∀ {payload : List (Word w)} {nbits : Nat} {commonvalue : Word w}
      {xs : List (Word w)}, Packed payload nbits commonvalue xs → ∀ {mask : Word w},
      (0 < nbits → mask = lowMask (8 * w) nbits) →
      Walks payload nbits commonvalue (step payload nbits mask commonvalue))
    {payload : List (Word w)} {nbits : Nat} {commonvalue : Word w} {xs : List (Word w)}
    (h : Packed payload nbits commonvalue xs) {pcb : PcBytes}
    (hbytes : pcb.bytes = sigbitsBytes en nbits commonvalue payload)
    (hlen : xs.length = pcb.npoints) (hint : pcb.npoints ≤ 2147483648) :
    sigbitsDecodeWords en sh w step pcb =
      .ok { pcb with size := w * pcb.npoints, bytes := bytesOfWords en xs,
                     compression := .none, readonly := false } := by
  obtain ⟨mask, hmask, hlow⟩ := cShr_mask hsh h.nbits_le
  unfold sigbitsDecodeWords
  simp only [hbytes, sigbitsBytes]
  rw [wordsOf_bytesOfWords en hw, wordAt_ok (by simp), ok_bind, wordAt_ok (by simp), ok_bind]
  simp only [List.getElem_cons_zero, List.getElem_cons_succ, List.drop_succ_cons, List.drop_zero,
    toNat_ofNat_of_le h.nbits_le]
  rw [hmask, ok_bind, intLoop_ok hint, ok_bind, ← hlen, unpackLoop_packed h (hstep h hlow),
    ok_bind, pure_eq_ok]

/-! ## All widths -/

/-- The size formula of the encoder for words of `w` bytes. -/
def sizeOutOf : Nat → Nat → Nat
  | 1 => sizeOut8
  | 2 => sizeOut16
  | 4 => sizeOut32
  | _ => sizeOut64

/-- The step of the decoder for words of `w` bytes. -/
def unpackStepOf (sh : FullShift) (w : Nat) :
    List (Word w) → Nat → Word w → Word w → ReadState → Run (Word w × ReadState) :=
  if w = 1 then unpackStep8 sh else unpackStep sh

/-- The widths of words. -/
def WordWidth (w : Nat) : Prop := w = 1 ∨ w = 2 ∨ w = 4 ∨ w = 8

theorem roomFor_sizeOutOf {w : Nat} (hw : WordWidth w) : RoomFor w (sizeOutOf w) := by
  rcases hw with rfl | rfl | rfl | rfl
  · exact roomFor_sizeOut8
  · exact roomFor_sizeOut16
  · exact roomFor_sizeOut32
  · exact roomFor_sizeOut64

theorem WordWidth.pos {w : Nat} (hw : WordWidth w) : 0 < w := by
  rcases hw with rfl | rfl | rfl | rfl <;> decide

theorem WordWidth.le {w : Nat} (hw : WordWidth w) : w ≤ 8 := by
  rcases hw with rfl | rfl | rfl | rfl <;> decide

theorem unpackStepOf_walks {sh : FullShift} (hsh : sh ≠ .trap) {w : Nat} (hw : WordWidth w)
    {payload : List (Word w)} {nbits : Nat} {commonvalue : Word w} {xs : List (Word w)}
    (h : Packed payload nbits commonvalue xs) {mask : Word w}
    (hmask : 0 < nbits → mask = lowMask (8 * w) nbits) :
    Walks payload nbits commonvalue (unpackStepOf sh w payload nbits mask commonvalue) := by
  unfold unpackStepOf
  split
  · next hone =>
      subst hone
      exact unpackStep8_walks hsh (by decide) h hmask
  · exact unpackStep_walks hsh (by have := hw.pos; omega) h hmask

theorem wordWidth_of_known {pcb : PcBytes} (h : pcb.interpretation ≠ .unknown) :
    WordWidth pcb.width :=
  Interpretation.size_cases h

theorem pcBytesSigbitsCount_eq (en : Endian) (sh : FullShift) {pcb : PcBytes} {w : Nat}
    (hw : WordWidth w) (h : pcb.width = w) :
    pcBytesSigbitsCount en sh pcb = (do
      let common ← sigbitsCountWords sh w (wordsOf en w pcb.bytes) pcb.npoints
      return common.2) := by
  unfold pcBytesSigbitsCount
  rw [h]
  rcases hw with rfl | rfl | rfl | rfl <;> rfl

theorem pcBytesSigbitsEncode_eq (en : Endian) (sh : FullShift) {pcb : PcBytes} {w : Nat}
    (hw : WordWidth w) (h : pcb.width = w) :
    pcBytesSigbitsEncode en sh pcb = (do
      let common ← sigbitsCountWords sh w (wordsOf en w pcb.bytes) pcb.npoints
      sigbitsEncodeWords en sh w (sizeOutOf w) pcb common.1 common.2) := by
  unfold pcBytesSigbitsEncode
  rw [h]
  rcases hw with rfl | rfl | rfl | rfl <;> rfl

theorem pcBytesSigbitsDecode_eq (en : Endian) (sh : FullShift) {pcb : PcBytes} {w : Nat}
    (hw : WordWidth w) (h : pcb.width = w) :
    pcBytesSigbitsDecode en sh pcb = sigbitsDecodeWords en sh w (unpackStepOf sh w) pcb := by
  unfold pcBytesSigbitsDecode
  rw [h]
  rcases hw with rfl | rfl | rfl | rfl <;> rfl

theorem pcBytesSigbitsToPtr_eq (en : Endian) (sh : FullShift) {pcb : PcBytes} {w : Nat}
    (hw : WordWidth w) (h : pcb.width = w) (n : Int) :
    pcBytesSigbitsToPtr en sh pcb n = sigbitsToPtrWords en sh w pcb n := by
  unfold pcBytesSigbitsToPtr
  rw [h]
  rcases hw with rfl | rfl | rfl | rfl <;> rfl

/-! ## Encoding and decoding -/

/-- `e` holds the values `vs` in the significant-bits encoding. -/
structure SigbitsOf (en : Endian) (e : PcBytes) (vs : List Bytes) : Prop where
  known : e.interpretation ≠ .unknown
  compression_eq : e.compression = .sigbits
  int_le : e.npoints ≤ 2147483648
  npoints_eq : vs.length = e.npoints
  width_eq : ∀ v ∈ vs, v.length = e.width
  size_eq : e.bytes.length = e.size
  packed : ∃ nbits commonvalue payload,
    e.bytes = sigbitsBytes en nbits commonvalue payload ∧ nbits * e.npoints < 4294967296 ∧
    Packed payload nbits commonvalue (vs.map (en.word e.width))

theorem length_sigbitsBytes (en : Endian) {w : Nat} (nbits : Nat) (commonvalue : Word w)
    (payload : List (Word w)) :
    (sigbitsBytes en nbits commonvalue payload).length = (payload.length + 2) * w := by
  rw [sigbitsBytes, length_bytesOfWords, List.length_cons, List.length_cons]

theorem PcBytes.take_wordsOf (en : Endian) {pcb : PcBytes}
    (hroom : pcb.npoints * pcb.width ≤ pcb.bytes.length) :
    (wordsOf en pcb.width pcb.bytes).take pcb.npoints = pcb.words en :=
  Base.take_wordsOf en (Interpretation.size_pos _) hroom

/-- The encoder packs every array with at least one word in its block, as
long as the number of packed bits does not wrap. -/
theorem pcBytesSigbitsEncode_ok (en : Endian) {sh : FullShift} (hsh : sh ≠ .trap) {pcb : PcBytes}
    (hknown : pcb.interpretation ≠ .unknown) (hne : pcb.width ≤ pcb.bytes.length)
    (hroom : pcb.npoints * pcb.width ≤ pcb.bytes.length) (hint : pcb.npoints ≤ 2147483648)
    (hbits : uniqueBits (pcb.words en) * pcb.npoints < 4294967296) :
    ∃ bytes, pcBytesSigbitsEncode en sh pcb =
        .ok { pcb with size := bytes.length, bytes := bytes, compression := .sigbits,
                       readonly := false } ∧
      SigbitsOf en { pcb with size := bytes.length, bytes := bytes, compression := .sigbits,
                              readonly := false } pcb.values := by
  have hw := wordWidth_of_known hknown
  have hlen : pcb.npoints ≤ (wordsOf en pcb.width pcb.bytes).length := by
    rw [length_wordsOf]
    exact (Nat.le_div_iff_mul_le hw.pos).mpr hroom
  have hpos : 0 < (wordsOf en pcb.width pcb.bytes).length := by
    rw [length_wordsOf]
    exact Nat.div_pos hne hw.pos
  have htake := PcBytes.take_wordsOf en hroom
  obtain ⟨commonvalue, hcount, hcommon⟩ := sigbitsCountWords_spec hsh hpos hlen hint
  rw [htake] at hcount hcommon
  obtain ⟨payload, hpacked, hencode⟩ := sigbitsEncodeWords_ok en hsh hw.pos (roomFor_sizeOutOf hw)
    hlen hint (uniqueBits_le (pcb.words en)) hbits (by rw [htake]; exact hcommon)
  rw [htake] at hpacked
  refine ⟨sigbitsBytes en (uniqueBits (pcb.words en)) commonvalue payload, ?_, ?_⟩
  · rw [pcBytesSigbitsEncode_eq en sh hw rfl, hcount, ok_bind, hencode, length_sigbitsBytes]
    rfl
  · exact ⟨hknown, rfl, hint, pcb.length_values, fun v hv => length_of_mem_records hroom hv, rfl,
      _, commonvalue, payload, rfl, hbits, hpacked⟩

/-- Where the number of packed bits wraps, or the index does, the encoder faults. -/
theorem pcBytesSigbitsEncode_fault (en : Endian) {sh : FullShift} (hsh : sh ≠ .trap)
    {pcb : PcBytes} (hknown : pcb.interpretation ≠ .unknown)
    (hroom : pcb.npoints * pcb.width ≤ pcb.bytes.length)
    (h : 2147483648 < pcb.npoints ∨ 4294967296 ≤ uniqueBits (pcb.words en) * pcb.npoints) :
    pcBytesSigbitsEncode en sh pcb = fault := by
  have hw := wordWidth_of_known hknown
  have hlen : pcb.npoints ≤ (wordsOf en pcb.width pcb.bytes).length := by
    rw [length_wordsOf]
    exact (Nat.le_div_iff_mul_le hw.pos).mpr hroom
  have htake := PcBytes.take_wordsOf en hroom
  rw [pcBytesSigbitsEncode_eq en sh hw rfl]
  by_cases hint : pcb.npoints ≤ 2147483648
  · have hbits := h.resolve_left (by omega)
    have hnp : 0 < pcb.npoints := by
      rcases Nat.eq_zero_or_pos pcb.npoints with h0 | h0
      · rw [h0] at hbits
        omega
      · exact h0
    obtain ⟨commonvalue, hcount, -⟩ := sigbitsCountWords_spec hsh (by omega) hlen hint
    rw [hcount, htake, ok_bind]
    exact sigbitsEncodeWords_fault en sh hw.pos hw.le (roomFor_sizeOutOf hw) hlen hint commonvalue
      (uniqueBits_le _) hbits
  · rw [sigbitsCountWords_fault (by omega), fault_bind]

/-- Without a word in the block there is nothing to start from. -/
theorem pcBytesSigbitsEncode_empty (en : Endian) (sh : FullShift) {pcb : PcBytes}
    (hknown : pcb.interpretation ≠ .unknown) (h : pcb.bytes.length < pcb.width) :
    pcBytesSigbitsEncode en sh pcb = fault := by
  have hwords : wordsOf en pcb.width pcb.bytes = [] := by
    rw [← List.length_eq_zero_iff, length_wordsOf, Nat.div_eq_of_lt h]
  rw [pcBytesSigbitsEncode_eq en sh (wordWidth_of_known hknown) rfl, hwords, sigbitsCountWords]
  rfl

/-- Decoding returns the values. -/
theorem pcBytesSigbitsDecode_ok {en : Endian} {sh : FullShift} (hsh : sh ≠ .trap) {e : PcBytes}
    {vs : List Bytes} (h : SigbitsOf en e vs) :
    pcBytesSigbitsDecode en sh e =
      .ok { e with size := e.width * e.npoints, bytes := vs.flatten, compression := .none,
                   readonly := false } := by
  have hw := wordWidth_of_known h.known
  obtain ⟨nbits, commonvalue, payload, hbytes, -, hpacked⟩ := h.packed
  have hlen : (vs.map (en.word e.width)).length = e.npoints := by
    rw [List.length_map, h.npoints_eq]
  rw [pcBytesSigbitsDecode_eq en sh hw rfl,
    sigbitsDecodeWords_ok en hsh hw.pos (unpackStepOf_walks hsh hw) hpacked hbytes hlen h.int_le,
    bytesOfWords_map_word en h.width_eq]

/-- The significant-bits encoding loses nothing, and its buffer is exactly filled. -/
theorem pcBytesSigbits_roundTrip (en : Endian) {sh : FullShift} (hsh : sh ≠ .trap) {pcb : PcBytes}
    (hplain : pcb.Plain) (hpos : 1 ≤ pcb.npoints)
    (hbits : pcb.npoints * (8 * pcb.width) < 4294967296) :
    ∃ e d, pcBytesSigbitsEncode en sh pcb = .ok e ∧ e.bytes.length = e.size ∧
      pcBytesSigbitsDecode en sh e = .ok d ∧
      d.bytes = pcb.data ∧ d.size = pcb.size ∧ d.npoints = pcb.npoints := by
  have hw := wordWidth_of_known hplain.known
  have hwidth := hw.pos
  have hle : pcb.npoints * 8 ≤ pcb.npoints * (8 * pcb.width) :=
    Nat.mul_le_mul_left _ (by omega)
  have hne : pcb.width ≤ pcb.bytes.length := by
    have := Nat.mul_le_mul_right pcb.width hpos
    have := hplain.room
    omega
  have hunique : uniqueBits (pcb.words en) * pcb.npoints < 4294967296 := by
    have := Nat.mul_le_mul_right pcb.npoints (uniqueBits_le (pcb.words en))
    rw [Nat.mul_comm (8 * pcb.width)] at this
    omega
  obtain ⟨bytes, hencode, hof⟩ := pcBytesSigbitsEncode_ok en hsh hplain.known hne hplain.room
    (by omega) hunique
  refine ⟨_, _, hencode, hof.size_eq, pcBytesSigbitsDecode_ok hsh hof, ?_, ?_, rfl⟩
  · exact hplain.flatten_values
  · rw [hplain.size_eq, Nat.mul_comm]
    rfl

/-- An array of two words with nothing in common, and one whose words are all equal. -/
theorem pcBytesSigbits_roundTrip_witness :
    (∃ e d, pcBytesSigbitsEncode .little .zero ⟨4, 2, .int16, .none, false,
      [1, 0, 0, 128]⟩ = .ok e ∧
      e.bytes.length = e.size ∧ pcBytesSigbitsDecode .little .zero e = .ok d ∧
      d.bytes = [1, 0, 0, 128] ∧ d.size = 4 ∧ d.npoints = 2) ∧
    ∃ e d, pcBytesSigbitsEncode .big .unchanged ⟨8, 2, .uint32, .none, false,
        [0, 0, 0, 7, 0, 0, 0, 7]⟩ = .ok e ∧
      e.bytes.length = e.size ∧ pcBytesSigbitsDecode .big .unchanged e = .ok d ∧
      d.bytes = [0, 0, 0, 7, 0, 0, 0, 7] ∧ d.size = 8 ∧ d.npoints = 2 :=
  ⟨pcBytesSigbits_roundTrip .little (by decide) ⟨by decide, rfl, by decide, by decide⟩ (by decide)
      (by decide),
    pcBytesSigbits_roundTrip .big (by decide) ⟨by decide, rfl, by decide, by decide⟩ (by decide)
      (by decide)⟩

end Pointcloud
