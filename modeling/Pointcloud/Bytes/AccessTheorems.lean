/-
Pointcloud.Bytes.AccessTheorems — reading one value of an encoded array.

`pc_bytes_to_ptr` reads value `i` without decoding the rest. For plain,
run-length and zlib arrays it returns that value. The reader of the
significant-bits encoding computes the position `i * nbits` of the value's
bits in a word of the array's own width, so it reads at that position modulo
`2 ^ 8` or `2 ^ 16` in arrays of one-byte or two-byte words
(`pcBytesSigbitsToPtr_ok`), and agrees with the decoder exactly where the bits
found there stand for the same value. In arrays of wider words the position
never wraps around, since the encoder has counted all of the bits in 32 bits.
-/
import Pointcloud.Bytes.CodecTheorems

namespace Pointcloud

open Pointcloud.Base

variable {P : Platform}

/-! ## The header of a significant-bits block -/

/-- The number of unique bits, as the block states it. -/
def PcBytes.nbits (en : Endian) (e : PcBytes) : Nat :=
  ((wordsOf en e.width e.bytes).getD 0 0).toNat

/-- The value that the unique bits at position `p` of the payload stand for. -/
def PcBytes.valueAt (en : Endian) (e : PcBytes) (p : Nat) : Word e.width :=
  field ((wordsOf en e.width e.bytes).drop 2) p (e.nbits en) |||
    (wordsOf en e.width e.bytes).getD 1 0

section Header

variable {en : Endian} {e : PcBytes} {nbits : Nat} {commonvalue : Word e.width}
  {payload : List (Word e.width)} (hbytes : e.bytes = sigbitsBytes en nbits commonvalue payload)

include hbytes

theorem wordsOf_sigbits : wordsOf en e.width e.bytes =
    BitVec.ofNat (8 * e.width) nbits :: commonvalue :: payload := by
  rw [hbytes, sigbitsBytes, wordsOf_bytesOfWords en e.width_pos]

theorem nbits_sigbits (hle : nbits ≤ 8 * e.width) : e.nbits en = nbits := by
  rw [PcBytes.nbits, wordsOf_sigbits hbytes]
  exact toNat_ofNat_of_le hle

theorem valueAt_sigbits (hle : nbits ≤ 8 * e.width) (p : Nat) :
    e.valueAt en p = field payload p nbits ||| commonvalue := by
  rw [PcBytes.valueAt, nbits_sigbits hbytes hle, wordsOf_sigbits hbytes]
  rfl

end Header

/-- At its own position stand the bits of the value. -/
theorem SigbitsOf.valueAt_eq {en : Endian} {e : PcBytes} {vs : List Bytes} (h : SigbitsOf en e vs)
    {i : Nat} (hi : i < vs.length) :
    e.valueAt en (i * e.nbits en) = en.word e.width vs[i] := by
  obtain ⟨nbits, commonvalue, payload, hbytes, -, hpacked⟩ := h.packed
  have hvalue := hpacked.value_eq i (by rwa [List.length_map])
  rw [List.getElem_map] at hvalue
  rw [valueAt_sigbits hbytes hpacked.nbits_le, nbits_sigbits hbytes hpacked.nbits_le, hvalue]

/-! ## The position of a value -/

/-- The mask of the random-access reader, shifted as a number of 64 bits. -/
theorem setWidth_allOnes_ushiftRight {N b : Nat} (hN : N ≤ 64) (hb : b ≤ N) :
    (BitVec.allOnes 64 >>> (64 - b)).setWidth N = lowMask N b := by
  apply BitVec.eq_of_getLsbD_eq
  intro i hi
  rw [BitVec.getLsbD_setWidth, BitVec.getLsbD_ushiftRight, BitVec.getLsbD_allOnes,
    getLsbD_lowMask hb, decide_eq_true hi, Bool.true_and]
  apply decide_eq_decide.mpr
  omega

/-- The reader finds the field at the position it has computed. -/
theorem sigbitsToPtrWords_ok {en : Endian} {sh : FullShift} (hsh : sh ≠ .trap) {w : Nat}
    (hw : WordWidth w) {payload : List (Word w)} {nbits : Nat} {commonvalue : Word w}
    {xs : List (Word w)} (h : Packed payload nbits commonvalue xs) {e : PcBytes}
    (hbytes : e.bytes = sigbitsBytes en nbits commonvalue payload) {i : Nat}
    (hi : i < xs.length) :
    sigbitsToPtrWords en sh w e i =
      .ok (en.wordBytes (field payload (i * nbits % 2 ^ (8 * w)) nbits ||| commonvalue)) := by
  have hN := h.nbits_le
  have hwpos := hw.pos
  have hw8 := hw.le
  have hpromoted := le_promoted (8 * w)
  have hoffset : (BitVec.ofInt (8 * w) ((i : Int) * nbits)).toNat = i * nbits % 2 ^ (8 * w) := by
    rw [← Int.natCast_mul, BitVec.ofInt_natCast, BitVec.toNat_ofNat]
  -- the position is at most the true one, so its field lies in the payload
  have hroom : i * nbits % 2 ^ (8 * w) + nbits ≤ payload.length * (8 * w) := by
    have hle := Nat.mod_le (i * nbits) (2 ^ (8 * w))
    have hmul := Nat.mul_le_mul_right nbits (Nat.succ_le_of_lt hi)
    rw [Nat.succ_mul] at hmul
    have := h.room
    omega
  unfold sigbitsToPtrWords
  simp only [hbytes, sigbitsBytes]
  rw [wordsOf_bytesOfWords en hwpos, wordAt_ok (by simp), ok_bind, wordAt_ok (by simp), ok_bind]
  simp only [List.getElem_cons_zero, List.getElem_cons_succ, List.drop_succ_cons, List.drop_zero,
    toNat_ofNat_of_le hN, hoffset]
  generalize hp : i * nbits % 2 ^ (8 * w) = p at hroom ⊢
  have hcast : (64 : Int) - nbits = ((64 - nbits : Nat) : Int) := by omega
  rcases Nat.eq_zero_or_pos nbits with hzero | hpos
  · -- no unique bits: the first word of the payload is looked at, and it is zero
    subst hzero
    have hp0 : p = 0 := by simpa using hp.symm
    subst hp0
    have hnonempty := h.nonempty
    have hword : payload[0] = 0 := by
      have := h.zero rfl
      rwa [List.getD, List.getElem?_eq_getElem h.nonempty, Option.getD_some] at this
    obtain ⟨mask, hmask⟩ := cShr_isOk hsh (BitVec.allOnes 64) (show 64 ≤ promoted 64 by decide)
    have hshift : ¬ (((8 * w : Nat) : Int) - ((0 % (8 * w) : Nat) : Int) -
      ((0 : Nat) : Int) < 0) := by
      rw [Nat.zero_mod]
      omega
    have hfull : ((8 * w : Nat) : Int) - ((0 % (8 * w) : Nat) : Int) - ((0 : Nat) : Int)
        = ((8 * w : Nat) : Int) := by
      rw [Nat.zero_mod]
      omega
    rw [hcast, Nat.sub_zero, hmask, ok_bind, Nat.zero_div, wordAt_ok h.nonempty, ok_bind,
      if_neg hshift, hfull, hword, cShr_zero hsh hpromoted, ok_bind, field_zero, pure_eq_ok]
    simp
  · have hmask := cShr_ok sh (BitVec.allOnes 64) (show 64 - nbits < promoted 64 by
      have : promoted 64 = 64 := rfl
      omega)
    rw [hcast, hmask, ok_bind, setWidth_allOnes_ushiftRight (by omega) hN]
    -- the cursor of the field: word `q`, with `bit` bits of it to come
    generalize hq : p / (8 * w) = q
    generalize hr : p % (8 * w) = r
    have hrlt : r < 8 * w := by rw [← hr]; exact Nat.mod_lt _ (by omega)
    have hsplit : p = q * (8 * w) + (8 * w - (8 * w - r)) := by
      have := Nat.div_add_mod p (8 * w)
      rw [hq, hr, Nat.mul_comm] at this
      omega
    have hptr : q < payload.length := by
      by_contra hge
      have := Nat.mul_le_mul_right (8 * w) (Nat.not_lt.mp hge)
      omega
    rw [wordAt_ok hptr, ok_bind]
    by_cases hfit : nbits ≤ 8 * w - r
    · have hread := read_inWord payload q (Nat.sub_le (8 * w) r) hfit
      rw [← hsplit, List.getD, List.getElem?_eq_getElem hptr, Option.getD_some] at hread
      have hshift : ((8 * w : Nat) : Int) - (r : Int) - (nbits : Int)
          = ((8 * w - r - nbits : Nat) : Int) := by omega
      rw [hshift, if_neg (by omega), cShr_ok sh _ (by omega), ok_bind, hread, pure_eq_ok,
        BitVec.or_comm]
    · have hptr' : q + 1 < payload.length := by
        by_contra hge
        have hle := Nat.mul_le_mul_right (8 * w) (Nat.not_lt.mp hge)
        rw [Nat.succ_mul q (8 * w)] at hle
        omega
      have hread := read_split payload q hN (Nat.not_le.mp hfit)
      rw [← hsplit, List.getD, List.getElem?_eq_getElem hptr, Option.getD_some, List.getD,
        List.getElem?_eq_getElem hptr', Option.getD_some] at hread
      have hneg : ((8 * w : Nat) : Int) - (r : Int) - (nbits : Int) < 0 := by omega
      have hupper : -(((8 * w : Nat) : Int) - (r : Int) - (nbits : Int))
          = ((nbits - (8 * w - r) : Nat) : Int) := by omega
      have hlower : ((8 * w : Nat) : Int) - (r : Int) - (nbits : Int) + ((8 * w : Nat) : Int)
          = ((8 * w - (nbits - (8 * w - r)) : Nat) : Int) := by omega
      rw [if_pos hneg, hupper, hlower, cShl_ok sh _ (by omega), ok_bind, wordAt_ok hptr', ok_bind,
        cShr_ok sh _ (by omega), ok_bind, pure_eq_ok, BitVec.or_assoc, hread, BitVec.or_comm]

/-- What the random-access reader of the significant-bits encoding returns. -/
theorem pcBytesSigbitsToPtr_ok {en : Endian} {sh : FullShift} (hsh : sh ≠ .trap) {e : PcBytes}
    {vs : List Bytes} (h : SigbitsOf en e vs) {i : Nat} (hi : i < vs.length) :
    pcBytesSigbitsToPtr en sh e i =
      .ok (en.wordBytes (e.valueAt en (i * e.nbits en % 2 ^ (8 * e.width)))) := by
  have hw := wordWidth_of_known h.known
  obtain ⟨nbits, commonvalue, payload, hbytes, -, hpacked⟩ := h.packed
  rw [pcBytesSigbitsToPtr_eq en sh hw rfl,
    sigbitsToPtrWords_ok hsh hw hpacked hbytes (by rwa [List.length_map]),
    valueAt_sigbits hbytes hpacked.nbits_le, nbits_sigbits hbytes hpacked.nbits_le]

/-- In words of four or eight bytes the position does not wrap around. -/
theorem SigbitsOf.position_eq {en : Endian} {e : PcBytes} {vs : List Bytes} (h : SigbitsOf en e vs)
    (hwide : 4 ≤ e.width) {i : Nat} (hi : i < vs.length) :
    i * e.nbits en % 2 ^ (8 * e.width) = i * e.nbits en := by
  obtain ⟨nbits, commonvalue, payload, hbytes, hbits, hpacked⟩ := h.packed
  rw [nbits_sigbits hbytes hpacked.nbits_le]
  apply Nat.mod_eq_of_lt
  have hmul := Nat.mul_le_mul_right nbits (Nat.le_of_lt hi)
  rw [h.npoints_eq, Nat.mul_comm e.npoints] at hmul
  have hpow : 2 ^ 32 ≤ 2 ^ (8 * e.width) := Nat.pow_le_pow_right (by decide) (by omega)
  omega

/-! ## All encodings -/

/-- The bytes that random access finds for value `i`. -/
def accessed (P : Platform) (e : PcBytes) (vs : List Bytes) (i : Nat) : Bytes :=
  if e.compression = .sigbits then
    P.endian.wordBytes (e.valueAt P.endian (i * e.nbits P.endian % 2 ^ (8 * e.width)))
  else vs.getD i []

/-- Random access into an encoded array. -/
theorem pcBytesToPtr_ok {e : PcBytes} {vs : List Bytes} (h : Stores P e vs)
    (hnp : e.npoints < 4294967296) {i : Nat} (hi : i < vs.length) :
    pcBytesToPtr P e i = .ok (accessed P e vs i) ∧ (accessed P e vs i).length = e.width := by
  have hget : vs.getD i [] = vs[i] := by
    rw [List.getD, List.getElem?_eq_getElem hi, Option.getD_some]
  have hwidth := h.width_eq vs[i] (List.getElem_mem hi)
  have hplain : ∀ d : PcBytes, d.Plain → d.values = vs → d.width = e.width →
      pcBytesUncompressedToPtr d i = .ok vs[i] := by
    intro d hd hvalues hdw
    have hdlen : i < d.npoints := by rw [← d.length_values, hvalues]; exact hi
    have hroom := hd.room
    have hend : i * d.width + d.width ≤ d.bytes.length := by
      have := Nat.mul_le_mul_right d.width (Nat.succ_le_of_lt hdlen)
      rw [Nat.succ_mul] at this
      omega
    have hvalue := records_getElem? d.width d.npoints d.bytes i hdlen
    rw [← PcBytes.values, hvalues, List.getElem?_eq_getElem hi, Option.some.injEq] at hvalue
    rw [pcBytesUncompressedToPtr, ← Int.natCast_mul, readAt_ok hend, hvalue]
  unfold pcBytesToPtr accessed
  cases hc : e.compression with
  | none =>
      obtain ⟨hd, hvalues⟩ := h.plainOf hc
      simp only [reduceCtorEq, if_false, hget]
      exact ⟨hplain e hd hvalues rfl, hwidth⟩
  | rle =>
      obtain ⟨rs, hof, hexpand⟩ := h.rleOf hc
      subst hexpand
      simp only [reduceCtorEq, if_false, hget]
      exact ⟨pcBytesRunLengthToPtr_ok hof hi, hwidth⟩
  | sigbits =>
      simp only [if_true]
      exact ⟨pcBytesSigbitsToPtr_ok P.shift_ne_trap (h.sigbitsOf hc) hi,
        Endian.length_wordBytes _ _⟩
  | zlib =>
      obtain ⟨d, hd, hdplain, hdvalues, -, hdinterp, -⟩ := pcBytesDecode_ok h hnp
      simp only [reduceCtorEq, if_false, hget]
      refine ⟨?_, hwidth⟩
      rw [pcBytesZlibToPtr, hd, ok_bind]
      exact hplain d hdplain hdvalues (by rw [PcBytes.width, hdinterp, PcBytes.width])
  | unknown code => exact absurd hc (h.compression_ne code)

end Pointcloud
