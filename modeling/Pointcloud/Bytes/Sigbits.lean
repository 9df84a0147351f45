/-
Pointcloud.Bytes.Sigbits — the significant-bits encoding (`pc_bytes.c`).

The leading bits that all words of an array share are stored once; of every
word only the remaining `nbits` low bits are kept, packed one after the other
from the most significant end of an array of words of the same width. In
front stand two words: the number of unique bits and the common bits.

`pc_bytes.c` has each function four times, for words of 8, 16, 32 and 64
bits. The bodies are the same up to the types, and are written here once for
words of `w` bytes; the members keep what is their own, which is the size of
the output buffer on the encoding side and, for 8 bits, the decoding step.

Numbers of bits lie between 0 and the width of a word throughout, so a
`shift` that the C code lets go negative before it tests the sign is a
comparison of two naturals here.
-/
import Pointcloud.Base.BitPack
import Pointcloud.Bytes.Core

namespace Pointcloud

open Pointcloud.Base

/-! ## Counting the common bits -/

/-- `while (elem_and != elem_or)`: both are shifted right by one until they
agree. When no common bit is left every bit has been shifted out. -/
def commonbitsLoop {N : Nat} (elemAnd elemOr : BitVec N) : Nat → BitVec N × Nat
  | 0 => (elemAnd, 0)
  | commonbits + 1 =>
      if elemAnd = elemOr then (elemAnd, commonbits + 1)
      else commonbitsLoop (elemAnd >>> 1) (elemOr >>> 1) commonbits

/-- `pc_bytes_sigbits_count_N`: the common bits, and how many there are. -/
def sigbitsCountWords (sh : FullShift) (w : Nat) (words : List (Word w)) (npoints : Nat) :
    Run (Word w × Nat) := do
  let first ← wordAt words 0
  let elems ← intIndexed words npoints
  let elemAnd := elems.foldl (· &&& ·) first
  let elemOr := elems.foldl (· ||| ·) first
  let shifted := commonbitsLoop elemAnd elemOr (8 * w)
  let commonvalue ← cShl sh shifted.1 (8 * w - shifted.2 : Nat)
  return (commonvalue, shifted.2)

/-- `pc_bytes_sigbits_count_8`. -/
def pcBytesSigbitsCount8 (en : Endian) (sh : FullShift) (pcb : PcBytes) : Run (Word 1 × Nat) :=
  sigbitsCountWords sh 1 (wordsOf en 1 pcb.bytes) pcb.npoints

/-- `pc_bytes_sigbits_count_16`. -/
def pcBytesSigbitsCount16 (en : Endian) (sh : FullShift) (pcb : PcBytes) : Run (Word 2 × Nat) :=
  sigbitsCountWords sh 2 (wordsOf en 2 pcb.bytes) pcb.npoints

/-- `pc_bytes_sigbits_count_32`. -/
def pcBytesSigbitsCount32 (en : Endian) (sh : FullShift) (pcb : PcBytes) : Run (Word 4 × Nat) :=
  sigbitsCountWords sh 4 (wordsOf en 4 pcb.bytes) pcb.npoints

/-- `pc_bytes_sigbits_count_64`. -/
def pcBytesSigbitsCount64 (en : Endian) (sh : FullShift) (pcb : PcBytes) : Run (Word 8 × Nat) :=
  sigbitsCountWords sh 8 (wordsOf en 8 pcb.bytes) pcb.npoints

/-- `pc_bytes_sigbits_count`. -/
def pcBytesSigbitsCount (en : Endian) (sh : FullShift) (pcb : PcBytes) : Run Nat := do
  match pcb.width with
  | 1 => return (← pcBytesSigbitsCount8 en sh pcb).2
  | 2 => return (← pcBytesSigbitsCount16 en sh pcb).2
  | 4 => return (← pcBytesSigbitsCount32 en sh pcb).2
  | 8 => return (← pcBytesSigbitsCount64 en sh pcb).2
  | _ => raise ("pc_bytes_sigbits_count: cannot handle interpretation "
      ++ toString pcb.interpretation.code)

/-! ## Packing -/

/-- Where the packer stands: the word it writes to (counted behind the two
header words) and how many bits of that word are free. -/
structure PackState (N : Nat) where
  words : List (BitVec N)
  ptr : Nat
  bit : Nat

/-- One turn of the packing loop; `val` has been masked already. -/
def packStep (sh : FullShift) {N : Nat} (nbits : Nat) (val : BitVec N) (st : PackState N) :
    Run (PackState N) :=
  if nbits ≤ st.bit then do
    -- the value fits into the current word
    let v ← cShl sh val (st.bit - nbits : Nat)
    let words ← orAt st.words st.ptr v
    if st.bit - nbits = 0 then return ⟨words, st.ptr + 1, N⟩
    else return ⟨words, st.ptr, st.bit - nbits⟩
  else do
    -- its upper part goes into the current word, the rest into the next
    let s := nbits - st.bit
    let v ← cShr sh val s
    let words ← orAt st.words st.ptr v
    let v ← cShl sh val (N - s : Nat)
    let words ← orAt words (st.ptr + 1) v
    return ⟨words, st.ptr + 1, N - s⟩

/-- The packing loop. -/
def packLoop (sh : FullShift) {N : Nat} (nbits : Nat) (mask : BitVec N) :
    List (BitVec N) → PackState N → Run (PackState N)
  | [], st => .ok st
  | x :: xs, st => do
      let st ← packStep sh nbits (x &&& mask) st
      packLoop sh nbits mask xs st

/-- `pc_bytes_sigbits_encode_N` with an output buffer of `sizeOut` bytes, a
function of the number of packed bits. Every buffer has room for the two
header words. -/
def sigbitsEncodeWords (en : Endian) (sh : FullShift) (w : Nat) (sizeOut : Nat → Nat)
    (pcb : PcBytes) (commonvalue : Word w) (commonbits : Nat) : Run PcBytes := do
  let bitwidth := 8 * w
  let nbits := bitwidth - commonbits
  let size := sizeOut (uint32 (nbits * pcb.npoints))
  let mask ← cShr sh (BitVec.allOnes bitwidth) commonbits
  let head := [BitVec.ofNat bitwidth nbits, commonvalue]
  let free := List.replicate (size / w - 2) (0 : BitVec bitwidth)
  if bitwidth = commonbits then
    return { pcb with size := size, bytes := bytesOfWords en (head ++ free),
                      compression := .sigbits, readonly := false }
  else
    let words ← intIndexed (wordsOf en w pcb.bytes) pcb.npoints
    let st ← packLoop sh nbits mask words ⟨free, 0, bitwidth⟩
    return { pcb with size := size, bytes := bytesOfWords en (head ++ st.words),
                      compression := .sigbits, readonly := false }

/-- The size of the buffer in `pc_bytes_sigbits_encode_8`. -/
def sizeOut8 (bits : Nat) : Nat := bits / 8 + 3

/-- The size of the buffer in `pc_bytes_sigbits_encode_16`. -/
def sizeOut16 (bits : Nat) : Nat := bits / 8 + 1 + 4 + (bits / 8 + 1 + 4) % 2

/-- The size of the buffer in `pc_bytes_sigbits_encode_32`. -/
def sizeOut32 (bits : Nat) : Nat := bits / 8 + 1 + 8 + (4 - (bits / 8 + 1 + 8) % 4)

/-- The size of the buffer in `pc_bytes_sigbits_encode_64`. -/
def sizeOut64 (bits : Nat) : Nat := bits / 8 + 1 + 16 + (8 - (bits / 8 + 1 + 16) % 8)

/-- `pc_bytes_sigbits_encode_8`. -/
def pcBytesSigbitsEncode8 (en : Endian) (sh : FullShift) (pcb : PcBytes) (commonvalue : Word 1)
    (commonbits : Nat) : Run PcBytes :=
  sigbitsEncodeWords en sh 1 sizeOut8 pcb commonvalue commonbits

/-- `pc_bytes_sigbits_encode_16`. -/
def pcBytesSigbitsEncode16 (en : Endian) (sh : FullShift) (pcb : PcBytes) (commonvalue : Word 2)
    (commonbits : Nat) : Run PcBytes :=
  sigbitsEncodeWords en sh 2 sizeOut16 pcb commonvalue commonbits

/-- `pc_bytes_sigbits_encode_32`. -/
def pcBytesSigbitsEncode32 (en : Endian) (sh : FullShift) (pcb : PcBytes) (commonvalue : Word 4)
    (commonbits : Nat) : Run PcBytes :=
  sigbitsEncodeWords en sh 4 sizeOut32 pcb commonvalue commonbits

/-- `pc_bytes_sigbits_encode_64`. -/
def pcBytesSigbitsEncode64 (en : Endian) (sh : FullShift) (pcb : PcBytes) (commonvalue : Word 8)
    (commonbits : Nat) : Run PcBytes :=
  sigbitsEncodeWords en sh 8 sizeOut64 pcb commonvalue commonbits

/-- `pc_bytes_sigbits_encode`. -/
def pcBytesSigbitsEncode (en : Endian) (sh : FullShift) (pcb : PcBytes) : Run PcBytes := do
  match pcb.width with
  | 1 =>
      let common ← pcBytesSigbitsCount8 en sh pcb
      pcBytesSigbitsEncode8 en sh pcb common.1 common.2
  | 2 =>
      let common ← pcBytesSigbitsCount16 en sh pcb
      pcBytesSigbitsEncode16 en sh pcb common.1 common.2
  | 4 =>
      let common ← pcBytesSigbitsCount32 en sh pcb
      pcBytesSigbitsEncode32 en sh pcb common.1 common.2
  | 8 =>
      let common ← pcBytesSigbitsCount64 en sh pcb
      pcBytesSigbitsEncode64 en sh pcb common.1 common.2
  | _ => raise ("pc_bytes_sigbits_encode: bits_encode cannot handle interpretation "
      ++ toString pcb.interpretation.code)

/-! ## Unpacking -/

/-- Where the unpacker stands: the word it reads (counted behind the two
header words) and how many bits of that word are still to come. -/
structure ReadState where
  ptr : Nat
  bit : Nat

/-- One turn of the loop in `pc_bytes_sigbits_decode_16`, `_32` and `_64`. -/
def unpackStep (sh : FullShift) {N : Nat} (words : List (BitVec N)) (nbits : Nat)
    (mask commonvalue : BitVec N) (st : ReadState) : Run (BitVec N × ReadState) := do
  let val ← wordAt words st.ptr
  if nbits ≤ st.bit then
    let v ← cShr sh val (st.bit - nbits : Nat)
    if st.bit - nbits = 0 then return (v &&& mask ||| commonvalue, ⟨st.ptr + 1, N⟩)
    else return (v &&& mask ||| commonvalue, ⟨st.ptr, st.bit - nbits⟩)
  else
    let s := nbits - st.bit
    let upper ← cShl sh val s
    let val ← wordAt words (st.ptr + 1)
    let lower ← cShr sh val (N - s : Nat)
    return (upper &&& mask ||| commonvalue ||| lower &&& mask, ⟨st.ptr + 1, N - s⟩)

/-- One turn of the loop in `pc_bytes_sigbits_decode_8`. It stays on a word
whose bits are used up, and moves on when it needs the next bit. -/
def unpackStep8 (sh : FullShift) {N : Nat} (words : List (BitVec N)) (nbits : Nat)
    (mask commonvalue : BitVec N) (st : ReadState) : Run (BitVec N × ReadState) := do
  let val ← wordAt words st.ptr
  if nbits ≤ st.bit then
    let v ← cShr sh val (st.bit - nbits : Nat)
    return (v &&& mask ||| commonvalue, ⟨st.ptr, st.bit - nbits⟩)
  else
    let s := nbits - st.bit
    let upper ← cShl sh val s
    let val ← wordAt words (st.ptr + 1)
    let lower ← cShr sh val (N - s : Nat)
    return (upper &&& mask ||| commonvalue ||| lower &&& mask, ⟨st.ptr + 1, N - s⟩)

/-- The unpacking loop, for a given number of values. -/
def unpackLoop {N : Nat} (step : ReadState → Run (BitVec N × ReadState)) :
    Nat → ReadState → Run (List (BitVec N))
  | 0, _ => .ok []
  | n + 1, st => do
      let (val, st) ← step st
      let rest ← unpackLoop step n st
      return val :: rest

/-- `pc_bytes_sigbits_decode_N` with the given turn of the loop. -/
def sigbitsDecodeWords (en : Endian) (sh : FullShift) (w : Nat)
    (step : List (Word w) → Nat → Word w → Word w → ReadState → Run (Word w × ReadState))
    (pcb : PcBytes) : Run PcBytes := do
  let words := wordsOf en w pcb.bytes
  let nbits ← wordAt words 0
  let commonvalue ← wordAt words 1
  let mask ← cShr sh (BitVec.allOnes (8 * w)) ((8 * w : Nat) - nbits.toNat : Int)
  intLoop pcb.npoints
  let out ← unpackLoop (step (words.drop 2) nbits.toNat mask commonvalue) pcb.npoints ⟨0, 8 * w⟩
  return { pcb with size := w * pcb.npoints, bytes := bytesOfWords en out,
                    compression := .none, readonly := false }

/-- `pc_bytes_sigbits_decode_8`. -/
def pcBytesSigbitsDecode8 (en : Endian) (sh : FullShift) (pcb : PcBytes) : Run PcBytes :=
  sigbitsDecodeWords en sh 1 (unpackStep8 sh) pcb

/-- `pc_bytes_sigbits_decode_16`. -/
def pcBytesSigbitsDecode16 (en : Endian) (sh : FullShift) (pcb : PcBytes) : Run PcBytes :=
  sigbitsDecodeWords en sh 2 (unpackStep sh) pcb

/-- `pc_bytes_sigbits_decode_32`. -/
def pcBytesSigbitsDecode32 (en : Endian) (sh : FullShift) (pcb : PcBytes) : Run PcBytes :=
  sigbitsDecodeWords en sh 4 (unpackStep sh) pcb

/-- `pc_bytes_sigbits_decode_64`. -/
def pcBytesSigbitsDecode64 (en : Endian) (sh : FullShift) (pcb : PcBytes) : Run PcBytes :=
  sigbitsDecodeWords en sh 8 (unpackStep sh) pcb

/-- `pc_bytes_sigbits_decode`. -/
def pcBytesSigbitsDecode (en : Endian) (sh : FullShift) (pcb : PcBytes) : Run PcBytes :=
  match pcb.width with
  | 1 => pcBytesSigbitsDecode8 en sh pcb
  | 2 => pcBytesSigbitsDecode16 en sh pcb
  | 4 => pcBytesSigbitsDecode32 en sh pcb
  | 8 => pcBytesSigbitsDecode64 en sh pcb
  | _ => raise ("pc_bytes_sigbits_decode: cannot handle interpretation "
      ++ toString pcb.interpretation.code)

/-! ## Random access -/

/-- `pc_bytes_sigbits_to_ptr_N`. The mask is shifted as a 64-bit number; the
bit offset is kept in a word of the array's own width. -/
def sigbitsToPtrWords (en : Endian) (sh : FullShift) (w : Nat) (pcb : PcBytes) (n : Int) :
    Run Bytes := do
  let words := wordsOf en w pcb.bytes
  let nbits ← wordAt words 0
  let commonvalue ← wordAt words 1
  let mask ← cShr sh (BitVec.allOnes 64) (64 - nbits.toNat : Int)
  let mask : Word w := mask.setWidth (8 * w)
  let bitoffset : Word w := BitVec.ofInt (8 * w) (n * nbits.toNat)
  let payload := words.drop 2
  let ptr := bitoffset.toNat / (8 * w)
  let shift : Int := (8 * w : Nat) - (bitoffset.toNat % (8 * w) : Nat) - nbits.toNat
  let val ← wordAt payload ptr
  if shift < 0 then
    let upper ← cShl sh val (-shift)
    let val ← wordAt payload (ptr + 1)
    let lower ← cShr sh val (shift + (8 * w : Nat))
    return en.wordBytes (commonvalue ||| upper &&& mask ||| lower &&& mask)
  else
    let val ← cShr sh val shift
    return en.wordBytes (commonvalue ||| val &&& mask)

/-- `pc_bytes_sigbits_to_ptr_8`. -/
def pcBytesSigbitsToPtr8 (en : Endian) (sh : FullShift) (pcb : PcBytes) (n : Int) : Run Bytes :=
  sigbitsToPtrWords en sh 1 pcb n

/-- `pc_bytes_sigbits_to_ptr_16`. -/
def pcBytesSigbitsToPtr16 (en : Endian) (sh : FullShift) (pcb : PcBytes) (n : Int) : Run Bytes :=
  sigbitsToPtrWords en sh 2 pcb n

/-- `pc_bytes_sigbits_to_ptr_32`. -/
def pcBytesSigbitsToPtr32 (en : Endian) (sh : FullShift) (pcb : PcBytes) (n : Int) : Run Bytes :=
  sigbitsToPtrWords en sh 4 pcb n

/-- `pc_bytes_sigbits_to_ptr_64`. -/
def pcBytesSigbitsToPtr64 (en : Endian) (sh : FullShift) (pcb : PcBytes) (n : Int) : Run Bytes :=
  sigbitsToPtrWords en sh 8 pcb n

/-- `pc_bytes_sigbits_to_ptr`. -/
def pcBytesSigbitsToPtr (en : Endian) (sh : FullShift) (pcb : PcBytes) (n : Int) : Run Bytes :=
  match pcb.width with
  | 1 => pcBytesSigbitsToPtr8 en sh pcb n
  | 2 => pcBytesSigbitsToPtr16 en sh pcb n
  | 4 => pcBytesSigbitsToPtr32 en sh pcb n
  | 8 => pcBytesSigbitsToPtr64 en sh pcb n
  | _ => raise ("pc_bytes_sigbits_to_ptr: cannot handle interpretation "
      ++ toString pcb.interpretation.code)

/-! ## Byte order -/

/-- `pc_bytes_sigbits_flip_endian`: the two header words are reversed in place. -/
def pcBytesSigbitsFlipEndian (pcb : PcBytes) : Run PcBytes := do
  let size := pcb.width
  if size < 2 then return pcb
  else
    let b1 ← readAt pcb.bytes 0 size
    let b2 ← readAt pcb.bytes size size
    let bytes ← writeAt pcb.bytes 0 (b1.reverse ++ b2.reverse)
    return { pcb with bytes := bytes }

end Pointcloud
