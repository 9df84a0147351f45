/-
Pointcloud.Pgsql.Hexwkb — points and patches from hexadecimal text (`pc_util.c`,
`pc_pgsql.c`).

A `char` is signed, so that a byte from 128 on is a negative index of the table.
Indices into the text and into the digits are products of an `int`. The schema
of a pcid is looked up in the formats table; `lookup` stands for that.
-/
import Pointcloud.Base.Hex
import Pointcloud.Patch.Wkb

namespace Pointcloud

open Pointcloud.Base

/-! ## Bytes from digits -/

/-- `hex2char`. Anything above 15 is no digit. -/
def hex2char : List Nat :=
  List.replicate 48 20 ++ [0, 1, 2, 3, 4, 5, 6, 7, 8, 9] ++ List.replicate 6 20 ++
    [20, 10, 11, 12, 13, 14, 15] ++ List.replicate 9 20 ++ List.replicate 16 20 ++
    [20, 10, 11, 12, 13, 14, 15] ++ List.replicate 25 20 ++ List.replicate 128 20

/-- `hex2char[(int)c]`. -/
def hexNumber (c : Byte) : Run Nat :=
  if 0 ≤ c.toInt then wordAt hex2char c.toInt.toNat else fault

/-- `hexbuf[i]`. -/
def charAt (hexbuf : Bytes) (i : Int) : Run Byte :=
  if 0 ≤ i then wordAt hexbuf i.toNat else fault

/-- The error for a character that is no digit. -/
def invalidHex {α : Type} (c : Byte) : Run α :=
  raise ("Invalid hex character (" ++ String.singleton (Char.ofNat c.toNat) ++ ") encountered")

/-- The byte of two digits. -/
def byteOfDigits (h1 h2 : Nat) : Byte := BitVec.ofNat 8 (((h1 &&& 15) <<< 4) ||| (h2 &&& 15))

/-- Two characters that were read. Both are looked up before one is refused. -/
def byteOfChars (c1 c2 : Byte) : Run Byte := do
  let h1 ← hexNumber c1
  let h2 ← hexNumber c2
  if 15 < h1 then invalidHex c1
  else if 15 < h2 then invalidHex c2
  else return byteOfDigits h1 h2

/-- Byte `i` of the text. -/
def hexByte (hexbuf : Bytes) (i : Nat) : Run Byte := do
  let c1 ← charAt hexbuf (int32 (2 * i))
  let c2 ← charAt hexbuf (int32 (2 * i + 1))
  byteOfChars c1 c2

/-- `pc_bytes_from_hexbytes`. -/
def pcBytesFromHexbytes (hexbuf : Bytes) : Run Bytes :=
  if hexbuf.length % 2 ≠ 0 then
    raise ("Invalid hex string, length (" ++ toString (int32 hexbuf.length) ++
      ") has to be a multiple of two!")
  else do
    let buf ← pcalloc (hexbuf.length / 2)
    -- for no bytes at all, `pcalloc` returns the null pointer
    if buf = [] then raise "Unable to allocate memory buffer."
    else (List.range (hexbuf.length / 2)).mapM (hexByte hexbuf)

/-! ## Digits from bytes -/

/-- `hexchr`. -/
def hexchr : Bytes := [48, 49, 50, 51, 52, 53, 54, 55, 56, 57, 65, 66, 67, 68, 69, 70]

/-- The digits that are stored for byte `i`. -/
def hexCopies (b : Byte) (i : Nat) : List (Int × Bytes) :=
  [(int32 (2 * i), [hexchr.getD (b.toNat >>> 4) 0]),
    (int32 (2 * i + 1), [hexchr.getD (b.toNat &&& 15) 0])]

/-- `pc_hexbytes_from_bytes`: the digits and the null byte behind them. -/
def pcHexbytesFromBytes (bytebuf : Bytes) : Run Bytes := do
  let buf ← pcalloc (2 * bytebuf.length + 1)
  let buf ← writeAt buf (2 * bytebuf.length : Nat) [0]
  writeAll buf (bytebuf.zipIdx.flatMap fun p => hexCopies p.1 p.2)

/-! ## Points and patches -/

variable (P : Platform) (lookup : Nat → Run (Option PcSchema))

/-- `pc_point_from_hexwkb`. A schema that was not found is used all the same. -/
def pcPointFromHexwkb (hexwkb : Bytes) : Run PcPoint := do
  let wkb ← pcBytesFromHexbytes hexwkb
  let pcid ← pcWkbGetPcid P.endian wkb
  match ← lookup pcid with
  | none => fault
  | some schema => pcPointFromWkb P schema wkb (hexwkb.length / 2)

/-- `pc_patch_from_hexwkb`. -/
def pcPatchFromHexwkb (hexwkb : Bytes) : Run PcPatch := do
  let wkb ← pcBytesFromHexbytes hexwkb
  let pcid ← pcWkbGetPcid P.endian wkb
  if pcid = 0 then raise "pc_patch_from_hexwkb: pcid is zero"
  else
    match ← lookup pcid with
    | none => raise "pc_patch_from_hexwkb: unable to look up schema entry"
    | some schema => pcPatchFromWkb P schema wkb (hexwkb.length / 2)

end Pointcloud
