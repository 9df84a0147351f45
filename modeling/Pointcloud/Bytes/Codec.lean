/-
Pointcloud.Bytes.Codec — the encodings of a dimension together
(`pc_bytes.c`): zlib, and the functions that choose by compression.
-/
import Pointcloud.Platform
import Pointcloud.Bytes.RunLength
import Pointcloud.Bytes.Sigbits

namespace Pointcloud

open Pointcloud.Base

variable (P : Platform)

/-! ## zlib -/

/-- `pc_bytes_zlib_encode`. The counts that zlib is given have 32 bits, and it
refuses a null output buffer, which is what `pcalloc` gives for no bytes. -/
def pcBytesZlibEncode (pcb : PcBytes) : Run PcBytes := do
  let bufsize := 4 * pcb.size
  let _ ← pcalloc bufsize
  assertThat (bufsize ≠ 0)
  let input ← readAt pcb.bytes 0 (uint32 pcb.size)
  let out := P.zlib.deflate input (uint32 bufsize)
  return { pcb with size := out.length, bytes := out, compression := .zlib, readonly := false }

/-- `pc_bytes_zlib_decode`. The output buffer was zeroed. -/
def pcBytesZlibDecode (pcb : PcBytes) : Run PcBytes := do
  let size := pcb.width * pcb.npoints
  let block ← pcalloc size
  assertThat (size ≠ 0)
  let input ← readAt pcb.bytes 0 (uint32 pcb.size)
  let out := P.zlib.inflate input (uint32 size)
  return { pcb with size := size, bytes := out ++ block.drop out.length, compression := .none,
                    readonly := false }

/-! ## Choosing by compression -/

/-- `pc_bytes_encode`. -/
def pcBytesEncode (pcb : PcBytes) : DimCompression → Run PcBytes
  | .rle => pcBytesRunLengthEncode pcb
  | .sigbits => pcBytesSigbitsEncode P.endian P.shift pcb
  | .zlib => pcBytesZlibEncode P pcb
  | .none => pcBytesClone pcb
  | .unknown _ => raise "pc_bytes_encode: Uh oh"

/-- `pc_bytes_decode`. -/
def pcBytesDecode (epcb : PcBytes) : Run PcBytes :=
  match epcb.compression with
  | .rle => pcBytesRunLengthDecode epcb
  | .sigbits => pcBytesSigbitsDecode P.endian P.shift epcb
  | .zlib => pcBytesZlibDecode P epcb
  | .none => pcBytesClone epcb
  | .unknown _ => raise "pc_bytes_decode: Uh oh"

/-- `pc_bytes_flip_endian`. -/
def pcBytesFlipEndian (pcb : PcBytes) : Run PcBytes :=
  if pcb.readonly then raise "pc_bytes_flip_endian: cannot flip readonly bytes"
  else
    match pcb.compression with
    | .none => .ok pcb
    | .sigbits => pcBytesSigbitsFlipEndian pcb
    | .zlib => .ok pcb
    | .rle => pcBytesRunLengthFlipEndian pcb
    | .unknown _ => raise "pc_bytes_flip_endian: unknown compression"

/-! ## Random access -/

/-- `pc_bytes_uncompressed_to_ptr`. -/
def pcBytesUncompressedToPtr (pcb : PcBytes) (n : Int) : Run Bytes :=
  readAt pcb.bytes (n * pcb.width) pcb.width

/-- `pc_bytes_zlib_to_ptr`. -/
def pcBytesZlibToPtr (pcb : PcBytes) (n : Int) : Run Bytes := do
  let dpcb ← pcBytesDecode P pcb
  pcBytesUncompressedToPtr dpcb n

/-- `pc_bytes_to_ptr`. -/
def pcBytesToPtr (pcb : PcBytes) (n : Int) : Run Bytes :=
  match pcb.compression with
  | .rle => pcBytesRunLengthToPtr pcb n
  | .sigbits => pcBytesSigbitsToPtr P.endian P.shift pcb n
  | .zlib => pcBytesZlibToPtr P pcb n
  | .none => pcBytesUncompressedToPtr pcb n
  | .unknown _ => raise "pc_bytes_to_ptr: Uh oh"

end Pointcloud
