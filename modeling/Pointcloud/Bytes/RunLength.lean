/-
Pointcloud.Bytes.RunLength — the run-length encoding (`pc_bytes.c`).

The encoded block is a sequence of entries, a count byte and a value each.
Readers walk it from entry to entry while the pointer is in front of the end,
so entry `i` begins at `i * (width + 1)` and is looked at when that is below
`size`; the last one may be cut off.
-/
import Pointcloud.Bytes.Core

namespace Pointcloud

open Pointcloud.Base

/-! ## Reading values -/

/-- The values of a plain array, read in a loop with an `int` index. -/
def readValues (pcb : PcBytes) : Run (List Bytes) := do
  intLoop pcb.npoints
  if pcb.npoints * pcb.width ≤ pcb.bytes.length then .ok pcb.values else fault

/-- One more than the number of neighbours that differ. -/
def runCountOf : List Bytes → Nat
  | a :: b :: vs => runCountOf (b :: vs) + if a = b then 0 else 1
  | _ => 1

/-- `pc_bytes_run_count`. A single value is not looked at. -/
def pcBytesRunCount (pcb : PcBytes) : Run Nat := do
  if pcb.npoints ≤ 1 then return 1
  else
    let values ← readValues pcb
    return runCountOf values

/-! ## Encoding -/

/-- An entry: the count and the value. -/
def rleEntry (count : Nat) (value : Bytes) : Bytes := BitVec.ofNat 8 count :: value

/-- Append to a buffer with room for `capacity` bytes. -/
def emit (capacity : Nat) (out src : Bytes) : Run Bytes :=
  if out.length + src.length ≤ capacity then .ok (out ++ src) else fault

/-- The loop of `pc_bytes_run_length_encode`: the values still to come, the
value of the current run and its length, and what has been written. -/
def runLengthLoop (capacity : Nat) : List Bytes → Bytes → Nat → Bytes → Run Bytes
  | [], runstart, runlength, out => emit capacity out (rleEntry runlength runstart)
  | v :: vs, runstart, runlength, out =>
      if runlength < 255 ∧ runstart = v then
        runLengthLoop capacity vs runstart (runlength + 1) out
      else do
        let out ← emit capacity out (rleEntry runlength runstart)
        runLengthLoop capacity vs v 1 out

/-- `pc_bytes_run_length_encode`. -/
def pcBytesRunLengthEncode (pcb : PcBytes) : Run PcBytes := do
  let values ← readValues pcb
  let bytes ← match values with
    | [] => .ok []
    | v :: vs => runLengthLoop (pcb.npoints * pcb.width + pcb.npoints) vs v 1 []
  return { pcb with size := bytes.length, bytes := bytes, compression := .rle, readonly := false }

/-! ## Decoding -/

/-- The entries that a walk to the end of the data looks at. -/
def rleEntries (pcb : PcBytes) : List Bytes :=
  records (pcb.width + 1) ((pcb.size + pcb.width) / (pcb.width + 1)) pcb.bytes

/-- The count of an entry. -/
def entryCount : Bytes → Run Nat
  | [] => fault
  | count :: _ => .ok count.toNat

/-- The value of an entry. -/
def entryValue (width : Nat) (entry : Bytes) : Run Bytes :=
  if entry.length = width + 1 then .ok entry.tail else fault

/-- The values that an entry adds to the output; the value is read once for each. -/
def entryValues (width : Nat) (entry : Bytes) : Run (List Bytes) := do
  let count ← entryCount entry
  if count = 0 then return []
  else
    let value ← entryValue width entry
    return List.replicate count value

/-- `pc_bytes_run_length_decode`. The output has room for `npoints` values. -/
def pcBytesRunLengthDecode (pcb : PcBytes) : Run PcBytes := do
  assertThat (pcb.compression = .rle)
  let counts ← (rleEntries pcb).mapM entryCount
  assertThat (uint32 counts.sum = pcb.npoints)
  let values ← (rleEntries pcb).mapM (entryValues pcb.width)
  if values.flatten.length ≤ pcb.npoints then
    return { pcb with size := pcb.width * pcb.npoints, bytes := values.flatten.flatten,
                      compression := .none, readonly := false }
  else fault

/-! ## Random access -/

/-- The loop of `pc_bytes_run_length_to_ptr`. -/
def runLengthToPtrLoop (width : Nat) : List Bytes → Int → Run Bytes
  | [], _ => raise "pc_bytes_run_length_to_ptr: out of bound"
  | entry :: entries, n => do
      let run ← entryCount entry
      if n < run then entryValue width entry
      else runLengthToPtrLoop width entries (n - run)

/-- `pc_bytes_run_length_to_ptr`. -/
def pcBytesRunLengthToPtr (pcb : PcBytes) (n : Int) : Run Bytes := do
  assertThat (pcb.compression = .rle)
  runLengthToPtrLoop pcb.width (rleEntries pcb) n

/-! ## Byte order -/

/-- An entry with its value reversed. -/
def flipEntry (width : Nat) (entry : Bytes) : Run Bytes :=
  match entry with
  | count :: value => if value.length = width then .ok (count :: value.reverse) else fault
  | [] => fault

/-- `pc_bytes_run_length_flip_endian`. The walk visits the entries whose value
begins in front of the end. -/
def pcBytesRunLengthFlipEndian (pcb : PcBytes) : Run PcBytes := do
  assertThat (pcb.compression = .rle)
  assertThat (0 < pcb.npoints)
  let width := pcb.width
  if width < 2 then return pcb
  else
    let oldbytes := pcb.bytes
    let bytes ← if pcb.readonly then readAt oldbytes 0 pcb.size else .ok oldbytes
    let visited := (pcb.size - 1 + width) / (width + 1)
    let entries ← (records (width + 1) visited oldbytes).mapM (flipEntry width)
    let flipped := entries.flatten ++ oldbytes.drop (visited * (width + 1))
    -- the walk began before read-only memory was copied, so the copy is not flipped
    return { pcb with bytes := if pcb.readonly then bytes else flipped
                      readonly := false }

end Pointcloud
