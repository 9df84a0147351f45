/-
Pointcloud.Bytes.Filter — bitmaps, and the values that they mark
(`pc_filter.c`, `pc_bytes.c`).

A bitmap has an entry for each point. Filtering a dimension happens in two
steps: the values are compared with the bounds of the filter, which sets the
entries; then the marked values of every dimension are copied, and statistics
of the stored numbers are gathered on the way.

The loops here run an `int` up to the number of points. The ones over runs
compute the end of a run as an `int` sum.
-/
import Pointcloud.Base.Selection
import Pointcloud.Bytes.Wire

namespace Pointcloud

open Pointcloud.Base

/-! ## Bitmaps -/

/-- `PCBITMAP`: an entry is false where the byte of the map is zero. -/
structure PcBitmap where
  nset : Nat
  map : List Bool
  nset_eq : nset = map.count true

/-- `npoints`. -/
def PcBitmap.npoints (map : PcBitmap) : Nat := map.map.length

/-- The bitmap with the given entries. -/
def PcBitmap.of (bits : List Bool) : PcBitmap := ⟨bits.count true, bits, rfl⟩

/-- `pc_bitmap_new`. -/
def pcBitmapNew (npoints : Nat) : PcBitmap where
  nset := 0
  map := List.replicate npoints false
  nset_eq := by simp [List.count_replicate]

/-- `pc_bitmap_get`. -/
def pcBitmapGet (map : PcBitmap) (i : Int) : Run Bool :=
  if i < 0 then fault else wordAt map.map i.toNat

/-- The number of set entries after one of them is set or cleared. -/
theorem count_set {bits : List Bool} {i : Nat} {cur : Bool} (h : bits[i]? = some cur) (val : Bool) :
    (bits.set i val).count true =
      (if val && !cur then bits.count true + 1
       else if !val && cur then bits.count true - 1 else bits.count true) := by
  obtain ⟨hi, rfl⟩ := List.getElem?_eq_some_iff.mp h
  rw [List.count_set hi]
  cases hcur : bits[i] <;> cases val <;> simp
  have hpos : 0 < bits.count true := List.count_pos_iff.mpr (hcur ▸ List.getElem_mem hi)
  omega

/-- `pc_bitmap_set`. -/
def pcBitmapSet (map : PcBitmap) (i : Int) (val : Bool) : Run PcBitmap :=
  if i < 0 then fault
  else
    match h : map.map[i.toNat]? with
    | none => fault
    | some cur => .ok {
        nset := if val && !cur then map.nset + 1
          else if !val && cur then map.nset - 1 else map.nset
        map := map.map.set i.toNat val
        nset_eq := by rw [count_set h val, map.nset_eq] }

/-- `PC_FILTERTYPE`. -/
inductive PcFiltertype where
  | gt
  | lt
  | equal
  | between
  deriving DecidableEq, Repr

/-- The comparison that a filter makes. -/
def PcFiltertype.holds (filter : PcFiltertype) (d val1 val2 : ℚ) : Bool :=
  match filter with
  | .gt => val1 < d
  | .lt => d < val1
  | .equal => d = val1
  | .between => val1 < d && d < val2

/-- `pc_bitmap_filter`. -/
def pcBitmapFilter (map : PcBitmap) (filter : PcFiltertype) (i : Int) (d val1 val2 : ℚ) :
    Run PcBitmap :=
  pcBitmapSet map i (filter.holds d val1 val2)

/-- `pc_bitmap_filter` for several numbers in turn, from an index on. -/
def bitmapFilterFrom (filter : PcFiltertype) (val1 val2 : ℚ) : PcBitmap → Int → List ℚ →
    Run PcBitmap
  | map, _, [] => .ok map
  | map, i, d :: ds => do
      let map ← pcBitmapFilter map filter i d val1 val2
      bitmapFilterFrom filter val1 val2 map (i + 1) ds

section Bitmaps

variable (en : Endian) (filter : PcFiltertype) (val1 val2 : ℚ)

/-- `pc_bytes_uncompressed_bitmap`. -/
def pcBytesUncompressedBitmap (pcb : PcBytes) : Run PcBitmap := do
  intLoop pcb.npoints
  let ds ← (List.range pcb.npoints).mapM fun i =>
    pcDoubleFromPtr en pcb.bytes (i * pcb.width : Nat) pcb.interpretation
  bitmapFilterFrom filter val1 val2 (pcBitmapNew pcb.npoints) 0 ds

/-- The loop of `pc_bytes_run_length_bitmap`: where the next run begins, and
the bitmap. A run whose end has wrapped around sets nothing. -/
def runLengthBitmapLoop (interpretation : Interpretation) : List Bytes → Int → PcBitmap →
    Run PcBitmap
  | [], _, map => .ok map
  | entry :: entries, i, map => do
      let count ← entryCount entry
      let run := int32 (i + count)
      let d ← pcDoubleFromPtr en entry 1 interpretation
      let map ← bitmapFilterFrom filter val1 val2 map i (List.replicate (run - i).toNat d)
      runLengthBitmapLoop interpretation entries (if i < run then run else i) map

/-- `pc_bytes_run_length_bitmap`. -/
def pcBytesRunLengthBitmap (pcb : PcBytes) : Run PcBitmap :=
  runLengthBitmapLoop en filter val1 val2 pcb.interpretation (rleEntries pcb) 0
    (pcBitmapNew pcb.npoints)

/-- `pc_bytes_bitmap`. -/
def pcBytesBitmap (P : Platform) (pcb : PcBytes) : Run PcBitmap :=
  match pcb.compression with
  | .none => pcBytesUncompressedBitmap P.endian filter val1 val2 pcb
  | .sigbits | .zlib => do
      let dpcb ← pcBytesDecode P pcb
      pcBytesUncompressedBitmap P.endian filter val1 val2 dpcb
  | .rle => pcBytesRunLengthBitmap P.endian filter val1 val2 pcb
  | .unknown _ => raise "pc_bytes_bitmap: unknown compression"

end Bitmaps

/-! ## Filtering values -/

section Filtering

variable (en : Endian) (pcb : PcBytes) (map : PcBitmap) (stats : Option PcDoubleStat)

/-- `pc_bytes_uncompressed_filter`. Statistics are gathered if they are asked for. -/
def pcBytesUncompressedFilter : Run (PcBytes × Option PcDoubleStat) := do
  let fpcb ← pcBytesClone pcb
  intLoop pcb.npoints
  let marks ← (List.range pcb.npoints).mapM fun (i : Nat) => pcBitmapGet map i
  let marked := select marks (List.range pcb.npoints)
  let stats ← stats.mapM fun st => do
    let ds ← marked.mapM fun i =>
      pcDoubleFromPtr en pcb.bytes (i * pcb.width : Nat) pcb.interpretation
    return ds.foldl PcDoubleStat.add st
  let values ← marked.mapM fun i => readAt pcb.bytes (i * pcb.width : Nat) pcb.width
  let out ← emit fpcb.bytes.length [] values.flatten
  return ({ fpcb with
    size := out.length
    npoints := values.length
    bytes := out ++ fpcb.bytes.drop out.length }, stats)

/-- The loop of `pc_bytes_run_length_filter`: where the next run begins, the
number of points kept, what has been written into a block of `capacity` bytes,
and the statistics. No more than 255 entries of a run are looked at, so its
count stays a byte. -/
def runLengthFilterLoop (capacity : Nat) : List Bytes → Int → Nat → Bytes → Option PcDoubleStat →
    Run (Bytes × Nat × Option PcDoubleStat)
  | [], _, npoints, out, stats => .ok (out, npoints, stats)
  | entry :: entries, i, npoints, out, stats => do
      let count ← entryCount entry
      let stop := int32 (i + count)
      let marks ← (List.range (stop - i).toNat).mapM fun (k : Nat) => pcBitmapGet map (i + k)
      let fcount := marks.count true
      if fcount = 0 then
        runLengthFilterLoop capacity entries stop npoints out stats
      else do
        let value ← entryValue pcb.width entry
        let out ← emit capacity out (rleEntry fcount value)
        let stats ← stats.mapM fun st => do
          let d ← pcDoubleFromPtr en entry 1 pcb.interpretation
          return st.add d
        runLengthFilterLoop capacity entries stop (npoints + fcount) out stats

/-- `pc_bytes_run_length_filter`. -/
def pcBytesRunLengthFilter : Run (PcBytes × Option PcDoubleStat) := do
  let fpcb ← pcBytesClone pcb
  let (out, npoints, stats) ← runLengthFilterLoop en pcb map fpcb.bytes.length (rleEntries pcb) 0 0
    [] stats
  return ({ fpcb with
    size := out.length
    npoints := uint32 npoints
    bytes := out ++ fpcb.bytes.drop out.length }, stats)

end Filtering

/-- `pc_bytes_filter`. -/
def pcBytesFilter (P : Platform) (pcb : PcBytes) (map : PcBitmap) (stats : Option PcDoubleStat) :
    Run (PcBytes × Option PcDoubleStat) :=
  match pcb.compression with
  | .none => pcBytesUncompressedFilter P.endian pcb map stats
  | .rle => pcBytesRunLengthFilter P.endian pcb map stats
  | .sigbits | .zlib => do
      let dpcb ← pcBytesDecode P pcb
      let (fpcb, stats) ← pcBytesUncompressedFilter P.endian dpcb map stats
      let efpcb ← pcBytesEncode P fpcb pcb.compression
      return (efpcb, stats)
  | .unknown _ => raise "pc_bytes_filter: unknown compression"

end Pointcloud
