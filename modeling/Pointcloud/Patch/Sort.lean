/-
Pointcloud.Patch.Sort — sorting a patch and asking whether it is sorted
(`pc_sort.c`).

The comparison of two records is the three-way comparison of C, `-1`, `0` or
`1`, dimension by dimension. The walks over records and over values compare
each element with the next while the pointer is in front of the last one; the
number of comparisons is what that condition makes it. The sort itself is the
`qsort_r` of the C library.
-/
import Pointcloud.Patch.Core

namespace Pointcloud

open Pointcloud.Base

/-! ## Comparing -/

/-- `(da > db) - (da < db)`. -/
def compareDouble (da db : ℚ) : Int := if db < da then 1 else if da < db then -1 else 0

/-- `pc_compare_dim`, of the memory behind two pointers. Behind the dimensions
stands a null pointer. -/
def pcCompareDim (en : Endian) (a b : Bytes) : List PcDimension → Run Int
  | [] => fault
  | dim :: rest => do
      let da ← pcDoubleFromPtr en a dim.byteoffset dim.interpretation
      let db ← pcDoubleFromPtr en b dim.byteoffset dim.interpretation
      let cmp := compareDouble da db
      if cmp = 0 ∧ rest ≠ [] then pcCompareDim en a b rest else return cmp

/-- `pc_compare_pcb`. -/
def pcComparePcb (en : Endian) (a b : Bytes) (pcb : PcBytes) : Run Int := do
  let da ← pcDoubleFromPtr en a 0 pcb.interpretation
  let db ← pcDoubleFromPtr en b 0 pcb.interpretation
  return compareDouble da db

/-! ## Sorting -/

/-- `qsort_r` on an array of records: whatever the comparison returns on two of
them, as long as it orders them, the records come out in that order. -/
structure SortR where
  sort : (Bytes → Bytes → Run Int) → List Bytes → Run (List Bytes)
  sort_ok : ∀ (cmp : Bytes → Bytes → Run Int) (c : Bytes → Bytes → Int) (l : List Bytes),
    (∀ a ∈ l, ∀ b ∈ l, cmp a b = .ok (c a b)) →
    (∀ a ∈ l, ∀ b ∈ l, c a b ≤ 0 ∨ c b a ≤ 0) →
    (∀ a ∈ l, ∀ b ∈ l, ∀ d ∈ l, c a b ≤ 0 → c b d ≤ 0 → c a d ≤ 0) →
    ∃ l', sort cmp l = .ok l' ∧ l'.Perm l ∧ l'.Pairwise fun a b => c a b ≤ 0

/-- `pc_schema_get_dimensions_by_name`. -/
def pcSchemaGetDimensionsByName (schema : PcSchema) (names : List String) :
    Run (List PcDimension) :=
  names.mapM fun name =>
    match pcSchemaGetDimensionByName schema name with
    | none => raise ("dimension \"" ++ name ++ "\" does not exist")
    | some dim => do
        assertThat (0 < dim.scale)
        return dim

variable (P : Platform) (S : SortR)

/-- `pc_patch_uncompressed_sort`. -/
def pcPatchUncompressedSort (pu : PcPatchUncompressed) (dims : List PcDimension) :
    Run PcPatchUncompressed := do
  let spu ← pcPatchUncompressedMake pu.schema pu.npoints
  let src ← readAt pu.data.content 0 pu.datasize
  let data ← writeAt spu.data.content 0 src
  let sorted ← S.sort (fun a b => pcCompareDim P.endian a b dims)
    (records pu.schema.size pu.npoints data)
  return { spu with
    npoints := pu.npoints
    bounds := pu.bounds
    stats := pcStatsClone pu.stats
    data := bufOf (sorted.flatten ++ data.drop (pu.npoints * pu.schema.size)) }

/-- `pc_patch_sort`. -/
def pcPatchSort (pa : PcPatch) (names : List String) : Run PcPatch := do
  let dims ← pcSchemaGetDimensionsByName pa.schema names
  let pu ← pcPatchUncompress P pa
  let ps ← pcPatchUncompressedSort P S pu dims
  return .uncompressed ps

/-! ## Walking neighbours -/

/-- `if (cmp >= strict) return PC_FALSE`, along the given indices. -/
def isSortedLoop (cmp : Nat → Run Int) (strict : Int) : List Nat → Run Bool
  | [] => .ok true
  | i :: is => do
      let c ← cmp i
      if strict ≤ c then return false else isSortedLoop cmp strict is

/-- `pc_patch_uncompressed_is_sorted`. The end is computed from the pointer to
the data: behind a null pointer the comparison of addresses holds at once
unless the size is that of one record. -/
def pcPatchUncompressedIsSorted (pu : PcPatchUncompressed) (dims : List PcDimension)
    (strict : Int) : Run Bool :=
  let size := pu.schema.size
  match pu.data with
  | none => if pu.datasize = size then .ok true else fault
  | some buf =>
      isSortedLoop (fun i =>
          pcCompareDim P.endian (buf.drop (i * size)) (buf.drop (i * size + size)) dims)
        strict (List.range ((pu.datasize - 1) / size))

/-- `pc_bytes_uncompressed_is_sorted`. Without a byte the end lies in front of the
array, for a null pointer in front of every address. -/
def pcBytesUncompressedIsSorted (pcb : PcBytes) (strict : Int) : Run Bool := do
  assertThat (pcb.compression = .none)
  if pcb.bytes = [] then fault
  else
    isSortedLoop (fun i =>
        pcComparePcb P.endian (pcb.bytes.drop (i * pcb.width))
          (pcb.bytes.drop (i * pcb.width + pcb.width)) pcb)
      strict (List.range ((pcb.size - 1) / pcb.width))

/-- `pc_bytes_sigbits_is_sorted`. -/
def pcBytesSigbitsIsSorted (pcb : PcBytes) (strict : Int) : Run Bool := do
  assertThat (pcb.compression = .sigbits)
  let dpcb ← pcBytesDecode P pcb
  pcBytesUncompressedIsSorted P dpcb strict

/-- `pc_bytes_zlib_is_sorted`. -/
def pcBytesZlibIsSorted (pcb : PcBytes) (strict : Int) : Run Bool := do
  assertThat (pcb.compression = .zlib)
  let dpcb ← pcBytesDecode P pcb
  pcBytesUncompressedIsSorted P dpcb strict

/-- The loop of `pc_bytes_run_length_is_sorted`: the value of each entry is
compared with that of the next. -/
def runLengthIsSortedLoop (pcb : PcBytes) (strict : Int) : List Nat → Run Bool
  | [] => .ok true
  | i :: is => do
      let entry := pcb.bytes.drop (i * (pcb.width + 1))
      let next := pcb.bytes.drop ((i + 1) * (pcb.width + 1))
      let run ← wordAt entry 0
      assertThat (0 < run.toNat)
      let c ← pcComparePcb P.endian (entry.drop 1) (next.drop 1) pcb
      if strict ≤ c ∨ (strict ≠ 0 ∧ 1 < run.toNat) then return false
      else runLengthIsSortedLoop pcb strict is

/-- `pc_bytes_run_length_is_sorted`. The walk goes on while the value of the next
entry begins in front of the last value: entry `i + 1` of `size / (width + 1)`
whole ones is compared when `(i + 1) * (width + 1) + 1 < size - width`. -/
def pcBytesRunLengthIsSorted (pcb : PcBytes) (strict : Int) : Run Bool := do
  assertThat (pcb.compression = .rle)
  if pcb.bytes = [] then fault
  else
    runLengthIsSortedLoop P pcb strict
      (List.range ((pcb.size - pcb.width - 2) / (pcb.width + 1)))

/-- `pc_patch_dimensional_is_sorted`. -/
def pcPatchDimensionalIsSorted (pdl : PcPatchDimensional) (dims : List PcDimension)
    (strict : Int) : Run Bool :=
  match dims with
  | [] => fault
  | dim :: rest =>
      if rest ≠ [] then do
        let pu ← pcPatchUncompressedFromDimensional P pdl
        pcPatchUncompressedIsSorted P pu dims strict
      else do
        let pcb ← wordAt pdl.bytes dim.position
        match pcb.compression with
        | .rle => pcBytesRunLengthIsSorted P pcb strict
        | .sigbits => pcBytesSigbitsIsSorted P pcb strict
        | .zlib => pcBytesZlibIsSorted P pcb strict
        | .none => pcBytesUncompressedIsSorted P pcb strict
        | .unknown _ => raise "pc_patch_dimensional_is_sorted: Uh oh"

/-- `pc_patch_lazperf_is_sorted`. -/
def pcPatchLazperfIsSorted (pa : PcPatchLazperf) (dims : List PcDimension) (strict : Int) :
    Run Bool := do
  let pu ← pcPatchUncompressedFromLazperf pa
  pcPatchUncompressedIsSorted P pu dims strict

/-- `pc_patch_is_sorted`. -/
def pcPatchIsSorted (pa : PcPatch) (names : List String) (strict : Int) : Run Bool := do
  let dims ← pcSchemaGetDimensionsByName pa.schema names
  let strict := if 0 < strict then 1 else 0
  match pa with
  | .uncompressed p => pcPatchUncompressedIsSorted P p dims strict
  | .dimensional p => pcPatchDimensionalIsSorted P p dims strict
  | .lazperf p => pcPatchLazperfIsSorted P p dims strict

end Pointcloud
