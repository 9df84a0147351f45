/-
Pointcloud.Bytes.FilterTheorems — filtering values, whatever their encoding.

The bitmaps say which values a filter lets through
(`pcBytesUncompressedBitmap_ok`, `pcBytesRunLengthBitmap_ok`), and the filters
keep what a bitmap marks (`pcBytesUncompressedFilter_ok`,
`pcBytesRunLengthFilter_ok`). `pcBytesRunLength_alike_iff` puts the walks over
runs beside the loops over the decoded values: they agree as long as the
values can be counted, and their offsets computed, in an `int`.

Every loop has a lemma of its own, by induction on what it goes through (the
numbers, the runs), with what stands in front of the current entry and behind
it quantified: `bitmapFilterFrom_ok`, `runLengthBitmapLoop_ok`,
`runLengthFilterLoop_ok`. The functions are these at the empty front. The last
section puts the four encodings together under `Stores`, and is what the
patches use: `pcBytesBitmap_ok` and `pcBytesFilter_ok` mention an encoding only
where the statistics depend on it (`PcBytes.gathered`).

The side conditions:

  - `npoints ≤ 2147483648` for plain values: the loops count in an `int`, and
    the access at an index that has wrapped around is outside the block.
  - `npoints < 2147483648` for runs: here it is the end of a run that has to be
    an `int`, one more than the last index. At `2 ^ 31` values exactly the last
    run is passed over (`pcBytesRunLengthBitmap_wraps`), without a fault.
  - `PcBytes.Small` for a filter that encodes again: the worst encoding of the
    values that are left must fit into the 32-bit counts of the encoders.
  - at least one marked value (`1 ≤ map.nset`), since no encoder takes an
    empty array to itself: zlib has nothing to deflate.
-/
import Pointcloud.Bytes.Filter
import Pointcloud.Bytes.WireTheorems

namespace Pointcloud

open Pointcloud.Base

/-! ## Bitmaps

A bitmap carries the number of its entries that are set as a field with a
proof, so it is its list of entries: `PcBitmap.ext` is what every equation
between bitmaps comes down to. -/

@[ext] theorem PcBitmap.ext {m m' : PcBitmap} (h : m.map = m'.map) : m = m' := by
  obtain ⟨nset, bits, hn⟩ := m
  obtain ⟨nset', bits', hn'⟩ := m'
  simp only at h
  subst h hn hn'
  rfl

@[simp] theorem PcBitmap.map_of (bits : List Bool) : (PcBitmap.of bits).map = bits := rfl

/-- A new bitmap is clear. -/
theorem pcBitmapNew_eq (npoints : Nat) :
    pcBitmapNew npoints = PcBitmap.of (List.replicate npoints false) := PcBitmap.ext rfl

/-- Setting the entry behind the front ones, whatever it was. The source counts `nset` up and
down as entries change; as a field with a proof it follows the entries by itself. -/
theorem pcBitmapSet_append {front rest : List Bool} {b : Bool} {i : Int} (hi : i = front.length)
    (val : Bool) :
    pcBitmapSet (PcBitmap.of (front ++ b :: rest)) i val =
      .ok (PcBitmap.of (front ++ val :: rest)) := by
  subst hi
  rw [pcBitmapSet, if_neg (by omega)]
  split
  · next hnone => simp at hnone
  · next cur hcur =>
      congr 1
      apply PcBitmap.ext
      simp

/-- The numbers in turn set the entries behind the front ones. `rest` are entries that the
numbers do not come to: those of later runs, where the numbers are copies of one value. -/
theorem bitmapFilterFrom_ok (filter : PcFiltertype) (val1 val2 : ℚ) :
    ∀ (ds : List ℚ) (front bits rest : List Bool) {i : Int}, i = front.length →
      bits.length = ds.length →
      bitmapFilterFrom filter val1 val2 (PcBitmap.of (front ++ bits ++ rest)) i ds =
        .ok (PcBitmap.of (front ++ ds.map (fun d => filter.holds d val1 val2) ++ rest))
  | [], front, [], rest, i, _, _ => by simp [bitmapFilterFrom]
  | d :: ds, front, b :: bits, rest, i, hi, hlen => by
      -- the first number sets the entry behind `front`, and joins it
      have hset : pcBitmapSet (PcBitmap.of (front ++ b :: (bits ++ rest))) i
          (filter.holds d val1 val2) = .ok _ := pcBitmapSet_append hi _
      have hrest := bitmapFilterFrom_ok filter val1 val2 ds
        (front ++ [filter.holds d val1 val2]) bits rest (i := i + 1)
        (by rw [hi, List.length_append, List.length_singleton]; rfl) (Nat.succ.inj hlen)
      rw [List.append_assoc front, List.cons_append, bitmapFilterFrom, pcBitmapFilter,
        hset, ok_bind]
      simpa using hrest

/-- The entries that a filter sets for values. -/
def PcBytes.marksOf (en : Endian) (pcb : PcBytes) (filter : PcFiltertype) (val1 val2 : ℚ)
    (vs : List Bytes) : List Bool :=
  (pcb.numbersOf en vs).map fun d => filter.holds d val1 val2

@[simp] theorem PcBytes.length_marksOf (en : Endian) (pcb : PcBytes) (filter : PcFiltertype)
    (val1 val2 : ℚ) (vs : List Bytes) :
    (pcb.marksOf en filter val1 val2 vs).length = vs.length := by
  simp [marksOf, numbersOf]

section Bitmap

variable (en : Endian) (filter : PcFiltertype) (val1 val2 : ℚ)

/-- The bitmap of plain values. The loop counts up to `2 ^ 31 - 1` and is left before it would
count further, so `2 ^ 31` values are still in. -/
theorem pcBytesUncompressedBitmap_ok {pcb : PcBytes} (h : pcb.Plain)
    (hint : pcb.npoints ≤ 2147483648) :
    pcBytesUncompressedBitmap en filter val1 val2 pcb =
      .ok (PcBitmap.of (pcb.marksOf en filter val1 val2 pcb.values)) := by
  have hset := bitmapFilterFrom_ok filter val1 val2 (pcb.numbersOf en pcb.values) []
    (List.replicate pcb.npoints false) [] (i := 0) rfl
    (by simp [PcBytes.numbersOf])
  rw [List.nil_append, List.nil_append, List.append_nil, List.append_nil] at hset
  rw [pcBytesUncompressedBitmap, intLoop_ok hint, ok_bind,
    mapM_number_ok en h.known h.room, ok_bind, pcBitmapNew_eq, hset, PcBytes.marksOf]

/-- More values than an `int` counts. -/
theorem pcBytesUncompressedBitmap_fault {pcb : PcBytes} (h : 2147483648 < pcb.npoints) :
    pcBytesUncompressedBitmap en filter val1 val2 pcb = fault := by
  rw [pcBytesUncompressedBitmap, intLoop_fault h, fault_bind]

/-- The runs that the walk sets: those whose end is an `int`. A run whose end
wraps around is passed over, and the next one begins where it did. -/
def reachedRuns : Nat → List (Nat × Bytes) → List (Nat × Bytes)
  | _, [] => []
  | i, r :: rs =>
      if i + r.1 < 2147483648 then r :: reachedRuns (i + r.1) rs else reachedRuns i rs

/-- No run is made up on the way. -/
theorem mem_of_mem_reachedRuns : ∀ {i : Nat} {rs : List (Nat × Bytes)} {r : Nat × Bytes},
    r ∈ reachedRuns i rs → r ∈ rs
  | i, s :: rs, r, hr => by
      rw [reachedRuns] at hr
      split at hr
      · rcases List.mem_cons.mp hr with rfl | hr
        · exact List.mem_cons_self
        · exact List.mem_cons_of_mem _ (mem_of_mem_reachedRuns hr)
      · exact List.mem_cons_of_mem _ (mem_of_mem_reachedRuns hr)

/-- Runs that end in front of `2 ^ 31` are all reached. -/
theorem reachedRuns_of_lt : ∀ {i : Nat} {rs : List (Nat × Bytes)},
    i + (expand rs).length < 2147483648 → reachedRuns i rs = rs
  | _, [], _ => rfl
  | i, r :: rs, h => by
      rw [expand_cons, List.length_append, List.length_replicate] at h
      rw [reachedRuns, if_pos (by omega), reachedRuns_of_lt (by omega)]

/-- A last run that ends behind that is not. -/
theorem reachedRuns_append_of_le : ∀ {i : Nat} {rs : List (Nat × Bytes)} {r : Nat × Bytes},
    i + (expand rs).length < 2147483648 → 2147483648 ≤ i + (expand rs).length + r.1 →
      reachedRuns i (rs ++ [r]) = rs
  | i, [], r, _, hend => by
      rw [expand_nil, List.length_nil, Nat.add_zero] at hend
      rw [List.nil_append, reachedRuns, if_neg (by omega), reachedRuns]
  | i, s :: rs, r, h, hend => by
      rw [expand_cons, List.length_append, List.length_replicate] at h hend
      rw [List.cons_append, reachedRuns, if_pos (by omega),
        reachedRuns_append_of_le (by omega) (by omega)]

/-- The walk over runs sets the entries of the runs that it reaches. By induction over the
runs; `front` are the entries behind the walk, whose number is the index it has come to, and
entries that are not reached keep what they have. -/
theorem runLengthBitmapLoop_ok {pcb : PcBytes} (hknown : pcb.interpretation ≠ .unknown) :
    ∀ (rs : List (Nat × Bytes)) (front bits : List Bool) {i : Int},
      (∀ r ∈ rs, 1 ≤ r.1 ∧ r.1 ≤ 255) → (∀ r ∈ rs, r.2.length = pcb.width) → i = front.length →
      front.length < 2147483648 → (expand rs).length ≤ bits.length →
      runLengthBitmapLoop en filter val1 val2 pcb.interpretation
          (rs.map fun r => rleEntry r.1 r.2) i (PcBitmap.of (front ++ bits)) =
        .ok (PcBitmap.of (front ++
          pcb.marksOf en filter val1 val2 (expand (reachedRuns front.length rs)) ++
          bits.drop (expand (reachedRuns front.length rs)).length))
  | [], front, bits, i, _, _, _, _, _ => by
      simp [runLengthBitmapLoop, reachedRuns, PcBytes.marksOf, PcBytes.numbersOf]
  | r :: rs, front, bits, i, hcount, hwidth, hi, hint, hroom => by
      subst hi
      obtain ⟨h1, h255⟩ := hcount r (by simp)
      have hcounts : ∀ s ∈ rs, 1 ≤ s.1 ∧ s.1 ≤ 255 := fun s hs => hcount s (by simp [hs])
      have hwidths : ∀ s ∈ rs, s.2.length = pcb.width := fun s hs => hwidth s (by simp [hs])
      rw [expand_cons, List.length_append, List.length_replicate] at hroom
      rw [List.map_cons, runLengthBitmapLoop, entryCount_rleEntry h255, ok_bind,
        pcDoubleFromPtr_rleEntry en hknown r.1 (hwidth r (by simp)), ok_bind, reachedRuns]
      by_cases hend : front.length + r.1 < 2147483648
      · -- the run is set: its entries join the front, and the walk goes on behind them
        have hrun : int32 ((front.length : Int) + r.1) = (front.length + r.1 : Nat) := by
          rw [← Int.natCast_add, int32_natCast hend]
        have hsteps : (((front.length + r.1 : Nat) : Int) - front.length).toNat = r.1 := by omega
        have htake : (bits.take r.1).length = r.1 := by
          rw [List.length_take]
          omega
        -- the entries of the run, all with the same mark
        have hset := bitmapFilterFrom_ok filter val1 val2
          (List.replicate r.1 (pcb.interpretation.number en r.2)) front (bits.take r.1)
          (bits.drop r.1) (i := front.length) rfl (by rw [htake, List.length_replicate])
        rw [List.append_assoc front, List.take_append_drop] at hset
        generalize hmarks : (List.replicate r.1 (pcb.interpretation.number en r.2)).map
          (fun d => filter.holds d val1 val2) = marks at hset
        have hlen : (front ++ marks).length = front.length + r.1 := by simp [← hmarks]
        have hall : pcb.marksOf en filter val1 val2
            (expand (r :: reachedRuns (front.length + r.1) rs)) =
              marks ++ pcb.marksOf en filter val1 val2
                (expand (reachedRuns (front.length + r.1) rs)) := by
          simp [← hmarks, expand_cons, PcBytes.marksOf, PcBytes.numbersOf]
        -- the induction, for the walk behind the run
        have hrest := runLengthBitmapLoop_ok hknown rs (front ++ marks) (bits.drop r.1)
          (i := (front.length + r.1 : Nat)) hcounts hwidths (by rw [hlen]) (by rw [hlen]; omega)
          (by rw [List.length_drop]; omega)
        rw [if_pos hend, hrun, hsteps, hset, ok_bind, if_pos (by omega), hrest, hlen, hall,
          List.drop_drop, expand_cons, List.length_append, List.length_replicate,
          ← List.append_assoc front]
      · -- the end of the run has wrapped around: no step is taken, and the index stays
        have hrun : int32 ((front.length : Int) + r.1) < 0 := by
          rw [← Int.natCast_add, int32]
          omega
        have hsteps : (int32 ((front.length : Int) + r.1) - front.length).toNat = 0 := by omega
        have hrest := runLengthBitmapLoop_ok hknown rs front bits (i := front.length) hcounts
          hwidths rfl hint (by omega)
        rw [if_neg hend, hsteps, List.replicate_zero, bitmapFilterFrom, ok_bind,
          if_neg (by omega), hrest]

/-- The bitmap of run-length encoded values, as far as their runs are reached. -/
theorem pcBytesRunLengthBitmap_reached {e : PcBytes} {rs : List (Nat × Bytes)} (h : RleOf e rs) :
    pcBytesRunLengthBitmap en filter val1 val2 e =
      .ok (PcBitmap.of (e.marksOf en filter val1 val2 (expand (reachedRuns 0 rs)) ++
        List.replicate (e.npoints - (expand (reachedRuns 0 rs)).length) false)) := by
  have hloop := runLengthBitmapLoop_ok en filter val1 val2 h.known rs []
    (List.replicate e.npoints false) (i := 0) h.count_range h.width_eq rfl (by decide)
    (by rw [List.length_replicate, h.npoints_eq])
  simp only [List.nil_append, List.length_nil, List.drop_replicate] at hloop
  rw [pcBytesRunLengthBitmap, h.rleEntries_eq, pcBitmapNew_eq, hloop]

/-- The bitmap of run-length encoded values. -/
theorem pcBytesRunLengthBitmap_ok {e : PcBytes} {rs : List (Nat × Bytes)} (h : RleOf e rs)
    (hint : e.npoints < 2147483648) :
    pcBytesRunLengthBitmap en filter val1 val2 e =
      .ok (PcBitmap.of (e.marksOf en filter val1 val2 (expand rs))) := by
  have hlen := h.npoints_eq
  rw [pcBytesRunLengthBitmap_reached en filter val1 val2 h, reachedRuns_of_lt (by omega), hlen,
    Nat.sub_self, List.replicate_zero, List.append_nil]

end Bitmap

/-! ## Filters

The plain filter reads three lists along the indices: the entries of the
bitmap, the numbers for the statistics, and the records that it copies
(`pcBytesUncompressedFilter_eq`). The one for runs reads the entries of one run
at a time, and writes the run with their count as its new length. -/

/-- The entries from an index on. The index is an `int` of the source and may be at the start
of a run. -/
theorem mapM_pcBitmapGet (front bits rest : List Bool) {i : Int} (hi : i = front.length) {n : Nat}
    (hn : n = bits.length) :
    ((List.range n).mapM fun k : Nat => pcBitmapGet (PcBitmap.of (front ++ bits ++ rest)) (i + k)) =
      .ok bits := by
  subst hi hn
  -- the entries, read off index by index
  have hbits : (List.range bits.length).map (fun k => bits.getD k false) = bits := by
    apply List.ext_getElem
    · simp
    · intro k h₁ h₂
      simp [h₂]
  conv_rhs => rw [← hbits]
  refine mapM_eq_ok_map fun k hk => ?_
  have hlt := List.mem_range.mp hk
  have hnat : ((front.length : Int) + k).toNat = front.length + k := by omega
  rw [pcBitmapGet, if_neg (by omega), hnat, wordAt_eq_ok, PcBitmap.map_of, List.append_assoc,
    List.getElem?_append_right (by omega), Nat.add_sub_cancel_left,
    List.getElem?_append_left hlt]
  simp [hlt]

/-- A bitmap is made of its entries. -/
theorem PcBitmap.of_map (map : PcBitmap) : PcBitmap.of map.map = map := PcBitmap.ext rfl

/-- All entries. -/
theorem mapM_pcBitmapGet_all (map : PcBitmap) {n : Nat} (hn : n = map.npoints) :
    ((List.range n).mapM fun k : Nat => pcBitmapGet map k) = .ok map.map := by
  have hall := mapM_pcBitmapGet [] map.map [] (i := 0) rfl hn
  simpa [PcBitmap.of_map] using hall

/-- The value at each index. -/
theorem PcBytes.values_eq_map (pcb : PcBytes) :
    pcb.values = (List.range pcb.npoints).map fun i =>
      (pcb.bytes.drop (i * pcb.width)).take pcb.width := by
  rw [PcBytes.values, records_eq_map]

/-- Statistics that take in numbers, if they are gathered. The null pointer gathers none. -/
def addAll (stats : Option PcDoubleStat) (ds : List ℚ) : Option PcDoubleStat :=
  stats.map fun st => ds.foldl PcDoubleStat.add st

@[simp] theorem addAll_nil (stats : Option PcDoubleStat) : addAll stats [] = stats := by
  cases stats <;> rfl

/-- Numbers are taken in one after the other. -/
theorem addAll_append (stats : Option PcDoubleStat) (ds es : List ℚ) :
    addAll stats (ds ++ es) = addAll (addAll stats ds) es := by
  cases stats with
  | none => rfl
  | some st => simp [addAll]

/-- An array with these values in its place, in front of what is left of a block. -/
def PcBytes.refilled (pcb : PcBytes) (block : Bytes) (vs : List Bytes) : PcBytes := { pcb with
  size := vs.flatten.length
  npoints := vs.length
  bytes := vs.flatten ++ block.drop vs.flatten.length
  readonly := false }

/-- It is plain, and has these values: what is left of the block stands behind its size. -/
theorem PcBytes.refilled_plain {pcb : PcBytes} (hknown : pcb.interpretation ≠ .unknown)
    (hcomp : pcb.compression = .none) (block : Bytes) {vs : List Bytes}
    (hw : ∀ v ∈ vs, v.length = pcb.width) :
    (pcb.refilled block vs).Plain ∧ (pcb.refilled block vs).values = vs :=
  ⟨⟨hknown, hcomp, length_flatten_of_width hw, by simp [PcBytes.refilled]⟩,
    records_flatten_append _ hw⟩

section Filter

variable (en : Endian)

/-- Filtering values that are not encoded copies the marked ones into a clone, and
takes in their numbers. The equation holds whatever the clone is, for a clone of a block that
is too short is a fault on both sides; what it takes to succeed is left to the lemmas below. -/
theorem pcBytesUncompressedFilter_eq {pcb : PcBytes} (hknown : pcb.interpretation ≠ .unknown)
    (hroom : pcb.npoints * pcb.width ≤ pcb.bytes.length) (hint : pcb.npoints ≤ 2147483648)
    {map : PcBitmap} (hmap : map.npoints = pcb.npoints) (stats : Option PcDoubleStat) :
    pcBytesUncompressedFilter en pcb map stats = (do
      let fpcb ← pcBytesClone pcb
      let out ← emit fpcb.bytes.length [] (select map.map pcb.values).flatten
      return ({ fpcb with
        size := out.length
        npoints := (select map.map pcb.values).length
        bytes := out ++ fpcb.bytes.drop out.length },
        addAll stats (pcb.numbersOf en (select map.map pcb.values)))) := by
  -- a marked index is one of the array's, so its record lies within the block
  have hmarked : ∀ i ∈ select map.map (List.range pcb.npoints),
      i * pcb.width + pcb.width ≤ pcb.bytes.length := by
    intro i hi
    have hlt := List.mem_range.mp (mem_of_mem_select hi)
    have := Nat.mul_le_mul_right pcb.width (Nat.succ_le_of_lt hlt)
    rw [Nat.succ_mul] at this
    exact Nat.le_trans this hroom
  -- so neither the numbers nor the records are read outside of it
  have hnumbers : ((select map.map (List.range pcb.npoints)).mapM fun i : Nat =>
      pcDoubleFromPtr en pcb.bytes (i * pcb.width : Nat) pcb.interpretation) =
        .ok (pcb.numbersOf en (select map.map pcb.values)) := by
    rw [PcBytes.numbersOf, pcb.values_eq_map, select_map, List.map_map]
    exact mapM_eq_ok_map fun i hi => pcDoubleFromPtr_ok hknown (hmarked i hi)
  have hvalues : ((select map.map (List.range pcb.npoints)).mapM fun i : Nat =>
      readAt pcb.bytes (i * pcb.width : Nat) pcb.width) = .ok (select map.map pcb.values) := by
    rw [pcb.values_eq_map, select_map]
    exact mapM_eq_ok_map fun i hi => readAt_ok (hmarked i hi)
  have hstats : (stats.mapM fun st => (do
      let ds ← (select map.map (List.range pcb.npoints)).mapM fun i : Nat =>
        pcDoubleFromPtr en pcb.bytes (i * pcb.width : Nat) pcb.interpretation
      return ds.foldl PcDoubleStat.add st : Run PcDoubleStat)) =
        .ok (addAll stats (pcb.numbersOf en (select map.map pcb.values))) := by
    cases stats with
    | none => rfl
    | some st =>
        simp only [Option.mapM_some, hnumbers]
        rfl
  rw [pcBytesUncompressedFilter]
  cases pcBytesClone pcb with
  | error e => rfl
  | ok fpcb =>
      rw [ok_bind, ok_bind, intLoop_ok hint, ok_bind, mapM_pcBitmapGet_all map hmap.symm, ok_bind]
      simp only
      rw [hstats, ok_bind, hvalues, ok_bind]

/-- A clone has a block of its own, the first bytes of the other. An array without values
keeps the block that it has. -/
theorem pcBytesClone_block {e d : PcBytes} (h : pcBytesClone e = .ok d) :
    ∃ n, d = { e with bytes := e.bytes.take n, readonly := false } := by
  unfold pcBytesClone at h
  split at h
  · cases h
    exact ⟨e.bytes.length, by rw [List.take_length]⟩
  · obtain ⟨bytes, hread, h⟩ := bind_eq_ok.mp h
    cases h
    rw [← Int.natCast_zero, readAt_eq_ok] at hread
    exact ⟨e.size, by rw [← hread.2, List.drop_zero]⟩

/-- What is left are the marked values, plainly. This is about every run that returns: the
length that the array states may be another than that of its values. -/
theorem pcBytesUncompressedFilter_kept {pcb : PcBytes} (hknown : pcb.interpretation ≠ .unknown)
    (hcomp : pcb.compression = .none) (hroom : pcb.npoints * pcb.width ≤ pcb.bytes.length)
    (hint : pcb.npoints ≤ 2147483648) {map : PcBitmap} (hmap : map.npoints = pcb.npoints)
    {stats : Option PcDoubleStat} {r : PcBytes × Option PcDoubleStat}
    (hr : pcBytesUncompressedFilter en pcb map stats = .ok r) :
    (r.1.Plain ∧ r.1.values = select map.map pcb.values ∧ r.1.npoints = map.nset ∧
      r.1.interpretation = pcb.interpretation ∧ r.1.readonly = false) ∧
    r.2 = addAll stats (pcb.numbersOf en (select map.map pcb.values)) := by
  -- the bitmap has an entry for each value
  have hcount : (select map.map pcb.values).length = map.nset := by
    rw [length_select (by rw [pcb.length_values, ← hmap]; rfl), map.nset_eq]
  have hwidth : ∀ v ∈ select map.map pcb.values, v.length = pcb.width :=
    fun v hv => length_of_mem_records hroom (mem_of_mem_select hv)
  rw [pcBytesUncompressedFilter_eq en hknown hroom hint hmap] at hr
  obtain ⟨fpcb, hclone, hr⟩ := bind_eq_ok.mp hr
  obtain ⟨n, rfl⟩ := pcBytesClone_block hclone
  obtain ⟨out, hout, hr⟩ := bind_eq_ok.mp hr
  unfold emit at hout
  split at hout
  · rw [List.nil_append, Except.ok.injEq] at hout
    subst hout
    cases hr
    obtain ⟨hplain, hkept⟩ := PcBytes.refilled_plain hknown hcomp (pcb.bytes.take n) hwidth
    exact ⟨⟨hplain, hkept, hcount, rfl, rfl⟩, rfl⟩
  · exact absurd hout (fault_ne_ok out)

/-- Filtering plain values keeps the marked ones, and takes in their numbers. -/
theorem pcBytesUncompressedFilter_ok {pcb : PcBytes} (h : pcb.Plain)
    (hint : pcb.npoints ≤ 2147483648) {map : PcBitmap} (hmap : map.npoints = pcb.npoints)
    (stats : Option PcDoubleStat) :
    ∃ f, pcBytesUncompressedFilter en pcb map stats =
        .ok (f, addAll stats (pcb.numbersOf en (select map.map pcb.values))) ∧
      f.Plain ∧ f.values = select map.map pcb.values ∧ f.npoints = map.nset ∧
      f.interpretation = pcb.interpretation ∧ f.readonly = false := by
  have hblock : pcb.size ≤ (if pcBytesEmpty pcb then pcb.bytes else pcb.data).length := by
    split
    · exact h.size_le
    · rw [h.length_data]
  -- what is kept is never longer than what was there, so the clone has room for it
  have hroom : ([] : Bytes).length + (select map.map pcb.values).flatten.length ≤
      (if pcBytesEmpty pcb then pcb.bytes else pcb.data).length := by
    have hle : map.nset ≤ pcb.npoints := by
      rw [map.nset_eq, ← hmap]
      exact List.count_le_length
    have := Nat.mul_le_mul_right pcb.width hle
    rw [← h.size_eq] at this
    rw [List.length_nil, length_flatten_of_width fun v hv =>
      h.length_of_mem_values (mem_of_mem_select hv),
        length_select (by rw [pcb.length_values, ← hmap]; rfl),
      ← map.nset_eq]
    omega
  have hrun := pcBytesUncompressedFilter_eq en h.known h.room hint hmap stats
  rw [pcBytesClone_ok h.size_le, ok_bind, emit_ok hroom, ok_bind, pure_eq_ok] at hrun
  exact ⟨_, hrun,
    (pcBytesUncompressedFilter_kept en h.known h.compression_eq h.room hint hmap hrun).1⟩

/-- The numbers of the runs that keep a value, one for each run. -/
def PcBytes.runNumbers (en : Endian) (pcb : PcBytes) (rs : List (Nat × Bytes)) : List ℚ :=
  pcb.numbersOf en (rs.map Prod.snd)

/-- The walk over the runs writes them shortened to their marked values. By induction over the
runs, with what was written and counted before as arguments. The room is that of the runs
that are left, each written again in full, so shorter ones fit as well. -/
theorem runLengthFilterLoop_ok {pcb : PcBytes} (hknown : pcb.interpretation ≠ .unknown)
    (capacity : Nat) :
    ∀ (rs : List (Nat × Bytes)) (front bits : List Bool) {i : Int} (npoints : Nat) (out : Bytes)
      (stats : Option PcDoubleStat),
      (∀ r ∈ rs, 1 ≤ r.1 ∧ r.1 ≤ 255) → (∀ r ∈ rs, r.2.length = pcb.width) → i = front.length →
      bits.length = (expand rs).length → front.length + bits.length < 2147483648 →
      out.length + rs.length * (pcb.width + 1) ≤ capacity →
      runLengthFilterLoop en pcb (PcBitmap.of (front ++ bits)) capacity
          (rs.map fun r => rleEntry r.1 r.2) i npoints out stats =
        .ok (out ++ rleBytes (selectRuns bits rs), npoints + bits.count true,
          addAll stats (pcb.runNumbers en (selectRuns bits rs)))
  | [], front, bits, i, npoints, out, stats, _, _, _, hbits, _, _ => by
      have hnil : bits = [] := List.eq_nil_of_length_eq_zero hbits
      subst hnil
      simp [runLengthFilterLoop, selectRuns, rleBytes, PcBytes.runNumbers, PcBytes.numbersOf]
  | r :: rs, front, bits, i, npoints, out, stats, hcount, hwidth, hi, hbits, hint, hroom => by
      subst hi
      obtain ⟨h1, h255⟩ := hcount r (by simp)
      have hw := hwidth r (by simp)
      rw [expand_cons, List.length_append, List.length_replicate] at hbits
      rw [List.length_cons, Nat.succ_mul] at hroom
      have hstop : int32 ((front.length : Int) + r.1) = (front.length + r.1 : Nat) := by
        rw [← Int.natCast_add, int32_natCast (by omega)]
      have hsteps : (((front.length + r.1 : Nat) : Int) - front.length).toNat = r.1 := by omega
      have htake : (bits.take r.1).length = r.1 := by
        rw [List.length_take]
        omega
      -- the entries of this run, and the ones behind it
      have hget := mapM_pcBitmapGet front (bits.take r.1) (bits.drop r.1) rfl htake.symm
      have hall : front ++ bits.take r.1 ++ bits.drop r.1 = front ++ bits := by
        rw [List.append_assoc, List.take_append_drop]
      have hsum : (bits.take r.1).count true + (bits.drop r.1).count true = bits.count true := by
        rw [← List.count_append, List.take_append_drop]
      -- the walk behind this run, whether or not the run has been written
      have hrest : ∀ {npoints : Nat} {out : Bytes} (stats : Option PcDoubleStat),
          out.length + rs.length * (pcb.width + 1) ≤ capacity →
          runLengthFilterLoop en pcb (PcBitmap.of (front ++ bits)) capacity
              (rs.map fun r => rleEntry r.1 r.2) (front.length + r.1 : Nat) npoints out stats =
            .ok (out ++ rleBytes (selectRuns (bits.drop r.1) rs),
              npoints + (bits.drop r.1).count true,
              addAll stats (pcb.runNumbers en (selectRuns (bits.drop r.1) rs))) := by
        intro npoints out stats hroom
        rw [← hall]
        exact runLengthFilterLoop_ok hknown capacity rs _ _ npoints out stats
          (fun s hs => hcount s (by simp [hs]))
          (fun s hs => hwidth s (by simp [hs])) (by rw [List.length_append, htake])
          (by rw [List.length_drop]; omega)
          (by rw [List.length_append, htake, List.length_drop]; omega) hroom
      rw [hall] at hget
      rw [List.map_cons, runLengthFilterLoop, entryCount_rleEntry h255, ok_bind, selectRuns]
      simp only [hstop, hsteps, hget, ok_bind]
      by_cases hnone : (bits.take r.1).count true = 0
      · -- no value of the run is marked: it is left out
        rw [if_pos hnone, if_pos hnone, hrest stats (by omega), ← hsum, hnone, Nat.zero_add]
      · -- the run gets shorter, and its number counts once, however long it is
        have hle : (bits.take r.1).count true ≤ 255 :=
          Nat.le_trans List.count_le_length (by omega)
        have hentry : (rleEntry ((bits.take r.1).count true) r.2).length = pcb.width + 1 := by
          rw [length_rleEntry, hw]
        have hstats : (stats.mapM fun st => (do
            let d ← pcDoubleFromPtr en (rleEntry r.1 r.2) 1 pcb.interpretation
            return st.add d : Run PcDoubleStat)) =
              .ok (addAll stats [pcb.interpretation.number en r.2]) := by
          cases stats with
          | none => rfl
          | some st =>
              simp only [Option.mapM_some, pcDoubleFromPtr_rleEntry en hknown r.1 hw]
              rfl
        rw [if_neg hnone, if_neg hnone, entryValue_rleEntry r.1 hw, ok_bind,
          emit_ok (by rw [hentry]; omega), ok_bind, hstats, ok_bind,
          hrest _ (by rw [List.length_append, hentry]; omega), ← addAll_append, Nat.add_assoc, hsum]
        simp [rleBytes, PcBytes.runNumbers, PcBytes.numbersOf]

/-- Filtering run-length encoded values keeps the marked ones, run by run, and
takes in a number for each run that is left. -/
theorem pcBytesRunLengthFilter_ok {e : PcBytes} {rs : List (Nat × Bytes)} (h : RleOf e rs)
    (hint : e.npoints < 2147483648) {map : PcBitmap} (hmap : map.npoints = e.npoints)
    (stats : Option PcDoubleStat) :
    ∃ f, pcBytesRunLengthFilter en e map stats =
        .ok (f, addAll stats (e.runNumbers en (selectRuns map.map rs))) ∧
      RleOf f (selectRuns map.map rs) ∧ f.npoints = map.nset ∧
      f.interpretation = e.interpretation ∧ f.readonly = false := by
  have hbits : map.map.length = (expand rs).length := by
    rw [h.npoints_eq, ← hmap]
    rfl
  have hlen : map.map.length = e.npoints := hmap
  have hkept : ∀ s ∈ selectRuns map.map rs, s.2.length = e.width := by
    intro s hs
    obtain ⟨r, hr, heq⟩ := value_selectRuns hs
    rw [← heq, h.width_eq r hr]
  -- the clone has the room that the runs have taken
  have hblock : e.size ≤ (if pcBytesEmpty e then e.bytes else e.data).length := by
    split
    · exact h.size_le
    · rw [length_data h.size_le]
  -- the counter has 32 bits, and counts no more than there are values
  have hcount : uint32 (map.map.count true) = map.nset := by
    have hle : map.map.count true ≤ map.map.length := List.count_le_length
    rw [uint32_of_lt (by omega), map.nset_eq]
  have hloop := runLengthFilterLoop_ok en h.known
    (if pcBytesEmpty e then e.bytes else e.data).length rs [] map.map (i := 0) 0 [] stats
    h.count_range h.width_eq rfl hbits
    (by rw [List.length_nil]; omega) (by rw [← h.size_eq, List.length_nil]; omega)
  rw [List.nil_append, List.nil_append, Nat.zero_add, PcBitmap.of_map] at hloop
  refine ⟨_, ?_, RleOf.mk (e := { e with
      size := (rleBytes (selectRuns map.map rs)).length
      npoints := map.nset
      bytes := rleBytes (selectRuns map.map rs) ++
        (if pcBytesEmpty e then e.bytes else e.data).drop
          (rleBytes (selectRuns map.map rs)).length
      readonly := false }) h.known h.compression_eq
      (count_selectRuns fun r hr => (h.count_range r hr).2) hkept ?_ (by simp) ?_, rfl, rfl, rfl⟩
  · rw [pcBytesRunLengthFilter, pcBytesClone_ok h.size_le, ok_bind, h.rleEntries_eq]
    simp only
    rw [hloop, ok_bind, pure_eq_ok, hcount]
  · rw [expand_selectRuns hbits, length_select hbits, map.nset_eq]
  · simp [PcBytes.data]

end Filter

/-! ## Runs and decoded values

Both directions of `pcBytesRunLength_alike_iff` go through the decoded array,
which is plain (`RleOf.decoded`). That the two sides agree under the bounds is
one lemma of the sections above for each function. That they agree nowhere else
takes an input for each bound: the search for the extremes faults on the decoded
values when their offsets leave an `int`, and with `2 ^ 31` values of one byte
the entries of the last run stay clear, which a filter for equality with that
run's value shows. -/

/-- Every function that works on the runs of `e` agrees with the one that works
on the decoded values `d`, for every index that is an `int`, every filter and
every bitmap. -/
structure RunsAlike (en : Endian) (e d : PcBytes) : Prop where
  toPtr : ∀ n : Nat, n < e.npoints → n < 2147483648 →
    pcBytesRunLengthToPtr e n = wordAt d.values n
  bitmap : ∀ filter val1 val2, ∃ map,
    pcBytesRunLengthBitmap en filter val1 val2 e = .ok map ∧
      pcBytesUncompressedBitmap en filter val1 val2 d = .ok map ∧
      map.nset = map.map.count true
  minmax : ∃ m, pcBytesRunLengthMinmax en e = .ok m ∧ pcBytesUncompressedMinmax en d = .ok m
  filter : ∀ map : PcBitmap, map.npoints = e.npoints → ∀ stats, ∃ f stats' rs g,
    pcBytesRunLengthFilter en e map stats = .ok (f, stats') ∧ RleOf f rs ∧
      f.npoints = map.nset ∧ pcBytesRunLengthDecode f = .ok g ∧
      g.values = select map.map d.values

/-- Marks are set value by value, so those of two parts stand one behind the other. -/
theorem marksOf_append (en : Endian) (pcb : PcBytes) (filter : PcFiltertype) (val1 val2 : ℚ)
    (us vs : List Bytes) :
    pcb.marksOf en filter val1 val2 (us ++ vs) =
      pcb.marksOf en filter val1 val2 us ++ pcb.marksOf en filter val1 val2 vs := by
  simp [PcBytes.marksOf, PcBytes.numbersOf]

/-- At `2 ^ 31` values the end of the last run wraps around, and its entries
stay clear. -/
theorem pcBytesRunLengthBitmap_wraps (en : Endian) (filter : PcFiltertype) (val1 val2 : ℚ)
    {e : PcBytes} {rs : List (Nat × Bytes)} {r : Nat × Bytes} (h : RleOf e (rs ++ [r]))
    (hnp : e.npoints = 2147483648) :
    pcBytesRunLengthBitmap en filter val1 val2 e =
      .ok (PcBitmap.of (e.marksOf en filter val1 val2 (expand rs) ++
        List.replicate r.1 false)) := by
  obtain ⟨h1, -⟩ := h.count_range r (by simp)
  have hlen := h.npoints_eq
  rw [expand_append, expand_cons, expand_nil, List.append_nil, List.length_append,
    List.length_replicate] at hlen
  rw [pcBytesRunLengthBitmap_reached en filter val1 val2 h,
    reachedRuns_append_of_le (by omega) (by omega), ← hlen, Nat.add_sub_cancel_left]

/-- The decoded values are a plain array: every count of a run is one of its copies. -/
theorem RleOf.decoded {e : PcBytes} {rs : List (Nat × Bytes)} (h : RleOf e rs) :
    let d : PcBytes := { e with size := e.width * e.npoints, bytes := (expand rs).flatten,
                                compression := .none, readonly := false }
    d.Plain ∧ d.values = expand rs := by
  intro d
  have hwidth : ∀ v ∈ expand rs, v.length = e.width := by
    intro v hv
    obtain ⟨r, hr, rfl⟩ := mem_expand hv
    exact h.width_eq r hr
  refine ⟨⟨h.known, rfl, Nat.mul_comm _ _, ?_⟩, ?_⟩
  · rw [length_flatten_of_width hwidth, h.npoints_eq, Nat.mul_comm]
  · change records e.width e.npoints (expand rs).flatten = _
    rw [← h.npoints_eq]
    exact records_flatten hwidth

/-- Working on the runs agrees with decoding first exactly when the values can
be counted, and their offsets computed, in an `int`. -/
theorem pcBytesRunLength_alike_iff (en : Endian) {e : PcBytes} {rs : List (Nat × Bytes)}
    (h : RleOf e rs) (hnp : e.npoints < 4294967296) :
    ∃ d, pcBytesRunLengthDecode e = .ok d ∧
      (RunsAlike en e d ↔ e.npoints < 2147483648 ∧ e.npoints * e.width ≤ 2147483648) := by
  obtain ⟨hplain, hvalues⟩ := h.decoded
  refine ⟨_, pcBytesRunLengthDecode_ok h hnp, ?_, ?_⟩
  -- each bound from a function that sees it: first the offsets, then the count
  · intro halike
    obtain ⟨m, -, hm⟩ := halike.minmax
    have hoffsets : e.npoints * e.width ≤ 2147483648 :=
      ((pcBytesUncompressedMinmax_isOk_iff en hplain.known).mp ⟨m, hm⟩).1
    refine ⟨?_, hoffsets⟩
    by_contra hlarge
    -- one value to a byte, and one more than an `int` counts: the last run is lost
    have hle := Nat.le_mul_of_pos_right e.npoints e.width_pos
    have heq : e.npoints = 2147483648 := by omega
    have hne : rs ≠ [] := by
      rintro rfl
      have hzero := h.npoints_eq
      rw [expand_nil, List.length_nil] at hzero
      omega
    obtain ⟨init, r, rfl⟩ : ∃ init r, rs = init ++ [r] :=
      ⟨rs.dropLast, rs.getLast hne, (List.dropLast_append_getLast hne).symm⟩
    -- a filter for the value of that run: the decoded values are marked, the run is not
    obtain ⟨map, hrle, hunc, -⟩ := halike.bitmap .equal (e.interpretation.number en r.2) 0
    rw [pcBytesRunLengthBitmap_wraps en _ _ _ h heq, Except.ok.injEq] at hrle
    rw [pcBytesUncompressedBitmap_ok en _ _ _ hplain (Nat.le_of_eq heq), hvalues,
      Except.ok.injEq] at hunc
    have hmaps := congrArg PcBitmap.map (hrle.trans hunc.symm)
    rw [PcBitmap.map_of, PcBitmap.map_of, expand_append, marksOf_append] at hmaps
    have hlast := List.append_cancel_left hmaps
    obtain ⟨h1, -⟩ := h.count_range r (by simp)
    have hfirst := congrArg List.head? hlast
    obtain ⟨k, hk⟩ : ∃ k, r.1 = k + 1 := ⟨r.1 - 1, by omega⟩
    rw [hk] at hfirst
    simp [PcBytes.marksOf, PcBytes.numbersOf, expand_cons, hk, List.replicate_succ,
      PcFiltertype.holds] at hfirst
  · rintro ⟨hint, hoffsets⟩
    refine ⟨?_, ?_, ?_, ?_⟩
    · intro n hn _
      have hn' : n < (expand rs).length := h.npoints_eq ▸ hn
      rw [pcBytesRunLengthToPtr_ok h hn', hvalues, wordAt_ok hn']
    · intro filter val1 val2
      refine ⟨_, pcBytesRunLengthBitmap_ok en filter val1 val2 h hint, ?_, rfl⟩
      rw [pcBytesUncompressedBitmap_ok en filter val1 val2 hplain (Nat.le_of_lt hint), hvalues]
      rfl
    · refine ⟨_, pcBytesRunLengthMinmax_eq en h, ?_⟩
      rw [pcBytesUncompressedMinmax_ok en hplain.known hplain.room hoffsets, hvalues]
      rfl
    · intro map hmap stats
      obtain ⟨f, hf, hof, hset, -, -⟩ := pcBytesRunLengthFilter_ok en h hint hmap stats
      obtain ⟨-, hkept⟩ := hof.decoded
      have hbits : map.map.length = (expand rs).length := by
        rw [h.npoints_eq, ← hmap]
        rfl
      have hle : map.nset ≤ map.npoints := by
        rw [map.nset_eq]
        exact List.count_le_length
      refine ⟨f, _, _, _, hf, hof, hset, pcBytesRunLengthDecode_ok hof (by omega), ?_⟩
      rw [hkept, hvalues, expand_selectRuns hbits]

/-- Two values 7 and three values 9. -/
theorem pcBytesRunLength_alike_iff_witness :
    ∃ d, pcBytesRunLengthDecode ⟨4, 5, .uint8, .rle, false, [2, 7, 3, 9]⟩ = .ok d ∧
      RunsAlike .little ⟨4, 5, .uint8, .rle, false, [2, 7, 3, 9]⟩ d := by
  obtain ⟨d, hd, hiff⟩ := pcBytesRunLength_alike_iff .little
    (show RleOf ⟨4, 5, .uint8, .rle, false, [2, 7, 3, 9]⟩ [(2, [7]), (3, [9])] from
    ⟨by decide, rfl, by decide, by decide, rfl, by decide, rfl⟩) (by decide)
  exact ⟨d, hd, hiff.mpr (by decide)⟩

/-- The runs of a block of `2 ^ 28 + 239` doubles. -/
def longRuns : List (Nat × Bytes) := List.replicate 1052689 (255, zeros 8)

/-- The block; decoded, it has more than `2 ^ 31` bytes. -/
def longRunsBytes : PcBytes := ⟨9474201, 268435695, .double, .rle, false, rleBytes longRuns⟩

/-- The block is well formed. Its length is computed by lemmas, for it is too long
to be evaluated. -/
theorem longRunsBytes_rleOf : RleOf longRunsBytes longRuns := by
  have hwidth : ∀ r ∈ longRuns, r.2.length = 8 := by
    intro r hr
    rw [List.eq_of_mem_replicate hr, length_zeros]
  have hlen : longRunsBytes.bytes.length = 9474201 := by
    rw [show longRunsBytes.bytes = rleBytes longRuns from rfl, length_rleBytes hwidth, longRuns,
      List.length_replicate]
  refine ⟨by decide, rfl, ?_, hwidth, ?_, Nat.le_of_eq hlen.symm, ?_⟩
  · intro r hr
    rw [List.eq_of_mem_replicate hr]
    decide
  · rw [length_expand, longRuns, List.map_replicate, List.sum_replicate]
    rfl
  · rw [PcBytes.data, show longRunsBytes.size = longRunsBytes.bytes.length from hlen.symm,
      List.take_length]
    rfl

/-- The extremes of these runs are found, those of the decoded values are not. -/
theorem pcBytesRunLength_not_alike :
    RleOf longRunsBytes longRuns ∧ longRunsBytes.npoints < 4294967296 ∧
      ∀ d, pcBytesRunLengthDecode longRunsBytes = .ok d → ¬ RunsAlike .little longRunsBytes d := by
  refine ⟨longRunsBytes_rleOf, by decide, fun d hd halike => ?_⟩
  rw [pcBytesRunLengthDecode_ok longRunsBytes_rleOf (by decide), Except.ok.injEq] at hd
  subst hd
  obtain ⟨m, -, hm⟩ := halike.minmax
  have hoffsets := ((pcBytesUncompressedMinmax_isOk_iff .little
    longRunsBytes_rleOf.decoded.1.known).mp ⟨m, hm⟩).1
  exact absurd hoffsets (by decide)

/-! ## Any encoding

The dispatchers on the encoding. Bit-packed and deflated values are decoded
first, so three of the four cases come down to the plain functions on an array
with the same values (`hdecoded`, `hreencoded`), and the fourth to the runs. -/

/-- The values take less than `2 ^ 29` bytes: what every count of the encodings
of these values, and of some of them, has room for. The significant bits are counted with 32
bits, eight of them to a byte, which is where `2 ^ 29` comes from. -/
def PcBytes.Small (e : PcBytes) : Prop := e.npoints * e.width < 536870912

/-- It is a comparison of numbers, and the witnesses decide it. -/
instance (e : PcBytes) : Decidable e.Small := inferInstanceAs (Decidable (_ < _))

/-- No more values than bytes. -/
theorem PcBytes.Small.npoints_lt {e : PcBytes} (h : e.Small) : e.npoints < 536870912 :=
  Nat.lt_of_le_of_lt (Nat.le_mul_of_pos_right e.npoints e.width_pos) h

/-- The runs of a block, by its entries. -/
def PcBytes.runsOf (e : PcBytes) : List (Nat × Bytes) :=
  (rleEntries e).map fun entry => ((entry.headD 0).toNat, entry.tail)

/-- They are the runs that the block was written for, since a count fits into its byte. -/
theorem RleOf.runsOf_eq {e : PcBytes} {rs : List (Nat × Bytes)} (h : RleOf e rs) :
    e.runsOf = rs := by
  rw [PcBytes.runsOf, h.rleEntries_eq, List.map_map]
  conv_rhs => rw [← List.map_id rs]
  refine List.map_congr_left fun r hr => ?_
  have h255 := (h.count_range r hr).2
  simp only [Function.comp_apply, rleEntry, List.headD_cons, List.tail_cons, BitVec.toNat_ofNat,
    Nat.mod_eq_of_lt (show r.1 < 2 ^ 8 by omega), id_eq]

/-- The numbers that filtering takes into the statistics: those of the marked
values, or one for each run that has a marked value. -/
def PcBytes.gathered (en : Endian) (e : PcBytes) (map : PcBitmap) (vs : List Bytes) : List ℚ :=
  if e.compression = .rle then e.runNumbers en (selectRuns map.map e.runsOf)
  else e.numbersOf en (select map.map vs)

section Encoded

variable {P : Platform} {e : PcBytes} {vs : List Bytes}

/-- The bitmap of the values, in whatever encoding. The bound is that of runs, which is the
stricter one. -/
theorem pcBytesBitmap_ok (filter : PcFiltertype) (val1 val2 : ℚ) (h : Stores P e vs)
    (hint : e.npoints < 2147483648) :
    pcBytesBitmap filter val1 val2 P e =
      .ok (PcBitmap.of (e.marksOf P.endian filter val1 val2 vs)) := by
  have hdecoded : ∀ d, d.Plain → d.values = vs → d.npoints = e.npoints →
      d.interpretation = e.interpretation →
      pcBytesUncompressedBitmap P.endian filter val1 val2 d =
        .ok (PcBitmap.of (e.marksOf P.endian filter val1 val2 vs)) := by
    intro d hplain hvalues hdn hinterp
    rw [pcBytesUncompressedBitmap_ok P.endian filter val1 val2 hplain (by omega), hvalues]
    simp only [PcBytes.marksOf, PcBytes.numbersOf, hinterp]
  unfold pcBytesBitmap
  cases hc : e.compression with
  | none =>
      obtain ⟨hplain, hvalues⟩ := h.plainOf hc
      exact hdecoded e hplain hvalues rfl rfl
  | rle =>
      obtain ⟨rs, hof, hvs⟩ := h.rleOf hc
      rw [← hvs]
      exact pcBytesRunLengthBitmap_ok P.endian filter val1 val2 hof (by omega)
  | sigbits =>
      obtain ⟨d, hd, hplain, hvalues, hdn, hinterp, -⟩ := pcBytesDecode_ok h (by omega)
      simp only [hd, ok_bind]
      exact hdecoded d hplain hvalues hdn hinterp
  | zlib =>
      obtain ⟨d, hd, hplain, hvalues, hdn, hinterp, -⟩ := pcBytesDecode_ok h (by omega)
      simp only [hd, ok_bind]
      exact hdecoded d hplain hvalues hdn hinterp
  | unknown code => exact absurd hc (h.compression_ne code)

/-- The values that a filter is compared with: all of them, or those of the runs
that the walk reaches. -/
def PcBytes.compared (e : PcBytes) (vs : List Bytes) : List Bytes :=
  if e.compression = .rle then (reachedRuns 0 e.runsOf).map Prod.snd else vs

/-- The values can be compared: outside of runs their indices are `int`s. -/
def PcBytes.Comparable (e : PcBytes) : Prop :=
  e.compression ≠ .rle → e.npoints ≤ 2147483648

/-- Nothing is set when the filter holds of none of the values; the clear entries
behind them do not count. -/
theorem nset_marksOf_eq_zero_iff (en : Endian) (pcb : PcBytes) (filter : PcFiltertype)
    (val1 val2 : ℚ) (us : List Bytes) (k : Nat) :
    (PcBitmap.of (pcb.marksOf en filter val1 val2 us ++ List.replicate k false)).nset = 0 ↔
      ∀ u ∈ us, filter.holds (pcb.interpretation.number en u) val1 val2 = false := by
  rw [PcBitmap.nset_eq, PcBitmap.map_of, List.count_eq_zero]
  simp [PcBytes.marksOf, PcBytes.numbersOf]

/-- The bitmap is found, and empty. This is what a filter asks before it copies anything, and
it needs no bound beside that of the number of values: it says what is compared and what not. -/
theorem pcBytesBitmap_empty_iff (filter : PcFiltertype) (val1 val2 : ℚ) (h : Stores P e vs)
    (hnp : e.npoints < 4294967296) :
    (∃ map, pcBytesBitmap filter val1 val2 P e = .ok map ∧ map.nset = 0) ↔
      e.Comparable ∧ ∀ v ∈ e.compared vs,
        filter.holds (e.interpretation.number P.endian v) val1 val2 = false := by
  have hdecoded : ∀ d, d.Plain → d.values = vs → d.npoints = e.npoints →
      d.interpretation = e.interpretation → e.compression ≠ .rle →
      ((∃ map, pcBytesUncompressedBitmap P.endian filter val1 val2 d = .ok map ∧ map.nset = 0) ↔
        e.Comparable ∧ ∀ v ∈ e.compared vs,
          filter.holds (e.interpretation.number P.endian v) val1 val2 = false) := by
    intro d hplain hvalues hdn hinterp hrle
    -- either the bitmap is computed, or the loop faults and both sides are false
    have hnset := nset_marksOf_eq_zero_iff P.endian d filter val1 val2 vs 0
    rw [List.replicate_zero, List.append_nil, hinterp] at hnset
    rw [PcBytes.compared, if_neg hrle, ← hnset, PcBytes.Comparable, ← hdn, ← hvalues]
    by_cases hint : d.npoints ≤ 2147483648
    · rw [pcBytesUncompressedBitmap_ok P.endian filter val1 val2 hplain hint]
      simp [hint]
    · rw [pcBytesUncompressedBitmap_fault P.endian filter val1 val2 (Nat.lt_of_not_le hint)]
      simp [hint, hrle, fault_ne_ok]
  unfold pcBytesBitmap
  cases hc : e.compression with
  | none =>
      obtain ⟨hplain, hvalues⟩ := h.plainOf hc
      exact hdecoded e hplain hvalues rfl rfl (by simp [hc])
  | rle =>
      obtain ⟨rs, hof, hvs⟩ := h.rleOf hc
      have hcomparable : e.Comparable := fun hne => absurd hc hne
      have hcompared : e.compared vs = (reachedRuns 0 rs).map Prod.snd := by
        rw [PcBytes.compared, if_pos hc, hof.runsOf_eq]
      have hreached : ∀ r ∈ reachedRuns 0 rs, 1 ≤ r.1 := fun r hr =>
        (hof.count_range r (mem_of_mem_reachedRuns hr)).1
      simp only [pcBytesRunLengthBitmap_reached P.endian filter val1 val2 hof, Except.ok.injEq,
        exists_eq_left', nset_marksOf_eq_zero_iff, hcompared, hcomparable, true_and,
        mem_expand_iff hreached]
  | sigbits =>
      obtain ⟨d, hd, hplain, hvalues, hdn, hinterp, -⟩ := pcBytesDecode_ok h hnp
      simp only [hd, ok_bind]
      exact hdecoded d hplain hvalues hdn hinterp (by simp [hc])
  | zlib =>
      obtain ⟨d, hd, hplain, hvalues, hdn, hinterp, -⟩ := pcBytesDecode_ok h hnp
      simp only [hd, ok_bind]
      exact hdecoded d hplain hvalues hdn hinterp (by simp [hc])
  | unknown code => exact absurd hc (h.compression_ne code)

/-- Some of the values of a small array can be encoded in any way. By cases on the encoding:
the encoder of runs counts values in an `int`, the one of significant bits its output with 32
bits, and zlib is given four times the bytes as room, counted with 32 bits as well. -/
theorem encodable_of_small {f : PcBytes} (hplain : f.Plain) (hpos : 1 ≤ f.npoints)
    (hsmall : f.Small) {c : DimCompression} (hc : ∀ code, c ≠ .unknown code) :
    Encodable P f c := by
  have hnp := hsmall.npoints_lt
  have hroom := hplain.room
  have hwidth := Nat.le_mul_of_pos_left f.width (show 0 < f.npoints from hpos)
  cases c with
  | none => trivial
  | rle => exact show f.npoints ≤ 2147483648 by omega
  | sigbits =>
      have hbits := Nat.mul_le_mul_right f.npoints (uniqueBits_le (f.words P.endian))
      have hsize : 8 * f.width * f.npoints = 8 * (f.npoints * f.width) := by ring
      have hsmall' : f.npoints * f.width < 536870912 := hsmall
      exact ⟨by omega, by omega, by omega⟩
  | zlib =>
      have hlen := hplain.length_data
      have hsize := hplain.size_eq
      have hsmall' : f.npoints * f.width < 536870912 := hsmall
      have hw := f.width_pos
      have hne : f.data ≠ [] := by
        intro hnil
        rw [hnil, List.length_nil] at hlen
        omega
      exact ⟨hpos, P.zlib.keeps_of_lt hne (by omega)⟩
  | unknown code => exact absurd rfl (hc code)

/-- Bit-packed and deflated values are decoded, filtered, and encoded again. -/
theorem pcBytesFilter_reencoded (hc : e.compression = .sigbits ∨ e.compression = .zlib)
    (map : PcBitmap) (stats : Option PcDoubleStat) :
    pcBytesFilter P e map stats = (do
      let dpcb ← pcBytesDecode P e
      let (fpcb, stats) ← pcBytesUncompressedFilter P.endian dpcb map stats
      let efpcb ← pcBytesEncode P fpcb e.compression
      return (efpcb, stats)) := by
  rw [pcBytesFilter]
  obtain hc | hc := hc <;> rw [hc]

/-- The statistics take in the numbers that filtering gathers. Whether the values can be
encoded again does not matter to them, so no size is asked for. -/
theorem pcBytesFilter_gathers (h : Stores P e vs) (hint : e.npoints < 2147483648)
    {map : PcBitmap} (hmap : map.npoints = e.npoints) {stats : Option PcDoubleStat}
    {r : PcBytes × Option PcDoubleStat} (hr : pcBytesFilter P e map stats = .ok r) :
    r.2 = addAll stats (e.gathered P.endian map vs) := by
  -- decoded values are filtered plainly, and encoding leaves the statistics alone
  have hreencoded : e.compression = .sigbits ∨ e.compression = .zlib →
      r.2 = addAll stats (e.gathered P.endian map vs) := by
    intro hc
    have hrle : e.compression ≠ .rle := by obtain hc | hc := hc <;> simp [hc]
    obtain ⟨d, hd, hplain, hvalues, hdn, hinterp, -⟩ := pcBytesDecode_ok h (by omega)
    obtain ⟨f, hf, -⟩ := pcBytesUncompressedFilter_ok P.endian hplain (by omega)
      (hmap.trans hdn.symm) stats
    rw [pcBytesFilter_reencoded hc, hd, ok_bind, hf, ok_bind] at hr
    obtain ⟨g, -, hr⟩ := bind_eq_ok.mp hr
    cases hr
    simp only [PcBytes.gathered, if_neg hrle, hvalues, PcBytes.numbersOf, hinterp]
  cases hc : e.compression with
  | none =>
      obtain ⟨hplain, hvalues⟩ := h.plainOf hc
      obtain ⟨f, hf, -⟩ := pcBytesUncompressedFilter_ok P.endian hplain (by omega) hmap stats
      simp only [pcBytesFilter, hc, hf] at hr
      cases hr
      rw [PcBytes.gathered, if_neg (by rw [hc]; decide), hvalues]
  | rle =>
      obtain ⟨rs, hof, -⟩ := h.rleOf hc
      obtain ⟨f, hf, -⟩ := pcBytesRunLengthFilter_ok P.endian hof (by omega) hmap stats
      simp only [pcBytesFilter, hc, hf] at hr
      cases hr
      rw [PcBytes.gathered, if_pos hc, hof.runsOf_eq]
  | sigbits => exact hreencoded (.inl hc)
  | zlib => exact hreencoded (.inr hc)
  | unknown code => exact absurd hc (h.compression_ne code)

/-- Filtering keeps the marked values, in the encoding that they had. -/
theorem pcBytesFilter_ok (h : Stores P e vs) (hsmall : e.Small) {map : PcBitmap}
    (hmap : map.npoints = e.npoints) (hset : 1 ≤ map.nset) (stats : Option PcDoubleStat) :
    ∃ f, pcBytesFilter P e map stats = .ok (f, addAll stats (e.gathered P.endian map vs)) ∧
      Stores P f (select map.map vs) ∧ f.npoints = map.nset ∧
      f.interpretation = e.interpretation ∧ f.compression = e.compression := by
  have hnp := hsmall.npoints_lt
  have hle : map.nset ≤ e.npoints := by
    rw [map.nset_eq, ← hmap]
    exact List.count_le_length
  have hreencoded : e.compression = .sigbits ∨ e.compression = .zlib → ∃ f,
      pcBytesFilter P e map stats = .ok (f, addAll stats (e.gathered P.endian map vs)) ∧
      Stores P f (select map.map vs) ∧ f.npoints = map.nset ∧
      f.interpretation = e.interpretation ∧ f.compression = e.compression := by
    intro hc
    have hrle : e.compression ≠ .rle := by obtain hc | hc := hc <;> simp [hc]
    obtain ⟨d, hd, hplain, hvalues, hdn, hinterp, -⟩ := pcBytesDecode_ok h (by omega)
    obtain ⟨f, hf, hfplain, hfvalues, hfn, hfinterp, -⟩ := pcBytesUncompressedFilter_ok P.endian
      hplain (by omega) (hmap.trans hdn.symm) stats
    have hwidth : f.width = e.width := by rw [PcBytes.width, hfinterp, hinterp, PcBytes.width]
    -- fewer values of the same width: what is left can be encoded again
    have hfsmall : f.Small := by
      have := Nat.mul_le_mul_right e.width hle
      rw [PcBytes.Small, hfn, hwidth]
      exact Nat.lt_of_le_of_lt this hsmall
    obtain ⟨g, hg, hstores, hgn, hginterp, hgc, -⟩ := pcBytesEncode_ok hfplain
      (encodable_of_small (P := P) hfplain (by omega) hfsmall h.compression_ne)
    refine ⟨g, ?_, ?_, hgn.trans hfn, hginterp.trans (hfinterp.trans hinterp), hgc⟩
    · rw [pcBytesFilter_reencoded hc, hd, ok_bind, hf, ok_bind]
      simp only
      rw [hg, ok_bind, pure_eq_ok, PcBytes.gathered, if_neg hrle, hvalues, PcBytes.numbersOf,
        PcBytes.numbersOf, hinterp]
    · rwa [hfvalues, hvalues] at hstores
  cases hc : e.compression with
  | none =>
      obtain ⟨hplain, hvalues⟩ := h.plainOf hc
      obtain ⟨f, hf, hfplain, hfvalues, hfn, hfinterp, -⟩ := pcBytesUncompressedFilter_ok P.endian
        hplain (by omega) hmap stats
      have hstores := hfplain.stores (P := P)
      rw [hfvalues, hvalues] at hstores
      refine ⟨f, ?_, hstores, hfn, hfinterp, hfplain.compression_eq⟩
      simp only [pcBytesFilter, hf, PcBytes.gathered, hc, hvalues]
      simp
  | rle =>
      obtain ⟨rs, hof, hvs⟩ := h.rleOf hc
      obtain ⟨f, hf, hfof, hfn, hfinterp, -⟩ :=
        pcBytesRunLengthFilter_ok P.endian hof (by omega) hmap
        stats
      have hbits : map.map.length = (expand rs).length := by
        rw [hof.npoints_eq, ← hmap]
        rfl
      -- the kept runs expand to the marked values
      have hexpand := expand_selectRuns hbits
      have hwidth : f.width = e.width := by rw [PcBytes.width, hfinterp, PcBytes.width]
      refine ⟨f, ?_, ⟨hfof.known, ?_, ?_, ?_⟩, hfn, hfinterp, hfof.compression_eq⟩
      · simp only [pcBytesFilter, hf, PcBytes.gathered, hc, hof.runsOf_eq, if_true]
      · rw [← hvs, ← hexpand, hfof.npoints_eq]
      · intro v hv
        rw [hwidth]
        exact h.width_eq v (mem_of_mem_select hv)
      · rw [hfof.compression_eq]
        exact ⟨_, hfof, by rw [hexpand, hvs]⟩
  | sigbits => exact hc ▸ hreencoded (.inl hc)
  | zlib => exact hc ▸ hreencoded (.inr hc)
  | unknown code => exact absurd hc (h.compression_ne code)

end Encoded

end Pointcloud
