/-
Pointcloud.Bytes.YieldTheorems — arrays by what decoding makes of them.

An array that is read from WKB need not be one that an encoder has written: a
run may be empty, and a block longer than its values. `GivesValues P e vs` says no
more than that decoding gives the values `vs`. That is enough for the filters,
and what they return is an array as an encoder writes it (`GivesValues.filter`).
The search for the extremes also looks at the runs without values
(`GivesValues.minmax`).

For plain values there is nothing to do (`GivesValues.plainly`). Bit-packed and
deflated ones are decoded by every function before it works, and the decoded
array is plain. The work is in the runs, which no function decodes first. A run
without values is dropped: `PcBytes.heldRuns` are the others, the walks of the
filter and of the bitmap pass over what was dropped (`runLengthFilterLoop_held`,
`runLengthBitmapLoop_held`), and with these runs alone the array would be one of
an encoder, so that the lemmas about those apply.

No bound on the size is assumed. The lemmas are about runs that have returned,
and what they need, that the ends of the runs are `int`s and that the entries fit
into the block, follows from that.
-/
import Pointcloud.Base.Extremes
import Pointcloud.Bytes.FilterTheorems
import Pointcloud.Bytes.ReencodeTheorems

namespace Pointcloud

open Pointcloud.Base

variable {P : Platform}

/-- Decoding an array gives the values `vs`, in a block that may go on behind them. -/
structure GivesValues (P : Platform) (e : PcBytes) (vs : List Bytes) : Prop where
  known : e.interpretation ≠ .unknown
  decoded : ∃ d, pcBytesDecode P e = .ok d ∧ e.npoints * e.width ≤ d.bytes.length ∧ d.values = vs

theorem Stores.yields {e : PcBytes} {vs : List Bytes} (h : Stores P e vs)
    (hnp : e.npoints < 4294967296) : GivesValues P e vs := by
  obtain ⟨d, hd, hplain, hvalues, hdn, hinterp, -⟩ := pcBytesDecode_ok h hnp
  have hroom := hplain.room
  rw [hdn, PcBytes.width, hinterp] at hroom
  exact ⟨h.known, d, hd, hroom, hvalues⟩

section Values

variable {e : PcBytes} {vs : List Bytes} (h : GivesValues P e vs)

include h

theorem GivesValues.length_eq : vs.length = e.npoints := by
  obtain ⟨d, hd, -, rfl⟩ := h.decoded
  rw [d.length_values, (pcBytesDecode_fields hd).1]

theorem GivesValues.width_eq : ∀ v ∈ vs, v.length = e.width := by
  obtain ⟨d, hd, hroom, rfl⟩ := h.decoded
  obtain ⟨hdn, hinterp, -⟩ := pcBytesDecode_fields hd
  have hwidth : d.width = e.width := by rw [PcBytes.width, hinterp, PcBytes.width]
  rw [← hdn, ← hwidth] at hroom
  intro v hv
  rw [← hwidth]
  exact length_of_mem_records hroom hv

end Values

/-! ## Values that are not encoded -/

/-- The values are there without decoding. -/
theorem GivesValues.plainly {e : PcBytes} {vs : List Bytes} (h : GivesValues P e vs)
    (hc : e.compression = .none) : e.npoints * e.width ≤ e.bytes.length ∧ e.values = vs := by
  obtain ⟨d, hd, hroom, rfl⟩ := h.decoded
  have hclone : pcBytesClone e = .ok d := by simpa only [pcBytesDecode, hc] using hd
  obtain ⟨n, rfl⟩ := pcBytesClone_block hclone
  have htake : e.npoints * e.width ≤ (e.bytes.take n).length := hroom
  rw [List.length_take] at htake
  exact ⟨by omega, (records_take e.width e.npoints n e.bytes (by omega)).symm⟩

/-! ## Runs

Decoding reads the count of each entry and copies its value that often. So the
entries are the runs, the empty ones too, and the counts add up to the number of
values (`heldRuns_of_decode`). -/

/-- The runs that have values. -/
def PcBytes.heldRuns (e : PcBytes) : List (Nat × Bytes) := e.runsOf.filter fun r => 0 < r.1

theorem entryCount_eq {entry : Bytes} {count : Nat} (h : entryCount entry = .ok count) :
    entry ≠ [] ∧ count = (entry.headD 0).toNat := by
  cases entry with
  | nil => exact absurd h (fault_ne_ok count)
  | cons c value =>
      cases h
      exact ⟨by simp, rfl⟩

theorem entryValues_eq {w : Nat} {entry : Bytes} {vs : List Bytes}
    (h : entryValues w entry = .ok vs) :
    vs = List.replicate (entry.headD 0).toNat entry.tail ∧
      (0 < (entry.headD 0).toNat → entry.length = w + 1) := by
  obtain ⟨count, hcount, h⟩ := bind_eq_ok.mp h
  obtain ⟨-, rfl⟩ := entryCount_eq hcount
  split at h
  · next hzero =>
      cases h
      rw [hzero]
      exact ⟨rfl, fun hpos => absurd hpos (Nat.lt_irrefl 0)⟩
  · obtain ⟨value, hvalue, h⟩ := bind_eq_ok.mp h
    cases h
    unfold entryValue at hvalue
    split at hvalue
    · next hlen =>
        cases hvalue
        exact ⟨rfl, fun _ => hlen⟩
    · exact absurd hvalue (fault_ne_ok value)

/-- Runs that can be decoded: those with values are whole, and have all values. -/
theorem heldRuns_of_decode {e d : PcBytes} (h : pcBytesRunLengthDecode e = .ok d) :
    (∀ entry ∈ rleEntries e, entry ≠ []) ∧
      (∀ r ∈ e.heldRuns, (1 ≤ r.1 ∧ r.1 ≤ 255) ∧ r.2.length = e.width) ∧
      (expand e.heldRuns).length = e.npoints ∧ d.values = expand e.heldRuns := by
  obtain ⟨_, -, h⟩ := bind_eq_ok.mp h
  obtain ⟨counts, hcounts, h⟩ := bind_eq_ok.mp h
  obtain ⟨_, hassert, h⟩ := bind_eq_ok.mp h
  obtain ⟨values, hvalues, h⟩ := bind_eq_ok.mp h
  have hsum := assertThat_eq_ok.mp hassert
  have hcount : counts = e.runsOf.map Prod.fst := by
    rw [PcBytes.runsOf, List.map_map]
    exact eq_map_of_mapM (fun _ _ _ hentry => (entryCount_eq hentry).2) hcounts
  have hvalue : values = e.runsOf.map fun r => List.replicate r.1 r.2 := by
    rw [PcBytes.runsOf, List.map_map]
    exact eq_map_of_mapM (fun _ _ _ hentry => (entryValues_eq hentry).1) hvalues
  have hflat : values.flatten = expand e.heldRuns := by
    rw [PcBytes.heldRuns, expand_filter_pos, hvalue, expand, List.flatMap_def]
  have hheld : ∀ r ∈ e.heldRuns, (1 ≤ r.1 ∧ r.1 ≤ 255) ∧ r.2.length = e.width := by
    intro r hr
    obtain ⟨hmem, hpos⟩ := List.mem_filter.mp hr
    obtain ⟨entry, hentry, rfl⟩ := List.mem_map.mp hmem
    have hpos' : 0 < (entry.headD 0).toNat := by simpa using hpos
    obtain ⟨vs, -, hread⟩ := exists_mem_of_mapM hvalues entry hentry
    have hlen := (entryValues_eq hread).2 hpos'
    refine ⟨⟨hpos', ?_⟩, ?_⟩
    · have := (entry.headD 0).isLt
      omega
    · rw [List.length_tail, hlen, Nat.add_sub_cancel]
  have hwidth : ∀ v ∈ expand e.heldRuns, v.length = e.width := by
    intro v hv
    obtain ⟨r, hr, rfl⟩ := mem_expand hv
    exact (hheld r hr).2
  split at h
  · next hle =>
      cases h
      rw [hflat] at hle
      have htotal : counts.sum = (expand e.heldRuns).length := by
        rw [hcount, PcBytes.heldRuns, expand_filter_pos, length_expand]
      have hlen : (expand e.heldRuns).length = e.npoints := by
        have hlt := uint32_lt counts.sum
        rw [uint32_of_lt (by omega)] at hsum
        omega
      refine ⟨fun entry hentry => ?_, hheld, hlen, ?_⟩
      · obtain ⟨count, -, hread⟩ := exists_mem_of_mapM hcounts entry hentry
        exact (entryCount_eq hread).1
      · change records e.width e.npoints values.flatten.flatten = _
        rw [hflat, ← hlen]
        exact records_flatten hwidth
  · exact absurd h (fault_ne_ok d)

section Walk

variable {en : Endian} {pcb : PcBytes} {map : PcBitmap}

theorem int32_int32 (x : Int) : int32 (int32 x) = int32 x :=
  int32_of_range (by unfold int32; omega) (by unfold int32; omega)

/-- The walk of the filter passes over runs without values. -/
theorem runLengthFilterLoop_held (capacity : Nat) :
    ∀ (entries : List Bytes) (i : Int) (npoints : Nat)
    (out : Bytes) (stats : Option PcDoubleStat), (∀ entry ∈ entries, entry ≠ []) → int32 i = i →
    runLengthFilterLoop en pcb map capacity entries i npoints out stats =
      runLengthFilterLoop en pcb map capacity
        (entries.filter fun entry => 0 < (entry.headD 0).toNat) i npoints out stats := by
  intro entries
  induction entries with
  | nil =>
      intro i npoints out stats _ _
      rfl
  | cons entry entries ih =>
      intro i npoints out stats hne hi
      obtain ⟨hentry, hrest⟩ := List.forall_mem_cons.mp hne
      have hnext : ∀ (x : Int) (npoints : Nat) (out : Bytes) (stats : Option PcDoubleStat),
          runLengthFilterLoop en pcb map capacity entries (int32 x) npoints out stats =
            runLengthFilterLoop en pcb map capacity
              (entries.filter fun entry => 0 < (entry.headD 0).toNat) (int32 x) npoints out stats :=
        fun x npoints out stats => ih _ npoints out stats hrest (int32_int32 x)
      cases entry with
      | nil => exact absurd rfl hentry
      | cons count value =>
          rw [List.filter_cons, List.headD_cons]
          by_cases hpos : 0 < count.toNat
          · rw [if_pos (by simpa using hpos)]
            simp only [runLengthFilterLoop, hnext]
          · -- such a run ends where it begins
            have hzero : count.toNat = 0 := Nat.eq_zero_of_not_pos hpos
            rw [if_neg (by simpa using hpos), runLengthFilterLoop, entryCount, ok_bind, hzero]
            simp only [Nat.cast_zero, add_zero, hi, sub_self, Int.toNat_zero, List.range_zero,
              List.mapM_nil, pure_eq_ok, ok_bind, List.count_nil, if_true]
            exact ih i npoints out stats hrest hi

/-- More room does not change what the walk returns. -/
theorem runLengthFilterLoop_mono {capacity capacity' : Nat} (hle : capacity ≤ capacity') :
    ∀ {entries : List Bytes} {i : Int} {npoints : Nat} {out : Bytes} {stats : Option PcDoubleStat}
      {r : Bytes × Nat × Option PcDoubleStat},
      runLengthFilterLoop en pcb map capacity entries i npoints out stats = .ok r →
      runLengthFilterLoop en pcb map capacity' entries i npoints out stats = .ok r := by
  intro entries
  induction entries with
  | nil =>
      intro i npoints out stats r h
      exact h
  | cons entry entries ih =>
      intro i npoints out stats r h
      obtain ⟨count, hcount, h⟩ := bind_eq_ok.mp h
      obtain ⟨marks, hmarks, h⟩ := bind_eq_ok.mp h
      rw [runLengthFilterLoop, hcount, ok_bind]
      simp only [hmarks, ok_bind] at h ⊢
      split at h
      · next hnone =>
          rw [if_pos hnone]
          exact ih h
      · next hsome =>
          obtain ⟨value, hvalue, h⟩ := bind_eq_ok.mp h
          obtain ⟨out', hout, h⟩ := bind_eq_ok.mp h
          obtain ⟨stats', hstats, h⟩ := bind_eq_ok.mp h
          have hroom : emit capacity' out (rleEntry (marks.count true) value) = .ok out' := by
            unfold emit at hout ⊢
            split at hout
            · next hfits =>
                rw [if_pos (Nat.le_trans hfits hle)]
                exact hout
            · exact absurd hout (fault_ne_ok out')
          rw [if_neg hsome, hvalue, ok_bind, hroom, ok_bind, hstats, ok_bind]
          exact ih h

/-- The entries of the runs that have values. -/
theorem filter_rleEntries {e : PcBytes} (h : ∀ entry ∈ rleEntries e, entry ≠ []) :
    ((rleEntries e).filter fun entry => 0 < (entry.headD 0).toNat) =
      e.heldRuns.map fun r => rleEntry r.1 r.2 := by
  rw [PcBytes.heldRuns, PcBytes.runsOf, List.filter_map, List.map_map]
  refine (List.map_id _).symm.trans (List.map_congr_left fun entry hentry => ?_)
  cases entry with
  | nil => exact absurd rfl (h [] (List.mem_of_mem_filter hentry))
  | cons count value => simp [rleEntry]

/-- What is left of runs is as the encoder writes it. -/
theorem runLengthFilter_held {e d : PcBytes} (hknown : e.interpretation ≠ .unknown)
    (hc : e.compression = .rle) (hdecode : pcBytesRunLengthDecode e = .ok d)
    (hint : e.npoints < 2147483648) (hmap : map.npoints = e.npoints) {stats : Option PcDoubleStat}
    {r : PcBytes × Option PcDoubleStat} (hr : pcBytesRunLengthFilter en e map stats = .ok r) :
    RleOf r.1 (selectRuns map.map e.heldRuns) ∧ r.1.npoints = map.nset ∧
      r.1.interpretation = e.interpretation ∧
      r.2 = addAll stats (e.runNumbers en (selectRuns map.map e.heldRuns)) := by
  obtain ⟨hne, hheld, hlen, -⟩ := heldRuns_of_decode hdecode
  obtain ⟨fpcb, hclone, hr⟩ := bind_eq_ok.mp hr
  obtain ⟨n, rfl⟩ := pcBytesClone_block hclone
  obtain ⟨⟨out, npoints, stats'⟩, hloop, hr⟩ := bind_eq_ok.mp hr
  have hbits : map.map.length = (expand e.heldRuns).length := by
    rw [hlen, ← hmap]
    rfl
  have hcount : uint32 (map.map.count true) = map.nset := by
    have hle : map.map.count true ≤ map.map.length := List.count_le_length
    rw [uint32_of_lt (by omega), map.nset_eq]
  -- with room for all runs the walk returns, and it returned the same before
  have hok := runLengthFilterLoop_ok en hknown
    (max (e.bytes.take n).length (e.heldRuns.length * (e.width + 1))) e.heldRuns [] map.map (i := 0)
    0 [] stats (fun r hr => (hheld r hr).1) (fun r hr => (hheld r hr).2) rfl hbits
    (by rw [List.length_nil]; omega) (by rw [List.length_nil, Nat.zero_add]; exact le_max_right _ _)
  rw [runLengthFilterLoop_held _ _ _ _ _ _ hne rfl, filter_rleEntries hne] at hloop
  rw [List.nil_append, List.nil_append, Nat.zero_add, PcBitmap.of_map] at hok
  cases (runLengthFilterLoop_mono (le_max_left _ _) hloop).symm.trans hok
  cases hr
  refine ⟨⟨hknown, hc, count_selectRuns fun r hr => (hheld r hr).1.2, ?_, ?_, ?_, ?_⟩, hcount, rfl,
    rfl⟩
  · intro s hs
    obtain ⟨r, hr, heq⟩ := value_selectRuns hs
    rw [← heq]
    exact (hheld r hr).2
  · rw [expand_selectRuns hbits, length_select hbits, hcount, map.nset_eq]
  · simp
  · simp [PcBytes.data]

end Walk

/-! ## Bitmaps

The walk sets nothing for a run without values, and its index stays. -/

section Bitmaps

variable {en : Endian} {filter : PcFiltertype} {val1 val2 : ℚ} {map : PcBitmap}

/-- The bitmap of values that a block begins with. -/
theorem eq_of_pcBytesUncompressedBitmap {pcb : PcBytes} (hknown : pcb.interpretation ≠ .unknown)
    (hroom : pcb.npoints * pcb.width ≤ pcb.bytes.length)
    (h : pcBytesUncompressedBitmap en filter val1 val2 pcb = .ok map) :
    map = PcBitmap.of (pcb.marksOf en filter val1 val2 pcb.values) := by
  obtain ⟨_, hloop, -⟩ := bind_eq_ok.mp h
  have hplain : ({ pcb with compression := .none, size := pcb.npoints * pcb.width } :
      PcBytes).Plain := ⟨hknown, rfl, rfl, hroom⟩
  have hok := pcBytesUncompressedBitmap_ok en filter val1 val2 hplain (intLoop_eq_ok.mp hloop)
  exact Except.ok.inj (h.symm.trans hok)

/-- The walk over runs sets nothing for those without values. -/
theorem runLengthBitmapLoop_held {interpretation : Interpretation} (entries : List Bytes) :
    ∀ {i : Int} {cur : PcBitmap}, int32 i = i →
      runLengthBitmapLoop en filter val1 val2 interpretation entries i cur = .ok map →
      runLengthBitmapLoop en filter val1 val2 interpretation
        (entries.filter fun entry => 0 < (entry.headD 0).toNat) i cur = .ok map := by
  induction entries with
  | nil =>
      intro i cur _ h
      exact h
  | cons entry entries ih =>
      intro i cur hi h
      obtain ⟨count, hcount, h⟩ := bind_eq_ok.mp h
      obtain ⟨d, hd, h⟩ := bind_eq_ok.mp h
      obtain ⟨next, hnext, h⟩ := bind_eq_ok.mp h
      obtain ⟨-, rfl⟩ := entryCount_eq hcount
      rw [List.filter_cons]
      by_cases hpos : 0 < (entry.headD 0).toNat
      · have hstart : ∀ x : Int, int32 (if i < int32 x then int32 x else i) =
            if i < int32 x then int32 x else i := by
          intro x
          split
          · exact int32_int32 x
          · exact hi
        rw [if_pos (by simpa using hpos), runLengthBitmapLoop, hcount, ok_bind, hd, ok_bind, hnext,
          ok_bind]
        exact ih (hstart _) h
      · have hzero : (entry.headD 0).toNat = 0 := Nat.eq_zero_of_not_pos hpos
        simp only [hzero, Nat.cast_zero, add_zero, hi, sub_self, Int.toNat_zero,
          List.replicate_zero, lt_irrefl, if_false] at hnext h
        cases hnext
        rw [if_neg (by simpa using hpos)]
        exact ih hi h

/-- The bitmap of runs that can be decoded. -/
theorem eq_of_pcBytesRunLengthBitmap {e d : PcBytes} (hknown : e.interpretation ≠ .unknown)
    (hdecode : pcBytesRunLengthDecode e = .ok d) (hint : e.npoints < 2147483648)
    (h : pcBytesRunLengthBitmap en filter val1 val2 e = .ok map) :
    map = PcBitmap.of (e.marksOf en filter val1 val2 d.values) := by
  obtain ⟨hne, hheld, hlen, hvalues⟩ := heldRuns_of_decode hdecode
  have hruns := runLengthBitmapLoop_held (rleEntries e) rfl h
  rw [filter_rleEntries hne, pcBitmapNew_eq] at hruns
  have hok := runLengthBitmapLoop_ok en filter val1 val2 hknown e.heldRuns []
    (List.replicate e.npoints false) (i := 0) (fun r hr => (hheld r hr).1)
    (fun r hr => (hheld r hr).2) rfl (by decide) (by rw [List.length_replicate, hlen])
  rw [List.nil_append, List.nil_append, List.length_nil, reachedRuns_of_lt (by omega),
    List.drop_of_length_le (by rw [List.length_replicate, hlen]), List.append_nil] at hok
  rw [hvalues]
  exact Except.ok.inj (hruns.symm.trans hok)

/-- The bitmap of an array says of each of its values whether it passes. -/
theorem GivesValues.bitmap {e : PcBytes} {vs : List Bytes} (h : GivesValues P e vs)
    (hint : e.npoints < 2147483648) (hrun : pcBytesBitmap filter val1 val2 P e = .ok map) :
    map = PcBitmap.of (e.marksOf P.endian filter val1 val2 vs) := by
  obtain ⟨d, hd, hroom, hvs⟩ := h.decoded
  obtain ⟨hdn, hdi, -⟩ := pcBytesDecode_fields hd
  have hdecoded : (do
      let dpcb ← pcBytesDecode P e
      pcBytesUncompressedBitmap P.endian filter val1 val2 dpcb) = .ok map →
      map = PcBitmap.of (e.marksOf P.endian filter val1 val2 vs) := by
    intro hrun
    rw [hd, ok_bind] at hrun
    have hwidth : d.width = e.width := by rw [PcBytes.width, hdi, PcBytes.width]
    have hmap := eq_of_pcBytesUncompressedBitmap (hdi ▸ h.known) (by rwa [hdn, hwidth]) hrun
    rwa [hvs, PcBytes.marksOf, PcBytes.numbersOf, hdi] at hmap
  unfold pcBytesBitmap at hrun
  split at hrun
  · next hc =>
      obtain ⟨hblock, hvalues⟩ := h.plainly hc
      rw [← hvalues]
      exact eq_of_pcBytesUncompressedBitmap h.known hblock hrun
  · exact hdecoded hrun
  · exact hdecoded hrun
  · next hc =>
      simp only [pcBytesDecode, hc] at hd
      rw [← hvs]
      exact eq_of_pcBytesRunLengthBitmap h.known hd hint hrun
  · exact absurd hrun (raise_ne_ok _ map)

end Bitmaps

/-! ## Filtering

One lemma for each encoding. What is encoded again must be restored by its
encoding, which for zlib is a hypothesis about the platform. -/

/-- What is encoded holds the values that it was given, unless zlib loses some. -/
theorem stores_of_encode {f e : PcBytes} (h : f.Plain) (hpos : 1 ≤ f.npoints)
    (hint : f.npoints ≤ 2147483648) {c : DimCompression}
    (hkeeps : c = .zlib → P.zlib.Keeps f.data) (hrun : pcBytesEncode P f c = .ok e) :
    Stores P e f.values ∧ e.npoints = f.npoints ∧ e.interpretation = f.interpretation := by
  have hcan : Encodable P f c := by
    have hre := reencodes_of_ok h.known hrun
    cases c with
    | none => trivial
    | rle => exact hint
    | sigbits => exact ⟨Nat.le_trans (Nat.le_mul_of_pos_left _ hpos) h.room, hint, hre.2⟩
    | zlib => exact ⟨hpos, hkeeps rfl⟩
    | unknown code => exact hre.elim
  obtain ⟨e', he', hstores, hnp, hinterp, -⟩ := pcBytesEncode_ok h hcan
  cases hrun.symm.trans he'
  exact ⟨hstores, hnp, hinterp⟩

/-- The array that a filter returns for the marked values `vs`, and what it has
gathered of their numbers. -/
structure Filtered (P : Platform) (e : PcBytes) (map : PcBitmap) (vs : List Bytes)
    (st : PcDoubleStat) (r : PcBytes × Option PcDoubleStat) : Prop where
  stores : Stores P r.1 vs
  npoints_eq : r.1.npoints = map.nset
  interpretation_eq : r.1.interpretation = e.interpretation
  gathered : ∃ g, r.2 = some g ∧ g.min = (e.numbersOf P.endian vs).foldl min st.min ∧
    g.max = (e.numbersOf P.endian vs).foldl max st.max

theorem addAll_some (st : PcDoubleStat) (ds : List ℚ) :
    addAll (some st) ds = some ⟨ds.foldl min st.min, ds.foldl max st.max, st.sum + ds.sum⟩ := by
  rw [← foldl_add_eq]
  rfl

section Filter

variable {e : PcBytes} {vs : List Bytes} (h : GivesValues P e vs) (hint : e.npoints < 2147483648)
  {map : PcBitmap} (hmap : map.npoints = e.npoints) {st : PcDoubleStat}
  {r : PcBytes × Option PcDoubleStat}

include h hint hmap

theorem GivesValues.filter_none (hc : e.compression = .none)
    (hr : pcBytesUncompressedFilter P.endian e map (some st) = .ok r) :
    Filtered P e map (select map.map vs) st r := by
  obtain ⟨hroom, rfl⟩ := h.plainly hc
  obtain ⟨⟨hplain, hvalues, hn, hinterp, -⟩, hgather⟩ := pcBytesUncompressedFilter_kept P.endian
    h.known hc hroom (by omega) hmap hr
  exact ⟨hvalues ▸ hplain.stores, hn, hinterp, _, hgather.trans (addAll_some st _), rfl, rfl⟩

theorem GivesValues.filter_rle (hc : e.compression = .rle)
    (hr : pcBytesRunLengthFilter P.endian e map (some st) = .ok r) :
    Filtered P e map (select map.map vs) st r := by
  obtain ⟨d, hd, -, hvs⟩ := h.decoded
  rw [pcBytesDecode, hc] at hd
  obtain ⟨-, -, hlen, hvalues⟩ := heldRuns_of_decode hd
  obtain ⟨hof, hn, hinterp, hgather⟩ := runLengthFilter_held h.known hc hd hint hmap hr
  have hbits : map.map.length = (expand e.heldRuns).length := by
    rw [hlen, ← hmap]
    rfl
  have hkept : expand (selectRuns map.map e.heldRuns) = select map.map vs := by
    rw [expand_selectRuns hbits, ← hvalues, hvs]
  -- a number for each run that is left is a number for each value, but for repetitions
  have hmem : ∀ x, x ∈ e.runNumbers P.endian (selectRuns map.map e.heldRuns) ↔
      x ∈ e.numbersOf P.endian (select map.map vs) := by
    intro x
    simp only [PcBytes.runNumbers, PcBytes.numbersOf, List.mem_map, ← hkept,
      mem_expand_iff fun s hs => (hof.count_range s hs).1]
  refine ⟨⟨hof.known, ?_, ?_, ?_⟩, hn, hinterp, _, hgather.trans (addAll_some st _), ?_, ?_⟩
  · rw [← hkept, hof.npoints_eq]
  · intro v hv
    rw [← hkept] at hv
    obtain ⟨s, hs, rfl⟩ := mem_expand hv
    exact hof.width_eq s hs
  · rw [hof.compression_eq]
    exact ⟨_, hof, hkept⟩
  · exact foldl_min_of_mem_iff hmem st.min
  · exact foldl_max_of_mem_iff hmem st.max

/-- Decoded, filtered, and encoded again. -/
theorem GivesValues.filter_reencoded (hc : e.compression = .sigbits ∨ e.compression = .zlib)
    (hset : map.nset ≠ 0)
    (hzlib : e.compression = .zlib → P.zlib.Keeps (select map.map vs).flatten)
    (hr : pcBytesFilter P e map (some st) = .ok r) :
    Filtered P e map (select map.map vs) st r := by
  obtain ⟨d, hd, hroom, rfl⟩ := h.decoded
  obtain ⟨hdn, hdi, hdc⟩ := pcBytesDecode_fields hd
  have hdw : d.width = e.width := by rw [PcBytes.width, hdi, PcBytes.width]
  have hknown : d.interpretation ≠ .unknown := hdi ▸ h.known
  rw [pcBytesFilter_reencoded hc, hd, ok_bind] at hr
  obtain ⟨⟨f, stats⟩, hf, hr⟩ := bind_eq_ok.mp hr
  obtain ⟨g, hg, hr⟩ := bind_eq_ok.mp hr
  cases hr
  obtain ⟨⟨hplain, hvalues, hn, hinterp, -⟩, hgather⟩ := pcBytesUncompressedFilter_kept P.endian
    hknown hdc (by rw [hdn, hdw]; exact hroom) (by omega) (hmap.trans hdn.symm) hf
  have hle : map.nset ≤ e.npoints := by
    rw [map.nset_eq, ← hmap]
    exact List.count_le_length
  have hdata : f.data = (select map.map d.values).flatten := by
    rw [← hvalues, hplain.flatten_values]
  obtain ⟨hstores, hgn, hgi⟩ := stores_of_encode hplain (by omega) (by omega)
    (fun hz => hdata ▸ hzlib hz) hg
  have hnumbers : ∀ us, d.numbersOf P.endian us = e.numbersOf P.endian us := by
    intro us
    rw [PcBytes.numbersOf, hdi, PcBytes.numbersOf]
  exact ⟨hvalues ▸ hstores, hgn.trans hn, hgi.trans (hinterp.trans hdi), _,
    hgather.trans (addAll_some st _), by rw [hnumbers], by rw [hnumbers]⟩

/-- What a filter keeps of an array that can be decoded is as an encoder writes it,
and the extremes that it gathers are those of the kept values. -/
theorem GivesValues.filter (hset : map.nset ≠ 0)
    (hzlib : e.compression = .zlib → P.zlib.Keeps (select map.map vs).flatten)
    (hr : pcBytesFilter P e map (some st) = .ok r) :
    Filtered P e map (select map.map vs) st r := by
  cases hc : e.compression with
  | none => exact h.filter_none hint hmap hc (by simpa only [pcBytesFilter, hc] using hr)
  | rle => exact h.filter_rle hint hmap hc (by simpa only [pcBytesFilter, hc] using hr)
  | sigbits => exact h.filter_reencoded hint hmap (.inl hc) hset hzlib hr
  | zlib => exact h.filter_reencoded hint hmap (.inr hc) hset hzlib hr
  | unknown code =>
      simp only [pcBytesFilter, hc] at hr
      exact absurd hr (raise_ne_ok _ r)

end Filter

/-! ## Searching the extremes

The search takes in one number for each entry, an empty run's too. Where these
numbers lie between the others, the extremes are those of the values. -/

/-- The number of every run lies between those of runs that have values. -/
def PcBytes.RunsInside (en : Endian) (e : PcBytes) : Prop :=
  ∀ r ∈ e.runsOf, ∃ s ∈ e.heldRuns, ∃ t ∈ e.heldRuns,
    e.interpretation.number en s.2 ≤ e.interpretation.number en r.2 ∧
      e.interpretation.number en r.2 ≤ e.interpretation.number en t.2

theorem length_of_mem_rleEntries {e : PcBytes} {entry : Bytes} (h : entry ∈ rleEntries e) :
    entry.length ≤ e.width + 1 := by
  rw [rleEntries, records_eq_map] at h
  obtain ⟨i, -, rfl⟩ := List.mem_map.mp h
  exact List.length_take_le _ _

/-- What the walk reads of an entry is its count, and the number of its value. -/
theorem entryNumber_eq {en : Endian} {e : PcBytes} {entry : Bytes} (h : entry ∈ rleEntries e)
    {r : Nat × ℚ} (hr : (do
      let count ← entryCount entry
      let d ← pcDoubleFromPtr en entry 1 e.interpretation
      return (count, d)) = (.ok r : Run (Nat × ℚ))) :
    r = ((entry.headD 0).toNat, e.interpretation.number en entry.tail) := by
  obtain ⟨count, hcount, hr⟩ := bind_eq_ok.mp hr
  obtain ⟨d, hd, hr⟩ := bind_eq_ok.mp hr
  cases hr
  obtain ⟨-, rfl⟩ := entryCount_eq hcount
  unfold pcDoubleFromPtr at hd
  split at hd
  · exact absurd hd (raise_ne_ok _ d)
  · obtain ⟨value, hvalue, hd⟩ := bind_eq_ok.mp hd
    cases hd
    rw [← Int.natCast_one, readAt_eq_ok, List.drop_one] at hvalue
    obtain ⟨-, rfl⟩ := hvalue
    have hlen : entry.tail.length ≤ e.interpretation.size := by
      have := length_of_mem_rleEntries h
      rw [List.length_tail, ← PcBytes.width]
      omega
    rw [List.take_of_length_le hlen]

/-- What is found in runs are the extremes of the numbers of all runs. -/
theorem pcBytesRunLengthMinmax_runs {en : Endian} {e : PcBytes} {m : MinMaxAvg}
    (hm : pcBytesRunLengthMinmax en e = .ok m) :
    m.min = (e.runNumbers en e.runsOf).foldl min fltMax ∧
      m.max = (e.runNumbers en e.runsOf).foldl max (-fltMax) := by
  obtain ⟨runs, hruns, hm⟩ := bind_eq_ok.mp hm
  cases hm
  have hnumbers : runs.map Prod.snd = e.runNumbers en e.runsOf := by
    rw [eq_map_of_mapM (fun _ hentry _ hr => entryNumber_eq hentry hr) hruns, PcBytes.runNumbers,
      PcBytes.numbersOf, PcBytes.runsOf]
    simp only [List.map_map, Function.comp_def]
  obtain ⟨hmin, hmax⟩ := foldl_add_extremes runs MinMax.start
  rw [hnumbers] at hmin hmax
  exact ⟨hmin, hmax⟩

theorem runNumbers_runsOf_foldl {en : Endian} {e : PcBytes} (h : e.RunsInside en)
    (hheld : ∀ r ∈ e.heldRuns, 1 ≤ r.1) (lo hi : ℚ) :
    (e.runNumbers en e.runsOf).foldl min hi =
        (e.numbersOf en (expand e.heldRuns)).foldl min hi ∧
      (e.runNumbers en e.runsOf).foldl max lo =
        (e.numbersOf en (expand e.heldRuns)).foldl max lo := by
  have hsub : ∀ x ∈ e.numbersOf en (expand e.heldRuns), x ∈ e.runNumbers en e.runsOf := by
    intro x hx
    obtain ⟨v, hv, rfl⟩ := List.mem_map.mp hx
    obtain ⟨r, hr, rfl⟩ := mem_expand hv
    exact List.mem_map_of_mem (List.mem_map_of_mem (List.mem_of_mem_filter hr))
  have hmem : ∀ r ∈ e.heldRuns, e.interpretation.number en r.2 ∈
      e.numbersOf en (expand e.heldRuns) :=
    fun r hr => List.mem_map_of_mem (mem_expand_of_mem hr (hheld r hr))
  constructor
  · refine foldl_min_of_subset hsub (fun y hy => ?_) hi
    simp only [PcBytes.runNumbers, PcBytes.numbersOf, List.map_map] at hy
    obtain ⟨r, hr, rfl⟩ := List.mem_map.mp hy
    obtain ⟨s, hs, -, -, hle, -⟩ := h r hr
    exact ⟨_, hmem s hs, hle⟩
  · refine foldl_max_of_subset hsub (fun y hy => ?_) lo
    simp only [PcBytes.runNumbers, PcBytes.numbersOf, List.map_map] at hy
    obtain ⟨r, hr, rfl⟩ := List.mem_map.mp hy
    obtain ⟨-, -, t, ht, -, hle⟩ := h r hr
    exact ⟨_, hmem t ht, hle⟩

/-- What is found in plain values. -/
theorem pcBytesUncompressedMinmax_extremes {en : Endian} {e : PcBytes}
    (hknown : e.interpretation ≠ .unknown) {m : MinMaxAvg}
    (hm : pcBytesUncompressedMinmax en e = .ok m) :
    m.min = (e.numbersOf en e.values).foldl min fltMax ∧
      m.max = (e.numbersOf en e.values).foldl max (-fltMax) := by
  obtain ⟨hint, hroom⟩ := (pcBytesUncompressedMinmax_isOk_iff en hknown).mp ⟨m, hm⟩
  rw [pcBytesUncompressedMinmax_ok en hknown hroom hint, foldl_minMax_eq] at hm
  cases hm
  exact ⟨rfl, rfl⟩

/-- What is found are the extremes of the values, if no run without values lies
outside of them. -/
theorem GivesValues.minmax {e : PcBytes} {vs : List Bytes} (h : GivesValues P e vs)
    (hruns : e.compression = .rle → e.RunsInside P.endian) {m : MinMaxAvg}
    (hm : pcBytesMinmax P e = .ok m) :
    m.min = (e.numbersOf P.endian vs).foldl min fltMax ∧
      m.max = (e.numbersOf P.endian vs).foldl max (-fltMax) := by
  obtain ⟨d, hd, -, hvs⟩ := h.decoded
  obtain ⟨-, hdi, -⟩ := pcBytesDecode_fields hd
  have hplainly : pcBytesUncompressedMinmax P.endian d = .ok m →
      m.min = (e.numbersOf P.endian vs).foldl min fltMax ∧
        m.max = (e.numbersOf P.endian vs).foldl max (-fltMax) := by
    intro hm
    have hfound := pcBytesUncompressedMinmax_extremes (hdi ▸ h.known) hm
    rwa [hvs, PcBytes.numbersOf, hdi] at hfound
  cases hc : e.compression with
  | none =>
      simp only [pcBytesMinmax, hc] at hm
      have hfound := pcBytesUncompressedMinmax_extremes h.known hm
      rwa [(h.plainly hc).2] at hfound
  | rle =>
      simp only [pcBytesMinmax, hc] at hm
      simp only [pcBytesDecode, hc] at hd
      obtain ⟨-, hheld, -, hvalues⟩ := heldRuns_of_decode hd
      obtain ⟨hmin, hmax⟩ := runNumbers_runsOf_foldl (hruns hc) (fun r hr => (hheld r hr).1.1)
        (-fltMax) fltMax
      obtain ⟨hfmin, hfmax⟩ := pcBytesRunLengthMinmax_runs hm
      rw [← hvs, hvalues]
      exact ⟨hfmin.trans hmin, hfmax.trans hmax⟩
  | sigbits =>
      simp only [pcBytesDecode, hc] at hd
      simp only [pcBytesMinmax, hc, pcBytesSigbitsMinmax, hd, ok_bind] at hm
      exact hplainly hm
  | zlib =>
      simp only [pcBytesDecode, hc] at hd
      simp only [pcBytesMinmax, hc, pcBytesZlibMinmax, hd, ok_bind] at hm
      exact hplainly hm
  | unknown code =>
      simp only [pcBytesMinmax, hc] at hm
      exact absurd hm (raise_ne_ok _ m)

end Pointcloud
