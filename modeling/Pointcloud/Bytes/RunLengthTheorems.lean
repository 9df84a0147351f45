/-
Pointcloud.Bytes.RunLengthTheorems — what a run-length block holds.

`RleOf e rs` is the well-formedness every reader of a run-length block relies
on: whole entries, counts between 1 and 255, and `npoints` values in all.
Neighbouring runs may have the same value, as filtering leaves them. The
encoder establishes it for the runs of the input (`pcBytesRunLengthEncode_ok`);
under it, the walk of the readers sees exactly the entries of the runs
(`RleOf.rleEntries_eq`), decoding gives the expansion of the runs, and random
access its elements.
-/
import Pointcloud.Base.RunLength
import Pointcloud.Bytes.RunLength

namespace Pointcloud

open Pointcloud.Base

/-! ## Reading values -/

theorem readValues_ok {pcb : PcBytes} (hint : pcb.npoints ≤ 2147483648)
    (hroom : pcb.npoints * pcb.width ≤ pcb.bytes.length) : readValues pcb = .ok pcb.values := by
  rw [readValues, intLoop_ok hint, ok_bind, if_pos hroom]

theorem readValues_fault {pcb : PcBytes}
    (h : 2147483648 < pcb.npoints ∨ pcb.bytes.length < pcb.npoints * pcb.width) :
    readValues pcb = fault := by
  unfold readValues
  by_cases hint : pcb.npoints ≤ 2147483648
  · rw [intLoop_ok hint, ok_bind, if_neg (by omega)]
  · rw [intLoop_fault (by omega), fault_bind]

/-! ## Entries -/

/-- The block of a list of runs. -/
def rleBytes (rs : List (Nat × Bytes)) : Bytes := (rs.map fun r => rleEntry r.1 r.2).flatten

/-- `e` holds the runs `rs`. -/
structure RleOf (e : PcBytes) (rs : List (Nat × Bytes)) : Prop where
  known : e.interpretation ≠ .unknown
  compression_eq : e.compression = .rle
  count_range : ∀ r ∈ rs, 1 ≤ r.1 ∧ r.1 ≤ 255
  width_eq : ∀ r ∈ rs, r.2.length = e.width
  npoints_eq : (expand rs).length = e.npoints
  size_le : e.size ≤ e.bytes.length
  data_eq : e.data = rleBytes rs

@[simp] theorem length_rleEntry (count : Nat) (value : Bytes) :
    (rleEntry count value).length = value.length + 1 := rfl

theorem length_rleBytes {w : Nat} {rs : List (Nat × Bytes)} (h : ∀ r ∈ rs, r.2.length = w) :
    (rleBytes rs).length = rs.length * (w + 1) := by
  rw [rleBytes, length_flatten_of_width (w := w + 1), List.length_map]
  intro c hc
  obtain ⟨r, hr, rfl⟩ := List.mem_map.mp hc
  rw [length_rleEntry, h r hr]

theorem RleOf.size_eq {e : PcBytes} {rs : List (Nat × Bytes)} (h : RleOf e rs) :
    e.size = rs.length * (e.width + 1) := by
  have hlen := congrArg List.length h.data_eq
  rwa [PcBytes.data, List.length_take, Nat.min_eq_left h.size_le,
    length_rleBytes h.width_eq] at hlen

/-- The walk of the readers sees the entries of the runs. -/
theorem RleOf.rleEntries_eq {e : PcBytes} {rs : List (Nat × Bytes)} (h : RleOf e rs) :
    rleEntries e = rs.map fun r => rleEntry r.1 r.2 := by
  have hcount : (e.size + e.width) / (e.width + 1) = rs.length := by
    rw [h.size_eq, Nat.mul_comm, Nat.mul_add_div (Nat.succ_pos _),
      Nat.div_eq_of_lt (Nat.lt_succ_self _), Nat.add_zero]
  have hwidth : ∀ c ∈ rs.map fun r => rleEntry r.1 r.2, c.length = e.width + 1 := by
    intro c hc
    obtain ⟨r, hr, rfl⟩ := List.mem_map.mp hc
    rw [length_rleEntry, h.width_eq r hr]
  have hdata := h.data_eq
  have hrec := records_flatten hwidth
  rw [List.length_map] at hrec
  rw [rleEntries, hcount, ← records_take _ _ e.size _ (by rw [h.size_eq])]
  rw [PcBytes.data, rleBytes] at hdata
  rw [hdata, hrec]

theorem entryCount_rleEntry {count : Nat} (h : count ≤ 255) (value : Bytes) :
    entryCount (rleEntry count value) = .ok count := by
  rw [rleEntry, entryCount, BitVec.toNat_ofNat, Nat.mod_eq_of_lt (by omega)]

theorem entryValue_rleEntry (count : Nat) {value : Bytes} {w : Nat} (h : value.length = w) :
    entryValue w (rleEntry count value) = .ok value := by
  rw [entryValue, if_pos (by rw [length_rleEntry, h])]
  rfl

theorem entryValues_rleEntry {count : Nat} (h1 : 1 ≤ count) (h255 : count ≤ 255) {value : Bytes}
    {w : Nat} (h : value.length = w) :
    entryValues w (rleEntry count value) = .ok (List.replicate count value) := by
  rw [entryValues, entryCount_rleEntry h255, ok_bind, if_neg (by omega),
    entryValue_rleEntry count h, ok_bind, pure_eq_ok]

/-- Counting the entries of well-formed runs. -/
theorem RleOf.mapM_entryCount {e : PcBytes} {rs : List (Nat × Bytes)} (h : RleOf e rs) :
    (rleEntries e).mapM entryCount = .ok (rs.map Prod.fst) := by
  rw [h.rleEntries_eq, List.mapM_map]
  exact mapM_eq_ok_map fun r hr => entryCount_rleEntry (h.count_range r hr).2 r.2

/-! ## Decoding -/

/-- Decoding gives the values the runs stand for. -/
theorem pcBytesRunLengthDecode_ok {e : PcBytes} {rs : List (Nat × Bytes)} (h : RleOf e rs)
    (hnp : e.npoints < 4294967296) :
    pcBytesRunLengthDecode e =
      .ok { e with size := e.width * e.npoints, bytes := (expand rs).flatten,
                   compression := .none, readonly := false } := by
  have hvalues : (rleEntries e).mapM (entryValues e.width)
      = .ok (rs.map fun r => List.replicate r.1 r.2) := by
    rw [h.rleEntries_eq, List.mapM_map]
    exact mapM_eq_ok_map fun r hr =>
      entryValues_rleEntry (h.count_range r hr).1 (h.count_range r hr).2 (h.width_eq r hr)
  have hexpand : (rs.map fun r => List.replicate r.1 r.2).flatten = expand rs := rfl
  have hsum : (rs.map Prod.fst).sum = e.npoints := by
    rw [← length_expand, h.npoints_eq]
  unfold pcBytesRunLengthDecode
  rw [assertThat_true h.compression_eq, ok_bind, h.mapM_entryCount, ok_bind, hsum,
    assertThat_true (uint32_of_lt hnp), ok_bind, hvalues, ok_bind, hexpand,
    if_pos (Nat.le_of_eq h.npoints_eq), pure_eq_ok]

/-! ## Encoding -/

theorem emit_ok {capacity : Nat} {out src : Bytes} (h : out.length + src.length ≤ capacity) :
    emit capacity out src = .ok (out ++ src) := if_pos h

/-- The loop writes the entries of the runs, and one entry for each value is room enough. -/
theorem runLengthLoop_ok {capacity w : Nat} : ∀ (vs : List Bytes) (a : Bytes) (n : Nat)
    (out : Bytes), (∀ v ∈ vs, v.length = w) → a.length = w →
      out.length + (vs.length + 1) * (w + 1) ≤ capacity →
      runLengthLoop capacity vs a n out = .ok (out ++ rleBytes (runsFrom 255 vs a n))
  | [], a, n, out, _, ha, hroom => by
      rw [List.length_nil, Nat.zero_add, Nat.one_mul] at hroom
      rw [runLengthLoop, emit_ok (by rw [length_rleEntry, ha]; exact hroom)]
      simp [runsFrom, rleBytes]
  | v :: vs, a, n, out, hvs, ha, hroom => by
      have hv : v.length = w := hvs v (by simp)
      have hrest : ∀ u ∈ vs, u.length = w := fun u hu => hvs u (by simp [hu])
      rw [List.length_cons, Nat.succ_mul] at hroom
      unfold runLengthLoop runsFrom
      split
      · next hrun => exact runLengthLoop_ok vs a (n + 1) out hrest ha (by omega)
      · next hrun =>
          have hlen : (rleEntry n a).length = w + 1 := by rw [length_rleEntry, ha]
          rw [emit_ok (by rw [hlen]; omega), ok_bind,
            runLengthLoop_ok vs v 1 _ hrest hv (by rw [List.length_append, hlen]; omega),
            List.append_assoc]
          rfl

/-- The encoder writes the runs of the values. -/
theorem pcBytesRunLengthEncode_ok {pcb : PcBytes} (hknown : pcb.interpretation ≠ .unknown)
    (hroom : pcb.npoints * pcb.width ≤ pcb.bytes.length) (hint : pcb.npoints ≤ 2147483648) :
    pcBytesRunLengthEncode pcb =
        .ok { pcb with size := (rleBytes (runs 255 pcb.values)).length
                       bytes := rleBytes (runs 255 pcb.values)
                       compression := .rle, readonly := false } ∧
      RleOf { pcb with size := (rleBytes (runs 255 pcb.values)).length
                       bytes := rleBytes (runs 255 pcb.values)
                       compression := .rle, readonly := false } (runs 255 pcb.values) := by
  have hwidth : ∀ v ∈ pcb.values, v.length = pcb.width :=
    fun v hv => length_of_mem_records hroom hv
  constructor
  · rw [pcBytesRunLengthEncode, readValues_ok hint hroom, ok_bind]
    cases hvs : pcb.values with
    | nil => rfl
    | cons v vs =>
        have hlen : vs.length + 1 = pcb.npoints := by
          rw [← pcb.length_values, hvs, List.length_cons]
        have hloop : runLengthLoop (pcb.npoints * pcb.width + pcb.npoints) vs v 1 []
            = .ok ([] ++ rleBytes (runsFrom 255 vs v 1)) :=
          runLengthLoop_ok vs v 1 [] (fun u hu => hwidth u (by simp [hvs, hu]))
            (hwidth v (by simp [hvs])) (by rw [hlen, Nat.mul_succ]; simp)
        simp only
        rw [hloop, ok_bind, List.nil_append]
        rfl
  · refine ⟨hknown, rfl, fun r hr => count_runs (by decide) hr, ?_, ?_, Nat.le_refl _, ?_⟩
    · intro r hr
      exact hwidth r.2 (value_runs (by decide) hr)
    · rw [expand_runs]
      exact pcb.length_values
    · exact List.take_length

/-- An index that turns negative leaves the array. -/
theorem pcBytesRunLengthEncode_fault {pcb : PcBytes} (h : 2147483648 < pcb.npoints) :
    pcBytesRunLengthEncode pcb = fault := by
  rw [pcBytesRunLengthEncode, readValues_fault (Or.inl h), fault_bind]

/-! ## The round trip -/

/-- Encoded, the array is whole entries whose counts lie between 1 and 255 and
add up to the number of values, within the memory allocated for them; decoded,
it has its bytes back. -/
def RunLengthLossless (pcb : PcBytes) : Prop :=
  ∃ e rs d, pcBytesRunLengthEncode pcb = .ok e ∧ RleOf e rs ∧ e.bytes = rleBytes rs ∧
    (rs.map Prod.fst).sum = pcb.npoints ∧ e.size ≤ pcb.npoints * (pcb.width + 1) ∧
    pcBytesRunLengthDecode e = .ok d ∧ d.compression = .none ∧ d.bytes = pcb.data ∧
    d.size = pcb.size ∧ d.npoints = pcb.npoints ∧ d.interpretation = pcb.interpretation

/-- Runs of at least one value each are no more than their values. -/
theorem length_le_of_counts {rs : List (Nat × Bytes)} (h : ∀ r ∈ rs, 1 ≤ r.1) :
    rs.length ≤ (expand rs).length := by
  induction rs with
  | nil => simp
  | cons r rs ih =>
      have hr := h r (by simp)
      have hrest := ih fun s hs => h s (by simp [hs])
      rw [expand_cons, List.length_append, List.length_replicate, List.length_cons]
      omega

/-- The run-length codec loses nothing, as long as an `int` counts the values. -/
theorem pcBytesRunLength_lossless_iff {pcb : PcBytes} (h : pcb.Plain)
    (hnp : pcb.npoints < 4294967296) : RunLengthLossless pcb ↔ pcb.npoints ≤ 2147483648 := by
  constructor
  · rintro ⟨e, -, -, hencode, -⟩
    by_contra hlarge
    rw [pcBytesRunLengthEncode_fault (Nat.not_le.mp hlarge)] at hencode
    exact fault_ne_ok e hencode
  · intro hint
    obtain ⟨hencode, hof⟩ := pcBytesRunLengthEncode_ok h.known h.room hint
    have hlen : (expand (runs 255 pcb.values)).length = pcb.npoints := hof.npoints_eq
    have hentries := length_le_of_counts fun r hr => (hof.count_range r hr).1
    refine ⟨_, _, _, hencode, hof, rfl, ?_, ?_, pcBytesRunLengthDecode_ok hof hnp, rfl, ?_, ?_, rfl,
      rfl⟩
    · rw [← length_expand, hlen]
    · rw [hof.size_eq]
      exact Nat.mul_le_mul_right _ (hlen ▸ hentries)
    · simp only [expand_runs]
      exact h.flatten_values
    · rw [h.size_eq]
      exact Nat.mul_comm _ _

/-- A run of 300 values takes two entries. -/
theorem pcBytesRunLength_lossless_iff_witness :
    RunLengthLossless ⟨300, 300, .uint8, .none, false, zeros 300⟩ :=
  (pcBytesRunLength_lossless_iff ⟨by decide, rfl, by decide, by simp⟩ (by decide)).mpr (by decide)

/-- Past `2 ^ 31` values the index leaves the array. -/
theorem pcBytesRunLength_not_lossless :
    let pcb : PcBytes := ⟨2147483649, 2147483649, .uint8, .none, false, zeros 2147483649⟩
    pcb.Plain ∧ 1 ≤ pcb.npoints ∧ pcb.npoints < 4294967296 ∧ ¬ RunLengthLossless pcb := by
  intro pcb
  have hplain : pcb.Plain := ⟨by decide, rfl, by decide, Nat.le_of_eq (length_zeros _).symm⟩
  refine ⟨hplain, by decide, by decide, ?_⟩
  rintro ⟨e, -, -, hencode, -⟩
  rw [pcBytesRunLengthEncode_fault (by decide)] at hencode
  exact fault_ne_ok e hencode

/-! ## Random access -/

/-- The walk subtracts the lengths of the runs until the index falls into one. -/
theorem runLengthToPtrLoop_ok {w : Nat} : ∀ (rs : List (Nat × Bytes)) (i : Nat),
    (∀ r ∈ rs, r.1 ≤ 255) → (∀ r ∈ rs, r.2.length = w) → ∀ h : i < (expand rs).length,
      runLengthToPtrLoop w (rs.map fun r => rleEntry r.1 r.2) i = .ok (expand rs)[i]
  | [], i, _, _, h => absurd h (Nat.not_lt_zero i)
  | r :: rs, i, hcount, hwidth, h => by
      rw [List.map_cons, runLengthToPtrLoop, entryCount_rleEntry (hcount r (by simp)), ok_bind]
      by_cases hin : i < r.1
      · have hget : (expand (r :: rs))[i] = r.2 := by
          simp only [expand_cons]
          rw [List.getElem_append_left (by simpa using hin), List.getElem_replicate]
        rw [if_pos (by omega), entryValue_rleEntry _ (hwidth r (by simp)), hget]
      · have hlen : i - r.1 < (expand rs).length := by
          rw [expand_cons, List.length_append, List.length_replicate] at h
          omega
        have hget : (expand (r :: rs))[i] = (expand rs)[i - r.1] := by
          simp only [expand_cons]
          rw [List.getElem_append_right (by simpa using hin)]
          simp only [List.length_replicate]
        have hcast : (i : Int) - r.1 = ((i - r.1 : Nat) : Int) := by omega
        rw [if_neg (by omega), hcast,
          runLengthToPtrLoop_ok rs (i - r.1) (fun s hs => hcount s (by simp [hs]))
            (fun s hs => hwidth s (by simp [hs])) hlen, hget]

/-- Random access gives the values the runs stand for. -/
theorem pcBytesRunLengthToPtr_ok {e : PcBytes} {rs : List (Nat × Bytes)} (h : RleOf e rs)
    {i : Nat} (hi : i < (expand rs).length) :
    pcBytesRunLengthToPtr e i = .ok (expand rs)[i] := by
  rw [pcBytesRunLengthToPtr, assertThat_true h.compression_eq, ok_bind, h.rleEntries_eq]
  exact runLengthToPtrLoop_ok rs i (fun r hr => (h.count_range r hr).2) h.width_eq hi

end Pointcloud
