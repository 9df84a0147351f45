/-
Pointcloud.Patch.PayoffTheorems — a recommended encoding pays off.

The statistics estimate the size of an encoding from what they count: each run once,
however long, and each bit once, without padding. The encoders write long runs in
parts of 255 values and round their buffers up. `pcBytesEncode_recommended_lt` says
that the margin which a recommendation asks for covers the difference.
-/
import Pointcloud.Patch.CompressTheorems

namespace Pointcloud

open Pointcloud.Base

variable {P : Platform}

/-! ## Runs -/

theorem runCountOf_singleton (v : Bytes) : runCountOf [v] = 1 := rfl

theorem runCountOf_cons (u v : Bytes) (vs : List Bytes) :
    runCountOf (u :: v :: vs) = runCountOf (v :: vs) + if u = v then 0 else 1 := rfl

/-- Cut into parts of `cap` values, runs become more by no more than one for each `cap`
values. The first run has `count` values more in front. -/
theorem length_runsFrom_le {cap : Nat} (hcap : 1 ≤ cap) :
    ∀ (vs : List Bytes) (v : Bytes) {count : Nat}, 1 ≤ count →
      cap * (runsFrom cap vs v count).length ≤
        count + vs.length + (cap - 1) * runCountOf (v :: vs)
  | [], v, count, hcount => by
      rw [runsFrom, runCountOf_singleton, List.length_singleton, List.length_nil]
      omega
  | u :: vs, v, count, hcount => by
      rw [runsFrom, runCountOf_cons, List.length_cons]
      by_cases hsame : v = u
      · subst hsame
        rw [if_pos rfl, Nat.add_zero (runCountOf _)]
        by_cases hfull : count < cap
        · rw [if_pos ⟨hfull, rfl⟩]
          have ih := length_runsFrom_le hcap vs v (Nat.le_add_left 1 count)
          omega
        · rw [if_neg fun h => hfull h.1, List.length_cons, Nat.mul_succ]
          have ih := length_runsFrom_le hcap vs v (Nat.le_refl 1)
          omega
      · rw [if_neg fun h => hsame h.2, if_neg hsame, List.length_cons, Nat.mul_succ, Nat.mul_succ]
        have ih := length_runsFrom_le hcap vs u (Nat.le_refl 1)
        omega

theorem length_runs_le (vs : List Bytes) :
    255 * (runs 255 vs).length ≤ vs.length + 254 * runCountOf vs := by
  cases vs with
  | nil => exact Nat.zero_le _
  | cons v vs =>
      have hcap : 1 ≤ 255 := by decide
      have h := length_runsFrom_le hcap vs v (Nat.le_refl 1)
      rw [List.length_cons, Nat.add_comm vs.length]
      exact h

/-- There are no more runs than values. -/
theorem runCountOf_le : ∀ {vs : List Bytes}, vs ≠ [] → runCountOf vs ≤ vs.length
  | [_], _ => Nat.le_refl _
  | u :: v :: vs, _ => by
      have ih := runCountOf_le (List.cons_ne_nil v vs)
      rw [runCountOf_cons, List.length_cons]
      split <;> omega

theorem runCountOf_pos : ∀ vs : List Bytes, 1 ≤ runCountOf vs
  | [] => Nat.le_refl _
  | [_] => Nat.le_refl _
  | u :: v :: vs => by
      rw [runCountOf_cons]
      exact Nat.le_trans (runCountOf_pos (v :: vs)) (Nat.le_add_right _ _)

/-! ## Packed bits -/

/-- The size of the packed array, by the bits that the values do not have in common. -/
theorem size_of_pcBytesSigbitsEncode {pcb e : PcBytes} (h : pcb.Plain) (hpos : 1 ≤ pcb.npoints)
    (hint : pcb.npoints ≤ 2147483648)
    (hbits : uniqueBits (pcb.words P.endian) * pcb.npoints < 4294967296)
    (hok : pcBytesSigbitsEncode P.endian P.shift pcb = .ok e) :
    e.size = sizeOutOf pcb.width (uniqueBits (pcb.words P.endian) * pcb.npoints) := by
  have hw := wordWidth_of_known h.known
  have hlen : pcb.npoints ≤ (wordsOf P.endian pcb.width pcb.bytes).length := by
    rw [length_wordsOf]
    exact (Nat.le_div_iff_mul_le hw.pos).mpr h.room
  obtain ⟨commonvalue, hcount, -⟩ := sigbitsCountWords_spec P.shift_ne_trap (by omega) hlen hint
  rw [PcBytes.take_wordsOf P.endian h.room] at hcount
  rw [pcBytesSigbitsEncode_eq P.endian P.shift hw rfl, hcount, ok_bind] at hok
  have hsub : 8 * pcb.width - (8 * pcb.width - uniqueBits (pcb.words P.endian)) =
      uniqueBits (pcb.words P.endian) := Nat.sub_sub_self (uniqueBits_le _)
  rw [size_of_sigbitsEncodeWords hok, hsub, uint32_of_lt hbits]

/-- The buffer is smaller than the plain values where the margin is kept. -/
theorem sizeOutOf_lt {w : Nat} (hw : WordWidth w) {bits npoints : Nat}
    (h : 16 * w + bits < 5 * (npoints * w)) : sizeOutOf w bits < npoints * w := by
  rcases hw with rfl | rfl | rfl | rfl
  · simp only [sizeOutOf, sizeOut8]
    omega
  · simp only [sizeOutOf, sizeOut16]
    omega
  · simp only [sizeOutOf, sizeOut32]
    omega
  · simp only [sizeOutOf, sizeOut64]
    omega

/-! ## Recommendations -/

theorem quotientExceeds_iff {num den bound : ℚ} (hden : 0 < den) :
    quotientExceeds num den bound ↔ bound * den < num := by
  rw [quotientExceeds, if_neg (ne_of_gt hden), lt_div_iff₀ hden]

section Margin

variable {npoints : Nat} {stat : PcDimStat} {dim : PcDimension} (hw : WordWidth dim.size)
  (hraw : npoints * dim.size < 4294967296)

include hw hraw

/-- Runs are recommended where they take less than a quarter of the plain values. -/
theorem rle_margin {patches : Nat} (hpos : 1 ≤ stat.totalRuns)
    (hcount : stat.totalRuns * (dim.size + 1) < 4294967296)
    (hrle : recommend npoints patches stat dim = .rle) :
    4 * (stat.totalRuns * (dim.size + 1)) < npoints * dim.size := by
  have hle := hw.le
  have hexceeds : quotientExceeds (uint32 (npoints * dim.size) : Nat)
      (uint32 (stat.totalRuns * uint32 (dim.size + 1)) : Nat) 4 := by
    by_contra hnot
    unfold recommend at hrle
    simp only [hnot, if_false] at hrle
    split at hrle
    · exact nomatch hrle
    · split at hrle <;> exact nomatch hrle
  have hden : 0 < stat.totalRuns * (dim.size + 1) := Nat.mul_pos hpos (Nat.succ_pos _)
  rw [uint32_of_lt hraw, uint32_of_lt (by omega : dim.size + 1 < 4294967296), uint32_of_lt hcount,
    quotientExceeds_iff (by exact_mod_cast hden)] at hexceeds
  exact_mod_cast hexceeds

/-- Significant bits are recommended where they take less than five eighths. -/
theorem sigbits_margin {unique : Nat} (hle : unique ≤ 8 * dim.size)
    (hcommon : stat.totalCommonbits = 8 * dim.size - unique)
    (hsigbits : recommend npoints 1 stat dim = .sigbits) :
    16 * dim.size + unique * npoints < 5 * (npoints * dim.size) := by
  have hle8 := hw.le
  have hpos := hw.pos
  have hexceeds : quotientExceeds (uint32 (npoints * dim.size) : Nat)
      ((uint32 (uint32 (1 * 2) * dim.size) : Nat) + npoints *
        (((uint32 (8 * dim.size) : Nat) : ℚ) - (stat.totalCommonbits / 1 : Nat)) / 8) (8 / 5) := by
    by_contra hnot
    unfold recommend at hsigbits
    simp only [hnot, if_false] at hsigbits
    split at hsigbits
    · exact nomatch hsigbits
    · split at hsigbits <;> exact nomatch hsigbits
  have hunique : ((8 * dim.size : Nat) : ℚ) - ((8 * dim.size - unique : Nat) : ℚ) = unique := by
    rw [Nat.cast_sub hle]
    ring
  have hden : (0 : ℚ) < (2 * dim.size : Nat) + npoints * unique / 8 := by
    have h2 : (0 : ℚ) < (2 * dim.size : Nat) := by exact_mod_cast Nat.mul_pos (by decide) hpos
    positivity
  rw [uint32_of_lt hraw, uint32_of_lt (by omega : 8 * dim.size < 4294967296), Nat.div_one, hcommon,
    hunique, show uint32 (1 * 2) = 2 from rfl, uint32_of_lt (by omega : 2 * dim.size < 4294967296),
    quotientExceeds_iff hden] at hexceeds
  have hcleared : (16 * dim.size + unique * npoints : ℚ) < 5 * (npoints * dim.size) := by
    push_cast at hexceeds
    linarith
  exact_mod_cast hcleared

end Margin

/-! ## Sizes -/

/-- What fresh statistics say of a dimension after one patch. -/
theorem stat_of_mem_slots {d : PcPatchDimensional} {t : (PcDimension × PcBytes) × PcDimStat}
    (ht : t ∈ slots d ((pcDimstatsMake d.schema).sampled P d)) :
    t.2 = { countedStat P ⟨0, 0, .none⟩ t.1.2 with
      recommendedCompression :=
        recommend (uint32 d.npoints) 1 (countedStat P ⟨0, 0, .none⟩ t.1.2) t.1.1 } := by
  obtain ⟨i, hi, rfl⟩ := List.mem_iff_getElem.mp ht
  simp [slots, PcDimStats.sampled, pcDimstatsMake, uint32]

section Encoded

variable {e : PcBytes} (h : e.Plain) (hpos : 1 ≤ e.npoints)
  (hsmall : e.npoints * e.width < 536870912)

include h hpos hsmall

omit hpos in
/-- Runs that take less than a quarter of the plain values are still fewer bytes when
they are cut into parts. -/
theorem runLengthEncode_lt
    (hmargin : 4 * (runCountOf e.values * (e.width + 1)) < e.npoints * e.width) :
    ∃ e', pcBytesRunLengthEncode e = .ok e' ∧ e'.size < e.npoints * e.width := by
  have hwidth := e.width_pos
  have hint : e.npoints ≤ 2147483648 := by
    have hle := Nat.le_mul_of_pos_right e.npoints hwidth
    omega
  obtain ⟨hok, hrle⟩ := pcBytesRunLengthEncode_ok h.known h.room hint
  refine ⟨_, hok, ?_⟩
  have hruns := length_runs_le e.values
  rw [e.length_values] at hruns
  have hsize := hrle.size_eq
  change (rleBytes (runs 255 e.values)).length = (runs 255 e.values).length * (e.width + 1) at hsize
  have hscaled := Nat.mul_le_mul_right (e.width + 1) hruns
  have hentry : e.npoints * (e.width + 1) ≤ 2 * (e.npoints * e.width) := by
    have hle := Nat.mul_le_mul_left e.npoints hwidth
    rw [Nat.mul_succ]
    omega
  rw [Nat.add_mul, Nat.mul_assoc, Nat.mul_assoc] at hscaled
  simp only [hsize]
  omega

/-- The packed bits are fewer bytes than the plain values. -/
theorem sigbitsEncode_lt (hmargin : 16 * e.width + uniqueBits (e.words P.endian) * e.npoints <
      5 * (e.npoints * e.width)) :
    ∃ e', pcBytesSigbitsEncode P.endian P.shift e = .ok e' ∧ e'.size < e.npoints * e.width := by
  have hwidth := e.width_pos
  have hw := wordWidth_of_known h.known
  have hint : e.npoints ≤ 2147483648 := by
    have hle := Nat.le_mul_of_pos_right e.npoints hwidth
    omega
  have hbits : uniqueBits (e.words P.endian) * e.npoints < 4294967296 := by omega
  have hne : e.width ≤ e.bytes.length := Nat.le_trans (Nat.le_mul_of_pos_left _ hpos) h.room
  obtain ⟨bytes, hok, -⟩ :=
    pcBytesSigbitsEncode_ok P.endian P.shift_ne_trap h.known hne h.room hint hbits
  refine ⟨_, hok, ?_⟩
  rw [size_of_pcBytesSigbitsEncode h hpos hint hbits hok]
  exact sizeOutOf_lt hw hmargin

/-- A plain array is smaller in the encoding that its own counts recommend. -/
theorem encode_recommended_lt {dim : PcDimension} (hdim : dim.size = e.width)
    {c : DimCompression} (hc : recommend e.npoints 1 (countedStat P ⟨0, 0, .none⟩ e) dim = c)
    (hbetter : c = .rle ∨ c = .sigbits) :
    ∃ e', pcBytesEncode P e c = .ok e' ∧ e'.size < e.npoints * e.width := by
  have hw : WordWidth dim.size := hdim ▸ wordWidth_of_known h.known
  have hraw : e.npoints * dim.size < 4294967296 := by
    rw [hdim]
    omega
  have hne : e.values ≠ [] := List.ne_nil_of_length_pos (by rwa [e.length_values])
  have hle : runCountOf e.values ≤ e.npoints := by
    have hle := runCountOf_le hne
    rwa [e.length_values] at hle
  rcases hbetter with rfl | rfl
  · have hcount : runCountOf e.values * (dim.size + 1) < 4294967296 := by
      have hscaled := Nat.mul_le_mul_right (dim.size + 1) hle
      have hentry := Nat.mul_le_mul_left e.npoints hw.pos
      rw [Nat.mul_succ e.npoints] at hscaled
      rw [hdim] at hscaled hentry ⊢
      omega
    have hruns : (countedStat P ⟨0, 0, .none⟩ e).totalRuns = runCountOf e.values := by
      simp only [countedStat, Nat.zero_add]
      refine uint32_of_lt (Nat.lt_of_le_of_lt (Nat.le_mul_of_pos_right _ (Nat.succ_pos _)) hcount)
    have hmargin := rle_margin hw hraw (hruns ▸ runCountOf_pos _) (hruns ▸ hcount) hc
    rw [hruns, hdim] at hmargin
    exact runLengthEncode_lt h hsmall hmargin
  · have hunique : uniqueBits (e.words P.endian) ≤ 8 * dim.size := by
      rw [hdim]
      exact uniqueBits_le _
    have hcommon : (countedStat P ⟨0, 0, .none⟩ e).totalCommonbits =
        8 * dim.size - uniqueBits (e.words P.endian) := by
      have hwle := hw.le
      simp only [countedStat, Nat.zero_add, hdim]
      exact uint32_of_lt (by rw [hdim] at hwle; omega)
    have hmargin := sigbits_margin hw hraw hunique hcommon hc
    rw [hdim] at hmargin
    exact sigbitsEncode_lt h hpos hsmall hmargin

end Encoded

/-- After fresh statistics have seen one patch of plain arrays, every dimension for which
they recommend runs or significant bits is encoded so in fewer bytes than its plain
values take. -/
theorem pcBytesEncode_recommended_lt (P : Platform) {d : PcPatchDimensional} {pts : List Bytes}
    (h : d.Holds P pts) (hplain : ∀ e ∈ d.bytes, e.compression = .none) (hpos : 1 ≤ d.npoints)
    (hsmall : d.npoints * d.schema.size < 536870912) :
    ∃ pds, pcDimstatsUpdate P (pcDimstatsMake d.schema) d = .ok pds ∧
      pds.stats.length = d.schema.ndims ∧
      ∀ t ∈ slots d pds, t.2.recommendedCompression = .rle ∨ t.2.recommendedCompression = .sigbits →
        ∃ e, pcBytesEncode P t.1.2 t.2.recommendedCompression = .ok e ∧
          e.size < d.npoints * t.1.1.size := by
  have hfits : Fits d.schema d.npoints := fits_of_records (by omega)
  have hbytes := h.bytes_hold.length_eq.symm
  have hplains : ∀ e ∈ d.bytes, e.Plain := by
    intro e he
    obtain ⟨dim, -, -, -, hstores⟩ := h.dim_of_mem he
    exact (hstores.plainOf (hplain e he)).plain
  have hcount : ∀ e ∈ d.bytes, e.npoints = d.npoints := fun e he => (h.of_mem_bytes he).2
  refine ⟨_, pcDimstatsUpdate_ok (fun e he => (h.of_mem_bytes he).1)
    (length_pcDimstatsMake d.schema)
    hbytes (fun e he => hcount e he ▸ hpos)
    (fun e he => hcount e he ▸ Nat.le_of_lt hfits.npoints_lt)
    ⟨(by decide : uint32 (0 + 1) ≠ 0), fun e he => (hplains e he).room⟩,
    length_sampled (length_pcDimstatsMake d.schema) hbytes, fun t ht hrec => ?_⟩
  have he : t.1.2 ∈ d.bytes := (List.of_mem_zip (List.of_mem_zip ht).1).2
  obtain ⟨hd, -, hnp, -⟩ := h.of_mem_slots ht
  obtain ⟨-, hwidth, -⟩ := h.array_fits hfits ht
  have hplain := hplains t.1.2 he
  have hsmall' : t.1.2.npoints * t.1.2.width < 536870912 := by
    have hend := Nat.mul_le_mul_left d.npoints
      (Nat.le_trans (Nat.le_add_left _ _) (d.schema.dim_end_le hd))
    rw [hnp, hwidth]
    omega
  have hstat := congrArg PcDimStat.recommendedCompression (stat_of_mem_slots ht)
  have hn := hfits.npoints_lt
  rw [uint32_of_lt (by omega : d.npoints < 4294967296), ← hnp] at hstat
  rw [← hnp, ← hwidth]
  exact encode_recommended_lt hplain (hnp ▸ hpos) hsmall' hwidth.symm hstat.symm hrec

/-- Twenty-four points with one x, whose ys differ in their last two bits. -/
def mixedPoints : List Bytes := (List.replicate 6 [[7, 64], [7, 67], [7, 65], [7, 66]]).flatten

def mixedPatch : PcPatchDimensional :=
  (patchOfRecords pairOfDims.schema mixedPoints).dimensional mixedPoints

/-- Runs are recommended for the first of its dimensions and significant bits for the
second. -/
theorem pcBytesEncode_recommended_lt_witness :
    (∃ pds, pcDimstatsUpdate Platform.plain (pcDimstatsMake mixedPatch.schema) mixedPatch =
        .ok pds ∧
      pds.stats.length = mixedPatch.schema.ndims ∧
      ∀ t ∈ slots mixedPatch pds,
        t.2.recommendedCompression = .rle ∨ t.2.recommendedCompression = .sigbits →
        ∃ e, pcBytesEncode Platform.plain t.1.2 t.2.recommendedCompression = .ok e ∧
          e.size < mixedPatch.npoints * t.1.1.size) ∧
      (pcDimstatsUpdate Platform.plain (pcDimstatsMake mixedPatch.schema) mixedPatch).map
        (fun pds => pds.stats.map PcDimStat.recommendedCompression) = .ok [.rle, .sigbits] := by
  have hholds : mixedPatch.Holds Platform.plain mixedPoints :=
    (patchOfRecords_holds (by decide) (by decide)).dimensional
  exact ⟨pcBytesEncode_recommended_lt Platform.plain hholds (by decide) (by decide) (by decide),
    by decide +kernel⟩

end Pointcloud
