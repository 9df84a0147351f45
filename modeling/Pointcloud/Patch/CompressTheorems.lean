/-
Pointcloud.Patch.CompressTheorems — when compression keeps the points.

Compressing a patch encodes the array of every dimension as the statistics
recommend. The encoder takes the stored bytes of an array for plain values,
whatever their compression, and so does the sampling of the statistics; an
array that is encoded already is therefore read wrongly, unless no encoding is
requested for it. The theorem of this module says exactly when the points
survive: every array that is encoded again must hold, as it is stored, the
values it stands for.

Compression of a dimensional patch goes over three lists in step: the dimensions,
their arrays, and their statistics (`slots`). It counts the runs and the common bits of
each array first, where the statistics have not been settled yet, and then encodes.
Both can fail, and both loops give their conditions back: `pcPatchDimensionalCompress_ok`
says that the conditions are enough, `compresses_of_ok` that a run which returned
has met them. An equivalence needs both, since the claim is about the points of
the result and a failed run has none.

What an encoded array stands for is compared as a list of values, dimension by
dimension (`slotValues_forall₂`), and a list of points is determined by its columns
(`pointsOf_slotValues_eq_iff`). That is why the condition can be stated for one
array at a time.
-/
import Pointcloud.Bytes.ReencodeTheorems
import Pointcloud.Patch.Compress
import Pointcloud.Patch.DimensionalTheorems

namespace Pointcloud

open Pointcloud.Base

variable {P : Platform}

/-! ## Sampling

The statistics are settled once enough points have been counted, and are not asked
again. -/

/-- The counts of a dimension with those of the stored words of an array added. -/
def countedStat (P : Platform) (stat : PcDimStat) (e : PcBytes) : PcDimStat :=
  { stat with
    totalRuns := uint32 (stat.totalRuns + runCountOf e.values)
    totalCommonbits :=
      uint32 (stat.totalCommonbits + (8 * e.width - uniqueBits (e.words P.endian))) }

/-- The statistics after a patch has been sampled. -/
def PcDimStats.sampled (P : Platform) (pds : PcDimStats) (d : PcPatchDimensional) : PcDimStats :=
  let totalPoints := uint32 (pds.totalPoints + d.npoints)
  let totalPatches := uint32 (pds.totalPatches + 1)
  ⟨totalPoints, totalPatches, ((pds.stats.zip d.bytes).map fun p => countedStat P p.1 p.2).zip
      d.schema.dims |>.map fun p =>
        { p.1 with recommendedCompression := recommend totalPoints totalPatches p.1 p.2 }⟩

/-- Sampling reads no array past its end, and does not divide by zero. -/
structure Sampleable (pds : PcDimStats) (d : PcPatchDimensional) : Prop where
  patches_ne : uint32 (pds.totalPatches + 1) ≠ 0
  room : ∀ e ∈ d.bytes, e.npoints * e.width ≤ e.bytes.length

theorem runCountOf_of_length_le {vs : List Bytes} (h : vs.length ≤ 1) : runCountOf vs = 1 := by
  match vs, h with
  | [], _ => rfl
  | [_], _ => rfl

theorem pcBytesRunCount_ok {e : PcBytes} (hint : e.npoints ≤ 2147483648)
    (hroom : e.npoints * e.width ≤ e.bytes.length) :
    pcBytesRunCount e = .ok (runCountOf e.values) := by
  unfold pcBytesRunCount
  split
  · next h => rw [runCountOf_of_length_le (by rwa [e.length_values]), pure_eq_ok]
  · rw [readValues_ok hint hroom, ok_bind, pure_eq_ok]

section Count

variable {stat : PcDimStat} {e : PcBytes} (hknown : e.interpretation ≠ .unknown)

include hknown

theorem countDimension_ok (hpos : 1 ≤ e.npoints) (hint : e.npoints ≤ 2147483648)
    (hroom : e.npoints * e.width ≤ e.bytes.length) :
    countDimension P stat e = .ok (countedStat P stat e) := by
  have hw := wordWidth_of_known hknown
  have hlen : e.npoints ≤ (wordsOf P.endian e.width e.bytes).length := by
    rw [length_wordsOf]
    exact (Nat.le_div_iff_mul_le hw.pos).mpr hroom
  obtain ⟨commonvalue, hcount, -⟩ :=
    sigbitsCountWords_spec P.shift_ne_trap (by omega) hlen hint
  rw [PcBytes.take_wordsOf P.endian hroom] at hcount
  rw [countDimension, pcBytesRunCount_ok hint hroom, ok_bind,
    pcBytesSigbitsCount_eq _ _ hw rfl, hcount, ok_bind, pure_eq_ok]
  rfl

theorem room_of_countDimension {stat' : PcDimStat} (hok : countDimension P stat e = .ok stat') :
    e.npoints * e.width ≤ e.bytes.length := by
  have hw := wordWidth_of_known hknown
  by_contra hroom
  have hshort : (wordsOf P.endian e.width e.bytes).length < e.npoints := by
    rw [length_wordsOf]
    exact (Nat.div_lt_iff_lt_mul hw.pos).mpr (Nat.not_le.mp hroom)
  obtain ⟨runs, -, hrest⟩ := bind_eq_ok.mp hok
  rw [pcBytesSigbitsCount_eq _ _ hw rfl, sigbitsCountWords_fault (Or.inr (Or.inl hshort))] at hrest
  exact fault_ne_ok _ hrest

end Count

section Update

variable {pds : PcDimStats} {d : PcPatchDimensional}
  (hknown : ∀ e ∈ d.bytes, e.interpretation ≠ .unknown)
  (hstats : pds.stats.length = d.schema.dims.length)
  (hbytes : d.bytes.length = d.schema.dims.length)

include hknown hstats hbytes

theorem pcDimstatsUpdate_ok (hpos : ∀ e ∈ d.bytes, 1 ≤ e.npoints)
    (hint : ∀ e ∈ d.bytes, e.npoints ≤ 2147483648) (h : Sampleable pds d) :
    pcDimstatsUpdate P pds d = .ok (pds.sampled P d) := by
  have hcount : ((pds.stats.zip d.bytes).mapM fun p => countDimension P p.1 p.2) =
      .ok ((pds.stats.zip d.bytes).map fun p => countedStat P p.1 p.2) := by
    refine mapM_eq_ok_map ?_
    rintro ⟨stat, e⟩ hmem
    have he := (List.of_mem_zip hmem).2
    exact countDimension_ok (hknown e he) (hpos e he) (hint e he) (h.room e he)
  unfold pcDimstatsUpdate PcDimStats.sampled
  simp only
  rw [mapM_range_wordAt (by omega) (countDimension P), hcount, ok_bind,
    mapM_range_wordAt (by rw [List.length_map, List.length_zip]; omega) (recommendDimension _ _)]
  have hrecommend : ∀ p : PcDimStat × PcDimension, recommendDimension
      (uint32 (pds.totalPoints + d.npoints)) (uint32 (pds.totalPatches + 1)) p.1 p.2 = .ok _ :=
    fun p => if_neg h.patches_ne
  rw [mapM_eq_ok_map (fun p _ => hrecommend p), ok_bind, pure_eq_ok]

theorem sampleable_of_ok {pds' : PcDimStats} (hok : pcDimstatsUpdate P pds d = .ok pds') :
    Sampleable pds d := by
  unfold pcDimstatsUpdate at hok
  simp only at hok
  rw [mapM_range_wordAt (by omega) (countDimension P)] at hok
  obtain ⟨counted, hcounted, hrest⟩ := bind_eq_ok.mp hok
  have hlen := length_of_mapM_eq_ok hcounted
  rw [List.length_zip] at hlen
  rw [mapM_range_wordAt (by omega) (recommendDimension _ _)] at hrest
  obtain ⟨stats, hrecommend, -⟩ := bind_eq_ok.mp hrest
  refine ⟨?_, ?_⟩
  · intro hzero
    -- there is a dimension, and its average divides by zero
    have hdims := List.length_pos_iff.mpr d.schema.dims_ne
    have hall := mapM_eq_ok_iff.mp hrecommend
    cases hzip : counted.zip d.schema.dims with
    | nil =>
        have := congrArg List.length hzip
        rw [List.length_zip, List.length_nil] at this
        omega
    | cons p ps =>
        rw [hzip] at hall
        cases hall with
        | cons hp _ =>
            rw [recommendDimension, if_pos hzero] at hp
            exact fault_ne_ok _ hp
  · intro e he
    obtain ⟨i, hi, rfl⟩ := List.mem_iff_getElem.mp he
    have hi' : i < (pds.stats.zip d.bytes).length := by
      rw [List.length_zip]
      omega
    have hget := (List.forall₂_iff_get.mp (mapM_eq_ok_iff.mp hcounted)).2 i hi' (by omega)
    simp only [List.get_eq_getElem, List.getElem_zip] at hget
    exact room_of_countDimension (hknown _ he) hget

end Update

/-! ## Encoding every dimension

The encoding is the one that the statistics recommend after sampling
(`PcDimStats.after`). -/

/-- The statistics by which a patch is compressed. -/
def PcDimStats.after (P : Platform) (pds : PcDimStats) (d : PcPatchDimensional) : PcDimStats :=
  if pds.totalPoints < pcdimstatsMinSample then pds.sampled P d else pds

/-- Every dimension with its array and its statistics. -/
def slots (d : PcPatchDimensional) (pds : PcDimStats) :
    List ((PcDimension × PcBytes) × PcDimStat) :=
  (d.schema.dims.zip d.bytes).zip pds.stats

/-- The values that a dimension has after its array has been encoded. -/
def slotValues (P : Platform) (pts : List Bytes) (t : (PcDimension × PcBytes) × PcDimStat) :
    List Bytes :=
  rereadValues P t.1.2 (pts.map t.1.1.bytesIn) t.2.recommendedCompression

/-- Compression returns. -/
structure Compresses (P : Platform) (d : PcPatchDimensional) (pds : PcDimStats) : Prop where
  sampleable : pds.totalPoints < pcdimstatsMinSample → Sampleable pds d
  reencodes : ∀ t ∈ slots d (pds.after P d), Reencodes P t.1.2 t.2.recommendedCompression

/-- Compression returns, and what it encodes again is stored as it is. -/
structure CompressSound (P : Platform) (d : PcPatchDimensional) (pts : List Bytes)
    (pds : PcDimStats) : Prop where
  compresses : Compresses P d pds
  values_eq : ∀ t ∈ slots d (pds.after P d), slotValues P pts t = pts.map t.1.1.bytesIn

theorem length_sampled {pds : PcDimStats} {d : PcPatchDimensional}
    (hstats : pds.stats.length = d.schema.dims.length)
    (hbytes : d.bytes.length = d.schema.dims.length) :
    (pds.sampled P d).stats.length = d.schema.dims.length := by
  simp [PcDimStats.sampled, hstats, hbytes]

theorem length_after {pds : PcDimStats} {d : PcPatchDimensional}
    (hstats : pds.stats.length = d.schema.dims.length)
    (hbytes : d.bytes.length = d.schema.dims.length) :
    (pds.after P d).stats.length = d.schema.dims.length := by
  unfold PcDimStats.after
  split
  · exact length_sampled hstats hbytes
  · exact hstats

section Slots

variable {d : PcPatchDimensional} {pds : PcDimStats}
  (hstats : pds.stats.length = d.schema.dims.length)
  (hbytes : d.bytes.length = d.schema.dims.length)

include hstats hbytes

theorem map_dim_slots : (slots d pds).map (fun t => t.1.1) = d.schema.dims := by
  have hlen : (d.schema.dims.zip d.bytes).length ≤ pds.stats.length := by
    rw [List.length_zip]
    omega
  have hmap : (slots d pds).map (fun t => t.1.1) = ((slots d pds).map Prod.fst).map Prod.fst := by
    rw [List.map_map]
    rfl
  rw [hmap, slots, List.map_fst_zip hlen, List.map_fst_zip (by omega)]

theorem map_array_slots :
    (slots d pds).map (fun t => (t.1.2, t.2)) = d.bytes.zip pds.stats := by
  apply List.ext_getElem
  · simp only [slots, List.length_map, List.length_zip]
    omega
  · intro i h₁ h₂
    simp [slots]

end Slots

section Compress

variable {d : PcPatchDimensional} {pts : List Bytes} (h : d.Holds P pts) (hne : pts ≠ [])
  (hfits : Fits d.schema d.npoints)

include h

theorem PcPatchDimensional.Holds.of_mem_bytes {e : PcBytes} (he : e ∈ d.bytes) :
    e.interpretation ≠ .unknown ∧ e.npoints = d.npoints := by
  obtain ⟨dim, -, -, hnp, hstores⟩ := h.dim_of_mem he
  exact ⟨hstores.known, hnp⟩

/-- What is known of a dimension and its array. -/
theorem PcPatchDimensional.Holds.of_mem_slots {pds : PcDimStats}
    {t : (PcDimension × PcBytes) × PcDimStat} (ht : t ∈ slots d pds) :
    t.1.1 ∈ d.schema.dims ∧ t.1.2.interpretation = t.1.1.interpretation ∧
      t.1.2.npoints = d.npoints ∧ Stores P t.1.2 (pts.map t.1.1.bytesIn) := by
  have hmem : t.1 ∈ d.schema.dims.zip d.bytes := (List.of_mem_zip ht).1
  exact ⟨(List.of_mem_zip hmem).1, (List.forall₂_iff_zip.mp h.bytes_hold).2 hmem⟩

include hne hfits

omit hne in
/-- The array of a dimension can be counted and encoded. -/
theorem PcPatchDimensional.Holds.array_fits {pds : PcDimStats}
    {t : (PcDimension × PcBytes) × PcDimStat} (ht : t ∈ slots d pds) :
    t.1.2.npoints ≤ 2147483648 ∧ t.1.2.width = t.1.1.size ∧
      t.1.2.width * t.1.2.npoints < 4294967296 := by
  obtain ⟨hd, hinterp, hnp, -⟩ := h.of_mem_slots ht
  have hwidth : t.1.2.width = t.1.1.size := by rw [PcBytes.width, hinterp, d.schema.dim_size hd]
  have hint := hfits.npoints_lt
  refine ⟨by omega, hwidth, ?_⟩
  rw [hwidth, hnp]
  exact hfits.size_lt _ hd

/-- Every dimension is encoded, and then holds the values that were read. -/
theorem encode_slots {pds : PcDimStats} (hstats : pds.stats.length = d.schema.dims.length)
    (hreencodes : ∀ t ∈ slots d pds, Reencodes P t.1.2 t.2.recommendedCompression) :
    ∃ bytes, ((d.bytes.zip pds.stats).mapM fun p =>
        pcBytesEncode P p.1 p.2.recommendedCompression) = .ok bytes ∧
      List.Forall₂ (fun t (e : PcBytes) => e.interpretation = t.1.1.interpretation ∧
        e.npoints = d.npoints ∧ Stores P e (slotValues P pts t)) (slots d pds) bytes := by
  have hbytes := h.bytes_hold.length_eq.symm
  have hpos : 1 ≤ pts.length := List.length_pos_iff.mpr hne
  have hlen := h.npoints_eq
  rw [← map_array_slots hstats hbytes, List.mapM_map]
  refine mapM_forall₂ (List.forall₂_same.mpr fun t _ => rfl) ?_
  rintro t _ ht rfl
  obtain ⟨hd, hinterp, hnp, hstores⟩ := h.of_mem_slots ht
  obtain ⟨hint, -, hroom⟩ := h.array_fits hfits ht
  obtain ⟨e', he', hstores', hnp', hinterp'⟩ :=
    pcBytesEncode_reencode hstores (by omega) hint hroom (hreencodes t ht)
  exact ⟨e', he', hinterp'.trans hinterp, hnp'.trans hnp, hstores'⟩

/-- The values that have been read are those of points. -/
theorem slotValues_forall₂ {pds : PcDimStats} (hstats : pds.stats.length = d.schema.dims.length)
    (hreencodes : ∀ t ∈ slots d pds, Reencodes P t.1.2 t.2.recommendedCompression) :
    List.Forall₂ (fun (dim : PcDimension) (vs : List Bytes) =>
      vs.length = d.npoints ∧ ∀ v ∈ vs, v.length = dim.size) d.schema.dims
      ((slots d pds).map (slotValues P pts)) := by
  have hbytes := h.bytes_hold.length_eq.symm
  obtain ⟨bytes, -, hall⟩ := encode_slots h hne hfits hstats hreencodes
  have hdims := map_dim_slots hstats hbytes
  rw [← hdims, List.forall₂_map_left_iff, List.forall₂_map_right_iff, List.forall₂_same]
  intro t ht
  obtain ⟨i, hi, rfl⟩ := List.mem_iff_getElem.mp ht
  have hi' : i < bytes.length := by rw [← hall.length_eq]; exact hi
  obtain ⟨hinterp, hnp, hstores⟩ := (List.forall₂_iff_get.mp hall).2 i hi hi'
  simp only [List.get_eq_getElem] at hinterp hnp hstores
  have hd : (slots d pds)[i].1.1 ∈ d.schema.dims := (h.of_mem_slots ht).1
  refine ⟨hstores.npoints_eq.trans hnp, fun v hv => ?_⟩
  rw [hstores.width_eq v hv, PcBytes.width, hinterp, d.schema.dim_size hd]

omit h hne hfits in
theorem length_pcDimstatsMake (s : PcSchema) : (pcDimstatsMake s).stats.length = s.dims.length := by
  simp [pcDimstatsMake, PcSchema.ndims]

omit h hne hfits in
theorem length_getD_pcDimstatsMake {s : PcSchema} {pdsIn : Option PcDimStats}
    (hstats : ∀ pds ∈ pdsIn, pds.stats.length = s.dims.length) :
    (pdsIn.getD (pcDimstatsMake s)).stats.length = s.dims.length := by
  cases pdsIn with
  | none => exact length_pcDimstatsMake s
  | some pds => exact hstats pds rfl

/-- Compression returns on the patches of `Compresses`, and the result holds the
points whose values have been read. -/
theorem pcPatchDimensionalCompress_ok {pdsIn : Option PcDimStats}
    (hstats : ∀ pds ∈ pdsIn, pds.stats.length = d.schema.dims.length)
    (hc : Compresses P d (pdsIn.getD (pcDimstatsMake d.schema))) :
    ∃ d' pds', pcPatchDimensionalCompress P d pdsIn = .ok (d', pds') ∧
      d'.schema = d.schema ∧ d'.npoints = d.npoints ∧
      d'.Holds P (pointsOf d.npoints
        ((slots d ((pdsIn.getD (pcDimstatsMake d.schema)).after P d)).map (slotValues P pts))) := by
  have hbytes := h.bytes_hold.length_eq.symm
  have hpds := length_getD_pcDimstatsMake hstats
  have hlen := h.npoints_eq
  have hpos : 1 ≤ pts.length := List.length_pos_iff.mpr hne
  have hint := hfits.npoints_lt
  obtain ⟨hsample, hreencodes⟩ := hc
  generalize hpds' : pdsIn.getD (pcDimstatsMake d.schema) = pds at hpds hsample hreencodes ⊢
  have hafter : (if pds.totalPoints < pcdimstatsMinSample then pcDimstatsUpdate P pds d
      else .ok pds) = .ok (pds.after P d) := by
    unfold PcDimStats.after
    split
    · next hlt =>
        exact pcDimstatsUpdate_ok (fun e he => (h.of_mem_bytes he).1) hpds hbytes
          (fun e he => by rw [(h.of_mem_bytes he).2]; omega)
          (fun e he => by rw [(h.of_mem_bytes he).2]; omega) (hsample hlt)
    · rfl
  have hstats' := length_after (P := P) hpds hbytes
  obtain ⟨bytes, hencode, hall⟩ := encode_slots h hne hfits hstats' hreencodes
  have hvss := slotValues_forall₂ h hne hfits hstats' hreencodes
  have hrange := mapM_range_wordAt (hbytes.trans hstats'.symm)
    fun pcb (stat : PcDimStat) => pcBytesEncode P pcb stat.recommendedCompression
  rw [hencode, hbytes] at hrange
  refine ⟨{ d with bytes := bytes, stats := pcStatsClone d.stats },
    pdsIn.map fun _ => pds.after P d, ?_, rfl, rfl, ?_⟩
  · unfold pcPatchDimensionalCompress
    simp only [hpds']
    rw [hafter, ok_bind, PcSchema.ndims, hrange, ok_bind, pure_eq_ok]
  · refine ⟨h.npoints_lt, length_pointsOf _ _, width_pointsOf hvss, ?_⟩
    have hcolumns := map_bytesIn_pointsOf hvss
    have hdims := map_dim_slots hstats' hbytes
    simp only
    rw [← hdims, List.map_map, List.map_inj_left] at hcolumns
    rw [← hdims, List.forall₂_map_left_iff, List.forall₂_iff_zip]
    refine ⟨hall.length_eq, fun {t e} hte => ?_⟩
    have ht := hcolumns t (List.of_mem_zip hte).1
    rw [Function.comp_apply] at ht
    rw [ht]
    exact (List.forall₂_iff_zip.mp hall).2 hte

omit hne hfits in
/-- Compression returns only there. -/
theorem compresses_of_ok {pdsIn : Option PcDimStats}
    (hstats : ∀ pds ∈ pdsIn, pds.stats.length = d.schema.dims.length)
    (hpos : 1 ≤ d.npoints) (hint : d.npoints ≤ 2147483648)
    {r : PcPatchDimensional × Option PcDimStats}
    (hok : pcPatchDimensionalCompress P d pdsIn = .ok r) :
    Compresses P d (pdsIn.getD (pcDimstatsMake d.schema)) := by
  have hbytes := h.bytes_hold.length_eq.symm
  have hpds := length_getD_pcDimstatsMake hstats
  have hknown := fun e he => (h.of_mem_bytes (e := e) he).1
  unfold pcPatchDimensionalCompress at hok
  simp only at hok
  generalize pdsIn.getD (pcDimstatsMake d.schema) = pds at hpds hok ⊢
  obtain ⟨pds', hupdate, hrest⟩ := bind_eq_ok.mp hok
  have hsample : pds.totalPoints < pcdimstatsMinSample → Sampleable pds d := by
    intro hlt
    rw [if_pos hlt] at hupdate
    exact sampleable_of_ok hknown hpds hbytes hupdate
  have hafter : pds' = pds.after P d := by
    unfold PcDimStats.after
    split at hupdate
    · next hlt =>
        rw [pcDimstatsUpdate_ok hknown hpds hbytes
          (fun e he => by rw [(h.of_mem_bytes he).2]; exact hpos)
          (fun e he => by rw [(h.of_mem_bytes he).2]; exact hint) (hsample hlt)] at hupdate
        rw [if_pos hlt]
        exact (Except.ok.inj hupdate).symm
    · next hge =>
        rw [if_neg hge]
        exact (Except.ok.inj hupdate).symm
  subst hafter
  refine ⟨hsample, fun t ht => ?_⟩
  have hstats' := length_after (P := P) hpds hbytes
  have hrange := mapM_range_wordAt (hbytes.trans hstats'.symm)
    fun pcb (stat : PcDimStat) => pcBytesEncode P pcb stat.recommendedCompression
  rw [hbytes] at hrange
  rw [PcSchema.ndims, hrange, ← map_array_slots hstats' hbytes, List.mapM_map] at hrest
  obtain ⟨bytes, hencode, -⟩ := bind_eq_ok.mp hrest
  have hall := mapM_eq_ok_iff.mp hencode
  obtain ⟨i, hi, rfl⟩ := List.mem_iff_getElem.mp ht
  have hget := (List.forall₂_iff_get.mp hall).2 i hi (by rw [← hall.length_eq]; exact hi)
  exact reencodes_of_ok (h.of_mem_slots ht).2.2.2.known hget

end Compress

/-! ## When compression keeps the points

An uncompressed patch is cut into plain arrays first, so that every one of its arrays
holds its values as they are stored (`compressSound_plain_iff`); only one that came
in dimensional form can be read wrongly. -/

/-- Uncompressed, the two patches have the same points. -/
def SamePoints (P : Platform) (p q : PcPatch) : Prop :=
  ∃ u v, pcPatchUncompress P p = .ok u ∧ pcPatchUncompress P q = .ok v ∧
    v.npoints = u.npoints ∧ v.points = u.points

/-- Compressing returns a patch with the same points. -/
def CompressKeeps (P : Platform) (p : PcPatch) (userdata : Option PcDimStats) : Prop :=
  ∃ q userdata', pcPatchCompress P p userdata = .ok (q, userdata') ∧ SamePoints P p q

/-- The dimensional form of an uncompressed patch. -/
def PcPatchUncompressed.dimensional (u : PcPatchUncompressed) (pts : List Bytes) :
    PcPatchDimensional where
  readonly := false
  schema := u.schema
  npoints := u.npoints
  bounds := u.bounds
  stats := pcStatsClone u.stats
  bytes := plainArrays u.schema pts

/-- The patches that dimensional compression keeps, with the statistics that are passed. -/
def CompressCondition (P : Platform) (p : PcPatch) (pts : List Bytes)
    (userdata : Option PcDimStats) : Prop :=
  match p with
  | .uncompressed u => CompressSound P (u.dimensional pts) pts
      (userdata.getD (pcDimstatsMake u.schema))
  | .dimensional d => CompressSound P d pts (userdata.getD (pcDimstatsMake d.schema))
  | .lazperf _ => False

/-- The records of a dimensional patch can be allocated. -/
def UncompressFits : PcPatch → Prop
  | .uncompressed _ => True
  | .dimensional d => d.schema.size * d.npoints < 9223372036854775808
  | .lazperf _ => False

theorem PcPatchUncompressed.Holds.dimensional {u : PcPatchUncompressed} {pts : List Bytes}
    (h : u.Holds pts) : (u.dimensional pts).Holds P pts := by
  have hlen := h.length_eq
  have harrays := plainArrays_holds (P := P) h.width_eq
  rw [hlen] at harrays
  exact ⟨h.npoints_lt, hlen, h.width_eq, harrays⟩

/-- What a dimensional patch is uncompressed to. -/
theorem pcPatchUncompress_dimensional {d : PcPatchDimensional} {pts : List Bytes}
    (h : d.Holds P pts) (hfits : Fits d.schema d.npoints) :
    ∃ u, pcPatchUncompress P (.dimensional d) = .ok u ∧ u.npoints = d.npoints ∧
      u.points = pts := by
  obtain ⟨u, hu, hholds, -, hnp, -⟩ := uncompressed_holds h hfits
  exact ⟨u, hu, hnp, hholds.records_eq⟩

theorem pcPatchUncompress_holds {p : PcPatch} {pts : List Bytes} (h : p.Holds P pts)
    (hfits : Fits p.schema p.npoints) :
    ∃ u, pcPatchUncompress P p = .ok u ∧ u.npoints = p.npoints ∧ u.points = pts := by
  cases p with
  | uncompressed u => exact ⟨u, rfl, rfl, PcPatchUncompressed.Holds.records_eq h⟩
  | dimensional d => exact pcPatchUncompress_dimensional h hfits
  | lazperf l => exact h.elim

/-- A compressed patch has the same points exactly when every dimension is read as it is. -/
theorem samePoints_compressed_iff {p : PcPatch} {d d' : PcPatchDimensional} {pts pts' : List Bytes}
    (hp : p.Holds P pts) (hfits : Fits p.schema p.npoints)
    (h : d.Holds P pts) (hschema : d.schema = p.schema) (hnp : d.npoints = p.npoints)
    (hschema' : d'.schema = d.schema) (hnp' : d'.npoints = d.npoints) (h' : d'.Holds P pts') :
    SamePoints P p (.dimensional d') ↔ pts' = pts := by
  have hfits' : Fits d'.schema d'.npoints := by rwa [hschema', hnp', hschema, hnp]
  obtain ⟨u, hu, hun, hupts⟩ := pcPatchUncompress_holds hp hfits
  obtain ⟨v, hv, hvn, hvpts⟩ := pcPatchUncompress_dimensional h' hfits'
  constructor
  · rintro ⟨u', v', hu', hv', -, heq⟩
    cases hu.symm.trans hu'
    cases hv.symm.trans hv'
    rw [← hvpts, heq, hupts]
  · rintro rfl
    exact ⟨u, v, hu, hv, by rw [hvn, hun, hnp', hnp], by rw [hvpts, hupts]⟩

/-- The points are kept exactly when the values are, dimension by dimension. -/
theorem pointsOf_slotValues_eq_iff {d : PcPatchDimensional} {pts : List Bytes} {pds : PcDimStats}
    (h : d.Holds P pts) (hne : pts ≠ []) (hfits : Fits d.schema d.npoints)
    (hstats : pds.stats.length = d.schema.dims.length)
    (hreencodes : ∀ t ∈ slots d pds, Reencodes P t.1.2 t.2.recommendedCompression) :
    pointsOf d.npoints ((slots d pds).map (slotValues P pts)) = pts ↔
      ∀ t ∈ slots d pds, slotValues P pts t = pts.map t.1.1.bytesIn := by
  have hbytes := h.bytes_hold.length_eq.symm
  have hdims := map_dim_slots hstats hbytes
  have hvss := slotValues_forall₂ h hne hfits hstats hreencodes
  have hcolumns := map_bytesIn_pointsOf hvss
  have hwidth := width_pointsOf hvss
  have hvalues : (∀ t ∈ slots d pds, slotValues P pts t = pts.map t.1.1.bytesIn) ↔
      (slots d pds).map (slotValues P pts) = d.schema.dims.map fun dim => pts.map dim.bytesIn := by
    conv_rhs => rw [← hdims, List.map_map, List.map_inj_left]
    rfl
  rw [hvalues]
  constructor
  · intro heq
    rw [← hcolumns, heq]
  · intro heq
    rw [heq] at hcolumns hwidth ⊢
    -- both lists have the same columns, so each point is joined from the same pieces
    apply List.ext_getElem (by rw [length_pointsOf, h.npoints_eq])
    intro i h₁ h₂
    have hrow : (d.schema.dims.map fun dim => dim.bytesIn (pointsOf d.npoints
        (d.schema.dims.map fun dim => pts.map dim.bytesIn))[i]) =
        d.schema.dims.map fun dim => dim.bytesIn pts[i] := by
      apply List.map_congr_left
      intro dim hd
      have hcolumn := List.map_inj_left.mp hcolumns dim hd
      have hcell := congrArg (fun l => l[i]?) hcolumn
      simp only [List.getElem?_map, List.getElem?_eq_getElem h₁, List.getElem?_eq_getElem h₂,
        Option.map_some, Option.some.injEq] at hcell
      exact hcell
    rw [← d.schema.flatten_bytesIn (hwidth _ (List.getElem_mem h₁)), hrow,
      d.schema.flatten_bytesIn (h.width_eq _ (List.getElem_mem h₂))]

/-- Compressing a dimensional patch keeps the points of the patch `p` that it comes from. -/
theorem pcPatchDimensionalCompress_keeps_iff {p : PcPatch} {d : PcPatchDimensional}
    {pts : List Bytes} {userdata : Option PcDimStats} (hp : p.Holds P pts) (h : d.Holds P pts)
    (hne : pts ≠ []) (hfits : Fits p.schema p.npoints) (hschema : d.schema = p.schema)
    (hnp : d.npoints = p.npoints)
    (hstats : ∀ pds ∈ userdata, pds.stats.length = d.schema.dims.length) :
    (∃ d' userdata', pcPatchDimensionalCompress P d userdata = .ok (d', userdata') ∧
      SamePoints P p (.dimensional d')) ↔
    CompressSound P d pts (userdata.getD (pcDimstatsMake d.schema)) := by
  have hfits' : Fits d.schema d.npoints := by rwa [hschema, hnp]
  have hbytes := h.bytes_hold.length_eq.symm
  have hafter := length_after (P := P) (length_getD_pcDimstatsMake hstats) hbytes
  have hlen := h.npoints_eq
  have hpos := List.length_pos_iff.mpr hne
  constructor
  · rintro ⟨d', userdata', hok, hsame⟩
    have hc := compresses_of_ok h hstats (by omega) (Nat.le_of_lt hfits'.npoints_lt) hok
    obtain ⟨d'', u'', hok', hschema', hnp', hholds⟩ :=
      pcPatchDimensionalCompress_ok h hne hfits' hstats hc
    cases hok.symm.trans hok'
    have hpts := (samePoints_compressed_iff hp hfits h hschema hnp hschema' hnp' hholds).mp hsame
    exact ⟨hc, (pointsOf_slotValues_eq_iff h hne hfits' hafter hc.reencodes).mp hpts⟩
  · rintro ⟨hc, hvalues⟩
    obtain ⟨d', u', hok, hschema', hnp', hholds⟩ :=
      pcPatchDimensionalCompress_ok h hne hfits' hstats hc
    refine ⟨d', u', hok, ?_⟩
    rw [samePoints_compressed_iff hp hfits h hschema hnp hschema' hnp' hholds]
    exact (pointsOf_slotValues_eq_iff h hne hfits' hafter hc.reencodes).mpr hvalues

/-- On an uncompressed patch nothing is read wrongly, so that only the limits of
the encodings remain. -/
theorem compressSound_plain_iff {u : PcPatchUncompressed} {pts : List Bytes} {pds : PcDimStats}
    (h : u.Holds pts) (hne : pts ≠ []) (hfits : Fits u.schema u.npoints) :
    CompressSound P (u.dimensional pts) pts pds ↔
      (pds.totalPoints < pcdimstatsMinSample → uint32 (pds.totalPatches + 1) ≠ 0) ∧
      ∀ t ∈ slots (u.dimensional pts) (pds.after P (u.dimensional pts)),
        Encodable P t.1.2 t.2.recommendedCompression := by
  have hholds := h.dimensional (P := P)
  have hlen : pts.length = u.npoints := h.length_eq
  have hpos := List.length_pos_iff.mpr hne
  have harray : ∀ e ∈ (u.dimensional pts).bytes, ∃ dim ∈ u.schema.dims,
      e = plainArray dim (pts.map dim.bytesIn) := by
    intro e he
    obtain ⟨dim, hd, rfl⟩ := List.mem_map.mp he
    exact ⟨dim, hd, rfl⟩
  have hslot : ∀ t ∈ slots (u.dimensional pts) (pds.after P (u.dimensional pts)),
      ((Reencodes P t.1.2 t.2.recommendedCompression ∧
        slotValues P pts t = pts.map t.1.1.bytesIn) ↔
          Encodable P t.1.2 t.2.recommendedCompression) := by
    intro t ht
    obtain ⟨hint, -, hroom⟩ := hholds.array_fits hfits ht
    obtain ⟨hd, -, hnp, hstores⟩ := hholds.of_mem_slots ht
    obtain ⟨dim, hdim, heq⟩ := harray _ (List.of_mem_zip (List.of_mem_zip ht).1).2
    have hplain : t.1.2.Plain := heq ▸ plainArray_plain hdim (width_bytesIn h.width_eq hdim)
    have hvalues : t.1.2.values = pts.map t.1.1.bytesIn :=
      (hstores.plainOf hplain.compression_eq).values_eq
    have hpos' : 1 ≤ t.1.2.npoints := by
      rw [hnp]
      change 1 ≤ u.npoints
      omega
    rw [slotValues, ← hvalues]
    exact reencode_plain_iff hplain hpos' hint hroom _
  constructor
  · rintro ⟨⟨hsample, hre⟩, hvalues⟩
    exact ⟨fun hlt => (hsample hlt).patches_ne,
      fun t ht => (hslot t ht).mp ⟨hre t ht, hvalues t ht⟩⟩
  · rintro ⟨hpatches, henc⟩
    refine ⟨⟨fun hlt => ⟨hpatches hlt, fun e he => ?_⟩,
      fun t ht => ((hslot t ht).mpr (henc t ht)).1⟩, fun t ht => ((hslot t ht).mpr (henc t ht)).2⟩
    obtain ⟨dim, hd, rfl⟩ := harray e he
    exact (plainArray_plain hd (width_bytesIn h.width_eq hd)).room

/-- Compression keeps the points exactly under these conditions: for a schema
without compression the records can be allocated, for a dimensional one
every array that is encoded holds its values as it is stored. -/
theorem pcPatchCompress_keeps_iff (P : Platform) {p : PcPatch} {pts : List Bytes}
    {userdata : Option PcDimStats} (h : p.Holds P pts) (hne : pts ≠ [])
    (hstats : ∀ pds ∈ userdata, pds.stats.length = p.schema.dims.length) :
    (p.schema.compression = .none → (CompressKeeps P p userdata ↔ UncompressFits p)) ∧
    (p.schema.compression = .dimensional →
      (Fits p.schema p.npoints ∧ CompressCondition P p pts userdata → CompressKeeps P p userdata) ∧
      (Fits p.schema p.npoints → CompressKeeps P p userdata →
        CompressCondition P p pts userdata)) := by
  constructor
  · intro hnone
    unfold CompressKeeps pcPatchCompress
    rw [hnone]
    cases p with
    | uncompressed u =>
        exact iff_of_true ⟨_, _, rfl, u, u, rfl, rfl, rfl, rfl⟩ trivial
    | dimensional d =>
        rw [UncompressFits, ← pcPatchUncompressedFromDimensional_isOk_iff h]
        constructor
        · rintro ⟨q, userdata', hok, -⟩
          obtain ⟨u, hu, -⟩ := bind_eq_ok.mp hok
          exact ⟨u, hu⟩
        · rintro ⟨u, hu⟩
          refine ⟨.uncompressed u, userdata, ?_, u, u, hu, rfl, rfl, rfl⟩
          simp only [hu, ok_bind, pure_eq_ok]
    | lazperf l => exact h.elim
  · intro hdim
    have hiff : Fits p.schema p.npoints →
        (CompressKeeps P p userdata ↔ CompressCondition P p pts userdata) := by
      intro hfits
      unfold CompressKeeps pcPatchCompress
      rw [hdim]
      cases p with
      | uncompressed u =>
          have hsplit := pcPatchDimensionalFromUncompressed_ok h hne hfits
          have hkeeps := pcPatchDimensionalCompress_keeps_iff (p := .uncompressed u)
            (d := u.dimensional pts) h (PcPatchUncompressed.Holds.dimensional h) hne hfits rfl rfl
            hstats
          simp only [hsplit, ok_bind]
          refine Iff.trans ?_ hkeeps
          constructor
          · rintro ⟨q, userdata', hok, hsame⟩
            obtain ⟨⟨d', u'⟩, hcompress, hret⟩ := bind_eq_ok.mp hok
            cases hret
            exact ⟨d', u', hcompress, hsame⟩
          · rintro ⟨d', userdata', hcompress, hsame⟩
            refine ⟨.dimensional d', userdata', ?_, hsame⟩
            exact bind_eq_ok.mpr ⟨_, hcompress, rfl⟩
      | dimensional d =>
          rw [CompressCondition, ← pcPatchDimensionalCompress_keeps_iff (p := .dimensional d)
            h h hne hfits rfl rfl hstats]
          constructor
          · rintro ⟨q, userdata', hok, hsame⟩
            obtain ⟨⟨d', u'⟩, hcompress, hret⟩ := bind_eq_ok.mp hok
            cases hret
            exact ⟨d', userdata', hcompress, hsame⟩
          · rintro ⟨d', userdata', hcompress, hsame⟩
            exact ⟨.dimensional d', userdata', bind_eq_ok.mpr ⟨_, hcompress, rfl⟩, hsame⟩
      | lazperf l => exact h.elim
    exact ⟨fun hboth => (hiff hboth.1).mpr hboth.2, fun hfits => (hiff hfits).mp⟩

/-- Two points of a schema that asks for dimensional compression. -/
def pairOfDims : PcPatchUncompressed where
  readonly := false
  schema := xySchema .uint8 .uint8 uint8_known uint8_known 1 .dimensional
  npoints := 2
  bounds := ⟨1, 3, 2, 4⟩
  stats := none
  maxpoints := 2
  datasize := 4
  data := bufOf [1, 2, 3, 4]

/-- A dimensional patch of three points whose x is packed already. -/
def packedDims : PcPatchDimensional where
  readonly := false
  schema := xySchema .uint8 .uint8 uint8_known uint8_known 1 .dimensional
  npoints := 3
  bounds := ⟨1, 3, 0, 0⟩
  stats := none
  bytes := [⟨3, 3, .uint8, .sigbits, false, [2, 0, 108]⟩, ⟨3, 3, .uint8, .none, false, [0, 0, 0]⟩]

theorem pcPatchCompress_keeps_iff_witness :
    CompressKeeps Platform.plain (.uncompressed pairOfDims) none := by
  have hholds : pairOfDims.Holds [[1, 2], [3, 4]] := ⟨by decide, by decide, by decide⟩
  have hzlib : ∀ t ∈ slots (pairOfDims.dimensional [[1, 2], [3, 4]])
      ((pcDimstatsMake pairOfDims.schema).after Platform.plain
        (pairOfDims.dimensional [[1, 2], [3, 4]])),
      t.2.recommendedCompression = .zlib ∧ 1 ≤ t.1.2.npoints ∧ t.1.2.data.length = 2 := by
    decide +kernel
  have hstats : ∀ pds ∈ (none : Option PcDimStats), pds.stats.length = 2 := by simp
  refine ((pcPatchCompress_keeps_iff Platform.plain (p := .uncompressed pairOfDims)
    hholds (by decide) hstats).2 rfl).1 ⟨⟨by decide, by decide⟩, ?_⟩
  refine (compressSound_plain_iff hholds (by decide) ⟨by decide, by decide⟩).mpr
    ⟨fun _ => by decide, fun t ht => ?_⟩
  obtain ⟨hrec, hpos, hlen⟩ := hzlib t ht
  rw [hrec]
  refine ⟨hpos, Zlib.keeps_of_lt _ ?_ (by omega)⟩
  intro hnil
  rw [hnil] at hlen
  exact absurd hlen (by decide)

/-- The packed words of the x are taken for its values, and encoded once more. -/
theorem pcPatchCompress_loses :
    packedDims.Holds Platform.plain [[1, 0], [2, 0], [3, 0]] ∧
    (pcPatchUncompress Platform.plain (.dimensional packedDims)).map
      PcPatchUncompressed.points = .ok [[1, 0], [2, 0], [3, 0]] ∧
    (do
      let r ← pcPatchCompress Platform.plain (.dimensional packedDims) none
      let u ← pcPatchUncompress Platform.plain r.1
      return u.points) = .ok [[2, 0], [0, 0], [108, 0]] ∧
    ¬ CompressKeeps Platform.plain (.dimensional packedDims) none := by
  have hpoints : (pcPatchUncompress Platform.plain (.dimensional packedDims)).map
      PcPatchUncompressed.points = .ok [[1, 0], [2, 0], [3, 0]] := by decide +kernel
  have hcompressed : (do
      let r ← pcPatchCompress Platform.plain (.dimensional packedDims) none
      let u ← pcPatchUncompress Platform.plain r.1
      return u.points) = .ok [[2, 0], [0, 0], [108, 0]] := by decide +kernel
  refine ⟨?_, hpoints, hcompressed, ?_⟩
  · have hplain : PcBytes.Plain ⟨3, 3, .uint8, .none, false, [1, 2, 3]⟩ :=
      ⟨by decide, rfl, by decide, by decide⟩
    have hx : SigbitsOf Endian.little ⟨3, 3, .uint8, .sigbits, false, [2, 0, 108]⟩
        [[1], [2], [3]] :=
      pcBytesSigbitsEncode_sigbitsOf (P := Platform.plain) hplain (by decide +kernel)
    have hy : PcBytes.Plain ⟨3, 3, .uint8, .none, false, [0, 0, 0]⟩ :=
      ⟨by decide, rfl, by decide, by decide⟩
    refine ⟨by decide, by decide, by decide, ?_⟩
    exact .cons ⟨rfl, rfl, by decide, by decide, by decide, hx⟩ (.cons ⟨rfl, rfl, hy.stores⟩ .nil)
  · rintro ⟨q, userdata', hok, u, v, hu, hv, -, heq⟩
    rw [hok, ok_bind, hv, ok_bind, pure_eq_ok, heq] at hcompressed
    rw [hu] at hpoints
    have hleft := Except.ok.inj hcompressed
    have hright : u.points = [[1, 0], [2, 0], [3, 0]] := Except.ok.inj hpoints
    rw [hright] at hleft
    exact absurd hleft (by decide)

end Pointcloud
