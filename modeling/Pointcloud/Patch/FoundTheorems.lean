/-
Pointcloud.Patch.FoundTheorems — extremes that a search has found.

The searches for extremes start from the limits of `float` or `double`. With
points whose numbers are inside the limits of `float`, and a schema that keeps
their values inside those of `double`, what comes out is the number of a
point, in whatever way it is searched. The statistics store it again, and it
stays inside the limits.
-/
import Pointcloud.LimitTheorems
import Pointcloud.Patch.FilterStatsTheorems
import Pointcloud.Patch.SortExactTheorems

namespace Pointcloud

open Pointcloud.Base

variable {P : Platform}

/-! ## Extremes that were found -/

/-- Scale and offset keep what is inside the limits of `float` inside those of
`double`. -/
def PcDimension.Tame (dim : PcDimension) : Prop :=
  ∀ n, WithinFloat n → WithinDouble (pcValueScaleOffset n dim)

def PcSchema.Tame (s : PcSchema) : Prop := ∀ dim ∈ s.dims, dim.Tame

/-- The numbers that a point stores are inside the limits of `float`. -/
def PcSchema.Within (en : Endian) (s : PcSchema) (pt : Bytes) : Prop :=
  ∀ dim ∈ s.dims, WithinFloat (dim.rawIn en pt)

instance (en : Endian) (s : PcSchema) (pt : Bytes) : Decidable (s.Within en pt) :=
  inferInstanceAs (Decidable (∀ dim ∈ s.dims, WithinFloat (dim.rawIn en pt)))

/-- A value with scale and offset that no search starts from. -/
def PcDimension.Found (dim : PcDimension) (val : ℚ) : Prop :=
  WithinDouble val ∧ ∃ n, WithinFloat n ∧ val = pcValueScaleOffset n dim

/-- The bounds of x and y were found. -/
structure BoundsFound (s : PcSchema) (b : PcBounds) : Prop where
  x : ∀ dim, s.xdimension = some dim → dim.Found b.xmin ∧ dim.Found b.xmax
  y : ∀ dim, s.ydimension = some dim → dim.Found b.ymin ∧ dim.Found b.ymax

/-- The extremes of every dimension were found. -/
structure StatsFound (P : Platform) (s : PcSchema) (st : PcStats) : Prop where
  stats_over : StatsOver s st
  min : s.Within P.endian st.min.data
  max : s.Within P.endian st.max.data

/-- A patch has points, bounds and statistics, and both were found. -/
structure PcPatch.Summarized (P : Platform) (pa : PcPatch) : Prop where
  npoints_pos : 1 ≤ pa.npoints
  valid : pa.schema.Valid
  tame : pa.schema.Tame
  bounds : BoundsFound pa.schema pa.bounds
  stats : ∃ st, pa.stats = some st ∧ StatsFound P pa.schema st

theorem PcDimension.Tame.found {dim : PcDimension} (h : dim.Tame) {n : ℚ} (hn : WithinFloat n) :
    dim.Found (pcValueScaleOffset n dim) := ⟨h n hn, n, hn, rfl⟩

/-- The value of a dimension in a point with numbers inside the limits. -/
theorem PcSchema.Within.found {s : PcSchema} {pt : Bytes} {en : Endian} (h : s.Within en pt)
    (htame : s.Tame) {dim : PcDimension} (hd : dim ∈ s.dims) : dim.Found (dim.valueIn en pt) :=
  (htame dim hd).found (h dim hd)

section Points

variable {s : PcSchema} (htame : s.Tame) {pts : List Bytes} (hne : pts ≠ [])
  (hwithin : ∀ pt ∈ pts, s.Within P.endian pt) {dim : PcDimension} (hd : dim ∈ s.dims)

include htame hne hwithin hd

/-- The search for the least value finds that of a point. -/
theorem foldl_min_column : ∃ pt ∈ pts,
    (dim.column P.endian pts).foldl min dblMax = dim.valueIn P.endian pt := by
  have hbelow : ∀ v ∈ dim.column P.endian pts, v < dblMax := by
    intro v hv
    obtain ⟨pt, hpt, rfl⟩ := List.mem_map.mp hv
    exact ((hwithin pt hpt).found htame hd).1.2
  have hmem := foldl_min_mem (by simpa [PcDimension.column] using hne) hbelow
  obtain ⟨pt, hpt, heq⟩ := List.mem_map.mp hmem
  exact ⟨pt, hpt, heq.symm⟩

theorem foldl_max_column : ∃ pt ∈ pts,
    (dim.column P.endian pts).foldl max (-dblMax) = dim.valueIn P.endian pt := by
  have habove : ∀ v ∈ dim.column P.endian pts, -dblMax < v := by
    intro v hv
    obtain ⟨pt, hpt, rfl⟩ := List.mem_map.mp hv
    exact ((hwithin pt hpt).found htame hd).1.1
  have hmem := foldl_max_mem (by simpa [PcDimension.column] using hne) habove
  obtain ⟨pt, hpt, heq⟩ := List.mem_map.mp hmem
  exact ⟨pt, hpt, heq.symm⟩

end Points

/-- The bounds of points. -/
theorem boundsFound_boundsOf {s : PcSchema} (htame : s.Tame) {pts : List Bytes} (hne : pts ≠ [])
    (hwithin : ∀ pt ∈ pts, s.Within P.endian pt) {xdim ydim : PcDimension}
    (hxdim : s.xdimension = some xdim) (hydim : s.ydimension = some ydim) (hx : xdim ∈ s.dims)
    (hy : ydim ∈ s.dims) : BoundsFound s (boundsOf P.endian xdim ydim pts) := by
  have hsearch : ∀ dim ∈ s.dims, dim.Found ((dim.column P.endian pts).foldl min dblMax) ∧
      dim.Found ((dim.column P.endian pts).foldl max (-dblMax)) := by
    intro dim hd
    obtain ⟨pt, hpt, hmin⟩ := foldl_min_column htame hne hwithin hd
    obtain ⟨pt', hpt', hmax⟩ := foldl_max_column htame hne hwithin hd
    rw [hmin, hmax]
    exact ⟨(hwithin pt hpt).found htame hd, (hwithin pt' hpt').found htame hd⟩
  constructor
  · intro dim hdim
    cases hxdim.symm.trans hdim
    exact hsearch xdim hx
  · intro dim hdim
    cases hydim.symm.trans hdim
    exact hsearch ydim hy

/-- A value of a point that is stored again stays inside the limits. -/
theorem number_stored_value {s : PcSchema} {dim : PcDimension} (hd : dim ∈ s.dims) {n : ℚ}
    {bs : Bytes} (hlen : bs.length = dim.interpretation.size)
    (hn : dim.interpretation.number P.endian bs = n) (hwithin : WithinFloat n) :
    WithinFloat (dim.interpretation.number P.endian
      (dim.stored P (pcValueScaleOffset n dim))) := by
  have hknown := s.dim_known hd
  rw [PcDimension.stored]
  by_cases hscale : dim.scale = 0
  · -- without a scale zero is stored
    rw [pcValueUnscaleUnoffset_eq, hscale, div_zero]
    exact Interpretation.number_stored_zero hknown
  · rw [pcValueUnscaleUnoffset_scaleOffset hscale, ← hn]
    exact Interpretation.number_stored_within hknown hlen (hn ▸ hwithin)

/-- A point that stores values of points has numbers inside the limits. -/
theorem within_storedPoint {s : PcSchema} {f : PcDimension → ℚ}
    (h : ∀ dim ∈ s.dims, ∃ bs, bs.length = dim.interpretation.size ∧
      WithinFloat (dim.interpretation.number P.endian bs) ∧
      f dim = pcValueScaleOffset (dim.interpretation.number P.endian bs) dim) :
    s.Within P.endian (storedPoint P s f).data := by
  intro dim hd
  obtain ⟨bs, hlen, hwithin, hf⟩ := h dim hd
  rw [PcDimension.rawIn, bytesIn_storedPoint s f hd, hf]
  exact number_stored_value hd hlen rfl hwithin

/-- The statistics of points. -/
theorem statsFound_statsOf {s : PcSchema} (htame : s.Tame) {pts : List Bytes} (hne : pts ≠ [])
    (hwidth : ∀ pt ∈ pts, pt.length = s.size) (hwithin : ∀ pt ∈ pts, s.Within P.endian pt) :
    StatsFound P s (statsOf P s pts) := by
  have hbytes : ∀ dim ∈ s.dims, ∀ pt ∈ pts, (dim.bytesIn pt).length = dim.interpretation.size := by
    intro dim hd pt hpt
    rw [s.length_bytesIn hd (hwidth pt hpt), s.dim_size hd]
  refine ⟨⟨rfl, rfl, rfl⟩, within_storedPoint fun dim hd => ?_, within_storedPoint fun dim hd => ?_⟩
  · obtain ⟨pt, hpt, hmin⟩ := foldl_min_column htame hne hwithin hd
    exact ⟨dim.bytesIn pt, hbytes dim hd pt hpt, hwithin pt hpt dim hd, hmin⟩
  · obtain ⟨pt, hpt, hmax⟩ := foldl_max_column htame hne hwithin hd
    exact ⟨dim.bytesIn pt, hbytes dim hd pt hpt, hwithin pt hpt dim hd, hmax⟩

/-! ## What the operations keep -/

/-- Its records fill their block, also when the patch is uncompressed. -/
structure PcPatch.Sound (P : Platform) (pa : PcPatch) : Prop extends PcPatch.Summarized P pa where
  npoints_lt : pa.npoints < 4294967296
  sized : RecordsSized pa
  holds : ∀ u, pcPatchUncompress P pa = .ok u → u.Holds u.points

/-- An uncompressed patch of points with its summary. -/
theorem PcPatchUncompressed.Holds.sound {q : PcPatchUncompressed} {pts : List Bytes}
    (h : q.Holds pts) (hsized : q.datasize = q.npoints * q.schema.size) (hne : pts ≠ [])
    (hvalid : q.schema.Valid) (htame : q.schema.Tame) (hbounds : BoundsFound q.schema q.bounds)
    (hstats : ∃ st, q.stats = some st ∧ StatsFound P q.schema st) :
    PcPatch.Sound P (.uncompressed q) where
  npoints_pos := by
    have hlen := List.length_pos_of_ne_nil hne
    rwa [h.length_eq] at hlen
  valid := hvalid
  tame := htame
  bounds := hbounds
  stats := hstats
  npoints_lt := h.npoints_lt
  sized := hsized
  holds := by
    intro u hu
    cases hu
    exact ⟨h.npoints_lt, h.room, rfl⟩

/-- A patch whose extent and statistics are computed. -/
theorem PcPatchUncompressed.Holds.sound_summarized {q : PcPatchUncompressed} {pts : List Bytes}
    (h : q.Holds pts) (hsized : q.datasize = q.npoints * q.schema.size) (hne : pts ≠ [])
    (htame : q.schema.Tame) (hwithin : ∀ pt ∈ pts, q.schema.Within P.endian pt)
      (hvalid : q.schema.Valid)
    {xdim ydim : PcDimension} (hxdim : q.schema.xdimension = some xdim)
    (hydim : q.schema.ydimension = some ydim) (hx : xdim ∈ q.schema.dims)
    (hy : ydim ∈ q.schema.dims) :
    PcPatch.Sound P (.uncompressed (q.summarized P xdim ydim pts)) := by
  have hholds : (q.summarized P xdim ydim pts).Holds pts := ⟨h.npoints_lt, h.room, h.records_eq⟩
  refine hholds.sound hsized hne hvalid htame
    (boundsFound_boundsOf htame hne hwithin hxdim hydim hx hy) ⟨_, rfl, ?_⟩
  exact statsFound_statsOf htame hne h.width_eq hwithin

/-- What the records of a dimensional patch are put together in. -/
theorem holds_of_fromDimensional {d : PcPatchDimensional} {u : PcPatchUncompressed}
    (hlt : d.npoints < 4294967296) (hu : pcPatchUncompressedFromDimensional P d = .ok u) :
    u.Holds u.points := by
  obtain ⟨hs, hn, hlen⟩ := pcPatchUncompressedFromDimensional_room hu
  exact ⟨by rwa [hn], by rw [hlen, hs, hn, Nat.mul_comm], rfl⟩

/-- Extent and statistics that are computed of points. -/
theorem sound_of_computed {p r q : PcPatchUncompressed} (hpos : 1 ≤ p.npoints)
    (hlt : p.npoints < 4294967296) (hsized : p.datasize = p.npoints * p.schema.size)
      (htame : p.schema.Tame)
    (hwithin : ∀ pt ∈ p.points, p.schema.Within P.endian pt)
    (hextent : pcPatchUncompressedComputeExtent P.endian p = .ok r)
    (hstats : pcPatchUncompressedComputeStats P r = .ok q) : PcPatch.Sound P (.uncompressed q) := by
  have hvalid := valid_of_computeExtent hpos hextent
  obtain ⟨xdim, hx, hxdim⟩ := hvalid.xdimension
  obtain ⟨ydim, hy, hydim⟩ := hvalid.ydimension
  have hroom : p.npoints * p.schema.size ≤ p.data.content.length := by
    obtain ⟨xys, -, hr⟩ := bind_eq_ok.mp hextent
    cases hr
    have hroom := room_of_computeStats hstats
    exact hroom
  have hholds : p.Holds p.points := ⟨hlt, hroom, rfl⟩
  have hint := (pcPatchUncompressedComputeExtent_isOk_iff P.endian hvalid hroom).mp ⟨r, hextent⟩
  have hrun := computeExtent_computeStats_ok P hholds hint hxdim hydim hx hy
  rw [hextent, ok_bind, hstats, Except.ok.injEq] at hrun
  rw [hrun]
  refine hholds.sound_summarized hsized ?_ htame hwithin hvalid hxdim hydim hx hy
  rw [← List.length_pos_iff, hholds.length_eq]
  exact hpos

/-! ## Arrays -/

/-- The plain values of a block are inside the limits of `float`. -/
def PcBytes.ValuesWithin (en : Endian) (pcb : PcBytes) : Prop :=
  ∀ v ∈ pcb.values, WithinFloat (pcb.interpretation.number en v)

/-- All numbers that a search in an array can come to are. -/
def PcBytes.NumbersWithin (P : Platform) (e : PcBytes) : Prop :=
  match e.compression with
  | .none => e.ValuesWithin P.endian
  | .rle => ∀ entry ∈ rleEntries e, ∀ d,
      pcDoubleFromPtr P.endian entry 1 e.interpretation = .ok d → WithinFloat d
  | _ => ∀ d, pcBytesDecode P e = .ok d → d.ValuesWithin P.endian

/-- The extremes of plain values. -/
theorem uncompressedMinmax_within {en : Endian} {pcb : PcBytes} {m : MinMaxAvg}
    (hknown : pcb.interpretation ≠ .unknown) (hpos : 1 ≤ pcb.npoints)
    (hwithin : pcb.ValuesWithin en) (h : pcBytesUncompressedMinmax en pcb = .ok m) :
    WithinFloat m.min ∧ WithinFloat m.max := by
  obtain ⟨hint, hroom⟩ := (pcBytesUncompressedMinmax_isOk_iff en hknown).mp ⟨m, h⟩
  rw [pcBytesUncompressedMinmax_ok en hknown hroom hint, foldl_minMax_eq, Except.ok.injEq] at h
  have hne : pcb.numbersOf en pcb.values ≠ [] := by
    rw [← List.length_pos_iff, PcBytes.numbersOf, List.length_map, pcb.length_values]
    exact hpos
  have hall : ∀ d ∈ pcb.numbersOf en pcb.values, WithinFloat d := by
    intro d hd
    obtain ⟨v, hv, rfl⟩ := List.mem_map.mp hd
    exact hwithin v hv
  subst h
  exact ⟨hall _ (foldl_min_mem hne fun d hd => (hall d hd).2),
    hall _ (foldl_max_mem hne fun d hd => (hall d hd).1)⟩

/-- The extremes of the entries of runs. -/
theorem runLengthMinmax_within {en : Endian} {pcb : PcBytes} {m : MinMaxAvg}
    (hne : rleEntries pcb ≠ []) (hwithin : ∀ entry ∈ rleEntries pcb, ∀ d,
      pcDoubleFromPtr en entry 1 pcb.interpretation = .ok d → WithinFloat d)
    (h : pcBytesRunLengthMinmax en pcb = .ok m) : WithinFloat m.min ∧ WithinFloat m.max := by
  obtain ⟨runs, hruns, hm⟩ := bind_eq_ok.mp h
  have hsnd : runs.map Prod.snd ≠ [] := by
    have hlen := (mapM_eq_ok_iff.mp hruns).length_eq
    rw [← List.length_pos_iff, List.length_map, ← hlen]
    exact List.length_pos_of_ne_nil hne
  have hall : ∀ d ∈ runs.map Prod.snd, WithinFloat d := by
    intro d hd
    obtain ⟨r, hr, rfl⟩ := List.mem_map.mp hd
    obtain ⟨entry, hentry, hrun⟩ := exists_mem_of_mem_mapM hruns r hr
    obtain ⟨count, -, hrun⟩ := bind_eq_ok.mp hrun
    obtain ⟨d, hread, hrun⟩ := bind_eq_ok.mp hrun
    cases hrun
    exact hwithin entry hentry d hread
  cases hm
  obtain ⟨hmn, hmx⟩ := foldl_add_extremes runs MinMax.start
  simp only [MinMax.report, hmn, hmx]
  exact ⟨hall _ (foldl_min_mem hsnd fun d hd => (hall d hd).2),
    hall _ (foldl_max_mem hsnd fun d hd => (hall d hd).1)⟩

/-- The extremes of an array that can be decoded. -/
theorem pcBytesMinmax_within {e d : PcBytes} {m : MinMaxAvg}
    (hknown : e.interpretation ≠ .unknown) (hpos : 1 ≤ e.npoints) (hwithin : e.NumbersWithin P)
    (hdecode : pcBytesDecode P e = .ok d) (h : pcBytesMinmax P e = .ok m) :
    WithinFloat m.min ∧ WithinFloat m.max := by
  obtain ⟨hdn, hdi, -⟩ := pcBytesDecode_fields hdecode
  have hdecoded : d.ValuesWithin P.endian → pcBytesUncompressedMinmax P.endian d = .ok m →
      WithinFloat m.min ∧ WithinFloat m.max :=
    fun hvalues hrun => uncompressedMinmax_within (by rwa [hdi]) (by omega) hvalues hrun
  unfold PcBytes.NumbersWithin at hwithin
  unfold pcBytesMinmax at h
  cases hc : e.compression with
  | none =>
      simp only [hc] at hwithin h
      exact uncompressedMinmax_within hknown hpos hwithin h
  | rle =>
      simp only [hc] at hwithin h
      refine runLengthMinmax_within ?_ hwithin h
      -- the counts add up to the number of points
      intro hnil
      simp only [pcBytesDecode, hc, pcBytesRunLengthDecode, assertThat_true, ok_bind, hnil,
        List.mapM_nil, pure_eq_ok, List.sum_nil] at hdecode
      obtain ⟨_, hassert, -⟩ := bind_eq_ok.mp hdecode
      have hzero := assertThat_eq_ok.mp hassert
      rw [uint32_of_lt (by decide)] at hzero
      omega
  | sigbits =>
      simp only [hc] at hwithin h
      have hrun : pcBytesSigbitsDecode P.endian P.shift e = .ok d := by
        simpa only [pcBytesDecode, hc] using hdecode
      rw [pcBytesSigbitsMinmax, hrun, ok_bind] at h
      exact hdecoded (hwithin d hdecode) h
  | zlib =>
      simp only [hc] at hwithin h
      have hrun : pcBytesZlibDecode P e = .ok d := by
        simpa only [pcBytesDecode, hc] using hdecode
      rw [pcBytesZlibMinmax, hrun, ok_bind] at h
      exact hdecoded (hwithin d hdecode) h
  | unknown code =>
      simp only [hc] at h
      exact absurd h (raise_ne_ok _ m)

end Pointcloud
