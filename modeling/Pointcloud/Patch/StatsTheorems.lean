/-
Pointcloud.Patch.StatsTheorems — when extent and statistics are found.

The statistics of a patch that holds points are always found. Its extent is
not: the walk over the records of an uncompressed patch leaves them from
`2 ^ 31` points on, where the `int` index turns negative, and the walk over
the plain values of x or y does where their offsets are not `int`s any more.
-/
import Pointcloud.Bytes.WireTheorems
import Pointcloud.Patch.DimensionalTheorems
import Pointcloud.Patch.Stats

namespace Pointcloud

open Pointcloud.Base

variable {P : Platform}

/-! ## Extent -/

/-- A valid schema has an x and a y among its dimensions. -/
theorem PcSchema.Valid.xdimension {s : PcSchema} (h : s.Valid) :
    ∃ dim ∈ s.dims, s.xdimension = some dim := by
  obtain ⟨i, hi⟩ := Option.isSome_iff_exists.mp h.1
  have hlt := s.xdim_lt i hi
  exact ⟨s.dims[i], List.getElem_mem hlt, by
    rw [PcSchema.xdimension, hi, Option.bind_some, List.getElem?_eq_getElem hlt]⟩

theorem PcSchema.Valid.ydimension {s : PcSchema} (h : s.Valid) :
    ∃ dim ∈ s.dims, s.ydimension = some dim := by
  obtain ⟨i, hi⟩ := Option.isSome_iff_exists.mp h.2
  have hlt := s.ydim_lt i hi
  exact ⟨s.dims[i], List.getElem_mem hlt, by
    rw [PcSchema.ydimension, hi, Option.bind_some, List.getElem?_eq_getElem hlt]⟩

/-- A record in front of the block cannot be read. -/
theorem pcPointGetDoubleAt_fault (en : Endian) {s : PcSchema} {dim : PcDimension}
    (hd : dim ∈ s.dims) (block : Bytes) {off : Int} (h : off + s.size ≤ 0) :
    pcPointGetDoubleAt en block off dim = fault := by
  have hend := s.dim_end_le hd
  have hpos := dim.interpretation.size_pos
  rw [← s.dim_size hd] at hpos
  rw [pcPointGetDoubleAt, pcDoubleFromPtr, if_neg (s.dim_known hd), readAt_fault
    (Nat.ne_of_gt dim.interpretation.size_pos) (Or.inl (by omega)), fault_bind, fault_bind]

/-- The end of a record in front of the end of all records. -/
theorem record_end_le {n i w : Nat} (hi : i < n) : i * w + w ≤ n * w := by
  rw [← Nat.succ_mul]
  exact Nat.mul_le_mul_right w hi

/-- The extent of records is found as long as their indices are `int`s. -/
theorem pcPatchUncompressedComputeExtent_isOk_iff (en : Endian) {p : PcPatchUncompressed}
    (hvalid : p.schema.Valid) (hroom : p.npoints * p.schema.size ≤ p.data.content.length) :
    (∃ q, pcPatchUncompressedComputeExtent en p = .ok q) ↔ p.npoints ≤ 2147483648 := by
  obtain ⟨xdim, hx, hxdim⟩ := hvalid.xdimension
  obtain ⟨ydim, hy, hydim⟩ := hvalid.ydimension
  unfold pcPatchUncompressedComputeExtent
  rw [hxdim, hydim]
  constructor
  · rintro ⟨q, hq⟩
    by_contra hlarge
    obtain ⟨xys, hxys, -⟩ := bind_eq_ok.mp hq
    obtain ⟨xy, hxy⟩ := mapM_isOk_iff.mp ⟨xys, hxys⟩ 2147483648
      (List.mem_range.mpr (by omega))
    have hneg : int32 (2147483648 : Nat) = -2147483648 := rfl
    have hpos := p.schema.size_pos
    have hfault := pcPointGetDoubleAt_fault en hx p.data.content
      (show int32 (2147483648 : Nat) * p.schema.size + p.schema.size ≤ 0 by rw [hneg]; omega)
    simp only [pcPointGetCoordinate, hfault, fault_bind] at hxy
    exact fault_ne_ok xy hxy
  · intro hint
    have hrows : ∀ i ∈ List.range p.npoints, ∃ xy : ℚ × ℚ, (do
        let off := int32 i * p.schema.size
        let x ← pcPointGetCoordinate en p.data.content off (some xdim)
        let y ← pcPointGetCoordinate en p.data.content off (some ydim)
        return (x, y) : Run (ℚ × ℚ)) = .ok xy := by
      intro i hi
      have hi' := List.mem_range.mp hi
      have hend : i * p.schema.size + p.schema.size ≤ p.data.content.length :=
        Nat.le_trans (record_end_le hi') hroom
      simp only [pcPointGetCoordinate]
      rw [int32_natCast (by omega), ← Int.natCast_mul, pcPointGetDoubleAt_ok hx hend, ok_bind,
        pcPointGetDoubleAt_ok hy hend, ok_bind]
      exact ⟨_, rfl⟩
    obtain ⟨xys, hxys⟩ := mapM_isOk_iff.mpr hrows
    exact ⟨_, by rw [hxys, ok_bind, pure_eq_ok]⟩

/-- Without x or y the extent of a point is not found. -/
theorem valid_of_computeExtent {en : Endian} {p r : PcPatchUncompressed} (hpos : 1 ≤ p.npoints)
    (h : pcPatchUncompressedComputeExtent en p = .ok r) : p.schema.Valid := by
  obtain ⟨xys, hxys, -⟩ := bind_eq_ok.mp h
  obtain ⟨xy, -, hxy⟩ := exists_mem_of_mapM hxys 0 (List.mem_range.mpr hpos)
  obtain ⟨x, hx, hxy⟩ := bind_eq_ok.mp hxy
  obtain ⟨y, hy, -⟩ := bind_eq_ok.mp hxy
  constructor
  · cases hxdim : p.schema.xdim with
    | some i => rfl
    | none =>
        rw [PcSchema.xdimension, hxdim] at hx
        exact absurd hx (fault_ne_ok x)
  · cases hydim : p.schema.ydim with
    | some i => rfl
    | none =>
        rw [PcSchema.ydimension, hydim] at hy
        exact absurd hy (fault_ne_ok y)

/-- Only the bounds of the patch change. -/
theorem pcPatchUncompressedComputeExtent_eq {en : Endian} {p q : PcPatchUncompressed}
    (h : pcPatchUncompressedComputeExtent en p = .ok q) : q = { p with bounds := q.bounds } := by
  obtain ⟨xys, -, hq⟩ := bind_eq_ok.mp h
  rw [pure_eq_ok, Except.ok.injEq] at hq
  rw [← hq]

/-- The extent of a dimensional patch is found on the arrays of x and y. -/
theorem pcPatchDimensionalComputeExtent_isOk_iff {d : PcPatchDimensional} {pts : List Bytes}
    (hvalid : d.schema.Valid) (h : d.Holds P pts) :
    (∃ q, pcPatchDimensionalComputeExtent P d = .ok q) ↔
      ∀ dim, (d.schema.xdimension = some dim ∨ d.schema.ydimension = some dim) →
        ∀ e, d.bytes[dim.position]? = some e →
          e.compression ≠ .rle → e.npoints * e.width ≤ 2147483648 := by
  obtain ⟨xdim, hx, hxdim⟩ := hvalid.xdimension
  obtain ⟨ydim, hy, hydim⟩ := hvalid.ydimension
  obtain ⟨ex, hex, -, -, hxstores⟩ := h.array_at hx
  obtain ⟨ey, hey, -, -, hystores⟩ := h.array_at hy
  have hiff : (∃ q, pcPatchDimensionalComputeExtent P d = .ok q) ↔
      (∃ m, pcBytesMinmax P ex = .ok m) ∧ ∃ m, pcBytesMinmax P ey = .ok m := by
    unfold pcPatchDimensionalComputeExtent
    rw [hxdim, hydim]
    simp only [Option.isSome_some, assertThat_true, ok_bind, hex, hey]
    constructor
    · rintro ⟨q, hq⟩
      obtain ⟨mx, hmx, hrest⟩ := bind_eq_ok.mp hq
      obtain ⟨my, hmy, -⟩ := bind_eq_ok.mp hrest
      exact ⟨⟨mx, hmx⟩, ⟨my, hmy⟩⟩
    · rintro ⟨⟨mx, hmx⟩, ⟨my, hmy⟩⟩
      exact ⟨_, by rw [hmx, ok_bind, hmy, ok_bind, pure_eq_ok]⟩
  rw [hiff, pcBytesMinmax_isOk_iff hxstores, pcBytesMinmax_isOk_iff hystores]
  rw [wordAt_eq_ok] at hex hey
  constructor
  · rintro ⟨hxok, hyok⟩ dim hdim e he
    rcases hdim with hdim | hdim
    · rw [hxdim, Option.some.injEq] at hdim
      rw [← hdim, hex, Option.some.injEq] at he
      exact he ▸ hxok
    · rw [hydim, Option.some.injEq] at hdim
      rw [← hdim, hey, Option.some.injEq] at he
      exact he ▸ hyok
  · intro hall
    exact ⟨hall xdim (.inl hxdim) ex hex, hall ydim (.inr hydim) ey hey⟩

/-- Only the bounds of the patch change. -/
theorem pcPatchDimensionalComputeExtent_eq {d q : PcPatchDimensional}
    (h : pcPatchDimensionalComputeExtent P d = .ok q) : q = { d with bounds := q.bounds } := by
  obtain ⟨-, -, h⟩ := bind_eq_ok.mp h
  obtain ⟨-, -, h⟩ := bind_eq_ok.mp h
  split at h
  · obtain ⟨ex, -, h⟩ := bind_eq_ok.mp h
    obtain ⟨x, -, h⟩ := bind_eq_ok.mp h
    obtain ⟨ey, -, h⟩ := bind_eq_ok.mp h
    obtain ⟨y, -, h⟩ := bind_eq_ok.mp h
    rw [pure_eq_ok, Except.ok.injEq] at h
    rw [← h]
  · exact absurd h (fault_ne_ok q)

/-- The numbers that points store for a dimension. -/
def PcDimension.rawColumn (en : Endian) (dim : PcDimension) (pts : List Bytes) : List ℚ :=
  pts.map (dim.rawIn en)

/-- The least number of a dimension, scale and offset applied. -/
def PcDimension.lowest (en : Endian) (dim : PcDimension) (pts : List Bytes) : ℚ :=
  pcValueScaleOffset ((dim.rawColumn en pts).foldl min fltMax) dim

/-- The greatest number of a dimension, scale and offset applied. -/
def PcDimension.highest (en : Endian) (dim : PcDimension) (pts : List Bytes) : ℚ :=
  pcValueScaleOffset ((dim.rawColumn en pts).foldl max (-fltMax)) dim

/-- The extent of a dimensional patch is that of the stored numbers of x and y. -/
theorem pcPatchDimensionalComputeExtent_ok {d : PcPatchDimensional} {pts : List Bytes}
    (h : d.Holds P pts) {xdim ydim : PcDimension} (hxdim : d.schema.xdimension = some xdim)
    (hydim : d.schema.ydimension = some ydim) (hx : xdim ∈ d.schema.dims)
    (hy : ydim ∈ d.schema.dims)
    (hint : ∀ dim, (d.schema.xdimension = some dim ∨ d.schema.ydimension = some dim) →
      ∀ e, d.bytes[dim.position]? = some e →
        e.compression ≠ .rle → e.npoints * e.width ≤ 2147483648) :
    pcPatchDimensionalComputeExtent P d = .ok { d with bounds :=
      ⟨xdim.lowest P.endian pts, xdim.highest P.endian pts, ydim.lowest P.endian pts,
        ydim.highest P.endian pts⟩ } := by
  have hminmax : ∀ dim ∈ d.schema.dims,
      (d.schema.xdimension = some dim ∨ d.schema.ydimension = some dim) →
      ∃ e, wordAt d.bytes dim.position = .ok e ∧
      ∃ avg, pcBytesMinmax P e = .ok ⟨(dim.rawColumn P.endian pts).foldl min fltMax,
        (dim.rawColumn P.endian pts).foldl max (-fltMax), avg⟩ := by
    intro dim hd haxis
    obtain ⟨e, he, hinterp, hnp, hstores⟩ := h.array_at hd
    have hnumbers : e.numbersOf P.endian (pts.map dim.bytesIn) = dim.rawColumn P.endian pts := by
      simp only [PcBytes.numbersOf, hinterp, List.map_map]
      rfl
    have hok := pcBytesMinmax_ok hstores (hnp ▸ h.npoints_lt)
      (hint dim haxis e (wordAt_eq_ok.mp he))
    rw [hnumbers] at hok
    exact ⟨e, he, _, hok⟩
  obtain ⟨ex, hex, avgx, hxok⟩ := hminmax xdim hx (.inl hxdim)
  obtain ⟨ey, hey, avgy, hyok⟩ := hminmax ydim hy (.inr hydim)
  unfold pcPatchDimensionalComputeExtent
  rw [hxdim, hydim]
  simp only [Option.isSome_some, assertThat_true, ok_bind, hex, hey, hxok, hyok, pure_eq_ok]
  rfl

/-! ## Statistics -/

/-- A point made of values has the schema it was made for. -/
theorem pcPointFromValues_ok (P : Platform) (s : PcSchema) (vals : List ℚ) :
    ∃ pt, pcPointFromValues P s vals = .ok pt ∧ pt.schema = s := by
  have hfold : ∀ (dvs : List (PcDimension × ℚ)) (pt : PcPoint), pt.schema = s →
      (∀ dv ∈ dvs, dv.1 ∈ s.dims) →
      ∃ pt', dvs.foldlM (fun pt dv => pcPointSetDouble P pt dv.1 dv.2) pt = .ok pt' ∧
        pt'.schema = s := by
    intro dvs
    induction dvs with
    | nil => exact fun pt hpt _ => ⟨pt, rfl, hpt⟩
    | cons dv dvs ih =>
        intro pt hpt hmem
        obtain ⟨pt', hset, hschema⟩ := pcPointSetDouble_ok P pt (hpt ▸ hmem dv (by simp)) dv.2
        obtain ⟨pt'', hrest, hs⟩ := ih pt' (hschema.trans hpt)
          fun dv' hdv' => hmem dv' (by simp [hdv'])
        exact ⟨pt'', by rw [List.foldlM_cons, hset, ok_bind, hrest], hs⟩
  rw [pcPointFromValues, pcPointOf_ok false (length_zeros s.size), ok_bind]
  exact hfold _ _ rfl fun dv hdv => (List.of_mem_zip hdv).1

/-- The last dimension ends where the record does. -/
theorem PcSchema.exists_last_dim (s : PcSchema) :
    ∃ dim ∈ s.dims, dim.byteoffset + dim.size = s.size := by
  have hpos := List.length_pos_of_ne_nil s.dims_ne
  have hlast : s.dims.length - 1 < s.dims.length := by omega
  refine ⟨s.dims[s.dims.length - 1], List.getElem_mem hlast, ?_⟩
  rw [s.byteoffset_eq _ hlast, ← sizeOfDims_take_succ hlast, s.size_eq,
    List.take_of_length_le (by omega)]

/-- Statistics that were found have read all records. -/
theorem room_of_computeStats {p q : PcPatchUncompressed}
    (h : pcPatchUncompressedComputeStats P p = .ok q) :
    p.npoints * p.schema.size ≤ p.data.content.length := by
  by_cases hpos : p.npoints = 0
  · rw [hpos, Nat.zero_mul]
    exact Nat.zero_le _
  · obtain ⟨rows, hrows, -⟩ := bind_eq_ok.mp h
    obtain ⟨dim, hd, hlast⟩ := p.schema.exists_last_dim
    obtain ⟨row, -, hrow⟩ := exists_mem_of_mapM hrows (p.npoints - 1)
      (List.mem_range.mpr (by omega))
    obtain ⟨val, -, hval⟩ := exists_mem_of_mapM hrow dim hd
    obtain ⟨d, hd', -⟩ := bind_eq_ok.mp hval
    rw [← Int.natCast_add, pcDoubleFromPtr, if_neg (p.schema.dim_known hd)] at hd'
    obtain ⟨bs, hread, -⟩ := bind_eq_ok.mp hd'
    have hend := (readAt_eq_ok.mp hread).1.resolve_left
      (Nat.ne_of_gt dim.interpretation.size_pos)
    have hrecord : (p.npoints - 1) * p.schema.size + p.schema.size = p.npoints * p.schema.size := by
      rw [← Nat.succ_mul, Nat.succ_eq_add_one, Nat.sub_add_cancel (Nat.pos_of_ne_zero hpos)]
    rw [← p.schema.dim_size hd] at hend
    omega

/-- Statistics are found wherever the records can be read. -/
theorem pcPatchUncompressedComputeStats_ok (P : Platform) {p : PcPatchUncompressed}
    (hroom : p.npoints * p.schema.size ≤ p.data.content.length) :
    ∃ stats, pcPatchUncompressedComputeStats P p = .ok { p with stats := some stats } ∧
      stats.min.schema = p.schema ∧ stats.max.schema = p.schema ∧ stats.avg.schema = p.schema := by
  have hrows : ∀ i ∈ List.range p.npoints, ∃ vals, (p.schema.dims.mapM fun dim =>
      pcPointGetDoubleAt P.endian p.data.content (i * p.schema.size : Nat) dim) = .ok vals := by
    intro i hi
    have hend : i * p.schema.size + p.schema.size ≤ p.data.content.length :=
      Nat.le_trans (record_end_le (List.mem_range.mp hi)) hroom
    exact mapM_isOk_iff.mpr fun dim hd => ⟨_, pcPointGetDoubleAt_ok hd hend⟩
  obtain ⟨rows, hrows⟩ := mapM_isOk_iff.mpr hrows
  unfold pcPatchUncompressedComputeStats
  rw [hrows, ok_bind]
  simp only
  generalize List.foldl _ _ rows = dstats
  obtain ⟨min, hmin, hmins⟩ := pcPointFromValues_ok P p.schema (dstats.map PcDoubleStat.min)
  obtain ⟨max, hmax, hmaxs⟩ := pcPointFromValues_ok P p.schema (dstats.map PcDoubleStat.max)
  obtain ⟨avg, havg, havgs⟩ := pcPointFromValues_ok P p.schema
    (dstats.map fun st => st.sum / p.npoints)
  refine ⟨⟨min, max, avg⟩, ?_, hmins, hmaxs, havgs⟩
  rw [pcStatsNewFromDstats, hmin, ok_bind, hmax, ok_bind, havg, ok_bind, pure_eq_ok, ok_bind,
    pure_eq_ok]

/-- The records have room for all points. -/
theorem pcPatchUncompressedFromDimensional_room {d : PcPatchDimensional} {u : PcPatchUncompressed}
    (h : pcPatchUncompressedFromDimensional P d = .ok u) :
    u.schema = d.schema ∧ u.npoints = d.npoints ∧
      u.data.content.length = d.schema.size * d.npoints := by
  obtain ⟨data, hdata, h⟩ := bind_eq_ok.mp h
  obtain ⟨plain, -, h⟩ := bind_eq_ok.mp h
  obtain ⟨copies, -, h⟩ := bind_eq_ok.mp h
  obtain ⟨data', hwrite, h⟩ := bind_eq_ok.mp h
  rw [pure_eq_ok, Except.ok.injEq] at h
  rw [← h]
  refine ⟨rfl, rfl, ?_⟩
  rw [content_bufOf, length_of_writeAll hwrite]
  unfold pcalloc at hdata
  split at hdata
  · rw [Except.ok.injEq] at hdata
    rw [← hdata, length_zeros]
  · exact absurd hdata (fault_ne_ok data)

/-- Only the statistics of the patch change. -/
theorem pcPatchUncompressedComputeStats_fields {p q : PcPatchUncompressed}
    (h : pcPatchUncompressedComputeStats P p = .ok q) : q = { p with stats := q.stats } := by
  obtain ⟨rows, -, h⟩ := bind_eq_ok.mp h
  obtain ⟨stats, -, h⟩ := bind_eq_ok.mp h
  cases h
  rfl

/-- The records keep the bounds of the patch, and get copies of its statistics. -/
theorem pcPatchUncompressedFromDimensional_fields {d : PcPatchDimensional} {u : PcPatchUncompressed}
    (h : pcPatchUncompressedFromDimensional P d = .ok u) :
    u.bounds = d.bounds ∧ u.stats = pcStatsClone d.stats := by
  obtain ⟨data, -, h⟩ := bind_eq_ok.mp h
  obtain ⟨plain, -, h⟩ := bind_eq_ok.mp h
  obtain ⟨copies, -, h⟩ := bind_eq_ok.mp h
  obtain ⟨data', -, h⟩ := bind_eq_ok.mp h
  cases h
  exact ⟨rfl, rfl⟩

/-- The uncompressed form has the schema and the number of points of the patch. -/
theorem schema_of_uncompress {pa : PcPatch} {u : PcPatchUncompressed}
    (h : pcPatchUncompress P pa = .ok u) : u.schema = pa.schema ∧ u.npoints = pa.npoints := by
  cases pa with
  | uncompressed p =>
      cases h
      exact ⟨rfl, rfl⟩
  | dimensional d =>
      obtain ⟨hs, hn, -⟩ := pcPatchUncompressedFromDimensional_room h
      exact ⟨hs, hn⟩
  | lazperf l => exact absurd h (raise_ne_ok _ u)

/-- The statistics of a dimensional patch are found where its records can be
allocated; only they change. -/
theorem pcPatchComputeStats_dimensional {d : PcPatchDimensional} {pts : List Bytes}
    (h : d.Holds P pts) :
    (∃ q, pcPatchComputeStats P (.dimensional d) = .ok q) ↔
      d.schema.size * d.npoints < 9223372036854775808 := by
  rw [← pcPatchUncompressedFromDimensional_isOk_iff h, pcPatchComputeStats]
  constructor
  · rintro ⟨q, hq⟩
    obtain ⟨u, hu, -⟩ := bind_eq_ok.mp hq
    exact ⟨u, hu⟩
  · rintro ⟨u, hu⟩
    obtain ⟨hschema, hnp, hlen⟩ := pcPatchUncompressedFromDimensional_room hu
    obtain ⟨stats, hstats, -⟩ := pcPatchUncompressedComputeStats_ok P
      (p := u) (by rw [hlen, hschema, hnp, Nat.mul_comm])
    exact ⟨_, by rw [hu, ok_bind, hstats, ok_bind, pure_eq_ok]⟩

theorem pcPatchComputeStats_dimensional_eq {d : PcPatchDimensional} {q : PcPatch}
    (h : pcPatchComputeStats P (.dimensional d) = .ok q) :
    ∃ stats, q = .dimensional { d with stats := stats } := by
  obtain ⟨u, -, h⟩ := bind_eq_ok.mp h
  obtain ⟨u', -, h⟩ := bind_eq_ok.mp h
  rw [pure_eq_ok, Except.ok.injEq] at h
  exact ⟨_, h.symm⟩

end Pointcloud
