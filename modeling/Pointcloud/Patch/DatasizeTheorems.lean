/-
Pointcloud.Patch.DatasizeTheorems — the size that an uncompressed patch reports.

`datasize` is the number of bytes that are written to WKB and copied when the
patch is sorted. The functions that make a patch set it together with the
number of points, all but two: a list of points counts its null entries, and
a patch that points are added to one by one counts the room that it has.
-/
import Pointcloud.Patch.Edit
import Pointcloud.Patch.Filter
import Pointcloud.Patch.StatsTheorems
import Pointcloud.Patch.Wkb

namespace Pointcloud

open Pointcloud.Base

variable {P : Platform}

/-- The size is that of the points. -/
def PcPatchUncompressed.Truthful (p : PcPatchUncompressed) : Prop :=
  p.datasize = p.npoints * p.schema.size

/-! ## What leaves the size alone -/

/-- Neither extent nor statistics change size and number of points. -/
theorem truthful_computed {p q r : PcPatchUncompressed}
    (hextent : pcPatchUncompressedComputeExtent P.endian p = .ok q)
    (hstats : pcPatchUncompressedComputeStats P q = .ok r) : r.Truthful ↔ p.Truthful := by
  rw [pcPatchUncompressedComputeStats_fields hstats, pcPatchUncompressedComputeExtent_eq hextent]
  exact Iff.rfl

theorem truthful_stats {p q : PcPatchUncompressed}
    (hstats : pcPatchUncompressedComputeStats P p = .ok q) : q.Truthful ↔ p.Truthful := by
  rw [pcPatchUncompressedComputeStats_fields hstats]
  exact Iff.rfl

/-- A patch that is made for as many points as it is given. -/
theorem truthful_made {s : PcSchema} {n : Nat} {p q : PcPatchUncompressed}
    (h : pcPatchUncompressedMake s n = .ok p) (hschema : q.schema = p.schema)
    (hsize : q.datasize = p.datasize) (hn : q.npoints = n) : q.Truthful := by
  obtain ⟨hs, -, -, hd, -⟩ := pcPatchUncompressedMake_fields h
  rw [PcPatchUncompressed.Truthful, hsize, hd, hn, hschema, hs, Nat.mul_comm]

/-! ## Lists of points -/

/-- A list of points counts its null entries. -/
theorem truthful_fromPointlist_iff {pl : PcPointlist} {p : PcPatchUncompressed}
    (h : pcPatchUncompressedFromPointlist P pl = .ok p) :
    p.Truthful ↔ ∀ pt ∈ pl.points, pt ≠ none := by
  unfold pcPatchUncompressedFromPointlist at h
  split at h
  · exact absurd h (raise_ne_ok _ p)
  · exact absurd h (fault_ne_ok p)
  · next pt rest hpoints =>
      obtain ⟨data, -, h⟩ := bind_eq_ok.mp h
      obtain ⟨-, -, h⟩ := bind_eq_ok.mp h
      obtain ⟨recs, hrecs, h⟩ := bind_eq_ok.mp h
      obtain ⟨written, -, h⟩ := bind_eq_ok.mp h
      obtain ⟨q, hextent, hstats⟩ := bind_eq_ok.mp h
      have hcount : recs.length = (pl.points.filterMap id).length := length_of_mapM_eq_ok hrecs
      rw [truthful_computed hextent hstats, PcPatchUncompressed.Truthful]
      simp only [hcount]
      rw [Nat.mul_comm, Nat.mul_left_inj (Nat.ne_of_gt pt.schema.size_pos)]
      have hfull : pl.points.length = (pl.points.filterMap id).length ↔
          ∀ pt ∈ pl.points, pt ≠ none := by
        rw [eq_comm, List.filterMap_length_eq_length]
        simp only [id_eq, Option.isSome_iff_ne_none]
      exact hfull

/-! ## Points added one by one -/

/-- `pc_patch_uncompressed_make` and then `pc_patch_uncompressed_add_point` for
every point. -/
def pcPatchUncompressedBuild (P : Platform) (s : PcSchema) (maxpoints : Nat) (pts : List PcPoint) :
    Run PcPatchUncompressed := do
  let c ← pcPatchUncompressedMake s maxpoints
  pts.foldlM (pcPatchUncompressedAddPoint P) c

/-- What adding points keeps: the buffer has room for `maxpoints` points, and is
at most twice as large as it needs to be, or as large as it was made. -/
structure Growing (made : Nat) (c : PcPatchUncompressed) : Prop where
  datasize_eq : c.datasize = c.maxpoints * c.schema.size
  length_eq : c.data.content.length = c.maxpoints * c.schema.size
  npoints_le : c.npoints ≤ c.maxpoints
  grown : ∃ j, c.maxpoints = made * 2 ^ j ∧ (j = 0 ∨ made * 2 ^ (j - 1) < c.npoints)

theorem growing_made {s : PcSchema} {maxpoints : Nat} {c : PcPatchUncompressed}
    (h : pcPatchUncompressedMake s maxpoints = .ok c) : Growing maxpoints c := by
  obtain ⟨hs, hn, hmax, hd, hlen⟩ := pcPatchUncompressedMake_fields h
  refine ⟨?_, ?_, ?_, 0, ?_, Or.inl rfl⟩
  · rw [hd, hmax, hs, Nat.mul_comm]
  · rw [hlen, hmax, hs, Nat.mul_comm]
  · rw [hn]
    exact Nat.zero_le _
  · rw [hmax, pow_zero, Nat.mul_one]

/-- A buffer of a new size. -/
theorem length_of_pcrealloc {data out : Bytes} {size : Nat} (h : pcrealloc data size = .ok out) :
    out.length = size := by
  obtain ⟨grown, hgrown, h⟩ := bind_eq_ok.mp h
  cases h
  unfold pcalloc at hgrown
  split at hgrown
  · cases hgrown
    rw [List.length_take, List.length_append, List.length_drop, length_zeros]
    omega
  · exact absurd hgrown (fault_ne_ok grown)

/-- A write of something stays inside the block. -/
theorem end_le_of_writeAt {bs src out : Bytes} {off : Nat} (h : writeAt bs off src = .ok out)
    (hsrc : src ≠ []) : off + src.length ≤ bs.length := by
  by_contra hout
  rw [writeAt_fault hsrc (Or.inr (by omega))] at h
  exact fault_ne_ok out h

/-- The patch that the point is copied into. -/
def PcPatchUncompressed.roomier (c : PcPatchUncompressed) : Run PcPatchUncompressed :=
  if c.npoints = c.maxpoints then do
    let maxpoints := uint32 (c.maxpoints * 2)
    let data ← pcrealloc c.data.content (maxpoints * c.schema.size)
    return { c with
      maxpoints := maxpoints, datasize := maxpoints * c.schema.size, data := bufOf data }
  else return c

theorem roomier_fields {made : Nat} {c d : PcPatchUncompressed} (hc : Growing made c)
    (h : c.roomier = .ok d) :
    d.schema = c.schema ∧ d.npoints = c.npoints ∧ d.datasize = d.maxpoints * c.schema.size ∧
      d.data.content.length = d.maxpoints * c.schema.size ∧
      d.maxpoints = if c.npoints = c.maxpoints then uint32 (c.maxpoints * 2) else c.maxpoints := by
  unfold PcPatchUncompressed.roomier at h
  split at h
  · next hfull =>
      obtain ⟨data, hdata, h⟩ := bind_eq_ok.mp h
      cases h
      refine ⟨rfl, rfl, rfl, ?_, (if_pos hfull).symm⟩
      rw [content_bufOf, length_of_pcrealloc hdata]
  · next hfull =>
      cases h
      exact ⟨rfl, rfl, hc.datasize_eq, hc.length_eq, (if_neg hfull).symm⟩

/-- Adding a point. The buffer is doubled when it is full; a number of points
that wraps around leaves no room for the point. -/
theorem growing_addPoint {made : Nat} {c c' : PcPatchUncompressed} {p : PcPoint}
    (hc : Growing made c) (h : pcPatchUncompressedAddPoint P c p = .ok c') :
    Growing made c' ∧ c'.schema = c.schema ∧ c'.npoints = c.npoints + 1 := by
  unfold pcPatchUncompressedAddPoint at h
  split at h
  · exact absurd h (raise_ne_ok _ c')
  split at h
  · exact absurd h (raise_ne_ok _ c')
  obtain ⟨d, hd, h⟩ := bind_eq_ok.mp h
  obtain ⟨src, hsrc, h⟩ := bind_eq_ok.mp h
  obtain ⟨data, hdata, h⟩ := bind_eq_ok.mp h
  obtain ⟨x, -, h⟩ := bind_eq_ok.mp h
  obtain ⟨y, -, h⟩ := bind_eq_ok.mp h
  cases h
  obtain ⟨hschema, hnp, hsize, hlen, hmax⟩ := roomier_fields hc hd
  have hpos := c.schema.size_pos
  have hsrclen : src.length = c.schema.size := by
    obtain ⟨hroom, rfl⟩ := readAt_eq_ok.mp hsrc
    rw [List.length_take, List.drop_zero]
    omega
  -- the point has been written inside the buffer
  have hroom : c.npoints + 1 ≤ d.maxpoints := by
    have hend := end_le_of_writeAt hdata (List.ne_nil_of_length_pos (by omega))
    rw [hlen, hsrclen, hnp, Nat.mul_comm, ← Nat.succ_mul] at hend
    exact Nat.le_of_mul_le_mul_right hend hpos
  have hle := hc.npoints_le
  obtain ⟨j, hj, hleast⟩ := hc.grown
  have hgrown : ∃ j, d.maxpoints = made * 2 ^ j ∧
      (j = 0 ∨ made * 2 ^ (j - 1) < c.npoints + 1) := by
    by_cases hfull : c.npoints = c.maxpoints
    · rw [if_pos hfull] at hmax
      have hdouble : d.maxpoints = c.maxpoints * 2 := by
        unfold uint32 at hmax
        omega
      refine ⟨j + 1, by rw [hdouble, hj, pow_succ, Nat.mul_assoc], Or.inr ?_⟩
      rw [Nat.add_sub_cancel, ← hj]
      omega
    · rw [if_neg hfull] at hmax
      refine ⟨j, hmax.trans hj, ?_⟩
      rcases hleast with hzero | hlt
      · exact Or.inl hzero
      · exact Or.inr (by omega)
  refine ⟨⟨?_, ?_, ?_, ?_⟩, hschema, by rw [hnp]⟩
  · simp only [hsize, hschema]
  · simp only [content_bufOf, length_of_writeAt hdata, hlen, hschema]
  · simp only [hnp]
    exact hroom
  · simp only [hnp]
    exact hgrown

/-- Adding points one after the other. -/
theorem growing_addPoints {made : Nat} : ∀ {pts : List PcPoint} {c c' : PcPatchUncompressed},
    Growing made c → pts.foldlM (pcPatchUncompressedAddPoint P) c = .ok c' →
    Growing made c' ∧ c'.schema = c.schema ∧ c'.npoints = c.npoints + pts.length
  | [], c, c', hc, h => by
      cases h
      exact ⟨hc, rfl, rfl⟩
  | pt :: pts, c, c', hc, h => by
      rw [List.foldlM_cons] at h
      obtain ⟨d, hd, h⟩ := bind_eq_ok.mp h
      obtain ⟨hgrowing, hschema, hnp⟩ := growing_addPoint hc hd
      obtain ⟨hdone, hs, hn⟩ := growing_addPoints hgrowing h
      refine ⟨hdone, hs.trans hschema, ?_⟩
      rw [hn, hnp, List.length_cons]
      omega

/-- A patch that points were added to reports its size when it is full: when
the number of points is what doubling makes of the first room. -/
theorem truthful_build_iff {s : PcSchema} {maxpoints : Nat} {pts : List PcPoint}
    {p : PcPatchUncompressed} (h : pcPatchUncompressedBuild P s maxpoints pts = .ok p) :
    p.Truthful ↔ ∃ j, pts.length = maxpoints * 2 ^ j := by
  obtain ⟨c, hmade, h⟩ := bind_eq_ok.mp h
  obtain ⟨hp, -, hnp⟩ := growing_addPoints (growing_made hmade) h
  rw [(pcPatchUncompressedMake_fields hmade).2.1, Nat.zero_add] at hnp
  obtain ⟨j, hj, hleast⟩ := hp.grown
  have hfull : p.Truthful ↔ pts.length = p.maxpoints := by
    rw [PcPatchUncompressed.Truthful, hp.datasize_eq, hnp,
      Nat.mul_left_inj (Nat.ne_of_gt p.schema.size_pos), eq_comm]
  rw [hfull, hj]
  constructor
  · intro heq
    exact ⟨j, heq⟩
  · intro ⟨k, hk⟩
    have hle := hp.npoints_le
    rw [hnp, hj, hk] at hle
    rw [hnp, hk] at hleast
    rw [hk]
    rcases Nat.eq_zero_or_pos maxpoints with hzero | hpos
    · rw [hzero, Nat.zero_mul, Nat.zero_mul]
    · have hkj : k ≤ j := (Nat.pow_le_pow_iff_right (by decide)).mp
        (Nat.le_of_mul_le_mul_left hle hpos)
      have hjk : j ≤ k := by
        rcases hleast with rfl | hlt
        · exact Nat.zero_le k
        · have := (Nat.pow_lt_pow_iff_right (a := 2) (by decide)).mp (Nat.lt_of_mul_lt_mul_left hlt)
          omega
      rw [Nat.le_antisymm hkj hjk]

/-! ## Patches made from patches -/

/-- An uncompressed patch that a filter returns is new. -/
theorem truthful_filter {pa : PcPatch} {dimnum : Nat} {filter : PcFiltertype} {val1 val2 : ℚ}
    {p : PcPatchUncompressed}
    (h : pcPatchFilter P pa dimnum filter val1 val2 = .ok (.uncompressed p)) : p.Truthful := by
  have hempty : ∀ s : PcSchema, emptyPatch s = .ok (.uncompressed p) → p.Truthful := by
    intro s hs
    obtain ⟨q, hq, hs⟩ := bind_eq_ok.mp hs
    cases hs
    exact truthful_made hq rfl rfl (pcPatchUncompressedMake_fields hq).2.1
  have hfilter : ∀ (u : PcPatchUncompressed) (map : PcBitmap),
      pcPatchUncompressedFilter P u map = .ok p → p.Truthful := by
    intro u map hu
    obtain ⟨q, hq, hu⟩ := bind_eq_ok.mp hu
    obtain ⟨-, -, hu⟩ := bind_eq_ok.mp hu
    obtain ⟨-, -, hu⟩ := bind_eq_ok.mp hu
    obtain ⟨marks, -, hu⟩ := bind_eq_ok.mp hu
    obtain ⟨recs, -, hu⟩ := bind_eq_ok.mp hu
    obtain ⟨data, -, hu⟩ := bind_eq_ok.mp hu
    obtain ⟨r, hextent, hstats⟩ := bind_eq_ok.mp hu
    exact (truthful_computed hextent hstats).mpr (truthful_made hq rfl rfl rfl)
  have hpoints : ∀ {pa : PcPatch},
      filterPoints P pa dimnum filter val1 val2 = .ok (.uncompressed p) → p.Truthful := by
    intro pa hpa
    cases pa with
    | uncompressed u =>
        obtain ⟨map, -, hpa⟩ := bind_eq_ok.mp hpa
        split at hpa
        · exact hempty _ hpa
        · obtain ⟨q, hq, hpa⟩ := bind_eq_ok.mp hpa
          cases hpa
          exact hfilter _ _ hq
    | dimensional d =>
        obtain ⟨map, -, hpa⟩ := bind_eq_ok.mp hpa
        split at hpa
        · exact hempty _ hpa
        · obtain ⟨q, -, hpa⟩ := bind_eq_ok.mp hpa
          cases hpa
    | lazperf l => exact absurd hpa (raise_ne_ok _ _)
  unfold pcPatchFilter at h
  split at h
  · exact hpoints h
  · obtain ⟨has, -, h⟩ := bind_eq_ok.mp h
    split at h
    · exact hpoints h
    · exact hempty _ h

/-- The range takes in all points. -/
def WholeRange (pa : PcPatch) (first count : Int) : Prop :=
  let first := int32 (first - 1)
  let countmax := int32 (pa.npoints - first)
  0 ≤ first ∧ (if countmax < count then countmax else count) = pa.npoints

/-- A range of all points is the patch itself, another one is new. -/
theorem truthful_range_iff {pa : PcPatch} {first count : Int} {p : PcPatchUncompressed}
    (h : pcPatchRange P pa first count = .ok (some (.uncompressed p))) :
    p.Truthful ↔ ∀ u, pa = .uncompressed u → WholeRange pa first count → u.Truthful := by
  unfold pcPatchRange at h
  simp only at h
  unfold WholeRange
  simp only
  generalize (if int32 (pa.npoints - int32 (first - 1)) < count then
    int32 (pa.npoints - int32 (first - 1)) else count) = taken at h ⊢
  split at h
  · cases h
  · next hsome =>
      split at h
      · next hwhole =>
          cases h
          constructor
          · intro hp u hu _
            cases hu
            exact hp
          · intro hall
            exact hall p rfl ⟨by omega, hwhole⟩
      · next hpart =>
          obtain ⟨q, hq, h⟩ := bind_eq_ok.mp h
          obtain ⟨u, -, h⟩ := bind_eq_ok.mp h
          obtain ⟨src, -, h⟩ := bind_eq_ok.mp h
          obtain ⟨written, -, h⟩ := bind_eq_ok.mp h
          obtain ⟨r, hextent, h⟩ := bind_eq_ok.mp h
          obtain ⟨t, hstats, h⟩ := bind_eq_ok.mp h
          cases h
          have htrue : p.Truthful :=
            (truthful_computed hextent hstats).mpr (truthful_made hq rfl rfl rfl)
          exact iff_of_true htrue fun _ _ hwhole => absurd hwhole.2 hpart

theorem truthful_fromPatchlist {palist : List PcPatch} {p : PcPatchUncompressed}
    (h : pcPatchFromPatchlist P palist = .ok p) : p.Truthful := by
  unfold pcPatchFromPatchlist at h
  split at h
  · cases h
  · simp only at h
    split at h
    · exact absurd h (raise_ne_ok _ p)
    · obtain ⟨q, hq, h⟩ := bind_eq_ok.mp h
      obtain ⟨recs, -, h⟩ := bind_eq_ok.mp h
      obtain ⟨written, -, hstats⟩ := bind_eq_ok.mp h
      exact (truthful_stats hstats).mpr (truthful_made hq rfl rfl rfl)

theorem truthful_setSchema {pa : PcPatch} {s : PcSchema} {dflt : ℚ} {p : PcPatchUncompressed}
    (h : pcPatchSetSchema P pa s dflt = .ok p) : p.Truthful := by
  obtain ⟨dpt, -, h⟩ := bind_eq_ok.mp h
  obtain ⟨matched, -, h⟩ := bind_eq_ok.mp h
  obtain ⟨u, hu, h⟩ := bind_eq_ok.mp h
  obtain ⟨q, hq, h⟩ := bind_eq_ok.mp h
  obtain ⟨copies, -, h⟩ := bind_eq_ok.mp h
  obtain ⟨data, -, h⟩ := bind_eq_ok.mp h
  have hn := (schema_of_uncompress hu).2
  split at h
  · obtain ⟨min, -, h⟩ := bind_eq_ok.mp h
    obtain ⟨max, -, h⟩ := bind_eq_ok.mp h
    obtain ⟨avg, -, h⟩ := bind_eq_ok.mp h
    obtain ⟨bounds, -, h⟩ := bind_eq_ok.mp h
    cases h
    exact truthful_made hq rfl rfl hn
  · obtain ⟨bounds, -, h⟩ := bind_eq_ok.mp h
    cases h
    exact truthful_made hq rfl rfl hn

theorem truthful_transform {pa : PcPatch} {s : PcSchema} {dflt : ℚ} {p : PcPatchUncompressed}
    (h : pcPatchTransform P pa s dflt = .ok (some p)) : p.Truthful := by
  unfold pcPatchTransform at h
  split at h
  · cases h
  · obtain ⟨odims, -, h⟩ := bind_eq_ok.mp h
    obtain ⟨u, hu, h⟩ := bind_eq_ok.mp h
    obtain ⟨q, hq, h⟩ := bind_eq_ok.mp h
    obtain ⟨copies, -, h⟩ := bind_eq_ok.mp h
    obtain ⟨data, -, h⟩ := bind_eq_ok.mp h
    obtain ⟨r, hextent, h⟩ := bind_eq_ok.mp h
    obtain ⟨t, hstats, h⟩ := bind_eq_ok.mp h
    cases h
    have hn := (schema_of_uncompress hu).2
    exact (truthful_computed hextent hstats).mpr (truthful_made hq rfl rfl hn)

theorem truthful_fromDimensional {d : PcPatchDimensional} {p : PcPatchUncompressed}
    (h : pcPatchUncompressedFromDimensional P d = .ok p) : p.Truthful := by
  obtain ⟨data, -, h⟩ := bind_eq_ok.mp h
  obtain ⟨plain, -, h⟩ := bind_eq_ok.mp h
  obtain ⟨copies, -, h⟩ := bind_eq_ok.mp h
  obtain ⟨filled, -, h⟩ := bind_eq_ok.mp h
  cases h
  exact Nat.mul_comm _ _

/-- What is read from WKB has passed a comparison of the two. -/
theorem truthful_fromWkb {s : PcSchema} {wkb : Bytes} {wkbsize : Nat} {p : PcPatchUncompressed}
    (h : pcPatchUncompressedFromWkb P s wkb wkbsize = .ok p) : p.Truthful := by
  obtain ⟨swap, -, h⟩ := bind_eq_ok.mp h
  obtain ⟨compression, -, h⟩ := bind_eq_ok.mp h
  split at h
  · exact absurd h (raise_ne_ok _ p)
  · obtain ⟨npoints, -, h⟩ := bind_eq_ok.mp h
    split at h
    · exact absurd h (raise_ne_ok _ p)
    · next hsize =>
        obtain ⟨data, -, h⟩ := bind_eq_ok.mp h
        cases h
        rw [PcPatchUncompressed.Truthful, Nat.mul_comm]
        exact not_ne_iff.mp hsize

/-! ## All of them -/

/-- The ways in which an uncompressed patch is made. -/
inductive Production where
  | fromPointlist (pl : PcPointlist)
  | build (s : PcSchema) (maxpoints : Nat) (pts : List PcPoint)
  | filter (pa : PcPatch) (dimnum : Nat) (condition : PcFiltertype) (val1 val2 : ℚ)
  | range (pa : PcPatch) (first count : Int)
  | fromPatchlist (palist : List PcPatch)
  | setSchema (pa : PcPatch) (s : PcSchema) (dflt : ℚ)
  | transform (pa : PcPatch) (s : PcSchema) (dflt : ℚ)
  | fromDimensional (d : PcPatchDimensional)
  | fromWkb (s : PcSchema) (wkb : Bytes) (wkbsize : Nat)

/-- The patch that is made, if there is one. -/
def Production.run (P : Platform) : Production → Run (Option PcPatch)
  | .fromPointlist pl => do
      let p ← pcPatchUncompressedFromPointlist P pl
      return some (.uncompressed p)
  | .build s maxpoints pts => do
      let p ← pcPatchUncompressedBuild P s maxpoints pts
      return some (.uncompressed p)
  | .filter pa dimnum condition val1 val2 => do
      let p ← pcPatchFilter P pa dimnum condition val1 val2
      return some p
  | .range pa first count => pcPatchRange P pa first count
  | .fromPatchlist palist => do
      let p ← pcPatchFromPatchlist P palist
      return some (.uncompressed p)
  | .setSchema pa s dflt => do
      let p ← pcPatchSetSchema P pa s dflt
      return some (.uncompressed p)
  | .transform pa s dflt => do
      let p ← pcPatchTransform P pa s dflt
      return p.map .uncompressed
  | .fromDimensional d => do
      let p ← pcPatchUncompressedFromDimensional P d
      return some (.uncompressed p)
  | .fromWkb s wkb wkbsize => do
      let p ← pcPatchUncompressedFromWkb P s wkb wkbsize
      return some (.uncompressed p)

/-- A list of points has no null entry, a patch that was added to is full, and a
patch that is returned as it is reports its size. -/
def Production.Truthful : Production → Prop
  | .fromPointlist pl => ∀ pt ∈ pl.points, pt ≠ none
  | .build _ maxpoints pts => ∃ j, pts.length = maxpoints * 2 ^ j
  | .range pa first count => ∀ u, pa = .uncompressed u → WholeRange pa first count → u.Truthful
  | _ => True

/-- An uncompressed patch reports its size exactly under these conditions. -/
theorem production_truthful_iff {op : Production} {p : PcPatchUncompressed}
    (h : op.run P = .ok (some (.uncompressed p))) : p.Truthful ↔ op.Truthful := by
  cases op with
  | fromPointlist pl =>
      obtain ⟨q, hq, h⟩ := bind_eq_ok.mp h
      cases h
      exact truthful_fromPointlist_iff hq
  | build s maxpoints pts =>
      obtain ⟨q, hq, h⟩ := bind_eq_ok.mp h
      cases h
      exact truthful_build_iff hq
  | filter pa dimnum condition val1 val2 =>
      obtain ⟨q, hq, h⟩ := bind_eq_ok.mp h
      cases h
      exact iff_of_true (truthful_filter hq) trivial
  | range pa first count => exact truthful_range_iff h
  | fromPatchlist palist =>
      obtain ⟨q, hq, h⟩ := bind_eq_ok.mp h
      cases h
      exact iff_of_true (truthful_fromPatchlist hq) trivial
  | setSchema pa s dflt =>
      obtain ⟨q, hq, h⟩ := bind_eq_ok.mp h
      cases h
      exact iff_of_true (truthful_setSchema hq) trivial
  | transform pa s dflt =>
      obtain ⟨q, hq, h⟩ := bind_eq_ok.mp h
      cases q with
      | none => cases h
      | some q =>
          cases h
          exact iff_of_true (truthful_transform hq) trivial
  | fromDimensional d =>
      obtain ⟨q, hq, h⟩ := bind_eq_ok.mp h
      cases h
      exact iff_of_true (truthful_fromDimensional hq) trivial
  | fromWkb s wkb wkbsize =>
      obtain ⟨q, hq, h⟩ := bind_eq_ok.mp h
      cases h
      exact iff_of_true (truthful_fromWkb hq) trivial

/-- The point (5, 7). -/
def smallPoint : PcPoint :=
  ⟨false, xySchema .uint8 .uint8 uint8_known uint8_known 1 .none, [5, 7], rfl⟩

/-- A run that returns, by something that is computed from what it returns. -/
theorem exists_of_map_eq_ok {α β : Type} {x : Run α} {g : α → β} {b : β}
    (h : x.map g = .ok b) : ∃ a, x = .ok a ∧ g a = b := by
  cases x with
  | ok a =>
      cases h
      exact ⟨a, rfl, rfl⟩
  | error e => cases h

/-- Four points are added to a patch that was made for one, so that it grows twice. -/
theorem production_truthful_iff_witness :
    ∃ p, (Production.build smallPoint.schema 1 (List.replicate 4 smallPoint)).run Platform.plain =
      .ok (some (.uncompressed p)) ∧ p.npoints = 4 ∧ p.Truthful := by
  have hbuild : (pcPatchUncompressedBuild Platform.plain smallPoint.schema 1
      (List.replicate 4 smallPoint)).map PcPatchUncompressed.npoints = .ok 4 := by decide +kernel
  obtain ⟨p, hp, hnpoints⟩ := exists_of_map_eq_ok hbuild
  have hrun : (Production.build smallPoint.schema 1 (List.replicate 4 smallPoint)).run
      Platform.plain = .ok (some (.uncompressed p)) := by
    rw [Production.run, hp, ok_bind, pure_eq_ok]
  exact ⟨p, hrun, hnpoints, (production_truthful_iff hrun).mpr ⟨2, rfl⟩⟩

/-- A point and a null entry: the patch has one point, and reports the bytes of two. -/
theorem pcPatchUncompressedFromPointlist_counts_null :
    ∃ p, (Production.fromPointlist ⟨[some smallPoint, none], by decide⟩).run Platform.plain =
      .ok (some (.uncompressed p)) ∧
      p.npoints = 1 ∧ p.schema.size = 2 ∧ p.datasize = 4 ∧ ¬ p.Truthful := by
  have hlist : (pcPatchUncompressedFromPointlist Platform.plain
      ⟨[some smallPoint, none], by decide⟩).map
        (fun p => (p.npoints, p.schema.size, p.datasize)) = .ok (1, 2, 4) := by decide +kernel
  obtain ⟨p, hp, hfields⟩ := exists_of_map_eq_ok hlist
  simp only [Prod.mk.injEq] at hfields
  obtain ⟨hn, hs, hd⟩ := hfields
  refine ⟨p, ?_, hn, hs, hd, ?_⟩
  · rw [Production.run, hp, ok_bind, pure_eq_ok]
  · rw [PcPatchUncompressed.Truthful, hn, hs, hd]
    decide

end Pointcloud
