/-
Pointcloud.Patch.SortTheorems — what a sorted patch is, and what the library
says of it.

The key of a point is the list of its values in the given dimensions, and
lists are ordered lexicographically. A patch is sorted when the keys of
neighbours do not decrease, strictly when they increase. The comparison of
records orders them as their keys (`lexCompare_lt`), since the scales are
positive. The walk stops when the comparison is not below the flag `strict`,
which is 0 or 1: with 0 it asks for increasing keys, with 1 for keys that do
not decrease, the one where the other is meant.
-/
import Pointcloud.Patch.CompressTheorems
import Pointcloud.Patch.Sort
import Mathlib.Data.List.Chain
import Mathlib.Data.List.Lex
import Mathlib.Algebra.Order.Ring.Rat
import Mathlib.Tactic.Linarith

namespace Pointcloud

open Pointcloud.Base

variable {P : Platform}

/-! ## Keys -/

/-- The values of a point in the dimensions that are sorted by. -/
def sortKey (en : Endian) (dims : List PcDimension) (pt : Bytes) : List ℚ :=
  dims.map fun dim => dim.valueIn en pt

/-- The keys of neighbours increase, or at least do not decrease. -/
def SortedKeys (strict : Bool) (keys : List (List ℚ)) : Prop :=
  if strict then keys.IsChain (· < ·) else keys.IsChain (· ≤ ·)

/-- The comparison of two records. -/
def lexCompare (en : Endian) : List PcDimension → Bytes → Bytes → Int
  | [], _, _ => 0
  | dim :: rest, a, b =>
      let cmp := compareDouble (dim.rawIn en a) (dim.rawIn en b)
      if cmp = 0 then lexCompare en rest a b else cmp

theorem compareDouble_cases (x y : ℚ) :
    compareDouble x y = -1 ∧ x < y ∨ compareDouble x y = 0 ∧ x = y ∨
      compareDouble x y = 1 ∧ y < x := by
  unfold compareDouble
  rcases lt_trichotomy x y with h | h | h
  · left
    rw [if_neg (not_lt.mpr (le_of_lt h)), if_pos h]
    exact ⟨rfl, h⟩
  · right; left
    rw [if_neg (by rw [h]; exact lt_irrefl _), if_neg (by rw [h]; exact lt_irrefl _)]
    exact ⟨rfl, h⟩
  · right; right
    rw [if_pos h]
    exact ⟨rfl, h⟩

/-- With a positive scale values are ordered as the stored numbers. -/
theorem valueIn_lt_iff {en : Endian} {dim : PcDimension} (h : 0 < dim.scale) (a b : Bytes) :
    dim.valueIn en a < dim.valueIn en b ↔ dim.rawIn en a < dim.rawIn en b := by
  rw [PcDimension.valueIn, PcDimension.valueIn, pcValueScaleOffset_eq, pcValueScaleOffset_eq,
    add_lt_add_iff_right, mul_lt_mul_iff_left₀ h]

/-- The comparison is that of the keys. -/
theorem lexCompare_cases (en : Endian) : ∀ {dims : List PcDimension},
    (∀ dim ∈ dims, 0 < dim.scale) → ∀ a b : Bytes,
    lexCompare en dims a b = -1 ∧ sortKey en dims a < sortKey en dims b ∨
      lexCompare en dims a b = 0 ∧ sortKey en dims a = sortKey en dims b ∨
      lexCompare en dims a b = 1 ∧ sortKey en dims b < sortKey en dims a
  | [], _, _, _ => Or.inr (Or.inl ⟨rfl, rfl⟩)
  | dim :: rest, h, a, b => by
      have hscale := h dim (by simp)
      have ih := lexCompare_cases en (fun d (hd : d ∈ rest) => h d (by simp [hd])) a b
      have hkey : ∀ pt, sortKey en (dim :: rest) pt = dim.valueIn en pt :: sortKey en rest pt :=
        fun _ => rfl
      rw [hkey, hkey, lexCompare]
      simp only [List.cons_lt_cons_iff]
      rcases compareDouble_cases (dim.rawIn en a) (dim.rawIn en b) with ⟨hc, hlt⟩ |
        ⟨hc, heq⟩ | ⟨hc, hlt⟩
      · rw [hc]
        exact Or.inl ⟨rfl, Or.inl ((valueIn_lt_iff hscale a b).mpr hlt)⟩
      · have hvalue : dim.valueIn en a = dim.valueIn en b := by
          rw [PcDimension.valueIn, heq, ← PcDimension.valueIn]
        rw [hc, if_pos rfl, hvalue]
        rcases ih with ⟨hc', hlt⟩ | ⟨hc', heq'⟩ | ⟨hc', hlt⟩
        · exact Or.inl ⟨hc', Or.inr ⟨rfl, hlt⟩⟩
        · exact Or.inr (Or.inl ⟨hc', by rw [heq']⟩)
        · exact Or.inr (Or.inr ⟨hc', Or.inr ⟨rfl, hlt⟩⟩)
      · rw [hc]
        exact Or.inr (Or.inr ⟨rfl, Or.inl ((valueIn_lt_iff hscale b a).mpr hlt)⟩)

section Keys

variable {en : Endian} {dims : List PcDimension} (h : ∀ dim ∈ dims, 0 < dim.scale) (a b : Bytes)

include h

theorem lexCompare_lt_zero :
    lexCompare en dims a b < 0 ↔ sortKey en dims a < sortKey en dims b := by
  rcases lexCompare_cases en h a b with ⟨hc, hlt⟩ | ⟨hc, heq⟩ | ⟨hc, hlt⟩
  · exact iff_of_true (by omega) hlt
  · exact iff_of_false (by omega) (by rw [heq]; exact lt_irrefl _)
  · exact iff_of_false (by omega) (lt_asymm hlt)

theorem lexCompare_lt_one : lexCompare en dims a b < 1 ↔ sortKey en dims a ≤ sortKey en dims b := by
  rcases lexCompare_cases en h a b with ⟨hc, hlt⟩ | ⟨hc, heq⟩ | ⟨hc, hlt⟩
  · exact iff_of_true (by omega) (le_of_lt hlt)
  · exact iff_of_true (by omega) (le_of_eq heq)
  · exact iff_of_false (by omega) (not_le.mpr hlt)

end Keys

/-! ## Comparing records

The code compares raw numbers. With a positive scale they are ordered as the values
are, so that the comparison is that of the keys. -/

/-- A dimension of a record in a longer block. -/
theorem pcDoubleFromPtr_record {en : Endian} {s : PcSchema} {dim : PcDimension} (hd : dim ∈ s.dims)
    {block : Bytes} (hroom : s.size ≤ block.length) :
    pcDoubleFromPtr en block dim.byteoffset dim.interpretation =
      .ok (dim.rawIn en (block.take s.size)) := by
  have hend := s.dim_end_le hd
  have hsize := s.dim_size hd
  rw [pcDoubleFromPtr_ok (s.dim_known hd) (by omega), PcDimension.rawIn, PcDimension.bytesIn,
    List.drop_take, List.take_take, hsize, Nat.min_eq_left (by omega)]

/-- Records are compared in all of the dimensions. -/
theorem pcCompareDim_ok {en : Endian} {s : PcSchema} {a b : Bytes} (ha : s.size ≤ a.length)
    (hb : s.size ≤ b.length) :
    ∀ {dims : List PcDimension}, dims ≠ [] → (∀ dim ∈ dims, dim ∈ s.dims) →
      pcCompareDim en a b dims = .ok (lexCompare en dims (a.take s.size) (b.take s.size))
  | [], hne, _ => absurd rfl hne
  | dim :: rest, _, hd => by
      rw [pcCompareDim, pcDoubleFromPtr_record (hd dim (by simp)) ha, ok_bind,
        pcDoubleFromPtr_record (hd dim (by simp)) hb, ok_bind, lexCompare]
      simp only
      by_cases hrest : rest = []
      · subst hrest
        simp only [lexCompare]
        rw [if_neg (by simp), pure_eq_ok]
        split
        · next hzero => rw [hzero]
        · rfl
      · by_cases hzero : compareDouble (dim.rawIn en (a.take s.size))
          (dim.rawIn en (b.take s.size)) = 0
        · rw [if_pos ⟨hzero, hrest⟩, if_pos hzero]
          exact pcCompareDim_ok ha hb hrest fun d hd' => hd d (by simp [hd'])
        · rw [if_neg (fun hboth => hzero hboth.1), if_neg hzero, pure_eq_ok]

/-! ## The walk over neighbours

It stops at the first pair whose comparison is not below the flag, and has found
every pair before that below it. -/

theorem isSortedLoop_ok {cmp : Nat → Run Int} {c : Nat → Int} (strict : Int) :
    ∀ {is : List Nat}, (∀ i ∈ is, cmp i = .ok (c i)) →
      isSortedLoop cmp strict is = .ok (decide (∀ i ∈ is, c i < strict))
  | [], _ => by simp [isSortedLoop]
  | i :: is, h => by
      rw [isSortedLoop, h i (by simp), ok_bind]
      by_cases hstop : strict ≤ c i
      · rw [if_pos hstop, pure_eq_ok, decide_eq_false]
        intro hall
        have := hall i (by simp)
        omega
      · rw [if_neg hstop, isSortedLoop_ok strict fun j hj => h j (by simp [hj])]
        congr 1
        apply decide_eq_decide.mpr
        rw [List.forall_mem_cons]
        exact ⟨fun hrest => ⟨by omega, hrest⟩, fun hall => hall.2⟩

/-- The walk over a list compares every element with the next. -/
theorem isSortedLoop_chain {α : Type} {xs : List α} (cmp : Nat → Run Int) (c : α → α → Int)
    (strict : Int) (h : ∀ i (hi : i + 1 < xs.length), cmp i = .ok (c xs[i] xs[i + 1])) :
    ∃ b, isSortedLoop cmp strict (List.range (xs.length - 1)) = .ok b ∧
      (b = true ↔ xs.IsChain fun x y => c x y < strict) := by
  have hcmp : ∀ i ∈ List.range (xs.length - 1), cmp i =
      .ok (if hi : i + 1 < xs.length then c xs[i] xs[i + 1] else 0) := by
    intro i hi
    have hlt := List.mem_range.mp hi
    rw [h i (by omega), dif_pos (by omega)]
  refine ⟨_, isSortedLoop_ok strict hcmp, ?_⟩
  rw [decide_eq_true_eq, List.isChain_iff_getElem]
  constructor
  · intro hall i hi
    have := hall i (List.mem_range.mpr (by omega))
    rwa [dif_pos hi] at this
  · intro hall i hi
    have hlt := List.mem_range.mp hi
    rw [dif_pos (by omega)]
    exact hall i (by omega)

/-! ## Records that are sorted -/

/-- The names stand for the dimensions, whose scales are positive. -/
def NamesDims (s : PcSchema) (names : List String) (dims : List PcDimension) : Prop :=
  List.Forall₂ (fun name dim => pcSchemaGetDimensionByName s name = some dim ∧ 0 < dim.scale)
    names dims

section Named

variable {s : PcSchema} {names : List String} {dims : List PcDimension} (h : NamesDims s names dims)

include h

theorem pcSchemaGetDimensionsByName_ok : pcSchemaGetDimensionsByName s names = .ok dims := by
  rw [pcSchemaGetDimensionsByName, mapM_eq_ok_iff]
  refine h.imp ?_
  rintro name dim ⟨hname, hscale⟩
  rw [hname]
  simp only
  rw [assertThat_true hscale, ok_bind, pure_eq_ok]

theorem NamesDims.mem_dims : ∀ dim ∈ dims, dim ∈ s.dims ∧ 0 < dim.scale := by
  intro dim hd
  obtain ⟨i, hi, rfl⟩ := List.mem_iff_getElem.mp hd
  have hget := (List.forall₂_iff_get.mp h).2 i (by rw [h.length_eq]; exact hi) hi
  exact ⟨mem_of_pcSchemaGetDimensionByName hget.1, hget.2⟩

end Named

/-- Names are looked up only where each of them names a dimension. -/
theorem namesDims_of_ok {s : PcSchema} {names : List String} {dims : List PcDimension}
    (h : pcSchemaGetDimensionsByName s names = .ok dims) : NamesDims s names dims := by
  rw [pcSchemaGetDimensionsByName, mapM_eq_ok_iff] at h
  refine h.imp fun name dim hdim => ?_
  split at hdim
  · exact absurd hdim (raise_ne_ok _ dim)
  · next hname =>
      obtain ⟨_, hassert, hdim⟩ := bind_eq_ok.mp hdim
      cases hdim
      exact ⟨hname, assertThat_eq_ok.mp hassert⟩

/-- A block that holds points, where its pointer is not null. -/
theorem pcPatchUncompressedIsSorted_ok {u : PcPatchUncompressed} {pts : List Bytes}
    (h : u.Holds pts) (hsize : u.datasize = u.npoints * u.schema.size) (hdata : u.data ≠ none)
    {dims : List PcDimension} (hne : dims ≠ []) (hdims : ∀ dim ∈ dims, dim ∈ u.schema.dims)
    (strict : Int) :
    ∃ b, pcPatchUncompressedIsSorted P u dims strict = .ok b ∧
      (b = true ↔ pts.IsChain fun x y => lexCompare P.endian dims x y < strict) := by
  obtain ⟨buf, hbuf⟩ := Option.ne_none_iff_exists'.mp hdata
  have hpos := u.schema.size_pos
  have hlen := h.length_eq
  have hroom := h.room
  have hrecords := h.records_eq
  rw [hbuf, Buf.content_some] at hroom hrecords
  have hcount : (u.datasize - 1) / u.schema.size = pts.length - 1 := by
    rw [hsize, hlen]
    cases hn : u.npoints with
    | zero => simp
    | succ n =>
        have hlast : (n + 1) * u.schema.size - 1 = u.schema.size * n + (u.schema.size - 1) := by
          rw [Nat.succ_mul, Nat.mul_comm]
          omega
        rw [hlast, Nat.mul_add_div hpos, Nat.div_eq_of_lt (by omega)]
        omega
  have hrow : ∀ i (hi : i < pts.length), i * u.schema.size + u.schema.size ≤ buf.length ∧
      (buf.drop (i * u.schema.size)).take u.schema.size = pts[i] := by
    intro i hi
    have hend := Nat.mul_le_mul_right u.schema.size (Nat.succ_le_of_lt hi)
    rw [Nat.succ_mul, hlen] at hend
    have hget := records_getElem? u.schema.size u.npoints buf i (by omega)
    rw [hrecords, List.getElem?_eq_getElem hi, Option.some.injEq] at hget
    exact ⟨by omega, hget.symm⟩
  have hcmp : ∀ i (hi : i + 1 < pts.length), pcCompareDim P.endian (buf.drop (i * u.schema.size))
      (buf.drop (i * u.schema.size + u.schema.size)) dims =
      .ok (lexCompare P.endian dims pts[i] pts[i + 1]) := by
    intro i hi
    obtain ⟨hend, heq⟩ := hrow i (by omega)
    obtain ⟨hend', heq'⟩ := hrow (i + 1) hi
    rw [Nat.succ_mul] at hend' heq'
    rw [pcCompareDim_ok (s := u.schema) (by rw [List.length_drop]; omega)
      (by rw [List.length_drop]; omega) hne hdims, heq, heq']
  unfold pcPatchUncompressedIsSorted
  rw [hbuf]
  simp only
  rw [hcount]
  exact isSortedLoop_chain _ _ strict hcmp

/-- Keys that do not decrease increase, unless two neighbours are equal. -/
theorem chain_le_iff_lt (keys : List (List ℚ)) :
    (keys.IsChain (· ≤ ·) ↔ keys.IsChain (· < ·)) ↔
      ¬ keys.IsChain (· ≤ ·) ∨ keys.IsChain (· ≠ ·) := by
  have hlt : keys.IsChain (· < ·) ↔ keys.IsChain (· ≤ ·) ∧ keys.IsChain (· ≠ ·) := by
    simp only [List.isChain_iff_getElem]
    constructor
    · intro h
      exact ⟨fun i hi => le_of_lt (h i hi), fun i hi => ne_of_lt (h i hi)⟩
    · rintro ⟨hle, hne⟩ i hi
      exact lt_of_le_of_ne (hle i hi) (hne i hi)
  rw [hlt]
  tauto

section Says

variable {p : PcPatchUncompressed} {pts : List Bytes} (h : p.Holds pts)
  (hsize : p.datasize = p.npoints * p.schema.size) {names : List String}
  {dims : List PcDimension} (hnames : NamesDims p.schema names dims)

include h hsize hnames

/-- The answer, for a block behind a pointer that is not null. -/
theorem pcPatchIsSorted_ok (hne : dims ≠ []) (hdata : p.data ≠ none) (strict : Int) :
    ∃ b, pcPatchIsSorted P (.uncompressed p) names strict = .ok b ∧
      (b = true ↔ SortedKeys (decide (¬ 0 < strict)) (pts.map (sortKey P.endian dims))) := by
  have hmem := hnames.mem_dims
  have hscale : ∀ dim ∈ dims, 0 < dim.scale := fun dim hd => (hmem dim hd).2
  obtain ⟨b, hb, hiff⟩ := pcPatchUncompressedIsSorted_ok (P := P) h hsize hdata hne
    (fun dim hd => (hmem dim hd).1) (if 0 < strict then 1 else 0)
  refine ⟨b, ?_, hiff.trans ?_⟩
  · have hget : pcSchemaGetDimensionsByName (PcPatch.uncompressed p).schema names = .ok dims :=
      pcSchemaGetDimensionsByName_ok hnames
    rw [pcPatchIsSorted, hget, ok_bind]
    exact hb
  · unfold SortedKeys
    by_cases hs : 0 < strict
    · simp only [hs, not_true_eq_false, decide_false, if_true, Bool.false_eq_true, if_false,
        List.isChain_map, lexCompare_lt_one hscale]
    · simp only [hs, not_false_eq_true, decide_true, if_true, if_false, List.isChain_map,
        lexCompare_lt_zero hscale]

end Says

/-! ## Sorting

The sort is a parameter, `SortR`, which gives its input in an order in which no
element is greater than the next. -/

section Sorting

variable {S : SortR} {p : PcPatchUncompressed} {pts : List Bytes} (h : p.Holds pts)
  (hsize : p.datasize = p.npoints * p.schema.size)

include h hsize

/-- Sorting rearranges the points by their keys. -/
theorem pcPatchUncompressedSort_ok (hfits : p.schema.size * p.npoints < 9223372036854775808)
    {dims : List PcDimension} (hne : dims ≠ [])
    (hdims : ∀ dim ∈ dims, dim ∈ p.schema.dims ∧ 0 < dim.scale) :
    ∃ q pts', pcPatchUncompressedSort P S p dims = .ok q ∧ q.Holds pts' ∧ pts'.Perm pts ∧
      (pts'.map (sortKey P.endian dims)).Pairwise (· ≤ ·) ∧ q.schema = p.schema ∧
      q.datasize = q.npoints * q.schema.size ∧ (q.data = none ↔ p.npoints = 0) ∧
      q.npoints = p.npoints ∧ q.bounds = p.bounds ∧ q.stats = pcStatsClone p.stats := by
  have hpos := p.schema.size_pos
  have hlen := h.length_eq
  have hroom := h.room
  have hwidth := h.width_eq
  have hscale : ∀ dim ∈ dims, 0 < dim.scale := fun dim hd => (hdims dim hd).2
  have hflat : pts.flatten.length = p.npoints * p.schema.size := by
    rw [length_flatten_of_width hwidth, hlen]
  have hread : readAt p.data.content 0 p.datasize = .ok pts.flatten := by
    rw [← Int.natCast_zero, readAt_ok (by omega), List.drop_zero, hsize, ← flatten_records,
      h.records_eq]
  have hwrite : writeAt (bufOf (zeros (p.schema.size * p.npoints))).content 0 pts.flatten =
      .ok pts.flatten := by
    have hzeros : (zeros (p.schema.size * p.npoints)).length = pts.flatten.length := by
      rw [length_zeros, hflat, Nat.mul_comm]
    rw [content_bufOf, ← Int.natCast_zero, writeAt_ok (by omega), List.take_zero, List.nil_append,
      List.drop_eq_nil_of_le (by omega), List.append_nil]
  have hrecords : records p.schema.size p.npoints pts.flatten = pts := by
    rw [← hlen]
    exact records_flatten hwidth
  -- the comparison is total and transitive, as that of the keys is
  have hle : ∀ a b, lexCompare P.endian dims a b ≤ 0 ↔
      sortKey P.endian dims a ≤ sortKey P.endian dims b := by
    intro a b
    rw [← lexCompare_lt_one hscale]
    omega
  have hcmp : ∀ a ∈ pts, ∀ b ∈ pts, pcCompareDim P.endian a b dims =
      .ok (lexCompare P.endian dims a b) := by
    intro a ha b hb
    have hta : a.take p.schema.size = a := List.take_of_length_le (by rw [hwidth a ha])
    have htb : b.take p.schema.size = b := List.take_of_length_le (by rw [hwidth b hb])
    rw [pcCompareDim_ok (s := p.schema) (Nat.le_of_eq (hwidth a ha).symm)
      (Nat.le_of_eq (hwidth b hb).symm) hne (fun dim hd => (hdims dim hd).1), hta, htb]
  obtain ⟨pts', hsort, hperm, hsorted⟩ := S.sort_ok
    (fun a b => pcCompareDim P.endian a b dims) (lexCompare P.endian dims) pts hcmp
    (fun a _ b _ => by rw [hle, hle]; exact le_total _ _)
    (fun a _ b _ c _ => by rw [hle, hle, hle]; exact le_trans)
  have hwidth' : ∀ pt ∈ pts', pt.length = p.schema.size :=
    fun pt hpt => hwidth pt (hperm.mem_iff.mp hpt)
  have hlen' : pts'.length = p.npoints := by rw [hperm.length_eq, hlen]
  have hdrop : pts.flatten.drop (p.npoints * p.schema.size) = [] :=
    List.drop_eq_nil_of_le (by omega)
  refine ⟨{ readonly := false, schema := p.schema, npoints := p.npoints, bounds := p.bounds,
            stats := pcStatsClone p.stats, maxpoints := p.npoints,
            datasize := p.schema.size * p.npoints, data := bufOf pts'.flatten },
    pts', ?_, ?_, hperm, ?_, rfl, Nat.mul_comm _ _, ?_, rfl, rfl, rfl⟩
  · unfold pcPatchUncompressedSort pcPatchUncompressedMake
    rw [if_neg (by omega), pcalloc_ok hfits]
    simp only [ok_bind, pure_eq_ok]
    rw [hread, ok_bind, hwrite, ok_bind, hrecords, hsort, ok_bind, hdrop, List.append_nil]
  · refine ⟨h.npoints_lt, ?_, ?_⟩
    · simp only [content_bufOf]
      rw [length_flatten_of_width hwidth', hlen']
    · simp only [content_bufOf]
      rw [← hlen']
      exact records_flatten hwidth'
  · rw [List.pairwise_map]
    exact hsorted.imp fun {a b} hab => (hle a b).mp hab
  · have hflat' : pts'.flatten.length = p.npoints * p.schema.size := by
      rw [length_flatten_of_width hwidth', hlen']
    have hnil : pts'.flatten = [] ↔ p.npoints = 0 := by
      rw [← List.length_eq_zero_iff, hflat', Nat.mul_eq_zero]
      omega
    rw [← hnil]
    change bufOf pts'.flatten = none ↔ _
    unfold bufOf
    split
    · next hempty => exact iff_of_true rfl hempty
    · next hnonempty => exact iff_of_false (by simp) hnonempty

end Sorting

/-- Put a record in front of the first one that it is not greater than. -/
def insertRecord (cmp : Bytes → Bytes → Run Int) (x : Bytes) : List Bytes → Run (List Bytes)
  | [] => .ok [x]
  | y :: ys => do
      let c ← cmp x y
      if c ≤ 0 then return x :: y :: ys
      else
        let rest ← insertRecord cmp x ys
        return y :: rest

/-- Insertion sort. -/
def insertionSort (cmp : Bytes → Bytes → Run Int) : List Bytes → Run (List Bytes)
  | [] => .ok []
  | x :: xs => do
      let ys ← insertionSort cmp xs
      insertRecord cmp x ys

section Insertion

variable {cmp : Bytes → Bytes → Run Int} {c : Bytes → Bytes → Int} {x : Bytes}

theorem insertRecord_ok : ∀ {ys : List Bytes}, (∀ y ∈ ys, cmp x y = .ok (c x y)) →
    (∀ y ∈ ys, c x y ≤ 0 ∨ c y x ≤ 0) → (∀ y ∈ ys, ∀ z ∈ ys, c x y ≤ 0 → c y z ≤ 0 → c x z ≤ 0) →
    ys.Pairwise (fun a b => c a b ≤ 0) →
    ∃ zs, insertRecord cmp x ys = .ok zs ∧ zs.Perm (x :: ys) ∧ zs.Pairwise fun a b => c a b ≤ 0
  | [], _, _, _, _ => ⟨[x], rfl, .refl _, by simp⟩
  | y :: ys, hcmp, htotal, htrans, hsorted => by
      obtain ⟨hy, hys⟩ := List.pairwise_cons.mp hsorted
      rw [insertRecord, hcmp y (by simp), ok_bind]
      by_cases hle : c x y ≤ 0
      · rw [if_pos hle]
        refine ⟨x :: y :: ys, rfl, .refl _, List.pairwise_cons.mpr ⟨?_, hsorted⟩⟩
        intro z hz
        rcases List.mem_cons.mp hz with rfl | hz'
        · exact hle
        · exact htrans y (by simp) z hz hle (hy z hz')
      · have hyx := (htotal y (by simp)).resolve_left hle
        obtain ⟨zs, hzs, hperm, hzsorted⟩ := insertRecord_ok
          (fun z (hz : z ∈ ys) => hcmp z (by simp [hz])) (fun z hz => htotal z (by simp [hz]))
          (fun z hz w hw => htrans z (by simp [hz]) w (by simp [hw])) hys
        rw [if_neg hle, hzs, ok_bind]
        refine ⟨y :: zs, rfl, (hperm.cons y).trans (.swap x y ys),
          List.pairwise_cons.mpr ⟨?_, hzsorted⟩⟩
        intro z hz
        rcases List.mem_cons.mp (hperm.mem_iff.mp hz) with rfl | hz'
        · exact hyx
        · exact hy z hz'

theorem insertionSort_ok : ∀ {l : List Bytes}, (∀ a ∈ l, ∀ b ∈ l, cmp a b = .ok (c a b)) →
    (∀ a ∈ l, ∀ b ∈ l, c a b ≤ 0 ∨ c b a ≤ 0) →
    (∀ a ∈ l, ∀ b ∈ l, ∀ d ∈ l, c a b ≤ 0 → c b d ≤ 0 → c a d ≤ 0) →
    ∃ l', insertionSort cmp l = .ok l' ∧ l'.Perm l ∧ l'.Pairwise fun a b => c a b ≤ 0
  | [], _, _, _ => ⟨[], rfl, .refl _, .nil⟩
  | a :: l, hcmp, htotal, htrans => by
      obtain ⟨ys, hys, hperm, hsorted⟩ := insertionSort_ok (l := l)
        (fun b hb d hd => hcmp b (by simp [hb]) d (by simp [hd]))
        (fun b hb d hd => htotal b (by simp [hb]) d (by simp [hd]))
        (fun b hb d hd e he => htrans b (by simp [hb]) d (by simp [hd]) e (by simp [he]))
      have hmem : ∀ y ∈ ys, y ∈ a :: l := fun y hy => by simp [hperm.mem_iff.mp hy]
      obtain ⟨zs, hzs, hperm', hsorted'⟩ := insertRecord_ok (x := a)
        (fun y hy => hcmp a (by simp) y (hmem y hy)) (fun y hy => htotal a (by simp) y (hmem y hy))
        (fun y hy z hz => htrans a (by simp) y (hmem y hy) z (hmem z hz)) hsorted
      refine ⟨zs, ?_, hperm'.trans (hperm.cons a), hsorted'⟩
      rw [insertionSort, hys, ok_bind, hzs]

end Insertion

/-- Insertion sort as the sort of the library. -/
def SortR.insertion : SortR where
  sort := insertionSort
  sort_ok := fun _ _ _ hcmp htotal htrans => insertionSort_ok hcmp htotal htrans

end Pointcloud
