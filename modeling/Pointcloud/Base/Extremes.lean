/-
Pointcloud.Base.Extremes — least and greatest elements of a list.

A loop that keeps the smaller of what it has and what it sees computes a fold
with `min`. The lemmas tell what it ends with from the least element of the
list, and how least elements behave under monotone maps and for lists with the
same elements.
-/
import Mathlib.Algebra.Order.Field.Rat
import Mathlib.Data.List.Forall2
import Mathlib.Order.Bounds.Basic
import Mathlib.Order.Monotone.Basic

namespace Pointcloud.Base

variable {α β : Type} [LinearOrder α] [LinearOrder β]

/-- `m` is the least of the elements. -/
def LeastOf (xs : List α) (m : α) : Prop := m ∈ xs ∧ ∀ x ∈ xs, m ≤ x

/-- `m` is the greatest of the elements. -/
def GreatestOf (xs : List α) (m : α) : Prop := m ∈ xs ∧ ∀ x ∈ xs, x ≤ m

theorem exists_leastOf {xs : List α} (hne : xs ≠ []) : ∃ m, LeastOf xs m :=
  ⟨xs.min hne, List.min_mem hne, fun _ hx => List.min_le_of_mem hx⟩

theorem exists_greatestOf {xs : List α} (hne : xs ≠ []) : ∃ m, GreatestOf xs m :=
  ⟨xs.max hne, List.max_mem hne, fun _ hx => List.le_max_of_mem hx⟩

/-- A fold with `min` ends with the least element, or where it started. -/
theorem LeastOf.foldl_min {xs : List α} {m : α} (h : LeastOf xs m) (start : α) :
    xs.foldl min start = min start m := by
  have hne : xs ≠ [] := List.ne_nil_of_mem h.1
  have hm : xs.min hne = m := (List.min_eq_iff hne).mpr h
  rw [List.foldl_min_eq_min hne, hm]

theorem GreatestOf.foldl_max {xs : List α} {m : α} (h : GreatestOf xs m) (start : α) :
    xs.foldl max start = max start m := by
  have hne : xs ≠ [] := List.ne_nil_of_mem h.1
  have hm : xs.max hne = m := (List.max_eq_iff hne).mpr h
  rw [List.foldl_max_eq_max hne, hm]

/-- Only the elements matter. -/
theorem LeastOf.of_mem_iff {xs ys : List α} {m : α} (h : LeastOf xs m)
    (hmem : ∀ x, x ∈ ys ↔ x ∈ xs) : LeastOf ys m :=
  ⟨(hmem m).mpr h.1, fun x hx => h.2 x ((hmem x).mp hx)⟩

theorem GreatestOf.of_mem_iff {xs ys : List α} {m : α} (h : GreatestOf xs m)
    (hmem : ∀ x, x ∈ ys ↔ x ∈ xs) : GreatestOf ys m :=
  ⟨(hmem m).mpr h.1, fun x hx => h.2 x ((hmem x).mp hx)⟩

theorem LeastOf.unique {xs : List α} {m m' : α} (h : LeastOf xs m) (h' : LeastOf xs m') : m = m' :=
  le_antisymm (h.2 m' h'.1) (h'.2 m h.1)

theorem GreatestOf.unique {xs : List α} {m m' : α} (h : GreatestOf xs m) (h' : GreatestOf xs m') :
    m = m' :=
  le_antisymm (h'.2 m h.1) (h.2 m' h'.1)

/-- Elements that are not less than others do not matter. -/
theorem foldl_min_of_subset {xs ys : List α} (hsub : ∀ x ∈ xs, x ∈ ys)
    (hle : ∀ y ∈ ys, ∃ x ∈ xs, x ≤ y) (start : α) : ys.foldl min start = xs.foldl min start := by
  cases xs with
  | nil =>
      have hnil : ys = [] := List.eq_nil_iff_forall_not_mem.mpr fun y hy => by
        obtain ⟨x, hx, -⟩ := hle y hy
        exact List.not_mem_nil hx
      rw [hnil]
  | cons x xs =>
      obtain ⟨m, hm⟩ := exists_leastOf (List.cons_ne_nil x xs)
      have hm' : LeastOf ys m := by
        refine ⟨hsub m hm.1, fun y hy => ?_⟩
        obtain ⟨x, hx, hxy⟩ := hle y hy
        exact le_trans (hm.2 x hx) hxy
      rw [hm.foldl_min, hm'.foldl_min]

theorem foldl_max_of_subset {xs ys : List α} (hsub : ∀ x ∈ xs, x ∈ ys)
    (hle : ∀ y ∈ ys, ∃ x ∈ xs, y ≤ x) (start : α) : ys.foldl max start = xs.foldl max start := by
  cases xs with
  | nil =>
      have hnil : ys = [] := List.eq_nil_iff_forall_not_mem.mpr fun y hy => by
        obtain ⟨x, hx, -⟩ := hle y hy
        exact List.not_mem_nil hx
      rw [hnil]
  | cons x xs =>
      obtain ⟨m, hm⟩ := exists_greatestOf (List.cons_ne_nil x xs)
      have hm' : GreatestOf ys m := by
        refine ⟨hsub m hm.1, fun y hy => ?_⟩
        obtain ⟨x, hx, hxy⟩ := hle y hy
        exact le_trans hxy (hm.2 x hx)
      rw [hm.foldl_max, hm'.foldl_max]

/-- Folds over the same elements end alike. -/
theorem foldl_min_of_mem_iff {xs ys : List α} (hmem : ∀ x, x ∈ ys ↔ x ∈ xs) (start : α) :
    ys.foldl min start = xs.foldl min start :=
  foldl_min_of_subset (fun x hx => (hmem x).mpr hx) (fun y hy => ⟨y, (hmem y).mp hy, le_rfl⟩) start

theorem foldl_max_of_mem_iff {xs ys : List α} (hmem : ∀ x, x ∈ ys ↔ x ∈ xs) (start : α) :
    ys.foldl max start = xs.foldl max start :=
  foldl_max_of_subset (fun x hx => (hmem x).mpr hx) (fun y hy => ⟨y, (hmem y).mp hy, le_rfl⟩) start

/-- A search ends with the least element if one is not behind where it starts. -/
theorem leastOf_foldl_iff {xs : List α} (hne : xs ≠ []) (hi : α) :
    LeastOf xs (xs.foldl min hi) ↔ ∃ x ∈ xs, x ≤ hi := by
  obtain ⟨m, hm⟩ := exists_leastOf hne
  rw [hm.foldl_min]
  constructor
  · intro hleast
    exact ⟨_, hleast.1, min_le_left _ _⟩
  · rintro ⟨x, hx, hle⟩
    rwa [min_eq_right (le_trans (hm.2 x hx) hle)]

theorem greatestOf_foldl_iff {xs : List α} (hne : xs ≠ []) (lo : α) :
    GreatestOf xs (xs.foldl max lo) ↔ ∃ x ∈ xs, lo ≤ x := by
  obtain ⟨M, hM⟩ := exists_greatestOf hne
  rw [hM.foldl_max]
  constructor
  · intro hgreatest
    exact ⟨_, hgreatest.1, le_max_left _ _⟩
  · rintro ⟨x, hx, hle⟩
    rwa [max_eq_right (le_trans hle (hM.2 x hx))]

theorem LeastOf.map {xs : List α} {m : α} (h : LeastOf xs m) {f : α → β} (hf : Monotone f) :
    LeastOf (xs.map f) (f m) := by
  refine ⟨List.mem_map_of_mem h.1, fun y hy => ?_⟩
  obtain ⟨x, hx, rfl⟩ := List.mem_map.mp hy
  exact hf (h.2 x hx)

theorem GreatestOf.map {xs : List α} {m : α} (h : GreatestOf xs m) {f : α → β} (hf : Monotone f) :
    GreatestOf (xs.map f) (f m) := by
  refine ⟨List.mem_map_of_mem h.1, fun y hy => ?_⟩
  obtain ⟨x, hx, rfl⟩ := List.mem_map.mp hy
  exact hf (h.2 x hx)

theorem GreatestOf.map_antitone {xs : List α} {m : α} (h : GreatestOf xs m) {f : α → β}
    (hf : Antitone f) : LeastOf (xs.map f) (f m) := by
  refine ⟨List.mem_map_of_mem h.1, fun y hy => ?_⟩
  obtain ⟨x, hx, rfl⟩ := List.mem_map.mp hy
  exact hf (h.2 x hx)

theorem LeastOf.map_antitone {xs : List α} {m : α} (h : LeastOf xs m) {f : α → β}
    (hf : Antitone f) : GreatestOf (xs.map f) (f m) := by
  refine ⟨List.mem_map_of_mem h.1, fun y hy => ?_⟩
  obtain ⟨x, hx, rfl⟩ := List.mem_map.mp hy
  exact hf (h.2 x hx)

/-- The least of the least elements of several lists. -/
theorem LeastOf.flatten {xss : List (List α)} {ms : List α}
    (h : List.Forall₂ LeastOf xss ms) {m : α}
    (hm : LeastOf ms m) : LeastOf xss.flatten m := by
  constructor
  · obtain ⟨i, hi, rfl⟩ := List.mem_iff_getElem.mp hm.1
    have hxs := (List.forall₂_iff_get.mp h).2 i (h.length_eq ▸ hi) hi
    exact List.mem_flatten_of_mem (List.get_mem _ _) hxs.1
  · intro x hx
    obtain ⟨xs, hxs, hx⟩ := List.mem_flatten.mp hx
    obtain ⟨i, hi, rfl⟩ := List.mem_iff_getElem.mp hxs
    have hi' : i < ms.length := h.length_eq ▸ hi
    exact le_trans (hm.2 _ (List.getElem_mem hi')) (((List.forall₂_iff_get.mp h).2 i hi hi').2 x hx)

theorem GreatestOf.flatten {xss : List (List α)} {ms : List α} (h : List.Forall₂ GreatestOf xss ms)
    {m : α} (hm : GreatestOf ms m) : GreatestOf xss.flatten m := by
  constructor
  · obtain ⟨i, hi, rfl⟩ := List.mem_iff_getElem.mp hm.1
    have hxs := (List.forall₂_iff_get.mp h).2 i (h.length_eq ▸ hi) hi
    exact List.mem_flatten_of_mem (List.get_mem _ _) hxs.1
  · intro x hx
    obtain ⟨xs, hxs, hx⟩ := List.mem_flatten.mp hx
    obtain ⟨i, hi, rfl⟩ := List.mem_iff_getElem.mp hxs
    have hi' : i < ms.length := h.length_eq ▸ hi
    exact le_trans (((List.forall₂_iff_get.mp h).2 i hi hi').2 x hx) (hm.2 _ (List.getElem_mem hi'))

/-- Walking several columns row by row is walking each of them. -/
theorem foldl_zipWith_map {ι ρ σ τ : Type} (cols : List ι) (step : σ → τ → σ) (value : ι → ρ → τ) :
    ∀ (rows : List ρ) (acc : ι → σ),
      rows.foldl (fun accs row => List.zipWith step accs (cols.map fun c => value c row))
        (cols.map acc) = cols.map fun c => (rows.map (value c)).foldl step (acc c)
  | [], _ => rfl
  | row :: rows, acc => by
      have hstep : List.zipWith step (cols.map acc) (cols.map fun c => value c row) =
          cols.map fun c => step (acc c) (value c row) := by
        rw [List.zipWith_map, List.zipWith_self]
      rw [List.foldl_cons, hstep,
        foldl_zipWith_map cols step value rows fun c => step (acc c) (value c row)]
      rfl

/-! ## Extremes before and after a map -/
/-- Two lists have the same extremes, and searches of the first that start at `hi`
and at `lo` find them. -/
structure SameExtremes (lo hi : α) (xs ys : List α) : Prop where
  low : ∃ x ∈ xs, x ≤ hi
  high : ∃ x ∈ xs, lo ≤ x
  least : ∀ m, LeastOf xs m ↔ LeastOf ys m
  greatest : ∀ m, GreatestOf xs m ↔ GreatestOf ys m

theorem sameExtremes_iff {lo hi : α} {xs ys : List α} {m M m' M' : α} (hm : LeastOf xs m)
    (hM : GreatestOf xs M) (hm' : LeastOf ys m') (hM' : GreatestOf ys M') :
    SameExtremes lo hi xs ys ↔ m ≤ hi ∧ lo ≤ M ∧ m = m' ∧ M = M' := by
  constructor
  · rintro ⟨⟨x, hx, hlow⟩, ⟨y, hy, hhigh⟩, hleast, hgreatest⟩
    exact ⟨le_trans (hm.2 x hx) hlow, le_trans hhigh (hM.2 y hy),
      ((hleast m).mp hm).unique hm', ((hgreatest M).mp hM).unique hM'⟩
  · rintro ⟨hlow, hhigh, rfl, rfl⟩
    exact ⟨⟨m, hm.1, hlow⟩, ⟨M, hM.1, hhigh⟩,
      fun z => ⟨fun hz => hz.unique hm ▸ hm', fun hz => hz.unique hm' ▸ hm⟩,
      fun z => ⟨fun hz => hz.unique hM ▸ hM', fun hz => hz.unique hM' ▸ hM⟩⟩

section Map

variable {lo hi : α} {lo' hi' : β} {xs ys : List α} {f : α → β} (hxs : xs ≠ []) (hys : ys ≠ [])
  (hrange : ∀ y ∈ ys, lo' ≤ f y ∧ f y ≤ hi')

include hxs hys hrange

/-- Extremes that are searched and then mapped, against those of the images. -/
theorem map_extremes_iff_of_strictMono (hf : StrictMono f)
    (hfrom : ∀ y ∈ ys, y ∈ xs ∨ lo < y ∧ y < hi) :
    f (xs.foldl min hi) = (ys.map f).foldl min hi' ∧
      f (xs.foldl max lo) = (ys.map f).foldl max lo' ↔ SameExtremes lo hi xs ys := by
  obtain ⟨m, hm⟩ := exists_leastOf hxs
  obtain ⟨M, hM⟩ := exists_greatestOf hxs
  obtain ⟨m', hm'⟩ := exists_leastOf hys
  obtain ⟨M', hM'⟩ := exists_greatestOf hys
  rw [sameExtremes_iff hm hM hm' hM', hm.foldl_min, hM.foldl_max, (hm'.map hf.monotone).foldl_min,
    (hM'.map hf.monotone).foldl_max, min_eq_right (hrange m' hm'.1).2,
    max_eq_right (hrange M' hM'.1).1, hf.injective.eq_iff, hf.injective.eq_iff]
  constructor
  · rintro ⟨hmin, hmax⟩
    have hlow : m ≤ hi := by
      by_contra hgt
      rw [min_eq_left (le_of_not_ge hgt)] at hmin
      rcases hfrom m' hm'.1 with hin | ⟨-, hlt⟩
      · exact hgt (hmin ▸ hm.2 m' hin)
      · exact absurd hmin (ne_of_gt hlt)
    have hhigh : lo ≤ M := by
      by_contra hlt
      rw [max_eq_left (le_of_not_ge hlt)] at hmax
      rcases hfrom M' hM'.1 with hin | ⟨hgt, -⟩
      · exact hlt (hmax ▸ hM.2 M' hin)
      · exact absurd hmax (ne_of_lt hgt)
    rw [min_eq_right hlow] at hmin
    rw [max_eq_right hhigh] at hmax
    exact ⟨hlow, hhigh, hmin, hmax⟩
  · rintro ⟨hlow, hhigh, hmin, hmax⟩
    rw [min_eq_right hlow, max_eq_right hhigh]
    exact ⟨hmin, hmax⟩

/-- A map that turns the order around mixes the two extremes up, unless they are
the same. -/
theorem map_extremes_iff_of_strictAnti (hf : StrictAnti f) :
    f (xs.foldl min hi) = (ys.map f).foldl min hi' ∧
      f (xs.foldl max lo) = (ys.map f).foldl max lo' ↔
    SameExtremes lo hi xs ys ∧ ∀ x ∈ xs, ∀ y ∈ xs, x = y := by
  obtain ⟨m, hm⟩ := exists_leastOf hxs
  obtain ⟨M, hM⟩ := exists_greatestOf hxs
  obtain ⟨m', hm'⟩ := exists_leastOf hys
  obtain ⟨M', hM'⟩ := exists_greatestOf hys
  have hflat : (∀ x ∈ xs, ∀ y ∈ xs, x = y) ↔ M ≤ m := by
    constructor
    · intro hall
      exact le_of_eq (hall M hM.1 m hm.1)
    · intro hle x hx y hy
      exact le_antisymm (le_trans (hM.2 x hx) (le_trans hle (hm.2 y hy)))
        (le_trans (hM.2 y hy) (le_trans hle (hm.2 x hx)))
  rw [sameExtremes_iff hm hM hm' hM', hflat, hm.foldl_min, hM.foldl_max,
    (hM'.map_antitone hf.antitone).foldl_min, (hm'.map_antitone hf.antitone).foldl_max,
    min_eq_right (hrange M' hM'.1).2, max_eq_right (hrange m' hm'.1).1, hf.injective.eq_iff,
      hf.injective.eq_iff]
  have hends : m ≤ M := hm.2 M hM.1
  have hends' : m' ≤ M' := hm'.2 M' hM'.1
  constructor
  · rintro ⟨hmin, hmax⟩
    have hle : M ≤ m := by
      calc M ≤ max lo M := le_max_right _ _
        _ ≤ M' := hmax ▸ hends'
        _ ≤ m := hmin ▸ min_le_right _ _
    have hMm : M ≤ m' := hmax ▸ le_max_right _ _
    have hmM : M' ≤ m := hmin ▸ min_le_right _ _
    refine ⟨⟨?_, ?_, ?_, ?_⟩, hle⟩
    · calc m ≤ M := hends
        _ ≤ m' := hMm
        _ ≤ M' := hends'
        _ ≤ hi := hmin ▸ min_le_left _ _
    · calc lo ≤ m' := hmax ▸ le_max_left _ _
        _ ≤ M' := hends'
        _ ≤ m := hmM
        _ ≤ M := hends
    · exact le_antisymm (le_trans hends hMm) (le_trans hends' hmM)
    · exact le_antisymm (le_trans hMm hends') (le_trans hmM hends)
  · rintro ⟨⟨hlow, hhigh, rfl, rfl⟩, hle⟩
    have heq : m = M := le_antisymm hends hle
    subst heq
    rw [min_eq_right hlow, max_eq_right hhigh]
    exact ⟨rfl, rfl⟩

end Map

/-! ## Extremes that are known beforehand -/

section Known

variable {lo hi m M : α} {xs ys : List α} (hm : LeastOf xs m) (hM : GreatestOf xs M) (hys : ys ≠ [])

include hm hM hys

/-- The extremes of a list are what searches of another end with. -/
theorem extremes_eq_foldl_iff :
    m = ys.foldl min hi ∧ M = ys.foldl max lo ↔
      ((∃ x ∈ xs, x ≤ hi) ∧ ∃ x ∈ xs, lo ≤ x) ∧ xs.foldl min hi = ys.foldl min hi ∧
        xs.foldl max lo = ys.foldl max lo := by
  obtain ⟨m', hm'⟩ := exists_leastOf hys
  obtain ⟨M', hM'⟩ := exists_greatestOf hys
  rw [hm.foldl_min, hM.foldl_max, hm'.foldl_min, hM'.foldl_max]
  constructor
  · rintro ⟨hmin, hmax⟩
    have hlow : m ≤ hi := hmin ▸ min_le_left _ _
    have hhigh : lo ≤ M := hmax ▸ le_max_left _ _
    exact ⟨⟨⟨m, hm.1, hlow⟩, M, hM.1, hhigh⟩, by rw [min_eq_right hlow, hmin],
      by rw [max_eq_right hhigh, hmax]⟩
  · rintro ⟨⟨⟨x, hx, hlow⟩, y, hy, hhigh⟩, hmin, hmax⟩
    rw [← hmin, ← hmax, min_eq_right (le_trans (hm.2 x hx) hlow),
      max_eq_right (le_trans hhigh (hM.2 y hy))]
    exact ⟨rfl, rfl⟩

/-- Exchanged, they are that only if all elements are the same. -/
theorem extremes_exchanged_iff :
    M = ys.foldl min hi ∧ m = ys.foldl max lo ↔
      (((∃ x ∈ xs, x ≤ hi) ∧ ∃ x ∈ xs, lo ≤ x) ∧ xs.foldl min hi = ys.foldl min hi ∧
        xs.foldl max lo = ys.foldl max lo) ∧ ∀ x ∈ xs, ∀ y ∈ xs, x = y := by
  have hends : m ≤ M := hm.2 M hM.1
  constructor
  · rintro ⟨hmin, hmax⟩
    obtain ⟨m', hm'⟩ := exists_leastOf hys
    have hcross : M ≤ m := by
      calc M ≤ m' := by
            rw [hmin, hm'.foldl_min]
            exact min_le_right _ _
        _ ≤ m := by
            obtain ⟨M', hM'⟩ := exists_greatestOf hys
            rw [hmax, hM'.foldl_max]
            exact le_trans (hm'.2 M' hM'.1) (le_max_right _ _)
    have heq : m = M := le_antisymm hends hcross
    refine ⟨(extremes_eq_foldl_iff hm hM hys).mp ⟨heq.trans hmin, heq.symm.trans hmax⟩,
      fun x hx y hy => ?_⟩
    exact le_antisymm (le_trans (hM.2 x hx) (le_trans hcross (hm.2 y hy)))
      (le_trans (hM.2 y hy) (le_trans hcross (hm.2 x hx)))
  · rintro ⟨hsame, hflat⟩
    obtain ⟨hmin, hmax⟩ := (extremes_eq_foldl_iff hm hM hys).mpr hsame
    have heq : m = M := hflat m hm.1 M hM.1
    exact ⟨heq.symm.trans hmin, heq.trans hmax⟩

end Known

/-! ## Ranges -/

/-- `z` lies in the range of the elements. -/
def InRangeOf (xs : List α) (z : α) : Prop := (∃ x ∈ xs, x ≤ z) ∧ ∃ x ∈ xs, z ≤ x

theorem inRangeOf_self {xs : List α} {z : α} (h : z ∈ xs) : InRangeOf xs z :=
  ⟨⟨z, h, le_refl z⟩, z, h, le_refl z⟩

/-- Two ranges have something in common unless one ends before the other begins. -/
theorem exists_inRangeOf_iff {xs ys : List α} {a b c d : α} (ha : LeastOf xs a)
    (hb : GreatestOf xs b) (hc : LeastOf ys c) (hd : GreatestOf ys d) :
    (∃ z, InRangeOf xs z ∧ InRangeOf ys z) ↔ ¬ (d < a ∨ b < c) := by
  rw [not_or, not_lt, not_lt]
  constructor
  · rintro ⟨z, ⟨⟨x, hx, hxz⟩, x', hx', hzx⟩, ⟨y, hy, hyz⟩, y', hy', hzy⟩
    constructor
    · exact le_trans (ha.2 x hx) (le_trans hxz (le_trans hzy (hd.2 y' hy')))
    · exact le_trans (hc.2 y hy) (le_trans hyz (le_trans hzx (hb.2 x' hx')))
  · rintro ⟨had, hcb⟩
    refine ⟨max a c, ⟨⟨a, ha.1, le_max_left a c⟩, b, hb.1, max_le (ha.2 b hb.1) hcb⟩,
      ⟨c, hc.1, le_max_right a c⟩, d, hd.1, max_le had (hc.2 d hd.1)⟩

end Pointcloud.Base
