/-
Pointcloud.Base.RunLength — runs of equal values.

A list of runs `(count, value)` stands for the list in which each value is
repeated `count` times (`expand`). `runs cap` cuts a list into runs greedily,
none longer than `cap`; it loses nothing, its counts lie between 1 and `cap`,
and there are no more runs than values.
-/
import Mathlib.Data.List.Basic
import Mathlib.Data.List.Chain
import Mathlib.Data.List.Flatten
import Mathlib.Algebra.GroupWithZero.Nat

namespace Pointcloud.Base

variable {α β : Type}

/-- The values that a list of runs stands for. -/
def expand (rs : List (Nat × α)) : List α := rs.flatMap fun r => List.replicate r.1 r.2

@[simp] theorem expand_nil : expand ([] : List (Nat × α)) = [] := rfl

theorem expand_cons (r : Nat × α) (rs : List (Nat × α)) :
    expand (r :: rs) = List.replicate r.1 r.2 ++ expand rs := rfl

theorem expand_append (rs ss : List (Nat × α)) : expand (rs ++ ss) = expand rs ++ expand ss := by
  simp [expand]

theorem length_expand : ∀ rs : List (Nat × α), (expand rs).length = (rs.map Prod.fst).sum
  | [] => rfl
  | r :: rs => by
      rw [expand_cons, List.length_append, List.length_replicate, length_expand rs, List.map_cons,
        List.sum_cons]

theorem expand_map (f : α → β) : ∀ rs : List (Nat × α),
    expand (rs.map fun r => (r.1, f r.2)) = (expand rs).map f
  | [] => rfl
  | r :: rs => by
      rw [List.map_cons, expand_cons, expand_map f rs, expand_cons, List.map_append,
        List.map_replicate]

/-- Runs without values add nothing. -/
theorem expand_filter_pos : ∀ rs : List (Nat × α), expand (rs.filter fun r => 0 < r.1) = expand rs
  | [] => rfl
  | r :: rs => by
      have ih := expand_filter_pos rs
      rw [List.filter_cons, expand_cons]
      split
      · rw [expand_cons, ih]
      · next hnone =>
          have hzero : r.1 = 0 := by simpa using hnone
          rw [ih, hzero, List.replicate_zero, List.nil_append]

/-- A value of the expansion is the value of a run. -/
theorem mem_expand {rs : List (Nat × α)} {x : α} (h : x ∈ expand rs) : ∃ r ∈ rs, r.2 = x := by
  obtain ⟨r, hr, hx⟩ := List.mem_flatMap.mp h
  exact ⟨r, hr, (List.eq_of_mem_replicate hx).symm⟩

/-- The value of a run that is not empty occurs in the expansion. -/
theorem mem_expand_of_mem {rs : List (Nat × α)} {r : Nat × α} (h : r ∈ rs) (hpos : 1 ≤ r.1) :
    r.2 ∈ expand rs :=
  List.mem_flatMap.mpr ⟨r, h, List.mem_replicate.mpr ⟨by omega, rfl⟩⟩

theorem mem_expand_iff {rs : List (Nat × α)} (hpos : ∀ r ∈ rs, 1 ≤ r.1) {x : α} :
    x ∈ expand rs ↔ x ∈ rs.map Prod.snd := by
  rw [List.mem_map]
  constructor
  · exact mem_expand
  · rintro ⟨r, hr, rfl⟩
    exact mem_expand_of_mem hr (hpos r hr)

/-! ## Neighbours -/

theorem isChain_replicate_append {R : α → α → Prop} (a : α) (l : List α) :
    ∀ n : Nat, (List.replicate (n + 1) a ++ l).IsChain R ↔
      (0 < n → R a a) ∧ (a :: l).IsChain R
  | 0 => by simp
  | n + 1 => by
      have ih := isChain_replicate_append (R := R) a l n
      rw [List.replicate_succ, List.cons_append] at ih
      rw [List.replicate_succ, List.cons_append, List.replicate_succ, List.cons_append,
        List.isChain_cons_cons, ih]
      constructor
      · rintro ⟨haa, -, hrest⟩
        exact ⟨fun _ => haa, hrest⟩
      · rintro ⟨haa, hrest⟩
        exact ⟨haa (Nat.succ_pos n), fun _ => haa (Nat.succ_pos n), hrest⟩

/-- Neighbours in the expansion are neighbours of one run, or of two. -/
theorem isChain_expand {R : α → α → Prop} : ∀ {rs : List (Nat × α)}, (∀ r ∈ rs, 1 ≤ r.1) →
    ((expand rs).IsChain R ↔
      (rs.map Prod.snd).IsChain R ∧ ∀ r ∈ rs, 1 < r.1 → R r.2 r.2)
  | [], _ => by simp
  | [(n, a)], h => by
      obtain ⟨k, rfl⟩ : ∃ k, n = k + 1 := ⟨n - 1, by have := h (n, a) (by simp); omega⟩
      rw [expand_cons, isChain_replicate_append]
      simp
  | (n, a) :: (m, b) :: rs, h => by
      have ih := isChain_expand (R := R) fun r (hr : r ∈ (m, b) :: rs) => h r (by simp [hr])
      obtain ⟨k, rfl⟩ : ∃ k, n = k + 1 := ⟨n - 1, by have := h (n, a) (by simp); omega⟩
      obtain ⟨j, rfl⟩ : ∃ j, m = j + 1 := ⟨m - 1, by have := h (m, b) (by simp); omega⟩
      have hhead : expand ((j + 1, b) :: rs) = b :: (List.replicate j b ++ expand rs) := by
        rw [expand_cons, List.replicate_succ, List.cons_append]
      have hvalues : ((k + 1, a) :: (j + 1, b) :: rs).map Prod.snd
          = a :: b :: rs.map Prod.snd := rfl
      have hruns : (∀ r ∈ (k + 1, a) :: (j + 1, b) :: rs, 1 < r.1 → R r.2 r.2) ↔
          (1 < k + 1 → R a a) ∧ ∀ r ∈ (j + 1, b) :: rs, 1 < r.1 → R r.2 r.2 :=
        List.forall_mem_cons
      rw [List.map_cons] at ih
      rw [expand_cons, isChain_replicate_append, hhead, List.isChain_cons_cons, ← hhead, ih,
        hvalues, List.isChain_cons_cons, hruns]
      constructor
      · rintro ⟨haa, hab, hchain, hruns⟩
        exact ⟨⟨hab, hchain⟩, fun hk => haa (by omega), hruns⟩
      · rintro ⟨⟨hab, hchain⟩, haa, hruns⟩
        exact ⟨fun hk => haa (by omega), hab, hchain, hruns⟩

variable [DecidableEq α]

/-- The runs of a list that begins with `count` times `a`. -/
def runsFrom (cap : Nat) : List α → α → Nat → List (Nat × α)
  | [], a, count => [(count, a)]
  | x :: xs, a, count =>
      if count < cap ∧ a = x then runsFrom cap xs a (count + 1)
      else (count, a) :: runsFrom cap xs x 1

/-- The runs of a list. -/
def runs (cap : Nat) : List α → List (Nat × α)
  | [] => []
  | x :: xs => runsFrom cap xs x 1

theorem expand_runsFrom (cap : Nat) : ∀ (xs : List α) (a : α) (count : Nat),
    expand (runsFrom cap xs a count) = List.replicate count a ++ xs
  | [], a, count => by simp [runsFrom, expand]
  | x :: xs, a, count => by
      unfold runsFrom
      split
      · next h =>
          rw [expand_runsFrom cap xs a (count + 1), List.replicate_succ', List.append_assoc, h.2]
          rfl
      · rw [expand_cons, expand_runsFrom cap xs x 1]
        rfl

/-- Cutting into runs loses nothing. -/
theorem expand_runs (cap : Nat) (xs : List α) : expand (runs cap xs) = xs := by
  cases xs with
  | nil => rfl
  | cons x xs => exact expand_runsFrom cap xs x 1

theorem count_runsFrom {cap : Nat} : ∀ (xs : List α) (a : α) {count : Nat},
    1 ≤ count → count ≤ cap → ∀ r ∈ runsFrom cap xs a count, 1 ≤ r.1 ∧ r.1 ≤ cap
  | [], a, count, h1, hcap, r, hr => by
      rw [runsFrom, List.mem_singleton] at hr
      subst hr
      exact ⟨h1, hcap⟩
  | x :: xs, a, count, h1, hcap, r, hr => by
      unfold runsFrom at hr
      split at hr
      · next h => exact count_runsFrom xs a (by omega) (by omega) r hr
      · rcases List.mem_cons.mp hr with rfl | hr
        · exact ⟨h1, hcap⟩
        · exact count_runsFrom xs x (Nat.le_refl 1) (by omega) r hr

/-- Counts lie between 1 and the cap. -/
theorem count_runs {cap : Nat} (hcap : 1 ≤ cap) {xs : List α} {r : Nat × α}
    (hr : r ∈ runs cap xs) : 1 ≤ r.1 ∧ r.1 ≤ cap := by
  cases xs with
  | nil => cases hr
  | cons x xs => exact count_runsFrom xs x (Nat.le_refl 1) hcap r hr

theorem value_runs {cap : Nat} (hcap : 1 ≤ cap) {xs : List α} {r : Nat × α}
    (hr : r ∈ runs cap xs) : r.2 ∈ xs := by
  have hmem := mem_expand_of_mem hr (count_runs hcap hr).1
  rwa [expand_runs] at hmem

end Pointcloud.Base
