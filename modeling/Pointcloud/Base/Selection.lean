/-
Pointcloud.Base.Selection — the elements that a bitmap marks.

`select bits xs` keeps the elements of `xs` whose bit is set, in order. On a
list that is given by its runs, the same is done run by run: `selectRuns`
shortens each run to the number of its marked values and drops the runs that
have none.
-/
import Pointcloud.Base.RunLength

namespace Pointcloud.Base

variable {α β : Type}

/-- The elements whose bit is set. -/
def select : List Bool → List α → List α
  | b :: bits, x :: xs => if b then x :: select bits xs else select bits xs
  | _, _ => []

@[simp] theorem select_nil_left (xs : List α) : select [] xs = [] := by
  cases xs <;> rfl

@[simp] theorem select_nil_right (bits : List Bool) : select bits ([] : List α) = [] := by
  cases bits <;> rfl

theorem select_cons (b : Bool) (bits : List Bool) (x : α) (xs : List α) :
    select (b :: bits) (x :: xs) = (if b then [x] else []) ++ select bits xs := by
  cases b <;> rfl

/-- As many elements are kept as bits are set. -/
theorem length_select : ∀ {bits : List Bool} {xs : List α}, bits.length = xs.length →
    (select bits xs).length = bits.count true
  | [], _, _ => by simp
  | b :: bits, [], h => absurd h (Nat.succ_ne_zero _)
  | b :: bits, x :: xs, h => by
      have ih := length_select (show bits.length = xs.length from Nat.succ.inj h)
      cases b <;> simp [select, ih]

theorem select_append : ∀ {bits : List Bool} {xs : List α} (bits' : List Bool) (ys : List α),
    bits.length = xs.length → select (bits ++ bits') (xs ++ ys) = select bits xs ++ select bits' ys
  | [], [], _, _, _ => by simp
  | [], x :: xs, _, _, h => absurd h (Nat.succ_ne_zero _).symm
  | b :: bits, [], _, _, h => absurd h (Nat.succ_ne_zero _)
  | b :: bits, x :: xs, bits', ys, h => by
      rw [List.cons_append, List.cons_append, select_cons, select_cons,
        select_append bits' ys (Nat.succ.inj h), List.append_assoc]

/-- Out of equal elements equal ones are kept. -/
theorem select_replicate (x : α) : ∀ bits : List Bool,
    select bits (List.replicate bits.length x) = List.replicate (bits.count true) x
  | [] => rfl
  | b :: bits => by
      rw [List.length_cons, List.replicate_succ, select_cons, select_replicate x bits]
      cases b <;> simp [List.replicate_succ]

theorem select_map (f : α → β) : ∀ (bits : List Bool) (xs : List α),
    select bits (xs.map f) = (select bits xs).map f
  | [], xs => by simp
  | b :: bits, [] => by simp
  | b :: bits, x :: xs => by
      rw [List.map_cons, select_cons, select_cons, select_map f bits xs, List.map_append]
      cases b <;> rfl

/-- What is kept was there. -/
theorem mem_of_mem_select {x : α} : ∀ {bits : List Bool} {xs : List α}, x ∈ select bits xs → x ∈ xs
  | [], xs, h => by simp at h
  | b :: bits, [], h => by simp at h
  | b :: bits, y :: ys, h => by
      rw [select_cons, List.mem_append] at h
      rcases h with h | h
      · cases b with
        | false => simp at h
        | true => simp_all
      · exact List.mem_cons_of_mem y (mem_of_mem_select h)

/-- Marking what satisfies a predicate keeps what satisfies it. -/
theorem select_map_self (p : α → Bool) : ∀ xs : List α, select (xs.map p) xs = xs.filter p
  | [] => rfl
  | x :: xs => by
      rw [List.map_cons, select_cons, select_map_self p xs]
      cases h : p x <;> simp [h]

/-! ## Runs -/

/-- The runs, each shortened to its marked values. -/
def selectRuns : List Bool → List (Nat × α) → List (Nat × α)
  | _, [] => []
  | bits, r :: rs =>
      if (bits.take r.1).count true = 0 then selectRuns (bits.drop r.1) rs
      else ((bits.take r.1).count true, r.2) :: selectRuns (bits.drop r.1) rs

/-- Shortened runs stand for the marked values. -/
theorem expand_selectRuns : ∀ {rs : List (Nat × α)} {bits : List Bool},
    bits.length = (expand rs).length → expand (selectRuns bits rs) = select bits (expand rs)
  | [], bits, _ => by simp [selectRuns]
  | r :: rs, bits, h => by
      rw [expand_cons, List.length_append, List.length_replicate] at h
      have hlen : (bits.take r.1).length = r.1 := by
        rw [List.length_take]
        omega
      have hhead : select (bits.take r.1) (List.replicate r.1 r.2) =
          List.replicate ((bits.take r.1).count true) r.2 := by
        have hrep := select_replicate r.2 (bits.take r.1)
        rwa [hlen] at hrep
      have hrest : expand (selectRuns (bits.drop r.1) rs) = select (bits.drop r.1) (expand rs) :=
        expand_selectRuns (by rw [List.length_drop]; omega)
      have hsplit : select bits (expand (r :: rs)) =
          List.replicate ((bits.take r.1).count true) r.2 ++
            expand (selectRuns (bits.drop r.1) rs) := by
        rw [hrest, ← hhead, ← select_append _ _ (by rw [hlen, List.length_replicate]),
          List.take_append_drop, expand_cons]
      rw [selectRuns]
      split
      · next hnone =>
          rw [hsplit, hnone, List.replicate_zero, List.nil_append]
      · rw [hsplit, expand_cons]

/-- A shortened run has at least one value, and no more than before. -/
theorem count_selectRuns {cap : Nat} : ∀ {rs : List (Nat × α)} {bits : List Bool},
    (∀ r ∈ rs, r.1 ≤ cap) → ∀ s ∈ selectRuns bits rs, 1 ≤ s.1 ∧ s.1 ≤ cap
  | [], _, _, s, hs => by cases hs
  | r :: rs, bits, h, s, hs => by
      have hrest : ∀ t ∈ selectRuns (bits.drop r.1) rs, 1 ≤ t.1 ∧ t.1 ≤ cap :=
        count_selectRuns fun t ht => h t (by simp [ht])
      rw [selectRuns] at hs
      split at hs
      · exact hrest s hs
      · next hsome =>
          rcases List.mem_cons.mp hs with rfl | hs
          · have hcount : (bits.take r.1).count true ≤ (bits.take r.1).length :=
              List.count_le_length
            have hr := h r (by simp)
            rw [List.length_take] at hcount
            exact ⟨by omega, by omega⟩
          · exact hrest s hs

/-- The value of a shortened run is that of a run. -/
theorem value_selectRuns : ∀ {rs : List (Nat × α)} {bits : List Bool} {s : Nat × α},
    s ∈ selectRuns bits rs → ∃ r ∈ rs, r.2 = s.2
  | [], _, s, hs => by cases hs
  | r :: rs, bits, s, hs => by
      rw [selectRuns] at hs
      have hrest : s ∈ selectRuns (bits.drop r.1) rs → ∃ r' ∈ r :: rs, r'.2 = s.2 := by
        intro hs
        obtain ⟨r', hr', heq⟩ := value_selectRuns hs
        exact ⟨r', by simp [hr'], heq⟩
      split at hs
      · exact hrest hs
      · rcases List.mem_cons.mp hs with rfl | hs
        · exact ⟨r, by simp, rfl⟩
        · exact hrest hs

end Pointcloud.Base
