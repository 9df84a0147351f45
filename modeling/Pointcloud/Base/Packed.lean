/-
Pointcloud.Base.Packed — slots of which some are empty, and the items of the
others packed behind each other.

`starts` gives every item with the offset at which it begins. A loop over the
slots that moves its offset behind an item, and leaves it alone at an empty
slot, visits the items in turn, each at its start (`foldlM_slots`).
-/
import Pointcloud.Base.Outcome
import Mathlib.Data.List.ReduceOption
import Mathlib.Algebra.BigOperators.Group.List.Basic
import Mathlib.Algebra.GroupWithZero.Nat

namespace Pointcloud.Base

variable {α σ : Type}

/-- The items with their offsets; `room` is what an item takes. -/
def starts (room : α → Nat) : Nat → List α → List (Nat × α)
  | _, [] => []
  | off, a :: as => (off, a) :: starts room (off + room a) as

@[simp] theorem map_snd_starts (room : α → Nat) (off : Nat) (as : List α) :
    (starts room off as).map Prod.snd = as := by
  induction as generalizing off with
  | nil => rfl
  | cons a as ih => rw [starts, List.map_cons, ih]

/-- The loop over the slots, from slot `k` on. An empty slot changes nothing; at the
start of an item `visit` is called, and the offset moves behind the item. -/
theorem foldlM_slots (room : α → Nat) (step : σ × Int → Nat → Run (σ × Int))
    (visit : σ → Nat × α → Run σ) : ∀ {slots : List (Option α)} {k off : Nat} {s : σ},
    (∀ (i : Nat) (st : σ × Int), slots[i]? = some none → step st (k + i) = .ok st) →
    (∀ (i : Nat) (s : σ) (p : Nat × α), slots[i]? = some (some p.2) →
      p ∈ starts room off slots.reduceOption → step (s, (p.1 : Int)) (k + i) = (do
        let s ← visit s p
        return (s, ((p.1 + room p.2 : Nat) : Int)))) →
    (List.range' k slots.length).foldlM step (s, (off : Int)) = (do
      let s ← (starts room off slots.reduceOption).foldlM visit s
      return (s, ((off + (slots.reduceOption.map room).sum : Nat) : Int)))
  | [], _, _, _, _, _ => rfl
  | none :: slots, k, off, s, hempty, hitem => by
      have hskip : step (s, (off : Int)) k = .ok (s, (off : Int)) := hempty 0 _ rfl
      rw [List.length_cons, List.range'_succ, List.foldlM_cons, hskip, ok_bind,
        List.reduceOption_cons_of_none]
      refine foldlM_slots room step visit (fun i st h => ?_) fun i s p h hp => ?_
      · rw [Nat.add_assoc, Nat.add_comm 1]
        exact hempty (i + 1) st h
      · rw [Nat.add_assoc, Nat.add_comm 1]
        exact hitem (i + 1) s p h (by rwa [List.reduceOption_cons_of_none])
  | some a :: slots, k, off, s, hempty, hitem => by
      have hvisit : step (s, (off : Int)) k = (do
          let s ← visit s (off, a)
          return (s, ((off + room a : Nat) : Int))) :=
        hitem 0 s (off, a) rfl (by simp [starts])
      rw [List.length_cons, List.range'_succ, List.foldlM_cons, hvisit,
        List.reduceOption_cons_of_some, starts, List.foldlM_cons, List.map_cons, List.sum_cons]
      cases visit s (off, a) with
      | error e => rfl
      | ok s' =>
          rw [ok_bind, pure_eq_ok, ok_bind, ok_bind, ← Nat.add_assoc]
          refine foldlM_slots room step visit (fun i st h => ?_) fun i s p h hp => ?_
          · rw [Nat.add_assoc, Nat.add_comm 1]
            exact hempty (i + 1) st h
          · rw [Nat.add_assoc, Nat.add_comm 1]
            refine hitem (i + 1) s p h ?_
            rw [List.reduceOption_cons_of_some, starts]
            exact List.mem_cons_of_mem _ hp

/-- A walk whose every visit adds what stands for the item collects all of these. -/
theorem foldlM_collect {β : Type} {visit : σ → α → Run σ} {made : σ → List β → Prop}
    {R : α → β → Prop} (hvisit : ∀ s bs a b, made s bs → R a b →
      ∃ s', visit s a = .ok s' ∧ made s' (bs ++ [b])) :
    ∀ {as : List α} {bs : List β} {s : σ} {ds : List β}, List.Forall₂ R as bs → made s ds →
      ∃ s', as.foldlM visit s = .ok s' ∧ made s' (ds ++ bs)
  | _, _, s, ds, .nil, hs => ⟨s, rfl, by rwa [List.append_nil]⟩
  | _, _, s, ds, .cons hab hrest, hs => by
      obtain ⟨s', hok, hs'⟩ := hvisit s _ _ _ hs hab
      obtain ⟨s'', hrun, hs''⟩ := foldlM_collect hvisit hrest hs'
      refine ⟨s'', ?_, ?_⟩
      · rw [List.foldlM_cons, hok, ok_bind, hrun]
      · rwa [List.append_assoc, List.singleton_append] at hs''

end Pointcloud.Base
