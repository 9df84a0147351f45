/-
Pointcloud.Base.Derivation — what can be made step by step.

A step is given some things that were made before and makes one more. What
can be made by steps that meet a condition is what they give from nothing: an
invariant of these steps holds of all of it. The steps of a derivation may
come in any order in which each has what it is given, so nothing is said
about the order.

Steps may also have a meaning: what they make of what the given things stand
for. Where every step keeps a relation between things and what they stand for,
each derivation is simulated by one of meanings with the same steps.
-/
import Mathlib.Data.List.Forall2

namespace Pointcloud.Base

variable {ι α : Type} (inputs : ι → List α) (gives : ι → α → Prop)

/-- What steps that meet the condition can make. -/
inductive Derivable (meets : ι → Prop) : α → Prop where
  | step {i : ι} {a : α} (hmeets : meets i) (hinputs : ∀ b ∈ inputs i, Derivable meets b)
      (hgives : gives i a) : Derivable meets a

variable {inputs gives} {meets : ι → Prop}

/-- What every step keeps holds of all that can be made. -/
theorem Derivable.invariant {Inv : α → Prop}
    (hstep : ∀ i a, meets i → gives i a → (∀ b ∈ inputs i, Inv b) → Inv a) {a : α}
    (h : Derivable inputs gives meets a) : Inv a := by
  induction h with
  | step hmeets _ hgives ih => exact hstep _ _ hmeets hgives ih

/-! ## Simulation -/

section Simulation

variable {β : Type} (means : ι → List β → β → Prop)

/-- What steps that meet the condition can make, with what it stands for: the meaning
of the last step, of what its things stand for. -/
inductive DerivableAs (inputs : ι → List α) (gives : ι → α → Prop) (meets : ι → Prop) :
    α → β → Prop where
  | step {i : ι} {a : α} {b : β} {bs : List β} (hmeets : meets i)
      (hinputs : List.Forall₂ (DerivableAs inputs gives meets) (inputs i) bs)
      (hgives : gives i a) (hmeans : means i bs b) : DerivableAs inputs gives meets a b

/-- Everything in a list has something that it stands for where the list has. -/
theorem exists_forall₂_iff {R : α → β → Prop} {as : List α} :
    (∃ bs, List.Forall₂ R as bs) ↔ ∀ a ∈ as, ∃ b, R a b := by
  induction as with
  | nil => simp
  | cons a as ih =>
      rw [List.forall_mem_cons, ← ih]
      constructor
      · rintro ⟨bs, h⟩
        obtain ⟨b, bs', hb, hbs, -⟩ := List.forall₂_cons_left_iff.mp h
        exact ⟨⟨b, hb⟩, bs', hbs⟩
      · rintro ⟨⟨b, hb⟩, bs, hbs⟩
        exact ⟨b :: bs, .cons hb hbs⟩

variable {means}

/-- A relation that every step keeps holds between all that can be made and something
that it stands for. -/
theorem Derivable.simulated {R : α → β → Prop}
    (hstep : ∀ i a bs, meets i → gives i a → List.Forall₂ R (inputs i) bs →
      ∃ b, means i bs b ∧ R a b) {a : α} (h : Derivable inputs gives meets a) :
    ∃ b, DerivableAs means inputs gives meets a b ∧ R a b := by
  induction h with
  | step hmeets _ hgives ih =>
      obtain ⟨bs, hbs⟩ := exists_forall₂_iff.mpr ih
      obtain ⟨b, hmeans, hb⟩ := hstep _ _ bs hmeets hgives (hbs.imp fun _ _ h => h.2)
      exact ⟨b, .step hmeets (hbs.imp fun _ _ h => h.1) hgives hmeans, hb⟩

end Simulation

end Pointcloud.Base
