/-
Pointcloud.Base.Traced — runs that note what they do.

A traced run is a run with the list of the steps that it noted before it ended or
stopped. Without the notes it is the run (`run_bind`), and that every noted step has
a property is shown one piece at a time (`all_bind`).
-/
import Pointcloud.Base.Outcome

namespace Pointcloud.Base

/-- A run, and what it noted. -/
structure Traced (ε α : Type) where
  notes : List ε
  run : Run α

namespace Traced

variable {ε α β : Type}

/-- A run that notes nothing. -/
def lift (x : Run α) : Traced ε α := ⟨[], x⟩

/-- A run that is noted as one step, whether it ends or stops. -/
def note (e : ε) (x : Run α) : Traced ε α := ⟨[e], x⟩

/-- Behind a run that stopped nothing is noted. -/
def bind (x : Traced ε α) (f : α → Traced ε β) : Traced ε β :=
  match x.run with
  | .ok a => ⟨x.notes ++ (f a).notes, (f a).run⟩
  | .error e => ⟨x.notes, .error e⟩

instance : Monad (Traced ε) where
  pure a := lift (.ok a)
  bind := bind

/-! ## The run -/

@[simp] theorem run_pure (a : α) : (pure a : Traced ε α).run = .ok a := rfl

@[simp] theorem run_lift (x : Run α) : (lift x : Traced ε α).run = x := rfl

@[simp] theorem run_note (e : ε) (x : Run α) : (note e x).run = x := rfl

@[simp] theorem run_bind (x : Traced ε α) (f : α → Traced ε β) :
    (x >>= f).run = x.run >>= fun a => (f a).run := by
  change (bind x f).run = _
  unfold bind
  cases x.run with
  | ok a => rfl
  | error e => rfl

@[simp] theorem run_ite {c : Prop} [Decidable c] (x y : Traced ε α) :
    (if c then x else y).run = if c then x.run else y.run := by
  split <;> rfl

/-! ## The notes -/

/-- Every noted step has the property. -/
def All (p : ε → Prop) (x : Traced ε α) : Prop := ∀ e ∈ x.notes, p e

variable {p : ε → Prop}

@[simp] theorem all_lift (x : Run α) : All p (lift x : Traced ε α) := by
  simp [All, lift]

@[simp] theorem all_pure (a : α) : All p (pure a : Traced ε α) := all_lift (.ok a)

@[simp] theorem all_note {e : ε} {x : Run α} : All p (note e x) ↔ p e := by
  simp [All, note]

theorem all_bind {x : Traced ε α} {f : α → Traced ε β} :
    All p (x >>= f) ↔ All p x ∧ ∀ a, x.run = .ok a → All p (f a) := by
  change All p (bind x f) ↔ _
  unfold bind All
  cases hrun : x.run with
  | ok a => simp [or_imp, forall_and]
  | error e => simp

/-- What follows on a run that ended is noted behind it. -/
theorem all_lift_bind {x : Run α} {a : α} (h : x = .ok a) {f : α → Traced ε β} :
    All p (lift x >>= f) ↔ All p (f a) := by
  rw [all_bind]
  subst h
  simp

end Traced

end Pointcloud.Base
