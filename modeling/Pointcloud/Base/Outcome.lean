/-
Pointcloud.Base.Outcome — how a run of a C function ends.

A C function either returns, or stops: it reports an error through a
handler that does not come back, it fails an `assert`, or it does
something the language gives no meaning to (an access outside an object,
a null dereference, an undefined shift). `Run α` is the type of such runs;
a fault anywhere makes the whole run a fault, so a run that is `.ok` has
stayed inside its objects throughout. That is how the safety half of a
theorem about a run is stated in this development: `f x = .ok y`.

The second half of the module is the arithmetic of `int` and `uint32_t`:
both wrap around modulo `2 ^ 32`.
-/
import Mathlib.Data.List.Forall2

namespace Pointcloud.Base

/-! ## Runs -/

/-- Why a run did not return a value. -/
inductive Stop where
  /-- Reported through the error handler, which does not return. -/
  | error (msg : String)
  /-- A failed `assert`: the process aborts. -/
  | assertion
  /-- An access outside an object, or an operation without a meaning. -/
  | fault
  deriving DecidableEq, Repr

/-- A run of a C function: the value returned, or the reason it stopped. -/
abbrev Run (α : Type) := Except Stop α

instance {α : Type} [DecidableEq α] : DecidableEq (Run α)
  | .ok a, .ok b => decidable_of_iff (a = b) (by simp)
  | .error s, .error t => decidable_of_iff (s = t) (by simp)
  | .ok _, .error _ => isFalse (by simp)
  | .error _, .ok _ => isFalse (by simp)

/-- An access outside an object. -/
def fault {α : Type} : Run α := .error .fault

/-- An error reported with a message. -/
def raise {α : Type} (msg : String) : Run α := .error (.error msg)

/-- `assert(p)`. -/
def assertThat (p : Prop) [Decidable p] : Run Unit :=
  if p then .ok () else .error .assertion

variable {α β γ : Type}

@[simp] theorem pure_eq_ok (a : α) : (pure a : Run α) = .ok a := rfl

@[simp] theorem ok_bind (a : α) (f : α → Run β) : (Except.ok a >>= f) = f a := rfl

@[simp] theorem error_bind (e : Stop) (f : α → Run β) :
    ((Except.error e : Run α) >>= f) = .error e := rfl

@[simp] theorem fault_bind (f : α → Run β) : ((fault : Run α) >>= f) = fault := rfl

@[simp] theorem raise_bind (msg : String) (f : α → Run β) :
    ((raise msg : Run α) >>= f) = raise msg := rfl

@[simp] theorem ok_ne_fault (a : α) : (Except.ok a : Run α) ≠ fault := by simp [fault]

@[simp] theorem fault_ne_ok (a : α) : (fault : Run α) ≠ .ok a := by simp [fault]

@[simp] theorem raise_ne_ok (msg : String) (a : α) : (raise msg : Run α) ≠ .ok a := by
  simp [raise]

@[simp] theorem assertThat_true {p : Prop} [Decidable p] (h : p) : assertThat p = .ok () := by
  simp [assertThat, h]

/-- A sequence of two runs returns exactly when both do. -/
theorem bind_eq_ok {x : Run α} {f : α → Run β} {b : β} :
    (x >>= f) = .ok b ↔ ∃ a, x = .ok a ∧ f a = .ok b := by
  cases x with
  | ok a => simp
  | error e => simp

/-- The run reports an error. -/
def Raises (x : Run α) : Prop := ∃ msg, x = raise msg

@[simp] theorem raises_raise (msg : String) : Raises (raise msg : Run α) := ⟨msg, rfl⟩

@[simp] theorem not_raises_ok (a : α) : ¬ Raises (Except.ok a : Run α) := by
  simp [Raises, raise]

@[simp] theorem not_raises_fault : ¬ Raises (fault : Run α) := by
  simp [Raises, raise, fault]

/-- An error of a sequence is one of either run. -/
theorem raises_bind {x : Run α} {f : α → Run β} :
    Raises (x >>= f) ↔ Raises x ∨ ∃ a, x = .ok a ∧ Raises (f a) := by
  cases x with
  | ok a => simp
  | error e => simp [Raises, raise]

/-- The run returns, or reports an error: it neither aborts nor does anything that has no
meaning. -/
def Answers (x : Run α) : Prop := (∃ a, x = .ok a) ∨ Raises x

@[simp] theorem answers_ok (a : α) : Answers (Except.ok a : Run α) := .inl ⟨a, rfl⟩

@[simp] theorem answers_raise (msg : String) : Answers (raise msg : Run α) :=
  .inr (raises_raise msg)

@[simp] theorem not_answers_assertion : ¬ Answers (Except.error .assertion : Run α) := by
  simp [Answers, Raises, raise]

@[simp] theorem not_answers_fault : ¬ Answers (fault : Run α) := by
  simp [Answers]

instance : (x : Run α) → Decidable (Answers x)
  | .ok a => isTrue (answers_ok a)
  | .error (.error msg) => isTrue (answers_raise msg)
  | .error .assertion => isFalse not_answers_assertion
  | .error .fault => isFalse not_answers_fault

/-- A sequence answers if its first run does, and what follows on the value of that. -/
theorem answers_bind {x : Run α} {f : α → Run β} :
    Answers (x >>= f) ↔ Answers x ∧ ∀ a, x = .ok a → Answers (f a) := by
  cases x with
  | ok a => simp
  | error e => simp [Answers, Raises, raise]

/-- A run that reports no error answers if it returns. -/
theorem answers_iff_isOk {x : Run α} (h : ¬ Raises x) : Answers x ↔ ∃ a, x = .ok a :=
  or_iff_left h

/-- An assertion passes exactly when its condition holds. -/
theorem assertThat_eq_ok {p : Prop} [Decidable p] {u : Unit} :
    assertThat p = .ok u ↔ p := by
  by_cases h : p <;> simp [assertThat, h]

/-! ## Runs along a list -/

/-- A list of runs that all return, returns the list of their values. -/
theorem mapM_eq_ok_map {f : α → Run β} {g : α → β} :
    ∀ {l : List α}, (∀ a ∈ l, f a = .ok (g a)) → l.mapM f = .ok (l.map g)
  | [], _ => rfl
  | a :: l, h => by
      rw [List.mapM_cons, h a (by simp), ok_bind,
        mapM_eq_ok_map (l := l) (fun b hb => h b (by simp [hb]))]
      rfl

/-- What a list of runs returns, element by element. -/
theorem mapM_eq_ok_iff {f : α → Run β} :
    ∀ {l : List α} {bs : List β},
      l.mapM f = .ok bs ↔ List.Forall₂ (fun a b => f a = .ok b) l bs
  | [], bs => by
      cases bs <;> simp
  | a :: l, bs => by
      rw [List.mapM_cons, bind_eq_ok]
      constructor
      · rintro ⟨b, hb, hrest⟩
        obtain ⟨cs, hcs, hret⟩ := bind_eq_ok.mp hrest
        rw [pure_eq_ok, Except.ok.injEq] at hret
        subst hret
        exact .cons hb (mapM_eq_ok_iff.mp hcs)
      · rintro (_ | ⟨hb, hrest⟩)
        refine ⟨_, hb, ?_⟩
        rw [mapM_eq_ok_iff.mpr hrest]
        rfl

/-- A list of runs returns when every one of them does. -/
theorem mapM_isOk_iff {f : α → Run β} :
    ∀ {l : List α}, (∃ bs, l.mapM f = .ok bs) ↔ ∀ a ∈ l, ∃ b, f a = .ok b
  | [] => by simp
  | a :: l => by
      rw [List.forall_mem_cons, ← mapM_isOk_iff (l := l)]
      constructor
      · rintro ⟨bs, hbs⟩
        cases mapM_eq_ok_iff.mp hbs with
        | cons hb hrest => exact ⟨⟨_, hb⟩, ⟨_, mapM_eq_ok_iff.mpr hrest⟩⟩
      · rintro ⟨⟨b, hb⟩, ⟨bs, hbs⟩⟩
        exact ⟨b :: bs, mapM_eq_ok_iff.mpr (.cons hb (mapM_eq_ok_iff.mp hbs))⟩

/-- A fold of runs returns if every step does, where that does not depend on the state. -/
theorem foldlM_isOk_iff {f : β → α → Run β} {p : α → Prop}
    (h : ∀ b a, (∃ b', f b a = .ok b') ↔ p a) :
    ∀ (l : List α) (b : β), (∃ b', l.foldlM f b = .ok b') ↔ ∀ a ∈ l, p a
  | [], b => iff_of_true ⟨b, rfl⟩ (by simp)
  | a :: l, b => by
      rw [List.foldlM_cons, List.forall_mem_cons, ← h b a]
      constructor
      · rintro ⟨b', hb'⟩
        obtain ⟨mid, hmid, hrest⟩ := bind_eq_ok.mp hb'
        exact ⟨⟨mid, hmid⟩, (foldlM_isOk_iff h l mid).mp ⟨b', hrest⟩⟩
      · rintro ⟨⟨mid, hmid⟩, hrest⟩
        rw [hmid, ok_bind]
        exact (foldlM_isOk_iff h l mid).mpr hrest

/-- Two lists beside the same one, beside each other. -/
theorem forall₂_join {R : α → β → Prop} {S : α → γ → Prop} :
    ∀ {as : List α} {bs : List β} {cs : List γ}, List.Forall₂ R as bs → List.Forall₂ S as cs →
      List.Forall₂ (fun b c => ∃ a, R a b ∧ S a c) bs cs
  | _, _, _, .nil, .nil => .nil
  | a :: _, _, _, .cons hR hRs, .cons hS hSs => .cons ⟨a, hR, hS⟩ (forall₂_join hRs hSs)

/-- Two folds of runs along one list, where every step of the first is followed by one of
the second. -/
theorem foldlM_related {R : β → γ → Prop} {f : β → α → Run β} {g : γ → α → Run γ}
    (h : ∀ a b c b', R b c → f b a = .ok b' → ∃ c', g c a = .ok c' ∧ R b' c') :
    ∀ {l : List α} {b b' : β} {c : γ}, R b c → l.foldlM f b = .ok b' →
      ∃ c', l.foldlM g c = .ok c' ∧ R b' c'
  | [], b, b', c, hR, hf => by
      cases hf
      exact ⟨c, rfl, hR⟩
  | a :: l, b, b', c, hR, hf => by
      rw [List.foldlM_cons] at hf
      obtain ⟨mid, hmid, hrest⟩ := bind_eq_ok.mp hf
      obtain ⟨mid', hmid', hR'⟩ := h a b c mid hR hmid
      obtain ⟨c', hc', hlast⟩ := foldlM_related h hR' hrest
      exact ⟨c', by rw [List.foldlM_cons, hmid', ok_bind, hc'], hlast⟩

/-- What was returned for an element of the list. -/
theorem exists_mem_of_mapM {f : α → Run β} :
    ∀ {l : List α} {bs : List β}, l.mapM f = .ok bs → ∀ a ∈ l, ∃ b ∈ bs, f a = .ok b
  | [], _, _ => by simp
  | a :: l, bs, h => by
      obtain ⟨b, cs, hb, hcs, rfl⟩ := List.forall₂_cons_left_iff.mp (mapM_eq_ok_iff.mp h)
      rw [List.forall_mem_cons]
      refine ⟨⟨b, by simp, hb⟩, fun x hx => ?_⟩
      obtain ⟨c, hc, hxc⟩ := exists_mem_of_mapM (mapM_eq_ok_iff.mpr hcs) x hx
      exact ⟨c, List.mem_cons_of_mem b hc, hxc⟩

/-- What an element that was returned was returned for. -/
theorem exists_mem_of_mem_mapM {f : α → Run β} :
    ∀ {l : List α} {bs : List β}, l.mapM f = .ok bs → ∀ b ∈ bs, ∃ a ∈ l, f a = .ok b
  | [], bs, h => by
      rw [List.forall₂_nil_left_iff.mp (mapM_eq_ok_iff.mp h)]
      simp
  | a :: l, bs, h => by
      obtain ⟨b, cs, hb, hcs, rfl⟩ := List.forall₂_cons_left_iff.mp (mapM_eq_ok_iff.mp h)
      rw [List.forall_mem_cons]
      refine ⟨⟨a, by simp, hb⟩, fun c hc => ?_⟩
      obtain ⟨x, hx, hxc⟩ := exists_mem_of_mem_mapM (mapM_eq_ok_iff.mpr hcs) c hc
      exact ⟨x, List.mem_cons_of_mem a hx, hxc⟩

/-- What is returned for a list, where an element determines it. -/
theorem eq_map_of_mapM {f : α → Run β} {g : α → β} : ∀ {l : List α} {bs : List β},
    (∀ a ∈ l, ∀ b, f a = .ok b → b = g a) → l.mapM f = .ok bs → bs = l.map g
  | [], bs, _, h => List.forall₂_nil_left_iff.mp (mapM_eq_ok_iff.mp h)
  | a :: l, bs, hf, h => by
      obtain ⟨b, cs, hb, hcs, rfl⟩ := List.forall₂_cons_left_iff.mp (mapM_eq_ok_iff.mp h)
      rw [List.map_cons, hf a List.mem_cons_self b hb,
        eq_map_of_mapM (fun a ha => hf a (List.mem_cons_of_mem _ ha)) (mapM_eq_ok_iff.mpr hcs)]

/-- A list beside its own images. -/
theorem zip_map_self (f : α → β) : ∀ l : List α, l.zip (l.map f) = l.map fun a => (a, f a)
  | [] => rfl
  | a :: l => by rw [List.map_cons, List.zip_cons_cons, zip_map_self f l, List.map_cons]

/-- Two lists walked together, where the runs are determined by the first. -/
theorem mapM_zip_eq_ok {R : α → γ → Prop} {f : α × γ → Run β} {g : α → β} :
    ∀ {xs : List α} {ys : List γ}, List.Forall₂ R xs ys →
      (∀ x y, x ∈ xs → R x y → f (x, y) = .ok (g x)) → (xs.zip ys).mapM f = .ok (xs.map g)
  | _, _, .nil, _ => rfl
  | x :: xs, y :: ys, .cons hxy h, hf => by
      rw [List.zip_cons_cons, List.mapM_cons, hf x y (by simp) hxy, ok_bind,
        mapM_zip_eq_ok h fun u v hu huv => hf u v (by simp [hu]) huv]
      rfl

/-- Two lists walked together, where every run returns a value that suits. -/
theorem mapM_forall₂ {R : γ → α → Prop} {S : γ → β → Prop} {f : α → Run β} :
    ∀ {xs : List γ} {ys : List α}, List.Forall₂ R xs ys →
      (∀ x y, x ∈ xs → R x y → ∃ z, f y = .ok z ∧ S x z) →
      ∃ zs, ys.mapM f = .ok zs ∧ List.Forall₂ S xs zs
  | _, _, .nil, _ => ⟨[], rfl, .nil⟩
  | x :: xs, y :: ys, .cons hxy h, hf => by
      obtain ⟨z, hz, hS⟩ := hf x y (by simp) hxy
      obtain ⟨zs, hzs, hrest⟩ := mapM_forall₂ h fun u v hu huv => hf u v (by simp [hu]) huv
      refine ⟨z :: zs, ?_, .cons hS hrest⟩
      rw [List.mapM_cons, hz, ok_bind, hzs]
      rfl

/-- Runs that agree on the elements of a list agree along it. -/
theorem mapM_congr {f g : α → Run β} :
    ∀ {l : List α}, (∀ a ∈ l, f a = g a) → l.mapM f = l.mapM g
  | [], _ => rfl
  | a :: l, h => by
      rw [List.mapM_cons, List.mapM_cons, h a (by simp), mapM_congr fun b hb => h b (by simp [hb])]

/-- A walk over the first indices of a list. -/
theorem mapM_range_take {f : Nat → Run β} {g : α → Run β} {l : List α} :
    ∀ {n : Nat}, n ≤ l.length → (∀ i a, i < n → l[i]? = some a → f i = g a) →
      (List.range n).mapM f = (l.take n).mapM g
  | 0, _, _ => rfl
  | n + 1, hn, h => by
      rw [List.range_succ, List.mapM_append, List.take_succ_eq_append_getElem hn, List.mapM_append,
        mapM_range_take (Nat.le_of_succ_le hn) fun i a hi ha => h i a (by omega) ha, List.mapM_cons,
        List.mapM_cons, h n l[n] (by omega) (List.getElem?_eq_getElem hn)]
      rfl

/-- The first run that does not return is where a walk ends. -/
theorem mapM_eq_error {f : α → Run β} {e : Stop} {a : α} {rest : List α} :
    ∀ {l : List α}, (∀ x ∈ l, ∃ b, f x = .ok b) → f a = .error e →
      (l ++ a :: rest).mapM f = .error e
  | [], _, ha => by
      rw [List.nil_append, List.mapM_cons, ha]
      rfl
  | x :: l, h, ha => by
      obtain ⟨b, hb⟩ := h x (by simp)
      rw [List.cons_append, List.mapM_cons, hb, ok_bind,
        mapM_eq_error (fun y hy => h y (by simp [hy])) ha]
      rfl

/-- An error along a list is one for an element. -/
theorem exists_raises_of_mapM {f : α → Run β} : ∀ {l : List α}, Raises (l.mapM f) →
    ∃ a ∈ l, Raises (f a)
  | [], h => absurd h (not_raises_ok _)
  | a :: l, h => by
      rw [List.mapM_cons, raises_bind] at h
      rcases h with h | ⟨b, -, h⟩
      · exact ⟨a, by simp, h⟩
      · rcases raises_bind.mp h with h | ⟨bs, -, h⟩
        · obtain ⟨x, hx, hraises⟩ := exists_raises_of_mapM h
          exact ⟨x, by simp [hx], hraises⟩
        · exact absurd h (not_raises_ok _)

/-- A walk answers if every run returns that stands in front of the first to report an
error. -/
theorem answers_mapM {f : α → Run β} {p : α → Bool} :
    ∀ {l : List α}, (∀ a ∈ l, Raises (f a) ↔ p a = false) →
      (Answers (l.mapM f) ↔ ∀ a ∈ l.takeWhile p, ∃ b, f a = .ok b)
  | [], _ => by simp
  | a :: l, h => by
      have hrest := answers_mapM (l := l) fun b hb => h b (by simp [hb])
      have ha := h a (by simp)
      rw [List.mapM_cons, answers_bind]
      cases hp : p a with
      | false =>
          -- the error is reported here, whatever comes behind
          obtain ⟨msg, hmsg⟩ := ha.mpr hp
          simp [hp, hmsg]
      | true =>
          have hsilent : ¬ Raises (f a) := fun hraises => by simp [ha.mp hraises] at hp
          rw [List.takeWhile_cons, if_pos hp, List.forall_mem_cons, ← hrest,
            answers_iff_isOk hsilent]
          refine and_congr_right fun hok => ?_
          obtain ⟨b, hb⟩ := hok
          simp [hb, answers_bind]

/-- A list of runs returns one value for each. -/
theorem length_of_mapM_eq_ok {f : α → Run β} {l : List α} {bs : List β}
    (h : l.mapM f = .ok bs) : bs.length = l.length :=
  (mapM_eq_ok_iff.mp h).length_eq.symm

/-! ## Machine integers -/

/-- The value an `int` holds after `x` is stored in it. -/
def int32 (x : Int) : Int := (x + 2147483648) % 4294967296 - 2147483648

/-- The value a `uint32_t` holds after `n` is stored in it. -/
def uint32 (n : Nat) : Nat := n % 4294967296

/-- Numbers in the range of `int` are stored as they are. -/
theorem int32_of_range {x : Int} (hl : -2147483648 ≤ x) (hu : x < 2147483648) :
    int32 x = x := by
  unfold int32
  omega

/-- The same for the counts that an `int` can hold. -/
theorem int32_natCast {n : Nat} (h : n < 2147483648) : int32 (n : Int) = n :=
  int32_of_range (by omega) (by omega)

/-- Numbers below `2 ^ 32` are stored as they are. -/
theorem uint32_of_lt {n : Nat} (h : n < 4294967296) : uint32 n = n := Nat.mod_eq_of_lt h

theorem uint32_lt (n : Nat) : uint32 n < 4294967296 := Nat.mod_lt _ (by decide)

end Pointcloud.Base
