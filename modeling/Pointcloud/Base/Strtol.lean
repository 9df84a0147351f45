/-
Pointcloud.Base.Strtol — integers in text, and `strtol` with its end pointer.

`strtol` takes as much of a text as makes up an integer, tells where that ends, and
reports an integer that a `long` cannot hold. A text denotes an integer if nothing is
left behind it (`denotes_iff_strtolEnd`).
-/
import Pointcloud.Base.Numeral
import Mathlib.Data.List.TakeWhile

namespace Pointcloud.Base

/-- What `strtol` returns, the text from `endp` on, and whether `errno` is `ERANGE`. -/
structure StrtolResult where
  value : Int
  endp : List Char
  erange : Bool

/-- The integer of a sign and digits. -/
def signedOf (negative : Bool) (ds : List Nat) : Int :=
  if negative then -(ofDigits 10 ds : Int) else ofDigits 10 ds

/-- A `long` can hold an integer. -/
def InLong (v : Int) : Prop := -9223372036854775808 ≤ v ∧ v ≤ 9223372036854775807

instance (v : Int) : Decidable (InLong v) := inferInstanceAs (Decidable (_ ∧ _))

/-- `strtol` to base 10. Without digits nothing is taken, not even white space. -/
def strtolEnd (cs : List Char) : StrtolResult :=
  let (negative, rest) := takeSign (cs.dropWhile isSpace)
  let (ds, rest) := takeDigits 10 rest
  if ds = [] then ⟨0, cs, false⟩
  else
    let v := signedOf negative ds
    ⟨max (-9223372036854775808) (min v 9223372036854775807), rest, !decide (InLong v)⟩

/-- The characters of a sign. -/
def signChars : Option Bool → List Char
  | none => []
  | some true => ['-']
  | some false => ['+']

/-- A text that is an integer: white space, a sign perhaps, and digits. -/
def Denotes (cs : List Char) (v : Int) : Prop :=
  ∃ spaces sign ds, cs = spaces ++ (signChars sign ++ ds) ∧ (∀ c ∈ spaces, isSpace c = true) ∧
    ds ≠ [] ∧ (∀ c ∈ ds, (digitValue 10 c).isSome = true) ∧
    v = signedOf (sign.getD false) (ds.filterMap (digitValue 10))

/-! ## Digits -/

/-- The digits in front of a text. -/
theorem takeDigits_eq (base : Nat) (cs : List Char) :
    takeDigits base cs =
      ((cs.takeWhile fun c => (digitValue base c).isSome).filterMap (digitValue base),
        cs.dropWhile fun c => (digitValue base c).isSome) := by
  induction cs with
  | nil => rfl
  | cons c cs ih =>
      cases hdigit : digitValue base c with
      | none => simp [takeDigits, hdigit]
      | some d => simp [takeDigits, hdigit, ih]

/-- Digits are no white space and no sign. -/
theorem of_digit {c : Char} (h : (digitValue 10 c).isSome = true) :
    isSpace c = false ∧ c ≠ '-' ∧ c ≠ '+' := by
  have hrange : 48 ≤ c.toNat ∧ c.toNat ≤ 57 := by
    unfold digitValue at h
    by_cases hdigit : '0' ≤ c ∧ c ≤ '9'
    · exact hdigit
    · have hnone : ¬ (if 'a' ≤ c ∧ c ≤ 'z' then c.toNat - 87
          else if 'A' ≤ c ∧ c ≤ 'Z' then c.toNat - 55 else 10) < 10 := by
        split_ifs with hlower hupper
        · have hle : 97 ≤ c.toNat := hlower.1
          omega
        · have hle : 65 ≤ c.toNat := hupper.1
          omega
        · omega
      simp only [if_neg hdigit, if_neg hnone, Option.isSome_none] at h
      exact nomatch h
  refine ⟨?_, ?_, ?_⟩
  · simp only [isSpace, decide_eq_false_iff_not]
    omega
  · rintro rfl
    exact absurd hrange (by decide)
  · rintro rfl
    exact absurd hrange (by decide)

theorem takeDigits_of_digits {ds : List Char} (h : ∀ c ∈ ds, (digitValue 10 c).isSome = true) :
    takeDigits 10 ds = (ds.filterMap (digitValue 10), []) := by
  have hall : ds.takeWhile (fun c => (digitValue 10 c).isSome) = ds :=
    List.takeWhile_eq_self_iff.mpr h
  have hnone : ds.dropWhile (fun c => (digitValue 10 c).isSome) = [] :=
    List.dropWhile_eq_nil_iff.mpr h
  rw [takeDigits_eq, hall, hnone]

theorem filterMap_digits_ne_nil {ds : List Char} (hne : ds ≠ [])
    (h : ∀ c ∈ ds, (digitValue 10 c).isSome = true) : ds.filterMap (digitValue 10) ≠ [] := by
  cases ds with
  | nil => exact absurd rfl hne
  | cons c ds =>
      obtain ⟨d, hd⟩ := Option.isSome_iff_exists.mp (h c (by simp))
      simp [hd]

/-! ## Texts that denote integers -/

theorem takeSign_signChars (sign : Option Bool) {ds : List Char}
    (h : ∀ c ∈ ds, (digitValue 10 c).isSome = true) :
    takeSign (signChars sign ++ ds) = (sign.getD false, ds) := by
  cases sign with
  | some negative => cases negative <;> rfl
  | none =>
      cases ds with
      | nil => rfl
      | cons c ds =>
          obtain ⟨-, hminus, hplus⟩ := of_digit (h c (by simp))
          simp [signChars, takeSign, hminus, hplus]

/-- What is taken as a sign is one. -/
theorem exists_sign (cs : List Char) : ∃ sign, cs = signChars sign ++ (takeSign cs).2 := by
  unfold takeSign
  split
  · exact ⟨some true, rfl⟩
  · exact ⟨some false, rfl⟩
  · exact ⟨none, rfl⟩

/-- Behind white space stands something else. -/
theorem dropWhile_spaces {spaces rest : List Char} (h : ∀ c ∈ spaces, isSpace c = true)
    (hrest : ∀ c ∈ rest.head?, isSpace c = false) :
    (spaces ++ rest).dropWhile isSpace = rest := by
  rw [List.dropWhile_append_of_pos h]
  cases rest with
  | nil => rfl
  | cons c rest => simp [hrest c rfl]

/-- Such a text is taken as a whole. -/
theorem strtolEnd_of_denotes {cs : List Char} {v : Int} (h : Denotes cs v) :
    strtolEnd cs = ⟨max (-9223372036854775808) (min v 9223372036854775807), [],
      !decide (InLong v)⟩ := by
  obtain ⟨spaces, sign, ds, rfl, hspaces, hne, hdigits, rfl⟩ := h
  have hfront : ∀ c ∈ (signChars sign ++ ds).head?, isSpace c = false := by
    intro c hc
    cases sign with
    | some negative =>
        cases negative <;> cases hc <;> decide
    | none => exact (of_digit (hdigits c (List.mem_of_head? hc))).1
  simp only [strtolEnd, dropWhile_spaces hspaces hfront, takeSign_signChars sign hdigits,
    takeDigits_of_digits hdigits]
  exact if_neg (filterMap_digits_ne_nil hne hdigits)

/-- A text denotes one integer, if a `long` can hold it. -/
theorem Denotes.unique {cs : List Char} {v w : Int} (hv : Denotes cs v) (hw : Denotes cs w)
    (hlong : InLong v) : v = w := by
  have hsame := (strtolEnd_of_denotes hv).symm.trans (strtolEnd_of_denotes hw)
  simp only [StrtolResult.mk.injEq, hlong, decide_true, Bool.not_true, Bool.false_eq,
    Bool.not_eq_false', decide_eq_true_eq, true_and] at hsame
  have hv' : -9223372036854775808 ≤ v ∧ v ≤ 9223372036854775807 := hlong
  have hw' : -9223372036854775808 ≤ w ∧ w ≤ 9223372036854775807 := hsame.2
  omega

/-- Where digits are taken and nothing is left, the text denotes an integer. -/
theorem denotes_of_strtolEnd {cs : List Char} (hcs : cs ≠ []) (h : (strtolEnd cs).endp = []) :
    ∃ v, Denotes cs v := by
  obtain ⟨sign, hrest⟩ := exists_sign (cs.dropWhile isSpace)
  generalize hds : (takeSign (cs.dropWhile isSpace)).2 = ds at hrest
  simp only [strtolEnd, takeDigits_eq, hds] at h
  split at h
  · exact absurd h hcs
  · next hne =>
      have hdigits : ∀ c ∈ ds, (digitValue 10 c).isSome = true := by
        exact List.dropWhile_eq_nil_iff.mp h
      refine ⟨_, cs.takeWhile isSpace, sign, ds, ?_, fun c hc => List.mem_takeWhile_imp hc, ?_,
        hdigits, rfl⟩
      · rw [← hrest, List.takeWhile_append_dropWhile]
      · rintro rfl
        exact hne rfl

end Pointcloud.Base
