/-
Pointcloud.Base.Numeral — numbers read from text, as `strtol` and `strtod` of
the C library read them.

Both skip white space, take an optional sign and then as many characters as
make up a number, and pay no attention to what follows. Text without a number
is zero. A double is read as the 64 bits of its word; a NaN is one of them.
-/
import Pointcloud.Base.Ieee754
import Pointcloud.Base.Outcome

namespace Pointcloud.Base

/-- `isspace`. -/
def isSpace (c : Char) : Bool := c.toNat = 32 ∨ 9 ≤ c.toNat ∧ c.toNat ≤ 13

/-- The value of a character as a digit. -/
def digitValue (base : Nat) (c : Char) : Option Nat :=
  let d :=
    if '0' ≤ c ∧ c ≤ '9' then c.toNat - 48
    else if 'a' ≤ c ∧ c ≤ 'z' then c.toNat - 87
    else if 'A' ≤ c ∧ c ≤ 'Z' then c.toNat - 55
    else base
  if d < base then some d else none

/-- The digits in front of a text, and what follows them. -/
def takeDigits (base : Nat) : List Char → List Nat × List Char
  | [] => ([], [])
  | c :: cs =>
      match digitValue base c with
      | some d => (d :: (takeDigits base cs).1, (takeDigits base cs).2)
      | none => ([], c :: cs)

/-- The number that digits stand for. -/
def ofDigits (base : Nat) (ds : List Nat) : Nat := ds.foldl (fun n d => n * base + d) 0

/-- Whether there is a minus sign, and what follows the sign. -/
def takeSign : List Char → Bool × List Char
  | '-' :: cs => (true, cs)
  | '+' :: cs => (false, cs)
  | cs => (false, cs)

/-! ## Integers -/

/-- `strtol` to base 10. -/
def strtol (cs : List Char) : Int :=
  let (negative, cs) := takeSign (cs.dropWhile isSpace)
  let n : Int := ofDigits 10 (takeDigits 10 cs).1
  let n := if negative then -n else n
  max (-9223372036854775808) (min n 9223372036854775807)

/-- `atoi`. -/
def atoi (s : String) : Int := int32 (strtol s.toList)

example : atoi " +12 points" = 12 ∧ atoi "-7" = -7 ∧ atoi "x" = 0 := by decide +kernel

/-! ## Doubles -/

/-- The number made up of digits and at most one point in front of a text, and what
follows it. -/
def takeMantissa (base : Nat) (cs : List Char) : Option (ℚ × List Char) :=
  let (whole, rest) := takeDigits base cs
  match rest with
  | '.' :: rest =>
      let (part, rest) := takeDigits base rest
      if whole = [] ∧ part = [] then none
      else some ((ofDigits base (whole ++ part) : ℚ) / base ^ part.length, rest)
  | rest => if whole = [] then none else some (ofDigits base whole, rest)

/-- The exponent behind a letter; zero if there is none. -/
def takeExponent (letter : Char) : List Char → Int
  | [] => 0
  | c :: cs =>
      if c.toLower = letter then
        let (negative, cs) := takeSign cs
        let e : Int := ofDigits 10 (takeDigits 10 cs).1
        if negative then -e else e
      else 0

/-- The words of an infinity and of a NaN. -/
def infinityWord : Nat := 0x7ff0000000000000
def nanWord : Nat := 0x7ff8000000000000

/-- A number to base 16 behind `0x`. -/
def takeHexadecimal : List Char → Option ℚ
  | '0' :: x :: cs =>
      if x.toLower = 'x' then
        (takeMantissa 16 cs).map fun (m, rest) => m * (2 : ℚ) ^ takeExponent 'p' rest
      else none
  | _ => none

/-- The word in front of a text without a sign. -/
def takeDouble (cs : List Char) : Option Nat :=
  let letters := (cs.take 3).map Char.toLower
  if letters = ['i', 'n', 'f'] then some infinityWord
  else if letters = ['n', 'a', 'n'] then some nanWord
  else
    match takeHexadecimal cs with
    | some x => some (ieeeEncode 11 52 x)
    | none => (takeMantissa 10 cs).map fun (m, rest) =>
        ieeeEncode 11 52 (m * (10 : ℚ) ^ takeExponent 'e' rest)

/-- `strtod`. -/
def strtod (cs : List Char) : Nat :=
  let (negative, cs) := takeSign (cs.dropWhile isSpace)
  match takeDouble cs with
  | some word => if negative then 2 ^ 63 + word else word
  | none => 0

/-- `atof`. -/
def atof (s : String) : Nat := strtod s.toList

/-- The word is a zero, of either sign. -/
def IsZeroWord (word : Nat) : Prop := word % 2 ^ 63 = 0

instance (word : Nat) : Decidable (IsZeroWord word) := by
  unfold IsZeroWord
  exact inferInstance

example : atof "-1.5e1 m" = ieeeEncode 11 52 (-15) ∧ atof "0x.8" = ieeeEncode 11 52 (1 / 2) ∧
    IsZeroWord (atof "-0.0") ∧ ¬ IsZeroWord (atof "-inf") := by decide +kernel

end Pointcloud.Base
