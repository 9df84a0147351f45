/-
Pointcloud.Pgsql.Typmod — the type modifier of a column (`pc_inout.c`, `pc_pgsql.c`).

A column of points or patches may be declared with a pcid, which PostgreSQL keeps as a
signed number of 32 bits; -1 stands for no modifier. Of the number, 16 bits are the pcid.
-/
import Pointcloud.Base.Strtol
import Pointcloud.Base.Word

namespace Pointcloud

open Pointcloud.Base

/-- The array of the modifiers of a declaration, as `pc_typmod_in` looks at it. -/
structure TypmodArray where
  isCstring : Bool
  ndim : Nat
  hasnull : Bool
  elements : List String

/-- An array of a single string. -/
def TypmodArray.single (s : String) : TypmodArray := ⟨true, 1, false, [s]⟩

/-- The first element of the array: the number that it is cast to. -/
def typmodOfElement (s : String) : Run Nat :=
  let result := strtolEnd s.toList
  let typmod := (result.value % 4294967296).toNat
  -- the pointers are the same if nothing was taken
  if result.endp.length = s.toList.length then
    raise ("invalid input syntax for type uint32: \"" ++ s ++ "\"")
  -- an unsigned number of 32 bits is never out of its own range
  else if result.erange ∨ typmod < 0 ∨ 4294967295 < typmod then
    raise ("value \"" ++ s ++ "\" is out of range for type uint32")
  else if result.endp ≠ [] then raise ("invalid input syntax for type uint32: \"" ++ s ++ "\"")
  else .ok typmod

/-- `pc_typmod_in`. -/
def pcTypmodIn (arr : TypmodArray) : Run Int := do
  if ¬ arr.isCstring then raise "typmod array must be type cstring[]"
  else if arr.ndim ≠ 1 then raise "typmod array must be one-dimensional"
  else if arr.hasnull then raise "typmod array must not contain nulls"
  else if 1 < arr.elements.length then raise "typmod array must have one element"
  else
    match arr.elements.head? with
    | none => return 0
    | some s => do
        let typmod ← typmodOfElement s
        return int32 typmod

/-- `pcid_from_typmod`. -/
def pcidFromTypmod (typmod : Int) : Nat := if typmod = -1 then 0 else (typmod % 65536).toNat

/-- `pc_typmod_out`. -/
def pcTypmodOut (typmod : Int) : String :=
  let pcid := pcidFromTypmod typmod
  if pcid = 0 then "" else "(" ++ toString pcid ++ ")"

/-- `pc_typmod_pcid`. -/
def pcTypmodPcid (typmod : Int) : Option Nat :=
  let pcid := pcidFromTypmod typmod
  if pcid = 0 then none else some pcid

/-- `pcid_consistent`. -/
def pcidConsistent (pcid columnPcid : Nat) : Run Unit :=
  if columnPcid ≠ 0 ∧ pcid ≠ columnPcid then
    raise ("point/patch pcid (" ++ toString pcid ++ ") does not match column pcid (" ++
      toString (int32 columnPcid) ++ ")")
  else .ok ()

end Pointcloud
