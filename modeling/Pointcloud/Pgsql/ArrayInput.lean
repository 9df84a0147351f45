/-
Pointcloud.Pgsql.ArrayInput — arrays of points, of patches and of text
(`pc_access.c`).

PostgreSQL keeps the elements of an array that are not NULL behind each other,
each at a multiple of four bytes, and a bitmap of which ones there are; an array
without a bitmap has no NULL. Three functions walk over such an array. They have
one loop, which is `walkArray` here, and differ in what they do with an element
and in the type of their offset. An element is as many bytes as its length word
counts.
-/
import Pointcloud.Base.Packed
import Pointcloud.Patch.Edit
import Pointcloud.Pgsql.Serialize

namespace Pointcloud

open Pointcloud.Base

/-! ## Arrays -/

/-- `ArrayType`: the number of elements that `ArrayGetNItems` gives, the bitmap and
the memory behind `ARR_DATA_PTR`. The length of an array has thirty bits, and
`MaxArraySize` elements are allowed. -/
structure ArrayType where
  nelems : Nat
  nullbitmap : Option Bytes
  data : Bytes
  nelems_lt : nelems < 134217728
  data_lt : data.length < 1073741824

/-- `INTALIGN`. -/
def intAlign (len : Nat) : Nat := (len + 3) / 4 * 4

/-- `array_get_isnull`. -/
def arrayGetIsnull (nullbitmap : Option Bytes) (offset : Nat) : Run Bool :=
  match nullbitmap with
  | none => .ok false
  | some bitmap => do
      let byte ← wordAt bitmap (offset / 8)
      return byte.toNat &&& (1 <<< (offset % 8)) == 0

/-- The element at an offset. -/
def elementAt (en : Endian) (data : Bytes) (offset : Int) : Run Bytes := do
  let word ← readAt data offset 4
  readAt data offset (varsize en (en.natOf word))

/-- The type of an offset: `size_t`, or `int`. -/
inductive OffsetType where
  | size
  | int

/-- The offset that is stored for `x`. -/
def OffsetType.store : OffsetType → Int → Int
  | .size, x => sizeT x
  | .int, x => int32 x

/-- The loop over an array. Only an element that is not NULL is visited and passed. -/
def walkArray {σ : Type} (en : Endian) (type : OffsetType) (array : ArrayType)
    (visit : σ → Int → Run σ) (init : σ) : Run σ := do
  let last ← (List.range array.nelems).foldlM (fun (st : σ × Int) i => do
    let isnull ← arrayGetIsnull array.nullbitmap i
    if isnull then return st
    else
      let next ← visit st.1 st.2
      let element ← elementAt en array.data st.2
      return (next, type.store (st.2 + intAlign element.length))) (init, 0)
  return last.1

/-! ## Points -/

/-- `SERIALIZED_POINT`. -/
structure SerializedPoint where
  size : Nat
  pcid : Nat
  data : Bytes

/-- `sizeof(SERIALIZED_POINT)`. -/
def sizeofSerializedPoint : Nat := 12

/-- The bytes of an element as a point. -/
def serializedPointOf (en : Endian) (element : Bytes) : Run SerializedPoint := do
  let size ← readAt element 0 4
  let pcid ← readAt element 4 4
  return ⟨en.natOf size, en.natOf pcid, element.drop 8⟩

/-- `pc_point_deserialize`. -/
def pcPointDeserialize (en : Endian) (serpt : SerializedPoint) (schema : PcSchema) : Run PcPoint :=
  let pgsize := sizeT ((varsize en serpt.size : Int) + 1 - sizeofSerializedPoint)
  if schema.size ≠ pgsize then raise "schema size and disk size mismatch, repair the schema"
  else pcPointFromData schema serpt.data 0

/-- The bytes of an element as a patch. -/
def serializedPatchOf (en : Endian) (element : Bytes) : Run SerializedPatch := do
  let size ← readAt element 0 4
  let pcid ← readAt element 4 4
  let compression ← readAt element 8 4
  let npoints ← readAt element 12 4
  let xmin ← pcDoubleFromPtr en element 16 .double
  let xmax ← pcDoubleFromPtr en element 24 .double
  let ymin ← pcDoubleFromPtr en element 32 .double
  let ymax ← pcDoubleFromPtr en element 40 .double
  return {
    size := en.natOf size
    pcid := en.natOf pcid
    compression := en.natOf compression
    npoints := en.natOf npoints
    bounds := ⟨xmin, xmax, ymin, ymax⟩
    data := element.drop offsetofData }

/-! ## Points and patches of one schema -/

variable (P : Platform) (lookup : Nat → Run (Option PcSchema))

/-- `schema`, `pcid` and what has been deserialized. -/
structure Collected (α : Type) where
  schema : Option PcSchema
  pcid : Nat
  items : List α

/-- An element that is not NULL. The schema is looked up once, for the first one. -/
def collectElement {S α : Type} (func : String) (parse : Bytes → Run S) (pcidOf : S → Nat)
    (deserialize : S → PcSchema → Run α) (array : ArrayType) (c : Collected α) (offset : Int) :
    Run (Collected α) := do
  let element ← elementAt P.endian array.data offset
  let ser ← parse element
  let schema ← (match c.schema with
    | some schema => .ok (some schema)
    | none => lookup (pcidOf ser))
  if c.pcid ≠ 0 ∧ c.pcid ≠ pcidOf ser then
    raise (func ++ ": pcid mismatch (" ++ toString (int32 (pcidOf ser)) ++ " != " ++
      toString (int32 c.pcid) ++ ")")
  else
    match schema with
    | none => fault
    | some s => do
        let item ← deserialize ser s
        return ⟨some s, if c.pcid = 0 then pcidOf ser else c.pcid, c.items ++ [item]⟩

/-- The loop of `pcpatch_from_point_array`. -/
def pointsOfArray (array : ArrayType) : Run (Collected PcPoint) :=
  walkArray P.endian .size array
    (collectElement P lookup "pcpatch_from_point_array" (serializedPointOf P.endian)
      SerializedPoint.pcid (pcPointDeserialize P.endian) array) ⟨none, 0, []⟩

/-- The loop of `pcpatch_from_patch_array`. -/
def patchesOfArray (array : ArrayType) : Run (Collected PcPatch) :=
  walkArray P.endian .size array
    (collectElement P lookup "pcpatch_from_patch_array" (serializedPatchOf P.endian)
      SerializedPatch.pcid (pcPatchDeserialize P) array) ⟨none, 0, []⟩

/-- Points in the order in which they were added. -/
def pointlistOf (pts : List PcPoint) : Run PcPointlist :=
  if h : (pts.map some).length < 4294967296 then .ok ⟨pts.map some, h⟩ else fault

/-- `pcpatch_from_point_array`; `none` is the null pointer. -/
def pcpatchFromPointArray (array : ArrayType) : Run (Option PcPatchUncompressed) :=
  if array.nelems = 0 then return none
  else do
    let _ ← pcalloc (8 * array.nelems)
    let c ← pointsOfArray P lookup array
    if c.items = [] then return none
    else
      let pl ← pointlistOf c.items
      let pa ← pcPatchUncompressedFromPointlist P pl
      return some pa

/-- `pcpatch_from_patch_array`. -/
def pcpatchFromPatchArray (array : ArrayType) : Run (Option PcPatchUncompressed) :=
  if array.nelems = 0 then return none
  else do
    let _ ← pcalloc (8 * array.nelems)
    let c ← patchesOfArray P lookup array
    if c.items = [] then return none
    else
      let pa ← pcPatchFromPatchlist P c.items
      return some pa

/-! ## Text -/

/-- `text_to_cstring`, without the null byte at its end. -/
def textToCstring (text : Bytes) : Bytes := text.drop 4

/-- `array_to_cstring_array`: the strings, where `none` is the null pointer, and their
number. -/
def arrayToCstringArray (en : Endian) (array : ArrayType) : Run (Option (List Bytes) × Nat) := do
  let _ ← pcalloc (8 * array.nelems)
  let cstring ← walkArray en .int array (fun (cstring : List Bytes) offset => do
    let text ← elementAt en array.data offset
    return cstring ++ [textToCstring text]) []
  return (if array.nelems = 0 then none else some cstring, cstring.length)

end Pointcloud
