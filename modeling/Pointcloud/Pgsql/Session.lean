/-
Pointcloud.Pgsql.Session — calls of functions of SQL that make patches.

A session calls the functions in any order, with patches that earlier calls have
stored. Each call comes down to one operation on the patches that it reads
(`PatchCall.operation`) and stores what the operation makes, unless the points stay as
they are. `PatchCall.Means` says what a call makes of the sequences of points that its
patches stand for, in terms of what SQL passes to it: names, modes and pcids.
-/
import Pointcloud.Patch.PointSequence
import Pointcloud.Pgsql.Access
import Pointcloud.Pgsql.PcpatchCompress

namespace Pointcloud

open Pointcloud.Base

/-- A call of a function of SQL that makes a patch. -/
inductive PatchCall where
  | patchIn (str : Bytes) (typmod : Option Int)
  | fromPointArray (array : ArrayType)
  | fromPatchArray (array : ArrayType)
  | fromFloatArray (pcid : Nat) (array : FloatArray)
  | compress (serpa : SerializedPatch) (comprIn configIn : List Char)
  | uncompress (serpa : SerializedPatch)
  | range (serpa : SerializedPatch) (first count : Int)
  | filter (serpa : SerializedPatch) (dimName : String) (value1 value2 : ℚ) (mode : Int)
  | sort (serpa : SerializedPatch) (dimName : List String)
  | setpcid (serpa : SerializedPatch) (pcid : Nat) (dflt : ℚ)
  | transform (serpa : SerializedPatch) (pcid : Nat) (dflt : ℚ)

/-- The elements of an array that are not NULL. -/
def elementsOf {S : Type} (en : Endian) (parse : Bytes → Run S) (array : ArrayType) :
    Run (List S) :=
  walkArray en .size array (fun (sers : List S) offset => do
    let element ← elementAt en array.data offset
    let ser ← parse element
    return sers ++ [ser]) []

/-- The patches that a call is given. -/
def PatchCall.inputs (en : Endian) : PatchCall → List SerializedPatch
  | .patchIn _ _ | .fromPointArray _ | .fromFloatArray _ _ => []
  | .fromPatchArray array => (elementsOf en (serializedPatchOf en) array).toOption.getD []
  | .compress serpa _ _ | .uncompress serpa | .range serpa _ _ => [serpa]
  | .filter serpa _ _ _ _ | .sort serpa _ => [serpa]
  | .setpcid serpa _ _ | .transform serpa _ _ => [serpa]

variable (P : Platform) (lookup : Nat → Run (Option PcSchema))

/-- What a call returns, `none` for NULL. -/
def PatchCall.run (S : SortR) : PatchCall → Run (Option SerializedPatch)
  | .patchIn str typmod => do
      let serpatch ← pcpatchIn P lookup str typmod
      return some serpatch
  | .fromPointArray array => pcpatchFromPcpointArray P lookup array
  | .fromPatchArray array => pcpatchFromPcpatchArray P lookup array
  | .fromFloatArray pcid array => do
      let serpatch ← pcpatchFromFloatArray P lookup pcid array
      return some serpatch
  | .compress serpa comprIn configIn => do
      let serpatch ← pcpatchCompress P lookup serpa comprIn configIn
      return some serpatch
  | .uncompress serpa => do
      let serpatch ← pcpatchUncompress P lookup serpa
      return some serpatch
  | .range serpa first count => pcpatchRange P lookup serpa first count
  | .filter serpa dimName value1 value2 mode =>
      pcpatchFilter P lookup serpa dimName value1 value2 mode
  | .sort serpa dimName => do
      let serpatch ← pcpatchSort P lookup S serpa dimName
      return some serpatch
  | .setpcid serpa pcid dflt => do
      let serpatch ← pcpatchSetpcid P lookup serpa pcid dflt
      return some serpatch
  | .transform serpa pcid dflt => pcpatchTransform P lookup serpa pcid dflt

/-! ## Operations -/

/-- The comparison that a mode stands for, with its limits. -/
def comparisonOf (mode : Int) (value1 value2 : ℚ) : Option (PcFiltertype × ℚ × ℚ) :=
  if mode = 0 then some (.lt, value1, value1)
  else if mode = 1 then some (.gt, value1, value1)
  else if mode = 2 then some (.equal, value1, value1)
  else if mode = 3 then some (.between, min value1 value2, max value1 value2)
  else none

/-- The operation that a call comes down to; none where the points stay as they are, or
an error is reported. -/
def PatchCall.operation : PatchCall → Run (Option Operation)
  | .patchIn str _ => do
      let wkb ← pcBytesFromHexbytes str
      let pcid ← pcWkbGetPcid P.endian wkb
      let schema ← schemaFromPcid lookup pcid
      return some (.fromWkb schema wkb)
  | .fromPointArray array => do
      let c ← pointsOfArray P lookup array
      let pl ← pointlistOf c.items
      return some (.fromPointlist pl)
  | .fromPatchArray array => do
      let c ← patchesOfArray P lookup array
      return some (.fromPatchlist c.items)
  | .fromFloatArray pcid array => do
      let pl ← pointlistOfFloats P lookup pcid array
      return some (.fromPointlist pl)
  | .compress _ _ _ => return none
  | .uncompress serpa => do
      let patch ← readPatch P lookup serpa
      return some (.uncompress patch)
  | .range serpa first count => do
      let patch ← readPatch P lookup serpa
      return some (.range patch first count)
  | .filter serpa dimName value1 value2 mode => do
      let patch ← readPatch P lookup serpa
      return do
        let d ← pcSchemaGetDimensionByName patch.schema dimName
        let c ← comparisonOf mode value1 value2
        return Operation.filter patch d.position c.1 c.2.1 c.2.2
  | .sort serpa dimName =>
      if dimName = [] then return none
      else do
        let patch ← readPatch P lookup serpa
        return some (.sort patch dimName)
  | .setpcid serpa pcid dflt => do
      let patch ← readPatch P lookup serpa
      let nschema ← schemaFromPcid lookup pcid
      let same ← pcSchemaSameDimensions patch.schema nschema
      return if same then none else some (.setSchema patch nschema dflt)
  | .transform serpa pcid dflt => do
      let patch ← readPatch P lookup serpa
      let nschema ← schemaFromPcid lookup pcid
      return some (.transform patch nschema dflt)

/-! ## Meaning -/

/-- A value is kept by the filter of a mode: it is below, above or equal to the first
value, or between the two. -/
def modeKeeps (mode : Int) (value1 value2 x : ℚ) : Bool :=
  mode = 0 && x < value1 || mode = 1 && value1 < x || mode = 2 && x = value1 ||
    mode = 3 && min value1 value2 < x && x < max value1 value2

/-- The numbers of one point of an array. -/
def numbersAt (s : PcSchema) (vals : List ℚ) (i : Nat) (dim : PcDimension) : ℚ :=
  vals.getD (i * s.ndims + dim.position) 0

/-- What a call makes of sequences of points. -/
def PatchCall.Means : PatchCall → List PointSequence → PointSequence → Prop
  | .patchIn str _, _, q => ∃ wkb, pcBytesFromHexbytes str = .ok wkb ∧
      Operation.Means P (.fromWkb q.schema wkb) [] q
  | .fromPointArray array, _, q => ∃ serpts,
      elementsOf P.endian (serializedPointOf P.endian) array = .ok serpts ∧
        (∀ serpt ∈ serpts, lookup serpt.pcid = .ok (some q.schema)) ∧
          q.points = serpts.map fun serpt => serpt.data.take q.schema.size
  | .fromPatchArray _, ps, q => (∀ p ∈ ps, p.schema = q.schema) ∧
      q.points = (ps.map PointSequence.points).flatten
  | .fromFloatArray pcid array, _, q => lookup pcid = .ok (some q.schema) ∧
      array.elems.length % q.schema.ndims = 0 ∧
      q.points = (List.range (array.elems.length / q.schema.ndims)).map fun i =>
        (storedPoint P q.schema (numbersAt q.schema array.elems i)).data
  | .compress _ _ _, [p], q | .uncompress _, [p], q => q = p
  | .range _ first count, [p], q => q = ⟨p.schema, sliceOf p.points first count⟩
  | .filter _ dimName value1 value2 mode, [p], q =>
      ∃ dim, pcSchemaGetDimensionByName p.schema dimName = some dim ∧
        q = ⟨p.schema, p.points.filter fun pt =>
          modeKeeps mode value1 value2 (dim.valueIn P.endian pt)⟩
  | .sort _ dimName, [p], q => q.schema = p.schema ∧ q.points.Perm p.points ∧
      ∃ dims, NamesDims p.schema dimName dims ∧ SortedBy P.endian dims q.points
  | .setpcid _ pcid dflt, [p], q => lookup pcid = .ok (some q.schema) ∧
      ∃ same, pcSchemaSameDimensions p.schema q.schema = .ok same ∧
        q.points = if same then p.points else p.points.map (moved P p.schema q.schema dflt)
  | .transform _ pcid dflt, [p], q => lookup pcid = .ok (some q.schema) ∧
      q.points = p.points.map (converted P p.schema q.schema dflt)
  | _, _, _ => False

end Pointcloud
