/-
Pointcloud.Schema — dimensions and schemas (`pc_schema.c`, `pc_api.h`).

A schema describes the layout of a point: its dimensions in order, each with
the type of its stored number, the byte offset at which it lies, and the
scale and offset that turn the stored number into a value.

`PcSchema` is the schema as the rest of the library relies on it: dimension
`i` is at position `i`, every interpretation is known, sizes and byte offsets
follow from the interpretations (`pc_schema_calculate_byteoffsets`). These
relations are fields of the structure. A pointer to a dimension of the schema
(`xdim`, `ydim`, an entry of the name table) is the position of that
dimension.

Scales and offsets are read as exact rationals, as are all doubles here.
-/
import Pointcloud.Base.Outcome
import Pointcloud.Hashtable
import Mathlib.Algebra.Order.Field.Rat
import Mathlib.Data.List.Basic

namespace Pointcloud

open Pointcloud.Base

/-! ## Interpretations -/

/-- `enum INTERPRETATIONS`: the type of a stored number. -/
inductive Interpretation where
  | unknown
  | int8
  | uint8
  | int16
  | uint16
  | int32
  | uint32
  | int64
  | uint64
  | double
  | float
  deriving DecidableEq, Repr

/-- The number of an interpretation. -/
def Interpretation.code : Interpretation → Nat
  | .unknown => 0
  | .int8 => 1
  | .uint8 => 2
  | .int16 => 3
  | .uint16 => 4
  | .int32 => 5
  | .uint32 => 6
  | .int64 => 7
  | .uint64 => 8
  | .double => 9
  | .float => 10

/-- `pc_interpretation_size`. The table has `-1` for an unknown type, which
`size_t` holds as its largest value. -/
def Interpretation.size : Interpretation → Nat
  | .unknown => 18446744073709551615
  | .int8 | .uint8 => 1
  | .int16 | .uint16 => 2
  | .int32 | .uint32 | .float => 4
  | .int64 | .uint64 | .double => 8

/-- The widths in use. -/
theorem Interpretation.size_cases {i : Interpretation} (h : i ≠ .unknown) :
    i.size = 1 ∨ i.size = 2 ∨ i.size = 4 ∨ i.size = 8 := by
  cases i <;> simp_all [size]

theorem Interpretation.size_pos (i : Interpretation) : 0 < i.size := by
  cases i <;> simp [size]

theorem Interpretation.size_le {i : Interpretation} (h : i ≠ .unknown) : i.size ≤ 8 := by
  rcases size_cases h with h | h | h | h <;> omega

/-! ## Compressions of a patch -/

/-- `enum COMPRESSIONS`: how the points of a patch are stored. -/
inductive PcCompression where
  | none
  | dimensional
  | lazperf
  /-- A number that is none of these. -/
  | unknown (code : Nat)
  deriving DecidableEq, Repr

/-- The compression with a given number. -/
def PcCompression.ofCode : Nat → PcCompression
  | 0 => .none
  | 1 => .dimensional
  | 2 => .lazperf
  | code => .unknown code

/-- The number of a compression. -/
def PcCompression.code : PcCompression → Nat
  | .none => 0
  | .dimensional => 1
  | .lazperf => 2
  | .unknown code => code

/-! ## Dimensions and schemas -/

/-- `PCDIMENSION`. -/
structure PcDimension where
  name : Option String
  position : Nat
  size : Nat
  byteoffset : Nat
  interpretation : Interpretation
  scale : ℚ
  offset : ℚ
  deriving DecidableEq, Repr

/-- The bytes that the dimensions take together. -/
def sizeOfDims (dims : List PcDimension) : Nat := (dims.map PcDimension.size).sum

/-- `PCSCHEMA`, with the relations between its fields. `namehash` lists the
entries of the name table in the order in which a search meets them. -/
structure PcSchema where
  pcid : Nat
  srid : Nat
  dims : List PcDimension
  size : Nat
  xdim : Option Nat
  ydim : Option Nat
  compression : PcCompression
  namehash : List (String × Nat)
  pcid_lt : pcid < 4294967296
  size_lt : size < 4294967296
  dims_ne : dims ≠ []
  /-- Every type is known, and the size is that of the type. -/
  known : ∀ d ∈ dims, d.interpretation ≠ .unknown ∧ d.size = d.interpretation.size
  /-- A dimension stands at its own position. -/
  position_eq : ∀ i (h : i < dims.length), dims[i].position = i
  /-- A dimension lies behind the ones in front of it. -/
  byteoffset_eq : ∀ i (h : i < dims.length), dims[i].byteoffset = sizeOfDims (dims.take i)
  size_eq : size = sizeOfDims dims
  xdim_lt : ∀ i ∈ xdim, i < dims.length
  ydim_lt : ∀ i ∈ ydim, i < dims.length
  namehash_lt : ∀ e ∈ namehash, e.2 < dims.length

/-- The x and y dimensions are there (`pc_schema_is_valid`). -/
def PcSchema.Valid (s : PcSchema) : Prop := s.xdim.isSome ∧ s.ydim.isSome

/-- `ndims`. -/
def PcSchema.ndims (s : PcSchema) : Nat := s.dims.length

/-- `pc_schema_get_dimension_by_name`. -/
def pcSchemaGetDimensionByName (s : PcSchema) (name : String) : Option PcDimension :=
  (s.namehash.find? fun e => sameName name e.1).bind fun e => s.dims[e.2]?

/-- The dimension of a schema that has the name of another dimension; hashing a
null name has no meaning. -/
def pcSchemaGetDimensionLike (s : PcSchema) (dim : PcDimension) : Run (Option PcDimension) :=
  match dim.name with
  | none => fault
  | some name => .ok (pcSchemaGetDimensionByName s name)

/-- The name table that setting dimensions makes. -/
def nameEntries (dims : List PcDimension) : List (String × Nat) :=
  enterAll nameLimits (dims.filterMap fun d => d.name.map fun name => (name, d.position))

/-- `pc_schema_clone`. The dimensions are set in the order of their positions. -/
def pcSchemaClone (s : PcSchema) : PcSchema :=
  { s with
    namehash := nameEntries s.dims
    namehash_lt := by
      intro e he
      simp only [nameEntries, (enterAll_perm _).mem_iff, List.mem_filterMap, Option.map_eq_some_iff]
        at he
      obtain ⟨d, hd, name, -, rfl⟩ := he
      obtain ⟨i, hi, rfl⟩ := List.mem_iff_getElem.mp hd
      rw [s.position_eq i hi]
      exact hi }

/-! ## Schemas compared -/

/-- The loop of `pc_schema_same_dimensions`. -/
def sameDimensionsLoop : List (PcDimension × PcDimension) → Run Bool
  | [] => .ok true
  | (dim1, dim2) :: rest =>
      match dim1.name, dim2.name with
      | some name1, some name2 =>
          if ¬ sameName name1 name2 then .ok false
          else if dim1.interpretation ≠ dim2.interpretation then .ok false
          else sameDimensionsLoop rest
      | _, _ => fault

/-- `pc_schema_same_dimensions`. -/
def pcSchemaSameDimensions (s1 s2 : PcSchema) : Run Bool :=
  if s1.ndims ≠ s2.ndims then .ok false else sameDimensionsLoop (s1.dims.zip s2.dims)

/-- The loop of `pc_schema_same_interpretations`. -/
def sameInterpretationsLoop (s1 : PcSchema) : List PcDimension → Run Bool
  | [] => .ok true
  | dim2 :: rest => do
      match ← pcSchemaGetDimensionLike s1 dim2 with
      | none => sameInterpretationsLoop s1 rest
      | some dim1 =>
          if dim1.interpretation ≠ dim2.interpretation then return false
          else if dim1.scale ≠ dim2.scale then return false
          else if dim1.offset ≠ dim2.offset then return false
          else sameInterpretationsLoop s1 rest

/-- `pc_schema_same_interpretations`. -/
def pcSchemaSameInterpretations (s1 s2 : PcSchema) : Run Bool :=
  if s1.srid ≠ s2.srid then .ok false else sameInterpretationsLoop s1 s2.dims

/-! ## The layout of a point -/

theorem sizeOfDims_append (ds es : List PcDimension) :
    sizeOfDims (ds ++ es) = sizeOfDims ds + sizeOfDims es := by
  simp [sizeOfDims]

theorem sizeOfDims_take_succ {dims : List PcDimension} {i : Nat} (h : i < dims.length) :
    sizeOfDims (dims.take (i + 1)) = sizeOfDims (dims.take i) + dims[i].size := by
  rw [List.take_succ_eq_append_getElem h, sizeOfDims_append]
  simp [sizeOfDims]

theorem sizeOfDims_take_le (dims : List PcDimension) (i : Nat) :
    sizeOfDims (dims.take i) ≤ sizeOfDims dims := by
  conv_rhs => rw [← List.take_append_drop i dims, sizeOfDims_append]
  omega

/-- A dimension of the schema has a known type and the size of that type. -/
theorem PcSchema.dim_known (s : PcSchema) {d : PcDimension} (h : d ∈ s.dims) :
    d.interpretation ≠ .unknown := (s.known d h).1

theorem PcSchema.dim_size (s : PcSchema) {d : PcDimension} (h : d ∈ s.dims) :
    d.size = d.interpretation.size := (s.known d h).2

/-- Every dimension lies inside the point. -/
theorem PcSchema.dim_end_le (s : PcSchema) {d : PcDimension} (h : d ∈ s.dims) :
    d.byteoffset + d.size ≤ s.size := by
  obtain ⟨i, hi, rfl⟩ := List.mem_iff_getElem.mp h
  rw [s.byteoffset_eq i hi, s.size_eq, ← sizeOfDims_take_succ hi]
  exact sizeOfDims_take_le s.dims (i + 1)

/-- Two dimensions have no byte in common. -/
theorem PcSchema.dim_apart (s : PcSchema) {d e : PcDimension} (hd : d ∈ s.dims) (he : e ∈ s.dims)
    (hne : d ≠ e) :
    d.byteoffset + d.size ≤ e.byteoffset ∨ e.byteoffset + e.size ≤ d.byteoffset := by
  have hbefore : ∀ i j (hi : i < s.dims.length) (hj : j < s.dims.length), i < j →
      s.dims[i].byteoffset + s.dims[i].size ≤ s.dims[j].byteoffset := by
    intro i j hi hj hij
    rw [s.byteoffset_eq i hi, s.byteoffset_eq j hj, ← sizeOfDims_take_succ hi]
    have htake : s.dims.take (i + 1) = (s.dims.take j).take (i + 1) := by
      rw [List.take_take, Nat.min_eq_left hij]
    rw [htake]
    exact sizeOfDims_take_le _ _
  obtain ⟨i, hi, rfl⟩ := List.mem_iff_getElem.mp hd
  obtain ⟨j, hj, rfl⟩ := List.mem_iff_getElem.mp he
  rcases Nat.lt_trichotomy i j with hij | rfl | hji
  · exact .inl (hbefore i j hi hj hij)
  · exact absurd rfl hne
  · exact .inr (hbefore j i hj hi hji)

/-- A point has at least one byte. -/
theorem PcSchema.size_pos (s : PcSchema) : 0 < s.size := by
  obtain ⟨d, hd⟩ := List.exists_mem_of_ne_nil s.dims s.dims_ne
  have hend := s.dim_end_le hd
  have hpos := d.interpretation.size_pos
  rw [← s.dim_size hd] at hpos
  omega

/-- What a name stands for is a dimension of the schema. -/
theorem mem_of_pcSchemaGetDimensionByName {s : PcSchema} {name : String} {d : PcDimension}
    (h : pcSchemaGetDimensionByName s name = some d) : d ∈ s.dims := by
  obtain ⟨e, -, hd⟩ := Option.bind_eq_some_iff.mp h
  exact List.mem_of_getElem? hd

/-! ## Schemas of two dimensions -/

theorem uint8_known : Interpretation.uint8 ≠ .unknown := by decide

/-- A point with an x and a y of the given types. -/
def xySchema (x y : Interpretation) (hx : x ≠ .unknown) (hy : y ≠ .unknown) (scale : ℚ)
    (compression : PcCompression) : PcSchema where
  pcid := 1
  srid := 0
  dims := [⟨some "X", 0, x.size, 0, x, scale, 0⟩, ⟨some "Y", 1, y.size, x.size, y, scale, 0⟩]
  size := x.size + y.size
  xdim := some 0
  ydim := some 1
  compression := compression
  namehash := [("Y", 1), ("X", 0)]
  pcid_lt := by decide
  size_lt := by
    have := Interpretation.size_le hx
    have := Interpretation.size_le hy
    omega
  dims_ne := by simp
  known := by simp [hx, hy]
  position_eq := fun i h => by
    match i, h with
    | 0, _ => rfl
    | 1, _ => rfl
  byteoffset_eq := fun i h => by
    match i, h with
    | 0, _ => rfl
    | 1, _ => simp [sizeOfDims]
  size_eq := by simp [sizeOfDims]
  xdim_lt := by simp
  ydim_lt := by simp
  namehash_lt := by simp

/-- A formats table with the schema of pcid 1. -/
def onlyPairs (pcid : Nat) : Run (Option PcSchema) :=
  if pcid = 1 then .ok (some (xySchema .uint8 .uint8 uint8_known uint8_known 1 .none))
  else raise ("no entry in \"pointcloud_formats\" for pcid = " ++ toString pcid)

theorem onlyPairs_ne_fault (pcid : Nat) : onlyPairs pcid ≠ fault := by
  unfold onlyPairs
  split <;> simp [fault, raise]

theorem pcid_of_onlyPairs (pcid : Nat) (schema : PcSchema)
    (h : onlyPairs pcid = .ok (some schema)) : schema.pcid = pcid := by
  unfold onlyPairs at h
  split at h
  · next hone =>
      rw [Except.ok.injEq, Option.some.injEq] at h
      rw [← h, hone]
      rfl
  · exact nomatch h

theorem valid_of_onlyPairs (pcid : Nat) (schema : PcSchema)
    (h : onlyPairs pcid = .ok (some schema)) : schema.Valid := by
  unfold onlyPairs at h
  split at h
  · rw [Except.ok.injEq, Option.some.injEq] at h
    rw [← h]
    exact ⟨rfl, rfl⟩
  · exact nomatch h

end Pointcloud
