/-
Pointcloud.Base.EwkbLine — points and lines in extended well-known binary.

A place has an x and a y, and may have a z and an m as well; flags of the type say
which. A point is a place, a line a list of places behind their number.
`decodeGeometry_encodeGeometry` says that both come back from their encoding, and
nothing of what follows is read.
-/
import Pointcloud.Base.Ewkb

namespace Pointcloud.Base

/-! ## Points and lines -/

/-- The coordinates that places have besides x and y. -/
structure Axes where
  z : Bool
  m : Bool
  deriving DecidableEq

/-- The number of coordinates of a place. -/
def Axes.count (axes : Axes) : Nat := 2 + axes.z.toNat + axes.m.toNat

inductive Shape where
  | point (place : List ℚ)
  | line (places : List (List ℚ))
  deriving DecidableEq

/-- A point or a line, in a reference system. -/
structure Geometry where
  srid : Option Nat
  axes : Axes
  shape : Shape
  deriving DecidableEq

/-! ## Encoding -/

def Shape.code : Shape → Nat
  | .point _ => 1
  | .line _ => 2

/-- A number with flags for an identifier, an m and a z. -/
def flaggedType (code : Nat) (srid m z : Bool) : Nat :=
  code + srid.toNat * 0x20000000 + m.toNat * 0x40000000 + z.toNat * 0x80000000

def Geometry.type (g : Geometry) : Nat :=
  flaggedType g.shape.code g.srid.isSome g.axes.m g.axes.z

section Encode

variable (en : Endian)

def encodePlace (place : List ℚ) : Bytes :=
  place.flatMap fun x => en.bytesOf 8 (ieeeEncode 11 52 x)

def encodeShape : Shape → Bytes
  | .point place => encodePlace en place
  | .line places => en.bytesOf 4 places.length ++ places.flatMap (encodePlace en)

def encodeGeometry (g : Geometry) : Bytes :=
  endianFlag en :: en.bytesOf 4 g.type ++ encodeSrid en g.srid ++ encodeShape en g.shape

theorem length_encodePlace (place : List ℚ) : (encodePlace en place).length = 8 * place.length := by
  induction place with
  | nil => rfl
  | cons x place ih =>
      rw [encodePlace, List.flatMap_cons, List.length_append, ← encodePlace, ih]
      simp [Nat.mul_add, Nat.add_comm]

theorem length_encodeShape (shape : Shape) : (encodeShape en shape).length =
    match shape with
    | .point place => 8 * place.length
    | .line places => 4 + (places.map fun place => 8 * place.length).sum := by
  cases shape with
  | point place => exact length_encodePlace en place
  | line places => simp [encodeShape, List.length_flatMap, length_encodePlace]

theorem length_encodeGeometry (g : Geometry) : (encodeGeometry en g).length =
    1 + 4 + g.srid.isSome.toNat * 4 + (encodeShape en g.shape).length := by
  obtain ⟨srid, axes, shape⟩ := g
  cases srid <;> simp [encodeGeometry, encodeSrid] <;> omega

end Encode

/-! ## Decoding -/

section Decode

variable (en : Endian)

def readCoordinate : Reader ℚ := fun bs => do
  let (word, bs) ← readNumber en 8 bs
  return (ieeeDecode 11 52 word, bs)

def readPlace (axes : Axes) : Reader (List ℚ) := readMany (readCoordinate en) axes.count

def readShape (code : Nat) (axes : Axes) : Reader Shape := fun bs =>
  if code = 1 then do
    let (place, bs) ← readPlace en axes bs
    return (.point place, bs)
  else if code = 2 then do
    let (n, bs) ← readNumber en 4 bs
    let (places, bs) ← readMany (readPlace en axes) n bs
    return (.line places, bs)
  else none

/-- The identifier, if the flag says that there is one. -/
def readFlaggedSrid (flag : Bool) : Reader (Option Nat) := fun bs =>
  if flag then do
    let (srid, bs) ← readNumber en 4 bs
    return (some srid, bs)
  else some (none, bs)

def readGeometry : Reader Geometry := fun bs => do
  let (type, bs) ← readNumber en 4 bs
  let axes : Axes := ⟨type.testBit 31, type.testBit 30⟩
  let (srid, bs) ← readFlaggedSrid en (type.testBit 29) bs
  let (shape, bs) ← readShape en (type % 0x20000000) axes bs
  return (⟨srid, axes, shape⟩, bs)

end Decode

/-- A point or a line, in the byte order that its first byte says. -/
def decodeGeometry : Reader Geometry
  | [] => none
  | flag :: bs =>
      if flag = 0 then readGeometry .big bs
      else if flag = 1 then readGeometry .little bs
      else none

/-! ## Geometries come back -/

/-- A place with all coordinates, which the format has room for. -/
def EncodablePlace (axes : Axes) (place : List ℚ) : Prop :=
  place.length = axes.count ∧ ∀ x ∈ place, HasWord x

def EncodableShape (axes : Axes) : Shape → Prop
  | .point place => EncodablePlace axes place
  | .line places => places.length < 4294967296 ∧ ∀ place ∈ places, EncodablePlace axes place

structure EncodableGeometry (g : Geometry) : Prop where
  srid_lt : ∀ srid ∈ g.srid, srid < 4294967296
  shape : EncodableShape g.axes g.shape

section RoundTrip

variable {en : Endian}

theorem readCoordinate_encode {x : ℚ} (h : HasWord x) (rest : Bytes) :
    readCoordinate en (en.bytesOf 8 (ieeeEncode 11 52 x) ++ rest) = some (x, rest) := by
  simp [readCoordinate, h.1, h.2]

theorem readPlace_encodePlace {axes : Axes} {place : List ℚ} (h : EncodablePlace axes place)
    (rest : Bytes) : readPlace en axes (encodePlace en place ++ rest) = some (place, rest) := by
  rw [readPlace, ← h.1]
  exact readMany_flatMap (fun x hx rest => readCoordinate_encode (h.2 x hx) rest) rest

theorem readShape_encodeShape {axes : Axes} {shape : Shape} (h : EncodableShape axes shape)
    (rest : Bytes) :
    readShape en shape.code axes (encodeShape en shape ++ rest) = some (shape, rest) := by
  cases shape with
  | point place => simp [readShape, Shape.code, encodeShape, readPlace_encodePlace h]
  | line places =>
      have hplace : ∀ place ∈ places, ∀ rest,
          readPlace en axes (encodePlace en place ++ rest) = some (place, rest) :=
        fun place hp => readPlace_encodePlace (h.2 place hp)
      simp [readShape, Shape.code, encodeShape, h.1, readMany_flatMap hplace]

theorem readFlaggedSrid_encodeSrid {srid : Option Nat} (h : ∀ n ∈ srid, n < 4294967296)
    (rest : Bytes) :
    readFlaggedSrid en srid.isSome (encodeSrid en srid ++ rest) = some (srid, rest) := by
  cases srid with
  | none => rfl
  | some n => simp [readFlaggedSrid, encodeSrid, h n rfl]

/-- A type fits into its word, and the number is what is left without flags. -/
theorem flaggedType_mod {code : Nat} (h : code < 0x20000000) (srid m z : Bool) :
    flaggedType code srid m z < 4294967296 ∧ flaggedType code srid m z % 0x20000000 = code := by
  have hs := srid.toNat_lt
  have hm := m.toNat_lt
  have hz := z.toNat_lt
  unfold flaggedType
  omega

theorem flaggedType_testBit {code : Nat} (h : code < 0x20000000) (srid m z : Bool) :
    (flaggedType code srid m z).testBit 31 = z ∧ (flaggedType code srid m z).testBit 30 = m ∧
      (flaggedType code srid m z).testBit 29 = srid := by
  simp only [Nat.testBit_eq_decide_div_mod_eq, flaggedType]
  cases srid <;> cases m <;> cases z <;> simp <;> omega

theorem Shape.code_lt (shape : Shape) : shape.code < 0x20000000 := by
  cases shape <;> simp [Shape.code]

/-- What is read behind the byte order, by the fields of the type. -/
theorem readGeometry_append {type : Nat} {g : Geometry} (h : EncodableGeometry g)
    (hlt : type < 4294967296) (hz : type.testBit 31 = g.axes.z) (hm : type.testBit 30 = g.axes.m)
    (hsrid : type.testBit 29 = g.srid.isSome) (hcode : type % 0x20000000 = g.shape.code)
    (rest : Bytes) : readGeometry en (en.bytesOf 4 type ++ (encodeSrid en g.srid ++
      (encodeShape en g.shape ++ rest))) = some (g, rest) := by
  simp [readGeometry, hlt, hz, hm, hsrid, hcode, readFlaggedSrid_encodeSrid h.srid_lt,
    readShape_encodeShape h.shape]

/-- A point or a line comes back from its encoding, and nothing of what follows is read. -/
theorem decodeGeometry_encodeGeometry {g : Geometry} (h : EncodableGeometry g) (rest : Bytes) :
    decodeGeometry (encodeGeometry en g ++ rest) = some (g, rest) := by
  obtain ⟨hlt, hcode⟩ := flaggedType_mod g.shape.code_lt g.srid.isSome g.axes.m g.axes.z
  obtain ⟨hz, hm, hsrid⟩ := flaggedType_testBit g.shape.code_lt g.srid.isSome g.axes.m g.axes.z
  have hread := @readGeometry_append en _ _ h hlt hz hm hsrid hcode rest
  cases en <;> simpa [decodeGeometry, encodeGeometry, endianFlag, Geometry.type] using hread

end RoundTrip

end Pointcloud.Base
