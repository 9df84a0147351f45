/-
Pointcloud.Base.Ewkb — polygons in extended well-known binary.

A polygon is a list of rings, a ring a list of points of the plane. In front of the
rings stand the byte order, the type with a flag for the identifier of a reference
system, and that identifier. Coordinates are doubles, and read as the numbers they
are. `decodePolygon_encodePolygon` says that a polygon comes back from its encoding,
and nothing of what follows is read.
-/
import Pointcloud.Base.Ieee754
import Pointcloud.Base.Memory
import Mathlib.Algebra.Order.AbsoluteValue.Basic

namespace Pointcloud.Base

/-! ## Polygons -/

/-- A polygon of the plane. -/
structure Polygon where
  srid : Option Nat
  rings : List (List (ℚ × ℚ))
  deriving DecidableEq

/-- A ring ends where it begins. -/
def IsClosed (ring : List (ℚ × ℚ)) : Prop := ring ≠ [] ∧ ring.head? = ring.getLast?

/-- Twice the area to the left of the way from point to point. -/
def signedArea : List (ℚ × ℚ) → ℚ
  | p :: q :: ring => p.1 * q.2 - q.1 * p.2 + signedArea (q :: ring)
  | _ => 0

/-- The area that a closed ring encloses. -/
def ringArea (ring : List (ℚ × ℚ)) : ℚ := |signedArea ring| / 2

/-! ## Encoding -/

/-- The flag of the byte order. -/
def endianFlag : Endian → Byte
  | .big => 0
  | .little => 1

/-- The type of a polygon, with an identifier behind it or without. -/
def polygonType : Option Nat → Nat
  | none => 3
  | some _ => 0x20000003

section Encode

variable (en : Endian)

def encodePoint (p : ℚ × ℚ) : Bytes :=
  en.bytesOf 8 (ieeeEncode 11 52 p.1) ++ en.bytesOf 8 (ieeeEncode 11 52 p.2)

def encodeRing (ring : List (ℚ × ℚ)) : Bytes :=
  en.bytesOf 4 ring.length ++ ring.flatMap (encodePoint en)

/-- The bytes of an identifier, if there is one. -/
def encodeSrid : Option Nat → Bytes
  | none => []
  | some srid => en.bytesOf 4 srid

def encodePolygon (p : Polygon) : Bytes :=
  endianFlag en :: en.bytesOf 4 (polygonType p.srid) ++ encodeSrid en p.srid ++
    en.bytesOf 4 p.rings.length ++ p.rings.flatMap (encodeRing en)

end Encode

/-! ## Decoding -/

/-- What a reader makes of the front of a block, and what it leaves. -/
abbrev Reader (α : Type) := Bytes → Option (α × Bytes)

/-- A number of so many bytes. -/
def readNumber (en : Endian) (w : Nat) : Reader Nat := fun bs =>
  if w ≤ bs.length then some (en.natOf (bs.take w), bs.drop w) else none

/-- So many items one after the other. -/
def readMany {α : Type} (read : Reader α) : Nat → Reader (List α)
  | 0, bs => some ([], bs)
  | n + 1, bs => do
      let (a, bs) ← read bs
      let (as, bs) ← readMany read n bs
      return (a :: as, bs)

section Decode

variable (en : Endian)

def readPoint : Reader (ℚ × ℚ) := fun bs => do
  let (x, bs) ← readNumber en 8 bs
  let (y, bs) ← readNumber en 8 bs
  return ((ieeeDecode 11 52 x, ieeeDecode 11 52 y), bs)

def readRing : Reader (List (ℚ × ℚ)) := fun bs => do
  let (n, bs) ← readNumber en 4 bs
  readMany (readPoint en) n bs

/-- The identifier, if the type says that there is one. -/
def readSrid (type : Nat) : Reader (Option Nat) := fun bs =>
  if type = 3 then some (none, bs)
  else if type = 0x20000003 then do
    let (srid, bs) ← readNumber en 4 bs
    return (some srid, bs)
  else none

def readPolygon : Reader Polygon := fun bs => do
  let (type, bs) ← readNumber en 4 bs
  let (srid, bs) ← readSrid en type bs
  let (n, bs) ← readNumber en 4 bs
  let (rings, bs) ← readMany (readRing en) n bs
  return (⟨srid, rings⟩, bs)

end Decode

/-- A polygon, in the byte order that its first byte says. -/
def decodePolygon : Reader Polygon
  | [] => none
  | flag :: bs =>
      if flag = 0 then readPolygon .big bs
      else if flag = 1 then readPolygon .little bs
      else none

/-! ## Polygons come back -/

/-- A number that a word stands for. -/
def HasWord (x : ℚ) : Prop :=
  ieeeEncode 11 52 x < 18446744073709551616 ∧ ieeeDecode 11 52 (ieeeEncode 11 52 x) = x

/-- Numbers that the format has room for. -/
structure EncodablePolygon (p : Polygon) : Prop where
  srid_lt : ∀ srid ∈ p.srid, srid < 4294967296
  rings_lt : p.rings.length < 4294967296
  points_lt : ∀ ring ∈ p.rings, ring.length < 4294967296
  words : ∀ ring ∈ p.rings, ∀ pt ∈ ring, HasWord pt.1 ∧ HasWord pt.2

section RoundTrip

variable {en : Endian}

@[simp] theorem readNumber_append {w n : Nat} (h : n < 256 ^ w) (rest : Bytes) :
    readNumber en w (en.bytesOf w n ++ rest) = some (n, rest) := by
  have hlen : (en.bytesOf w n).length = w := en.length_bytesOf w n
  rw [readNumber, if_pos (by rw [List.length_append, hlen]; exact Nat.le_add_right _ _),
    List.take_left' hlen, List.drop_left' hlen, en.natOf_bytesOf_of_lt h]

/-- Items that are read one by one are read together. -/
theorem readMany_flatMap {α : Type} {read : Reader α} {write : α → Bytes} {as : List α}
    (h : ∀ a ∈ as, ∀ rest, read (write a ++ rest) = some (a, rest)) (rest : Bytes) :
    readMany read as.length (as.flatMap write ++ rest) = some (as, rest) := by
  induction as with
  | nil => rfl
  | cons a as ih =>
      have hrest := ih fun b hb => h b (by simp [hb])
      simp [readMany, h a (by simp), hrest]

theorem readPoint_encodePoint {p : ℚ × ℚ} (hx : HasWord p.1) (hy : HasWord p.2) (rest : Bytes) :
    readPoint en (encodePoint en p ++ rest) = some (p, rest) := by
  simp [readPoint, encodePoint, hx.1, hx.2, hy.1, hy.2]

theorem readRing_encodeRing {ring : List (ℚ × ℚ)} (hlen : ring.length < 4294967296)
    (h : ∀ pt ∈ ring, HasWord pt.1 ∧ HasWord pt.2) (rest : Bytes) :
    readRing en (encodeRing en ring ++ rest) = some (ring, rest) := by
  have hpoint : ∀ pt ∈ ring, ∀ rest, readPoint en (encodePoint en pt ++ rest) = some (pt, rest) :=
    fun pt hpt => readPoint_encodePoint (h pt hpt).1 (h pt hpt).2
  simp [readRing, encodeRing, hlen, readMany_flatMap hpoint]

theorem readSrid_encodeSrid {srid : Option Nat} (h : ∀ n ∈ srid, n < 4294967296) (rest : Bytes) :
    readSrid en (polygonType srid) (encodeSrid en srid ++ rest) = some (srid, rest) := by
  cases srid with
  | none => rfl
  | some n => simp [readSrid, polygonType, encodeSrid, h n rfl]

theorem polygonType_lt (srid : Option Nat) : polygonType srid < 4294967296 := by
  cases srid <;> simp [polygonType]

/-- A polygon comes back from its encoding, and nothing of what follows is read. -/
theorem decodePolygon_encodePolygon {p : Polygon} (h : EncodablePolygon p) (rest : Bytes) :
    decodePolygon (encodePolygon en p ++ rest) = some (p, rest) := by
  have hring : ∀ ring ∈ p.rings, ∀ rest, readRing en (encodeRing en ring ++ rest) =
      some (ring, rest) := fun ring hr => readRing_encodeRing (h.points_lt ring hr)
        (h.words ring hr)
  have hread : readPolygon en (en.bytesOf 4 (polygonType p.srid) ++ (encodeSrid en p.srid ++
      (en.bytesOf 4 p.rings.length ++ (p.rings.flatMap (encodeRing en) ++ rest)))) =
        some (p, rest) := by
    simp [readPolygon, polygonType_lt, readSrid_encodeSrid h.srid_lt, h.rings_lt,
      readMany_flatMap hring]
  cases en <;> simpa [decodePolygon, encodePolygon, endianFlag] using hread

end RoundTrip

end Pointcloud.Base
