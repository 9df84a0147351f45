/-
Pointcloud.Hashtable — the table of the names of dimensions (`hashtable.c`).

Names that differ only in the case of their letters are the same key, and several
dimensions may have one name. Which of them a search finds depends on the order in
which they were entered and on how often the table has grown since:
`hashtableSearch_eq` says that the entries can be kept in a list.
-/
import Pointcloud.Base.HashTable
import Pointcloud.Base.Ieee754

namespace Pointcloud

open Pointcloud.Base

/-! ## Names -/

/-- The bytes of a C string. -/
def cBytes (s : String) : List UInt8 := s.toList.flatMap String.utf8EncodeChar

/-- A letter in lower case, as `strcasecmp` compares it. -/
def lowerAscii (c : Char) : Char := if 'A' ≤ c ∧ c ≤ 'Z' then Char.ofNat (c.toNat + 32) else c

/-- `strcasecmp(a, b) == 0`, which is `str_eq`. -/
def sameName (a b : String) : Bool := a.toList.map lowerAscii == b.toList.map lowerAscii

/-- `tolower`, of a byte. -/
def tolower (c : UInt8) : UInt8 := if 65 ≤ c.toNat ∧ c.toNat ≤ 90 then c + 32 else c

/-- One step of `hash_str`, for a byte in lower case. A `char` has a sign. -/
def hashStep (hash : BitVec 32) (c : UInt8) : BitVec 32 :=
  c.toBitVec.signExtend 32 + (hash <<< 6) + (hash <<< 16) - hash

/-- `hash_str`. -/
def hashStr (str : String) : BitVec 32 :=
  (cBytes str).foldl (fun hash c => hashStep hash (tolower c)) 0

/-- `hash`. -/
def hash (k : String) : Nat :=
  let i := hashStr k
  let i := i + ~~~(i <<< 9)
  let i := i ^^^ ((i >>> 14) ||| (i <<< 18))
  let i := i + (i <<< 4)
  let i := i ^^^ ((i >>> 10) ||| (i <<< 22))
  i.toNat

/-! ## Tables of names -/

/-- `primes`: the lengths of tables. -/
def primes : List Nat :=
  [53, 97, 193, 389, 769, 1543, 3079, 6151, 12289, 24593, 49157, 98317, 196613, 393241, 786433,
    1572869, 3145739, 6291469, 12582917, 25165843, 50331653, 100663319, 201326611, 402653189,
    805306457, 1610612741]

/-- The `float` nearest to a number. -/
def toFloat (x : ℚ) : ℚ := ieeeDecode 8 23 (ieeeEncode 8 23 x)

/-- `max_load_factor`. -/
def maxLoadFactor : ℚ := toFloat (ieeeDecode 11 52 (ieeeEncode 11 52 (65 / 100)))

/-- `loadlimit`, for the length of a table. -/
def loadlimit (size : Nat) : Nat := ⌈toFloat (toFloat size * maxLoadFactor)⌉.toNat

variable {β : Type}

/-- `create_string_hashtable`. The first length above 16 is the first one. -/
def createStringHashtable : HashTable String β := emptyTable 53

/-- `hashtable_insert`. -/
def hashtableInsert (h : HashTable String β) (e : String × β) : HashTable String β :=
  h.insert hash primes loadlimit e

/-- `hashtable_search`. -/
def hashtableSearch (h : HashTable String β) (k : String) : Option β := h.search hash sameName k

/-- The numbers of names at which the table grows with the next one. -/
def nameLimits : List Nat :=
  [35, 64, 126, 253, 500, 1003, 2002, 3999, 7988, 15986, 31953, 63907, 127799, 255607, 511182,
    1022365, 2044731, 4089455, 8178896, 16357798, 32715572, 65431156, 130862288, 261724560,
    523449152]

/-! ## Hashes of names -/

theorem tolower_of_le {c : UInt8} (h : 128 ≤ c.toNat) : tolower c = c := by
  rw [tolower, if_neg fun hletter => absurd hletter.2 (by omega)]

/-- The bytes of a letter in lower case. -/
theorem map_tolower_utf8EncodeChar (c : Char) :
    (String.utf8EncodeChar c).map tolower = String.utf8EncodeChar (lowerAscii c) := by
  by_cases hascii : c.toNat < 128
  · have hall : ∀ n < 128, (String.utf8EncodeChar (Char.ofNat n)).map tolower =
        String.utf8EncodeChar (lowerAscii (Char.ofNat n)) := by decide +kernel
    have h := hall c.toNat hascii
    rwa [Char.ofNat_toNat] at h
  · have hsame : lowerAscii c = c := by
      refine if_neg fun hletter => hascii ?_
      have hle : c.toNat ≤ 'Z'.toNat := hletter.2
      exact Nat.lt_of_le_of_lt hle (by decide)
    rw [hsame]
    conv_rhs => rw [← List.map_id (String.utf8EncodeChar c)]
    refine List.map_congr_left fun b hb => tolower_of_le ?_
    have hval : ¬ c.val.toNat ≤ 127 := fun hle => hascii (Nat.lt_succ_of_le hle)
    unfold String.utf8EncodeChar at hb
    simp only [if_neg hval] at hb
    split_ifs at hb <;> simp only [List.mem_cons, List.not_mem_nil, or_false] at hb
    · rcases hb with rfl | rfl <;> simp only [UInt8.toNat_ofNat'] <;> omega
    · rcases hb with rfl | rfl | rfl <;> simp only [UInt8.toNat_ofNat'] <;> omega
    · rcases hb with rfl | rfl | rfl | rfl <;> simp only [UInt8.toNat_ofNat'] <;> omega

/-- Names that are the same have the same hash. -/
theorem hash_eq_of_sameName {a b : String} (h : sameName a b = true) : hash a = hash b := by
  have hbytes : ∀ s : String, (cBytes s).map tolower =
      (s.toList.map lowerAscii).flatMap String.utf8EncodeChar := by
    intro s
    rw [cBytes, List.map_flatMap, List.flatMap_map]
    exact congrArg (fun f => s.toList.flatMap f) (funext map_tolower_utf8EncodeChar)
  have hstr : ∀ s, hashStr s = ((cBytes s).map tolower).foldl hashStep 0 := by
    intro s
    rw [List.foldl_map, hashStr]
  have heq : hashStr a = hashStr b := by
    rw [hstr, hstr, hbytes, hbytes, beq_iff_eq.mp h]
  simp only [hash, heq]

/-! ## What a table finds -/

/-- The limits of all lengths. The greatest table cannot grow. -/
theorem loadlimit_primes : primes.map loadlimit = nameLimits ++ [1046898240] := by decide +kernel

theorem growthLimits_eq : growthLimits primes loadlimit = nameLimits := by
  rw [growthLimits, List.map_dropLast, loadlimit_primes, List.dropLast_concat]

theorem grows_primes : Grows primes loadlimit := by
  have hincreasing : (primes.map loadlimit).Pairwise (· < ·) := by
    rw [loadlimit_primes]
    decide
  refine ⟨by decide, fun i j a b hij ha hb => ?_⟩
  obtain ⟨hi, rfl⟩ := List.getElem?_eq_some_iff.mp ha
  obtain ⟨hj, rfl⟩ := List.getElem?_eq_some_iff.mp hb
  have hlt := List.pairwise_iff_getElem.mp hincreasing i j (by simpa using hi)
    (by simpa using hj) hij
  rwa [List.getElem_map, List.getElem_map] at hlt

/-- A table finds what is first in the list of its entries. -/
theorem hashtableSearch_eq (es : List (String × β)) (name : String) :
    hashtableSearch (es.foldl hashtableInsert createStringHashtable) name =
      ((enterAll nameLimits es).find? fun e => sameName name e.1).map Prod.snd := by
  have hinsert : (hashtableInsert : HashTable String β → String × β → HashTable String β) =
      HashTable.insert hash primes loadlimit := rfl
  have hfirst : primes[0]? = some 53 := rfl
  have hsame : ∀ k k', sameName k k' = true → hash k = hash k' := fun _ _ => hash_eq_of_sameName
  rw [← growthLimits_eq, hinsert, hashtableSearch, createStringHashtable]
  exact search_filled grows_primes hfirst hsame es name

end Pointcloud
