/-
Pointcloud.Pgsql.SchemaCache — finding the schema of a pcid (`pc_pgsql.c`).

The formats table has a row for each pcid, with the XML of the schema and its
SRID. A statement keeps the schemas it has looked up in a ring of sixteen
slots, which is made zero-filled by the first call and hangs on the function
from then on. A call returns a schema, the null pointer, or an error; either
way it leaves a cache behind.

Nothing here looks into a schema beyond these two numbers: what the XML says,
`S`, is whatever the parser makes of it.
-/
import Pointcloud.Base.Outcome

namespace Pointcloud

open Pointcloud.Base

/-! ## The formats table -/

/-- A row of the formats table; a column may be null. -/
structure FormatsRow where
  xml : Option String
  srid : Option Int

/-- A schema of the cache: the pcid and the SRID of its row, and what its XML says. -/
structure CachedSchema (S : Type) where
  pcid : BitVec 32
  srid : BitVec 32
  xml : S
  deriving DecidableEq

/-- The formats table during a statement, and the parser of its XML. -/
structure Formats (S : Type) where
  /-- The qualified name of the table. -/
  name : String
  /-- The row of a pcid. -/
  row : BitVec 32 → Option FormatsRow
  /-- `pc_schema_from_xml`. -/
  schemaFromXml : String → Run (Option S)

variable {S : Type}

/-- `pc_schema_from_pcid_uncached`. -/
def pcSchemaFromPcidUncached (T : Formats S) (pcid : BitVec 32) : Run (CachedSchema S) :=
  match T.row pcid with
  | none => raise ("no entry in \"" ++ T.name ++ "\" for pcid = " ++ toString pcid.toInt)
  | some ⟨some xml, some srid⟩ => do
      match ← T.schemaFromXml xml with
      | none =>
          raise ("unable to parse XML for pcid = " ++ toString pcid.toInt ++ " in \"" ++ T.name ++
            "\"")
      | some schema => .ok ⟨pcid, BitVec.ofInt 32 srid, schema⟩
  | some _ =>
      raise ("unable to read row from \"" ++ T.name ++ "\" for pcid = " ++ toString pcid.toInt)

/-! ## The cache -/

/-- `SchemaCache`. A slot holds a pcid and a pointer to a schema. -/
structure SchemaCache (S : Type) where
  nextSlot : Fin 16
  pcids : Vector (BitVec 32) 16
  schemas : Vector (Option (CachedSchema S)) 16

/-- The cache as `memset` leaves it. -/
def SchemaCache.zero : SchemaCache S where
  nextSlot := 0
  pcids := .replicate 16 0
  schemas := .replicate 16 none

/-- `GetSchemaCache`, by what hangs on the function. -/
def getSchemaCache (fnExtra : Option (SchemaCache S)) : SchemaCache S := fnExtra.getD .zero

/-- The first slot with a pcid. -/
def SchemaCache.slotOf (cache : SchemaCache S) (pcid : BitVec 32) : Option (Fin 16) :=
  (List.finRange 16).find? fun i => cache.pcids[i] == pcid

theorem SchemaCache.slotOf_some {cache : SchemaCache S} {pcid : BitVec 32} {i : Fin 16}
    (h : cache.slotOf pcid = some i) : cache.pcids[i] = pcid := by
  have := List.find?_some h
  simpa using this

theorem SchemaCache.slotOf_none {cache : SchemaCache S} {pcid : BitVec 32}
    (h : cache.slotOf pcid = none) (i : Fin 16) : cache.pcids[i] ≠ pcid := by
  have := List.find?_eq_none.mp h i (List.mem_finRange i)
  simpa using this

/-- Store a schema in the next slot. -/
def SchemaCache.save (cache : SchemaCache S) (pcid : BitVec 32) (schema : CachedSchema S) :
    SchemaCache S where
  nextSlot := cache.nextSlot + 1
  pcids := cache.pcids.set cache.nextSlot pcid
  schemas := cache.schemas.set cache.nextSlot (some schema)

/-- The slot that is written, and the others. -/
theorem SchemaCache.save_slot (cache : SchemaCache S) (pcid : BitVec 32) (schema : CachedSchema S)
    (i : Fin 16) :
    (i = cache.nextSlot ∧ (cache.save pcid schema).pcids[i] = pcid ∧
      (cache.save pcid schema).schemas[i] = some schema) ∨
    (i ≠ cache.nextSlot ∧ (cache.save pcid schema).pcids[i] = cache.pcids[i] ∧
      (cache.save pcid schema).schemas[i] = cache.schemas[i]) := by
  by_cases hi : i = cache.nextSlot
  · subst hi
    left
    simp [save]
  · right
    have hne : (cache.nextSlot : Nat) ≠ i := fun heq => hi (Fin.ext heq.symm)
    simp [save, hi, hne]

/-- `pc_schema_from_pcid`: what the call returns, where `none` is the null
pointer, and the cache that hangs on the function after it. -/
def pcSchemaFromPcid (T : Formats S) (fnExtra : Option (SchemaCache S)) (pcid : BitVec 32) :
    Run (Option (CachedSchema S)) × Option (SchemaCache S) :=
  let cache := getSchemaCache fnExtra
  match cache.slotOf pcid with
  | some i => (.ok cache.schemas[i], some cache)
  | none =>
      match pcSchemaFromPcidUncached T pcid with
      | .error e => (.error e, some cache)
      | .ok schema => (.ok (some schema), some (cache.save pcid schema))

/-- What a call can do: find a slot, fail, or load and store. -/
theorem pcSchemaFromPcid_cases (T : Formats S) (fnExtra : Option (SchemaCache S))
    (pcid : BitVec 32) :
    (∃ i, (getSchemaCache fnExtra).slotOf pcid = some i ∧ pcSchemaFromPcid T fnExtra pcid =
        (.ok (getSchemaCache fnExtra).schemas[i], some (getSchemaCache fnExtra))) ∨
    ((getSchemaCache fnExtra).slotOf pcid = none ∧
      ((∃ e, pcSchemaFromPcidUncached T pcid = .error e ∧
          pcSchemaFromPcid T fnExtra pcid = (.error e, some (getSchemaCache fnExtra))) ∨
        ∃ schema, pcSchemaFromPcidUncached T pcid = .ok schema ∧ pcSchemaFromPcid T fnExtra pcid =
          (.ok (some schema), some ((getSchemaCache fnExtra).save pcid schema)))) := by
  unfold pcSchemaFromPcid
  cases hslot : (getSchemaCache fnExtra).slotOf pcid with
  | some i =>
      left
      exact ⟨i, rfl, by simp [hslot]⟩
  | none =>
      right
      refine ⟨rfl, ?_⟩
      cases hload : pcSchemaFromPcidUncached T pcid with
      | error e =>
          left
          exact ⟨e, rfl, by simp [hslot]⟩
      | ok schema =>
          right
          exact ⟨schema, rfl, by simp [hslot]⟩

/-- What hangs on the function after a sequence of calls. -/
def cacheAfter (T : Formats S) (pcids : List (BitVec 32)) : Option (SchemaCache S) :=
  pcids.foldl (fun fnExtra pcid => (pcSchemaFromPcid T fnExtra pcid).2) none

/-- Every slot holds a schema. -/
def SchemaCache.Full (cache : SchemaCache S) : Prop := ∀ i : Fin 16, cache.schemas[i] ≠ none

/-- The invariant of the slots. -/
structure SchemaCache.Faithful (T : Formats S) (cache : SchemaCache S) : Prop where
  loaded : ∀ (i : Fin 16) schema, cache.schemas[i] = some schema →
    pcSchemaFromPcidUncached T cache.pcids[i] = .ok schema
  empty : ∀ i : Fin 16, cache.schemas[i] = none → cache.pcids[i] = 0
  nonzero : ¬ cache.Full → ∀ (i : Fin 16) schema, cache.schemas[i] = some schema →
    cache.pcids[i] ≠ 0

end Pointcloud
