/-
Pointcloud.Pgsql.SchemaCacheTheorems — what the cache changes, and what not.

`SchemaCache.Faithful` is the invariant of the slots over any sequence of
calls (`faithful_cacheAfter`): a slot with a schema has the one that the table
gives for its pcid, and a slot without one has pcid 0, as long as there is
one. So the only call that can find an empty slot is a call for pcid 0, and it
does as long as a slot is empty (`pcSchemaFromPcid_transparent_iff`).
-/
import Pointcloud.Pgsql.SchemaCache
import Mathlib.Data.List.Induction

namespace Pointcloud

open Pointcloud.Base

variable {S : Type} {T : Formats S}

/-! ## The slots -/

theorem faithful_zero : (SchemaCache.zero : SchemaCache S).Faithful T := by
  refine ⟨?_, ?_, ?_⟩
  · intro i schema hi
    simp [SchemaCache.zero] at hi
  · intro i _
    simp [SchemaCache.zero]
  · intro _ i schema hi
    simp [SchemaCache.zero] at hi

/-- A schema that was looked up because no slot has its pcid keeps the invariant. -/
theorem SchemaCache.Faithful.save {cache : SchemaCache S} (h : cache.Faithful T) {pcid : BitVec 32}
    (hmiss : cache.slotOf pcid = none) {schema : CachedSchema S}
    (hload : pcSchemaFromPcidUncached T pcid = .ok schema) :
    (cache.save pcid schema).Faithful T := by
  refine ⟨?_, ?_, ?_⟩
  · intro i schema' hi
    obtain ⟨-, hp, hs⟩ | ⟨-, hp, hs⟩ := cache.save_slot pcid schema i
    · rw [hs, Option.some.injEq] at hi
      rw [hp, hload, hi]
    · rw [hp]
      exact h.loaded i schema' (hs ▸ hi)
  · intro i hi
    obtain ⟨-, -, hs⟩ | ⟨-, hp, hs⟩ := cache.save_slot pcid schema i
    · rw [hs] at hi
      cases hi
    · rw [hp]
      exact h.empty i (hs ▸ hi)
  · intro hfull i schema' hi
    -- the slot that is still empty was empty before, and has not been found
    obtain ⟨j, hj⟩ := not_forall_not.mp hfull
    obtain ⟨-, -, hs⟩ | ⟨-, -, hs⟩ := cache.save_slot pcid schema j
    · rw [hs] at hj
      cases hj
    · rw [hs] at hj
      have hpcid : pcid ≠ 0 := fun hzero => cache.slotOf_none hmiss j (by rw [h.empty j hj, hzero])
      obtain ⟨-, hp, -⟩ | ⟨-, hp, hs'⟩ := cache.save_slot pcid schema i
      · rw [hp]
        exact hpcid
      · rw [hp]
        exact h.nonzero (fun hall => hall j hj) i schema' (hs' ▸ hi)

/-! ## Calls -/

/-- A call keeps the invariant. -/
theorem faithful_call {fnExtra : Option (SchemaCache S)} (h : (getSchemaCache fnExtra).Faithful T)
    (pcid : BitVec 32) :
    (getSchemaCache (pcSchemaFromPcid T fnExtra pcid).2).Faithful T := by
  obtain ⟨i, -, hcall⟩ | ⟨hmiss, ⟨e, -, hcall⟩ | ⟨schema, hload, hcall⟩⟩ :=
    pcSchemaFromPcid_cases T fnExtra pcid
  · rw [hcall]
    exact h
  · rw [hcall]
    exact h
  · rw [hcall]
    exact h.save hmiss hload

/-- The invariant holds after any sequence of calls. -/
theorem faithful_cacheAfter (T : Formats S) (pcids : List (BitVec 32)) :
    (getSchemaCache (cacheAfter T pcids)).Faithful T := by
  induction pcids using List.reverseRecOn with
  | nil => exact faithful_zero
  | append_singleton pcids pcid ih =>
      rw [cacheAfter, List.foldl_append]
      exact faithful_call ih pcid

/-! ## Transparency -/

/-- The schema of the table has the pcid that was asked for. -/
theorem pcid_of_uncached {pcid : BitVec 32} {schema : CachedSchema S}
    (h : pcSchemaFromPcidUncached T pcid = .ok schema) : schema.pcid = pcid := by
  unfold pcSchemaFromPcidUncached at h
  split at h
  · exact absurd h (raise_ne_ok _ _)
  · obtain ⟨parsed, -, hparsed⟩ := bind_eq_ok.mp h
    cases parsed with
    | none => exact absurd hparsed (raise_ne_ok _ _)
    | some parsed =>
        cases hparsed
        rfl
  · exact absurd h (raise_ne_ok _ _)

/-- A call after a history of calls does as the table: it returns its schema,
which has the pcid of the call, or raises its error. -/
def Transparent (T : Formats S) (history : List (BitVec 32)) (pcid : BitVec 32) : Prop :=
  (pcSchemaFromPcid T (cacheAfter T history) pcid).1 =
      (pcSchemaFromPcidUncached T pcid).map some ∧
    ∀ schema, (pcSchemaFromPcid T (cacheAfter T history) pcid).1 = .ok (some schema) →
      schema.pcid = pcid

/-- A call does as the table, except for pcid 0 while a slot is empty. -/
theorem transparent_iff (T : Formats S) (history : List (BitVec 32)) (pcid : BitVec 32) :
    Transparent T history pcid ↔
      (pcid = 0 → (getSchemaCache (cacheAfter T history)).Full) := by
  have hinv := faithful_cacheAfter T history
  have hsame : (pcSchemaFromPcid T (cacheAfter T history) pcid).1 =
      (pcSchemaFromPcidUncached T pcid).map some → Transparent T history pcid := by
    intro heq
    refine ⟨heq, fun schema hschema => ?_⟩
    rw [heq] at hschema
    cases hload : pcSchemaFromPcidUncached T pcid with
    | error e =>
        rw [hload] at hschema
        cases hschema
    | ok loaded =>
        rw [hload] at hschema
        cases hschema
        exact pcid_of_uncached hload
  obtain ⟨i, hslot, hcall⟩ | ⟨hmiss, ⟨e, hload, hcall⟩ | ⟨schema, hload, hcall⟩⟩ :=
    pcSchemaFromPcid_cases T (cacheAfter T history) pcid
  · have hpcid := SchemaCache.slotOf_some hslot
    cases hschema : (getSchemaCache (cacheAfter T history)).schemas[i] with
    | none =>
        -- an empty slot: its pcid is 0, and the null pointer is returned
        have hzero : pcid = 0 := by rw [← hpcid, hinv.empty i hschema]
        constructor
        · rintro ⟨heq, -⟩
          rw [hcall, hschema] at heq
          cases hload : pcSchemaFromPcidUncached T pcid with
          | error e =>
              rw [hload] at heq
              cases heq
          | ok loaded =>
              rw [hload] at heq
              cases heq
        · intro hfull
          exact absurd hschema (hfull hzero i)
    | some schema =>
        have hload := hinv.loaded i schema hschema
        rw [hpcid] at hload
        refine ⟨fun _ hzero => ?_, fun _ => hsame ?_⟩
        · by_contra hfull
          exact hinv.nonzero hfull i schema hschema (hpcid.trans hzero)
        · rw [hcall, hload, hschema]
          rfl
  · refine ⟨fun _ hzero j hj => ?_, fun _ => hsame ?_⟩
    · exact SchemaCache.slotOf_none hmiss j (by rw [hinv.empty j hj, hzero])
    · rw [hcall, hload]
      rfl
  · refine ⟨fun _ hzero j hj => ?_, fun _ => hsame ?_⟩
    · exact SchemaCache.slotOf_none hmiss j (by rw [hinv.empty j hj, hzero])
    · rw [hcall, hload]
      rfl

/-- In every sequence of calls that share a cache, all calls do as the table
exactly when every call for pcid 0 is made with all slots in use. -/
theorem pcSchemaFromPcid_transparent_iff (T : Formats S) (pcids : List (BitVec 32)) :
    (∀ (i : Nat) (h : i < pcids.length), Transparent T (pcids.take i) pcids[i]) ↔
      ∀ (i : Nat) (h : i < pcids.length), pcids[i] = 0 →
        (getSchemaCache (cacheAfter T (pcids.take i))).Full :=
  forall_congr' fun _ => forall_congr' fun _ => transparent_iff T _ _

/-- A formats table without rows. -/
def noFormats : Formats Unit where
  name := "pointcloud_formats"
  row := fun _ => none
  schemaFromXml := fun _ => .ok none

/-- On a fresh cache a call for pcid 0 returns the null pointer, where the table
has an error. -/
theorem pcSchemaFromPcid_null :
    (pcSchemaFromPcid noFormats (cacheAfter noFormats []) 0).1 = .ok none ∧
      pcSchemaFromPcidUncached noFormats 0 =
        raise "no entry in \"pointcloud_formats\" for pcid = 0" ∧
      ¬ Transparent noFormats [] 0 := by
  refine ⟨rfl, rfl, ?_⟩
  rw [transparent_iff]
  intro hfull
  exact hfull rfl 0 rfl

end Pointcloud
