/-
Pointcloud.Pgsql.Editor — a stored patch under another schema (`pc_editor.c`).

`pcpatchSetSchema` has three ways. Schemas with the same dimensions and the
same compression leave the patch as it is, but for the pcid: the bytes of the
serialized patch are copied, as many as the word of the length says. Schemas
with the same dimensions only leave the points as they are. In all other cases
the points are moved one by one.
-/
import Pointcloud.Patch.Edit
import Pointcloud.Pgsql.Serialize

namespace Pointcloud

open Pointcloud.Base

/-- `paout->schema = nschema`. -/
def PcPatch.withSchema (s : PcSchema) : PcPatch → PcPatch
  | .uncompressed p => .uncompressed { p with schema := s }
  | .dimensional p => .dimensional { p with schema := s }
  | .lazperf p => .lazperf { p with schema := s }

@[simp] theorem PcPatch.schema_withSchema (s : PcSchema) (p : PcPatch) :
    (p.withSchema s).schema = s := by cases p <;> rfl

@[simp] theorem PcPatch.bounds_withSchema (s : PcSchema) (p : PcPatch) :
    (p.withSchema s).bounds = p.bounds := by cases p <;> rfl

@[simp] theorem PcPatch.stats_withSchema (s : PcSchema) (p : PcPatch) :
    (p.withSchema s).stats = p.stats := by cases p <;> rfl

variable (P : Platform)

/-- `palloc`, which reports an error for a size that it does not give. -/
def palloc (size : Nat) : Run Unit :=
  if P.grants size then .ok ()
  else raise ("invalid memory alloc request size " ++ toString size)

theorem palloc_ok {P : Platform} {size : Nat} (h : size < 1073741824) : palloc P size = .ok () :=
  if_pos (P.grants_of_lt h)

/-- The copy of a serialized patch, with another pcid. The word `size` is taken
for the number of bytes. -/
def copySerialized (serpa : SerializedPatch) (pcid : Nat) : Run SerializedPatch := do
  palloc P serpa.size
  if serpa.size < offsetofData ∨ offsetofData + serpa.data.length < serpa.size then fault
  else return { serpa with pcid := pcid, data := serpa.data.take (serpa.size - offsetofData) }

/-- The general way: the points are moved, and the patch they make is stored. -/
def moveSerialized (serpa : SerializedPatch) (oschema nschema : PcSchema) (dflt : ℚ) :
    Run SerializedPatch := do
  let patch ← pcPatchDeserialize P serpa oschema
  let paout ← pcPatchSetSchema P patch nschema dflt
  let (serpatch, _) ← pcPatchSerialize P (.uncompressed paout) none
  return serpatch

/-- The points stay, and are stored under the other schema. -/
def swapSerialized (serpa : SerializedPatch) (oschema nschema : PcSchema) :
    Run SerializedPatch := do
  let paout ← pcPatchDeserialize P serpa oschema
  let (serpatch, _) ← pcPatchSerialize P (paout.withSchema nschema) none
  return serpatch

/-- `pcpatch_set_schema`. -/
def pcpatchSetSchema (serpa : SerializedPatch) (oschema nschema : PcSchema) (dflt : ℚ) :
    Run SerializedPatch := do
  if ← pcSchemaSameDimensions oschema nschema then
    if oschema.compression = nschema.compression then copySerialized P serpa nschema.pcid
    else swapSerialized P serpa oschema nschema
  else moveSerialized P serpa oschema nschema dflt

end Pointcloud
