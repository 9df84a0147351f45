/-
Pointcloud.Pgsql.EditorTheorems — when the short ways of `pcpatch_set_schema`
agree with the general one.

Under a schema with the same dimensions a patch holds the same points
(`Holds.withSchema`). The short ways keep the bounds too, which are in the
terms of the old scales and offsets, while the general way reads them from the
points of the statistics anew. And the copy takes the word of the length for
the length, which it is not where the word has its two bits in the low place.
-/
import Pointcloud.Patch.SetSchemaTheorems
import Pointcloud.Pgsql.Editor
import Pointcloud.Pgsql.SerializeTheorems

namespace Pointcloud

open Pointcloud.Base

variable {P : Platform}

/-! ## Schemas with the same dimensions

Names and types are compared, so points have the same bytes under both, dimension by
dimension. Scales and offsets may differ. -/

/-- The dimensions have the same types in the same order, and names. -/
structure SameDimensions (old new : PcSchema) : Prop where
  types_eq : old.dims.map PcDimension.interpretation = new.dims.map PcDimension.interpretation
  named : ∀ dim ∈ new.dims, dim.name ≠ none

theorem sameDimensionsLoop_eq_true : ∀ {olds news : List PcDimension}, olds.length = news.length →
    sameDimensionsLoop (olds.zip news) = .ok true →
    olds.map PcDimension.interpretation = news.map PcDimension.interpretation ∧
      ∀ dim ∈ news, dim.name ≠ none
  | [], [], _, _ => ⟨rfl, by simp⟩
  | old :: olds, new :: news, hlen, h => by
      rw [List.zip_cons_cons, sameDimensionsLoop] at h
      split at h
      · next oname nname hold hnew =>
          split_ifs at h with hname htype
          · exact absurd h (by simp)
          · obtain ⟨htypes, hnamed⟩ := sameDimensionsLoop_eq_true (Nat.succ.inj hlen) h
            refine ⟨?_, ?_⟩
            · rw [List.map_cons, List.map_cons, htypes, not_not.mp htype]
            · intro dim hd
              rcases List.mem_cons.mp hd with rfl | hd
              · rw [hnew]
                exact Option.some_ne_none _
              · exact hnamed dim hd
          · exact absurd h (by simp)
      · exact absurd h (fault_ne_ok true)

/-- What `pc_schema_same_dimensions` finds. -/
theorem sameDimensions_of_true {old new : PcSchema}
    (h : pcSchemaSameDimensions old new = .ok true) : SameDimensions old new := by
  unfold pcSchemaSameDimensions at h
  split_ifs at h with hlen
  · exact absurd h (by simp)
  · obtain ⟨htypes, hnamed⟩ := sameDimensionsLoop_eq_true (not_not.mp hlen) h
    exact ⟨htypes, hnamed⟩

theorem PcSchema.map_size (s : PcSchema) :
    s.dims.map PcDimension.size =
      (s.dims.map PcDimension.interpretation).map Interpretation.size := by
  rw [List.map_map]
  exact List.map_congr_left fun dim hd => s.dim_size hd

section Same

variable {old new : PcSchema} (hsame : SameDimensions old new)

include hsame

theorem SameDimensions.sizes_eq :
    old.dims.map PcDimension.size = new.dims.map PcDimension.size := by
  rw [old.map_size, new.map_size, hsame.types_eq]

theorem SameDimensions.size_eq : new.size = old.size := by
  rw [new.size_eq, old.size_eq, sizeOfDims, sizeOfDims, hsame.sizes_eq]

/-- A point has the same bytes in both. -/
theorem SameDimensions.cells_eq (pt : Bytes) :
    (old.dims.map fun dim => dim.bytesIn pt) = new.dims.map fun dim => dim.bytesIn pt := by
  rw [old.bytesIn_eq_pieces, new.bytesIn_eq_pieces, hsame.sizes_eq]

/-- Under the other schema the patch holds the same points. -/
theorem PcPatchUncompressed.Holds.withSchema {u : PcPatchUncompressed} {pts : List Bytes}
    (h : u.Holds pts) (hschema : u.schema = old) :
    ({ u with schema := new } : PcPatchUncompressed).Holds pts := by
  subst hschema
  have hsize := hsame.size_eq
  exact ⟨h.npoints_lt, hsize.symm ▸ h.room, hsize.symm ▸ h.records_eq⟩

theorem PcPatchDimensional.Holds.withSchema {d : PcPatchDimensional} {pts : List Bytes}
    (h : d.Holds P pts) (hschema : d.schema = old) :
    ({ d with schema := new } : PcPatchDimensional).Holds P pts := by
  subst hschema
  have hlen := congrArg List.length hsame.types_eq
  rw [List.length_map, List.length_map] at hlen
  refine ⟨h.npoints_lt, h.npoints_eq, hsame.size_eq.symm ▸ h.width_eq, ?_⟩
  refine List.forall₂_iff_get.mpr ⟨hlen ▸ h.bytes_hold.length_eq, fun i hi hi' => ?_⟩
  have hi₀ : i < d.schema.dims.length := hlen.symm ▸ hi
  obtain ⟨hinterp, hnp, hstores⟩ := (List.forall₂_iff_get.mp h.bytes_hold).2 i hi₀ hi'
  have htype : d.schema.dims[i].interpretation = new.dims[i].interpretation := by
    have := congrArg (fun l => l[i]?) hsame.types_eq
    simpa [hi₀, show i < new.dims.length from hi] using this
  have hcell : d.schema.dims[i].bytesIn = new.dims[i].bytesIn := by
    funext pt
    have := congrArg (fun l => l[i]?) (hsame.cells_eq pt)
    simpa [hi₀, show i < new.dims.length from hi] using this
  exact ⟨hinterp.trans htype, hnp, by simpa only [List.get_eq_getElem, hcell] using hstores⟩

theorem PcPatch.Holds.withSchema {p : PcPatch} {pts : List Bytes} (h : p.Holds P pts)
    (hschema : p.schema = old) : (p.withSchema new).Holds P pts := by
  cases p with
  | uncompressed u => exact PcPatchUncompressed.Holds.withSchema hsame h hschema
  | dimensional d => exact PcPatchDimensional.Holds.withSchema hsame h hschema
  | lazperf l => exact h.elim

end Same

/-! ## The stored patch

Two descriptions of what is stored: `Stored` is how it came about, from a patch and
its statistics, and `Shows` what can be read of it again. -/

/-- `sp` is the patch `p` with the points `pts` as it is stored under the schema `s`. -/
structure Stored (P : Platform) (s : PcSchema) (pts : List Bytes) (p : PcPatch) (st : PcStats)
    (sp : SerializedPatch) : Prop where
  serialized_eq : sp = serialized P.endian p st
  schema_eq : p.schema = s
  holds : p.Holds P pts
  stats_eq : p.stats = some st
  width : StatsWidth s st
  sized : WkbSized p
  size_lt : pcPatchSerializedSize p < 1073741824

/-- A patch under the schema `s` with these bounds, statistics and points. -/
structure Shows (P : Platform) (s : PcSchema) (b : PcBounds) (min max avg : Bytes)
    (pts : List Bytes) (q : PcPatch) : Prop where
  schema_eq : q.schema = s
  bounds_eq : q.bounds = b
  stats_eq : ∃ st, q.stats = some st ∧ st.min.data = min ∧ st.max.data = max ∧ st.avg.data = avg
  holds : q.Holds P pts

section Stored

variable {s : PcSchema} {pts : List Bytes} {p : PcPatch} {st : PcStats} {sp : SerializedPatch}
  (h : Stored P s pts p st sp)

include h

theorem Stored.deserialize_ok :
    ∃ q, pcPatchDeserialize P sp s = .ok q ∧
      Shows P s p.bounds st.min.data st.max.data st.avg.data pts q := by
  obtain ⟨hsp, rfl, hholds, hst, hwidth, hsized, hlt⟩ := h
  obtain ⟨q, hread, -, hq⟩ := deserialize_serialized hholds hst hwidth hsized hlt
  obtain ⟨st₁, st₂, hst₁, hst₂, hdata⟩ := hq.stats_eq
  rw [hst, Option.some.injEq] at hst₁
  subst hst₁
  exact ⟨q, hsp ▸ hread, hq.schema_eq, hq.bounds_eq, ⟨st₂, hst₂, hdata⟩, hq.holds⟩

/-- The object has as many bytes as were asked for. -/
theorem Stored.length_eq : offsetofData + sp.data.length = pcPatchSerializedSize p := by
  obtain ⟨rfl, rfl, hholds, -, hwidth, hsized, -⟩ := h
  rw [pcPatchSerializedSize_eq hholds hsized P.endian]
  simp only [serialized, List.length_append, hwidth.length_statsBytes, length_zeros, offsetofData]
  omega

/-- The word of the length is the length on a big-endian machine only. -/
theorem copySerialized_ok (hbig : P.endian = .big) (pcid : Nat) :
    copySerialized P sp pcid = .ok { sp with pcid := pcid } := by
  have hlen := h.length_eq
  have hlt := h.size_lt
  have hsize : sp.size = pcPatchSerializedSize p := by
    rw [h.serialized_eq, serialized, hbig]
    exact Nat.mod_eq_of_lt hlt
  have htake : sp.data.take (sp.size - offsetofData) = sp.data :=
    List.take_of_length_le (by omega)
  rw [copySerialized, palloc_ok (by omega), ok_bind, if_neg (by omega), htake, pure_eq_ok]

theorem copySerialized_not_ok (hlittle : P.endian = .little) (pcid : Nat) (out : SerializedPatch) :
    copySerialized P sp pcid ≠ .ok out := by
  have hlen := h.length_eq
  have hlt := h.size_lt
  have hsize : sp.size = 4 * pcPatchSerializedSize p := by
    rw [h.serialized_eq, serialized, hlittle]
    exact (Nat.mod_eq_of_lt (by omega)).trans (Nat.mul_comm _ _)
  intro hok
  obtain ⟨-, -, hok⟩ := bind_eq_ok.mp hok
  rw [if_pos (.inr (by rw [offsetofData] at hlen ⊢; omega))] at hok
  exact fault_ne_ok out hok

/-- Stored under another schema with the same dimensions, the bytes differ in the
pcid only. -/
theorem Stored.withSchema {new : PcSchema} (hsame : SameDimensions s new) :
    Stored P new pts (p.withSchema new) st { sp with pcid := new.pcid } := by
  obtain ⟨rfl, rfl, hholds, hst, hwidth, hsized, hlt⟩ := h
  have hsize := hsame.size_eq
  have hserialized : pcPatchSerializedSize (p.withSchema new) = pcPatchSerializedSize p := by
    cases p with
    | uncompressed u =>
        exact congrArg (fun n => bufferAlign sizeofSerializedPatch - 1 + 3 * n + u.datasize) hsize
    | dimensional d =>
        exact congrArg (fun n => bufferAlign sizeofSerializedPatch - 1 + 3 * n +
          pcPatchDimensionalSerializedSize d) hsize
    | lazperf l => exact hholds.elim
  refine ⟨?_, p.schema_withSchema new, hholds.withSchema hsame rfl,
    (p.stats_withSchema new).trans hst, ?_, ?_, hserialized.symm ▸ hlt⟩
  · rw [serialized, serialized, hserialized]
    cases p <;> rfl
  · exact ⟨hsize.symm ▸ hwidth.min, hsize.symm ▸ hwidth.max, hsize.symm ▸ hwidth.avg⟩
  · cases p with
    | uncompressed u => exact (show u.datasize = u.npoints * new.size from hsize.symm ▸ hsized)
    | dimensional d => exact hsized
    | lazperf l => exact hholds.elim

end Stored

/-! ## What a way yields

The ways are compared by what can be read of their results. That is determined
(`Yields.unique`), so that two ways agree when their results yield the same. -/

/-- The patch that is read back from what a way stores. -/
def Yields (P : Platform) (s : PcSchema) (b : PcBounds) (min max avg : Bytes) (pts : List Bytes)
    (way : Run SerializedPatch) : Prop :=
  ∃ out q, way = .ok out ∧ pcPatchDeserialize P out s = .ok q ∧ Shows P s b min max avg pts q

theorem Yields.unique {s : PcSchema} {b b' : PcBounds} {min max avg min' max' avg' : Bytes}
    {pts pts' : List Bytes} {way : Run SerializedPatch} (h : Yields P s b min max avg pts way)
    (h' : Yields P s b' min' max' avg' pts' way) :
    b = b' ∧ min = min' ∧ max = max' ∧ avg = avg' ∧ pts = pts' := by
  obtain ⟨out, q, hout, hq, hschema, rfl, ⟨st, hst, rfl, rfl, rfl⟩, hpts⟩ := h
  obtain ⟨out', q', hout', hq', hschema', rfl, ⟨st', hst', rfl, rfl, rfl⟩, hpts'⟩ := h'
  rw [hout, Except.ok.injEq] at hout'
  subst hout'
  rw [hq, Except.ok.injEq] at hq'
  subst hq'
  rw [hst, Option.some.injEq] at hst'
  subst hst'
  exact ⟨rfl, rfl, rfl, rfl, hpts.unique hpts'⟩

/-- Storing a patch yields the patch. -/
theorem yields_of_patchToSerialize {s : PcSchema} {x : PcPatch} {pts : List Bytes} {st : PcStats}
    (hschema : x.schema = s) (h : x.Holds P pts) (hsized : RecordsSized x) (hst : x.stats = some st)
    (hwidth : StatsWidth s st) (hbelow : BelowGigabyte P x none)
    (hok : ∃ r, patchToSerialize P x none = .ok r) :
    Yields P s x.bounds st.min.data st.max.data st.avg.data pts (do
      let (serpatch, _) ← pcPatchSerialize P x none
      return serpatch) := by
  subst hschema
  obtain ⟨r, hr⟩ := hok
  have huser : ∀ pds ∈ (none : Option PcDimStats), pds.stats.length = x.schema.dims.length := by
    simp
  obtain ⟨q, st', userdata', hw⟩ := written_of_patchToSerialize hst hbelow h hsized huser hr
  obtain ⟨out, userdata'', q', hwrite, hread, -, -, hq⟩ := hw.roundTrips hst hwidth
  obtain ⟨st₁, st₂, hst₁, hst₂, hdata⟩ := hq.stats_eq
  rw [hst, Option.some.injEq] at hst₁
  subst hst₁
  refine ⟨out, q', ?_, hread, hq.schema_eq, hq.bounds_eq, ⟨st₂, hst₂, hdata⟩, hq.holds⟩
  rw [hwrite, ok_bind]
  rfl

theorem patchToSerialize_of_ok {x : PcPatch} {st : PcStats} (hst : x.stats = some st)
    {out : SerializedPatch} (hok : (do
      let (serpatch, _) ← pcPatchSerialize P x none
      return serpatch) = Except.ok out) : ∃ r, patchToSerialize P x none = .ok r := by
  obtain ⟨w, hw, -⟩ := bind_eq_ok.mp hok
  rw [pcPatchSerialize_eq hst] at hw
  obtain ⟨r, hr, -⟩ := bind_eq_ok.mp hw
  exact ⟨r, hr⟩

/-- The short ways and the general one are able to store what they make. -/
structure WaysBelowGigabyte (P : Platform) (sp : SerializedPatch) (old new : PcSchema) (dflt : ℚ) :
    Prop where
  swap : ∀ q, pcPatchDeserialize P sp old = .ok q → BelowGigabyte P (q.withSchema new) none
  move : ∀ q r, pcPatchDeserialize P sp old = .ok q → pcPatchSetSchema P q new dflt = .ok r →
    BelowGigabyte P (.uncompressed r) none

section Ways

variable {old new : PcSchema} {pts : List Bytes} {p : PcPatch} {st : PcStats}
  {sp : SerializedPatch} (h : Stored P old pts p st sp)
  (hrecords : pts.length * old.size < 1073741824) {dflt : ℚ}
  (hbelow : WaysBelowGigabyte P sp old new dflt)

include h hbelow

/-! ## The short ways

The schema is swapped under the patch as it was read. Where that changes the
compression the patch is encoded again, otherwise the stored bytes are copied; the
copy is the one that goes wrong. -/

section Short

variable (hsame : SameDimensions old new)

include hsame

/-- The patch that is read, under the other schema. -/
theorem swapped_of_stored : ∃ q st', pcPatchDeserialize P sp old = .ok q ∧
    (q.withSchema new).Holds P pts ∧ RecordsSized (q.withSchema new) ∧ q.bounds = p.bounds ∧
    q.stats = some st' ∧ st'.min.data = st.min.data ∧ st'.max.data = st.max.data ∧
    st'.avg.data = st.avg.data ∧ StatsWidth new st' := by
  obtain ⟨q, hq, hschema, hbounds, ⟨st', hst', hmin, hmax, havg⟩, hholds⟩ := h.deserialize_ok
  have hsized := (fields_of_deserialize hq).2.2
  have hwidth := h.width
  have hsize := hsame.size_eq
  refine ⟨q, st', hq, hholds.withSchema hsame hschema, ?_, hbounds, hst', hmin, hmax, havg,
    ⟨by rw [hmin, hsize, hwidth.min], by rw [hmax, hsize, hwidth.max],
      by rw [havg, hsize, hwidth.avg]⟩⟩
  cases q with
  | uncompressed u =>
      subst hschema
      exact (show u.datasize = u.npoints * new.size from hsize.symm ▸ hsized)
  | dimensional d => trivial
  | lazperf l => exact hholds.elim

/-- A patch whose schema is swapped keeps its bounds, statistics and points. -/
theorem yields_of_swapSerialized {out : SerializedPatch}
    (hok : swapSerialized P sp old new = .ok out) :
    Yields P new p.bounds st.min.data st.max.data st.avg.data pts
      (swapSerialized P sp old new) := by
  obtain ⟨q, st', hq, hholds, hsized, hbounds, hst', hmin, hmax, havg, hwidth⟩ :=
    swapped_of_stored h hbelow hsame
  have hstats : (q.withSchema new).stats = some st' := (q.stats_withSchema new).trans hst'
  rw [swapSerialized, hq, ok_bind] at hok ⊢
  have hyields := yields_of_patchToSerialize (q.schema_withSchema new) hholds hsized hstats hwidth
    (hbelow.swap q hq) (patchToSerialize_of_ok hstats hok)
  rwa [q.bounds_withSchema, hbounds, hmin, hmax, havg] at hyields

/-- The short ways keep the patch as it is, and the copy needs a big-endian machine. -/
theorem yields_of_pcpatchSetSchema (hdims : pcSchemaSameDimensions old new = .ok true)
    {out : SerializedPatch} (hok : pcpatchSetSchema P sp old new dflt = .ok out) :
    (old.compression = new.compression → P.endian = .big) ∧
      Yields P new p.bounds st.min.data st.max.data st.avg.data pts
        (pcpatchSetSchema P sp old new dflt) := by
  rw [pcpatchSetSchema, hdims, ok_bind, if_pos rfl] at hok ⊢
  by_cases hcomp : old.compression = new.compression
  · rw [if_pos hcomp] at hok ⊢
    cases hen : P.endian with
    | little => exact absurd hok (copySerialized_not_ok h hen new.pcid out)
    | big =>
        obtain ⟨q, hq, hshows⟩ := (h.withSchema hsame).deserialize_ok
        rw [p.bounds_withSchema] at hshows
        exact ⟨fun _ => rfl, _, q, copySerialized_ok h hen new.pcid, hq, hshows⟩
  · rw [if_neg hcomp] at hok ⊢
    exact ⟨fun heq => absurd heq hcomp, yields_of_swapSerialized h hbelow hsame hok⟩

/-- They return if the points can be stored under the new schema. -/
theorem pcpatchSetSchema_ok (hdims : pcSchemaSameDimensions old new = .ok true)
    (hcopied : old.compression = new.compression → P.endian = .big)
    (hwritable : Writable P new pts) : ∃ out, pcpatchSetSchema P sp old new dflt = .ok out := by
  rw [pcpatchSetSchema, hdims, ok_bind, if_pos rfl]
  by_cases hcomp : old.compression = new.compression
  · rw [if_pos hcomp]
    exact ⟨_, copySerialized_ok h (hcopied hcomp) new.pcid⟩
  · obtain ⟨q, st', hq, hholds, hsized, -, hst', -, -, -, hwidth⟩ :=
      swapped_of_stored h hbelow hsame
    have hstats : (q.withSchema new).stats = some st' := (q.stats_withSchema new).trans hst'
    have hswap := hbelow.swap q hq
    have hto : ∃ r, patchToSerialize P (q.withSchema new) none = .ok r := by
      cases q with
      | uncompressed u =>
          exact (patchToSerialize_isOk_iff hholds
            fun hne => hswap.records (Ne.symm hne)).mpr hwritable
      | dimensional d =>
          obtain ⟨r, st'', userdata', hw⟩ := written_dimensional hstats hswap rfl hholds
            (hwritable.imp_right And.left)
          exact ⟨_, hw.ok⟩
      | lazperf l => exact hholds.elim
    obtain ⟨out, -, hout, -⟩ := yields_of_patchToSerialize
      (q.schema_withSchema new) hholds hsized hstats
      hwidth hswap hto
    rw [if_neg hcomp, swapSerialized, hq, ok_bind]
    exact ⟨out, hout⟩

end Short

/-! ## The general way

The points are laid out anew, and so are those of the statistics. The bounds are
read from these under the new schema. -/

section General

variable (hsame : SameDimensions old new) (hold : old.Valid) (hnew : new.Valid)

include hrecords hsame hold hnew

/-- The patch that is moved. -/
theorem moved_of_stored (hmatch : Matches old new) : ∃ q r, pcPatchDeserialize P sp old = .ok q ∧
    pcPatchSetSchema P q new dflt = .ok r ∧ r.schema = new ∧
    r.Holds (pts.map (moved P old new dflt)) ∧ RecordsSized (.uncompressed r) ∧
    ∃ st', r.stats = some st' ∧ StatsOver new st' ∧
      st'.min.data = moved P old new dflt st.min.data ∧
      st'.max.data = moved P old new dflt st.max.data ∧
      st'.avg.data = moved P old new dflt st.avg.data ∧
      ∀ xdim ydim, new.xdimension = some xdim → new.ydimension = some ydim →
        r.bounds = boundsIn P.endian xdim ydim st'.min.data st'.max.data := by
  obtain ⟨q, hq, rfl, -, ⟨st₁, hst₁, hmin, hmax, havg⟩, hholds⟩ := h.deserialize_ok
  obtain ⟨-, ⟨st₂, hst₂, hover⟩, -⟩ := fields_of_deserialize hq
  rw [hst₁, Option.some.injEq] at hst₂
  subst hst₂
  have hcount : q.npoints * q.schema.size < 1073741824 := hholds.length_eq ▸ hrecords
  obtain ⟨u, hu, huholds⟩ : ∃ u, pcPatchUncompress P q = .ok u ∧ u.Holds pts := by
    cases q with
    | uncompressed u => exact ⟨u, rfl, hholds⟩
    | dimensional d =>
        obtain ⟨u, hu, huholds, -⟩ := uncompressed_holds hholds (fits_of_records hcount)
        exact ⟨u, hu, huholds⟩
    | lazperf l => exact hholds.elim
  have hsize : new.size * q.npoints < 9223372036854775808 := by
    rw [hsame.size_eq, Nat.mul_comm]
    omega
  obtain ⟨r, hr, hmoved⟩ := pcPatchSetSchema_ok hu huholds hsize hold hnew hmatch
    (fun st hst => by rw [hst₁, Option.some.injEq] at hst; exact hst ▸ hover) dflt
  obtain ⟨st', hst', hover', hmin', hmax', havg', hbounds⟩ := hmoved.with_stats st₁ hst₁
  rw [hmin] at hmin'
  rw [hmax] at hmax'
  rw [havg] at havg'
  refine ⟨q, r, hq, hr, hmoved.schema_eq, hmoved.holds, ?_, st', hst', hover', hmin', hmax', havg',
    hbounds⟩
  rw [RecordsSized, hmoved.datasize_eq, hmoved.npoints_eq, hmoved.schema_eq, Nat.mul_comm]

/-- The general way moves points and statistics, and reads the bounds anew. -/
theorem yields_of_moveSerialized {out : SerializedPatch}
    (hok : moveSerialized P sp old new dflt = .ok out) {xdim ydim : PcDimension}
    (hxdim : new.xdimension = some xdim) (hydim : new.ydimension = some ydim) :
    Matches old new ∧ Writable P new (pts.map (moved P old new dflt)) ∧
      Yields P new
        (boundsIn P.endian xdim ydim (moved P old new dflt st.min.data)
          (moved P old new dflt st.max.data))
        (moved P old new dflt st.min.data) (moved P old new dflt st.max.data)
        (moved P old new dflt st.avg.data) (pts.map (moved P old new dflt))
        (moveSerialized P sp old new dflt) := by
  have hmatch : Matches old new := by
    obtain ⟨q, hq, hset⟩ := bind_eq_ok.mp hok
    obtain ⟨r, hr, -⟩ := bind_eq_ok.mp hset
    obtain ⟨q', hq', hschema, -⟩ := h.deserialize_ok
    rw [hq, Except.ok.injEq] at hq'
    subst hq'
    exact hschema ▸ matches_of_pcPatchSetSchema hr
  obtain ⟨q, r, hq, hr, hschema, hholds, hsized, st', hst', hover, hmin, hmax, havg, hbounds⟩ :=
    moved_of_stored h hrecords hbelow hsame hold hnew hmatch
  have hmove := hbelow.move q r hq hr
  rw [moveSerialized, hq, ok_bind, hr, ok_bind] at hok ⊢
  have hstats : (PcPatch.uncompressed r).stats = some st' := hst'
  have hto := patchToSerialize_of_ok hstats hok
  have hyields := yields_of_patchToSerialize
    (show (PcPatch.uncompressed r).schema = new from hschema)
    hholds hsized hstats hover.width hmove hto
  have hwritable := (patchToSerialize_isOk_iff hholds fun hne => hmove.records (Ne.symm hne)).mp hto
  rw [hschema] at hwritable
  rw [show (PcPatch.uncompressed r).bounds = r.bounds from rfl, hbounds xdim ydim hxdim hydim, hmin,
    hmax, havg] at hyields
  exact ⟨hmatch, hwritable, hyields⟩

theorem moveSerialized_ok (hmatch : Matches old new)
    (hwritable : Writable P new (pts.map (moved P old new dflt))) :
    ∃ out, moveSerialized P sp old new dflt = .ok out := by
  obtain ⟨q, r, hq, hr, hschema, hholds, hsized, st', hst', hover, -⟩ :=
    moved_of_stored h hrecords hbelow hsame hold hnew hmatch
  have hmove := hbelow.move q r hq hr
  have hto : ∃ w, patchToSerialize P (.uncompressed r) none = .ok w :=
    (patchToSerialize_isOk_iff hholds fun hne => hmove.records (Ne.symm hne)).mpr
      (hschema.symm ▸ hwritable)
  obtain ⟨out, -, hout, -⟩ :=
    yields_of_patchToSerialize
      (show (PcPatch.uncompressed r).schema = new from hschema) hholds hsized
      hst' hover.width hmove hto
  rw [moveSerialized, hq, ok_bind, hr, ok_bind]
  exact ⟨out, hout⟩

end General

end Ways

/-! ## The ways compared

On both sides the points have to be the same (`SameCells`), the bounds those that the
new scales and offsets give, and the copy must not be reached where the word of the
length is shifted. -/

/-- The dimension that the old schema has under a new name has the bytes of the
new one in the point; where it has none, the default value has. -/
def SameCells (P : Platform) (old new : PcSchema) (dflt : ℚ) (pt : Bytes) : Prop :=
  ∀ dim ∈ new.dims, (∀ odim, likeOf old dim = some odim → odim.bytesIn pt = dim.bytesIn pt) ∧
    (likeOf old dim = none → dim.stored P dflt = dim.bytesIn pt)

theorem moved_eq_iff {old new : PcSchema} (hmatch : Matches old new)
    (hsame : SameDimensions old new) (dflt : ℚ) {pt : Bytes} (hpt : pt.length = old.size) :
    moved P old new dflt pt = pt ↔ SameCells P old new dflt pt := by
  have hcell : SameCells P old new dflt pt ↔
      ∀ dim ∈ new.dims, movedCell P old dflt pt dim = dim.bytesIn pt := by
    refine forall₂_congr fun dim _ => ?_
    rw [movedCell]
    cases likeOf old dim with
    | some odim => simp
    | none => simp
  rw [hcell]
  constructor
  · intro heq dim hd
    rw [← bytesIn_moved hmatch dflt hpt hd, heq]
  · intro hcells
    rw [moved, PcSchema.laid, List.map_congr_left hcells,
      new.flatten_bytesIn (hpt.trans hsame.size_eq.symm)]

/-- The stored patch is returned under the new schema with the points, the bounds and
the statistics that the general way gives. -/
def SetSchemaAgrees (P : Platform) (sp : SerializedPatch) (old new : PcSchema) (dflt : ℚ) : Prop :=
  ∃ b min max avg pts, Yields P new b min max avg pts (pcpatchSetSchema P sp old new dflt) ∧
    Yields P new b min max avg pts (moveSerialized P sp old new dflt)

/-- Only a big-endian machine copies; the names of the dimensions lead to the
dimensions; the bounds are those of the statistics in the terms of the new
schema; and the points can be stored under it. -/
structure SetSchemaCondition (P : Platform) (old new : PcSchema) (pts : List Bytes) (p : PcPatch)
    (st : PcStats) (dflt : ℚ) : Prop where
  copied : old.compression = new.compression → P.endian = .big
  matched : Matches old new
  cells : ∀ pt ∈ st.min.data :: st.max.data :: st.avg.data :: pts, SameCells P old new dflt pt
  bounds : ∀ xdim ydim, new.xdimension = some xdim → new.ydimension = some ydim →
    p.bounds = boundsIn P.endian xdim ydim st.min.data st.max.data
  writable : Writable P new pts

/-- The ways agree exactly under this condition. -/
theorem pcpatchSetSchema_agrees_iff (P : Platform) {old new : PcSchema} {pts : List Bytes}
    {p : PcPatch} {st : PcStats} {sp : SerializedPatch} (h : Stored P old pts p st sp)
    (hold : old.Valid) (hnew : new.Valid) (hdims : pcSchemaSameDimensions old new = .ok true)
    (hrecords : pts.length * old.size < 1073741824) (dflt : ℚ)
    (hbelow : WaysBelowGigabyte P sp old new dflt) :
    SetSchemaAgrees P sp old new dflt ↔ SetSchemaCondition P old new pts p st dflt := by
  have hsame := sameDimensions_of_true hdims
  obtain ⟨xdim, -, hxdim⟩ := hnew.xdimension
  obtain ⟨ydim, -, hydim⟩ := hnew.ydimension
  have hwidth : ∀ pt ∈ st.min.data :: st.max.data :: st.avg.data :: pts, pt.length = old.size := by
    have hpts := h.holds.width_eq
    rw [h.schema_eq] at hpts
    simp only [List.forall_mem_cons]
    exact ⟨h.width.min, h.width.max, h.width.avg, hpts⟩
  constructor
  · rintro ⟨b, min, max, avg, pts', hshort, hgeneral⟩
    obtain ⟨out, q, hout, hread⟩ := id hshort
    obtain ⟨gen, g, hgen, -⟩ := id hgeneral
    obtain ⟨hcopied, hkeeps⟩ := yields_of_pcpatchSetSchema h hbelow hsame hdims hout
    obtain ⟨hmatch, hwritable, hmoves⟩ :=
      yields_of_moveSerialized h hrecords hbelow hsame hold hnew hgen hxdim hydim
    obtain ⟨rfl, rfl, rfl, rfl, rfl⟩ := hkeeps.unique hshort
    obtain ⟨hbounds, hmin, hmax, havg, hpts⟩ := hgeneral.unique hmoves
    rw [← hmin, ← hmax] at hbounds
    have hkept : ∀ pt ∈ pts, pt = moved P old new dflt pt :=
      List.map_inj_left.mp ((List.map_id pts).trans hpts)
    refine ⟨hcopied, hmatch, fun pt hpt => ?_, fun x y hx hy => ?_, hpts ▸ hwritable⟩
    · refine (moved_eq_iff hmatch hsame dflt (hwidth pt hpt)).mp (Eq.symm ?_)
      simp only [List.mem_cons] at hpt
      rcases hpt with rfl | rfl | rfl | hpt
      · exact hmin
      · exact hmax
      · exact havg
      · exact hkept pt hpt
    · rw [hxdim, Option.some.injEq] at hx
      rw [hydim, Option.some.injEq] at hy
      rw [hbounds, hx, hy]
  · rintro ⟨hcopied, hmatch, hcells, hbounds, hwritable⟩
    have hkept : ∀ pt ∈ st.min.data :: st.max.data :: st.avg.data :: pts,
        moved P old new dflt pt = pt :=
      fun pt hpt => (moved_eq_iff hmatch hsame dflt (hwidth pt hpt)).mpr (hcells pt hpt)
    simp only [List.forall_mem_cons] at hkept
    obtain ⟨hmin, hmax, havg, hpts⟩ := hkept
    have hmap : pts.map (moved P old new dflt) = pts :=
      (List.map_congr_left hpts).trans (List.map_id pts)
    obtain ⟨out, hout⟩ := pcpatchSetSchema_ok h hbelow hsame hdims hcopied hwritable
    obtain ⟨gen, hgen⟩ :=
      moveSerialized_ok h hrecords hbelow hsame hold hnew hmatch (hmap.symm ▸ hwritable)
    obtain ⟨-, hkeeps⟩ := yields_of_pcpatchSetSchema h hbelow hsame hdims hout
    obtain ⟨-, -, hmoves⟩ :=
      yields_of_moveSerialized h hrecords hbelow hsame hold hnew hgen hxdim hydim
    rw [hmin, hmax, havg, hmap, ← hbounds xdim ydim hxdim hydim] at hmoves
    exact ⟨_, _, _, _, _, hkeeps, hmoves⟩

/-- Points of two bytes, with dimensional compression. -/
def diskSchema : PcSchema := xySchema .uint8 .uint8 uint8_known uint8_known 1 .dimensional

/-- Their statistics. -/
def diskStats : PcStats :=
  ⟨⟨false, diskSchema, [1, 2], rfl⟩, ⟨false, diskSchema, [3, 4], rfl⟩,
    ⟨false, diskSchema, [2, 3], rfl⟩⟩

/-- Two of them, dimension by dimension. -/
def diskDims : PcPatchDimensional :=
  { pairOfDims.dimensional [[1, 2], [3, 4]] with stats := some diskStats }

/-- The same points without compression. -/
def uncompressedSchema : PcSchema := xySchema .uint8 .uint8 uint8_known uint8_known 1 .none

theorem diskDims_stored :
    Stored Platform.plain diskSchema [[1, 2], [3, 4]] (.dimensional diskDims) diskStats
      (serialized .little (.dimensional diskDims) diskStats) := by
  have hholds : pairOfDims.Holds [[1, 2], [3, 4]] := ⟨by decide, by decide, by decide⟩
  exact ⟨rfl, rfl, hholds.dimensional.with_stats (some diskStats), rfl, ⟨rfl, rfl, rfl⟩,
    (by decide : ∀ e ∈ diskDims.bytes, pcBytesSerializedSize e < 2147483648), by decide⟩

theorem pcpatchSetSchema_agrees_iff_witness :
    SetSchemaAgrees Platform.plain (serialized .little (.dimensional diskDims) diskStats) diskSchema
      uncompressedSchema 0 := by
  have hlike : ∀ dim ∈ uncompressedSchema.dims, dim.name ≠ none ∧
      (likeOf diskSchema dim).map PcDimension.interpretation = some dim.interpretation ∧
      ∀ pt ∈ [[1, 2], [3, 4], [2, 3], [1, 2], [3, 4]],
        (likeOf diskSchema dim).map (fun odim => odim.bytesIn pt) = some (dim.bytesIn pt) := by
    decide
  have hread : (do
      let q ← pcPatchDeserialize Platform.plain
        (serialized .little (.dimensional diskDims) diskStats) diskSchema
      let w ← patchToSerialize Platform.plain (q.withSchema uncompressedSchema) none
      let r ← pcPatchSetSchema Platform.plain q uncompressedSchema 0
      let w' ← patchToSerialize Platform.plain (.uncompressed r) none
      return (q.npoints, r.npoints, r.schema.size, pcPatchSerializedSize w.1,
        pcPatchSerializedSize w'.1)) = .ok (2, 2, 2, 73, 73) := by decide +kernel
  obtain ⟨q, hq, hread⟩ := bind_eq_ok.mp hread
  obtain ⟨w, hw, hread⟩ := bind_eq_ok.mp hread
  obtain ⟨r, hr, hread⟩ := bind_eq_ok.mp hread
  obtain ⟨w', hw', hread⟩ := bind_eq_ok.mp hread
  simp only [pure_eq_ok, Except.ok.injEq, Prod.mk.injEq] at hread
  obtain ⟨hqn, hrn, hrsize, hwsize, hwsize'⟩ := hread
  have hnp : (q.withSchema uncompressedSchema).npoints = 2 := by
    rw [← hqn]
    cases q <;> rfl
  refine (pcpatchSetSchema_agrees_iff Platform.plain diskDims_stored ⟨rfl, rfl⟩
    ⟨rfl, rfl⟩ (by decide)
    (by decide) 0 ⟨fun q₁ hq₁ => ?_, fun q₁ r₁ hq₁ hr₁ => ?_⟩).mpr
    ⟨fun heq => absurd heq (by decide), fun dim hd => ⟨(hlike dim hd).1, fun odim hodim => ?_⟩,
      fun pt hpt dim hd => ⟨fun odim hodim => ?_, fun hnone => ?_⟩, fun x y hx hy => ?_, .inl rfl⟩
  · cases hq.symm.trans hq₁
    refine ⟨fun _ => ?_, fun w₁ userdata' hw₁ => ?_⟩
    · rw [hnp, q.schema_withSchema]
      decide
    · cases hw.symm.trans hw₁
      rw [hwsize]
      decide
  · cases hq.symm.trans hq₁
    cases hr.symm.trans hr₁
    refine ⟨fun _ => ?_, fun w₁ userdata' hw₁ => ?_⟩
    · change r.npoints * r.schema.size < 1073741824
      rw [hrn, hrsize]
      decide
    · cases hw'.symm.trans hw₁
      rw [hwsize']
      decide
  · have htype := (hlike dim hd).2.1
    rw [hodim] at htype
    exact Option.some.inj htype
  · have hcell := (hlike dim hd).2.2 pt hpt
    rw [hodim] at hcell
    exact Option.some.inj hcell
  · have htype := (hlike dim hd).2.1
    rw [hnone] at htype
    exact nomatch htype
  · cases hx
    cases hy
    decide +kernel

theorem two_lt_pcids : 2 < 4294967296 := by decide

/-- The schema of the points under another pcid. -/
def renumberedSchema : PcSchema := { diskSchema with pcid := 2, pcid_lt := two_lt_pcids }

/-- On a little-endian machine the copy runs past the end of the patch. -/
theorem pcpatchSetSchema_fails :
    Stored Platform.plain diskSchema [[1, 2], [3, 4]] (.dimensional diskDims) diskStats
      (serialized .little (.dimensional diskDims) diskStats) ∧
    pcSchemaSameDimensions diskSchema renumberedSchema = .ok true ∧
    pcpatchSetSchema Platform.plain
      (serialized .little (.dimensional diskDims) diskStats) diskSchema
      renumberedSchema 0 = fault ∧
    ¬ SetSchemaAgrees Platform.plain
      (serialized .little (.dimensional diskDims) diskStats) diskSchema
      renumberedSchema 0 := by
  have hfault : pcpatchSetSchema Platform.plain
    (serialized .little (.dimensional diskDims) diskStats)
      diskSchema renumberedSchema 0 = fault := by
    have hdims : pcSchemaSameDimensions diskSchema renumberedSchema = .ok true := by decide
    have hcomp : diskSchema.compression = renumberedSchema.compression := rfl
    rw [pcpatchSetSchema, hdims, ok_bind, if_pos rfl, if_pos hcomp]
    rfl
  refine ⟨diskDims_stored, by decide, hfault, ?_⟩
  rintro ⟨b, min, max, avg, pts, ⟨out, q, hout, -⟩, -⟩
  rw [hfault] at hout
  exact fault_ne_ok out hout

end Pointcloud
