/-
Pointcloud.Pgsql.SessionTheorems — sessions of SQL on stored patches.

What a session has stored was stored by calls, of patches that were stored before. As
every call stores what stands for the points that it is meant to make
(`represents_of_call`), a session is simulated by one on sequences of points
(`sessions_simulated`).
-/
import Pointcloud.Pgsql.CallTheorems

namespace Pointcloud

open Pointcloud.Base

variable {P : Platform}

/-- Every call stores what stands for the points that it is meant to make. -/
theorem represents_of_call {lookup : Nat → Run (Option PcSchema)} (htable : FormatsTable lookup)
    {S : SortR} {c : PatchCall} {out : SerializedPatch}
    (hcond : CallCondition P lookup S c) (hrun : c.run P lookup S = .ok (some out))
    {pss : List PointSequence}
    (h : List.Forall₂ (SerializedPatch.Represents P lookup) (c.inputs P.endian) pss) :
    ∃ q, c.Means P lookup pss q ∧ out.Represents P lookup q := by
  have hone : ∀ {sp : SerializedPatch} {pss : List PointSequence},
      List.Forall₂ (SerializedPatch.Represents P lookup) [sp] pss →
        ∃ ps, pss = [ps] ∧ sp.Represents P lookup ps := by
    intro sp pss h
    obtain ⟨ps, rest, hps, hrest, rfl⟩ := List.forall₂_cons_left_iff.mp h
    exact ⟨ps, by rw [List.forall₂_nil_left_iff.mp hrest], hps⟩
  cases c with
  | patchIn str typmod =>
      cases h
      obtain ⟨sp, hsp, hret⟩ := bind_eq_ok.mp hrun
      cases hret
      exact represents_patchIn htable hcond hsp
  | fromPointArray array =>
      cases h
      exact represents_fromPointArray htable hcond hrun
  | fromPatchArray array => exact represents_fromPatchArray htable hcond h hrun
  | fromFloatArray pcid array =>
      cases h
      obtain ⟨sp, hsp, hret⟩ := bind_eq_ok.mp hrun
      cases hret
      exact represents_fromFloatArray htable hcond hsp
  | compress serpa comprIn configIn =>
      obtain ⟨ps, rfl, hps⟩ := hone h
      obtain ⟨sp, hsp, hret⟩ := bind_eq_ok.mp hrun
      cases hret
      exact represents_compress htable hps hcond hsp
  | uncompress serpa =>
      obtain ⟨ps, rfl, hps⟩ := hone h
      obtain ⟨sp, hsp, hret⟩ := bind_eq_ok.mp hrun
      cases hret
      exact represents_uncompress htable hps hcond hsp
  | range serpa first count =>
      obtain ⟨ps, rfl, hps⟩ := hone h
      exact represents_range htable hps hcond hrun
  | filter serpa dimName value1 value2 mode =>
      obtain ⟨ps, rfl, hps⟩ := hone h
      exact represents_filter htable hps hcond hrun
  | sort serpa dimName =>
      obtain ⟨ps, rfl, hps⟩ := hone h
      obtain ⟨sp, hsp, hret⟩ := bind_eq_ok.mp hrun
      cases hret
      exact represents_sort htable hps hcond hsp
  | setpcid serpa pcid dflt =>
      obtain ⟨ps, rfl, hps⟩ := hone h
      obtain ⟨sp, hsp, hret⟩ := bind_eq_ok.mp hrun
      cases hret
      exact represents_setpcid htable hps hcond hsp
  | transform serpa pcid dflt =>
      obtain ⟨ps, rfl, hps⟩ := hone h
      exact represents_transform htable hps hcond hrun

/-! ## Sessions -/

/-- What sessions can store by calls that meet the condition. -/
abbrev StoredBySession (P : Platform) (lookup : Nat → Run (Option PcSchema)) (S : SortR) :
    SerializedPatch → Prop :=
  Derivable (PatchCall.inputs P.endian) (fun c sp => c.run P lookup S = .ok (some sp))
    (CallCondition P lookup S)

/-- What sessions can store by such calls, with the points that it stands for. -/
abbrev SessionAs (P : Platform) (lookup : Nat → Run (Option PcSchema)) (S : SortR) :
    SerializedPatch → PointSequence → Prop :=
  DerivableAs (PatchCall.Means P lookup) (PatchCall.inputs P.endian)
    (fun c sp => c.run P lookup S = .ok (some sp)) (CallCondition P lookup S)

theorem exists_represents {lookup : Nat → Run (Option PcSchema)} (htable : FormatsTable lookup)
    {S : SortR} {sp : SerializedPatch} (h : StoredBySession P lookup S sp) :
    ∃ ps, SessionAs P lookup S sp ps ∧ sp.Represents P lookup ps :=
  h.simulated (R := SerializedPatch.Represents P lookup)
    fun _ _ _ hcond hrun hpss => represents_of_call htable hcond hrun hpss

/-- Every session is simulated by one on sequences of points: what is read from a stored
patch are the points that the calls are meant to make. -/
theorem sessions_simulated (P : Platform) {lookup : Nat → Run (Option PcSchema)}
    (htable : FormatsTable lookup) (S : SortR) : ∀ sp, StoredBySession P lookup S sp →
    ∃ pa u, readPatch P lookup sp = .ok pa ∧ pcPatchUncompress P pa = .ok u ∧
      SessionAs P lookup S sp ⟨pa.schema, u.points⟩ := by
  intro sp hsp
  obtain ⟨ps, hmade, hrep⟩ := exists_represents htable hsp
  obtain ⟨pa, hread, hschema, -, hsto⟩ := hrep.read
  obtain ⟨u, hu, -⟩ := hsto.kept.stands.uncompress
  refine ⟨pa, u, hread, hu, ?_⟩
  rw [hschema, (hsto.kept.stands.holds hu).2]
  exact hmade

/-! ## A session -/

/-- A table with one format. -/
def oneFormat : Nat → Run (Option PcSchema) := fun pcid =>
  .ok (if pcid = 1 then some yxSchema else none)

theorem oneFormat_eq_ok {pcid : Nat} {s : PcSchema} (h : oneFormat pcid = .ok (some s)) :
    pcid = 1 ∧ s = yxSchema := by
  by_cases hpcid : pcid = 1
  · rw [oneFormat, if_pos hpcid] at h
    exact ⟨hpcid, (Option.some.inj (Except.ok.inj h)).symm⟩
  · rw [oneFormat, if_neg hpcid] at h
    cases h

theorem oneFormat_table : FormatsTable oneFormat := by
  constructor
  · intro pcid s h
    obtain ⟨rfl, rfl⟩ := oneFormat_eq_ok h
    rfl
  · intro pcid s h
    obtain ⟨rfl, -⟩ := oneFormat_eq_ok h
    decide
  · intro pcid s h
    obtain ⟨-, rfl⟩ := oneFormat_eq_ok h
    exact ⟨rfl, rfl⟩

/-- The text of two points. -/
def twoPointsText : Bytes := hexOf twoPointsWkb

/-- What is written of a patch has less than `2 ^ 30` bytes. -/
theorem belowGigabyte_of_sizes {q r : PcPatch} {userdata : Option PcDimStats}
    (hr : patchToSerialize P q none = .ok (r, userdata))
    (hrecords : q.npoints * q.schema.size < 1073741824)
    (hsize : pcPatchSerializedSize r < 1073741824) : BelowGigabyte P q none := by
  refine ⟨fun _ => hrecords, fun r' userdata' hr' => ?_⟩
  cases hr.symm.trans hr'
  exact hsize

/-- Reading the text is a call of a session. -/
theorem stored_twoPoints {sp : SerializedPatch}
    (hrun : pcpatchIn Platform.plain oneFormat twoPointsText none = .ok sp) :
    StoredBySession Platform.plain oneFormat SortR.insertion sp := by
  have hwkb : pcBytesFromHexbytes twoPointsText = .ok twoPointsWkb := by decide +kernel
  have hpcid : pcWkbGetPcid .little twoPointsWkb = .ok 1 := by decide +kernel
  have hread : (do
      let q ← pcPatchFromWkb Platform.plain yxSchema twoPointsWkb twoPointsWkb.length
      let r ← patchToSerialize Platform.plain q none
      return decide (1 ≤ q.npoints ∧ q.type.code = 0 ∧ q.npoints * q.schema.size < 1073741824 ∧
        pcPatchSerializedSize r.1 < 1073741824)) = (.ok true : Run _) := by decide +kernel
  obtain ⟨q, hq, hread⟩ := bind_eq_ok.mp hread
  obtain ⟨⟨r, userdata⟩, hr, hfields⟩ := bind_eq_ok.mp hread
  obtain ⟨hpos, htype, hrecords, hsize⟩ : 1 ≤ q.npoints ∧ q.type.code = 0 ∧
      q.npoints * q.schema.size < 1073741824 ∧ pcPatchSerializedSize r < 1073741824 := by
    simpa using hfields
  have hop : PatchCall.operation Platform.plain oneFormat (.patchIn twoPointsText none) =
      .ok (some (.fromWkb yxSchema twoPointsWkb)) := by
    rw [PatchCall.operation, hwkb, ok_bind]
    exact bind_eq_ok.mpr ⟨1, hpcid, rfl⟩
  have hopRun : Operation.run Platform.plain SortR.insertion (.fromWkb yxSchema twoPointsWkb) =
      .ok (some q) := by
    rw [Operation.run, hq]
    rfl
  have hcond : CallCondition Platform.plain oneFormat SortR.insertion
      (.patchIn twoPointsText none) := by
    refine .of_run hop hopRun trivial exactCondition_twoPoints
      (belowGigabyte_of_sizes hr hrecords hsize) ?_ (fun _ _ _ h => by cases h)
      (fun _ h => by cases h) fun _ _ _ h => by cases h
    intro str typmod hstr
    cases hstr
    refine ⟨by decide, fun q' hq' => ?_⟩
    obtain ⟨wkb', pcid', s', hwkb', hpcid', hfound, hq'⟩ := pcPatchFromHexwkb_eq_ok (by decide) hq'
    cases hwkb.symm.trans hwkb'
    cases hpcid.symm.trans hpcid'
    cases hfound
    cases hq.symm.trans hq'
    obtain ⟨c, pa, u, -, -, -, -, hkept⟩ :=
      kept_of_read exactCondition_twoPoints.1 exactCondition_twoPoints.2 hq hpos
    refine ⟨hpos, u.points, ?_⟩
    have hstands := hkept.stands
    cases q with
    | uncompressed p => exact hstands
    | dimensional d => exact absurd htype (by simp [PcPatch.type, PcCompression.code])
    | lazperf l => exact hstands.elim
  refine .step hcond (by simp [PatchCall.inputs]) ?_
  rw [PatchCall.run, hrun]
  rfl

/-- A session of this format has stored a patch that is read as the points. -/
structure SessionReads (sp : SerializedPatch) (q : PcPatch) (u : PcPatchUncompressed)
    (pts : List Bytes) : Prop where
  stored : StoredBySession Platform.plain oneFormat SortR.insertion sp
  read : readPatch Platform.plain oneFormat sp = .ok q
  uncompress : pcPatchUncompress Platform.plain q = .ok u
  points_eq : u.points = pts

/-- The text of two points is stored, and then the second one of them. -/
theorem exists_sessionReads :
    (∃ sp q u, SessionReads sp q u [[1, 5], [2, 5]]) ∧ ∃ sp q u, SessionReads sp q u [[2, 5]] := by
  have hrun : (do
      let sp ← pcpatchIn Platform.plain oneFormat twoPointsText none
      let pa ← readPatch Platform.plain oneFormat sp
      let u ← pcPatchUncompress Platform.plain pa
      let range ← pcPatchRange Platform.plain pa 2 1
      let found ← pcpatchRange Platform.plain oneFormat sp 2 1
      let q ← range.elim fault pure
      let r ← patchToSerialize Platform.plain q none
      let out ← found.elim fault pure
      let pb ← readPatch Platform.plain oneFormat out
      let v ← pcPatchUncompress Platform.plain pb
      return (decide (pa.npoints < 2147483648 ∧ q.npoints * q.schema.size < 1073741824 ∧
        pcPatchSerializedSize r.1 < 1073741824), u.points, v.points)) =
          (.ok (true, [[1, 5], [2, 5]], [[2, 5]]) : Run _) := by decide +kernel
  obtain ⟨sp, hsp, hrun⟩ := bind_eq_ok.mp hrun
  obtain ⟨pa, hpa, hrun⟩ := bind_eq_ok.mp hrun
  obtain ⟨u, hu, hrun⟩ := bind_eq_ok.mp hrun
  obtain ⟨range, hrange, hrun⟩ := bind_eq_ok.mp hrun
  obtain ⟨found, hout, hrun⟩ := bind_eq_ok.mp hrun
  obtain ⟨q, hq, hrun⟩ := bind_eq_ok.mp hrun
  obtain ⟨⟨r, userdata⟩, hr, hrun⟩ := bind_eq_ok.mp hrun
  obtain ⟨out, hfound, hrun⟩ := bind_eq_ok.mp hrun
  obtain ⟨pb, hpb, hrun⟩ := bind_eq_ok.mp hrun
  obtain ⟨v, hv, hfields⟩ := bind_eq_ok.mp hrun
  cases range with
  | none => cases hq
  | some q' =>
      cases hq
      cases found with
      | none => cases hfound
      | some out' =>
          cases hfound
          obtain ⟨⟨hnpoints, hrecords, hsize⟩, hupoints, hvpoints⟩ : (pa.npoints < 2147483648 ∧
              q.npoints * q.schema.size < 1073741824 ∧ pcPatchSerializedSize r < 1073741824) ∧
              u.points = [[1, 5], [2, 5]] ∧ v.points = [[2, 5]] := by simpa using hfields
          have hstored := stored_twoPoints hsp
          have hop : PatchCall.operation Platform.plain oneFormat (.range sp 2 1) =
              .ok (some (.range pa 2 1)) := by
            rw [PatchCall.operation, hpa]
            rfl
          have hcond : CallCondition Platform.plain oneFormat SortR.insertion (.range sp 2 1) :=
            .of_run hop hrange ⟨hnpoints, by decide, by decide⟩ trivial
              (belowGigabyte_of_sizes hr hrecords hsize) (fun _ _ h => by cases h)
              (fun _ _ _ h => by cases h) (fun _ h => by cases h) fun _ _ _ h => by cases h
          exact ⟨⟨sp, pa, u, hstored, hpa, hu, hupoints⟩, out, pb, v,
            .step hcond (by simpa [PatchCall.inputs] using hstored) hout, hpb, hv, hvpoints⟩

/-- The second point is read from what is stored by two calls. -/
theorem sessions_simulated_witness : ∃ sp pa u,
    StoredBySession Platform.plain oneFormat SortR.insertion sp ∧
    readPatch Platform.plain oneFormat sp = .ok pa ∧ pcPatchUncompress Platform.plain pa = .ok u ∧
    u.points = [[2, 5]] ∧
    SessionAs Platform.plain oneFormat SortR.insertion sp ⟨pa.schema, u.points⟩ := by
  obtain ⟨-, sp, pa, u, hstored, hpa, hu, hpoints⟩ := exists_sessionReads
  obtain ⟨pa', u', hpa', hu', hmade⟩ :=
    sessions_simulated Platform.plain oneFormat_table SortR.insertion sp hstored
  cases hpa.symm.trans hpa'
  cases hu.symm.trans hu'
  exact ⟨sp, pa, u, hstored, hpa, hu, hpoints, hmade⟩

end Pointcloud
