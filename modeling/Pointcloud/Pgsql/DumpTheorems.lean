/-
Pointcloud.Pgsql.DumpTheorems — patches that are dumped as text and restored.

A stored patch is written as the digits of its WKB (`pcpatchOut`), and what is read of
them is stored again (`pcpatchIn`). What is read is the patch with a summary that is
computed anew: it holds the same points (`PcPatch.Storable.fromWkb`). So restoring is a
call of a session, and what it stores is read as the points that were dumped
(`dump_restores`).
-/
import Pointcloud.Patch.WkbTheorems
import Pointcloud.Pgsql.HexwkbTheorems
import Pointcloud.Pgsql.QueryTheorems

namespace Pointcloud

open Pointcloud.Base

variable {P : Platform}

/-! ## Reading what was written -/

/-- The runs of an encoder all have values. -/
theorem RleOf.runsInside {e : PcBytes} {rs : List (Nat × Bytes)} (h : RleOf e rs) (en : Endian) :
    e.RunsInside en := by
  intro r hr
  rw [h.runsOf_eq] at hr
  have hpos := (h.count_range r hr).1
  have hheld : r ∈ e.heldRuns := by
    rw [PcBytes.heldRuns, h.runsOf_eq, List.mem_filter]
    exact ⟨hr, decide_eq_true hpos⟩
  exact ⟨r, hheld, r, hheld, le_refl _, le_refl _⟩

/-- What an encoder writes can be searched for the extent. -/
theorem PcPatchDimensional.Holds.runsInside {d : PcPatchDimensional} {pts : List Bytes}
    (h : d.Holds P pts) (en : Endian) : d.RunsInside en := by
  intro dim _ e he hrle
  obtain ⟨i, hi, rfl⟩ := List.mem_iff_getElem.mp (List.mem_of_getElem? he)
  have hlen := h.bytes_hold.length_eq
  obtain ⟨-, -, hstores⟩ := (List.forall₂_iff_get.mp h.bytes_hold).2 i (by omega) hi
  have hencoded := hstores.encoded
  simp only [List.get_eq_getElem, hrle] at hencoded
  obtain ⟨rs, hrs, -⟩ := hencoded
  exact hrs.runsInside en

/-- The values of a dimension are no more bytes than the records. -/
theorem PcPatchDimensional.Holds.width_le {d : PcPatchDimensional} {pts : List Bytes}
    (h : d.Holds P pts) : ∀ e ∈ d.bytes, e.npoints * e.width ≤ d.npoints * d.schema.size := by
  intro e he
  obtain ⟨i, hi, rfl⟩ := List.mem_iff_getElem.mp he
  have hlen := h.bytes_hold.length_eq
  have hi' : i < d.schema.dims.length := by omega
  obtain ⟨hinterp, hnp, -⟩ := (List.forall₂_iff_get.mp h.bytes_hold).2 i hi' hi
  simp only [List.get_eq_getElem] at hinterp hnp
  have hwidth : d.bytes[i].width = d.schema.dims[i].size := by
    rw [PcBytes.width, hinterp, d.schema.dim_size (List.getElem_mem hi')]
  rw [hnp, hwidth]
  exact Nat.mul_le_mul_left _ (Nat.le_trans (Nat.le_add_left _ _)
    (d.schema.dim_end_le (List.getElem_mem hi')))

/-- The patch that is read back, before its extent and statistics are computed. -/
def PcPatch.reread : PcPatch → PcPatch
  | .uncompressed p => .uncompressed p.reread
  | .dimensional d => .dimensional d.reread
  | .lazperf l => .lazperf l

@[simp] theorem PcPatch.schema_reread (q : PcPatch) : q.reread.schema = q.schema := by
  cases q <;> rfl

@[simp] theorem PcPatch.npoints_reread (q : PcPatch) : q.reread.npoints = q.npoints := by
  cases q <;> rfl

/-- Computing extent and statistics leaves the points alone. -/
theorem holds_of_computed {pa ra qa : PcPatch} {pts : List Bytes} (h : pa.Holds P pts)
    (hextent : pcPatchComputeExtent P pa = .ok ra) (hstats : pcPatchComputeStats P ra = .ok qa) :
    qa.Holds P pts := by
  cases pa with
  | uncompressed p =>
      obtain ⟨r, hr, hra⟩ := bind_eq_ok.mp hextent
      cases hra
      obtain ⟨q, hq, hqa⟩ := bind_eq_ok.mp hstats
      cases hqa
      rw [pcPatchUncompressedComputeStats_fields hq, pcPatchUncompressedComputeExtent_eq hr]
      exact ⟨h.npoints_lt, h.room, h.records_eq⟩
  | dimensional d =>
      obtain ⟨r, hr, hra⟩ := bind_eq_ok.mp hextent
      cases hra
      obtain ⟨stats, rfl⟩ := pcPatchComputeStats_dimensional_eq hstats
      rw [pcPatchDimensionalComputeExtent_eq hr]
      exact ⟨h.npoints_lt, h.npoints_eq, h.width_eq, h.bytes_hold⟩
  | lazperf l => exact h.elim

section Reread

variable {q : PcPatch} {pts : List Bytes} (h : q.Storable P pts)

include h

theorem PcPatch.Storable.holds_reread : q.reread.Holds P pts := by
  have hholds := h.holds
  cases q with
  | uncompressed p => exact PcPatchUncompressed.Holds.reread hholds h.sized
  | dimensional d => exact PcPatchDimensional.Holds.reread hholds
  | lazperf l => exact hholds.elim

theorem PcPatch.Storable.code_lt : q.type.code < 4294967296 := by
  cases q with
  | uncompressed p => exact (by decide : PcCompression.none.code < 4294967296)
  | dimensional d => exact (by decide : PcCompression.dimensional.code < 4294967296)
  | lazperf l => exact h.holds.elim

/-- The sizes that WKB has are counted, if it has less than `2 ^ 30` bytes itself. -/
theorem PcPatch.Storable.wkbSized (hlt : (patchWkb P.endian q).length < 1073741824) :
    WkbSized q := by
  have hholds := h.holds
  cases q with
  | uncompressed p => exact h.sized
  | dimensional d =>
      intro e he
      rw [length_patchWkb_dimensional hholds] at hlt
      have hle : pcBytesSerializedSize e ≤ pcPatchDimensionalSerializedSize d :=
        List.le_sum_of_mem (List.mem_map_of_mem he)
      omega
  | lazperf l => exact hholds.elim

/-- What is read before the summary is computed. -/
theorem PcPatch.Storable.patchFromWkb_ok (hlt : (patchWkb P.endian q).length < 1073741824) :
    patchFromWkb P q.schema (patchWkb P.endian q) (patchWkb P.endian q).length q.type.code =
      .ok q.reread := by
  have hholds := h.holds
  have hsized := h.wkbSized hlt
  cases q with
  | uncompressed p =>
      have hread := pcPatchUncompressedFromWkb_ok (P := P) hholds hsized (by omega)
      simp only [PcPatch.type, PcPatch.schema, patchFromWkb_none, hread, ok_bind]
      rfl
  | dimensional d =>
      have hread := pcPatchDimensionalFromWkb_ok hholds hsized
      simp only [PcPatch.type, PcPatch.schema, patchFromWkb_dimensional, hread, ok_bind]
      rfl
  | lazperf l => exact hholds.elim

/-- The points are doubles, and the arrays can be searched. -/
theorem PcPatch.Storable.readsExactly_reread : q.reread.ReadsExactly P := by
  have hholds := h.holds_reread
  have hfits : ∀ d, q.reread = .dimensional d → Fits d.schema d.npoints := by
    intro d hd
    cases q with
    | uncompressed p => cases hd
    | dimensional e =>
        cases hd
        exact h.fits e rfl
    | lazperf l => cases hd
  refine ⟨fun u hu pt hpt => ?_, fun d hd => ⟨hfits d hd, ?_⟩⟩
  · rw [((hholds.standsFor hfits).holds hu).2] at hpt
    rw [q.schema_reread]
    exact h.kept.in_doubles pt hpt
  · rw [hd] at hholds
    exact PcPatchDimensional.Holds.runsInside hholds P.endian

/-- What is read back from WKB, if anything is, holds the same points and has their
summary. -/
theorem PcPatch.Storable.of_fromWkb (hlt : (patchWkb P.endian q).length < 1073741824) {qa : PcPatch}
    (hrun : pcPatchFromWkb P q.schema (patchWkb P.endian q) (patchWkb P.endian q).length = .ok qa) :
    qa.schema = q.schema ∧ qa.npoints = q.npoints ∧ qa.Storable P pts := by
  have hcode : wkbGetCompression P.endian (patchWkb P.endian q) = .ok q.type.code :=
    wkbGetCompression_head _ _ h.code_lt
  have hread := h.patchFromWkb_ok hlt
  have hcomputed := hrun
  rw [patchWkb, pcPatchFromWkb_head _ _ _ _ h.code_lt, ← patchWkb, hread, ok_bind] at hcomputed
  obtain ⟨ra, hextent, hstats⟩ := bind_eq_ok.mp hcomputed
  have hnpoints : qa.npoints = q.npoints := by
    rw [npoints_of_computed hextent hstats, q.npoints_reread]
  have hholds := holds_of_computed h.holds_reread hextent hstats
  have hpos : 1 ≤ qa.npoints := by
    rw [hnpoints, ← h.kept.stands.npoints_eq]
    exact List.length_pos_of_ne_nil h.kept.ne
  obtain ⟨c, pa, u, -, hpa, hu, hschema, hkept⟩ := kept_of_read h.kept.integral
    (fun c pa hc hpa => by
      cases hcode.symm.trans hc
      cases hread.symm.trans hpa
      exact h.readsExactly_reread) hrun hpos
  have hpts : pts = u.points := by
    refine (hholds.standsFor fun d hd => ?_).unique hkept.stands
    subst hd
    have hyields : YieldsPoints P d u.points := hkept.stands
    exact hyields.fits
  subst hpts
  exact ⟨hschema, hnpoints, hkept, hholds, sized_of_read hrun⟩

/-- A patch of less than `2 ^ 30` bytes, as WKB and as records, is written as WKB and read
back. -/
theorem PcPatch.Storable.fromWkb (hlt : (patchWkb P.endian q).length < 1073741824)
    (hrecords : q.npoints * q.schema.size < 1073741824) :
    pcPatchToWkb P q = .ok (patchWkb P.endian q, (patchWkb P.endian q).length) ∧
    ∃ qa, pcPatchFromWkb P q.schema (patchWkb P.endian q) (patchWkb P.endian q).length = .ok qa ∧
      qa.schema = q.schema ∧ qa.npoints = q.npoints ∧ qa.Storable P pts := by
  have hholds := h.holds
  have hsized := h.wkbSized hlt
  have hround : WkbRoundTrip P q := by
    cases q with
    | uncompressed p =>
        refine (wkbRoundTrip_uncompressed_iff h.kept.integral.valid hholds hsized).mpr ?_
        have hpos := Nat.mul_le_mul_left p.npoints p.schema.size_pos
        simp only [PcPatch.npoints, PcPatch.schema] at hrecords
        omega
    | dimensional d =>
        refine (wkbRoundTrip_dimensional_iff h.kept.integral.valid hholds hsized).mpr ⟨?_, ?_, ?_⟩
        · rw [← length_patchWkb_dimensional hholds P.endian]
          omega
        · rw [Nat.mul_comm]
          simp only [PcPatch.npoints, PcPatch.schema] at hrecords
          omega
        · intro dim _ e he _
          have hle := PcPatchDimensional.Holds.width_le hholds e (List.mem_of_getElem? he)
          simp only [PcPatch.npoints, PcPatch.schema] at hrecords
          omega
    | lazperf l => exact hholds.elim
  obtain ⟨qa, hwrite, hread, -⟩ := hround
  exact ⟨hwrite, qa, hread, h.of_fromWkb hlt hread⟩

end Reread

/-! ## Text -/

/-- The text of a patch is never the empty one, which would be refused. -/
theorem patchWkb_ne_nil (en : Endian) (p : PcPatch) : patchWkb en p ≠ [] :=
  List.ne_nil_of_length_pos (by rw [patchWkb, List.length_append, length_wkbHead]; omega)

theorem isHex_of_mem_hexOf {bs : Bytes} {c : Byte} (hc : c ∈ hexOf bs) : IsHex c := by
  obtain ⟨b, -, hc⟩ := List.mem_flatMap.mp hc
  have hlt := b.isLt
  have hdigit : ∀ v < 16, IsHex (hexDigit v) := fun v hv => by
    rw [IsHex, hexValue_hexDigit hv]
    rfl
  obtain rfl | rfl : c = hexDigit (b.toNat / 16) ∨ c = hexDigit (b.toNat % 16) := by
    simpa [hexPair] using hc
  · exact hdigit _ (by omega)
  · exact hdigit _ (by omega)

/-- The text of a patch starts with the digit that text in hexadecimal is known by. -/
theorem head?_hexOf_patchWkb (en : Endian) (q : PcPatch) :
    (hexOf (patchWkb en q)).head? = some 48 := by
  cases en <;> rfl

section Text

variable {lookup : Nat → Run (Option PcSchema)} {q : PcPatch} {pts : List Bytes}
  (h : q.Storable P pts) (hlt : (patchWkb P.endian q).length < 1073741824)
  (hrecords : q.npoints * q.schema.size < 1073741824)

include h hlt hrecords

theorem PcPatch.Storable.toHexwkb_ok :
    pcPatchToHexwkb P q = .ok (hexOf (patchWkb P.endian q) ++ [0]) := by
  have hread : readAt (patchWkb P.endian q) ((0 : Nat) : Int) (patchWkb P.endian q).length =
      .ok (patchWkb P.endian q) := readAt_eq_ok.mpr ⟨.inr (by omega), by simp⟩
  rw [Int.natCast_zero] at hread
  rw [pcPatchToHexwkb, (h.fromWkb hlt hrecords).1, ok_bind]
  simp only [hread, ok_bind]
  exact pcHexbytesFromBytes_ok (Nat.le_of_lt hlt)

/-- What is read of the text of a patch. -/
theorem PcPatch.Storable.fromHexwkb_ok (hzero : q.schema.pcid ≠ 0)
    (hfound : lookup q.schema.pcid = .ok (some q.schema)) :
    ∃ qa, pcPatchFromWkb P q.schema (patchWkb P.endian q) (patchWkb P.endian q).length = .ok qa ∧
      pcPatchFromHexwkb P lookup (hexOf (patchWkb P.endian q)) = .ok qa ∧
      qa.schema = q.schema ∧ qa.npoints = q.npoints ∧ qa.Storable P pts := by
  obtain ⟨-, qa, hread, hqa⟩ := h.fromWkb hlt hrecords
  have hpcid : pcWkbGetPcid P.endian (patchWkb P.endian q) = .ok q.schema.pcid :=
    pcWkbGetPcid_head _ _ q.schema.pcid_lt
  refine ⟨qa, hread, ?_, hqa⟩
  rw [pcPatchFromHexwkb, pcBytesFromHexbytes_hexOf (patchWkb_ne_nil P.endian q)
    (Nat.le_of_lt hlt), ok_bind, hpcid, ok_bind,
    if_neg hzero, hfound, ok_bind, length_hexOf, Nat.mul_div_cancel_left _ (by decide)]
  exact hread

end Text

/-! ## Dump and restore -/

/-- Columns that have a pcid, and another one. -/
def OtherPcid (typmod : Option Int) (pcid : Nat) : Prop :=
  (typmod.map pcidFromTypmod).getD 0 ≠ 0 ∧ pcid ≠ (typmod.map pcidFromTypmod).getD 0

/-- Text is read as a patch for a column, unless the column has another pcid. -/
theorem pcpatchIn_eq {lookup : Nat → Run (Option PcSchema)} {str : Bytes} {typmod : Option Int}
    {q : PcPatch} (hhead : str.head? = some 48) (hq : pcPatchFromHexwkb P lookup str = .ok q) :
    (OtherPcid typmod q.schema.pcid → Raises (pcpatchIn P lookup str typmod)) ∧
    (¬ OtherPcid typmod q.schema.pcid → pcpatchIn P lookup str typmod = (do
      let (serpatch, _) ← pcPatchSerialize P q none
      return serpatch)) := by
  unfold pcpatchIn OtherPcid
  simp only [hhead, if_true, hq, ok_bind, pcidConsistent]
  refine ⟨fun hother => ?_, fun hsame => ?_⟩
  · rw [if_pos hother, raise_bind]
    exact raises_raise _
  · rw [if_neg hsame, ok_bind]

/-- Reading the text of a patch is a call of a session, and stores its points. -/
theorem PcPatch.Storable.restore {lookup : Nat → Run (Option PcSchema)}
    (htable : FormatsTable lookup) (S : SortR) {q qa : PcPatch} {pts : List Bytes}
    (h : q.Storable P pts) (hlt : (patchWkb P.endian q).length < 1073741824)
    (hrecords : q.npoints * q.schema.size < 1073741824)
    (hfound : lookup q.schema.pcid = .ok (some q.schema))
    (hread : pcPatchFromHexwkb P lookup (hexOf (patchWkb P.endian q)) = .ok qa)
    (hbelow : BelowGigabyte P qa none) {typmod : Option Int} {sp : SerializedPatch}
    (hrun : pcpatchIn P lookup (hexOf (patchWkb P.endian q)) typmod = .ok sp) :
    StoredBySession P lookup S sp ∧ sp.Represents P lookup ⟨q.schema, pts⟩ := by
  obtain ⟨qa', hwkb, hread', hschema, hnpoints, hsto⟩ :=
    h.fromHexwkb_ok hlt hrecords (htable.pcid_ne hfound) hfound
  cases hread.symm.trans hread'
  have hpcid : pcWkbGetPcid P.endian (patchWkb P.endian q) = .ok q.schema.pcid :=
    pcWkbGetPcid_head _ _ q.schema.pcid_lt
  have hop : PatchCall.operation P lookup (.patchIn (hexOf (patchWkb P.endian q)) typmod) =
      .ok (some (.fromWkb q.schema (patchWkb P.endian q))) := by
    rw [PatchCall.operation, pcBytesFromHexbytes_hexOf (patchWkb_ne_nil P.endian q)
      (Nat.le_of_lt hlt), ok_bind, hpcid, ok_bind, schemaFromPcid_eq_ok.mpr hfound]
    rfl
  have hopRun : Operation.run P S (.fromWkb q.schema (patchWkb P.endian q)) = .ok (some qa) := by
    rw [Operation.run, hwkb]
    rfl
  have hcond : CallCondition P lookup S (.patchIn (hexOf (patchWkb P.endian q)) typmod) := by
    refine .of_run hop hopRun trivial ⟨h.kept.integral, fun c pa hc hpa => ?_⟩ hbelow ?_
      (fun _ _ _ hc => by cases hc) (fun _ hc => by cases hc) fun _ _ _ hc => by cases hc
    · have hcode : wkbGetCompression P.endian (patchWkb P.endian q) = .ok q.type.code :=
        wkbGetCompression_head _ _ h.code_lt
      cases hcode.symm.trans hc
      cases (h.patchFromWkb_ok hlt).symm.trans hpa
      exact h.readsExactly_reread
    · intro str typmod' hstr
      cases hstr
      refine ⟨by rw [length_hexOf]; omega, fun q' hq' => ?_⟩
      cases hread.symm.trans hq'
      refine ⟨?_, pts, hsto.holds⟩
      rw [← hsto.kept.stands.npoints_eq]
      exact List.length_pos_of_ne_nil hsto.kept.ne
  obtain ⟨hrefused, hstored⟩ := @pcpatchIn_eq P _ _ typmod _ (head?_hexOf_patchWkb P.endian q) hread
  by_cases hother : OtherPcid typmod qa.schema.pcid
  · obtain ⟨msg, hraise⟩ := hrefused hother
    exact absurd (hraise.symm.trans hrun) (raise_ne_ok msg sp)
  · rw [hstored hother] at hrun
    obtain ⟨⟨sp', userdata⟩, hsp, hret⟩ := bind_eq_ok.mp hrun
    cases hret
    refine ⟨.step hcond (by simp [PatchCall.inputs]) ?_, ?_⟩
    · rw [PatchCall.run, hstored hother, hsp]
      rfl
    · exact hschema ▸ hsto.write lookup (hschema.symm ▸ hfound) hbelow hsp

/-- A stored patch that is dumped as text and restored is stored again with the same
points; a column of another pcid refuses the text. -/
theorem dump_restores (P : Platform) {lookup : Nat → Run (Option PcSchema)}
    (htable : FormatsTable lookup) (S : SortR) : ∀ sp, StoredBySession P lookup S sp →
    ∀ q u, readPatch P lookup sp = .ok q → pcPatchUncompress P q = .ok u →
      (patchWkb P.endian q).length < 536870912 → u.points.length * q.schema.size < 1073741824 →
      ∃ text qa, pcpatchOut P lookup sp = .ok (text ++ [0]) ∧ (∀ c ∈ text, IsHex c) ∧
        pcPatchFromHexwkb P lookup text = .ok qa ∧ qa.schema = q.schema ∧ qa.npoints = q.npoints ∧
        ∀ typmod,
          (OtherPcid typmod q.schema.pcid → Raises (pcpatchIn P lookup text typmod)) ∧
          ∀ sp', BelowGigabyte P qa none → pcpatchIn P lookup text typmod = .ok sp' →
            StoredBySession P lookup S sp' ∧ ∃ q' u', readPatch P lookup sp' = .ok q' ∧
              pcPatchUncompress P q' = .ok u' ∧ q'.schema = q.schema ∧ u'.points = u.points := by
  intro sp hsp q u hq hu hlt hrecords
  have hrep := represents_of_read htable hsp hq hu
  obtain ⟨q', hq', -, -, hsto⟩ := hrep.read
  cases hq.symm.trans hq'
  have hfound : lookup q.schema.pcid = .ok (some q.schema) := hrep.found_read htable rfl
  rw [hsto.kept.stands.npoints_eq] at hrecords
  have hlt' : (patchWkb P.endian q).length < 1073741824 := by omega
  obtain ⟨qa, -, hread, hschema, hnpoints, -⟩ :=
    hsto.fromHexwkb_ok hlt' hrecords (htable.pcid_ne hfound) hfound
  refine ⟨hexOf (patchWkb P.endian q), qa, ?_, fun c hc => isHex_of_mem_hexOf hc, hread, hschema,
    hnpoints, fun typmod => ⟨fun hother => ?_, fun sp' hbelow hrun => ?_⟩⟩
  · rw [pcpatchOut, hq, ok_bind, hsto.toHexwkb_ok hlt' hrecords]
  · exact (pcpatchIn_eq (head?_hexOf_patchWkb P.endian q) hread).1 (hschema.symm ▸ hother)
  · obtain ⟨hstored, hrep'⟩ := hsto.restore htable S hlt' hrecords hfound hread hbelow hrun
    obtain ⟨r, hr, hrs, -, hrsto⟩ := hrep'.read
    obtain ⟨v, hv, -⟩ := hrsto.kept.stands.uncompress
    exact ⟨hstored, r, v, hr, hv, hrs, (hrsto.kept.stands.holds hv).2⟩

/-- The patch of two points is dumped, and restored into a column of its pcid. -/
theorem dump_restores_witness : ∃ sp text sp' q' u',
    pcpatchOut Platform.plain oneFormat sp = .ok (text ++ [0]) ∧
    pcpatchIn Platform.plain oneFormat text (some 1) = .ok sp' ∧
    StoredBySession Platform.plain oneFormat SortR.insertion sp' ∧
    readPatch Platform.plain oneFormat sp' = .ok q' ∧
    pcPatchUncompress Platform.plain q' = .ok u' ∧ u'.points = [[1, 5], [2, 5]] := by
  have hrun : (do
      let sp ← pcpatchIn Platform.plain oneFormat twoPointsText none
      let q ← readPatch Platform.plain oneFormat sp
      let u ← pcPatchUncompress Platform.plain q
      let out ← pcpatchOut Platform.plain oneFormat sp
      let qa ← pcPatchFromHexwkb Platform.plain oneFormat out.dropLast
      let r ← patchToSerialize Platform.plain qa none
      let _ ← pcpatchIn Platform.plain oneFormat out.dropLast (some 1)
      return (decide ((patchWkb .little q).length < 536870912 ∧
        u.points.length * q.schema.size < 1073741824 ∧
        qa.npoints * qa.schema.size < 1073741824 ∧
        pcPatchSerializedSize r.1 < 1073741824), u.points)) =
          (.ok (true, [[1, 5], [2, 5]]) : Run _) := by decide +kernel
  obtain ⟨sp, hsp, hrun⟩ := bind_eq_ok.mp hrun
  obtain ⟨q, hq, hrun⟩ := bind_eq_ok.mp hrun
  obtain ⟨u, hu, hrun⟩ := bind_eq_ok.mp hrun
  obtain ⟨out, hout, hrun⟩ := bind_eq_ok.mp hrun
  obtain ⟨qa, hqa, hrun⟩ := bind_eq_ok.mp hrun
  obtain ⟨⟨r, userdata⟩, hr, hrun⟩ := bind_eq_ok.mp hrun
  obtain ⟨sp', hsp', hfields⟩ := bind_eq_ok.mp hrun
  obtain ⟨⟨hlt, hrecords, hrecords', hsize⟩, hpoints⟩ : ((patchWkb .little q).length < 536870912 ∧
      u.points.length * q.schema.size < 1073741824 ∧ qa.npoints * qa.schema.size < 1073741824 ∧
      pcPatchSerializedSize r < 1073741824) ∧ u.points = [[1, 5], [2, 5]] := by
    simpa using hfields
  obtain ⟨text, qa', htext, -, hqa', -, -, hrestore⟩ := dump_restores Platform.plain oneFormat_table
    SortR.insertion sp (stored_twoPoints hsp) q u hq hu hlt hrecords
  cases hout.symm.trans htext
  rw [List.dropLast_concat] at hqa hsp'
  cases hqa.symm.trans hqa'
  obtain ⟨hstored, q', u', hq', hu', -, hpoints'⟩ := (hrestore (some 1)).2 sp'
    (belowGigabyte_of_sizes hr hrecords' hsize) hsp'
  exact ⟨sp, text, sp', q', u', htext, hsp', hstored, hq', hu', hpoints'.trans hpoints⟩

end Pointcloud
