/-
Pointcloud.Pgsql.PcpatchCompressTheorems — PC_Compress follows its configuration,
but for the ends of the tokens and of the list.

The scanner looks at how a token begins, not at where it ends; it takes the end of
the string for a token without a name behind a comma; and it stops after the last
dimension, whatever is left. `fillRecommended_eq` says what it does with the tokens of
every string, and `pcpatchCompress_follows_iff` when that is what they ask for.
-/
import Pointcloud.Bytes.SilentTheorems
import Pointcloud.Patch.UnpackTheorems
import Pointcloud.Pgsql.PcpatchCompress
import Pointcloud.Pgsql.SerializeTheorems

namespace Pointcloud

open Pointcloud.Base

variable {P : Platform}

/-! ## Tokens -/

/-- The tokens of a configuration. -/
def tokensOf (configIn : List Char) : List (List Char) := configIn.splitOn ','

/-- The names of encodings, and what they ask for: nothing in particular, or an encoding. -/
def keywords : List (String × Option DimCompression) :=
  [("auto", none), ("rle", some .rle), ("sigbits", some .sigbits), ("zlib", some .zlib)]

/-- A token that may be in a list: none, or a name. -/
def ValidToken (t : List Char) : Prop := t = [] ∨ ∃ k ∈ keywords, t = k.1.toList

instance (t : List Char) : Decidable (ValidToken t) := inferInstanceAs (Decidable (_ ∨ _))

/-- The encoding that a token asks for. -/
def requested (t : List Char) : Option DimCompression :=
  if t = "rle".toList then some .rle
  else if t = "sigbits".toList then some .sigbits
  else if t = "zlib".toList then some .zlib
  else none

/-- A token that does not begin like a name. -/
def Unrecognized (t : List Char) : Prop := t ≠ [] ∧ ∀ k ∈ keywords, ¬ k.1.toList <+: t

/-- The encoding that a token asks for by how it begins. -/
def requestedByStart (t : List Char) : Option DimCompression :=
  if startsWith t "rle" then some .rle
  else if startsWith t "sigbits" then some .sigbits
  else if startsWith t "zlib" then some .zlib
  else none

/-- A name asks for what it begins with. -/
theorem requestedByStart_eq {t : List Char} (h : ValidToken t) :
    requestedByStart t = requested t := by
  have hall : ∀ k ∈ keywords, requestedByStart k.1.toList = requested k.1.toList := by decide
  rcases h with rfl | ⟨k, hk, rfl⟩
  · rfl
  · exact hall k hk

theorem ValidToken.recognized {t : List Char} (h : ValidToken t) : ¬ Unrecognized t := by
  rintro ⟨hne, hall⟩
  rcases h with rfl | ⟨k, hk, rfl⟩
  · exact hne rfl
  · exact hall k hk (List.prefix_refl _)

/-- A name that the rest of the string begins with is in front of the next comma. -/
theorem prefix_token_iff {name t rest : List Char} (hname : ',' ∉ name) :
    name <+: t ++ ',' :: rest ↔ name <+: t := by
  constructor
  · intro h
    rcases Nat.lt_or_ge t.length name.length with hlt | hle
    · have hcomma : t ++ [','] <+: t ++ ',' :: rest := ⟨rest, by simp⟩
      have hin : t ++ [','] <+: name :=
        List.prefix_of_prefix_length_le hcomma h
          (by rw [List.length_append, List.length_singleton]; omega)
      exact absurd (hin.subset (by simp)) hname
    · exact List.prefix_of_prefix_length_le h (List.prefix_append _ _) hle
  · exact fun h => h.trans (List.prefix_append _ _)

theorem startsWith_token {t rest : List Char} {k : String × Option DimCompression}
    (hk : k ∈ keywords) : startsWith (t ++ ',' :: rest) k.1 = startsWith t k.1 := by
  have hcomma : ∀ k ∈ keywords, ',' ∉ k.1.toList := by decide
  rw [Bool.eq_iff_iff, startsWith, startsWith, List.isPrefixOf_iff_prefix,
    List.isPrefixOf_iff_prefix, prefix_token_iff (hcomma k hk)]

/-! ## One dimension -/

/-- The statistics with what a token asks for. -/
def PcDimStat.asked (stat : PcDimStat) (t : List Char) : PcDimStat :=
  { stat with
    recommendedCompression := (requestedByStart t).getD stat.recommendedCompression }

/-- Two names do not begin alike. -/
theorem requestedByStart_auto {t : List Char} (h : startsWith t "auto") :
    requestedByStart t = none := by
  rw [startsWith, List.isPrefixOf_iff_prefix] at h
  obtain ⟨rest, rfl⟩ := h
  rfl

/-- A string that does not begin with a comma, by a token that begins like it. -/
theorem setRecommended_eq (stat : PcDimStat) {ptr t : List Char}
    (hhead : ptr.head? ≠ some ',')
    (hstarts : ∀ k ∈ keywords, startsWith ptr k.1 = startsWith t k.1) :
    ((∀ k ∈ keywords, ¬ k.1.toList <+: t) → Raises (setRecommended stat ptr)) ∧
    ((∃ k ∈ keywords, k.1.toList <+: t) → setRecommended stat ptr = .ok (stat.asked t)) := by
  have hiff : ∀ k : String × Option DimCompression,
      k.1.toList <+: t ↔ startsWith t k.1 = true := by
    intro k
    rw [startsWith, List.isPrefixOf_iff_prefix]
  simp only [hiff]
  have hauto := requestedByStart_auto (t := t)
  simp only [keywords, List.forall_mem_cons, List.not_mem_nil, false_implies, implies_true,
    and_true] at hstarts ⊢
  obtain ⟨h1, h2, h3, h4⟩ := hstarts
  unfold setRecommended PcDimStat.asked
  rw [h1, h2, h3, h4]
  constructor
  · rintro ⟨n1, n2, n3, n4⟩
    rw [if_neg (by simp [hhead, n1]), if_neg n2, if_neg n3, if_neg n4]
    exact raises_raise _
  · intro hany
    by_cases s1 : startsWith t "auto"
    · rw [if_pos (.inr s1), hauto s1]
      rfl
    · rw [if_neg (by simp [hhead, s1])]
      unfold requestedByStart
      by_cases s2 : startsWith t "rle"
      · rw [if_pos s2, if_pos s2]
        rfl
      · by_cases s3 : startsWith t "sigbits"
        · rw [if_neg s2, if_pos s3, if_neg s2, if_pos s3]
          rfl
        · by_cases s4 : startsWith t "zlib"
          · rw [if_neg s2, if_neg s3, if_pos s4, if_neg s2, if_neg s3, if_pos s4]
            rfl
          · simp [s1, s2, s3, s4] at hany

/-- A token at the end of the string. -/
theorem setRecommended_last (stat : PcDimStat) {t : List Char} (hcomma : ',' ∉ t) :
    (Unrecognized t ∨ t = [] → Raises (setRecommended stat t)) ∧
    (¬ (Unrecognized t ∨ t = []) → setRecommended stat t = .ok (stat.asked t)) := by
  have hhead : t.head? ≠ some ',' := fun h => hcomma (List.mem_of_mem_head? h)
  obtain ⟨hraises, hok⟩ := setRecommended_eq stat hhead fun k _ => rfl
  constructor
  · rintro (⟨-, hall⟩ | rfl)
    · exact hraises hall
    · exact hraises (by decide)
  · intro h
    refine hok ?_
    by_contra hnone
    refine h (.inl ⟨fun hnil => h (.inr hnil), ?_⟩)
    simpa using hnone

/-- A token in front of a comma. -/
theorem setRecommended_comma (stat : PcDimStat) {t : List Char} (hcomma : ',' ∉ t)
    (rest : List Char) :
    (Unrecognized t → Raises (setRecommended stat (t ++ ',' :: rest))) ∧
    (¬ Unrecognized t → setRecommended stat (t ++ ',' :: rest) = .ok (stat.asked t)) := by
  by_cases hnil : t = []
  · subst hnil
    exact ⟨fun h => absurd rfl h.1, fun _ => if_pos (.inl rfl)⟩
  · have hhead : (t ++ ',' :: rest).head? ≠ some ',' := by
      rw [List.head?_append_of_ne_nil _ hnil]
      exact fun h => hcomma (List.mem_of_mem_head? h)
    obtain ⟨hraises, hok⟩ := setRecommended_eq stat hhead fun k hk => startsWith_token hk
    refine ⟨fun h => hraises h.2, fun h => hok ?_⟩
    by_contra hnone
    refine h ⟨hnil, ?_⟩
    simpa using hnone

/-! ## All dimensions -/

/-- A token that is refused: one of the first `n` that does not begin like a name, or
is empty and the last of all. -/
def Refused (n : Nat) (ts : List (List Char)) : Prop :=
  ∃ i t, i < n ∧ ts[i]? = some t ∧ (Unrecognized t ∨ t = [] ∧ i + 1 = ts.length)

theorem refused_cons {n : Nat} {t : List Char} {ts : List (List Char)} :
    Refused (n + 1) (t :: ts) ↔ (Unrecognized t ∨ t = [] ∧ ts = []) ∨ Refused n ts := by
  constructor
  · rintro ⟨i, u, hi, hu, hbad⟩
    cases i with
    | zero =>
        obtain rfl : t = u := Option.some.inj hu
        refine .inl (hbad.imp_right fun h => ⟨h.1, ?_⟩)
        simpa using h.2
    | succ i =>
        exact .inr ⟨i, u, by omega, hu, hbad.imp_right fun h => ⟨h.1, by simpa using h.2⟩⟩
  · rintro (hbad | ⟨i, u, hi, hu, hbad⟩)
    · refine ⟨0, t, by omega, rfl, hbad.imp_right fun h => ⟨h.1, ?_⟩⟩
      rw [h.2]
      rfl
    · exact ⟨i + 1, u, by omega, hu, hbad.imp_right fun h => ⟨h.1, by simpa using h.2⟩⟩

/-- The statistics with what the tokens ask for. -/
def askedAll : List PcDimStat → List (List Char) → List PcDimStat
  | stat :: stats, t :: ts => stat.asked t :: askedAll stats ts
  | stats, _ => stats

/-- The loop raises an error for a token that is refused, and otherwise does what the
tokens ask for by how they begin. -/
theorem fillRecommended_eq : ∀ (stats : List PcDimStat) (ptr : List Char),
    (Refused stats.length (tokensOf ptr) → Raises (fillRecommended stats ptr)) ∧
    (¬ Refused stats.length (tokensOf ptr) →
      fillRecommended stats ptr = .ok (askedAll stats (tokensOf ptr)))
  | [], ptr => ⟨fun ⟨_, _, hi, _⟩ => absurd hi (Nat.not_lt_zero _), fun _ => rfl⟩
  | stat :: stats, ptr => by
      have hdrop : ∀ (t rest : List Char), ',' ∉ t →
          (t ++ rest).dropWhile (fun c => c != ',') = rest.dropWhile fun c => c != ',' := by
        intro t rest ht
        refine List.dropWhile_append_of_pos fun c hc => ?_
        simp only [bne_iff_ne, ne_eq]
        exact fun heq => ht (heq ▸ hc)
      by_cases hcomma : ',' ∈ ptr
      · obtain ⟨t, rest, rfl, ht⟩ := List.eq_append_cons_of_mem hcomma
        obtain ⟨ihraises, ihok⟩ := fillRecommended_eq stats rest
        obtain ⟨hraises, hok⟩ := setRecommended_comma stat ht rest
        have htokens : tokensOf (t ++ ',' :: rest) = t :: tokensOf rest :=
          List.splitOn_append_cons_self_of_not_mem ht rest
        have hne : tokensOf rest ≠ [] := List.splitOn_ne_nil _ _
        have hleft : (t ++ ',' :: rest).dropWhile (fun c => c != ',') = ',' :: rest := by
          rw [hdrop t _ ht]
          rfl
        rw [htokens, List.length_cons, refused_cons]
        simp only [hne, and_false, or_false, fillRecommended, hleft]
        constructor
        · rintro (hbad | hrest)
          · exact raises_bind.mpr (.inl (hraises hbad))
          · by_cases hbad : Unrecognized t
            · exact raises_bind.mpr (.inl (hraises hbad))
            · rw [hok hbad, ok_bind]
              exact raises_bind.mpr (.inl (ihraises hrest))
        · intro hgood
          rw [hok fun hbad => hgood (.inl hbad), ok_bind, ihok fun hrest => hgood (.inr hrest),
            ok_bind, askedAll, pure_eq_ok]
      · obtain ⟨hraises, hok⟩ := setRecommended_last stat hcomma
        have htokens : tokensOf ptr = [ptr] := List.splitOn_eq_singleton hcomma
        have hleft : ptr.dropWhile (fun c => c != ',') = [] := by
          have hall := hdrop ptr [] hcomma
          rwa [List.append_nil] at hall
        have hnone : ¬ Refused stats.length [] := by
          rintro ⟨i, t, -, ht, -⟩
          exact nomatch ht
        rw [htokens, List.length_cons, refused_cons]
        simp only [and_true, hnone, or_false, fillRecommended, hleft]
        constructor
        · intro hbad
          exact raises_bind.mpr (.inl (hraises hbad))
        · intro hgood
          rw [hok hgood, ok_bind, askedAll, pure_eq_ok]
          cases stats <;> rfl

/-- A configuration that is not empty and ends with a comma. -/
def EndsEmpty (configIn : List Char) : Prop :=
  configIn ≠ [] ∧ (tokensOf configIn).getLast? = some []

instance (configIn : List Char) : Decidable (EndsEmpty configIn) :=
  inferInstanceAs (Decidable (_ ∧ _))

/-- A configuration that is refused. -/
def ConfigRefused (n : Nat) (configIn : List Char) : Prop :=
  (∃ i t, i < n ∧ (tokensOf configIn)[i]? = some t ∧ Unrecognized t) ∨
    (tokensOf configIn).length ≤ n ∧ EndsEmpty configIn

/-- The last token stands at the end of the list. -/
theorem refused_iff {n : Nat} {ts : List (List Char)} (hne : ts ≠ []) :
    Refused n ts ↔ (∃ i t, i < n ∧ ts[i]? = some t ∧ Unrecognized t) ∨
      ts.length ≤ n ∧ ts.getLast? = some [] := by
  have hpos := List.length_pos_iff.mpr hne
  constructor
  · rintro ⟨i, t, hi, ht, hbad | ⟨rfl, hend⟩⟩
    · exact .inl ⟨i, t, hi, ht, hbad⟩
    · refine .inr ⟨by omega, ?_⟩
      rw [List.getLast?_eq_getElem?, ← ht, ← hend, Nat.add_sub_cancel]
  · rintro (⟨i, t, hi, ht, hbad⟩ | ⟨hle, hlast⟩)
    · exact ⟨i, t, hi, ht, .inl hbad⟩
    · rw [List.getLast?_eq_getElem?] at hlast
      exact ⟨ts.length - 1, [], by omega, hlast, .inr ⟨rfl, by omega⟩⟩

theorem askedAll_nil (stats : List PcDimStat) : askedAll stats [] = stats := by
  cases stats <;> rfl

/-- The loop is not entered for an empty configuration, which asks for nothing. -/
theorem applyConfig_eq (pds : PcDimStats) (configIn : List Char) :
    (ConfigRefused pds.stats.length configIn → Raises (applyConfig pds configIn)) ∧
    (¬ ConfigRefused pds.stats.length configIn → applyConfig pds configIn =
      .ok { pds with stats := askedAll pds.stats (tokensOf configIn) }) := by
  unfold applyConfig ConfigRefused EndsEmpty
  by_cases hnil : configIn = []
  · subst hnil
    have hasked : askedAll pds.stats (tokensOf []) = pds.stats := by
      cases hstats : pds.stats with
      | nil => rfl
      | cons stat stats => exact congrArg (stat :: ·) (askedAll_nil stats)
    have hnone : ∀ (i : Nat) (t : List Char), (tokensOf [])[i]? = some t → ¬ Unrecognized t := by
      intro i t ht hbad
      obtain rfl : t = [] := List.mem_singleton.mp (List.mem_of_getElem? ht)
      exact hbad.1 rfl
    rw [if_pos rfl, hasked]
    constructor
    · rintro (⟨i, t, -, ht, hbad⟩ | ⟨-, hne, -⟩)
      · exact absurd hbad (hnone i t ht)
      · exact absurd rfl hne
    · exact fun _ => rfl
  · obtain ⟨hraises, hok⟩ := fillRecommended_eq pds.stats configIn
    have hne : tokensOf configIn ≠ [] := List.splitOn_ne_nil _ _
    rw [if_neg hnil]
    simp only [hnil, ne_eq, not_false_eq_true, true_and, ← refused_iff hne]
    constructor
    · exact fun hbad => raises_bind.mpr (.inl (hraises hbad))
    · intro hgood
      rw [hok hgood, ok_bind, pure_eq_ok]

/-! ## What a configuration decides -/

/-- A list of names, no longer than the list of dimensions. -/
def WellFormed (n : Nat) (configIn : List Char) : Prop :=
  (tokensOf configIn).length ≤ n ∧ ∀ t ∈ tokensOf configIn, ValidToken t

instance (n : Nat) (configIn : List Char) : Decidable (WellFormed n configIn) :=
  inferInstanceAs (Decidable (_ ∧ _))

/-- The statistics on points, of which no more samples are taken. -/
def sampledFor (P : Platform) (s : PcSchema) (pts : List Bytes) : PcDimStats :=
  { (pcDimstatsMake s).sampled P ((patchOfRecords s pts).dimensional pts) with
    totalPoints := pcdimstatsMinSample + 1 }

/-- The encoding of each dimension: the one that its token asks for, or the one that
the statistics recommend. -/
def decided (P : Platform) (s : PcSchema) (pts : List Bytes) (configIn : List Char) :
    List DimCompression :=
  (sampledFor P s pts).stats.mapIdx fun i stat =>
    ((tokensOf configIn)[i]?.bind requested).getD stat.recommendedCompression

/-- A list of names decides by its tokens. -/
theorem map_askedAll : ∀ (stats : List PcDimStat) (ts : List (List Char)),
    (∀ t ∈ ts, ValidToken t) →
    (askedAll stats ts).map PcDimStat.recommendedCompression =
      stats.mapIdx fun i stat => (ts[i]?.bind requested).getD stat.recommendedCompression
  | [], _, _ => by simp [askedAll]
  | stat :: stats, [], _ => by
      rw [askedAll_nil]
      refine List.ext_getElem (by rw [List.length_map, List.length_mapIdx]) fun i hi hi' => ?_
      simp only [List.getElem_map, List.getElem_mapIdx, List.getElem?_nil, Option.bind_none,
        Option.getD_none]
  | stat :: stats, t :: ts, hvalid => by
      have ih := map_askedAll stats ts fun u hu => hvalid u (List.mem_cons_of_mem _ hu)
      rw [askedAll, List.map_cons, ih, List.mapIdx_cons]
      simp [PcDimStat.asked, requestedByStart_eq (hvalid t List.mem_cons_self)]

theorem length_askedAll : ∀ (stats : List PcDimStat) (ts : List (List Char)),
    (askedAll stats ts).length = stats.length
  | [], _ => by simp [askedAll]
  | stat :: stats, [] => by rw [askedAll_nil]
  | stat :: stats, t :: ts => by rw [askedAll, List.length_cons, List.length_cons, length_askedAll]

/-- Neither statistics nor tokens come to an encoding that there is not. -/
theorem recommend_known (points patches : Nat) (stat : PcDimStat) (dim : PcDimension)
    (code : Nat) : recommend points patches stat dim ≠ .unknown code := by
  unfold recommend
  simp only
  split <;> try split
  all_goals try split
  all_goals simp

theorem requestedByStart_known (t : List Char) (code : Nat) :
    requestedByStart t ≠ some (.unknown code) := by
  unfold requestedByStart
  split <;> try split
  all_goals try split
  all_goals simp

theorem askedAll_known : ∀ (stats : List PcDimStat) (ts : List (List Char)),
    (∀ stat ∈ stats, ∀ code, stat.recommendedCompression ≠ .unknown code) →
    ∀ stat ∈ askedAll stats ts, ∀ code, stat.recommendedCompression ≠ .unknown code
  | [], _, _ => by simp [askedAll]
  | stat :: stats, [], h => by rwa [askedAll_nil]
  | stat :: stats, t :: ts, h => by
      obtain ⟨hstat, hstats⟩ := List.forall_mem_cons.mp h
      refine List.forall_mem_cons.mpr ⟨fun code => ?_, askedAll_known stats ts hstats⟩
      have ht := requestedByStart_known t code
      cases hr : requestedByStart t with
      | none => simpa [PcDimStat.asked, hr] using hstat code
      | some c => simpa [PcDimStat.asked, hr] using ht

/-! ## The dimensions -/

/-- By statistics that are not sampled again, every array is encoded. -/
theorem pcPatchDimensionalCompress_full {d : PcPatchDimensional} {pds : PcDimStats}
    (hstats : pds.stats.length = d.schema.dims.length)
    (hbytes : d.bytes.length = d.schema.dims.length)
    (hfull : ¬ pds.totalPoints < pcdimstatsMinSample) :
    pcPatchDimensionalCompress P d (some pds) = (do
      let bytes ← (d.bytes.zip pds.stats).mapM fun p =>
        pcBytesEncode P p.1 p.2.recommendedCompression
      return ({ d with bytes := bytes, stats := pcStatsClone d.stats }, some pds)) := by
  have hrange := mapM_range_wordAt (hbytes.trans hstats.symm)
    fun pcb (stat : PcDimStat) => pcBytesEncode P pcb stat.recommendedCompression
  rw [hbytes] at hrange
  simp only [pcPatchDimensionalCompress, Option.getD_some, if_neg hfull, ok_bind, PcSchema.ndims,
    hrange, Option.map_some]

/-- No error is reported. -/
theorem not_raises_pcPatchDimensionalCompress {d : PcPatchDimensional} {pts : List Bytes}
    (h : d.Holds P pts) {pds : PcDimStats} (hstats : pds.stats.length = d.schema.dims.length)
    (hfull : ¬ pds.totalPoints < pcdimstatsMinSample)
    (hknown : ∀ stat ∈ pds.stats, ∀ code, stat.recommendedCompression ≠ .unknown code) :
    ¬ Raises (pcPatchDimensionalCompress P d (some pds)) := by
  rw [pcPatchDimensionalCompress_full hstats h.bytes_hold.length_eq.symm hfull]
  refine not_raises_bind (fun hraises => ?_) fun _ => not_raises_ok _
  obtain ⟨⟨e, stat⟩, hmem, hbad⟩ := exists_raises_of_mapM hraises
  obtain ⟨he, hstat⟩ := List.of_mem_zip hmem
  exact not_raises_pcBytesEncode P (h.of_mem_bytes he).1 (hknown stat hstat) hbad

/-- The packed values of a dimension have fewer than `2 ^ 32` bits. -/
def BitsCounted (P : Platform) (s : PcSchema) (pts : List Bytes) (cs : List DimCompression) :
    Prop :=
  ∀ q ∈ s.dims.zip cs, q.2 = .sigbits →
    uniqueBits ((plainArray q.1 (pts.map q.1.bytesIn)).words P.endian) * pts.length < 4294967296

instance (P : Platform) (s : PcSchema) (pts : List Bytes) (cs : List DimCompression) :
    Decidable (BitsCounted P s pts cs) :=
  inferInstanceAs (Decidable (∀ q ∈ s.dims.zip cs, _))

section Dimensions

variable {u : PcPatchUncompressed} {pts : List Bytes} (h : u.Holds pts)

theorem slots_dimensional (pds : PcDimStats) :
    slots (u.dimensional pts) pds = (u.schema.dims.zip pds.stats).map fun q =>
      ((q.1, plainArray q.1 (pts.map q.1.bytesIn)), q.2) := by
  have hzip : (u.dimensional pts).schema.dims.zip (u.dimensional pts).bytes =
      u.schema.dims.map fun dim => (dim, plainArray dim (pts.map dim.bytesIn)) :=
    zip_map_self _ _
  rw [slots, hzip, List.zip_map_left]
  rfl

include h

/-- Of statistics that are not sampled again, only the recommendations count. -/
theorem encodesDims_iff {pds : PcDimStats} (hfull : ¬ pds.totalPoints < pcdimstatsMinSample)
    (hknown : ∀ stat ∈ pds.stats, ∀ code, stat.recommendedCompression ≠ .unknown code) :
    EncodesDims P u pts pds ↔
      BitsCounted P u.schema pts (pds.stats.map PcDimStat.recommendedCompression) := by
  have hafter : pds.after P (u.dimensional pts) = pds := if_neg hfull
  unfold BitsCounted
  rw [List.zip_map_right, List.forall_mem_map]
  constructor
  · intro henc q hq hsig
    have hbits := henc.bits
    rw [hafter, slots_dimensional, List.forall_mem_map] at hbits
    rw [h.length_eq]
    exact hbits q hq hsig
  · intro hbits
    refine ⟨fun hlt => absurd hlt hfull, ?_, ?_⟩
    · rw [hafter, slots_dimensional, List.forall_mem_map]
      exact fun q hq => hknown q.2 (List.of_mem_zip hq).2
    · rw [hafter, slots_dimensional, List.forall_mem_map]
      intro q hq hsig
      rw [← h.length_eq]
      exact hbits q hq hsig

variable (hne : pts ≠ []) (hrecords : u.npoints * u.schema.size < 1073741824)

include hne hrecords

theorem sampledStats_ok :
    sampledStats P u.schema (u.dimensional pts) = .ok (sampledFor P u.schema pts) := by
  have hfits := fits_of_records hrecords
  have hholds := h.dimensional (P := P)
  have hlen := h.length_eq
  have hpos : 1 ≤ u.npoints := hlen ▸ List.length_pos_iff.mpr hne
  have hint := Nat.le_of_lt hfits.npoints_lt
  have hcount : ∀ e ∈ (u.dimensional pts).bytes, e.npoints = u.npoints :=
    fun e he => (hholds.of_mem_bytes he).2
  have hsampleable : Sampleable (pcDimstatsMake u.schema) (u.dimensional pts) := by
    refine ⟨(by decide : uint32 (0 + 1) ≠ 0), fun e he => ?_⟩
    obtain ⟨dim, hd, rfl⟩ := List.mem_map.mp he
    exact (plainArray_plain hd (width_bytesIn h.width_eq hd)).room
  have hupdate := pcDimstatsUpdate_ok (P := P) (fun e he => (hholds.of_mem_bytes he).1)
    (length_pcDimstatsMake u.schema) hholds.bytes_hold.length_eq.symm
    (fun e he => (hcount e he).symm ▸ hpos) (fun e he => (hcount e he).symm ▸ hint) hsampleable
  have hsame : (pcDimstatsMake u.schema).sampled P (u.dimensional pts) =
      (pcDimstatsMake u.schema).sampled P ((patchOfRecords u.schema pts).dimensional pts) := by
    unfold PcDimStats.sampled
    simp only [PcPatchUncompressed.dimensional, patchOfRecords, hlen]
  rw [sampledStats, hupdate, ok_bind, pure_eq_ok, sampledFor, hsame]

/-- The arrays have the encodings that are recommended. -/
theorem compressions_of_compress {pds : PcDimStats}
    (hlen : pds.stats.length = u.schema.dims.length)
    (hfull : ¬ pds.totalPoints < pcdimstatsMinSample) {d : PcPatchDimensional}
    {pds' : Option PcDimStats}
    (hok : pcPatchDimensionalCompress P (u.dimensional pts) (some pds) = .ok (d, pds')) :
    d.bytes.map PcBytes.compression = pds.stats.map PcDimStat.recommendedCompression := by
  have hfits := fits_of_records hrecords
  have hholds := h.dimensional (P := P)
  have hbytes : (u.dimensional pts).bytes.length = u.schema.dims.length :=
    hholds.bytes_hold.length_eq.symm
  have henc : EncodesDims P u pts pds :=
    encodes_of_compress h hne hrecords (by simpa using hlen) hok
  have hafter : pds.after P (u.dimensional pts) = pds := if_neg hfull
  have hall := ((compressSound_plain_iff h hne hfits).mp
    (compressSound_of_encodes h hne hrecords henc)).2
  rw [hafter] at hall
  rw [pcPatchDimensionalCompress_full hlen hbytes hfull] at hok
  obtain ⟨bytes, hencode, hd⟩ := bind_eq_ok.mp hok
  obtain rfl : bytes = d.bytes := congrArg (fun r => r.1.bytes) (Except.ok.inj hd)
  have hmap : (slots (u.dimensional pts) pds).map (fun t => (t.1.2, t.2)) =
      (u.dimensional pts).bytes.zip pds.stats := map_array_slots hlen hbytes
  rw [← hmap, List.mapM_map] at hencode
  have hencoded := mapM_eq_ok_iff.mp hencode
  have heach : List.Forall₂ (fun (e : PcBytes) (t : (PcDimension × PcBytes) × PcDimStat) =>
      e.compression = t.2.recommendedCompression) d.bytes (slots (u.dimensional pts) pds) := by
    refine (List.forall₂_iff_zip.mpr ⟨hencoded.length_eq, fun {t e} hte => ?_⟩).flip
    have ht := (List.of_mem_zip hte).1
    have hplain : t.1.2.Plain := by
      rw [slots_dimensional] at ht
      obtain ⟨q, hq, rfl⟩ := List.mem_map.mp ht
      have hd := (List.of_mem_zip hq).1
      exact plainArray_plain hd (width_bytesIn h.width_eq hd)
    obtain ⟨e', he', -, -, -, hc, -⟩ := pcBytesEncode_ok hplain (hall t ht)
    have hte' : pcBytesEncode P t.1.2 t.2.recommendedCompression = .ok e :=
      (List.forall₂_iff_zip.mp hencoded).2 hte
    rw [he'] at hte'
    exact Except.ok.inj hte' ▸ hc
  have hsnd : (slots (u.dimensional pts) pds).map Prod.snd = pds.stats := by
    refine List.map_snd_zip ?_
    rw [List.length_zip, hbytes, hlen]
    exact Nat.le_of_eq (Nat.min_self _).symm
  have hcompressions := List.forall₂_eq_eq_eq ▸ List.forall₂_map_left_iff.mpr
    (List.forall₂_map_right_iff.mpr heach)
  rw [hcompressions, ← hsnd, List.map_map]
  rfl

end Dimensions

/-! ## The patch that is read -/

/-- A serialized patch that is read as a patch with the points `pts`. -/
def StoresPoints (P : Platform) (s : PcSchema) (serpa : SerializedPatch) (pts : List Bytes) :
    Prop := ∃ p, pcPatchDeserialize P serpa s = .ok p ∧ p.Holds P pts

/-- The records of the patch. -/
structure RecordsRead (P : Platform) (s : PcSchema) (serpa : SerializedPatch) (pts : List Bytes)
    (u : PcPatchUncompressed) : Prop where
  ok : (pcPatchDeserialize P serpa s >>= pcPatchUncompress P) = .ok u
  schema_eq : u.schema = s
  holds : u.Holds pts
  stats : ∃ st, u.stats = some st ∧ StatsWidth s st

theorem StoresPoints.records {s : PcSchema} {serpa : SerializedPatch} {pts : List Bytes}
    (h : StoresPoints P s serpa pts) (hrecords : pts.length * s.size < 1073741824) :
    ∃ u, RecordsRead P s serpa pts u := by
  obtain ⟨p, hp, hholds⟩ := h
  obtain ⟨rfl, ⟨st, hst, hover⟩, -⟩ := fields_of_deserialize hp
  have hwidth := hover.width
  have hroom : p.Allocatable := by
    cases p with
    | dimensional d =>
        have hnp : pts.length = d.npoints := PcPatch.Holds.length_eq hholds
        change pts.length * d.schema.size < _ at hrecords
        change d.schema.size * d.npoints < _
        rw [← hnp, Nat.mul_comm]
        omega
    | uncompressed u => trivial
    | lazperf l => trivial
  obtain ⟨u, hu⟩ := PcPatch.Holds.unpacks hholds hroom
  have hsame : p.unpacked pts = pts := by
    cases p with
    | dimensional d =>
        exact (fits_of_records hrecords).unpackedRecords_eq (PcPatch.Holds.width_eq hholds)
    | uncompressed u => rfl
    | lazperf l => rfl
  refine ⟨u, ?_, hu.schema_eq, hsame ▸ hu.holds, ?_⟩
  · rw [hp, ok_bind, hu.uncompress_ok]
  · rw [hu.stats_eq]
    cases p with
    | dimensional d =>
        exact ⟨_, congrArg pcStatsClone hst, ⟨hwidth.min, hwidth.max, hwidth.avg⟩⟩
    | uncompressed u => exact ⟨st, hst, hwidth⟩
    | lazperf l => exact hholds.elim

/-! ## The patch that is written -/

/-- The statistics with what a configuration asks for. -/
def configured (P : Platform) (s : PcSchema) (pts : List Bytes) (configIn : List Char) :
    PcDimStats :=
  { sampledFor P s pts with stats := askedAll (sampledFor P s pts).stats (tokensOf configIn) }

theorem length_sampledFor (P : Platform) (s : PcSchema) (pts : List Bytes) :
    (sampledFor P s pts).stats.length = s.dims.length :=
  length_sampled (length_pcDimstatsMake s) (List.length_map _)

theorem sampledFor_known (P : Platform) (s : PcSchema) (pts : List Bytes) :
    ∀ stat ∈ (sampledFor P s pts).stats, ∀ code, stat.recommendedCompression ≠ .unknown code := by
  intro stat hstat code
  obtain ⟨q, -, rfl⟩ := List.mem_map.mp hstat
  exact recommend_known _ _ _ _ _

section Configured

variable (P) (s : PcSchema) (pts : List Bytes) (configIn : List Char)

theorem length_configured : (configured P s pts configIn).stats.length = s.dims.length :=
  (length_askedAll _ _).trans (length_sampledFor P s pts)

theorem configured_full : ¬ (configured P s pts configIn).totalPoints < pcdimstatsMinSample :=
  Nat.not_lt.mpr (Nat.le_succ _)

theorem configured_known : ∀ stat ∈ (configured P s pts configIn).stats, ∀ code,
    stat.recommendedCompression ≠ .unknown code :=
  askedAll_known _ _ (sampledFor_known P s pts)

theorem map_configured {configIn : List Char} (h : ∀ t ∈ tokensOf configIn, ValidToken t) :
    (configured P s pts configIn).stats.map PcDimStat.recommendedCompression =
      decided P s pts configIn := map_askedAll _ _ h

end Configured

/-- What dimensional compression is left with when the compressed patch is put under
the schema with dimensional compression. -/
def PcPatchDimensional.overridden (d : PcPatchDimensional) (s : PcSchema) : PcPatchDimensional :=
  { d with schema := { pcSchemaClone s with compression := .dimensional } }

variable {lookup : Nat → Run (Option PcSchema)} {s : PcSchema} {serpa : SerializedPatch}
  {pts : List Bytes} {u : PcPatchUncompressed} {configIn : List Char}

/-- `pcpatch_compress` with dimensional compression. -/
theorem pcpatchCompress_dimensional (configIn : List Char)
    (hlookup : lookup serpa.pcid = .ok (some s))
    (hu : RecordsRead P s serpa pts u) {comprIn : List Char}
    (hauto : sameLetters comprIn "auto" = false) (hcompr : comprIn = "dimensional".toList) :
    pcpatchCompress P lookup serpa comprIn configIn = (do
      let (pdl, stats) ← compressDimensions P s u configIn
      let (serpaOut, _) ← pcPatchSerialize P (.dimensional (pdl.overridden s)) stats
      return serpaOut) := by
  obtain ⟨p, hp, hpu⟩ := bind_eq_ok.mp hu.ok
  have hnot : ¬ (comprIn = [] ∨ sameLetters comprIn "auto" = true) := by
    rw [hauto, hcompr]
    decide
  unfold pcpatchCompress
  simp only [hlookup, hp, hpu, ok_bind]
  rw [if_neg hnot, if_pos hcompr]
  rfl

section Run

variable (hu : RecordsRead P s serpa pts u) (hne : pts ≠ [])
  (hrecords : pts.length * s.size < 1073741824)

include hu hne hrecords

/-- A configuration is refused before anything is compressed. -/
theorem compressDimensions_eq :
    (ConfigRefused s.ndims configIn → Raises (compressDimensions P s u configIn)) ∧
    (¬ ConfigRefused s.ndims configIn → compressDimensions P s u configIn =
      pcPatchDimensionalCompress P (u.dimensional pts) (some (configured P s pts configIn))) := by
  obtain ⟨-, rfl, hholds, -⟩ := hu
  rw [hholds.length_eq] at hrecords
  obtain ⟨hraises, hok⟩ := applyConfig_eq (sampledFor P u.schema pts) configIn
  rw [length_sampledFor] at hraises hok
  have hform : pcPatchDimensionalFromUncompressed u = .ok (some (u.dimensional pts)) :=
    pcPatchDimensionalFromUncompressed_ok hholds hne (fits_of_records hrecords)
  unfold compressDimensions
  simp only [hform, ok_bind, sampledStats_ok hholds hne hrecords]
  constructor
  · exact fun hbad => raises_bind.mpr (.inl (hraises hbad))
  · intro hgood
    rw [hok hgood, ok_bind]
    rfl

/-- The compressed patch is written, and read back by the schema. -/
theorem serialize_overridden {d : PcPatchDimensional} {stats : Option PcDimStats}
    (hok : pcPatchDimensionalCompress P (u.dimensional pts) (some (configured P s pts configIn)) =
      .ok (d, stats))
    (hlt : pcPatchSerializedSize (.dimensional d) < 1073741824) :
    ∃ out d', pcPatchSerialize P (.dimensional (d.overridden s)) stats = .ok (out, stats) ∧
      out.pcid = s.pcid ∧ pcPatchDeserialize P out s = .ok (.dimensional d') ∧ d'.Holds P pts ∧
      d'.bytes.map PcBytes.compression = d.bytes.map PcBytes.compression := by
  obtain ⟨-, rfl, hholds, st, hst, hwidth⟩ := hu
  rw [hholds.length_eq] at hrecords
  have hlen := length_configured P u.schema pts configIn
  have huser : ∀ pds ∈ some (configured P u.schema pts configIn),
      pds.stats.length = u.schema.dims.length := by simpa using hlen
  obtain ⟨d₁, stats₁, hok₁, hschema, hnp, hbounds, hstats, hd⟩ :=
    compress_of_encodes hholds hne hrecords huser
      (encodes_of_compress hholds hne hrecords huser hok)
  obtain ⟨rfl, rfl⟩ := Prod.mk.inj (Except.ok.inj (hok.symm.trans hok₁))
  have hd' : (d.overridden u.schema).Holds P pts := by
    refine ⟨hd.npoints_lt, hd.npoints_eq, ?_, ?_⟩
    · intro pt hpt
      rw [hd.width_eq pt hpt, hschema]
      rfl
    · have hbytes := hd.bytes_hold
      rw [hschema] at hbytes
      exact hbytes
  have hst' : (d.overridden u.schema).stats = some ⟨st.min.copy.copy, st.max.copy.copy,
      st.avg.copy.copy⟩ := by
    change d.stats = _
    rw [hstats, hst]
    rfl
  have hwidth' : StatsWidth (d.overridden u.schema).schema
      ⟨st.min.copy.copy, st.max.copy.copy, st.avg.copy.copy⟩ :=
    ⟨hwidth.min, hwidth.max, hwidth.avg⟩
  have hsize : pcPatchSerializedSize (.dimensional (d.overridden u.schema)) =
      pcPatchSerializedSize (.dimensional d) := by
    unfold pcPatchSerializedSize
    simp only [PcPatch.schema, hschema]
    rfl
  have hsegments := segments_below hlt
  have hwrite := serializeByType_ok (p := .dimensional (d.overridden u.schema)) hd' hst' hwidth'
    (hsize ▸ hlt) hsegments
  have hclone : StatsWidth u.schema ⟨st.min.copy.copy, st.max.copy.copy, st.avg.copy.copy⟩ :=
    ⟨hwidth.min, hwidth.max, hwidth.avg⟩
  have hdims : u.schema.dims = (d.overridden u.schema).schema.dims := rfl
  obtain ⟨st₂, -, -, -, hread⟩ := read_dimensional hd' hdims hclone hsegments
  refine ⟨_, _, ?_, ?_, hread, ⟨hd.npoints_lt, hd.npoints_eq, ?_, ?_⟩, ?_⟩
  · rw [pcPatchSerialize_eq (p := .dimensional (d.overridden u.schema)) hst',
      patchToSerialize_same rfl, ok_bind]
    simp only [hwrite, ok_bind, pure_eq_ok]
  · rfl
  · intro pt hpt
    rw [hd.width_eq pt hpt, hschema]
  · rw [List.forall₂_map_right_iff]
    exact hd'.bytes_hold.imp fun dim e he => ⟨he.1, he.2.1, he.2.2.trimmed true⟩
  · exact List.map_map

variable (hlookup : lookup serpa.pcid = .ok (some s))

include hlookup

/-- A configuration that is refused raises an error. -/
theorem raises_pcpatchCompress (hbad : ConfigRefused s.ndims configIn) :
    Raises (pcpatchCompress P lookup serpa "dimensional".toList configIn) := by
  rw [pcpatchCompress_dimensional configIn hlookup hu (by decide) rfl]
  exact raises_bind.mpr (.inl ((compressDimensions_eq hu hne hrecords).1 hbad))

variable (hgood : ¬ ConfigRefused s.ndims configIn)
  (hout : ∀ r, compressDimensions P s u configIn = .ok r →
    pcPatchSerializedSize (.dimensional r.1) < 1073741824)

include hgood hout

/-- With any other configuration the patch is compressed and written, where it can be. -/
theorem pcpatchCompress_eq :
    (∃ out d, pcpatchCompress P lookup serpa "dimensional".toList configIn = .ok out ∧
      BitsCounted P s pts ((configured P s pts configIn).stats.map
        PcDimStat.recommendedCompression) ∧
      out.pcid = s.pcid ∧ pcPatchDeserialize P out s = .ok (.dimensional d) ∧ d.Holds P pts ∧
      d.bytes.map PcBytes.compression = (configured P s pts configIn).stats.map
        PcDimStat.recommendedCompression) ∨
    ¬ BitsCounted P s pts ((configured P s pts configIn).stats.map
        PcDimStat.recommendedCompression) ∧
      (∀ out, pcpatchCompress P lookup serpa "dimensional".toList configIn ≠ .ok out) ∧
      ¬ Raises (pcpatchCompress P lookup serpa "dimensional".toList configIn) := by
  have hrun := pcpatchCompress_dimensional configIn hlookup hu (by decide) rfl
  have hcompress := (compressDimensions_eq hu hne hrecords).2 hgood
  obtain rfl := hu.schema_eq
  have hholds := hu.holds
  have hsmall : u.npoints * u.schema.size < 1073741824 := hholds.length_eq ▸ hrecords
  have hlen := length_configured P u.schema pts configIn
  have hfull := configured_full P u.schema pts configIn
  have hknown := configured_known P u.schema pts configIn
  have henc := encodesDims_iff (P := P) hholds hfull hknown
  have huser : ∀ pds ∈ some (configured P u.schema pts configIn),
      pds.stats.length = u.schema.dims.length := by simpa using hlen
  rw [hcompress] at hrun hout
  by_cases hbits : BitsCounted P u.schema pts ((configured P u.schema pts configIn).stats.map
      PcDimStat.recommendedCompression)
  · obtain ⟨d, stats, hok, -⟩ :=
      compress_of_encodes hholds hne hsmall huser (henc.mpr hbits)
    obtain ⟨out, d', hwrite, hpcid, hread, hd', hsame⟩ :=
      serialize_overridden hu hne hrecords hok (hout _ hok)
    refine .inl ⟨out, d', ?_, hbits, hpcid, hread, hd', ?_⟩
    · rw [hrun, hok, ok_bind]
      simp only [hwrite, ok_bind, pure_eq_ok]
    · rw [hsame, compressions_of_compress hholds hne hsmall hlen hfull hok]
  · have hnone : ∀ r, pcPatchDimensionalCompress P (u.dimensional pts)
        (some (configured P u.schema pts configIn)) ≠ .ok r := fun r hr =>
      hbits (henc.mp (encodes_of_compress hholds hne hsmall huser hr))
    refine .inr ⟨hbits, fun out hok => ?_, fun hraises => ?_⟩
    · rw [hrun] at hok
      obtain ⟨r, hr, -⟩ := bind_eq_ok.mp hok
      exact hnone r hr
    · rw [hrun] at hraises
      rcases raises_bind.mp hraises with hraises | ⟨r, hr, -⟩
      · exact not_raises_pcPatchDimensionalCompress hholds.dimensional hlen hfull hknown hraises
      · exact hnone r hr

end Run

/-! ## When the configuration is followed -/

/-- A list that is well formed is accepted, and the patch that is returned has the
points of the patch that is passed, each dimension in the encoding that is decided.
Any other configuration raises an error. -/
structure FollowsConfig (P : Platform) (lookup : Nat → Run (Option PcSchema)) (s : PcSchema)
    (serpa : SerializedPatch) (pts : List Bytes) (configIn : List Char) : Prop where
  accepts : WellFormed s.ndims configIn → ∃ out d,
    pcpatchCompress P lookup serpa "dimensional".toList configIn = .ok out ∧
    out.pcid = s.pcid ∧ pcPatchDeserialize P out s = .ok (.dimensional d) ∧ d.Holds P pts ∧
    d.bytes.map PcBytes.compression = decided P s pts configIn
  refuses : ¬ WellFormed s.ndims configIn →
    Raises (pcpatchCompress P lookup serpa "dimensional".toList configIn)

/-- A token of a dimension does not begin like a name; or a list that is not too long
ends with a comma and has another token that is no name; or the list is well formed
and does not end with a comma, and the packed values can be counted. -/
def ConfigCondition (P : Platform) (s : PcSchema) (pts : List Bytes) (configIn : List Char) :
    Prop :=
  (∃ i t, i < s.ndims ∧ (tokensOf configIn)[i]? = some t ∧ Unrecognized t) ∨
  ((tokensOf configIn).length ≤ s.ndims ∧ EndsEmpty configIn ∧
    ∃ t ∈ tokensOf configIn, ¬ ValidToken t) ∨
  WellFormed s.ndims configIn ∧ ¬ EndsEmpty configIn ∧
    BitsCounted P s pts (decided P s pts configIn)

/-- Neither the records nor the patch that is written has `2 ^ 30` bytes. -/
structure CompressBelowGigabyte (P : Platform) (s : PcSchema) (serpa : SerializedPatch)
    (pts : List Bytes) (configIn : List Char) : Prop where
  records : pts.length * s.size < 1073741824
  output : ∀ pa r, (pcPatchDeserialize P serpa s >>= pcPatchUncompress P) = .ok pa →
    compressDimensions P s pa configIn = .ok r →
    pcPatchSerializedSize (.dimensional r.1) < 1073741824

/-- PC_Compress follows its configuration exactly under this condition. -/
theorem pcpatchCompress_follows_iff (P : Platform) {lookup : Nat → Run (Option PcSchema)}
    {s : PcSchema} {serpa : SerializedPatch} {pts : List Bytes} (configIn : List Char)
    (hlookup : lookup serpa.pcid = .ok (some s)) (hstored : StoresPoints P s serpa pts)
    (hne : pts ≠ []) (hbelow : CompressBelowGigabyte P s serpa pts configIn) :
    FollowsConfig P lookup s serpa pts configIn ↔ ConfigCondition P s pts configIn := by
  obtain ⟨u, hu⟩ := hstored.records hbelow.records
  have hvalid : WellFormed s.ndims configIn → ∀ (i : Nat) (t : List Char),
      (tokensOf configIn)[i]? = some t → ¬ Unrecognized t := fun hwell i t ht =>
    (hwell.2 t (List.mem_of_getElem? ht)).recognized
  by_cases hbad : ConfigRefused s.ndims configIn
  · have hraises := raises_pcpatchCompress hu hne hbelow.records hlookup hbad
    have hfollows : FollowsConfig P lookup s serpa pts configIn ↔
        ¬ WellFormed s.ndims configIn := by
      constructor
      · intro hf hwell
        obtain ⟨out, d, hok, -⟩ := hf.accepts hwell
        rw [hok] at hraises
        exact not_raises_ok _ hraises
      · exact fun hill => ⟨fun hwell => absurd hwell hill, fun _ => hraises⟩
    rw [hfollows]
    constructor
    · intro hill
      rcases hbad with hbad | ⟨hle, hend⟩
      · exact .inl hbad
      · refine .inr (.inl ⟨hle, hend, ?_⟩)
        by_contra hall
        refine hill ⟨hle, fun t ht => ?_⟩
        by_contra hnot
        exact hall ⟨t, ht, hnot⟩
    · rintro (⟨i, t, -, ht, hu⟩ | ⟨-, -, t, ht, hnot⟩ | ⟨hwell, hend, -⟩) hwell'
      · exact hvalid hwell' i t ht hu
      · exact hnot (hwell'.2 t ht)
      · rcases hbad with ⟨i, t, -, ht, hu⟩ | ⟨-, hend'⟩
        · exact hvalid hwell i t ht hu
        · exact hend hend'
  · have hcondition : ConfigCondition P s pts configIn ↔
        WellFormed s.ndims configIn ∧ BitsCounted P s pts (decided P s pts configIn) := by
      constructor
      · rintro (hu | ⟨hle, hend, -⟩ | ⟨hwell, -, hbits⟩)
        · exact absurd (.inl hu) hbad
        · exact absurd (.inr ⟨hle, hend⟩) hbad
        · exact ⟨hwell, hbits⟩
      · rintro ⟨hwell, hbits⟩
        exact .inr (.inr ⟨hwell, fun hend => hbad (.inr ⟨hwell.1, hend⟩), hbits⟩)
    rw [hcondition]
    rcases pcpatchCompress_eq hu hne hbelow.records hlookup hbad
      (fun r hr => hbelow.output u r hu.ok hr) with
      ⟨out, d, hok, hbits, hpcid, hread, hd, hc⟩ | ⟨hbits, hnone, hsilent⟩
    · constructor
      · intro hf
        by_cases hwell : WellFormed s.ndims configIn
        · rw [map_configured P s pts hwell.2] at hbits
          exact ⟨hwell, hbits⟩
        · have hraises := hf.refuses hwell
          rw [hok] at hraises
          exact absurd hraises (not_raises_ok _)
      · rintro ⟨hwell, -⟩
        rw [map_configured P s pts hwell.2] at hc
        exact ⟨fun _ => ⟨out, d, hok, hpcid, hread, hd, hc⟩, fun hill => absurd hwell hill⟩
    · constructor
      · intro hf
        by_cases hwell : WellFormed s.ndims configIn
        · obtain ⟨out, d, hok, -⟩ := hf.accepts hwell
          exact absurd hok (hnone out)
        · exact absurd (hf.refuses hwell) hsilent
      · rintro ⟨hwell, hcounted⟩
        rw [map_configured P s pts hwell.2] at hbits
        exact absurd hcounted hbits

/-- `storedPair`, as it is stored. -/
def serializedPair : SerializedPatch :=
  serialized .little (.uncompressed storedPair) (zeroStats pairOfDims.schema)

/-- The only schema there is. -/
def lookupPair : Nat → Run (Option PcSchema) := fun _ => .ok (some pairOfDims.schema)

theorem serializedPair_stores :
    StoresPoints Platform.plain pairOfDims.schema serializedPair [[1, 2], [3, 4]] := by
  have hholds : storedPair.Holds [[1, 2], [3, 4]] := ⟨by decide, by decide, by decide⟩
  have hwidth : StatsWidth storedPair.schema (zeroStats pairOfDims.schema) := ⟨rfl, rfl, rfl⟩
  obtain ⟨q, hq, -, hr⟩ := deserialize_uncompressed (P := Platform.plain) hholds rfl hwidth
    (by decide) (by decide)
  exact ⟨q, hq, hr.holds⟩

/-- Of the two dimensions, runs are asked for in the first. -/
theorem pcpatchCompress_follows_iff_witness :
    FollowsConfig Platform.plain lookupPair pairOfDims.schema serializedPair [[1, 2], [3, 4]]
      "rle,auto".toList := by
  have hsize : (pcPatchDeserialize Platform.plain serializedPair pairOfDims.schema >>=
      pcPatchUncompress Platform.plain >>= fun pa =>
        compressDimensions Platform.plain pairOfDims.schema pa "rle,auto".toList).map
      (fun r => pcPatchSerializedSize (.dimensional r.1)) = .ok 85 := by decide +kernel
  refine (pcpatchCompress_follows_iff Platform.plain "rle,auto".toList rfl serializedPair_stores
    (by decide) ⟨by decide, fun pa r hpa hr => ?_⟩).mpr
    (.inr (.inr ⟨by decide, by decide, by decide +kernel⟩))
  rw [hpa, ok_bind, hr] at hsize
  exact Nat.lt_of_le_of_lt (Nat.le_of_eq (Except.ok.inj hsize)) (by decide)

/-- Of two dimensions: a token that goes on behind a name is taken for the name, and a
list of three tokens is accepted; a list that ends with an empty token is refused. -/
theorem pcpatchCompress_not_follows :
    StoresPoints Platform.plain pairOfDims.schema serializedPair [[1, 2], [3, 4]] ∧
      (∀ configIn ∈ ["rlefoo".toList, "rle,rle,rle".toList, "rle,".toList],
        ¬ FollowsConfig Platform.plain lookupPair pairOfDims.schema serializedPair
          [[1, 2], [3, 4]] configIn) := by
  have hlong : ∀ configIn ∈ ["rlefoo".toList, "rle,rle,rle".toList],
      ¬ WellFormed pairOfDims.schema.ndims configIn ∧
        (pcpatchCompress Platform.plain lookupPair serializedPair "dimensional".toList
          configIn).toBool = true := by decide +kernel
  have hshort : WellFormed pairOfDims.schema.ndims "rle,".toList ∧
      (pcpatchCompress Platform.plain lookupPair serializedPair "dimensional".toList
        "rle,".toList).toBool = false := by decide +kernel
  refine ⟨serializedPair_stores, fun configIn hmem hf => ?_⟩
  have haccepted : configIn ∈ ["rlefoo".toList, "rle,rle,rle".toList] → False := by
    intro hin
    obtain ⟨hill, hok⟩ := hlong configIn hin
    obtain ⟨msg, hraised⟩ := hf.refuses hill
    rw [hraised] at hok
    exact Bool.false_ne_true hok
  rw [List.mem_cons, List.mem_cons, List.mem_singleton] at hmem
  rcases hmem with rfl | rfl | rfl
  · exact haccepted (by simp)
  · exact haccepted (by simp)
  · obtain ⟨out, d, hok, -⟩ := hf.accepts hshort.1
    rw [hok] at hshort
    exact Bool.false_ne_true hshort.2.symm

end Pointcloud
