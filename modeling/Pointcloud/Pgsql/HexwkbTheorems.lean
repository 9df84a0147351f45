/-
Pointcloud.Pgsql.HexwkbTheorems — hexadecimal text is read exactly where it can
be read at all.

The table of digits is right, but it is looked up before a character is
checked: text that is not ASCII is looked up in front of it. Text without
characters is refused, because no memory is allocated for it. What is read is
written again as the same text in upper case. The head of a point or a patch is
taken from the bytes without asking how many there are.
-/
import Pointcloud.Bytes.WireTheorems
import Pointcloud.Pgsql.Hexwkb

namespace Pointcloud

open Pointcloud.Base

variable {P : Platform}

/-! ## Digits -/

/-- The table has the numbers of the digits, and 20 for everything else. -/
theorem hex2char_eq {c : Nat} (h : c < 128) :
    wordAt hex2char c = .ok ((hexValue (BitVec.ofNat 8 c)).getD 20) := by
  have hall : ∀ c < 128, wordAt hex2char c = .ok ((hexValue (BitVec.ofNat 8 c)).getD 20) := by
    decide +kernel
  exact hall c h

/-- A character of ASCII is looked up, any other lies in front of the table. -/
theorem hexNumber_eq (c : Byte) :
    hexNumber c = if c.toNat < 128 then .ok ((hexValue c).getD 20) else fault := by
  have hlt := c.isLt
  unfold hexNumber
  by_cases hc : c.toNat < 128
  · have hint : c.toInt = c.toNat := by rw [BitVec.toInt_eq_toNat_cond, if_pos (by omega)]
    rw [hint, if_pos (by omega), if_pos hc, Int.toNat_natCast, hex2char_eq hc, BitVec.ofNat_toNat,
      BitVec.setWidth_eq]
  · have hint : c.toInt < 0 := by
      rw [BitVec.toInt_eq_toNat_cond, if_neg (by omega)]
      omega
    rw [if_neg (by omega), if_neg hc]

theorem byteOfDigits_eq {h l : Nat} (hh : h < 16) (hl : l < 16) :
    byteOfDigits h l = BitVec.ofNat 8 (h * 16 + l) := by
  have hall : ∀ h < 16, ∀ l < 16, byteOfDigits h l = BitVec.ofNat 8 (h * 16 + l) := by decide
  exact hall h hh l hl

/-- Two digits are read as their byte. -/
theorem byteOfChars_ok {p : Byte × Byte} {b : Byte} (h : byteOfPair p = some b) :
    byteOfChars p.1 p.2 = .ok b := by
  have hhex := byteOfPair_isSome_iff.mp (Option.isSome_iff_exists.mpr ⟨b, h⟩)
  unfold byteOfPair at h
  split at h
  · next hi lo hhi hlo =>
      cases h
      have hhilt := hexValue_lt hhi
      have hlolt := hexValue_lt hlo
      rw [byteOfChars, hexNumber_eq, if_pos hhex.1.lt, hhi, ok_bind, hexNumber_eq,
        if_pos hhex.2.lt, hlo, ok_bind, Option.getD_some, Option.getD_some, if_neg (by omega),
        if_neg (by omega), byteOfDigits_eq hhilt hlolt, pure_eq_ok]
  · exact nomatch h

/-- Other characters of ASCII are refused. -/
theorem byteOfChars_invalid {p : Byte × Byte} (hascii : p.1.toNat < 128 ∧ p.2.toNat < 128)
    (h : ¬ (IsHex p.1 ∧ IsHex p.2)) : ∃ msg, byteOfChars p.1 p.2 = raise msg := by
  rw [byteOfChars, hexNumber_eq, if_pos hascii.1, ok_bind, hexNumber_eq, if_pos hascii.2, ok_bind]
  cases hhi : hexValue p.1 with
  | none => exact ⟨_, if_pos (by decide)⟩
  | some hi =>
      have hhilt := hexValue_lt hhi
      cases hlo : hexValue p.2 with
      | none =>
          rw [Option.getD_some, Option.getD_none, if_neg (by omega), if_pos (by decide)]
          exact ⟨_, rfl⟩
      | some lo => exact absurd ⟨by rw [IsHex, hhi]; rfl, by rw [IsHex, hlo]; rfl⟩ h

/-- What is not ASCII is looked up in front of the table. -/
theorem byteOfChars_fault {p : Byte × Byte} (h : ¬ (p.1.toNat < 128 ∧ p.2.toNat < 128)) :
    byteOfChars p.1 p.2 = fault := by
  rw [byteOfChars, hexNumber_eq]
  split
  · next h1 =>
      have h2 : ¬ p.2.toNat < 128 := fun h2 => h ⟨h1, h2⟩
      rw [ok_bind, hexNumber_eq, if_neg h2, fault_bind]
  · rw [fault_bind]

/-! ## The loop -/

/-- Two characters that the indices of an `int` lead to. -/
theorem hexByte_eq {hexbuf : Bytes} {i : Nat} (hi : i < hexbuf.length / 2) (hint : i < 1073741824) :
    ∃ p, (bytePairs hexbuf)[i]? = some p ∧ hexByte hexbuf i = byteOfChars p.1 p.2 := by
  obtain ⟨a, b, hab, ha, hb⟩ := bytePairs_getElem? hexbuf i hi
  have hfirst : int32 (2 * (i : Int)) = ((2 * i : Nat) : Int) := by unfold int32; omega
  have hsecond : int32 (2 * (i : Int) + 1) = ((2 * i + 1 : Nat) : Int) := by unfold int32; omega
  refine ⟨(a, b), hab, ?_⟩
  rw [hexByte, hfirst, hsecond, charAt, charAt, if_pos (by omega), if_pos (by omega),
    Int.toNat_natCast, Int.toNat_natCast, wordAt, wordAt, ha, hb]
  rfl

/-- Past `2 ^ 30` pairs the index of the text turns negative. -/
theorem hexByte_fault (hexbuf : Bytes) : hexByte hexbuf 1073741824 = fault := by
  have hneg : int32 (2 * ((1073741824 : Nat) : Int)) = -2147483648 := by decide
  rw [hexByte, hneg, charAt, if_neg (by decide), fault_bind]

/-- The pairs are read one after the other, as far as the indices go. -/
theorem pcBytesFromHexbytes_eq {hexbuf : Bytes} (heven : hexbuf.length % 2 = 0)
    (hlt : hexbuf.length < 18446744073709551616) (hne : hexbuf ≠ []) :
    pcBytesFromHexbytes hexbuf = (do
      let bs ← ((bytePairs hexbuf).take 1073741824).mapM fun p => byteOfChars p.1 p.2
      if hexbuf.length ≤ 2147483648 then return bs else fault) := by
  have hlen := length_bytePairs hexbuf
  have hread : ∀ n, n ≤ hexbuf.length / 2 → n ≤ 1073741824 →
      (List.range n).mapM (hexByte hexbuf) =
        ((bytePairs hexbuf).take n).mapM fun p => byteOfChars p.1 p.2 := by
    intro n hn hint
    refine mapM_range_take (by rwa [hlen]) fun i p hi hp => ?_
    obtain ⟨q, hq, hrun⟩ := hexByte_eq (Nat.lt_of_lt_of_le hi hn) (Nat.lt_of_lt_of_le hi hint)
    rw [hp, Option.some.injEq] at hq
    rw [hrun, hq]
  have hpos := List.length_pos_of_ne_nil hne
  have hbuf : zeros (hexbuf.length / 2) ≠ [] :=
    List.ne_nil_of_length_pos (by rw [length_zeros]; omega)
  rw [pcBytesFromHexbytes, if_neg (by omega), pcalloc_ok (by omega), ok_bind, if_neg hbuf]
  by_cases hint : hexbuf.length ≤ 2147483648
  · rw [hread _ (Nat.le_refl _) (by omega), List.take_of_length_le (Nat.le_of_eq hlen),
      List.take_of_length_le (by omega)]
    simp only [if_pos hint, bind_pure]
  · obtain ⟨m, hm⟩ : ∃ m, hexbuf.length / 2 = 1073741824 + (m + 1) :=
      ⟨hexbuf.length / 2 - 1073741824 - 1, by omega⟩
    rw [hm, List.range_add, List.mapM_append, hread _ (by omega) (Nat.le_refl _),
      List.range_succ_eq_map, List.map_cons, List.mapM_cons, Nat.add_zero, hexByte_fault]
    simp only [if_neg hint, fault_bind]

/-! ## Bytes from digits -/

/-- Text is read without leaving the table, and exactly if it is made of pairs of digits. -/
def HexExact (hexbuf : Bytes) : Prop :=
  pcBytesFromHexbytes hexbuf ≠ fault ∧
    ((∃ bs, pcBytesFromHexbytes hexbuf = .ok bs) ↔
      hexbuf.length % 2 = 0 ∧ ∀ c ∈ hexbuf, IsHex c)

/-- The first pair that is not one of digits, of those that an `int` counts. -/
def firstInvalid (hexbuf : Bytes) : Option (Byte × Byte) :=
  ((bytePairs hexbuf).take 1073741824).find? fun p => ¬ (IsHex p.1 ∧ IsHex p.2)

/-- The length is odd; or there are characters, and the first pair that is not one of
digits is one of ASCII; if there is none, the text is not longer than an `int` counts. -/
def HexCondition (hexbuf : Bytes) : Prop :=
  hexbuf.length % 2 = 1 ∨ hexbuf ≠ [] ∧
    match firstInvalid hexbuf with
    | some p => p.1.toNat < 128 ∧ p.2.toNat < 128
    | none => hexbuf.length ≤ 2147483648

/-- Text without an invalid pair is read, if it is not too long. -/
theorem pcBytesFromHexbytes_valid {hexbuf : Bytes} (heven : hexbuf.length % 2 = 0)
    (hlt : hexbuf.length < 18446744073709551616) (hne : hexbuf ≠ [])
    (hnone : firstInvalid hexbuf = none) :
    (hexbuf.length ≤ 2147483648 → ∃ bs, pcBytesFromHexbytes hexbuf = .ok bs ∧
      List.Forall₂ (fun p b => byteOfPair p = some b) (bytePairs hexbuf) bs) ∧
    (2147483648 < hexbuf.length → pcBytesFromHexbytes hexbuf = fault) := by
  have hlen := length_bytePairs hexbuf
  have hvalid : ∀ p ∈ (bytePairs hexbuf).take 1073741824, ∃ b, byteOfPair p = some b := by
    intro p hp
    have hhex := List.find?_eq_none.mp hnone p hp
    rw [decide_eq_true_eq, not_not] at hhex
    exact Option.isSome_iff_exists.mp (byteOfPair_isSome_iff.mpr hhex)
  obtain ⟨bs, hbs⟩ : ∃ bs, ((bytePairs hexbuf).take 1073741824).mapM
      (fun p => byteOfChars p.1 p.2) = .ok bs :=
    mapM_isOk_iff.mpr fun p hp => (hvalid p hp).imp fun b hb => byteOfChars_ok hb
  rw [pcBytesFromHexbytes_eq heven hlt hne, hbs, ok_bind]
  constructor
  · intro hint
    rw [List.take_of_length_le (by omega)] at hbs hvalid
    refine ⟨bs, if_pos hint, ?_⟩
    refine ((List.forall₂_and_left _ _).mpr ⟨hvalid, mapM_eq_ok_iff.mp hbs⟩).imp ?_
    rintro p b ⟨⟨b', hb'⟩, hb⟩
    rw [byteOfChars_ok hb', Except.ok.injEq] at hb
    rw [hb', hb]
  · intro hlarge
    exact if_neg (by omega)

/-- Text with an invalid pair is read up to there. -/
theorem pcBytesFromHexbytes_invalid {hexbuf : Bytes} (heven : hexbuf.length % 2 = 0)
    (hlt : hexbuf.length < 18446744073709551616) {p : Byte × Byte}
    (hsome : firstInvalid hexbuf = some p) {e : Stop} (he : byteOfChars p.1 p.2 = .error e) :
    pcBytesFromHexbytes hexbuf = .error e := by
  have hne : hexbuf ≠ [] := by
    rintro rfl
    cases hsome
  obtain ⟨-, before, rest, hsplit, hbefore⟩ := List.find?_eq_some_iff_append.mp hsome
  have hread : ∀ q ∈ before, ∃ b, byteOfChars q.1 q.2 = .ok b := by
    intro q hq
    have hhex := hbefore q hq
    simp only [decide_not, Bool.not_not, decide_eq_true_eq] at hhex
    obtain ⟨b, hb⟩ := Option.isSome_iff_exists.mp (byteOfPair_isSome_iff.mpr hhex)
    exact ⟨b, byteOfChars_ok hb⟩
  rw [pcBytesFromHexbytes_eq heven hlt hne, hsplit, mapM_eq_error hread he]
  rfl

theorem pcBytesFromHexbytes_odd {hexbuf : Bytes} (hodd : hexbuf.length % 2 = 1) :
    ∃ msg, pcBytesFromHexbytes hexbuf = raise msg :=
  ⟨_, if_pos (by omega)⟩

/-- An invalid pair is not made of digits. -/
theorem not_isHex_of_firstInvalid {hexbuf : Bytes} {p : Byte × Byte}
    (hsome : firstInvalid hexbuf = some p) (heven : hexbuf.length % 2 = 0) :
    ¬ (IsHex p.1 ∧ IsHex p.2) ∧ ¬ ∀ c ∈ hexbuf, IsHex c := by
  have hbad : ¬ (IsHex p.1 ∧ IsHex p.2) := by
    simpa only [decide_eq_true_eq] using List.find?_some hsome
  refine ⟨hbad, fun hall => hbad ?_⟩
  exact (forall_bytePairs heven).mpr hall p
    (List.mem_of_mem_take (List.mem_of_find?_eq_some hsome))

/-- Text that was read is made of pairs of digits. -/
theorem pcBytesFromHexbytes_eq_ok {hexbuf bs : Bytes} (hlt : hexbuf.length < 18446744073709551616)
    (h : pcBytesFromHexbytes hexbuf = .ok bs) :
    hexbuf.length % 2 = 0 ∧ hexbuf.length ≤ 2147483648 ∧
      List.Forall₂ (fun p b => byteOfPair p = some b) (bytePairs hexbuf) bs := by
  have hne : hexbuf ≠ [] := by
    rintro rfl
    cases h
  rcases Nat.mod_two_eq_zero_or_one hexbuf.length with heven | hodd
  · cases hfirst : firstInvalid hexbuf with
    | none =>
        obtain ⟨hread, hlarge⟩ := pcBytesFromHexbytes_valid heven hlt hne hfirst
        by_cases hint : hexbuf.length ≤ 2147483648
        · obtain ⟨bs', hbs', hpairs⟩ := hread hint
          rw [h, Except.ok.injEq] at hbs'
          exact ⟨heven, hint, hbs' ▸ hpairs⟩
        · rw [hlarge (by omega)] at h
          exact absurd h (fault_ne_ok bs)
    | some p =>
        obtain ⟨hbad, -⟩ := not_isHex_of_firstInvalid hfirst heven
        by_cases hascii : p.1.toNat < 128 ∧ p.2.toNat < 128
        · obtain ⟨msg, hmsg⟩ := byteOfChars_invalid hascii hbad
          rw [pcBytesFromHexbytes_invalid heven hlt hfirst hmsg] at h
          exact nomatch h
        · rw [pcBytesFromHexbytes_invalid heven hlt hfirst (byteOfChars_fault hascii)] at h
          exact nomatch h
  · obtain ⟨msg, hmsg⟩ := pcBytesFromHexbytes_odd hodd
    rw [hmsg] at h
    exact absurd h (raise_ne_ok msg bs)

/-- Two characters for each byte. -/
theorem length_of_pcBytesFromHexbytes {hexbuf bs : Bytes}
    (hlt : hexbuf.length < 18446744073709551616) (h : pcBytesFromHexbytes hexbuf = .ok bs) :
    bs.length = hexbuf.length / 2 := by
  obtain ⟨-, -, hpairs⟩ := pcBytesFromHexbytes_eq_ok hlt h
  rw [← hpairs.length_eq, length_bytePairs]

/-- Text is read exactly if it is digits, under this condition. -/
theorem hexExact_iff {hexbuf : Bytes} (hlt : hexbuf.length < 18446744073709551616) :
    HexExact hexbuf ↔ HexCondition hexbuf := by
  unfold HexCondition HexExact
  by_cases hne : hexbuf = []
  · -- nothing is read of no characters, although each of them is a digit
    subst hne
    refine iff_of_false (fun hexact => ?_) (by simp)
    obtain ⟨bs, hbs⟩ := hexact.2.mpr ⟨rfl, by simp⟩
    cases hbs
  rcases Nat.mod_two_eq_zero_or_one hexbuf.length with heven | hodd
  · simp only [heven, zero_ne_one, false_or, true_and, ne_eq, hne, not_false_eq_true]
    cases hfirst : firstInvalid hexbuf with
    | none =>
        obtain ⟨hread, hlarge⟩ := pcBytesFromHexbytes_valid heven hlt hne hfirst
        constructor
        · rintro ⟨hsafe, -⟩
          by_contra hlong
          exact hsafe (hlarge (by omega))
        · intro hint
          obtain ⟨bs, hbs, -⟩ := hread hint
          rw [hbs]
          refine ⟨(fault_ne_ok bs).symm, iff_of_true ⟨bs, rfl⟩ ?_⟩
          refine (forall_bytePairs heven).mp fun p hp => ?_
          have hlen := length_bytePairs hexbuf
          have hhex := List.find?_eq_none.mp hfirst p
            (by rwa [List.take_of_length_le (by omega)])
          rwa [decide_eq_true_eq, not_not] at hhex
    | some p =>
        obtain ⟨hbad, hdigits⟩ := not_isHex_of_firstInvalid hfirst heven
        simp only
        constructor
        · rintro ⟨hsafe, -⟩
          by_contra hascii
          exact hsafe (pcBytesFromHexbytes_invalid heven hlt hfirst (byteOfChars_fault hascii))
        · intro hascii
          obtain ⟨msg, hmsg⟩ := byteOfChars_invalid hascii hbad
          have hrun := pcBytesFromHexbytes_invalid heven hlt hfirst hmsg
          rw [hrun]
          exact ⟨by simp [fault], iff_of_false (by simp) hdigits⟩
  · obtain ⟨msg, hmsg⟩ := pcBytesFromHexbytes_odd hodd
    rw [hmsg]
    exact iff_of_true ⟨by simp [fault, raise],
      iff_of_false (by simp [raise]) (by omega)⟩ (.inl hodd)

/-! ## Digits from bytes -/

/-- The digits are those of the halves of a byte. -/
theorem hexCopies_eq (b : Byte) {i : Nat} (hi : i < 1073741824) :
    hexCopies b i = [(((2 * i : Nat) : Int), [hexDigit (b.toNat / 16)]),
      (((2 * i + 1 : Nat) : Int), [hexDigit (b.toNat % 16)])] := by
  have hall : ∀ v < 16, hexchr.getD v 0 = hexDigit v := by decide
  have hlt := b.isLt
  have hlow : b.toNat &&& 15 = b.toNat % 16 := Nat.and_two_pow_sub_one_eq_mod b.toNat 4
  have hfirst : int32 (2 * (i : Int)) = ((2 * i : Nat) : Int) := by unfold int32; omega
  have hsecond : int32 (2 * (i : Int) + 1) = ((2 * i + 1 : Nat) : Int) := by unfold int32; omega
  rw [hexCopies, hlow, Nat.shiftRight_eq_div_pow, hall _ (by omega), hall _ (by omega), hfirst,
    hsecond]

/-- The digits follow on each other. -/
theorem flatMap_hexCopies : ∀ {bs : Bytes} {k : Nat}, k + bs.length ≤ 1073741824 →
    (bs.zipIdx k).flatMap (fun p => hexCopies p.1 p.2) =
      follow (2 * k) ((hexOf bs).map fun c => [c])
  | [], _, _ => rfl
  | b :: bs, k, h => by
      rw [List.length_cons] at h
      have hcons : hexOf (b :: bs) =
          hexDigit (b.toNat / 16) :: hexDigit (b.toNat % 16) :: hexOf bs := rfl
      rw [List.zipIdx_cons, List.flatMap_cons, hexCopies_eq b (by omega),
        flatMap_hexCopies (k := k + 1) (by omega), hcons]
      rfl

/-- Bytes are written as their digits. -/
theorem pcHexbytesFromBytes_ok {bytebuf : Bytes} (h : bytebuf.length ≤ 1073741824) :
    pcHexbytesFromBytes bytebuf = .ok (hexOf bytebuf ++ [0]) := by
  have hflat : ((hexOf bytebuf).map fun c => [c]).flatten = hexOf bytebuf :=
    List.flatMap_singleton' _
  have hend : writeAt (zeros (2 * bytebuf.length + 1)) (2 * bytebuf.length : Nat) [0] =
      .ok (zeros (2 * bytebuf.length) ++ [0]) := by
    have hsplit : zeros (2 * bytebuf.length + 1) = zeros (2 * bytebuf.length) ++ [0] :=
      List.replicate_succ'
    rw [hsplit, writeAt_append (by rw [length_zeros]) (by simp)]
    simp
  have hfollow := writeAll_follow ((hexOf bytebuf).map fun c => [c]) []
    (zeros (2 * bytebuf.length) ++ [0]) (by simp [hflat])
  rw [pcHexbytesFromBytes, pcalloc_ok (by omega), ok_bind, hend, ok_bind,
    flatMap_hexCopies (by omega)]
  simpa [hflat] using hfollow

/-- Past `2 ^ 30` bytes the index of the digits turns negative. -/
theorem length_of_pcHexbytesFromBytes {bytebuf out : Bytes}
    (h : pcHexbytesFromBytes bytebuf = .ok out) : bytebuf.length ≤ 1073741824 := by
  by_contra hlarge
  obtain ⟨buf, -, h⟩ := bind_eq_ok.mp h
  obtain ⟨buf', -, h⟩ := bind_eq_ok.mp h
  have hmem : (bytebuf.get ⟨1073741824, by omega⟩, 1073741824) ∈ bytebuf.zipIdx :=
    List.mk_mem_zipIdx_iff_getElem?.mpr (List.getElem?_eq_getElem (by omega))
  rcases nonneg_of_writeAll h _
    (List.mem_flatMap.mpr ⟨_, hmem, List.mem_cons_self⟩) with hnil | hpos
  · exact nomatch hnil
  · have hneg : int32 (2 * ((1073741824 : Nat) : Int)) = -2147483648 := by decide
    simp only [hneg] at hpos
    omega

/-- Bytes are written as digits that are read as the bytes. -/
def HexRoundTrip (bytebuf : Bytes) : Prop :=
  ∃ text, pcHexbytesFromBytes bytebuf = .ok (text ++ [0]) ∧ pcBytesFromHexbytes text = .ok bytebuf

/-- The digits of bytes are read as the bytes. -/
theorem pcBytesFromHexbytes_hexOf {bytebuf : Bytes} (hne : bytebuf ≠ [])
    (hlen : bytebuf.length ≤ 1073741824) :
    pcBytesFromHexbytes (hexOf bytebuf) = .ok bytebuf := by
  have hpos := List.length_pos_of_ne_nil hne
  have hread : (bytePairs (hexOf bytebuf)).mapM (fun p => byteOfChars p.1 p.2) = .ok bytebuf := by
    rw [bytePairs_hexOf, List.mapM_map]
    have hid := mapM_eq_ok_map (l := bytebuf) (g := fun b => b)
      fun b _ => byteOfChars_ok (byteOfPair_hexDigits b)
    rwa [List.map_id'] at hid
  have htext : hexOf bytebuf ≠ [] := List.ne_nil_of_length_pos (by rw [length_hexOf]; omega)
  rw [pcBytesFromHexbytes_eq (by rw [length_hexOf]; omega) (by rw [length_hexOf]; omega) htext,
    List.take_of_length_le (by rw [length_bytePairs, length_hexOf]; omega), hread, ok_bind,
    if_pos (by rw [length_hexOf]; omega), pure_eq_ok]

theorem hexRoundTrip_iff {bytebuf : Bytes} :
    HexRoundTrip bytebuf ↔ bytebuf ≠ [] ∧ bytebuf.length ≤ 1073741824 := by
  constructor
  · rintro ⟨text, htext, hread⟩
    have hlen := length_of_pcHexbytesFromBytes htext
    refine ⟨?_, hlen⟩
    rintro rfl
    -- no bytes are written as no digits
    rw [pcHexbytesFromBytes_ok hlen, Except.ok.injEq] at htext
    rw [← List.append_cancel_right htext] at hread
    cases hread
  · intro h
    exact ⟨hexOf bytebuf, pcHexbytesFromBytes_ok h.2, pcBytesFromHexbytes_hexOf h.1 h.2⟩

/-- Text that was read is written again in upper case. -/
theorem pcHexbytesFromBytes_of_read {hexbuf bs : Bytes}
    (hlt : hexbuf.length < 18446744073709551616) (h : pcBytesFromHexbytes hexbuf = .ok bs) :
    pcHexbytesFromBytes bs = .ok (hexbuf.map upperByte ++ [0]) := by
  obtain ⟨heven, hint, hpairs⟩ := pcBytesFromHexbytes_eq_ok hlt h
  have hlen := length_of_pcBytesFromHexbytes hlt h
  rw [pcHexbytesFromBytes_ok (by omega), hexOf_of_forall₂ heven hpairs]

/-! ## The head of a point or a patch -/

/-- The fields in front of the data of a point, as `pc_point_from_hexwkb` and
`pc_point_from_wkb` read them. -/
def pointHead (en : Endian) (wkb : Bytes) : Run Unit := do
  let _ ← pcWkbGetPcid en wkb
  let _ ← wkbIsSwapped en wkb

/-- The fields in front of the data of a patch, as `pc_patch_from_hexwkb` and the
functions that it calls read them, as far as they get. -/
def patchHead (en : Endian) (lookup : Nat → Run (Option PcSchema)) (wkb : Bytes) : Run Unit := do
  let pcid ← pcWkbGetPcid en wkb
  if pcid = 0 then return ()
  else
    match ← lookup pcid with
    | none => return ()
    | some schema =>
        let compression ← wkbGetCompression en wkb
        if pcid ≠ schema.pcid then return ()
        else if compression = PcCompression.none.code ∨
            compression = PcCompression.dimensional.code then do
          let _ ← wkbGetNpoints en wkb
        else return ()

/-- The head of a point is five bytes. -/
theorem pointHead_ne_fault_iff {en : Endian} {wkb : Bytes} :
    pointHead en wkb ≠ fault ↔ 5 ≤ wkb.length := by
  unfold pointHead pcWkbGetPcid
  rw [wkbGetField_eq]
  split
  · next hroom =>
      rw [ok_bind, wkbIsSwapped_ok en (by omega)]
      exact iff_of_true (by simp [fault]) (by omega)
  · next hroom => exact iff_of_false (by simp) (by omega)

/-- The bytes hold every field of the head that is read: the pcid; with a schema, the
compression; with a known compression, the number of points. -/
def HeadHeld (en : Endian) (lookup : Nat → Run (Option PcSchema)) (wkb : Bytes) : Prop :=
  5 ≤ wkb.length ∧ ∀ schema, headField en 1 wkb ≠ 0 →
    lookup (headField en 1 wkb) = .ok (some schema) →
      9 ≤ wkb.length ∧ (headField en 5 wkb ≤ 1 → 13 ≤ wkb.length)

/-- With a schema, the compression is read, and behind it the number of points. -/
theorem patchCounts_ne_fault_iff {en : Endian} {wkb : Bytes} :
    (do
      let compression ← (if 5 + 4 ≤ wkb.length then .ok (headField en 5 wkb) else fault)
      if compression = PcCompression.none.code ∨
          compression = PcCompression.dimensional.code then do
        let _ ← (if 9 + 4 ≤ wkb.length then .ok (headField en 9 wkb) else fault)
        pure ()
      else pure () : Run Unit) ≠ fault ↔
    9 ≤ wkb.length ∧ (headField en 5 wkb ≤ 1 → 13 ≤ wkb.length) := by
  have hcodes : (headField en 5 wkb = PcCompression.none.code ∨
      headField en 5 wkb = PcCompression.dimensional.code) ↔ headField en 5 wkb ≤ 1 := by
    simp only [PcCompression.code]
    omega
  by_cases hnine : 9 ≤ wkb.length
  · rw [if_pos (by omega), ok_bind]
    simp only [hcodes]
    by_cases hknown : headField en 5 wkb ≤ 1
    · rw [if_pos hknown]
      by_cases hthirteen : 13 ≤ wkb.length
      · rw [if_pos (by omega)]
        exact iff_of_true (by simp [fault]) ⟨hnine, fun _ => hthirteen⟩
      · rw [if_neg (by omega)]
        exact iff_of_false (by simp) fun h => hthirteen (h.2 hknown)
    · rw [if_neg hknown]
      exact iff_of_true (by simp [fault]) ⟨hnine, fun hle => absurd hle hknown⟩
  · rw [if_neg (by omega), fault_bind]
    exact iff_of_false (by simp) fun h => hnine h.1

section Lookup

variable {lookup : Nat → Run (Option PcSchema)}

theorem patchHead_ne_fault_iff {en : Endian} (hlookup : ∀ pcid, lookup pcid ≠ fault)
    (hpcid : ∀ pcid schema, lookup pcid = .ok (some schema) → schema.pcid = pcid) {wkb : Bytes} :
    patchHead en lookup wkb ≠ fault ↔ HeadHeld en lookup wkb := by
  unfold patchHead HeadHeld pcWkbGetPcid
  rw [wkbGetField_eq]
  split
  · next hroom =>
      have hfive : 5 ≤ wkb.length := by omega
      rw [ok_bind]
      simp only [hfive, true_and]
      generalize headField en 1 wkb = pcid
      by_cases hzero : pcid = 0
      · rw [if_pos hzero]
        exact iff_of_true (by simp [fault]) fun schema hne => absurd hzero hne
      · rw [if_neg hzero]
        cases hfound : lookup pcid with
        | error e =>
            refine iff_of_true ?_ fun schema _ hs => absurd hs (by simp)
            intro hfault
            exact hlookup pcid (hfound.trans (congrArg Except.error (Except.error.inj hfault)))
        | ok found =>
            rw [ok_bind]
            cases found with
            | none => exact iff_of_true (by simp [fault]) fun schema _ hs => absurd hs (by simp)
            | some schema =>
                have hschema := hpcid pcid schema hfound
                simp only [ne_eq, hzero, not_false_eq_true, forall_const, hschema,
                  not_true_eq_false,
                  if_false, Except.ok.injEq, Option.some.injEq, forall_eq', wkbGetCompression,
                  wkbGetNpoints, wkbGetField_eq]
                exact patchCounts_ne_fault_iff
  · next hroom => exact iff_of_false (by simp) (by omega)

/-- A point whose head is not there is read beyond its bytes. -/
theorem pcPointFromHexwkb_fault {hexwkb wkb : Bytes} (h : pcBytesFromHexbytes hexwkb = .ok wkb)
    (hshort : wkb.length < 5) : pcPointFromHexwkb P lookup hexwkb = fault := by
  rw [pcPointFromHexwkb, h, ok_bind, pcWkbGetPcid, wkbGetField_eq, if_neg (by omega), fault_bind]

/-- Without the number of points, or the compression, a patch is not read. -/
theorem pcPatchFromWkb_fault {schema : PcSchema} {wkb : Bytes} {wkbsize pcid : Nat}
    (hroom : 1 + 4 ≤ wkb.length) (hsize : wkbsize ≠ 0) (hpcid : headField P.endian 1 wkb = pcid)
    (h : (do
      let compression ← wkbGetCompression P.endian wkb
      if pcid ≠ schema.pcid then return ()
      else if compression = PcCompression.none.code ∨
          compression = PcCompression.dimensional.code then do
        let _ ← wkbGetNpoints P.endian wkb
      else return () : Run Unit) = fault) :
    pcPatchFromWkb P schema wkb wkbsize = fault := by
  have hswap := wkbIsSwapped_ok P.endian (show 1 ≤ wkb.length by omega)
  rw [pcPatchFromWkb, if_neg hsize, pcWkbGetPcid, wkbGetField_eq, if_pos hroom, ok_bind, hpcid]
  by_cases hnine : 5 + 4 ≤ wkb.length
  · have hcompression : wkbGetCompression P.endian wkb = .ok (headField P.endian 5 wkb) := by
      rw [wkbGetCompression, wkbGetField_eq, if_pos hnine]
    rw [hcompression, ok_bind] at h ⊢
    split at h
    · exact absurd h (by simp [fault])
    · next hsame =>
        rw [if_neg hsame]
        split at h
        · next hcode =>
            have hnpoints : wkbGetNpoints P.endian wkb = fault := by
              rw [wkbGetNpoints, wkbGetField_eq] at h ⊢
              split at h
              · exact absurd h (by simp [fault])
              · next hshort => exact if_neg hshort
            rcases hcode with hcode | hcode
            · have hread : pcPatchUncompressedFromWkb P schema wkb wkbsize = fault := by
                rw [pcPatchUncompressedFromWkb, hswap, ok_bind, hcompression, ok_bind, hcode,
                  if_neg (by simp), hnpoints, fault_bind]
              have hfrom : patchFromWkb P schema wkb wkbsize
                (headField P.endian 5 wkb) = fault := by
                rw [hcode]
                exact (congrArg (· >>= _) hread).trans (fault_bind _)
              rw [hfrom, fault_bind]
            · have hread : pcPatchDimensionalFromWkb P schema wkb = fault := by
                rw [pcPatchDimensionalFromWkb, hswap, ok_bind, hcompression, ok_bind, hcode,
                  if_neg (by simp), hnpoints, fault_bind]
              have hfrom : patchFromWkb P schema wkb wkbsize
                (headField P.endian 5 wkb) = fault := by
                rw [hcode]
                exact (congrArg (· >>= _) hread).trans (fault_bind _)
              rw [hfrom, fault_bind]
        · exact absurd h (by simp [fault])
  · rw [wkbGetCompression, wkbGetField_eq, if_neg hnine, fault_bind]

/-- So is a patch. -/
theorem pcPatchFromHexwkb_fault {hexwkb wkb : Bytes} (hlt : hexwkb.length < 18446744073709551616)
    (h : pcBytesFromHexbytes hexwkb = .ok wkb) (hlookup : ∀ pcid, lookup pcid ≠ fault)
    (hhead : patchHead P.endian lookup wkb = fault) :
    pcPatchFromHexwkb P lookup hexwkb = fault := by
  have hlen := length_of_pcBytesFromHexbytes hlt h
  rw [pcPatchFromHexwkb, h, ok_bind]
  unfold patchHead at hhead
  rw [pcWkbGetPcid, wkbGetField_eq] at hhead ⊢
  by_cases hroom : 1 + 4 ≤ wkb.length
  · rw [if_pos hroom, ok_bind] at hhead ⊢
    generalize hpcid : headField P.endian 1 wkb = pcid at hhead ⊢
    by_cases hzero : pcid = 0
    · rw [if_pos hzero] at hhead
      exact absurd hhead (by simp [fault])
    · rw [if_neg hzero] at hhead ⊢
      cases hfound : lookup pcid with
      | error e =>
          rw [hfound] at hhead
          exact absurd (hfound.trans (congrArg Except.error (Except.error.inj hhead)))
            (hlookup pcid)
      | ok found =>
          rw [hfound, ok_bind] at hhead
          rw [ok_bind]
          cases found with
          | none => exact absurd hhead (by simp [fault])
          | some schema =>
              exact pcPatchFromWkb_fault hroom (by omega) hpcid hhead
  · rw [if_neg hroom, fault_bind]

/-! ## Text, points and patches -/

/-- Text is read exactly under `HexCondition`, and written again in upper case. Bytes are
written and read again if there are some, and not more than `2 ^ 30`. The head of a point or a patch
is read from the decoded bytes if it is there, and otherwise from beyond them. -/
theorem pcBytesFromHexbytes_exact_iff (hlookup : ∀ pcid, lookup pcid ≠ fault)
    (hpcid : ∀ pcid schema, lookup pcid = .ok (some schema) → schema.pcid = pcid) :
    (∀ hexbuf : Bytes, hexbuf.length < 18446744073709551616 →
      (HexExact hexbuf ↔ HexCondition hexbuf)) ∧
    (∀ hexbuf bs : Bytes, hexbuf.length < 18446744073709551616 →
      pcBytesFromHexbytes hexbuf = .ok bs →
        pcHexbytesFromBytes bs = .ok (hexbuf.map upperByte ++ [0])) ∧
    (∀ bytebuf : Bytes, HexRoundTrip bytebuf ↔ bytebuf ≠ [] ∧ bytebuf.length ≤ 1073741824) ∧
    ∀ hexwkb wkb : Bytes, hexwkb.length < 18446744073709551616 →
      pcBytesFromHexbytes hexwkb = .ok wkb →
        (pointHead P.endian wkb ≠ fault ↔ 5 ≤ hexwkb.length / 2) ∧
        (patchHead P.endian lookup wkb ≠ fault ↔ HeadHeld P.endian lookup wkb) ∧
        (pointHead P.endian wkb = fault → pcPointFromHexwkb P lookup hexwkb = fault) ∧
        (patchHead P.endian lookup wkb = fault → pcPatchFromHexwkb P lookup hexwkb = fault) := by
  refine ⟨fun hexbuf hlt => hexExact_iff hlt, fun hexbuf bs hlt => pcHexbytesFromBytes_of_read hlt,
    fun bytebuf => hexRoundTrip_iff, ?_⟩
  intro hexwkb wkb hlt hread
  have hlen := length_of_pcBytesFromHexbytes hlt hread
  refine ⟨?_, patchHead_ne_fault_iff hlookup hpcid, ?_, pcPatchFromHexwkb_fault hlt hread hlookup⟩
  · rw [← hlen]
    exact pointHead_ne_fault_iff
  · intro hhead
    refine pcPointFromHexwkb_fault hread ?_
    by_contra hlong
    exact pointHead_ne_fault_iff.mpr (by omega) hhead

end Lookup

/-- `01010000000000000001000000aB05`: a patch of pcid 1 with one point. -/
def onePairText : Bytes :=
  [48, 49, 48, 49, 48, 48, 48, 48, 48, 48, 48, 48, 48, 48, 48, 48, 48, 48, 48, 49, 48, 48, 48, 48,
    48, 48, 97, 66, 48, 53]

def onePairBytes : Bytes := [1, 1, 0, 0, 0, 0, 0, 0, 0, 1, 0, 0, 0, 171, 5]

/-- The text is read, with the head that it holds, and written again. -/
theorem pcBytesFromHexbytes_exact_iff_witness :
    HexExact onePairText ∧
      pcHexbytesFromBytes onePairBytes = .ok (onePairText.map upperByte ++ [0]) ∧
      HexRoundTrip onePairBytes ∧ pointHead Endian.little onePairBytes ≠ fault ∧
      patchHead Endian.little onlyPairs onePairBytes ≠ fault := by
  obtain ⟨hexact, hagain, hround, hheads⟩ :=
    pcBytesFromHexbytes_exact_iff (P := Platform.plain) onlyPairs_ne_fault pcid_of_onlyPairs
  have hread : pcBytesFromHexbytes onePairText = .ok onePairBytes := by decide +kernel
  obtain ⟨hpoint, hpatch, -⟩ := hheads onePairText onePairBytes (by decide) hread
  refine ⟨(hexact _ (by decide)).mpr (.inr ⟨by decide, ?_⟩), hagain _ _ (by decide) hread,
    (hround _).mpr ⟨by decide, by decide⟩, hpoint.mpr (by decide), hpatch.mpr ⟨by decide, ?_⟩⟩
  · have hnone : firstInvalid onePairText = none := by decide +kernel
    rw [hnone]
    decide
  · intro schema hzero hfound
    exact ⟨by decide, fun hcode => by decide⟩

/-- `0Ã`, in Latin-1, is looked up in front of the table, the empty text is refused, and
`00` is a byte of which a pcid of four bytes is read. -/
theorem pcBytesFromHexbytes_not_exact :
    ¬ HexExact [48, 195] ∧ (¬ HexExact [] ∧ ¬ HexRoundTrip []) ∧
      pcBytesFromHexbytes [48, 48] = .ok [0] ∧
      pcPointFromHexwkb Platform.plain onlyPairs [48, 48] = fault ∧
      pcPatchFromHexwkb Platform.plain onlyPairs [48, 48] = fault := by
  have hread : pcBytesFromHexbytes [48, 48] = .ok [0] := by decide +kernel
  have hpcid : pcWkbGetPcid Endian.little [0] = fault := by
    rw [pcWkbGetPcid, wkbGetField_eq, if_neg (by decide)]
  refine ⟨fun hexact => hexact.1 (by decide +kernel), ⟨fun hexact => ?_, fun hround => ?_⟩, hread,
    ?_, ?_⟩
  · exact absurd ((hexExact_iff (by decide)).mp hexact) (by simp [HexCondition])
  · exact (hexRoundTrip_iff.mp hround).1 rfl
  · rw [pcPointFromHexwkb, hread, ok_bind, Platform.plain, hpcid, fault_bind]
  · rw [pcPatchFromHexwkb, hread, ok_bind, Platform.plain, hpcid, fault_bind]

end Pointcloud
