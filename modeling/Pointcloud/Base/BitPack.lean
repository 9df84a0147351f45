/-
Pointcloud.Base.BitPack — fields of a few bits packed into an array of words.

An array of `N`-bit words is read as one stream of bits, the most
significant bit of the first word in front (`streamBit`). A field of `b ≤ N`
bits at position `p` of the stream (`field`) lies inside one word or across
the border of two. The two cases are what every hand-written packer and
unpacker distinguishes, and each has one lemma on the writing side
(`puts_inWord`, `puts_split`) and one on the reading side (`read_inWord`,
`read_split`), all in terms of a cursor: a word index `q` and the number
`bit` of bits of that word that are still to come, so that the position is
`q * N + (N - bit)`.

`Puts ws c b v ws'` says that `ws'` is `ws` with the `b` low bits of `v`
or-ed in at position `c`. Into a part of the stream that is zero this writes
the field `v` and leaves every other field alone.
-/
import Pointcloud.Base.Word

namespace Pointcloud.Base

variable {N : Nat}

/-! ## The stream of bits -/

/-- Bit `p` of the stream. -/
def streamBit (ws : List (BitVec N)) (p : Nat) : Bool := (ws.getD (p / N) 0).getMsbD (p % N)

/-- The `b` bits at position `p`, as a number. -/
def field (ws : List (BitVec N)) (p b : Nat) : BitVec N :=
  (BitVec.ofBoolListBE ((List.range b).map fun i => streamBit ws (p + i))).setWidth N

/-- The lowest `b` bits. -/
def lowMask (N b : Nat) : BitVec N := BitVec.allOnes N >>> (N - b)

theorem getLsbD_lowMask {b : Nat} (hb : b ≤ N) (i : Nat) :
    (lowMask N b).getLsbD i = decide (i < b) := by
  rw [lowMask, BitVec.getLsbD_ushiftRight, BitVec.getLsbD_allOnes]
  apply decide_eq_decide.mpr
  omega

/-- Position `r` of word `q`. -/
theorem streamBit_at (ws : List (BitVec N)) {q r : Nat} (hr : r < N) :
    streamBit ws (q * N + r) = (ws.getD q 0).getMsbD r := by
  have hdiv : (q * N + r) / N = q := by
    rw [Nat.mul_comm, Nat.mul_add_div (by omega), Nat.div_eq_of_lt hr, Nat.add_zero]
  have hmod : (q * N + r) % N = r := by
    rw [Nat.mul_comm, Nat.mul_add_mod, Nat.mod_eq_of_lt hr]
  rw [streamBit, hdiv, hmod]

theorem getLsbD_field (ws : List (BitVec N)) (p : Nat) {b : Nat} (hb : b ≤ N) (i : Nat) :
    (field ws p b).getLsbD i = (decide (i < b) && streamBit ws (p + (b - 1 - i))) := by
  rw [field, BitVec.getLsbD_setWidth, BitVec.getLsbD_ofBoolListBE, List.length_map,
    List.length_range]
  by_cases hi : i < b
  · have hiN : i < N := by omega
    have hlt : b - 1 - i < b := by omega
    simp [hi, hiN, List.getD, hlt]
  · simp [hi]

/-- Fields are told apart by their bits. -/
theorem field_ext {ws ws' : List (BitVec N)} {p p' b : Nat} (hb : b ≤ N)
    (h : ∀ i < b, streamBit ws (p + i) = streamBit ws' (p' + i)) :
    field ws p b = field ws' p' b := by
  apply BitVec.eq_of_getLsbD_eq
  intro i _
  rw [getLsbD_field ws p hb, getLsbD_field ws' p' hb]
  by_cases hi : i < b
  · rw [h (b - 1 - i) (by omega)]
  · simp [hi]

/-- A field of no bits. -/
theorem field_zero (ws : List (BitVec N)) (p : Nat) : field ws p 0 = 0 := by
  apply BitVec.eq_of_getLsbD_eq
  intro i _
  rw [getLsbD_field ws p (Nat.zero_le N)]
  simp

theorem streamBit_zeros (n p : Nat) : streamBit (List.replicate n (0 : BitVec N)) p = false := by
  have hget : (List.replicate n (0 : BitVec N)).getD (p / N) 0 = 0 := by
    rw [List.getD, List.getElem?_replicate]
    split <;> rfl
  rw [streamBit, hget]
  simp [BitVec.getMsbD]

/-! ## Reading a field -/

/-- A field that lies in one word. -/
theorem read_inWord (ws : List (BitVec N)) (q : Nat) {bit b : Nat} (hbit : bit ≤ N)
    (hb : b ≤ bit) :
    (ws.getD q 0 >>> (bit - b)) &&& lowMask N b = field ws (q * N + (N - bit)) b := by
  apply BitVec.eq_of_getLsbD_eq
  intro i hi
  rw [BitVec.getLsbD_and, BitVec.getLsbD_ushiftRight, getLsbD_lowMask (by omega),
    getLsbD_field _ _ (by omega)]
  by_cases hib : i < b
  · have hpos : q * N + (N - bit) + (b - 1 - i) = q * N + (N - bit + (b - 1 - i)) := by omega
    rw [hpos, streamBit_at ws (by omega), BitVec.getMsbD_eq_getLsbD]
    have hlt : N - bit + (b - 1 - i) < N := by omega
    have hidx : N - 1 - (N - bit + (b - 1 - i)) = bit - b + i := by omega
    simp [hib, hlt, hidx]
  · simp [hib]

/-- A field that begins with the last `bit` bits of word `q` and goes on in the next. -/
theorem read_split (ws : List (BitVec N)) (q : Nat) {bit b : Nat} (hb : b ≤ N)
    (hbit : bit < b) :
    ((ws.getD q 0 <<< (b - bit)) &&& lowMask N b) |||
      ((ws.getD (q + 1) 0 >>> (N - (b - bit))) &&& lowMask N b) =
    field ws (q * N + (N - bit)) b := by
  apply BitVec.eq_of_getLsbD_eq
  intro i hi
  rw [BitVec.getLsbD_or, BitVec.getLsbD_and, BitVec.getLsbD_and, BitVec.getLsbD_shiftLeft,
    BitVec.getLsbD_ushiftRight, getLsbD_lowMask hb, getLsbD_field _ _ hb]
  by_cases hib : i < b
  · by_cases hhigh : i < b - bit
    · -- the low bits come from the second word
      have hpos : q * N + (N - bit) + (b - 1 - i) = (q + 1) * N + (b - 1 - i - bit) := by
        rw [Nat.succ_mul]
        omega
      rw [hpos, streamBit_at ws (by omega), BitVec.getMsbD_eq_getLsbD]
      have hlt : b - 1 - i - bit < N := by omega
      have hidx : N - 1 - (b - 1 - i - bit) = N - (b - bit) + i := by omega
      simp [hib, hhigh, hlt, hidx]
    · -- the high bits come from the first
      have hpos : q * N + (N - bit) + (b - 1 - i) = q * N + (N - bit + (b - 1 - i)) := by omega
      rw [hpos, streamBit_at ws (by omega), BitVec.getMsbD_eq_getLsbD]
      have hlt : N - bit + (b - 1 - i) < N := by omega
      have hidx : N - 1 - (N - bit + (b - 1 - i)) = i - (b - bit) := by omega
      have hpast : (ws.getD (q + 1) 0).getLsbD (N - (b - bit) + i) = false :=
        BitVec.getLsbD_of_ge _ _ (by omega)
      rw [hpast]
      simp [hib, hhigh, hlt, hidx, hi]
  · simp [hib]

/-! ## Writing a field -/

/-- `ws[i] |= v`. -/
def orAt (ws : List (BitVec N)) (i : Nat) (v : BitVec N) : Run (List (BitVec N)) :=
  if i < ws.length then .ok (ws.set i (ws.getD i 0 ||| v)) else fault

theorem orAt_ok {ws : List (BitVec N)} {i : Nat} (h : i < ws.length) (v : BitVec N) :
    orAt ws i v = .ok (ws.set i (ws.getD i 0 ||| v)) := by
  rw [orAt, if_pos h]

theorem orAt_fault {ws : List (BitVec N)} {i : Nat} (h : ws.length ≤ i) (v : BitVec N) :
    orAt ws i v = fault := by
  rw [orAt, if_neg (by omega)]

/-- `ws'` is `ws` with the `b` low bits of `v` or-ed in at position `c`. -/
structure Puts (ws : List (BitVec N)) (c b : Nat) (v : BitVec N) (ws' : List (BitVec N)) :
    Prop where
  length_eq : ws'.length = ws.length
  bit_eq : ∀ p, streamBit ws' p =
    (streamBit ws p || (decide (c ≤ p ∧ p < c + b) && v.getLsbD (b - 1 - (p - c))))

/-- The bits of an array after one word of it was or-ed. -/
theorem streamBit_orAt {ws : List (BitVec N)} {i : Nat} (h : i < ws.length)
    (v : BitVec N) (p : Nat) :
    streamBit (ws.set i (ws.getD i 0 ||| v)) p =
      (streamBit ws p || (decide (p / N = i) && v.getMsbD (p % N))) := by
  unfold streamBit
  by_cases hp : p / N = i
  · subst hp
    have hget : (ws.set (p / N) (ws.getD (p / N) 0 ||| v)).getD (p / N) 0
        = ws.getD (p / N) 0 ||| v := by
      simp [List.getD, h]
    rw [hget, BitVec.getMsbD_or]
    simp
  · have hget : (ws.set i (ws.getD i 0 ||| v)).getD (p / N) 0 = ws.getD (p / N) 0 := by
      rw [List.getD, List.getElem?_set_ne (Ne.symm hp), List.getD]
    rw [hget]
    simp [hp]

/-- Where a position lies relative to a word. -/
theorem div_eq_iff_range (hN : 0 < N) (p i : Nat) :
    p / N = i ↔ i * N ≤ p ∧ p < i * N + N := by
  rw [← Nat.succ_mul, ← Nat.le_div_iff_mul_le hN, ← Nat.div_lt_iff_lt_mul hN]
  omega

/-- Or-ing a shifted value into the word it fits in. -/
theorem puts_inWord (hN : 0 < N) {ws : List (BitVec N)} {q bit b : Nat} (h : q < ws.length)
    (hbit : bit ≤ N) (hb : b ≤ bit) {v : BitVec N} (hv : ∀ i, b ≤ i → v.getLsbD i = false) :
    Puts ws (q * N + (N - bit)) b v (ws.set q (ws.getD q 0 ||| (v <<< (bit - b)))) := by
  refine ⟨List.length_set, fun p => ?_⟩
  rw [streamBit_orAt h]
  congr 1
  by_cases hp : p / N = q
  · obtain ⟨hlo, hhi⟩ := (div_eq_iff_range hN p q).mp hp
    have hmod : p % N = p - q * N := by
      rw [Nat.mod_eq_sub_div_mul, hp]
    rw [hmod, BitVec.getMsbD_eq_getLsbD, BitVec.getLsbD_shiftLeft]
    by_cases hin : q * N + (N - bit) ≤ p ∧ p < q * N + (N - bit) + b
    · have hidx : N - 1 - (p - q * N) - (bit - b) = b - 1 - (p - (q * N + (N - bit))) := by omega
      have h1 : p - q * N < N := by omega
      have h2 : N - 1 - (p - q * N) < N := by omega
      have h3 : ¬ N - 1 - (p - q * N) < bit - b := by omega
      simp [hp, hin, hidx, h1, h2, h3]
    · by_cases hend : q * N + (N - bit) + b ≤ p
      · -- behind the field the shifted value has zeros
        have h3 : N - 1 - (p - q * N) < bit - b := by omega
        simp [hin, h3]
      · -- in front of it the value has no bits
        have hz := hv (N - 1 - (p - q * N) - (bit - b)) (by omega)
        simp [hin, hz]
  · have hout : ¬ (q * N + (N - bit) ≤ p ∧ p < q * N + (N - bit) + b) := by
      intro hin
      exact hp ((div_eq_iff_range hN p q).mpr (by omega))
    simp [hp, hout]

/-- Or-ing a value in two parts across the border of two words. -/
theorem puts_split (hN : 0 < N) {ws : List (BitVec N)} {q bit b : Nat}
    (h : q + 1 < ws.length) (hb : b ≤ N) (hbit : bit < b) {v : BitVec N}
    (hv : ∀ i, b ≤ i → v.getLsbD i = false) {ws₁ : List (BitVec N)}
    (h₁ : ws₁ = ws.set q (ws.getD q 0 ||| (v >>> (b - bit)))) :
    Puts ws (q * N + (N - bit)) b v
      (ws₁.set (q + 1) (ws₁.getD (q + 1) 0 ||| (v <<< (N - (b - bit))))) := by
  have hlen : ws₁.length = ws.length := by rw [h₁, List.length_set]
  refine ⟨by rw [List.length_set, hlen], fun p => ?_⟩
  rw [streamBit_orAt (by omega), h₁, streamBit_orAt (by omega), Bool.or_assoc]
  congr 1
  have hborder : (q + 1) * N = q * N + N := Nat.succ_mul q N
  by_cases hp : p / N = q
  · obtain ⟨hlo, hhi⟩ := (div_eq_iff_range hN p q).mp hp
    have hmod : p % N = p - q * N := by
      rw [Nat.mod_eq_sub_div_mul, hp]
    have hne : ¬ p / N = q + 1 := by omega
    rw [hmod, BitVec.getMsbD_eq_getLsbD, BitVec.getLsbD_ushiftRight]
    have hidx : b - bit + (N - 1 - (p - q * N)) = b - 1 - (p - (q * N + (N - bit))) ∨
        p < q * N + (N - bit) := by omega
    by_cases hin : q * N + (N - bit) ≤ p
    · have hidx' := hidx.resolve_right (by omega)
      have h1 : p - q * N < N := by omega
      have h2 : p < q * N + (N - bit) + b := by omega
      simp [hp, hin, hidx', h1, h2]
    · have hz := hv (b - bit + (N - 1 - (p - q * N))) (by omega)
      simp [hp, hin, hz]
  · by_cases hp' : p / N = q + 1
    · obtain ⟨hlo, hhi⟩ := (div_eq_iff_range hN p (q + 1)).mp hp'
      have hmod : p % N = p - (q + 1) * N := by
        rw [Nat.mod_eq_sub_div_mul, hp']
      rw [decide_eq_false hp, Bool.false_and, Bool.false_or, hmod, BitVec.getMsbD_eq_getLsbD,
        BitVec.getLsbD_shiftLeft]
      have h0 : q * N + (N - bit) ≤ p := by omega
      by_cases hin : p < q * N + (N - bit) + b
      · have hidx : N - 1 - (p - (q + 1) * N) - (N - (b - bit))
            = b - 1 - (p - (q * N + (N - bit))) := by omega
        have h1 : p - (q + 1) * N < N := by omega
        have h2 : N - 1 - (p - (q + 1) * N) < N := by omega
        have h3 : ¬ N - 1 - (p - (q + 1) * N) < N - (b - bit) := by omega
        simp [hp', h0, hin, hidx, h1, h2, h3]
      · have h3 : N - 1 - (p - (q + 1) * N) < N - (b - bit) := by omega
        simp [hp', hin, h3]
    · have hout : ¬ (q * N + (N - bit) ≤ p ∧ p < q * N + (N - bit) + b) := by
        intro hin
        have hrange : p < (q + 1) * N + N := by omega
        by_cases hside : p < q * N + N
        · exact hp ((div_eq_iff_range hN p q).mpr (by omega))
        · exact hp' ((div_eq_iff_range hN p (q + 1)).mpr (by omega))
      simp [hp, hp', hout]

/-! ## What a written field reads as -/

/-- A field written where the stream was zero is read back. -/
theorem Puts.field_eq {ws ws' : List (BitVec N)} {c b : Nat} {v : BitVec N}
    (h : Puts ws c b v ws') (hb : b ≤ N) (hv : ∀ i, b ≤ i → v.getLsbD i = false)
    (hz : ∀ p, c ≤ p → p < c + b → streamBit ws p = false) : field ws' c b = v := by
  apply BitVec.eq_of_getLsbD_eq
  intro i _
  rw [getLsbD_field ws' c hb]
  by_cases hi : i < b
  · have hin : c ≤ c + (b - 1 - i) ∧ c + (b - 1 - i) < c + b := by omega
    have hidx : b - 1 - (c + (b - 1 - i) - c) = i := by omega
    rw [h.bit_eq, hz _ hin.1 hin.2, hidx, decide_eq_true hin]
    simp [hi]
  · simp [hi, hv i (by omega)]

/-- Fields in front of it are not touched. -/
theorem Puts.field_before {ws ws' : List (BitVec N)} {c b : Nat} {v : BitVec N}
    (h : Puts ws c b v ws') {p b' : Nat} (hb' : b' ≤ N) (hp : p + b' ≤ c) :
    field ws' p b' = field ws p b' := by
  apply field_ext hb'
  intro i hi
  have hout : ¬ (c ≤ p + i ∧ p + i < c + b) := by omega
  rw [h.bit_eq, decide_eq_false hout]
  simp

/-- The stream behind it stays as it was. -/
theorem Puts.bit_after {ws ws' : List (BitVec N)} {c b : Nat} {v : BitVec N}
    (h : Puts ws c b v ws') {p : Nat} (hp : c + b ≤ p) : streamBit ws' p = streamBit ws p := by
  have hout : ¬ (c ≤ p ∧ p < c + b) := by omega
  rw [h.bit_eq, decide_eq_false hout]
  simp

end Pointcloud.Base
