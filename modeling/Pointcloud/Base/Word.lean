/-
Pointcloud.Base.Word — machine words: their bytes, arrays of them, shifts.

A word of `w` bytes is a `BitVec (8 * w)`. `wordsOf` views a block as an
array of words, the way a cast of its pointer does (a partial word at the
end is out of reach), and `bytesOfWords` is the block that holds given
words.

Shifts follow C: an operand narrower than `int` is promoted first, so its
shift amounts run up to 31, and a shift by the full width of the promoted
operand has no meaning of its own. What a compiler makes of that one amount
is the parameter `FullShift`; any other amount out of range is a fault.
-/
import Pointcloud.Base.Records

namespace Pointcloud.Base

/-! ## Words in bytes -/

/-- A word of `w` bytes. -/
abbrev Word (w : Nat) := BitVec (8 * w)

/-- The word a machine reads in these bytes. -/
def Endian.word (en : Endian) (w : Nat) (bs : Bytes) : Word w := BitVec.ofNat (8 * w) (en.natOf bs)

/-- The bytes in which a machine keeps a word. -/
def Endian.wordBytes (en : Endian) {w : Nat} (x : Word w) : Bytes := en.bytesOf w x.toNat

@[simp] theorem Endian.length_wordBytes (en : Endian) {w : Nat} (x : Word w) :
    (en.wordBytes x).length = w := by
  simp [wordBytes]

theorem pow_256 (w : Nat) : 256 ^ w = 2 ^ (8 * w) := by
  rw [Nat.pow_mul]

@[simp] theorem Endian.word_wordBytes (en : Endian) {w : Nat} (x : Word w) :
    en.word w (en.wordBytes x) = x := by
  apply BitVec.eq_of_toNat_eq
  have hlt : x.toNat < 256 ^ w := by
    rw [pow_256]
    exact x.isLt
  rw [word, wordBytes, natOf_bytesOf_of_lt en hlt, BitVec.toNat_ofNat, Nat.mod_eq_of_lt x.isLt]

theorem Endian.toNat_word (en : Endian) {w : Nat} {bs : Bytes} (h : bs.length = w) :
    (en.word w bs).toNat = en.natOf bs := by
  have hlt := en.natOf_lt bs
  rw [h, pow_256] at hlt
  rw [word, BitVec.toNat_ofNat, Nat.mod_eq_of_lt hlt]

theorem Endian.wordBytes_word (en : Endian) {w : Nat} {bs : Bytes} (h : bs.length = w) :
    en.wordBytes (en.word w bs) = bs := by
  rw [wordBytes, toNat_word en h, ← h, bytesOf_natOf]

/-- Different words have different bytes. -/
theorem Endian.wordBytes_inj (en : Endian) {w : Nat} {x y : Word w} :
    en.wordBytes x = en.wordBytes y ↔ x = y := by
  constructor
  · intro h
    rw [← en.word_wordBytes x, h, en.word_wordBytes]
  · rintro rfl
    rfl

/-! ## Arrays of words -/

/-- A block seen as an array of words. -/
def wordsOf (en : Endian) (w : Nat) (bs : Bytes) : List (Word w) :=
  (records w (bs.length / w) bs).map (en.word w)

/-- The block that holds these words. -/
def bytesOfWords (en : Endian) {w : Nat} (ws : List (Word w)) : Bytes :=
  (ws.map en.wordBytes).flatten

@[simp] theorem length_wordsOf (en : Endian) (w : Nat) (bs : Bytes) :
    (wordsOf en w bs).length = bs.length / w := by
  simp [wordsOf]

@[simp] theorem length_bytesOfWords (en : Endian) {w : Nat} (ws : List (Word w)) :
    (bytesOfWords en ws).length = ws.length * w := by
  rw [bytesOfWords, length_flatten_of_width (w := w), List.length_map]
  intro c hc
  obtain ⟨x, -, rfl⟩ := List.mem_map.mp hc
  exact en.length_wordBytes x

@[simp] theorem bytesOfWords_nil (en : Endian) {w : Nat} :
    bytesOfWords en ([] : List (Word w)) = [] := rfl

/-- The words of a block that holds words. -/
theorem wordsOf_bytesOfWords (en : Endian) {w : Nat} (hw : 0 < w) (ws : List (Word w)) :
    wordsOf en w (bytesOfWords en ws) = ws := by
  have hlen : (bytesOfWords en ws).length / w = (ws.map en.wordBytes).length := by
    rw [length_bytesOfWords, Nat.mul_div_cancel _ hw, List.length_map]
  have hwidth : ∀ c ∈ ws.map en.wordBytes, c.length = w := by
    intro c hc
    obtain ⟨x, -, rfl⟩ := List.mem_map.mp hc
    exact en.length_wordBytes x
  rw [wordsOf, hlen, bytesOfWords, records_flatten hwidth, List.map_map]
  conv_rhs => rw [← List.map_id ws]
  exact List.map_congr_left fun x _ => en.word_wordBytes x

/-- The first words of a block are those of its first records. -/
theorem take_wordsOf (en : Endian) {w n : Nat} (hw : 0 < w) {bs : Bytes} (h : n * w ≤ bs.length) :
    (wordsOf en w bs).take n = (records w n bs).map (en.word w) := by
  rw [wordsOf, ← List.map_take, take_records w n _ bs ((Nat.le_div_iff_mul_le hw).mpr h)]

/-- Records of the width of a word, read as words and written back. -/
theorem bytesOfWords_map_word (en : Endian) {w : Nat} {vs : List Bytes}
    (h : ∀ v ∈ vs, v.length = w) : bytesOfWords en (vs.map (en.word w)) = vs.flatten := by
  rw [bytesOfWords, List.map_map]
  congr 1
  conv_rhs => rw [← List.map_id vs]
  exact List.map_congr_left fun v hv => en.wordBytes_word (h v hv)

/-! ## Reading arrays -/

/-- `xs[i]`. -/
def wordAt {α : Type} (xs : List α) (i : Nat) : Run α :=
  match xs[i]? with
  | some x => .ok x
  | none => fault

theorem wordAt_ok {α : Type} {xs : List α} {i : Nat} (h : i < xs.length) :
    wordAt xs i = .ok xs[i] := by
  rw [wordAt, List.getElem?_eq_getElem h]

theorem wordAt_fault {α : Type} {xs : List α} {i : Nat} (h : xs.length ≤ i) :
    wordAt xs i = fault := by
  rw [wordAt, List.getElem?_eq_none h]

theorem wordAt_eq_ok {α : Type} {xs : List α} {i : Nat} {x : α} :
    wordAt xs i = .ok x ↔ xs[i]? = some x := by
  unfold wordAt
  split
  · next y hy => simp [hy]
  · next hy => simp [hy]

/-- A loop that reads two arrays at every index walks them together. -/
theorem mapM_range_wordAt {α β γ : Type} {xs : List α} {ys : List β} (h : xs.length = ys.length)
    (f : α → β → Run γ) :
    (List.range xs.length).mapM (fun i => do
      let x ← wordAt xs i
      let y ← wordAt ys i
      f x y) = (xs.zip ys).mapM fun p => f p.1 p.2 := by
  have hzip : xs.zip ys = (List.range xs.length).attach.map fun i =>
      (xs.get ⟨i.1, List.mem_range.mp i.2⟩, ys.get ⟨i.1, h ▸ List.mem_range.mp i.2⟩) := by
    apply List.ext_getElem
    · simp [h]
    · intro i h₁ h₂
      simp
  rw [hzip, List.mapM_map]
  conv_lhs => rw [← List.attach_map_subtype_val (List.range xs.length), List.mapM_map]
  refine mapM_congr ?_
  rintro ⟨i, hi⟩ -
  have hx := List.mem_range.mp hi
  simp only [Function.comp_apply]
  rw [wordAt_ok hx, ok_bind, wordAt_ok (h ▸ hx), ok_bind, List.get_eq_getElem, List.get_eq_getElem]

/-- The indices of a loop `for (int i = 0; i < n; i++)` over an array, where the
bound is unsigned: past `2 ^ 31` the index turns negative. -/
def intLoop (n : Nat) : Run Unit := if n ≤ 2147483648 then .ok () else fault

theorem intLoop_ok {n : Nat} (h : n ≤ 2147483648) : intLoop n = .ok () := if_pos h

theorem intLoop_fault {n : Nat} (h : 2147483648 < n) : intLoop n = fault :=
  if_neg (Nat.not_le.mpr h)

theorem intLoop_eq_ok {n : Nat} {u : Unit} : intLoop n = .ok u ↔ n ≤ 2147483648 := by
  unfold intLoop
  split
  · next h => exact iff_of_true rfl h
  · next h => exact iff_of_false (fault_ne_ok u) h

/-- The first `n` elements of an array, read in such a loop. -/
def intIndexed {α : Type} (xs : List α) (n : Nat) : Run (List α) := do
  intLoop n
  if n ≤ xs.length then .ok (xs.take n) else fault

theorem intIndexed_ok {α : Type} {xs : List α} {n : Nat} (hlen : n ≤ xs.length)
    (hint : n ≤ 2147483648) : intIndexed xs n = .ok (xs.take n) := by
  rw [intIndexed, intLoop_ok hint, ok_bind, if_pos hlen]

theorem intIndexed_fault {α : Type} {xs : List α} {n : Nat}
    (h : xs.length < n ∨ 2147483648 < n) : intIndexed xs n = fault := by
  unfold intIndexed
  by_cases hint : n ≤ 2147483648
  · rw [intLoop_ok hint, ok_bind, if_neg (by omega)]
  · rw [intLoop_fault (by omega), fault_bind]

/-! ## Shifts -/

/-- What a shift by the full width of the operand gives. -/
inductive FullShift where
  /-- All bits are shifted out. -/
  | zero
  /-- The amount is taken modulo the width, and the operand is unchanged. -/
  | unchanged
  /-- The shift has no result. -/
  | trap
  deriving DecidableEq, Repr

/-- A shift of `x` by its full width. -/
def FullShift.apply {N : Nat} (sh : FullShift) (x : BitVec N) : Run (BitVec N) :=
  match sh with
  | .zero => .ok 0
  | .unchanged => .ok x
  | .trap => fault

/-- The width of an operand of `N` bits after the promotion to `int`. -/
def promoted (N : Nat) : Nat := max N 32

/-- `x >> amount`. -/
def cShr (sh : FullShift) {N : Nat} (x : BitVec N) (amount : Int) : Run (BitVec N) :=
  if amount < 0 ∨ (promoted N : Int) < amount then fault
  else if amount = promoted N then sh.apply x
  else .ok (x >>> amount.toNat)

/-- `x << amount`, cut back to the width of `x`. -/
def cShl (sh : FullShift) {N : Nat} (x : BitVec N) (amount : Int) : Run (BitVec N) :=
  if amount < 0 ∨ (promoted N : Int) < amount then fault
  else if amount = promoted N then sh.apply x
  else .ok (x <<< amount.toNat)

variable {N : Nat}

theorem FullShift.apply_isOk {sh : FullShift} (hsh : sh ≠ .trap) (x : BitVec N) :
    ∃ y, sh.apply x = .ok y := by
  cases sh with
  | zero => exact ⟨0, rfl⟩
  | unchanged => exact ⟨x, rfl⟩
  | trap => exact absurd rfl hsh

/-- A value of zero stays zero under any reading of a full shift. -/
theorem FullShift.apply_zero {sh : FullShift} (hsh : sh ≠ .trap) :
    sh.apply (0 : BitVec N) = .ok 0 := by
  cases sh with
  | zero => rfl
  | unchanged => rfl
  | trap => exact absurd rfl hsh

theorem cShr_ok (sh : FullShift) (x : BitVec N) {amount : Nat} (h : amount < promoted N) :
    cShr sh x amount = .ok (x >>> amount) := by
  unfold cShr
  rw [if_neg (by omega), if_neg (by omega), Int.toNat_natCast]

theorem cShl_ok (sh : FullShift) (x : BitVec N) {amount : Nat} (h : amount < promoted N) :
    cShl sh x amount = .ok (x <<< amount) := by
  unfold cShl
  rw [if_neg (by omega), if_neg (by omega), Int.toNat_natCast]

theorem cShr_full (sh : FullShift) (x : BitVec N) : cShr sh x (promoted N) = sh.apply x := by
  unfold cShr
  rw [if_neg (by omega), if_pos rfl]

theorem cShl_full (sh : FullShift) (x : BitVec N) : cShl sh x (promoted N) = sh.apply x := by
  unfold cShl
  rw [if_neg (by omega), if_pos rfl]

theorem cShr_zero {sh : FullShift} (hsh : sh ≠ .trap) {amount : Nat} (h : amount ≤ promoted N) :
    cShr sh (0 : BitVec N) amount = .ok 0 := by
  by_cases heq : amount = promoted N
  · rw [heq, cShr_full, FullShift.apply_zero hsh]
  · rw [cShr_ok sh _ (by omega)]
    simp

theorem cShl_zero {sh : FullShift} (hsh : sh ≠ .trap) {amount : Nat} (h : amount ≤ promoted N) :
    cShl sh (0 : BitVec N) amount = .ok 0 := by
  by_cases heq : amount = promoted N
  · rw [heq, cShl_full, FullShift.apply_zero hsh]
  · rw [cShl_ok sh _ (by omega)]
    simp

/-- Any amount up to the promoted width gives some result. -/
theorem cShr_isOk {sh : FullShift} (hsh : sh ≠ .trap) (x : BitVec N) {amount : Nat}
    (h : amount ≤ promoted N) : ∃ y, cShr sh x amount = .ok y := by
  by_cases heq : amount = promoted N
  · rw [heq, cShr_full]
    exact FullShift.apply_isOk hsh x
  · exact ⟨_, cShr_ok sh x (by omega)⟩

theorem le_promoted (N : Nat) : N ≤ promoted N := Nat.le_max_left N 32

end Pointcloud.Base
