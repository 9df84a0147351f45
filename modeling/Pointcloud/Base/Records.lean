/-
Pointcloud.Base.Records — blocks cut into records of one width.

Arrays of words, arrays of points and the entries of a run-length block are
all the same thing to the code: a block walked in steps of a fixed width.
`records w n bs` is the list of the first `n` steps. The lemmas are the ones
such walks need: how many records there are, how long each is, which bytes
the `i`-th one has, that joining them gives the block back, and that cutting
joined records gives the records back.
-/
import Pointcloud.Base.Memory

namespace Pointcloud.Base

variable {α : Type}

/-- The first `n` records of width `w`. -/
def records (w : Nat) : Nat → List α → List (List α)
  | 0, _ => []
  | n + 1, bs => bs.take w :: records w n (bs.drop w)

@[simp] theorem records_zero (w : Nat) (bs : List α) : records w 0 bs = [] := rfl

theorem records_succ (w n : Nat) (bs : List α) :
    records w (n + 1) bs = bs.take w :: records w n (bs.drop w) := rfl

@[simp] theorem length_records (w n : Nat) (bs : List α) : (records w n bs).length = n := by
  induction n generalizing bs with
  | zero => rfl
  | succ n ih => simp [records, ih]

/-- The `i`-th record is the `i`-th window of `w` bytes. -/
theorem records_getElem? (w : Nat) : ∀ (n : Nat) (bs : List α) (i : Nat), i < n →
    (records w n bs)[i]? = some ((bs.drop (i * w)).take w)
  | 0, _, i, h => absurd h (Nat.not_lt_zero i)
  | n + 1, bs, 0, _ => by simp [records]
  | n + 1, bs, i + 1, h => by
      rw [records_succ, List.getElem?_cons_succ, records_getElem? w n _ i (by omega),
        List.drop_drop, Nat.succ_mul, Nat.add_comm w]

/-- The records are the windows in turn. -/
theorem records_eq_map (w n : Nat) (bs : List α) :
    records w n bs = (List.range n).map fun i => (bs.drop (i * w)).take w := by
  apply List.ext_getElem?
  intro i
  by_cases hi : i < n
  · rw [records_getElem? w n bs i hi, List.getElem?_map, List.getElem?_range hi, Option.map_some]
  · rw [List.getElem?_eq_none (by rw [length_records]; omega),
      List.getElem?_eq_none (by rw [List.length_map, List.length_range]; omega)]

theorem records_getElem (w n : Nat) (bs : List α) (i : Nat)
    (h : i < (records w n bs).length) :
    (records w n bs)[i] = (bs.drop (i * w)).take w := by
  have hi : i < n := by rwa [length_records] at h
  have := records_getElem? w n bs i hi
  rwa [List.getElem?_eq_getElem h, Option.some.injEq] at this

/-- Records that lie inside the block have their full width. -/
theorem length_of_mem_records {w n : Nat} {bs c : List α} (h : n * w ≤ bs.length)
    (hc : c ∈ records w n bs) : c.length = w := by
  obtain ⟨i, hi, rfl⟩ := List.mem_iff_getElem.mp hc
  rw [length_records] at hi
  have hend : i * w + w ≤ n * w := by
    rw [← Nat.succ_mul]
    exact Nat.mul_le_mul_right w hi
  rw [records_getElem, List.length_take, List.length_drop]
  omega

/-- Joined, the records are the part of the block they cover. -/
theorem flatten_records (w : Nat) : ∀ (n : Nat) (bs : List α),
    (records w n bs).flatten = bs.take (n * w)
  | 0, bs => by simp
  | n + 1, bs => by
      rw [records_succ, List.flatten_cons, flatten_records w n, Nat.succ_mul, Nat.add_comm,
        List.take_add]

/-- Records that tile the block join to the block. -/
theorem flatten_records_of_length {w n : Nat} {bs : List α} (h : bs.length = n * w) :
    (records w n bs).flatten = bs := by
  rw [flatten_records, ← h, List.take_length]

/-- The length of joined records. -/
theorem length_flatten_of_width {w : Nat} : ∀ {cs : List (List α)},
    (∀ c ∈ cs, c.length = w) → cs.flatten.length = cs.length * w
  | [], _ => by simp
  | c :: cs, h => by
      rw [List.flatten_cons, List.length_append, h c (by simp),
        length_flatten_of_width fun d hd => h d (by simp [hd]), List.length_cons,
        Nat.succ_mul, Nat.add_comm]

/-- Cutting joined records, with anything behind them, gives the records. -/
theorem records_flatten_append {w : Nat} : ∀ {cs : List (List α)} (rest : List α),
    (∀ c ∈ cs, c.length = w) → records w cs.length (cs.flatten ++ rest) = cs
  | [], _, _ => rfl
  | c :: cs, rest, h => by
      have hc : c.length = w := h c (by simp)
      rw [List.length_cons, records_succ, List.flatten_cons, List.append_assoc,
        List.take_left' hc, List.drop_left' hc,
        records_flatten_append rest fun d hd => h d (by simp [hd])]

theorem records_flatten {w : Nat} {cs : List (List α)} (h : ∀ c ∈ cs, c.length = w) :
    records w cs.length cs.flatten = cs := by
  have := records_flatten_append [] h
  rwa [List.append_nil] at this

/-- Only the bytes in front of the end of the last record matter. -/
theorem records_take (w : Nat) : ∀ (n m : Nat) (bs : List α), n * w ≤ m →
    records w n (bs.take m) = records w n bs
  | 0, _, _, _ => rfl
  | n + 1, m, bs, h => by
      have hw : w ≤ m := by
        have : n * w + w ≤ m := by rwa [← Nat.succ_mul]
        omega
      have hrest : n * w ≤ m - w := by
        have : n * w + w ≤ m := by rwa [← Nat.succ_mul]
        omega
      rw [records_succ, records_succ, List.take_take, Nat.min_eq_left hw, List.drop_take,
        records_take w n (m - w) (bs.drop w) hrest]

/-- More records begin with fewer. -/
theorem take_records (w : Nat) : ∀ (n m : Nat) (bs : List α), n ≤ m →
    (records w m bs).take n = records w n bs
  | 0, _, _, _ => by simp
  | n + 1, 0, _, h => absurd h (by omega)
  | n + 1, m + 1, bs, h => by
      rw [records_succ, records_succ, List.take_succ_cons,
        take_records w n m (bs.drop w) (by omega)]

/-- The records behind the first ones. -/
theorem drop_records (w : Nat) : ∀ (i n : Nat) (bs : List α),
    (records w (i + n) bs).drop i = records w n (bs.drop (i * w))
  | 0, n, bs => by simp
  | i + 1, n, bs => by
      rw [Nat.add_right_comm, records_succ, List.drop_succ_cons, drop_records w i n (bs.drop w),
        List.drop_drop, Nat.succ_mul, Nat.add_comm w]

/-- A copy of some of the records. -/
theorem records_slice {w m i n : Nat} (bs : List α) (h : i + n ≤ m) :
    records w n ((bs.drop (i * w)).take (n * w)) = ((records w m bs).drop i).take n := by
  obtain ⟨k, rfl⟩ := Nat.exists_eq_add_of_le (Nat.le_trans (Nat.le_add_right i n) h)
  rw [records_take w n (n * w) _ (Nat.le_refl _), drop_records, take_records w n k _ (by omega)]

/-! ## Pieces of several widths -/

/-- A block cut into pieces of the widths given. -/
def pieces : List Nat → List α → List (List α)
  | [], _ => []
  | w :: ws, bs => bs.take w :: pieces ws (bs.drop w)

@[simp] theorem length_pieces (ws : List Nat) (bs : List α) :
    (pieces ws bs).length = ws.length := by
  induction ws generalizing bs with
  | nil => rfl
  | cons w ws ih => simp [pieces, ih]

/-- A piece begins where the ones in front of it end. -/
theorem pieces_getElem? : ∀ (ws : List Nat) (bs : List α) (i : Nat) (h : i < ws.length),
    (pieces ws bs)[i]? = some ((bs.drop (ws.take i).sum).take ws[i])
  | [], _, i, h => absurd h (Nat.not_lt_zero i)
  | w :: ws, bs, 0, _ => by simp [pieces]
  | w :: ws, bs, i + 1, h => by
      have hi : i < ws.length := by simpa using h
      rw [pieces, List.getElem?_cons_succ, pieces_getElem? ws _ i hi, List.drop_drop,
        List.take_succ_cons, List.sum_cons, List.getElem_cons_succ]

/-- Every byte of the block belongs to a piece. -/
theorem exists_piece : ∀ {ws : List Nat} {b : Nat}, b < ws.sum →
    ∃ i, ∃ h : i < ws.length, (ws.take i).sum ≤ b ∧ b < (ws.take i).sum + ws[i]
  | [], b, hb => absurd hb (Nat.not_lt_zero b)
  | w :: ws, b, hb => by
      by_cases hfirst : b < w
      · exact ⟨0, Nat.zero_lt_succ _, by simp, by simpa using hfirst⟩
      · rw [List.sum_cons] at hb
        have hrest : b - w < ws.sum := by omega
        obtain ⟨i, hi, hlow, hhigh⟩ := exists_piece hrest
        refine ⟨i + 1, Nat.succ_lt_succ hi, ?_, ?_⟩
        · rw [List.take_succ_cons, List.sum_cons]
          omega
        · rw [List.take_succ_cons, List.sum_cons, List.getElem_cons_succ]
          omega

/-- A piece ends before a later one begins. -/
theorem piece_end_le {ws : List Nat} {i j : Nat} (hi : i < ws.length) (hij : i < j) :
    (ws.take i).sum + ws[i] ≤ (ws.take j).sum := by
  have hprefix : ws.take (i + 1) <+: ws.take j := List.take_prefix_take_left (by omega)
  obtain ⟨rest, hrest⟩ := hprefix
  rw [← hrest, List.sum_append, List.take_succ_eq_append_getElem hi, List.sum_append,
    List.sum_singleton]
  omega

/-- Joined, the pieces are the part of the block they cover. -/
theorem flatten_pieces : ∀ (ws : List Nat) (bs : List α), (pieces ws bs).flatten = bs.take ws.sum
  | [], bs => by simp [pieces]
  | w :: ws, bs => by
      rw [pieces, List.flatten_cons, flatten_pieces ws, List.sum_cons, List.take_add]

/-- Cutting joined pieces gives the pieces. -/
theorem pieces_flatten : ∀ cs : List (List α), pieces (cs.map List.length) cs.flatten = cs
  | [] => rfl
  | c :: cs => by
      rw [List.map_cons, pieces, List.flatten_cons, List.take_left' rfl, List.drop_left' rfl,
        pieces_flatten cs]

/-! ## Filling a block -/

/-- Write several pieces, each at its offset, one after the other. -/
def writeAll (block : Bytes) : List (Int × Bytes) → Run Bytes
  | [] => .ok block
  | (off, src) :: rest => do
      let block ← writeAt block off src
      writeAll block rest

/-- Writing does not change the size of the block. -/
theorem length_of_writeAll : ∀ {ps : List (Int × Bytes)} {block out : Bytes},
    writeAll block ps = .ok out → out.length = block.length
  | [], _, _, h => by
      rw [Except.ok.inj h]
  | (off, src) :: ps, block, out, h => by
      cases hwrite : writeAt block off src with
      | error e =>
          rw [writeAll, hwrite] at h
          exact nomatch h
      | ok block' =>
          rw [writeAll, hwrite, ok_bind] at h
          rw [length_of_writeAll h, length_of_writeAt hwrite]

/-- Every piece that was written lies inside the block. -/
theorem inside_of_writeAll : ∀ {ps : List (Int × Bytes)} {block out : Bytes},
    writeAll block ps = .ok out → ∀ p ∈ ps, p.2 = [] ∨ p.1 + p.2.length ≤ block.length
  | [], _, _, _ => by simp
  | (off, src) :: ps, block, out, h => by
      obtain ⟨block', hwrite, hrest⟩ := bind_eq_ok.mp h
      rw [List.forall_mem_cons, ← length_of_writeAt hwrite]
      refine ⟨?_, inside_of_writeAll hrest⟩
      by_contra hout
      obtain ⟨hsrc, hend⟩ := not_or.mp hout
      rw [length_of_writeAt hwrite] at hend
      rw [writeAt_fault hsrc (Or.inr (not_le.mp hend))] at hwrite
      exact fault_ne_ok _ hwrite

/-- No piece was written in front of the block. -/
theorem nonneg_of_writeAll : ∀ {ps : List (Int × Bytes)} {block out : Bytes},
    writeAll block ps = .ok out → ∀ p ∈ ps, p.2 = [] ∨ 0 ≤ p.1
  | [], _, _, _ => by simp
  | (off, src) :: rest, block, out, h => by
      obtain ⟨mid, hwrite, h⟩ := bind_eq_ok.mp h
      rw [List.forall_mem_cons]
      refine ⟨?_, nonneg_of_writeAll h⟩
      by_contra hneg
      rw [not_or] at hneg
      rw [writeAt_fault hneg.1 (.inl (by omega))] at hwrite
      exact fault_ne_ok mid hwrite

/-- Writing pieces that lie inside the block. -/
theorem writeAll_inside : ∀ {ps : List (Int × Bytes)} {block : Bytes},
    (∀ p ∈ ps, ∃ off : Nat, p.1 = off ∧ off + p.2.length ≤ block.length) →
      ∃ out, writeAll block ps = .ok out
  | [], block, _ => ⟨block, rfl⟩
  | (off, src) :: ps, block, h => by
      obtain ⟨o, ho, hend⟩ := h _ List.mem_cons_self
      simp only at ho hend
      have hwrite := writeAt_ok hend
      obtain ⟨out, hout⟩ := writeAll_inside fun p hp => by
        rw [length_of_writeAt hwrite]
        exact h p (List.mem_cons_of_mem _ hp)
      exact ⟨out, by rw [writeAll, ho, hwrite, ok_bind, hout]⟩

/-- The pieces with the offsets at which they follow on each other from `start`. -/
def follow (start : Nat) : List Bytes → List (Int × Bytes)
  | [] => []
  | c :: cs => ((start : Int), c) :: follow (start + c.length) cs

theorem follow_append (cs ds : List Bytes) (start : Nat) :
    follow start (cs ++ ds) = follow start cs ++ follow (start + cs.flatten.length) ds := by
  induction cs generalizing start with
  | nil => simp [follow]
  | cons c cs ih =>
      simp only [List.cons_append, follow, ih, List.flatten_cons, List.length_append,
        Nat.add_assoc]

@[simp] theorem length_follow (start : Nat) (cs : List Bytes) :
    (follow start cs).length = cs.length := by
  induction cs generalizing start with
  | nil => rfl
  | cons c cs ih => simp [follow, ih]

theorem follow_getElem? : ∀ (cs : List Bytes) (start i : Nat) (h : i < cs.length),
    (follow start cs)[i]? = some (((start + (cs.take i).flatten.length : Nat) : Int), cs[i])
  | [], _, i, h => absurd h (Nat.not_lt_zero i)
  | c :: cs, start, 0, _ => by simp [follow]
  | c :: cs, start, i + 1, h => by
      have hi : i < cs.length := by simpa using h
      rw [follow, List.getElem?_cons_succ, follow_getElem? cs _ i hi, List.take_succ_cons,
        List.flatten_cons, List.length_append, Nat.add_assoc, List.getElem_cons_succ]

/-- Pieces of one width, each at the offset of its index, follow on each other. -/
theorem map_mul_eq_follow {w : Nat} {cs : List Bytes} (h : ∀ c ∈ cs, c.length = w)
    (g : Nat → Bytes) (hg : ∀ i (hi : i < cs.length), g i = cs[i]) :
    ((List.range cs.length).map fun i => (((w * i : Nat) : Int), g i)) = follow 0 cs := by
  apply List.ext_getElem?
  intro i
  by_cases hi : i < cs.length
  · have hoff : (cs.take i).flatten.length = w * i := by
      rw [length_flatten_of_width (fun c hc => h c (List.mem_of_mem_take hc)), List.length_take,
        Nat.min_eq_left (Nat.le_of_lt hi), Nat.mul_comm]
    rw [follow_getElem? _ _ _ hi, hoff, List.getElem?_map,
      List.getElem?_eq_getElem (by rwa [List.length_range]), List.getElem_range, Option.map_some,
      hg i hi, Nat.zero_add]
  · rw [List.getElem?_eq_none (by simpa using hi), List.getElem?_eq_none (by simpa using hi)]

/-- Rows of one length follow on each other row by row. -/
theorem follow_rows {w : Nat} (row : Nat → List Bytes) : ∀ n : Nat,
    (∀ i < n, (row i).flatten.length = w) →
    ((List.range n).map fun i => follow (i * w) (row i)).flatten =
      follow 0 ((List.range n).map row).flatten
  | 0, _ => rfl
  | n + 1, h => by
      have hlen : (((List.range n).map row).flatten).flatten.length = n * w := by
        have hrows : (((List.range n).map row).map List.flatten).flatten.length = n * w := by
          rw [length_flatten_of_width (w := w), List.length_map, List.length_map,
            List.length_range]
          intro c hc
          obtain ⟨r, hr, rfl⟩ := List.mem_map.mp hc
          obtain ⟨i, hi, rfl⟩ := List.mem_map.mp hr
          exact h i (by have := List.mem_range.mp hi; omega)
        rwa [← List.flatten_flatten] at hrows
      rw [List.range_succ, List.map_append, List.map_append, List.flatten_append,
        List.flatten_append, follow_rows row n fun i hi => h i (by omega), follow_append, hlen]
      simp

/-- Pieces that follow on each other replace what was there. -/
theorem writeAll_follow : ∀ (cs : List Bytes) (front block : Bytes),
    cs.flatten.length ≤ block.length →
    writeAll (front ++ block) (follow front.length cs) =
      .ok (front ++ cs.flatten ++ block.drop cs.flatten.length)
  | [], front, block, _ => by simp [follow, writeAll]
  | c :: cs, front, block, h => by
      rw [List.flatten_cons, List.length_append] at h
      have hwrite : writeAt (front ++ block) (front.length : Int) c
          = .ok (front ++ c ++ block.drop c.length) := writeAt_append rfl (by omega)
      have hrest := writeAll_follow cs (front ++ c) (block.drop c.length)
        (by rw [List.length_drop]; omega)
      rw [List.length_append] at hrest
      rw [follow, writeAll, hwrite, ok_bind, hrest, List.flatten_cons, List.drop_drop,
        List.length_append, List.append_assoc front]

/-- Pieces that fill the block are all that is left in it. -/
theorem writeAll_fill {cs : List Bytes} {block : Bytes} (h : cs.flatten.length = block.length) :
    writeAll block (follow 0 cs) = .ok cs.flatten := by
  have hfill := writeAll_follow cs [] block (Nat.le_of_eq h)
  rw [h] at hfill
  simpa using hfill

end Pointcloud.Base
