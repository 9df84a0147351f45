/-
Pointcloud.Base.HashTable — hash tables with chains.

An entry is put in front of the chain of its bucket. A table that is full is replaced
by a longer one, into which the entries are moved one after the other, each in front
of its new chain; entries that stay in one chain thereby change their order. A search
returns the first entry of a key in its chain.

What a search finds depends neither on the hash function nor on the lengths of the
tables, but on how many entries make a table grow. The entries can as well be kept in
one list, which is turned around whenever the table grows (`enter`);
`HashTable.search_eq` says that the table finds what is first in the list.
-/
import Mathlib.Data.List.Basic
import Mathlib.Data.List.Induction

namespace Pointcloud.Base

variable {κ β : Type}

/-! ## Tables -/

/-- A table: the chains, the number of entries, and which of the lengths the table has. -/
structure HashTable (κ β : Type) where
  buckets : List (List (κ × β))
  entrycount : Nat
  primeindex : Nat

/-- The chain with a hash. -/
def chainAt (buckets : List (List (κ × β))) (h : Nat) : List (κ × β) :=
  buckets[h % buckets.length]?.getD []

section Table

variable (hash : κ → Nat) (same : κ → κ → Bool) (lengths : List Nat) (limit : Nat → Nat)

/-- An entry in front of its chain. -/
def push (buckets : List (List (κ × β))) (e : κ × β) : List (List (κ × β)) :=
  buckets.modify (hash e.1 % buckets.length) fun chain => e :: chain

/-- The table of the next length, if there is one. -/
def HashTable.expand (t : HashTable κ β) : HashTable κ β :=
  match lengths[t.primeindex + 1]? with
  | none => t
  | some length => { t with
      buckets := t.buckets.flatten.foldl (push hash) (List.replicate length [])
      primeindex := t.primeindex + 1 }

/-- The table with one more entry. It grows if its limit would be exceeded. -/
def HashTable.insert (t : HashTable κ β) (e : κ × β) : HashTable κ β :=
  let grown := if limit t.buckets.length < t.entrycount + 1 then t.expand hash lengths else t
  { grown with buckets := push hash grown.buckets e, entrycount := t.entrycount + 1 }

/-- The value of the first entry with a key. -/
def HashTable.search (t : HashTable κ β) (k : κ) : Option β :=
  ((chainAt t.buckets (hash k)).find? fun e => hash k == hash e.1 && same k e.1).map Prod.snd

/-- The numbers of entries at which a table grows with the next one. -/
def growthLimits : List Nat := lengths.dropLast.map limit

end Table

/-- The entries in the order in which a search meets them, after one more. -/
def enter {α : Type} (limits : List Nat) (entries : List α) (e : α) : List α :=
  if entries.length ∈ limits then e :: entries.reverse else e :: entries

/-! ## Chains -/

variable {hash : κ → Nat}

/-- A list of lists in which only one holds what is looked for. -/
theorem filter_flatten_of_only {α : Type} {p : α → Bool} :
    ∀ {ls : List (List α)} {j : Nat}, (∀ i ≠ j, (ls[i]?.getD []).filter p = []) →
      ls.flatten.filter p = (ls[j]?.getD []).filter p
  | [], j, _ => rfl
  | l :: ls, 0, h => by
      have hrest : ls.flatten.filter p = [] := by
        refine List.filter_eq_nil_iff.mpr fun a ha => ?_
        obtain ⟨l', hl', hmem⟩ := List.mem_flatten.mp ha
        obtain ⟨i, hi⟩ := List.mem_iff_getElem?.mp hl'
        have hnone := h (i + 1) (Nat.succ_ne_zero i)
        rw [List.getElem?_cons_succ, hi, Option.getD_some] at hnone
        exact List.filter_eq_nil_iff.mp hnone a hmem
      rw [List.flatten_cons, List.filter_append, hrest, List.append_nil]
      rfl
  | l :: ls, j + 1, h => by
      have hfirst : l.filter p = [] := h 0 (Nat.succ_ne_zero j).symm
      rw [List.flatten_cons, List.filter_append, hfirst, List.nil_append,
        List.getElem?_cons_succ]
      refine filter_flatten_of_only fun i hi => ?_
      have hi' := h (i + 1) fun heq => hi (Nat.succ.inj heq)
      rwa [List.getElem?_cons_succ] at hi'

@[simp] theorem length_push (buckets : List (List (κ × β))) (e : κ × β) :
    (push hash buckets e).length = buckets.length := by
  rw [push, List.length_modify]

/-- An entry is put in front of the entries with its hash. -/
theorem filter_chainAt_push {buckets : List (List (κ × β))} (hpos : 0 < buckets.length)
    (e : κ × β) (h : Nat) :
    (chainAt (push hash buckets e) h).filter (fun x => hash x.1 == h) =
      (if hash e.1 = h then [e] else []) ++
        (chainAt buckets h).filter fun x => hash x.1 == h := by
  have hlt := Nat.mod_lt h hpos
  unfold chainAt
  rw [length_push, push]
  by_cases hsame : hash e.1 % buckets.length = h % buckets.length
  · rw [hsame, List.getElem?_modify_eq, List.getElem?_eq_getElem hlt]
    simp only [Option.map_eq_map, Option.map_some, Option.getD_some, List.filter_cons, beq_iff_eq]
    split <;> rfl
  · have hne : hash e.1 ≠ h := fun heq => hsame (by rw [heq])
    rw [List.getElem?_modify_ne _ _ hsame, if_neg hne, List.nil_append]

theorem foldl_push {buckets : List (List (κ × β))} (hpos : 0 < buckets.length) (h : Nat)
    (es : List (κ × β)) :
    (es.foldl (push hash) buckets).length = buckets.length ∧
      (chainAt (es.foldl (push hash) buckets) h).filter (fun x => hash x.1 == h) =
        (es.filter fun x => hash x.1 == h).reverse ++
          (chainAt buckets h).filter fun x => hash x.1 == h := by
  induction es generalizing buckets with
  | nil => exact ⟨rfl, rfl⟩
  | cons e es ih =>
      obtain ⟨hlen, hchain⟩ := ih (show 0 < (push hash buckets e).length by rwa [length_push])
      rw [length_push] at hlen
      refine ⟨hlen, ?_⟩
      rw [List.foldl_cons, hchain, filter_chainAt_push hpos, List.filter_cons]
      by_cases hsame : hash e.1 = h <;> simp [hsame]

/-! ## What a table stands for -/

/-- Every entry is in its chain, and the entries of a hash are met as in the list. -/
structure Represents (hash : κ → Nat) (t : HashTable κ β) (entries : List (κ × β)) : Prop where
  length_pos : 0 < t.buckets.length
  placed : ∀ (i : Nat), ∀ e ∈ t.buckets[i]?.getD [], hash e.1 % t.buckets.length = i
  chain_eq : ∀ h, (chainAt t.buckets h).filter (fun x => hash x.1 == h) =
    entries.filter fun x => hash x.1 == h

theorem placed_push {buckets : List (List (κ × β))}
    (hplaced : ∀ (i : Nat), ∀ e ∈ buckets[i]?.getD [], hash e.1 % buckets.length = i)
    (e : κ × β) (i : Nat) : ∀ x ∈ (push hash buckets e)[i]?.getD [],
      hash x.1 % (push hash buckets e).length = i := by
  intro x hx
  rw [length_push]
  rw [push, List.getElem?_modify] at hx
  cases hchain : buckets[i]? with
  | none => simp [hchain] at hx
  | some chain =>
      have hmem := hplaced i
      rw [hchain, Option.getD_some] at hmem
      rw [hchain, Option.map_eq_map, Option.map_some, Option.getD_some] at hx
      split at hx
      · next heq =>
          rcases List.mem_cons.mp hx with rfl | hx
          · exact heq
          · exact hmem x hx
      · exact hmem x hx

theorem placed_foldl_push {buckets : List (List (κ × β))} (es : List (κ × β))
    (hplaced : ∀ (i : Nat), ∀ e ∈ buckets[i]?.getD [], hash e.1 % buckets.length = i) :
    ∀ (i : Nat), ∀ e ∈ (es.foldl (push hash) buckets)[i]?.getD [],
      hash e.1 % (es.foldl (push hash) buckets).length = i := by
  induction es generalizing buckets with
  | nil => exact hplaced
  | cons e es ih => exact ih (placed_push hplaced e)

theorem getD_replicate_nil {α : Type} (n i : Nat) :
    (List.replicate n ([] : List α))[i]?.getD [] = [] := by
  rw [List.getElem?_replicate]
  split <;> rfl

section Steps

variable {t : HashTable κ β} {entries : List (κ × β)} (h : Represents hash t entries)

include h

/-- The entries with a hash are all in its chain. -/
theorem Represents.filter_flatten (n : Nat) :
    t.buckets.flatten.filter (fun x => hash x.1 == n) =
      entries.filter fun x => hash x.1 == n := by
  rw [← h.chain_eq n]
  refine filter_flatten_of_only fun i hi => List.filter_eq_nil_iff.mpr fun e he hhash => hi ?_
  rw [← h.placed i e he, beq_iff_eq.mp hhash]

/-- In the next table the entries are turned around. -/
theorem Represents.moved {length : Nat} (hpos : 0 < length) (primeindex : Nat) :
    Represents hash { t with
      buckets := t.buckets.flatten.foldl (push hash) (List.replicate length [])
      primeindex := primeindex } entries.reverse := by
  have hnew : 0 < (List.replicate length ([] : List (κ × β))).length := by
    rwa [List.length_replicate]
  refine ⟨?_, ?_, fun n => ?_⟩
  · rw [(foldl_push hnew 0 _).1, List.length_replicate]
    exact hpos
  · refine placed_foldl_push _ fun i e he => ?_
    rw [getD_replicate_nil] at he
    exact absurd he List.not_mem_nil
  · rw [(foldl_push hnew n _).2, h.filter_flatten n, chainAt, getD_replicate_nil, List.filter_nil,
      List.append_nil, List.filter_reverse]

theorem Represents.pushed (e : κ × β) {entrycount : Nat} :
    Represents hash { t with buckets := push hash t.buckets e, entrycount := entrycount }
      (e :: entries) := by
  refine ⟨by rw [length_push]; exact h.length_pos, placed_push h.placed e, fun n => ?_⟩
  rw [filter_chainAt_push h.length_pos, h.chain_eq, List.filter_cons]
  by_cases hsame : hash e.1 = n <;> simp [hsame]

/-- A search finds what is first in the list. -/
theorem Represents.search_eq {same : κ → κ → Bool}
    (hsame : ∀ k k', same k k' = true → hash k = hash k') (k : κ) :
    t.search hash same k = (entries.find? fun e => same k e.1).map Prod.snd := by
  have hfilter : ∀ l : List (κ × β),
      l.find? (fun e => hash k == hash e.1 && same k e.1) =
        (l.filter fun e => hash e.1 == hash k).find? fun e => same k e.1 := by
    intro l
    rw [List.find?_filter]
    refine congrArg (fun p => l.find? p) (funext fun e => ?_)
    rw [Bool.beq_comm]
    cases hash e.1 == hash k <;> simp
  have hall : (fun e : κ × β => hash k == hash e.1 && same k e.1) = fun e => same k e.1 := by
    funext e
    cases hk : same k e.1 with
    | false => exact Bool.and_false _
    | true => rw [Bool.and_true, hsame k e.1 hk, beq_self_eq_true]
  rw [HashTable.search, hfilter, h.chain_eq, ← hfilter, hall]

end Steps

/-! ## Growth -/

variable {lengths : List Nat} {limit : Nat → Nat}

/-- The table has the length that its number of entries has made it grow to. -/
structure Sized (lengths : List Nat) (limit : Nat → Nat) (t : HashTable κ β) (count : Nat) :
    Prop where
  length_eq : lengths[t.primeindex]? = some t.buckets.length
  count_eq : t.entrycount = count
  passed : ∀ i < t.primeindex, ∀ length, lengths[i]? = some length → limit length < count
  room : t.primeindex + 1 < lengths.length → count ≤ limit t.buckets.length

/-- Longer tables take more entries, and every table has a bucket. -/
structure Grows (lengths : List Nat) (limit : Nat → Nat) : Prop where
  pos : ∀ length ∈ lengths, 0 < length
  limits_lt : ∀ (i j a b : Nat), i < j → lengths[i]? = some a → lengths[j]? = some b →
    limit a < limit b

section Growth

variable {t : HashTable κ β} {count : Nat} (hsized : Sized lengths limit t count)
  (hgrows : Grows lengths limit)

include hsized hgrows

/-- The table grows with the next entry exactly at its limits. -/
theorem Sized.mem_growthLimits_iff : count ∈ growthLimits lengths limit ↔
    limit t.buckets.length < count + 1 ∧ t.primeindex + 1 < lengths.length := by
  obtain ⟨hlength, -, hpassed, hroom⟩ := hsized
  have hlast : ∀ (i length : Nat), lengths.dropLast[i]? = some length ↔
      lengths[i]? = some length ∧ i + 1 < lengths.length := by
    intro i length
    rw [List.getElem?_dropLast]
    split
    · next hi => exact ⟨fun heq => ⟨heq, by omega⟩, And.left⟩
    · next hi => exact ⟨nofun, fun h => absurd h.2 (by omega)⟩
  unfold growthLimits
  rw [List.mem_map]
  constructor
  · rintro ⟨length, hmem, rfl⟩
    obtain ⟨i, hi⟩ := List.mem_iff_getElem?.mp hmem
    obtain ⟨hi, hlt⟩ := (hlast i length).mp hi
    rcases Nat.lt_trichotomy i t.primeindex with hbefore | rfl | hbehind
    · exact absurd (hpassed i hbefore length hi) (Nat.lt_irrefl _)
    · rw [hlength, Option.some.injEq] at hi
      exact ⟨hi ▸ Nat.lt_succ_self _, hlt⟩
    · have hlimits := hgrows.limits_lt _ _ _ _ hbehind hlength hi
      exact absurd (hroom (by omega)) (by omega)
  · rintro ⟨hfull, hnext⟩
    have hle := hroom hnext
    exact ⟨_, List.mem_of_getElem? ((hlast _ _).mpr ⟨hlength, hnext⟩), by omega⟩

/-- One more entry: the table stands for the list with the entry entered. -/
theorem insert_represents {entries : List (κ × β)} (hcount : entries.length = count)
    (h : Represents hash t entries) (e : κ × β) :
    Represents hash (t.insert hash lengths limit e)
      (enter (growthLimits lengths limit) entries e) ∧
    Sized lengths limit (t.insert hash lengths limit e) (count + 1) := by
  have hiff := hsized.mem_growthLimits_iff hgrows
  obtain ⟨hlength, hentries, hpassed, hroom⟩ := hsized
  unfold HashTable.insert enter HashTable.expand
  rw [hcount, hentries]
  by_cases hfull : limit t.buckets.length < count + 1
  · rw [if_pos hfull]
    cases hnext : lengths[t.primeindex + 1]? with
    | none =>
        have hend : ¬ t.primeindex + 1 < lengths.length := by
          rw [Nat.not_lt]
          exact List.getElem?_eq_none_iff.mp hnext
        rw [if_neg fun hin => hend (hiff.mp hin).2]
        refine ⟨h.pushed e, by rwa [length_push], rfl, fun i hi length hl =>
          Nat.lt_succ_of_lt (hpassed i hi length hl), fun hlt => absurd hlt hend⟩
    | some length =>
        obtain ⟨hlt, -⟩ := List.getElem?_eq_some_iff.mp hnext
        have hpos := hgrows.pos length (List.mem_of_getElem? hnext)
        have hmoved := h.moved hpos (t.primeindex + 1)
        have hnew : 0 < (List.replicate length ([] : List (κ × β))).length := by
          rwa [List.length_replicate]
        have hlen : (t.buckets.flatten.foldl (push hash) (List.replicate length [])).length =
          length :=
          (foldl_push hnew 0 t.buckets.flatten).1.trans List.length_replicate
        rw [if_pos (hiff.mpr ⟨hfull, hlt⟩)]
        refine ⟨hmoved.pushed e, ?_, rfl, fun i hi length' hl => ?_, fun hnext' => ?_⟩
        · simp only [length_push, hlen]
          exact hnext
        · rcases Nat.lt_succ_iff_lt_or_eq.mp hi with hi | rfl
          · exact Nat.lt_succ_of_lt (hpassed i hi length' hl)
          · rw [hlength, Option.some.injEq] at hl
            exact hl ▸ hfull
        · simp only [length_push, hlen]
          have hmore := hgrows.limits_lt _ _ _ _ (Nat.lt_succ_self _) hlength hnext
          have hle := hroom hlt
          omega
  · rw [if_neg hfull, if_neg fun hin => hfull (hiff.mp hin).1]
    refine ⟨h.pushed e, by rwa [length_push], rfl, fun i hi length hl =>
      Nat.lt_succ_of_lt (hpassed i hi length hl), fun _ => ?_⟩
    simp only [length_push]
    omega

end Growth

/-! ## Tables that are filled -/

@[simp] theorem length_enter {α : Type} (limits : List Nat) (entries : List α) (e : α) :
    (enter limits entries e).length = entries.length + 1 := by
  unfold enter
  split <;> simp

theorem insertAll_represents (hgrows : Grows lengths limit) (es : List (κ × β)) :
    ∀ {t : HashTable κ β} {entries : List (κ × β)}, Represents hash t entries →
      Sized lengths limit t entries.length →
      Represents hash (es.foldl (HashTable.insert hash lengths limit) t)
        (es.foldl (enter (growthLimits lengths limit)) entries) := by
  induction es with
  | nil => exact fun h _ => h
  | cons e es ih =>
      intro t entries h hsized
      obtain ⟨hnext, hsized'⟩ := insert_represents hsized hgrows rfl h e
      rw [← length_enter (growthLimits lengths limit) entries e] at hsized'
      exact ih hnext hsized'

/-! ## The order of a filled list

An entry is met before the older ones, unless the list has been turned around an odd
number of times since. -/

/-- The entries in the order in which a search meets them, all entered. -/
def enterAll {α : Type} (limits : List Nat) (es : List α) : List α := es.foldl (enter limits) []

/-- How often a list of `n` entries has been turned around since entry `k` is in it. -/
def turns (limits : List Nat) (n k : Nat) : Nat :=
  (List.range n).countP fun count => k < count && limits.contains count

/-- Of `n` entries, number `i` is met before number `j`. -/
def MetBefore (limits : List Nat) (n i j : Nat) : Prop :=
  if i < j then turns limits n j % 2 = 1 else turns limits n i % 2 = 0

instance (limits : List Nat) (n i j : Nat) : Decidable (MetBefore limits n i j) :=
  inferInstanceAs (Decidable (if i < j then turns limits n j % 2 = 1 else turns limits n i % 2 = 0))

section Order

variable {α : Type} {limits : List Nat}

theorem turns_succ {n k : Nat} (hk : k < n) : turns limits (n + 1) k =
    turns limits n k + if n ∈ limits then 1 else 0 := by
  rw [turns, List.range_succ, List.countP_append, List.countP_singleton, ← turns]
  simp [hk]

theorem turns_last (n : Nat) : turns limits (n + 1) n = 0 := by
  refine List.countP_eq_zero.mpr fun count hcount => ?_
  have hle : count ≤ n := Nat.lt_succ_iff.mp (List.mem_range.mp hcount)
  simp [Nat.not_lt.mpr hle]

theorem enterAll_concat (es : List α) (e : α) :
    enterAll limits (es ++ [e]) = enter limits (enterAll limits es) e := by
  rw [enterAll, List.foldl_append, List.foldl_cons, List.foldl_nil, ← enterAll]

@[simp] theorem length_enterAll (es : List α) : (enterAll limits es).length = es.length := by
  induction es using List.reverseRecOn with
  | nil => rfl
  | append_singleton es e ih => rw [enterAll_concat, length_enter, ih, List.length_append,
      List.length_singleton]

theorem enter_perm (entries : List α) (e : α) : (enter limits entries e).Perm (e :: entries) := by
  unfold enter
  split
  · exact (List.reverse_perm entries).cons e
  · exact List.Perm.refl _

/-- Nothing is lost. -/
theorem enterAll_perm (es : List α) : (enterAll limits es).Perm es := by
  induction es using List.reverseRecOn with
  | nil => exact List.Perm.refl _
  | append_singleton es e ih =>
      rw [enterAll_concat]
      refine (enter_perm _ e).trans ?_
      exact (ih.cons e).trans (List.perm_append_singleton e es).symm

/-- The order does not depend on what the entries are. -/
theorem enterAll_map {α' : Type} (f : α → α') (es : List α) :
    enterAll limits (es.map f) = (enterAll limits es).map f := by
  induction es using List.reverseRecOn with
  | nil => rfl
  | append_singleton es e ih =>
      rw [List.map_append, List.map_singleton, enterAll_concat, enterAll_concat, ih]
      unfold enter
      rw [List.length_map]
      split
      · rw [List.map_cons, List.map_reverse]
      · rw [List.map_cons]

/-- The entry that was entered last is met first; a turn exchanges all others. -/
theorem metBefore_succ {n i j : Nat} (hi : i < n) (hj : j < n) (hne : i ≠ j) :
    MetBefore limits (n + 1) i j ↔
      if n ∈ limits then MetBefore limits n j i else MetBefore limits n i j := by
  unfold MetBefore
  rw [turns_succ hi, turns_succ hj]
  rcases Nat.lt_or_gt_of_ne hne with hlt | hlt
  · rw [if_pos hlt, if_pos hlt, if_neg (Nat.lt_asymm hlt)]
    split <;> omega
  · rw [if_neg (Nat.lt_asymm hlt), if_neg (Nat.lt_asymm hlt), if_pos hlt]
    split <;> omega

theorem pairwise_enterAll (n : Nat) :
    (enterAll limits (List.range n)).Pairwise (MetBefore limits n) := by
  induction n with
  | zero => exact List.Pairwise.nil
  | succ n ih =>
      have hmem : ∀ {k}, k ∈ enterAll limits (List.range n) → k < n := fun hk =>
        List.mem_range.mp ((enterAll_perm _).mem_iff.mp hk)
      have hnodup : (enterAll limits (List.range n)).Nodup :=
        (enterAll_perm _).nodup_iff.mpr List.nodup_range
      have hlast : ∀ k < n, MetBefore limits (n + 1) n k := fun k hk => by
        rw [MetBefore, if_neg (Nat.lt_asymm hk), turns_last]
      have hdistinct := ih.and hnodup
      rw [List.range_succ, enterAll_concat, enter, length_enterAll, List.length_range]
      split
      · next hturn =>
          rw [List.pairwise_cons, List.pairwise_reverse]
          refine ⟨fun k hk => hlast k (hmem (List.mem_reverse.mp hk)), ?_⟩
          refine hdistinct.imp_of_mem fun hi hj hij => ?_
          rw [metBefore_succ (hmem hj) (hmem hi) hij.2.symm, if_pos hturn]
          exact hij.1
      · next hturn =>
          rw [List.pairwise_cons]
          refine ⟨fun k hk => hlast k (hmem hk), ?_⟩
          refine hdistinct.imp_of_mem fun hi hj hij => ?_
          rw [metBefore_succ (hmem hi) (hmem hj) hij.2, if_neg hturn]
          exact hij.1

/-- Entry `i` is met before all others that are looked for. -/
structure FirstMet (limits : List Nat) (es : List α) (p : α → Bool) (i : Nat) : Prop where
  lt : i < es.length
  found : p es[i] = true
  first : ∀ j (h : j < es.length), p es[j] = true → j ≠ i → MetBefore limits es.length i j

theorem metBefore_asymm {n i j : Nat} (hne : i ≠ j) (h : MetBefore limits n i j) :
    ¬ MetBefore limits n j i := by
  unfold MetBefore at h ⊢
  rcases Nat.lt_or_gt_of_ne hne with hlt | hlt
  · rw [if_pos hlt] at h
    rw [if_neg (Nat.lt_asymm hlt)]
    omega
  · rw [if_neg (Nat.lt_asymm hlt)] at h
    rw [if_pos hlt]
    omega

theorem FirstMet.unique {es : List α} {p : α → Bool} {i j : Nat} (hi : FirstMet limits es p i)
    (hj : FirstMet limits es p j) : i = j := by
  by_contra hne
  exact metBefore_asymm hne (hi.first j hj.lt hj.found (Ne.symm hne))
    (hj.first i hi.lt hi.found hne)

/-- What is found in a list is in front of everything else that is looked for. -/
theorem find?_pairwise {R : α → α → Prop} {p : α → Bool} {a : α} : ∀ {l : List α},
    l.Pairwise R → l.find? p = some a → ∀ b ∈ l, p b = true → b ≠ a → R a b
  | [], _, h, _, _, _, _ => nomatch h
  | x :: l, hl, h, b, hb, hpb, hne => by
      rw [List.pairwise_cons] at hl
      by_cases hx : p x = true
      · rw [List.find?_cons_of_pos hx, Option.some.injEq] at h
        subst h
        exact hl.1 b ((List.mem_cons.mp hb).resolve_left hne)
      · rw [List.find?_cons_of_neg hx] at h
        have hb' : b ∈ l := (List.mem_cons.mp hb).resolve_left fun heq => hx (heq ▸ hpb)
        exact find?_pairwise hl.2 h b hb' hpb hne

/-- A search in a filled list finds the entry that is met first. -/
theorem find?_enterAll_eq_some_iff {es : List α} {p : α → Bool} {e : α} :
    (enterAll limits es).find? p = some e ↔ ∃ i, FirstMet limits es p i ∧ es[i]? = some e := by
  have hfrom : ∀ e, (enterAll limits es).find? p = some e →
      ∃ i, FirstMet limits es p i ∧ es[i]? = some e := by
    intro e hfind
    -- the entries with their numbers
    have hentries : (enterAll limits es.zipIdx).map Prod.fst = enterAll limits es := by
      rw [← enterAll_map, List.zipIdx_map_fst]
    have hnumbers : (enterAll limits es.zipIdx).Pairwise fun a b =>
        MetBefore limits es.length a.2 b.2 := by
      rw [← List.pairwise_map, ← enterAll_map, List.zipIdx_map_snd, ← List.range_eq_range']
      exact pairwise_enterAll es.length
    rw [← hentries, List.find?_map, Option.map_eq_some_iff] at hfind
    obtain ⟨⟨e', i⟩, hfind, rfl⟩ := hfind
    have hmem : ∀ a, a ∈ enterAll limits es.zipIdx ↔ es[a.2]? = some a.1 := fun a =>
      (enterAll_perm _).mem_iff.trans List.mem_zipIdx_iff_getElem?
    have hat := (hmem _).mp (List.mem_of_find?_eq_some hfind)
    obtain ⟨hlt, heq⟩ := List.getElem?_eq_some_iff.mp hat
    have hfound : p e' = true := by simpa using List.find?_some hfind
    refine ⟨i, ⟨hlt, by rw [heq]; exact hfound, fun j hj hpj hne => ?_⟩, hat⟩
    have hother := (hmem (es[j], j)).mpr (List.getElem?_eq_getElem hj)
    exact find?_pairwise hnumbers hfind _ hother hpj fun hsame => hne (congrArg Prod.snd hsame)
  refine ⟨hfrom e, fun ⟨i, hi, hat⟩ => ?_⟩
  obtain ⟨hlt, heq⟩ := List.getElem?_eq_some_iff.mp hat
  have hmem : e ∈ enterAll limits es := (enterAll_perm es).mem_iff.mpr (List.mem_of_getElem? hat)
  obtain ⟨e', hfind⟩ := Option.isSome_iff_exists.mp
    (List.find?_isSome.mpr ⟨e, hmem, heq ▸ hi.found⟩)
  obtain ⟨i', hi', hat'⟩ := hfrom e' hfind
  rw [hi.unique hi', hat', Option.some.injEq] at hat
  exact hat ▸ hfind

end Order

/-- A table without entries. -/
def emptyTable (length : Nat) : HashTable κ β := ⟨List.replicate length [], 0, 0⟩

/-- In a table that has been filled, a search finds the entry that is first in the list. -/
theorem search_filled (hgrows : Grows lengths limit) {length : Nat}
    (hlength : lengths[0]? = some length) {same : κ → κ → Bool}
    (hsame : ∀ k k', same k k' = true → hash k = hash k') (es : List (κ × β)) (k : κ) :
    (es.foldl (HashTable.insert hash lengths limit) (emptyTable length)).search hash same k =
      ((enterAll (growthLimits lengths limit) es).find? fun e => same k e.1).map Prod.snd := by
  have hempty : Represents hash (emptyTable length : HashTable κ β) [] := by
    refine ⟨?_, fun i e he => ?_, fun n => ?_⟩
    · rw [emptyTable, List.length_replicate]
      exact hgrows.pos length (List.mem_of_getElem? hlength)
    · rw [emptyTable, getD_replicate_nil] at he
      exact absurd he List.not_mem_nil
    · rw [emptyTable, chainAt, getD_replicate_nil]
  have hsized : Sized lengths limit (emptyTable length : HashTable κ β) 0 := by
    refine ⟨?_, rfl, fun i hi => absurd hi (Nat.not_lt_zero i), fun _ => Nat.zero_le _⟩
    rw [emptyTable, List.length_replicate]
    exact hlength
  exact (insertAll_represents hgrows es hempty hsized).search_eq hsame k

end Pointcloud.Base
