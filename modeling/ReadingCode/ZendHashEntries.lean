/-
# The elements of a table

The buckets in use are slots, each with an entry or a hole; the entries in their order are what
the table holds.  An operation changes the list of the entries, and it changes every position
so that what the position has still to visit changes in the same way.
-/
import ReadingCode.SlotList
import ReadingCode.ZendHashTable

open SlotList

namespace ZendHash

open List Option Function

variable {K V : Type} {m i p : ℕ} {a a' : ℕ → Bucket K V}

/-! ## Slots -/

/-- An element: its key and its value. -/
structure Entry (K V : Type) where
  key : Option K
  h : ℕ
  val : V

/-- The key that tells an element from the others. -/
def Entry.name (e : Entry K V) : K ⊕ ℕ :=
  match e.key with
  | some k => .inl k
  | none => .inr e.h

/-- The element in a bucket. -/
def Bucket.entry (b : Bucket K V) : Option (Entry K V) := b.val.map fun v => ⟨b.key, b.h, v⟩

theorem isSome_entry (b : Bucket K V) : b.entry.isSome = b.val.isSome := isSome_map ..

variable {b : Bucket K V}

theorem entry_eq_none : b.entry = none ↔ b.val = none := map_eq_none_iff

theorem entry_eq_some {e : Entry K V} :
    b.entry = some e ↔ b.val = some e.val ∧ b.key = e.key ∧ b.h = e.h := by
  rw [Bucket.entry, map_eq_some_iff]
  constructor
  · rintro ⟨v, hv, rfl⟩
    exact ⟨hv, rfl, rfl⟩
  · rintro ⟨hv, hk, hh⟩
    exact ⟨e.val, hv, by rw [hk, hh]⟩

/-- The first `m` buckets as slots. -/
def cells (a : ℕ → Bucket K V) (m : ℕ) : List (Option (Entry K V)) :=
  (List.range m).map fun i => (a i).entry

@[simp] theorem length_cells (a : ℕ → Bucket K V) (m : ℕ) : (cells a m).length = m := by
  rw [cells, length_map, length_range]

theorem getElem?_cells (h : i < m) : (cells a m)[i]? = some (a i).entry := by
  rw [cells, getElem?_map, getElem?_range h]
  rfl

theorem cells_succ (a : ℕ → Bucket K V) (m : ℕ) : cells a (m + 1) = cells a m ++ [(a m).entry] := by
  rw [cells, range_succ, map_append]
  rfl

theorem cells_congr (h : ∀ i < m, (a i).entry = (a' i).entry) : cells a m = cells a' m := by
  apply map_congr_left
  intro i hi
  exact h i (mem_range.mp hi)

theorem cells_update_of_ge (h : m ≤ i) : cells (update a i b) m = cells a m := by
  apply cells_congr
  intro k hk
  rw [update_of_ne (by omega)]

theorem cells_update (a : ℕ → Bucket K V) (i m : ℕ) (b : Bucket K V) :
    cells (update a i b) m = (cells a m).set i b.entry := by
  apply ext_getElem?
  intro k
  rw [getElem?_set, length_cells]
  rcases lt_or_ge k m with hk | hk
  · rw [getElem?_cells hk, getElem?_cells hk]
    by_cases hik : i = k
    · subst hik
      rw [update_self, if_pos rfl, if_pos hk]
    · rw [update_of_ne (Ne.symm hik), if_neg hik]
  · rw [getElem?_eq_none (by simpa using hk), getElem?_eq_none (by simpa using hk)]
    by_cases hik : i = k
    · rw [if_pos hik, if_neg (by omega)]
    · rw [if_neg hik]

/-- Buckets that are holes at the end. -/
theorem cells_of_holes {m' : ℕ} (hm : m' ≤ m) (h : ∀ i, m' ≤ i → i < m → (a i).val = none) :
    cells a m = cells a m' ++ replicate (m - m') none := by
  induction hm with
  | refl => rw [Nat.sub_self, replicate_zero, append_nil]
  | @step m hm ih =>
    have hm' : m' ≤ m := hm
    rw [cells_succ, entry_eq_none.mpr (h m hm (Nat.lt_succ_self m)), ih fun i hi hlt => h i hi
      (Nat.lt_succ_of_lt hlt), Nat.succ_sub hm', replicate_succ', append_assoc]

theorem occupied_cells : Occupied (cells a m) p ↔ p < m ∧ (a p).val.isSome = true := by
  constructor
  · rintro ⟨e, he⟩
    have hp : p < m := by
      have := (List.getElem?_eq_some_iff.mp he).1
      rwa [length_cells] at this
    rw [getElem?_cells hp] at he
    refine ⟨hp, ?_⟩
    rw [← isSome_entry, Option.some.inj he]
    rfl
  · rintro ⟨hp, hv⟩
    rw [← isSome_entry] at hv
    obtain ⟨e, he⟩ := isSome_iff_exists.mp hv
    exact ⟨e, by rw [getElem?_cells hp, he]⟩

/-! ## Tables -/

namespace HashTable

variable {ht ht' ht'' : HashTable K V}

/-- The buckets in use. -/
def slots (ht : HashTable K V) : List (Option (Entry K V)) := cells ht.arData ht.nNumUsed

/-- The elements in their order. -/
def entries (ht : HashTable K V) : List (Entry K V) := ht.slots.reduceOption

/-- The elements that a position has still to visit. -/
def visit (ht : HashTable K V) (p : ℕ) : List (Entry K V) := SlotList.visit ht.slots p

/-- A position is at an element, or past the end. -/
def Stands (ht : HashTable K V) (p : ℕ) : Prop := p = HT_INVALID_IDX ∨ Occupied ht.slots p

theorem length_slots (ht : HashTable K V) : ht.slots.length = ht.nNumUsed := length_cells ..

theorem visit_zero (ht : HashTable K V) : ht.visit 0 = ht.entries := rfl

theorem visit_invalid (h : ht.nNumUsed ≤ HT_INVALID_IDX) : ht.visit HT_INVALID_IDX = [] :=
  visit_of_le (by rwa [length_slots])

theorem occupied_slots : Occupied ht.slots p ↔ p < ht.nNumUsed ∧ ht.live p = true :=
  occupied_cells

/-- What an operation does to the elements and to all positions: the list of the elements
changes by `f`, a position `p` becomes `r p`, and what it has to visit changes by `f` too. -/
structure Moves (f : List (Entry K V) → List (Entry K V)) (r : ℕ → ℕ)
    (ht ht' : HashTable K V) : Prop where
  entries : ht'.entries = f ht.entries
  pointer : ht'.nInternalPointer = r ht.nInternalPointer
  count : ht'.nIteratorsCount = ht.nIteratorsCount
  stands : ∀ p, ht.Stands p → ht'.Stands (r p)
  visit : ∀ p, ht.Stands p → ht'.visit (r p) = f (ht.visit p)

theorem Moves.trans {f g : List (Entry K V) → List (Entry K V)} {r r' : ℕ → ℕ}
    (h : Moves f r ht ht') (h' : Moves g r' ht' ht'') : Moves (g ∘ f) (r' ∘ r) ht ht'' where
  entries := by rw [h'.entries, h.entries, comp_apply]
  pointer := by rw [h'.pointer, h.pointer, comp_apply]
  count := by rw [h'.count, h.count]
  stands p hp := h'.stands _ (h.stands p hp)
  visit p hp := by
    rw [comp_apply, h'.visit _ (h.stands p hp), h.visit p hp, comp_apply]

/-- A change that leaves the slots and the internal pointer. -/
theorem Moves.of_slots (hs : ht'.slots = ht.slots) (hp : ht'.nInternalPointer = ht.nInternalPointer)
    (hc : ht'.nIteratorsCount = ht.nIteratorsCount) : Moves id id ht ht' where
  entries := by rw [HashTable.entries, hs]; rfl
  pointer := hp
  count := hc
  stands p h := by rwa [Stands, hs]
  visit p _ := by rw [HashTable.visit, hs]; rfl

end HashTable

/-! ## Iterators -/

section Iterators

variable {self : ℕ} {r r' : ℕ → ℕ} {its : List HashTableIterator}

/-- The iterators of the table have moved by `r`. -/
def relocate (self : ℕ) (r : ℕ → ℕ) (its : List HashTableIterator) : List HashTableIterator :=
  its.map fun it => if it.ht = some self then { it with pos := r it.pos } else it

theorem relocate_comp (its : List HashTableIterator) :
    relocate self r' (relocate self r its) = relocate self (r' ∘ r) its := by
  rw [relocate, relocate, List.map_map]
  apply map_congr_left
  intro it _
  by_cases h : it.ht = some self
  · rw [comp_apply, if_pos h, if_pos h, if_pos h]
    rfl
  · rw [comp_apply, if_neg h, if_neg h, if_neg h]

/-- Iterators that do not move. -/
theorem relocate_eq_self (h : ∀ it ∈ its, it.ht = some self → r it.pos = it.pos) :
    relocate self r its = its := by
  conv_rhs => rw [← map_id its]
  apply map_congr_left
  intro it hit
  by_cases hself : it.ht = some self
  · rw [if_pos hself, h it hit hself]
    rfl
  · rw [if_neg hself]
    rfl

theorem relocate_id (self : ℕ) (its : List HashTableIterator) : relocate self id its = its :=
  relocate_eq_self fun _ _ _ => rfl

theorem relocate_congr (h : ∀ it ∈ its, it.ht = some self → r it.pos = r' it.pos) :
    relocate self r its = relocate self r' its := by
  apply map_congr_left
  intro it hit
  by_cases hself : it.ht = some self
  · rw [if_pos hself, if_pos hself, h it hit hself]
  · rw [if_neg hself, if_neg hself]

variable {it : HashTableIterator}

theorem mem_relocate (h : it ∈ relocate self r its)
    (hself : it.ht = some self) : ∃ it0 ∈ its, it0.ht = some self ∧ it.pos = r it0.pos := by
  obtain ⟨it0, hit0, rfl⟩ := mem_map.mp h
  by_cases hown : it0.ht = some self
  · exact ⟨it0, hit0, hown, by rw [if_pos hown]⟩
  · rw [if_neg hown] at hself
    exact absurd hself hown

theorem iteratorsUpdate_eq_relocate (src dst : ℕ) (its : List HashTableIterator) :
    iteratorsUpdate self src dst its = relocate self (fun p => if p = src then dst else p) its := by
  apply map_congr_left
  intro it _
  by_cases hself : it.ht = some self
  · by_cases hpos : it.pos = src
    · rw [if_pos ⟨hself, hpos⟩, if_pos hself]
      dsimp only
      rw [if_pos hpos]
    · rw [if_neg fun h => hpos h.2, if_pos hself]
      dsimp only
      rw [if_neg hpos]
  · rw [if_neg fun h => hself h.1, if_neg hself]

/-- The iterators of the table. -/
def owned (self : ℕ) (its : List HashTableIterator) : List HashTableIterator :=
  its.filter fun it => it.ht = some self

theorem length_owned_relocate (r : ℕ → ℕ) (its : List HashTableIterator) :
    (owned self (relocate self r its)).length = (owned self its).length := by
  rw [owned, relocate, List.filter_map, length_map]
  congr 1
  apply filter_congr
  intro it _
  by_cases h : it.ht = some self
  · rw [comp_apply, if_pos h]
  · rw [comp_apply, if_neg h]

/-- The table counts its iterators, up to 255 of them. -/
def State.Counted (self : ℕ) (s : State K V) : Prop :=
  s.ht.nIteratorsCount = 255 ∨ s.ht.nIteratorsCount = (owned self s.iterators).length

/-- A table with an iterator does not have the count 0. -/
theorem State.Counted.ne_zero {s : State K V} (hc : s.Counted self)
    (hit : it ∈ s.iterators) (hself : it.ht = some self) : s.ht.nIteratorsCount ≠ 0 := by
  intro hzero
  rcases hc with hc | hc
  · omega
  · rw [hzero] at hc
    have hnil := eq_nil_of_length_eq_zero hc.symm
    have hmem : it ∈ owned self s.iterators :=
      mem_filter.mpr ⟨hit, decide_eq_true hself⟩
    rw [hnil] at hmem
    exact absurd hmem not_mem_nil

/-- The iterators have moved as `zend_hash_iterators_update` says, whether or not the table has
any. -/
theorem State.iterators_iteratorsUpdate {s : State K V} (hc : s.Counted self) (src dst : ℕ) :
    (s.iteratorsUpdate self src dst).iterators
      = relocate self (fun p => if p = src then dst else p) s.iterators := by
  rw [State.iteratorsUpdate]
  by_cases hzero : s.ht.nIteratorsCount = 0
  · rw [if_neg (not_not_intro hzero)]
    symm
    apply relocate_eq_self
    intro it hit hself
    exact absurd hzero (hc.ne_zero hit hself)
  · rw [if_pos hzero]
    exact iteratorsUpdate_eq_relocate ..

@[simp] theorem State.ht_iteratorsUpdate (s : State K V) (src dst : ℕ) :
    (s.iteratorsUpdate self src dst).ht = s.ht := by
  rw [State.iteratorsUpdate]
  split <;> rfl

end Iterators

/-!
# Rehashing a table

Every position has to move to the new index of its element.  The iterators do unless one stands
before the first hole and another one after it: the lowest iterator is looked for only once.
-/

open ZendHash.HashTable

variable {K V : Type} {self : ℕ} {ht ht0 : HashTable K V} {i j n : ℕ}

/-! ## The table -/

/-- A position is not at a hole. -/
theorem HashTable.Stands.ne_hole (hp : ht.Stands p) (hi : i < ht.nNumUsed)
    (hused : ht.nNumUsed ≤ HT_INVALID_IDX) (hlive : ht.live i = false) : p ≠ i := by
  rintro rfl
  rcases hp with hp | hp
  · omega
  · rw [occupied_slots, hlive] at hp
    exact Bool.false_ne_true hp.2

/-- A bucket that is moved is linked in its new place. -/
theorem HashTable.move_eq (ht : HashTable K V) (i j : ℕ) : ht.move i j = { ht with
      arData := Function.update ht.arData j
        { ht.arData i with next := ht.hash (ht.nIndex (ht.arData i).h) }
      hash := Function.update ht.hash (ht.nIndex (ht.arData i).h) j
      nInternalPointer := if ht.nInternalPointer = i then j else ht.nInternalPointer } := by
  simp only [move, link, nIndex, Function.update_self, Function.update_idem]

/-- Before the first hole the buckets are linked only. -/
theorem HashTable.move_self (ht : HashTable K V) (i : ℕ) : ht.move i i = ht.link i := by
  rw [move_eq]
  congr 1
  by_cases h : ht.nInternalPointer = i
  · rw [if_pos h, h]
  · rw [if_neg h]

/-- The table when the buckets before `i` have been moved to the first `j`. -/
structure Compacting (ht0 : HashTable K V) (i j : ℕ) (ht : HashTable K V) : Prop where
  rest : ht = { ht0 with
    arData := ht.arData, hash := ht.hash, nInternalPointer := ht.nInternalPointer }
  done : cells ht.arData j = compacted (ht0.slots.take i)
  todo : ∀ t, i ≤ t → ht.arData t = ht0.arData t
  chained : Chained ht0.nTableMask ht.arData ht.hash j
  pointer : ht.nInternalPointer = moved ht0.slots i ht0.nInternalPointer

namespace Compacting

theorem rest_with (h : Compacting ht0 i j ht) (arData : ℕ → Bucket K V) (hash : ℕ → ℕ)
    (p : ℕ) : ({ ht with arData := arData, hash := hash, nInternalPointer := p } : HashTable K V)
      = { ht0 with arData := arData, hash := hash, nInternalPointer := p } := by
  rw [h.rest]

theorem mask (h : Compacting ht0 i j ht) : ht.nTableMask = ht0.nTableMask := by rw [h.rest]

theorem used (h : Compacting ht0 i j ht) : ht.nNumUsed = ht0.nNumUsed := by rw [h.rest]

theorem count (h : Compacting ht0 i j ht) : ht.nIteratorsCount = ht0.nIteratorsCount := by
  rw [h.rest]

/-- The buckets moved are those with an element. -/
theorem rank_eq (h : Compacting ht0 i j ht) : j = rank ht0.slots i := by
  have hlen := congrArg List.length h.done
  rw [length_cells, length_compacted] at hlen
  exact hlen

theorem le (h : Compacting ht0 i j ht) : j ≤ i := by
  rw [h.rank_eq]
  exact rank_le ..

theorem live_eq (h : Compacting ht0 i j ht) : ht.live i = ht0.live i := by
  rw [live, h.todo i le_rfl]
  rfl

theorem slot (hi : i < ht0.nNumUsed) : ht0.slots[i]? = some (ht0.arData i).entry :=
  getElem?_cells hi

/-- A hole is passed. -/
theorem pass (h : Compacting ht0 i j ht) (hi : i < ht0.nNumUsed) (hlive : ht0.live i = false)
    (hp : ht0.nInternalPointer ≠ i) : Compacting ht0 (i + 1) j ht where
  rest := h.rest
  done := by
    have hnone : (ht0.arData i).entry = none := by
      rw [← Option.isSome_eq_false_iff.trans Option.isNone_iff_eq_none, isSome_entry]
      exact hlive
    rw [h.done, compacted_take_succ_of_hole (by rw [slot hi, hnone])]
  todo t ht := h.todo t (by omega)
  chained := h.chained
  pointer := by rw [h.pointer, moved_succ_of_ne hp]

/-- A bucket with an element is moved. -/
theorem step (h : Compacting ht0 i j ht) (hi : i < ht0.nNumUsed)
    (hused : ht0.nNumUsed ≤ HT_INVALID_IDX) (hlive : ht0.live i = true) :
    Compacting ht0 (i + 1) (j + 1) (ht.move i j) := by
  have hle := h.le
  have hlive' : (ht.arData i).val.isSome = true := by
    rw [h.todo i le_rfl]
    exact hlive
  rw [move_eq]
  refine ⟨?_, ?_, ?_, ?_, ?_⟩
  · exact h.rest_with ..
  · obtain ⟨e, he⟩ : ∃ e, (ht0.arData i).entry = some e := by
      rw [← Option.isSome_iff_exists, isSome_entry]
      exact hlive
    have hentry : ({ ht.arData i with
        next := ht.hash (ht.nIndex (ht.arData i).h) } : Bucket K V).entry = some e := by
      rw [← he, ← h.todo i le_rfl]
      rfl
    dsimp only at hentry ⊢
    rw [compacted_take_succ_of_getElem? (by rw [slot hi, he]), cells_succ,
      cells_update_of_ge le_rfl, Function.update_self, hentry, h.done]
  · intro t ht
    dsimp only
    rw [Function.update_of_ne (by omega)]
    exact h.todo t (by omega)
  · have hlink := chained_link h.chained (by omega) hlive'
    rw [nIndex_eq, h.mask]
    exact hlink
  · rw [h.pointer, moved_succ, h.rank_eq]

end Compacting

/-- What `zend_hash_rehash` does to a table. -/
structure Rehashed (ht ht' : HashTable K V) : Prop where
  rest : ht' = { ht with
    arData := ht'.arData, hash := ht'.hash, nNumUsed := ht'.nNumUsed
    nInternalPointer := moved ht.slots ht.nNumUsed ht.nInternalPointer }
  slots : ht'.slots = compacted ht.slots
  chained : Chained ht'.nTableMask ht'.arData ht'.hash ht'.nNumUsed

/-- The loop is through. -/
theorem Compacting.rehashed (h : Compacting ht0 ht0.nNumUsed j ht) :
    Rehashed ht0 { ht with nNumUsed := j } := by
  have hdone := h.done
  rw [← length_slots, List.take_length] at hdone
  refine ⟨?_, hdone, ?_⟩
  · conv_lhs => rw [h.rest]
    rw [h.pointer]
  · rw [h.mask]
    exact h.chained

variable {iterPos : ℕ}

theorem compact_table {s : State K V} (hused : ht0.nNumUsed ≤ HT_INVALID_IDX)
    (hp : ht0.Stands ht0.nInternalPointer) (hn : i + n = ht0.nNumUsed)
    (h : Compacting ht0 i j s.ht) : Rehashed ht0 (compact self n i j iterPos s).ht := by
  induction n generalizing i j iterPos s with
  | zero =>
    subst hn
    exact h.rehashed
  | succ n ih =>
    have hi : i < ht0.nNumUsed := by omega
    rw [compact]
    by_cases hlive : ht0.live i = true
    · have hstep := h.step hi hused hlive
      rw [if_pos (h.live_eq.trans hlive)]
      dsimp only
      split_ifs
      · refine ih (by omega) ?_
        rw [State.ht_iteratorsUpdate]
        exact hstep
      · exact ih (by omega) hstep
    · rw [Bool.not_eq_true] at hlive
      rw [if_neg (by rw [h.live_eq, hlive]; exact Bool.false_ne_true)]
      exact ih (by omega) (h.pass hi hlive (hp.ne_hole hi hused hlive))

theorem rehashFrom_table {s : State K V} (hused : ht0.nNumUsed ≤ HT_INVALID_IDX)
    (hp : ht0.Stands ht0.nInternalPointer) (hn : i + n = ht0.nNumUsed)
    (h : Compacting ht0 i i s.ht) : Rehashed ht0 (rehashFrom self n i s).ht := by
  induction n generalizing i s with
  | zero =>
    subst hn
    have hend := h.rehashed
    rw [← h.used] at hend
    exact hend
  | succ n ih =>
    have hi : i < ht0.nNumUsed := by omega
    rw [rehashFrom]
    by_cases hlive : ht0.live i = true
    · rw [if_pos (h.live_eq.trans hlive), ← move_self]
      exact ih (by omega) (h.step hi hused hlive)
    · rw [Bool.not_eq_true] at hlive
      rw [if_neg (by rw [h.live_eq, hlive]; exact Bool.false_ne_true)]
      exact compact_table hused hp (by omega) (h.pass hi hlive (hp.ne_hole hi hused hlive))

theorem linkFrom_table (hused : ht0.nNumUsed ≤ HT_INVALID_IDX)
    (hlive : ∀ t < ht0.nNumUsed, ht0.live t = true) (hn : i + n = ht0.nNumUsed)
    (h : Compacting ht0 i i ht) : Rehashed ht0 (linkFrom n i ht) := by
  induction n generalizing i ht with
  | zero =>
    subst hn
    have hend := h.rehashed
    rw [← h.used] at hend
    exact hend
  | succ n ih =>
    have hi : i < ht0.nNumUsed := by omega
    rw [linkFrom, ← move_self]
    exact ih (by omega) (h.step hi hused (hlive i hi))

/-- A table with as many elements as buckets has no holes. -/
theorem HashTable.live_of_length (h : ht.entries.length = ht.nNumUsed) :
    ∀ t < ht.nNumUsed, ht.live t = true := by
  intro t hlt
  rw [← length_slots, entries, List.reduceOption_length_eq_iff] at h
  have hmem : (ht.arData t).entry ∈ ht.slots := List.mem_of_getElem? (getElem?_cells hlt)
  rw [live, ← isSome_entry]
  exact h _ hmem

/-- A table without elements has no position but the end. -/
theorem HashTable.stands_of_entries_eq_nil (h : ht.entries = []) (hp : ht.Stands p) :
    p = HT_INVALID_IDX := by
  rcases hp with hp | ⟨e, he⟩
  · exact hp
  · have hmem := List.reduceOption_mem_iff.mpr (List.mem_of_getElem? he)
    change e ∈ ht.entries at hmem
    rw [h] at hmem
    exact absurd hmem List.not_mem_nil

/-- **Rehashing** keeps the elements in their order and moves the internal pointer along. -/
theorem rehash_table (self : ℕ) (s : State K V) (hcount : s.ht.nNumOfElements = s.ht.entries.length)
    (hused : s.ht.nNumUsed ≤ HT_INVALID_IDX) (hp : s.ht.Stands s.ht.nInternalPointer)
    (hinit : s.ht.initialized = false →
      s.ht.nNumUsed = 0 ∧ Chained s.ht.nTableMask s.ht.arData s.ht.hash 0) :
    Rehashed s.ht (s.rehash self).ht := by
  have hreset : Compacting s.ht 0 0 s.ht.hashReset :=
    ⟨rfl, rfl, fun _ _ => rfl, fun _ => rfl, rfl⟩
  rw [State.rehash]
  by_cases hzero : s.ht.nNumOfElements = 0
  · have hnil : s.ht.entries = [] := by
      rw [← List.length_eq_zero_iff, ← hcount, hzero]
    have hend : moved s.ht.slots s.ht.nNumUsed s.ht.nInternalPointer
        = s.ht.nInternalPointer := by
      rw [stands_of_entries_eq_nil hnil hp, moved_of_le hused]
    split_ifs with hi
    · refine ⟨?_, (compacted_eq_nil hnil).symm, fun _ => rfl⟩
      rw [hend]
      rfl
    · obtain ⟨hused0, hchained⟩ := hinit (Bool.not_eq_true _ ▸ hi)
      refine ⟨?_, ?_, ?_⟩
      · rw [hend]
      · rw [slots, hused0]
        rfl
      · rw [hused0]
        exact hchained
  · dsimp only
    split_ifs with hfull
    · refine linkFrom_table hused ?_ (zero_add _) hreset
      apply live_of_length
      rw [← hcount]
      exact hfull.symm
    · exact rehashFrom_table hused hp (zero_add _) hreset

theorem Rehashed.moves {ht' : HashTable K V} (h : Rehashed ht ht')
    (hused : ht.nNumUsed ≤ HT_INVALID_IDX) : ht.Moves id (moved ht.slots ht.nNumUsed) ht' where
  entries := by
    rw [entries, h.slots, reduceOption_compacted]
    rfl
  pointer := by rw [h.rest]
  count := by rw [h.rest]
  stands p hp := by
    rcases hp with rfl | hp
    · exact .inl (moved_of_le hused)
    · right
      have hlt := hp.lt
      rw [length_slots] at hlt
      rw [moved_of_lt hlt, h.slots]
      exact occupied_compacted hp
  visit p hp := by
    have hend : ht.slots.length ≤ HT_INVALID_IDX := by rwa [length_slots]
    rcases hp with rfl | hp
    · have hend' : (compacted ht.slots).length ≤ HT_INVALID_IDX := by
        rw [length_compacted]
        exact le_trans (List.reduceOption_length_le _) hend
      rw [moved_of_le hused, HashTable.visit, h.slots, visit_of_le hend', HashTable.visit,
        visit_of_le hend]
      rfl
    · have hlt := hp.lt
      rw [length_slots] at hlt
      rw [moved_of_lt hlt, HashTable.visit, h.slots, visit_compacted]
      rfl

/-! ## The iterators -/

/-- What the loop of `zend_hash_iterators_lower_pos` has found from `res` on. -/
theorem lowerPos_aux (start res : ℕ) (its : List HashTableIterator) :
    let r := its.foldl (fun res it =>
      if it.ht = some self ∧ start ≤ it.pos ∧ it.pos < res then it.pos else res) res
    r ≤ res ∧ (∀ it ∈ its, it.ht = some self → start ≤ it.pos → r ≤ it.pos) ∧
      (r = res ∨ start ≤ r) := by
  induction its generalizing res with
  | nil => exact ⟨le_rfl, fun _ h => absurd h List.not_mem_nil, .inl rfl⟩
  | cons it its ih =>
    rw [List.foldl_cons]
    by_cases hlow : it.ht = some self ∧ start ≤ it.pos ∧ it.pos < res
    · rw [if_pos hlow]
      obtain ⟨hle, hmem, hres⟩ := ih it.pos
      refine ⟨by omega, ?_, ?_⟩
      · intro it' hit' hself hstart
        rcases List.mem_cons.mp hit' with rfl | hit'
        · exact hle
        · exact hmem it' hit' hself hstart
      · right
        rcases hres with hres | hres
        · rw [hres]
          exact hlow.2.1
        · exact hres
    · rw [if_neg hlow]
      obtain ⟨hle, hmem, hres⟩ := ih res
      refine ⟨hle, ?_, hres⟩
      intro it' hit' hself hstart
      rcases List.mem_cons.mp hit' with rfl | hit'
      · have hge : ¬ it'.pos < res := fun h => hlow ⟨hself, hstart, h⟩
        omega
      · exact hmem it' hit' hself hstart

variable {its : List HashTableIterator}

theorem lowerPos_le {start : ℕ} {it : HashTableIterator} (hit : it ∈ its)
    (hself : it.ht = some self) (hstart : start ≤ it.pos) : lowerPos self start its ≤ it.pos :=
    (lowerPos_aux start _ its).2.1 it hit hself hstart

theorem le_lowerPos (self start : ℕ) (its : List HashTableIterator) :
    lowerPos self start its = HT_INVALID_IDX ∨ start ≤ lowerPos self start its :=
  (lowerPos_aux start _ its).2.2

/-- The lowest position does not depend on where the search begins when no iterator is
between. -/
theorem lowerPos_congr {start start' : ℕ}
    (h : ∀ it ∈ its, it.ht = some self → (start ≤ it.pos ↔ start' ≤ it.pos)) :
    lowerPos self start its = lowerPos self start' its := by
  apply List.foldl_ext
  intro res it hit
  by_cases hself : it.ht = some self
  · simp only [h it hit hself]
  · rw [if_neg fun h => hself h.1, if_neg fun h => hself h.1]

/-- What the loop waits for, from the bucket `i` on: the lowest iterator that is still to move,
or nothing, and then there is none. -/
def Aim (self i n iterPos : ℕ) (its : List HashTableIterator) : Prop :=
  iterPos = lowerPos self i its ∨
    (iterPos < i ∨ n ≤ iterPos) ∧ ∀ it ∈ its, it.ht = some self → it.pos < i ∨ n ≤ it.pos

theorem Aim.succ (h : Aim self i n iterPos its)
    (hnone : ∀ it ∈ its, it.ht = some self → it.pos ≠ i) : Aim self (i + 1) n iterPos its := by
  rcases h with h | ⟨hpos, hits⟩
  · left
    rw [h]
    apply lowerPos_congr
    intro it hit hself
    have hne := hnone it hit hself
    omega
  · right
    refine ⟨by omega, fun it hit hself => ?_⟩
    have hout := hits it hit hself
    omega

/-- Where the loop does not wait there is no iterator. -/
theorem Aim.pos_ne (h : Aim self i n iterPos its) (hi : i < n)
    (hn : n ≤ HT_INVALID_IDX) (hne : i ≠ iterPos) : ∀ it ∈ its, it.ht = some self → it.pos ≠ i := by
  intro it hit hself hpos
  rcases h with h | ⟨-, hits⟩
  · have hle := lowerPos_le hit hself (le_of_eq hpos.symm)
    have hge := le_lowerPos self i its
    omega
  · have hout := hits it hit hself
    omega

/-- The iterators of the table are at elements or past the end. -/
def State.Standing (self : ℕ) (s : State K V) : Prop :=
  ∀ it ∈ s.iterators, it.ht = some self → s.ht.Stands it.pos

/-- One iterator of the table stands before its first hole and another one after it. -/
def State.Straddled (self : ℕ) (s : State K V) : Prop :=
  ∃ f < s.ht.nNumUsed, s.ht.live f = false ∧ (∀ k < f, s.ht.live k = true) ∧
    (∃ it ∈ s.iterators, it.ht = some self ∧ it.pos < f) ∧
    ∃ it ∈ s.iterators, it.ht = some self ∧ f < it.pos ∧ it.pos < s.ht.nNumUsed

section

variable {iterPos : ℕ} {s : State K V} {its0 : List HashTableIterator}

/-- No iterator has moved to the bucket `i` or away from it. -/
theorem relocate_succ_of_ne
    (h : ∀ it ∈ relocate self (moved ht0.slots i) its0, it.ht = some self → it.pos ≠ i) :
    relocate self (moved ht0.slots (i + 1)) its0 = relocate self (moved ht0.slots i) its0 := by
  apply relocate_congr
  intro it hit hself
  apply moved_succ_of_ne
  intro hpos
  refine h _ (List.mem_map_of_mem hit) ?_ ?_
  · rw [if_pos hself]
    exact hself
  · rw [if_pos hself]
    exact moved_eq_iff.mpr hpos

theorem compact_iterators (hused : ht0.nNumUsed ≤ HT_INVALID_IDX)
    (hp : ht0.Stands ht0.nInternalPointer)
    (hstand : ∀ it ∈ its0, it.ht = some self → ht0.Stands it.pos)
    (hn : i + n = ht0.nNumUsed) (h : Compacting ht0 i j s.ht) (hc : s.Counted self)
    (hits : s.iterators = relocate self (moved ht0.slots i) its0)
    (haim : Aim self i ht0.nNumUsed iterPos s.iterators) : (compact self n i j iterPos s).iterators
      = relocate self (moved ht0.slots ht0.nNumUsed) its0 := by
  induction n generalizing i j iterPos s with
  | zero =>
    rw [← hn]
    exact hits
  | succ n ih =>
    have hi : i < ht0.nNumUsed := by omega
    rw [compact]
    by_cases hlive : ht0.live i = true
    · have hstep := h.step hi hused hlive
      have hcount : (s.ht.move i j).nIteratorsCount = s.ht.nIteratorsCount := by
        rw [hstep.count, h.count]
      have hc' : ({ s with ht := s.ht.move i j } : State K V).Counted self := by
        rw [State.Counted] at hc ⊢
        rwa [← hcount] at hc
      rw [if_pos (h.live_eq.trans hlive)]
      by_cases hwait : (s.ht.move i j).nIteratorsCount ≠ 0 ∧ i = iterPos
      · rw [if_pos hwait]
        obtain ⟨-, rfl⟩ := hwait
        have hmoved : (fun p => if p = i then j else p) ∘ moved ht0.slots i
            = moved ht0.slots (i + 1) := by
          funext p
          rw [moved_succ, h.rank_eq]
          rfl
        have hupdate : (({ s with ht := s.ht.move i j } : State K V).iteratorsUpdate self
            i j).iterators = relocate self (moved ht0.slots (i + 1)) its0 := by
          rw [State.iterators_iteratorsUpdate hc', hits, relocate_comp, hmoved]
        refine ih (by omega) ?_ ?_ hupdate (.inl rfl)
        · rw [State.ht_iteratorsUpdate]
          exact hstep
        · rw [State.Counted, State.ht_iteratorsUpdate, hupdate, length_owned_relocate]
          rw [State.Counted] at hc'
          rw [hits, length_owned_relocate] at hc'
          exact hc'
      · rw [if_neg hwait]
        have hnone : ∀ it ∈ s.iterators, it.ht = some self → it.pos ≠ i := by
          intro it hit hself
          have hne := hc'.ne_zero hit hself
          exact haim.pos_ne hi hused (fun heq => hwait ⟨hne, heq⟩) it hit hself
        refine ih (by omega) hstep hc' ?_ (haim.succ hnone)
        rw [hits] at hnone
        exact hits.trans (relocate_succ_of_ne hnone).symm
    · rw [Bool.not_eq_true] at hlive
      rw [if_neg (by rw [h.live_eq, hlive]; exact Bool.false_ne_true)]
      have hnone : ∀ it ∈ relocate self (moved ht0.slots i) its0, it.ht = some self →
          it.pos ≠ i := by
        intro it hit hself hpos
        obtain ⟨it0, hit0, hself0, hpos0⟩ := mem_relocate hit hself
        rw [hpos0, moved_eq_iff] at hpos
        exact (hstand it0 hit0 hself0).ne_hole hi hused hlive hpos
      refine ih (by omega) (h.pass hi hlive (hp.ne_hole hi hused hlive)) hc ?_ ?_
      · rw [hits, relocate_succ_of_ne hnone]
      · rw [← hits] at hnone
        exact haim.succ hnone

/-- Up to the first hole nothing moves. -/
theorem relocate_moved_eq_self (hlive : ∀ k < i, ht0.live k = true) (hi : i ≤ ht0.nNumUsed) :
    relocate self (moved ht0.slots i) its0 = its0 := by
  apply relocate_eq_self
  intro it hit hself
  rcases lt_or_ge it.pos i with hlt | hge
  · apply moved_eq_self
    intro k hk
    rw [occupied_slots]
    exact ⟨by omega, hlive k (by omega)⟩
  · exact moved_of_le hge

theorem rehashFrom_iterators {s0 : State K V} (hused : s0.ht.nNumUsed ≤ HT_INVALID_IDX)
    (hp : s0.ht.Stands s0.ht.nInternalPointer) (hstand : s0.Standing self)
    (hclear : ¬ s0.Straddled self) (hc : s0.Counted self)
    (hn : i + n = s0.ht.nNumUsed) (h : Compacting s0.ht i i s.ht)
    (hits : s.iterators = s0.iterators) (hbefore : ∀ k < i, s0.ht.live k = true) :
    (rehashFrom self n i s).iterators
      = relocate self (moved s0.ht.slots s0.ht.nNumUsed) s0.iterators := by
  induction n generalizing i s with
  | zero =>
    rw [rehashFrom, hits, relocate_moved_eq_self (hn ▸ hbefore) le_rfl]
  | succ n ih =>
    have hi : i < s0.ht.nNumUsed := by omega
    rw [rehashFrom]
    by_cases hlive : s0.ht.live i = true
    · rw [if_pos (h.live_eq.trans hlive), ← move_self]
      refine ih (by omega) (h.step hi hused hlive) hits ?_
      intro k hk
      rcases Nat.lt_succ_iff_lt_or_eq.mp hk with hk | rfl
      · exact hbefore k hk
      · exact hlive
    · rw [Bool.not_eq_true] at hlive
      rw [if_neg (by rw [h.live_eq, hlive]; exact Bool.false_ne_true)]
      have hnone : ∀ it ∈ s0.iterators, it.ht = some self → it.pos ≠ i :=
        fun it hit hself => (hstand it hit hself).ne_hole hi hused hlive
      -- the first hole: the iterators are all before it or all after it
      have haim : Aim self i s0.ht.nNumUsed (lowerPos self 0 s.iterators) s0.iterators := by
        rw [hits]
        by_cases hlow : ∃ it ∈ s0.iterators, it.ht = some self ∧ it.pos < i
        · right
          refine ⟨?_, fun it hit hself => ?_⟩
          · obtain ⟨it, hit, hself, hpos⟩ := hlow
            have hle := lowerPos_le hit hself (Nat.zero_le it.pos)
            omega
          · by_contra hbetween
            have hne := hnone it hit hself
            exact hclear ⟨i, hi, hlive, hbefore, hlow, it, hit, hself, by omega, by omega⟩
        · left
          apply lowerPos_congr
          intro it hit hself
          have hge : ¬ it.pos < i := fun hpos => hlow ⟨it, hit, hself, hpos⟩
          omega
      refine compact_iterators (i := i + 1) hused hp hstand (by omega)
        (h.pass hi hlive (hp.ne_hole hi hused hlive)) ?_ ?_ ?_
      · rw [State.Counted, h.count, hits]
        exact hc
      · rw [hits]
        rw [relocate_succ_of_ne, relocate_moved_eq_self hbefore (by omega)]
        rw [relocate_moved_eq_self hbefore (by omega)]
        exact hnone
      · rw [hits] at haim ⊢
        exact haim.succ hnone

/-- The iterators move along when the table is **rehashed**, unless they stand on both sides of
its first hole. -/
theorem rehash_iterators (hcount : s.ht.nNumOfElements = s.ht.entries.length)
    (hused : s.ht.nNumUsed ≤ HT_INVALID_IDX) (hp : s.ht.Stands s.ht.nInternalPointer)
    (hstand : s.Standing self) (hc : s.Counted self) (hclear : ¬ s.Straddled self) :
    (s.rehash self).iterators = relocate self (moved s.ht.slots s.ht.nNumUsed) s.iterators := by
  have hreset : Compacting s.ht 0 0 s.ht.hashReset :=
    ⟨rfl, rfl, fun _ _ => rfl, fun _ => rfl, rfl⟩
  rw [State.rehash]
  by_cases hzero : s.ht.nNumOfElements = 0
  · have hnil : s.ht.entries = [] := by
      rw [← List.length_eq_zero_iff, ← hcount, hzero]
    have hend : relocate self (moved s.ht.slots s.ht.nNumUsed) s.iterators = s.iterators := by
      apply relocate_eq_self
      intro it hit hself
      rw [stands_of_entries_eq_nil hnil (hstand it hit hself), moved_of_le hused]
    split_ifs
    · exact hend.symm
    · exact hend.symm
  · dsimp only
    split_ifs with hfull
    · have hlive := live_of_length (hcount.symm.trans hfull.symm)
      exact (relocate_moved_eq_self hlive le_rfl).symm
    · refine rehashFrom_iterators hused hp hstand hclear hc (Nat.zero_add _) hreset rfl ?_
      intro k hk
      exact absurd hk (Nat.not_lt_zero k)

end

end ZendHash
