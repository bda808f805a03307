/-
# Taking from the beginning of an array

`array_shift` deletes the first element and numbers the integer keys anew.  A packed table is
compacted by a loop of its own; a table in the hash layout gets its new keys in place and is
rehashed if one has changed.  The first bucket is a hole then, so that all iterators are behind the
first hole, and all of them move along.
-/
import ReadingCode.ArrayEnds

open SlotList

namespace ZendHash

open ZendHash.HashTable

variable {K V : Type} {hash : K → ℕ} {self i k n p iterPos : ℕ} {s s' t : State K V}
  {ht ht0 : HashTable K V} {e : Entry K V} {l : List (Option (Entry K V))}

/-! ## Compacting a packed table -/

/-- The table when the elements of the buckets before `i` have been moved to the first `k`. -/
structure Shifting (ht0 : HashTable K V) (i k : ℕ) (ht : HashTable K V) : Prop where
  rest : ht = { ht0 with arData := ht.arData }
  done : cells ht.arData k = (renumber 0 (ht0.slots.take i).reduceOption).map some
  todo : ∀ t, i ≤ t → ht.arData t = ht0.arData t

namespace Shifting

open List

theorem length_eq (h : Shifting ht0 i k ht) : k = (ht0.slots.take i).reduceOption.length := by
  have hlen := congrArg List.length h.done
  rwa [length_cells, length_map, length_renumber] at hlen

theorem live_eq (h : Shifting ht0 i k ht) (hit : i ≤ p) : ht.live p = ht0.live p := by
  rw [live, h.todo p hit]
  rfl

/-- A hole is passed. -/
theorem pass (h : Shifting ht0 i k ht) (hi : i < ht0.nNumUsed) (hlive : ht0.live i = false) :
    Shifting ht0 (i + 1) k ht where
  rest := h.rest
  done := by
    have hnone : (ht0.arData i).entry = none := by
      rw [← Option.isSome_eq_false_iff.trans Option.isNone_iff_eq_none, isSome_entry]
      exact hlive
    rw [h.done, take_add_one, Compacting.slot hi, hnone, reduceOption_append]
    simp
  todo t ht := h.todo t (by omega)

/-- An element is moved. -/
theorem step (h : Shifting ht0 i k ht) (hki : k < i) (hi : i < ht0.nNumUsed)
    (hkeys : ∀ e ∈ ht0.entries, e.key = none) (hlive : ht0.live i = true) :
    Shifting ht0 (i + 1) (k + 1) (ht.shiftBucket i k) where
  rest := by
    rw [shiftBucket, setVal, h.rest]
  done := by
    obtain ⟨e, he⟩ := occupied_slots.mpr ⟨hi, hlive⟩
    have hval := val_of_slot he
    have hints : ints (ht0.slots.take i).reduceOption = k := by
      rw [h.length_eq, ints, countP_eq_length]
      intro e' he'
      have hmem : e' ∈ ht0.entries := by
        rw [entries, ← take_append_visit ht0.slots i]
        exact mem_append_left _ he'
      rw [hkeys e' hmem]
      rfl
    have hlast : ((ht.shiftBucket i k).arData k).entry = some ⟨none, k, e.val⟩ := by
      refine entry_eq_some.mpr ⟨?_, ?_, ?_⟩
      · simp [shiftBucket, setVal, hki.ne, h.todo i le_rfl, hval]
      · simp [shiftBucket, setVal, hki.ne]
      · simp [shiftBucket, setVal, hki.ne]
    have hbefore : cells (ht.shiftBucket i k).arData k = cells ht.arData k := by
      apply cells_congr
      intro j hj
      have hji : j ≠ i := by omega
      simp [shiftBucket, setVal, hj.ne, hji]
    rw [cells_succ, hbefore, hlast, h.done, take_add_one, he, reduceOption_append,
      renumber_append, hints, map_append]
    change _ = _ ++ (renumber (0 + k) [e]).map some
    rw [renumber_cons_none (hkeys e (mem_entries_of_slot he)), zero_add]
    rfl
  todo t ht := by
    have hti : t ≠ i := by omega
    have htk : t ≠ k := by omega
    simp [shiftBucket, setVal, hti, htk, h.todo t (by omega)]

end Shifting

/-- The loop over a packed table, behind a hole. -/
theorem shiftPacked_table (hkeys : ∀ e ∈ ht0.entries, e.key = none) (hki : k < i)
    (hn : i + n = ht0.nNumUsed) (h : Shifting ht0 i k s.ht) :
    Shifting ht0 ht0.nNumUsed (shiftPacked self n i k iterPos s).2
      (shiftPacked self n i k iterPos s).1.ht := by
  induction n generalizing i k iterPos s with
  | zero =>
    subst hn
    exact h
  | succ n ih =>
    have hi : i < ht0.nNumUsed := by omega
    rw [shiftPacked]
    by_cases hlive : ht0.live i = true
    · have hstep := h.step hki hi hkeys hlive
      rw [if_pos ((h.live_eq le_rfl).trans hlive), if_pos (ne_of_gt hki)]
      dsimp only
      split_ifs
      · refine ih (by omega) (by omega) ?_
        rw [State.ht_iteratorsUpdate]
        exact hstep
      · exact ih (by omega) (by omega) hstep
    · rw [Bool.not_eq_true] at hlive
      rw [if_neg (by rw [h.live_eq le_rfl, hlive]; exact Bool.false_ne_true)]
      exact ih (by omega) (by omega) (h.pass hi hlive)

/-- The iterators move as in the loop of `zend_hash_rehash`. -/
theorem shiftPacked_iterators (hki : k < i) (hits : s.iterators = s'.iterators)
    (hcount : s.ht.nIteratorsCount = s'.ht.nIteratorsCount)
    (hlive : ∀ j, i ≤ j → s.ht.live j = s'.ht.live j) :
    (shiftPacked self n i k iterPos s).1.iterators = (compact self n i k iterPos s').iterators := by
  induction n generalizing i k iterPos s s' with
  | zero => exact hits
  | succ n ih =>
    rw [shiftPacked, compact, hlive i le_rfl]
    by_cases hl : s'.ht.live i = true
    · rw [if_pos (ne_of_gt hki)]
      dsimp only
      have hlive' : ∀ j, i + 1 ≤ j → (s.ht.shiftBucket i k).live j = (s'.ht.move i k).live j := by
        intro j hj
        have hji : j ≠ i := by omega
        have hjk : j ≠ k := by omega
        rw [move_eq]
        have h := hlive j (by omega)
        rw [live, live] at h ⊢
        simpa [shiftBucket, setVal, hji, hjk] using h
      have hcount' : (s.ht.shiftBucket i k).nIteratorsCount = (s'.ht.move i k).nIteratorsCount := by
        exact hcount
      rw [hcount']
      have hupdate : (({ s with ht := s.ht.shiftBucket i k } : State K V).iteratorsUpdate self
          i k).iterators = (({ s' with ht := s'.ht.move i k } : State K V).iteratorsUpdate self
            i k).iterators := by
        rw [State.iteratorsUpdate, State.iteratorsUpdate]
        rw [hcount', hits]
        split_ifs <;> rfl
      split_ifs
      · rw [hupdate]
        refine ih (by omega) hupdate ?_ ?_
        · rw [State.ht_iteratorsUpdate, State.ht_iteratorsUpdate]
          exact hcount'
        · rw [State.ht_iteratorsUpdate, State.ht_iteratorsUpdate]
          exact hlive'
      · exact ih (by omega) hits hcount' hlive'
    · rw [if_neg hl, if_neg hl]
      exact ih (by omega) hits hcount fun j hj => hlive j (by omega)

/-! ## New keys in the hash layout -/

/-- The integer keys in the slots are numbered from `n` on. -/
def renumberSlots : ℕ → List (Option (Entry K V)) → List (Option (Entry K V))
  | _, [] => []
  | n, none :: l => none :: renumberSlots n l
  | n, some e :: l =>
    if e.key.isNone then some { e with h := n } :: renumberSlots (n + 1) l
    else some e :: renumberSlots n l

theorem renumberSlots_cons_some (n : ℕ) (e : Entry K V) (l : List (Option (Entry K V))) :
    renumberSlots n (some e :: l)
      = (renumber n [e]).map some ++ renumberSlots (n + ints [e]) l := by
  rw [renumberSlots]
  cases he : e.key with
  | none =>
    rw [renumber_cons_none he, ints_cons_none he]
    rfl
  | some k =>
    rw [renumber_cons_some he, ints_cons_some he]
    rfl

theorem reduceOption_renumberSlots (n : ℕ) (l : List (Option (Entry K V))) :
    (renumberSlots n l).reduceOption = renumber n l.reduceOption := by
  induction l generalizing n with
  | nil => rfl
  | cons x l ih =>
    cases x with
    | none => exact ih n
    | some e =>
      have hcons : (some e :: l).reduceOption = [e] ++ l.reduceOption := rfl
      rw [renumberSlots_cons_some, List.reduceOption_append, reduceOption_map_some, ih, hcons,
        renumber_append]

theorem renumberSlots_append (n : ℕ) (l m : List (Option (Entry K V))) :
    renumberSlots n (l ++ m) = renumberSlots n l ++ renumberSlots (n + ints l.reduceOption) m := by
  induction l generalizing n with
  | nil => rfl
  | cons x l ih =>
    rw [List.cons_append]
    cases x with
    | none =>
      change none :: renumberSlots n (l ++ m) = _
      rw [ih]
      rfl
    | some e =>
      have hcons : (some e :: l).reduceOption = [e] ++ l.reduceOption := rfl
      rw [renumberSlots_cons_some, renumberSlots_cons_some, ih, hcons, ints_append,
        add_assoc, List.append_assoc]

theorem take_renumberSlots (n p : ℕ) (l : List (Option (Entry K V))) :
    (renumberSlots n l).take p = renumberSlots n (l.take p) := by
  induction l generalizing n p with
  | nil => rw [List.take_nil, renumberSlots, List.take_nil]
  | cons x l ih =>
    cases p with
    | zero => rfl
    | succ p =>
      rw [List.take_succ_cons]
      cases x with
      | none => rw [renumberSlots, renumberSlots, List.take_succ_cons, ih]
      | some e =>
        rw [renumberSlots, renumberSlots]
        split_ifs
        · rw [List.take_succ_cons, ih]
        · rw [List.take_succ_cons, ih]

theorem rank_renumberSlots (n p : ℕ) (l : List (Option (Entry K V))) :
    rank (renumberSlots n l) p = rank l p := by
  rw [rank, take_renumberSlots, reduceOption_renumberSlots, length_renumber, rank]

theorem occupied_renumberSlots : Occupied (renumberSlots n l) p ↔ Occupied l p := by
  induction l generalizing n p with
  | nil => rfl
  | cons x l ih =>
    cases p with
    | zero =>
      cases x with
      | none => rfl
      | some e =>
        refine iff_of_true ?_ ⟨e, rfl⟩
        rw [renumberSlots]
        split_ifs
        · exact ⟨_, rfl⟩
        · exact ⟨_, rfl⟩
    | succ p =>
      cases x with
      | none => exact ih
      | some e =>
        rw [renumberSlots]
        split_ifs
        · exact ih
        · exact ih

/-- The table when the keys in the buckets before `i` have been set, `k` integer keys among them;
`changed` tells whether one of them was another one. -/
structure Renumbering (ht0 : HashTable K V) (i k : ℕ) (changed : Bool) (ht : HashTable K V) :
    Prop where
  rest : ht = { ht0 with arData := ht.arData }
  done : cells ht.arData i = renumberSlots 0 (ht0.slots.take i)
  todo : ∀ t, i ≤ t → ht.arData t = ht0.arData t
  count : k = ints (ht0.slots.take i).reduceOption
  same : changed = false → ht.arData = ht0.arData
  pos : changed = true → 0 < i

namespace Renumbering

variable {changed : Bool}

/-- A bucket stays as it is. -/
theorem keep (h : Renumbering ht0 i k changed ht) (hi : i < ht0.nNumUsed) {d : ℕ}
    (hslot : renumberSlots k [(ht0.arData i).entry] = [(ht0.arData i).entry])
    (hd : d = ints [(ht0.arData i).entry].reduceOption) :
    Renumbering ht0 (i + 1) (k + d) changed ht where
  rest := h.rest
  done := by
    rw [cells_succ, h.todo i le_rfl, h.done, List.take_add_one, Compacting.slot hi,
      renumberSlots_append, zero_add, ← h.count]
    exact congrArg _ hslot.symm
  todo t ht := h.todo t (by omega)
  count := by
    rw [List.take_add_one, Compacting.slot hi, List.reduceOption_append, ints_append, ← h.count, hd]
    rfl
  same := h.same
  pos _ := Nat.succ_pos i

/-- A bucket gets a new key. -/
theorem set (h : Renumbering ht0 i k changed ht)
    (he : ht0.slots[i]? = some (some e)) (hkey : e.key = none) :
    Renumbering ht0 (i + 1) (k + 1) true
      { ht with arData := Function.update ht.arData i { ht.arData i with h := k } } where
  rest := by rw [h.rest]
  done := by
    have hentry := (entry_of_slot he).2
    obtain ⟨hval, hk, -⟩ := entry_eq_some.mp hentry
    have hnew : ({ ht.arData i with h := k } : Bucket K V).entry = some ⟨none, k, e.val⟩ := by
      rw [h.todo i le_rfl]
      exact entry_eq_some.mpr ⟨hval, hk.trans hkey, rfl⟩
    dsimp only
    rw [cells_succ, cells_update_of_ge le_rfl, Function.update_self, hnew, h.done,
      List.take_add_one, he, renumberSlots_append, zero_add, ← h.count]
    change _ = _ ++ renumberSlots k [some e]
    rw [renumberSlots_cons_some, renumber_cons_none hkey]
    rfl
  todo t ht := by
    dsimp only
    rw [Function.update_of_ne (by omega), h.todo t (by omega)]
  count := by
    rw [List.take_add_one, he, List.reduceOption_append, ints_append, ← h.count]
    change _ = k + ints [e]
    rw [ints_cons_none hkey]
    rfl
  same := nofun
  pos _ := Nat.succ_pos i

end Renumbering

/-- The loop over a table in the hash layout. -/
theorem renumberFrom_table {changed : Bool} (hn : i + n = ht0.nNumUsed)
    (h : Renumbering ht0 i k changed ht) :
    Renumbering ht0 ht0.nNumUsed (renumberFrom n i k changed ht).2.1
      (renumberFrom n i k changed ht).2.2 (renumberFrom n i k changed ht).1 := by
  induction n generalizing i k changed ht with
  | zero =>
    subst hn
    exact h
  | succ n ih =>
    have hi : i < ht0.nNumUsed := by omega
    have hbucket := h.todo i le_rfl
    rw [renumberFrom]
    cases hentry : (ht0.arData i).entry with
    | none =>
      have hdead : ht.live i = false := by
        rw [live, hbucket, ← isSome_entry, hentry]
        rfl
      rw [if_neg fun hl => by rw [hdead] at hl; exact Bool.false_ne_true hl.1]
      exact ih (by omega) (h.keep (d := 0) hi (by rw [hentry]; rfl) (by rw [hentry]; rfl))
    | some e =>
      have hslot : ht0.slots[i]? = some (some e) := by rw [Compacting.slot hi, hentry]
      obtain ⟨hval, hk, hh⟩ := entry_eq_some.mp hentry
      have hlive : ht.live i = true := by
        rw [live, hbucket, hval]
        rfl
      cases hkey : e.key with
      | none =>
        rw [if_pos ⟨hlive, by rw [hbucket, hk, hkey]; rfl⟩]
        split_ifs with hne
        · exact ih (by omega) (h.set hslot hkey)
        · refine ih (by omega) (h.keep (d := 1) hi ?_ ?_)
          · rw [not_not, hbucket, hh] at hne
            rw [hentry, renumberSlots_cons_some, renumber_cons_none hkey, ← hne, ← hkey]
            rfl
          · rw [hentry]
            exact (ints_cons_none hkey []).symm
      | some key =>
        rw [if_neg fun hl => by rw [hbucket, hk, hkey] at hl; exact Bool.false_ne_true hl.2]
        refine ih (by omega) (h.keep (d := 0) hi ?_ ?_)
        · rw [hentry, renumberSlots_cons_some, renumber_cons_some hkey]
          rfl
        · rw [hentry]
          exact (ints_cons_some hkey []).symm

/-! ## The elements numbered anew -/

variable {xs : List (Entry K V)}

/-- The iterators have moved along with the elements to a table without holes. -/
theorem carried_of_compacted (hused : s.ht.nNumUsed ≤ HT_INVALID_IDX)
    (hs : s'.ht.slots = xs.map some) (hlen : xs.length = s.ht.entries.length)
    (hits : s'.iterators = relocate self (moved s.ht.slots s.ht.nNumUsed) s.iterators) :
    Carried self id s s' := by
  have hle := List.reduceOption_length_le s.ht.slots
  rw [length_slots] at hle
  refine ⟨_, hits, fun it _ _ hp => ?_⟩
  generalize it.pos = p at hp ⊢
  have hord := ordinal_add_visit s.ht p
  rw [HashTable.Stands, ordinal, hs, occupied_map_some, rank_map_some, hlen]
  change s.ht.entries.length ≤ _ at hle
  rcases hp with rfl | hp
  · rw [visit_invalid hused] at hord
    rw [moved_of_le hused]
    refine ⟨.inl rfl, ?_⟩
    rw [← hord, id]
    change min HT_INVALID_IDX (s.ht.ordinal HT_INVALID_IDX + 0) = _
    omega
  · have hlt := hp.lt
    rw [length_slots] at hlt
    obtain ⟨e, he⟩ := hp
    have hvisit : s.ht.visit p = e :: _ := visit_of_getElem? he
    rw [hvisit, List.length_cons] at hord
    have hmoved : moved s.ht.slots s.ht.nNumUsed p = s.ht.ordinal p := moved_of_lt hlt
    rw [id]
    refine ⟨.inr ?_, ?_⟩ <;> omega

/-- A table whose first bucket is a hole is not straddled. -/
theorem not_straddled_of_hole (hhole : 0 < s.ht.nNumUsed → s.ht.live 0 = false) :
    ¬ s.Straddled self := by
  rintro ⟨f, hf, -, hbefore, ⟨it, -, -, hpos⟩, -⟩
  have hlive := hbefore 0 (by omega)
  rw [hhole (by omega)] at hlive
  exact Bool.false_ne_true hlive

/-- A packed table has no string keys. -/
theorem State.Sound.key_eq_none (hs : s.Sound self hash) (hpacked : s.ht.packed = true) :
    ∀ e ∈ s.ht.entries, e.key = none := by
  intro e he
  obtain ⟨i, hi⟩ := List.mem_iff_getElem?.mp (List.reduceOption_mem_iff.mp he)
  exact (hs.valid.indexed hpacked i e hi).1

/-- The loop over a packed table whose first bucket is a hole. -/
theorem shiftPacked_spec (hs : s.Sound self hash) (hpacked : s.ht.packed = true)
    (hhole : 0 < s.ht.nNumUsed → s.ht.live 0 = false) : Shifting s.ht s.ht.nNumUsed
      (shiftPacked self s.ht.nNumUsed 0 0 (lowerPos self 0 s.iterators) s).2
      (shiftPacked self s.ht.nNumUsed 0 0 (lowerPos self 0 s.iterators) s).1.ht ∧
    (shiftPacked self s.ht.nNumUsed 0 0 (lowerPos self 0 s.iterators) s).1.iterators
      = relocate self (moved s.ht.slots s.ht.nNumUsed) s.iterators := by
  have hkeys := hs.key_eq_none hpacked
  have hstart : Shifting s.ht 0 0 s.ht := ⟨rfl, rfl, fun _ _ => rfl⟩
  have hused := Nat.le_of_lt hs.valid.used_lt
  have hrehash := rehashFrom_iterators (i := 0) (s := { s with ht := s.ht.hashReset }) hused
    hs.valid.stands hs.standing (not_straddled_of_hole hhole) hs.counted (Nat.zero_add _)
    ⟨rfl, rfl, fun _ _ => rfl, fun _ => rfl, rfl⟩ rfl fun k hk => absurd hk (Nat.not_lt_zero k)
  rw [← hrehash]
  cases hn : s.ht.nNumUsed with
  | zero => exact ⟨hstart, rfl⟩
  | succ m =>
    have hdead := hhole (by omega)
    have hdead' : s.ht.hashReset.live 0 = false := hdead
    rw [shiftPacked, if_neg (by rw [hdead]; exact Bool.false_ne_true), rehashFrom,
      if_neg (by rw [hdead']; exact Bool.false_ne_true)]
    constructor
    · have htable : Shifting s.ht s.ht.nNumUsed
          (shiftPacked self m 1 0 (lowerPos self 0 s.iterators) s).2 _ :=
        shiftPacked_table hkeys Nat.zero_lt_one (by omega) (hstart.pass (by omega) hdead)
      rw [hn] at htable
      exact htable
    · exact shiftPacked_iterators Nat.zero_lt_one rfl rfl fun _ _ => rfl

/-- Integer keys only, numbered. -/
theorem getElem?_renumber (hkeys : ∀ e ∈ xs, e.key = none)
    (h : (renumber n xs)[i]? = some e) : e.key = none ∧ e.h = n + i := by
  induction xs generalizing n i with
  | nil => cases h
  | cons e' xs ih =>
    rw [renumber_cons_none (hkeys e' List.mem_cons_self)] at h
    cases i with
    | zero =>
      cases h
      exact ⟨rfl, rfl⟩
    | succ i =>
      obtain ⟨hk, hh⟩ := ih (fun e he => hkeys e (List.mem_cons_of_mem _ he)) h
      exact ⟨hk, by omega⟩

/-- The elements numbered anew are as before for a table. -/
theorem HashTable.Listed.renumbered (hl : ht0.Listed hash)
    (hentries : ht.entries = renumber 0 ht0.entries) (hused : ht.nNumUsed ≤ ht0.nNumUsed)
    (hsize : ht.nTableSize = ht0.nTableSize) (hcount : ht.nNumOfElements = ht0.nNumOfElements)
    (hstands : ht.Stands ht.nInternalPointer) : ht.Listed hash where
  size_pos := by rw [hsize]; exact hl.size_pos
  used_le := by rw [hsize]; exact le_trans hused hl.used_le
  size_lt := by rw [hsize]; exact hl.size_lt
  count := by rw [hcount, hl.count, hentries, length_renumber]
  nodup := by
    rw [hentries]
    exact nodup_renumber (strings_nodup hl.nodup)
  hashed := by
    rw [hentries]
    intro e he k hk
    exact hl.hashed e (mem_of_mem_renumber he hk) k hk
  stands := hstands

/-- What `array_shift` does when the first element is deleted, up to the internal pointer. -/
theorem reindex_packed (hs : s.Sound self hash) (hpacked : s.ht.packed = true)
    (hhole : 0 < s.ht.nNumUsed → s.ht.live 0 = false) :
    ((s.reindex self).seek self .internalPointerReset).Sound self hash ∧
      Carried self id s ((s.reindex self).seek self .internalPointerReset) ∧
      (s.reindex self).ht.entries = renumber 0 s.ht.entries ∧
      (s.reindex self).ht.nNextFreeElement = ints s.ht.entries := by
  obtain ⟨htable, hits⟩ := shiftPacked_spec hs hpacked hhole
  have hkeys := hs.key_eq_none hpacked
  have hints : ints s.ht.entries = s.ht.entries.length := by
    rw [ints, List.countP_eq_length]
    intro e he
    rw [hkeys e he]
    rfl
  rw [State.reindex, if_pos hpacked]
  generalize shiftPacked self s.ht.nNumUsed 0 0 (lowerPos self 0 s.iterators) s = r
    at htable hits ⊢
  have hlen := htable.length_eq
  have hdone := htable.done
  have hrest := htable.rest
  rw [← length_slots, List.take_length] at hlen hdone
  change r.2 = s.ht.entries.length at hlen
  have hle := hs.valid.toListed.elements_le
  rw [hs.valid.count, ← hlen] at hle
  -- the table afterwards, with the internal pointer at `p`
  obtain ⟨p, hp, hht⟩ : ∃ p, HashTable.Stands { s.ht with
      arData := r.1.ht.arData, nNumUsed := r.2, nNextFreeElement := r.2 } p ∧
      (State.seek self { r.1 with ht := { r.1.ht with nNumUsed := r.2, nNextFreeElement := r.2 } }
        .internalPointerReset).ht = { s.ht with
          arData := r.1.ht.arData, nNumUsed := r.2, nNextFreeElement := r.2
          nInternalPointer := p } := by
    rw [hrest]
    exact ⟨_, stands_nextFrom _ (.inl (le_of_eq (zero_add _))), rfl⟩
  have hits' : (State.seek self { r.1 with
      ht := { r.1.ht with nNumUsed := r.2, nNextFreeElement := r.2 } }
      .internalPointerReset).iterators = _ := hits
  generalize State.seek self { r.1 with
    ht := { r.1.ht with nNumUsed := r.2, nNextFreeElement := r.2 } } .internalPointerReset = u
    at hht hits' ⊢
  have hslots : u.ht.slots = (renumber 0 s.ht.entries).map some := by
    rw [hht]
    exact hdone
  have hentries : u.ht.entries = renumber 0 s.ht.entries := by
    rw [entries, hslots, reduceOption_map_some]
  have hcarried := carried_of_compacted (le_of_lt hs.valid.used_lt) hslots
    (length_renumber ..) hits'
  have hlisted : u.ht.Listed hash := by
    refine hs.valid.toListed.renumbered hentries ?_ ?_ ?_ ?_
    · rw [hht]
      exact hle
    · rw [hht]
    · rw [hht]
    · rw [hht]
      exact hp
  refine ⟨⟨⟨hlisted, ?_, ?_, ?_, ?_⟩, ?_, hcarried.standing hs.standing⟩, hcarried, ?_, ?_⟩
  · intro _ i e hi
    rw [hslots, List.getElem?_map, Option.map_eq_some_iff] at hi
    obtain ⟨e', he', heq⟩ := hi
    cases heq
    obtain ⟨hk, hh⟩ := getElem?_renumber hkeys he'
    exact ⟨hk, by omega⟩
  · intro _
    rw [hht]
    exact hs.valid.unlinked hpacked
  · intro hp'
    rw [hht] at hp'
    exact absurd (hp'.symm.trans hpacked) Bool.noConfusion
  · intro hinit
    rw [hht] at hinit
    exact absurd ((hs.valid.fresh hinit).1.symm.trans hpacked) Bool.noConfusion
  · exact hcarried.counted hs.counted (by rw [hht])
  · rw [← hentries, hht]
    rfl
  · rw [hints, ← hlen]

/-- The same for a table in the hash layout. -/
theorem reindex_hash (hs : s.Sound self hash) (hpacked : s.ht.packed = false)
    (hhole : 0 < s.ht.nNumUsed → s.ht.live 0 = false) :
    (s.reindex self).Sound self hash ∧ Carried self id s (s.reindex self) ∧
      (s.reindex self).ht.entries = renumber 0 s.ht.entries ∧
      (s.reindex self).ht.nNextFreeElement = ints s.ht.entries := by
  have hstart : Renumbering s.ht 0 0 false s.ht :=
    ⟨rfl, rfl, fun _ _ => rfl, rfl, fun _ => rfl, nofun⟩
  have htable := renumberFrom_table (zero_add _) hstart
  rw [State.reindex, if_neg (by rw [hpacked]; exact Bool.false_ne_true)]
  generalize renumberFrom s.ht.nNumUsed 0 0 false s.ht = r at htable ⊢
  obtain ⟨ht, k, changed⟩ := r
  obtain ⟨hrest, hdone, -, hcount, hsame, hpos⟩ := htable
  rw [← length_slots, List.take_length] at hdone hcount
  dsimp only at hrest hdone hcount hsame ⊢
  have hslots : ({ ht with nNextFreeElement := k } : HashTable K V).slots
      = renumberSlots 0 s.ht.slots := by
    rw [hrest, ← hdone, length_slots]
    rfl
  have hentries : ({ ht with nNextFreeElement := k } : HashTable K V).entries
      = renumber 0 s.ht.entries := by
    rw [entries, hslots, reduceOption_renumberSlots]
    rfl
  have hstands : ∀ p, s.ht.Stands p →
      ({ ht with nNextFreeElement := k } : HashTable K V).Stands p := by
    intro p hp
    rw [HashTable.Stands, hslots, occupied_renumberSlots]
    exact hp
  have hcarried : Carried self id s { s with ht := { ht with nNextFreeElement := k } } := by
    refine ⟨id, (relocate_id ..).symm, fun it _ _ hp => ⟨hstands _ hp, ?_⟩⟩
    rw [ordinal]
    rw [hslots, rank_renumberSlots]
    rfl
  have hlisted : ({ ht with nNextFreeElement := k } : HashTable K V).Listed hash := by
    refine hs.valid.toListed.renumbered hentries ?_ ?_ ?_ ?_
    · rw [hrest]
    · rw [hrest]
    · rw [hrest]
    · refine hstands _ ?_
      rw [hrest]
      exact hs.valid.stands
  cases changed with
  | false =>
    have hht : ht = s.ht := by rw [hrest, hsame rfl]
    refine ⟨⟨?_, ?_, hcarried.standing hs.standing⟩, hcarried, hentries, ?_⟩
    · rw [hht]
      exact hs.valid.freed k
    · refine hcarried.counted hs.counted ?_
      rw [hht]
    · rw [hcount]
      rfl
  | true =>
    rw [if_pos rfl]
    have hinit : s.ht.initialized = true := by
      by_contra hinit
      have hused := (hs.valid.fresh (Bool.not_eq_true _ ▸ hinit)).2
      have hlt := hpos rfl
      omega
    obtain ⟨hchaining, -, -, hfollows⟩ :=
      rehash_spec (s := { s with ht := { ht with nNextFreeElement := k } }) self hlisted
        (by rw [hrest]; exact hpacked) (by rw [hrest]; exact hinit)
    have hclear : ¬ State.Straddled self
        ({ s with ht := { ht with nNextFreeElement := k } } : State K V) := by
      refine not_straddled_of_hole fun h0 => ?_
      by_contra hlive
      rw [Bool.not_eq_false] at hlive
      have hocc := occupied_slots.mpr ⟨h0, hlive⟩
      rw [hslots, occupied_renumberSlots, occupied_slots] at hocc
      rw [hhole hocc.1] at hocc
      exact Bool.false_ne_true hocc.2
    have hcounted := hcarried.counted hs.counted (by rw [hrest])
    have hstanding := hcarried.standing hs.standing
    have hcarried' : Carried self id _ _ :=
      hfollows.carried hcounted hstanding hclear fun n hn => by
        rw [id, id, id, List.length_drop]
        omega
    refine ⟨⟨hchaining.toValid, hfollows.counted hcounted hstanding hclear,
      hfollows.standing hcounted hstanding hclear⟩, hcarried.trans hcarried', ?_, ?_⟩
    · exact hfollows.entries.trans hentries
    · rw [hfollows.free, hcount]
      rfl

/-- The next index after the elements have been numbered anew. -/
theorem numbered_of_renumber (hs : s.Sound self hash)
    (hentries : s.ht.entries = renumber 0 xs) (hfree : s.ht.nNextFreeElement = ints xs) :
    s.Numbered self hash := by
  have hle := ints_le xs
  have hcount := hs.valid.count
  have helements := hs.valid.toListed.elements_le
  have hused := hs.valid.used_lt
  have hmax : HT_INVALID_IDX < ZEND_LONG_MAX := by decide
  rw [hentries, length_renumber] at hcount
  refine ⟨hs, ?_, ?_, fun h hmem => ?_⟩
  · omega
  · omega
  · rw [names, hentries, inr_mem_renumber] at hmem
    left
    rw [toLong]
    omega

/-- The elements behind a hole, numbered anew. -/
theorem reindex_spec (hs : s.Sound self hash) (hhole : 0 < s.ht.nNumUsed → s.ht.live 0 = false) :
    ((s.reindex self).seek self .internalPointerReset).Numbered self hash ∧
      Carried self id s ((s.reindex self).seek self .internalPointerReset) ∧
      (s.reindex self).ht.entries = renumber 0 s.ht.entries := by
  by_cases hpacked : s.ht.packed = true
  · obtain ⟨hsound, hcarried, hentries, hfree⟩ := reindex_packed hs hpacked hhole
    exact ⟨numbered_of_renumber hsound hentries hfree, hcarried, hentries⟩
  · rw [Bool.not_eq_true] at hpacked
    obtain ⟨hsound, hcarried, hentries, hfree⟩ := reindex_hash hs hpacked hhole
    exact ⟨(numbered_of_renumber hsound hentries hfree).seek trivial,
      hcarried.trans (.of_slots rfl rfl), hentries⟩

/-! ## Taking the first element -/

/-- The first element of a table. -/
theorem nextFrom_first (hv : ht.Valid hash) (hne : ht.nNumOfElements ≠ 0) :
    ∃ e, ht.slots[ht.nextFrom ht.nNumUsed 0]? = some (some e) ∧
      ht.entries = e :: ht.entries.tail ∧ ∀ k < ht.nextFrom ht.nNumUsed 0, ht.live k = false := by
  have hused := hv.used_lt
  obtain ⟨hres, hdead⟩ := nextFrom_spec ht ht.nNumUsed 0
  rw [Nat.zero_add] at hres
  rcases hres with hend | ⟨-, hlt, hlive⟩
  · refine absurd ?_ hne
    rw [hv.count, List.length_eq_zero_iff, ← HashTable.visit_zero, HashTable.visit,
      visit_eq_of_holes (Nat.zero_le ht.nNumUsed), visit_of_le (Nat.le_of_eq ht.length_slots)]
    intro k _ hk hocc
    rw [occupied_slots, hdead k (Nat.zero_le k) (by omega) (by omega)] at hocc
    exact Bool.false_ne_true hocc.2
  · obtain ⟨e, he⟩ := occupied_slots.mpr ⟨hlt, hlive⟩
    have hbefore : ∀ k < ht.nextFrom ht.nNumUsed 0, ht.live k = false :=
      fun k hk => hdead k (Nat.zero_le k) (by omega) hk
    have hfirst : ht.entries = e :: SlotList.visit ht.slots (ht.nextFrom ht.nNumUsed 0 + 1) := by
      rw [← visit_of_getElem? he, ← HashTable.visit_zero]
      refine visit_eq_of_holes (Nat.zero_le _) fun k _ hk hocc => ?_
      rw [occupied_slots, hbefore k hk] at hocc
      exact Bool.false_ne_true hocc.2
    exact ⟨e, he, by rw [hfirst]; rfl, hbefore⟩

section

variable [DecidableEq K]

/-- The first bucket is a hole when the first element is deleted. -/
theorem delBucket_hole (hv : s.ht.Valid hash) (hi : s.ht.slots[i]? = some (some e))
    (hbefore : ∀ k < i, s.ht.live k = false)
    (h0 : 0 < (s.delBucket self hash (s.ht.arData i)).ht.nNumUsed) :
    (s.delBucket self hash (s.ht.arData i)).ht.live 0 = false := by
  obtain ⟨prev, -, heq⟩ := delBucket_eq self hv hi
  rw [heq] at h0 ⊢
  by_contra hlive
  rw [Bool.not_eq_false] at hlive
  have hocc := occupied_slots.mpr ⟨h0, hlive⟩
  obtain ⟨e', he'⟩ := occupied_append_replicate.mpr hocc
  rw [← slots_delElEx, List.getElem?_set] at he'
  split_ifs at he' with hi0
  · cases he'
  · have hlive0 := (occupied_slots.mp ⟨e', he'⟩).2
    rw [hbefore 0 (by omega)] at hlive0
    exact Bool.false_ne_true hlive0

/-- The first element is taken out of the beginning of a list. -/
theorem length_without_first {l : List (Entry K V)} (h : ((e :: l).map Entry.name).Nodup)
    (k : ℕ) (hk : k ≤ (e :: l).length) :
    (without e.name (e :: l)).length = k - 1 + (without e.name ((e :: l).drop k)).length := by
  have hfirst : without e.name (e :: l) = l := without_middle (u := []) h
  cases k with
  | zero => exact (zero_add _).symm
  | succ k =>
    have hrest : without e.name ((e :: l).drop (k + 1)) = l.drop k := by
      refine without_eq_self fun hmem => (List.nodup_cons.mp h).1 ?_
      exact ((List.drop_sublist k l).map _).subset hmem
    rw [List.length_cons] at hk
    rw [hfirst, hrest, List.length_drop]
    omega

/-- **`array_shift`** takes the first element and numbers the others anew. -/
theorem arrayShift_spec (hs : s.Numbered self hash) :
    (s.arrayShift self hash).1.Numbered self hash ∧
      Carried self (· - 1) s (s.arrayShift self hash).1 ∧
      (s.arrayShift self hash).1.ht.entries = renumber 0 s.ht.entries.tail ∧
      (s.arrayShift self hash).2 = returnedOf s.ht.entries.head? := by
  rw [State.arrayShift]
  by_cases hzero : s.ht.nNumOfElements = 0
  · rw [if_pos hzero]
    have hnil : s.ht.entries = [] := by
      rw [← List.length_eq_zero_iff, ← hs.valid.count, hzero]
    refine ⟨hs, ?_, by rw [hnil]; rfl, by rw [hnil]; rfl⟩
    refine (Carried.of_slots rfl rfl).congr fun n hn => ?_
    rw [hnil] at hn
    rw [Nat.le_zero.mp hn]
    rfl
  obtain ⟨e, he, hsplit, hbefore⟩ := nextFrom_first hs.valid hzero
  have hlt := (entry_of_slot he).1
  have hused := hs.valid.used_lt
  rw [if_neg hzero]
  dsimp only
  rw [if_neg (by omega), returned_of_slot he]
  obtain ⟨hvalid, hfollows⟩ := delBucket_spec self hs.valid he
  have hnodup := hs.valid.nodup
  rw [hsplit] at hnodup
  have ht := hfollows.sound hs.toSound hvalid trivial
  have hcarried : Carried self (· - 1) s _ :=
    hfollows.carried hs.counted hs.standing trivial fun k hk => by
      rw [hsplit] at hk ⊢
      exact length_without_first hnodup k hk
  have hentries : _ = s.ht.entries.tail := hfollows.entries.trans <| by
    rw [hsplit]
    exact without_middle (u := []) hnodup
  obtain ⟨hnumbered, hcarried', hentries'⟩ := reindex_spec ht (delBucket_hole hs.valid he hbefore)
  rw [hentries] at hentries'
  refine ⟨hnumbered, hcarried.trans hcarried', hentries', ?_⟩
  rw [hsplit]
  rfl

end

end ZendHash
