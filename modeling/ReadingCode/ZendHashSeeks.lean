/-
# Deleting elements

A deleted element is taken out of its chain and leaves a hole; if it was the last one the holes
at the end go.  The positions at it go to the next element.  Cleaning a table deletes all
elements, but leaves the iterators where they are.
-/
import ReadingCode.ZendHashInsertion

open SlotList

namespace ZendHash

open ZendHash.HashTable

open List Function

variable {K V : Type} {hash : K → ℕ} {self : ℕ} {junk : ℕ → Bucket K V}
  {s s' : State K V} {ht : HashTable K V} {a : ℕ → Bucket K V} {i n idx : ℕ}
  {prev : Option ℕ} {e : Entry K V}

/-! ## The loops -/

theorem trimUsed_le (a : ℕ → Bucket K V) (n : ℕ) : trimUsed a n ≤ n := by
  induction n with
  | zero => exact le_rfl
  | succ n ih =>
    rw [trimUsed]
    split_ifs
    · exact Nat.le_succ_of_le ih
    · exact le_rfl

theorem trimUsed_holes : ∀ k, trimUsed a n ≤ k → k < n → (a k).val = none := by
  induction n with
  | zero =>
    intro k _ hk
    exact absurd hk (Nat.not_lt_zero k)
  | succ n ih =>
    intro k hle hk
    rw [trimUsed] at hle
    split_ifs at hle with hnone
    · rcases Nat.lt_succ_iff_lt_or_eq.mp hk with hk | rfl
      · exact ih k hle hk
      · exact Option.isNone_iff_eq_none.mp hnone
    · omega

theorem nextFrom_spec (ht : HashTable K V) (n i : ℕ) : (ht.nextFrom n i = HT_INVALID_IDX ∨
      i ≤ ht.nextFrom n i ∧ ht.nextFrom n i < i + n ∧ ht.live (ht.nextFrom n i) = true) ∧
    ∀ k, i ≤ k → k < i + n → k < ht.nextFrom n i → ht.live k = false := by
  induction n generalizing i with
  | zero =>
    refine ⟨.inl rfl, fun k hk hlt _ => ?_⟩
    omega
  | succ n ih =>
    rw [nextFrom]
    by_cases hlive : ht.live i = true
    · rw [if_pos hlive]
      refine ⟨.inr ⟨le_rfl, by omega, hlive⟩, fun k hk _ hlt => ?_⟩
      omega
    · rw [if_neg hlive]
      obtain ⟨hres, hnone⟩ := ih (i + 1)
      refine ⟨?_, fun k hk hlt hq => ?_⟩
      · rcases hres with hres | ⟨hle, hlt, hl⟩
        · exact .inl hres
        · exact .inr ⟨by omega, by omega, hl⟩
      · rcases lt_or_ge i k with hik | hik
        · exact hnone k hik (by omega) hq
        · rw [le_antisymm hik hk]
          exact Bool.not_eq_true _ ▸ hlive

/-! ## One element -/

/-- Taking a bucket out of its chain leaves the elements. -/
theorem entry_unlink (ht : HashTable K V) (idx : ℕ) (prev : Option ℕ) (k : ℕ) :
    ((ht.unlink idx prev).arData k).entry = (ht.arData k).entry := by
  cases prev with
  | none => rfl
  | some p =>
    by_cases hk : k = p
    · subst hk
      rw [unlink]
      dsimp only
      rw [update_self]
      rfl
    · rw [unlink]
      dsimp only
      rw [update_of_ne hk]

/-- The table without the bucket in a chain. -/
def HashTable.unchained (ht : HashTable K V) (idx : ℕ) (prev : Option ℕ) : HashTable K V :=
  if ht.packed then ht else ht.unlink idx prev

/-- The buckets in use afterwards. -/
def usedAfter (ht : HashTable K V) (idx : ℕ) : ℕ :=
  if ht.nNumUsed - 1 = idx then trimUsed ht.arData (ht.nNumUsed - 1) else ht.nNumUsed

/-- The table with one element less, where the bucket is still there. -/
def HashTable.lessOne (ht : HashTable K V) (idx : ℕ) : HashTable K V :=
  { ht with nNumUsed := usedAfter ht idx, nNumOfElements := ht.nNumOfElements - 1 }

/-- The index after `idx`. -/
def indexAfter (ht : HashTable K V) (idx : ℕ) : ℕ :=
  (ht.lessOne idx).nextFrom (usedAfter ht idx - (idx + 1)) (idx + 1)

theorem delElEx_eq (s : State K V) (idx : ℕ) (prev : Option ℕ) : s.delElEx self idx prev =
      let ht := (s.ht.unchained idx prev).lessOne idx
      let q := indexAfter (s.ht.unchained idx prev) idx
      let t : State K V :=
        if ht.nInternalPointer = idx ∨ ht.nIteratorsCount ≠ 0 then
          State.iteratorsUpdate self { s with
            ht := { ht with
              nInternalPointer := if ht.nInternalPointer = idx then q else ht.nInternalPointer } }
            idx q
        else { s with ht := ht }
      { t with ht := t.ht.setVal idx none } := rfl

/-- The table afterwards. -/
theorem ht_delElEx (self : ℕ) (s : State K V) (idx : ℕ) (prev : Option ℕ) :
    (s.delElEx self idx prev).ht = { (s.ht.unchained idx prev).setVal idx none with
      nNumUsed := usedAfter (s.ht.unchained idx prev) idx
      nNumOfElements := (s.ht.unchained idx prev).nNumOfElements - 1
      nInternalPointer := skip idx (indexAfter (s.ht.unchained idx prev) idx)
        (s.ht.unchained idx prev).nInternalPointer } := by
  rw [delElEx_eq]
  dsimp only
  generalize s.ht.unchained idx prev = ht
  by_cases hpatch : (ht.lessOne idx).nInternalPointer = idx ∨ (ht.lessOne idx).nIteratorsCount ≠ 0
  · rw [if_pos hpatch, State.ht_iteratorsUpdate]
    rfl
  · have hp : ht.nInternalPointer ≠ idx := fun h => hpatch (.inl h)
    rw [if_neg hpatch, skip, if_neg hp]
    rfl

theorem iterators_delElEx (hc : s.Counted self) (idx : ℕ) (prev : Option ℕ) :
    (s.delElEx self idx prev).iterators
      = relocate self (skip idx (indexAfter (s.ht.unchained idx prev) idx)) s.iterators := by
  have hcount : (s.ht.unchained idx prev).nIteratorsCount = s.ht.nIteratorsCount := by
    rw [unchained]
    split_ifs
    · rfl
    · cases prev <;> rfl
  rw [State.Counted, ← hcount] at hc
  rw [delElEx_eq]
  dsimp only
  generalize s.ht.unchained idx prev = ht at hc hcount
  by_cases hpatch : (ht.lessOne idx).nInternalPointer = idx ∨ (ht.lessOne idx).nIteratorsCount ≠ 0
  · rw [if_pos hpatch]
    refine State.iterators_iteratorsUpdate ?_ _ _
    exact hc
  · rw [if_neg hpatch]
    symm
    apply relocate_eq_self
    intro it hit hself
    have hc' : ({ s with ht := ht } : State K V).Counted self := hc
    exact absurd (hc'.ne_zero hit hself) fun h => hpatch (.inr h)

theorem usedAfter_le (ht : HashTable K V) (idx : ℕ) : usedAfter ht idx ≤ ht.nNumUsed := by
  rw [usedAfter]
  split_ifs
  · exact le_trans (trimUsed_le ..) (Nat.sub_le ..)
  · exact le_rfl

/-- Only holes go at the end. -/
theorem usedAfter_holes (ht : HashTable K V) (idx : ℕ) :
    ∀ k, usedAfter ht idx ≤ k → k < ht.nNumUsed → k = idx ∨ (ht.arData k).val = none := by
  intro k hk hlt
  rw [usedAfter] at hk
  split_ifs at hk with hlast
  · by_cases hki : k = idx
    · exact .inl hki
    · exact .inr (trimUsed_holes k hk (by omega))
  · omega

/-- If a bucket behind `idx` is in use no longer, none behind it was. -/
theorem usedAfter_last {k : ℕ} (hk : usedAfter ht idx ≤ k) (hlt : k < ht.nNumUsed) : k ≤ idx := by
  rw [usedAfter] at hk
  split_ifs at hk with hlast
  · omega
  · omega

/-- What is known of the bucket that is deleted: the search has come to it through its
chain. -/
def Found (ht : HashTable K V) (idx : ℕ) (prev : Option ℕ) : Prop :=
  ht.packed = false → ∃ u w, prev = lastOr none u ∧
    chainList ht.nTableMask ht.arData ht.nNumUsed (ht.nIndex (ht.arData idx).h) = u ++ idx :: w

theorem unchained_fields (ht : HashTable K V) (idx : ℕ) (prev : Option ℕ) :
    ht.unchained idx prev = { ht with
      arData := (ht.unchained idx prev).arData, hash := (ht.unchained idx prev).hash } := by
  rw [unchained]
  split_ifs
  · rfl
  · cases prev <;> rfl

theorem entry_unchained (ht : HashTable K V) (idx : ℕ) (prev : Option ℕ) (k : ℕ) :
    ((ht.unchained idx prev).arData k).entry = (ht.arData k).entry := by
  rw [unchained]
  split_ifs
  · rfl
  · exact entry_unlink ht idx prev k

theorem next_indexAfter (ht : HashTable K V) (idx : ℕ) (prev : Option ℕ) :
    ht.Next idx (indexAfter (ht.unchained idx prev) idx) := by
  have hlive : ∀ k, ((ht.unchained idx prev).lessOne idx).live k = ht.live k := by
    intro k
    rw [live, live, ← isSome_entry, ← isSome_entry]
    exact congrArg Option.isSome (entry_unchained ht idx prev k)
  have hfields : (ht.unchained idx prev).nNumUsed = ht.nNumUsed := by rw [unchained_fields]
  have hle := usedAfter_le (ht.unchained idx prev) idx
  obtain ⟨hres, hnone⟩ := nextFrom_spec ((ht.unchained idx prev).lessOne idx)
    (usedAfter (ht.unchained idx prev) idx - (idx + 1)) (idx + 1)
  refine ⟨?_, fun k hk hkq hocc => ?_⟩
  · rcases hres with hres | ⟨hge, hlt, hq⟩
    · exact .inl hres
    · right
      rw [hlive] at hq
      exact ⟨hge, occupied_slots.mpr ⟨by rw [indexAfter]; omega, hq⟩⟩
  · obtain ⟨hkn, hkl⟩ := occupied_slots.mp hocc
    rcases lt_or_ge k (usedAfter (ht.unchained idx prev) idx) with hku | hku
    · have hdead := hnone k hk (by omega) hkq
      rw [hlive, hkl] at hdead
      cases hdead
    · have hlast := usedAfter_last hku (by rw [hfields]; exact hkn)
      omega

/-- The slots afterwards, and the holes that have gone. -/
theorem slots_delElEx (self : ℕ) (s : State K V) (idx : ℕ) (prev : Option ℕ) :
    s.ht.slots.set idx none = (s.delElEx self idx prev).ht.slots
      ++ replicate (s.ht.nNumUsed - usedAfter (s.ht.unchained idx prev) idx) none := by
  have hht := ht_delElEx self s idx prev
  have hused : (s.ht.unchained idx prev).nNumUsed = s.ht.nNumUsed := by rw [unchained_fields]
  have hle := usedAfter_le (s.ht.unchained idx prev) idx
  rw [hused] at hle
  rw [hht, slots, slots]
  rw [← cells_of_holes hle ?_, setVal, cells_update]
  · congr 1
    exact cells_congr fun k _ => (entry_unchained s.ht idx prev k).symm
  · intro k hk hkn
    rw [setVal]
    dsimp only
    by_cases hki : k = idx
    · rw [hki, update_self]
    · rw [update_of_ne hki]
      rcases usedAfter_holes _ _ k hk (by rw [hused]; exact hkn) with h | h
      · exact absurd h hki
      · exact h

section

variable [DecidableEq K]

theorem delElEx_spec (hv : s.ht.Valid hash) (hi : s.ht.slots[idx]? = some (some e))
    (hfound : Found s.ht idx prev) : (s.delElEx self idx prev).ht.Valid hash ∧
      Follows self (without e.name) id True s (s.delElEx self idx prev) := by
  have hlt : idx < s.ht.nNumUsed := by
    have hlen := (List.getElem?_eq_some_iff.mp hi).1
    rwa [length_slots] at hlen
  have hht := ht_delElEx self s idx prev
  have hfields := unchained_fields s.ht idx prev
  have hused : (s.ht.unchained idx prev).nNumUsed = s.ht.nNumUsed := by rw [hfields]
  have hle := usedAfter_le (s.ht.unchained idx prev) idx
  rw [hused] at hle
  have hslots := slots_delElEx self s idx prev
  have hmoves := moves_without hv.toListed hi (next_indexAfter s.ht idx prev) hslots
    (by rw [hht, hfields]) (by rw [hht, setVal, hfields])
  have hlisted : (s.delElEx self idx prev).ht.Listed hash := by
    refine hv.toListed.without (mem_entries_of_slot hi) ?_ ?_ hmoves ?_
    · rw [hht]
      exact hle
    · rw [hht, setVal, hfields]
    · rw [hht, hfields]
  have hpacked : (s.delElEx self idx prev).ht.packed = s.ht.packed := by
    rw [hht, setVal, hfields]
  refine ⟨⟨hlisted, ?_, ?_, ?_, ?_⟩, ?_, _, hmoves, fun hc _ _ => iterators_delElEx hc idx prev⟩
  · intro hp k e' hk
    rw [hpacked] at hp
    -- an element that is left is where it was
    have hset : (s.ht.slots.set idx none)[k]? = some (some e') := by
      rw [hslots, getElem?_append_left (List.getElem?_eq_some_iff.mp hk).1, hk]
    rw [getElem?_set] at hset
    split_ifs at hset with hki
    · cases hset
    · exact hv.indexed hp k e' hset
  · intro hp
    rw [hpacked] at hp
    rw [hht, unchained, if_pos hp]
    exact hv.unlinked hp
  · intro hp
    rw [hpacked] at hp
    obtain ⟨u, w, rfl, hchain⟩ := hfound hp
    have hunchained : s.ht.unchained idx (lastOr none u) = s.ht.unlink idx (lastOr none u) := by
      rw [unchained, if_neg (by rw [hp]; exact Bool.false_ne_true)]
    have hchained := chained_unlink (hv.chained hp) hchain
    rw [hunchained] at hht hle hused
    have hmask : (s.delElEx self idx (lastOr none u)).ht.nTableMask = s.ht.nTableMask := by
      rw [hht, setVal, ← hunchained, hfields]
    rw [hmask, hht]
    refine hchained.trim hle fun k hk hkn => ?_
    rw [setVal]
    dsimp only
    by_cases hki : k = idx
    · rw [hki, update_self]
      rfl
    · rw [update_of_ne hki]
      rcases usedAfter_holes _ _ k hk (by rw [hused]; exact hkn) with h | h
      · exact absurd h hki
      · rw [h]
        rfl
  · intro hinit
    rw [hht, hfields] at hinit
    have hzero := (hv.fresh hinit).2
    omega
  · rw [hht, hfields]
    rfl

theorem without_of_notMem {x : K ⊕ ℕ} (hx : x ∉ ht.names) : without x ht.entries = ht.entries :=
  without_eq_self hx

/-- A key that is not there: nothing is done, and nothing would have to be. -/
theorem follows_without {ok : Prop} {x : K ⊕ ℕ} (hx : x ∉ s.ht.names) :
    Follows self (without x) id ok s s := by
  refine ⟨rfl, id, ⟨(without_of_notMem hx).symm, rfl, rfl, fun _ h => h, fun p _ => ?_⟩,
    fun _ _ _ => (relocate_id ..).symm⟩
  symm
  apply without_eq_self
  intro hmem
  obtain ⟨e, he, hname⟩ := mem_map.mp hmem
  have hsub : (s.ht.visit p).Sublist s.ht.entries :=
    List.Sublist.filterMap _ (drop_sublist ..)
  exact hx (hname ▸ mem_map_of_mem (hsub.subset he))

theorem del_spec (self : ℕ) (hv : s.ht.Valid hash) (k : K) : (s.del self hash k).1.ht.Valid hash ∧
      Follows self (without (.inl k)) id True s (s.del self hash k).1 := by
  by_cases hpacked : s.ht.packed = true
  · -- no bucket of a packed table is in a chain
    have hsearch : s.ht.search (isKey k (hash k)) (hash k) = none := by
      rw [search, walk, if_pos (hv.unlinked hpacked _)]
    have hmem : .inl k ∉ s.ht.names := by
      rw [slot_of_packed hv hpacked]
      rintro ⟨i, hi, -⟩
      cases hi
    rw [State.del, hsearch]
    exact ⟨hv, follows_without hmem⟩
  · rw [Bool.not_eq_true] at hpacked
    rcases search_key hv hpacked k with ⟨hnone, hmem⟩ | ⟨i, u, w, e, hsome, hi, hname, hchain⟩
    · rw [State.del, hnone]
      exact ⟨hv, follows_without hmem⟩
    · rw [State.del, hsome, ← hname]
      exact delElEx_spec hv hi fun _ => ⟨u, w, rfl, hchain⟩

theorem indexDel_spec (self : ℕ) (hv : s.ht.Valid hash) (h : ℕ) :
    (s.indexDel self h).1.ht.Valid hash ∧
      Follows self (without (.inr h)) id True s (s.indexDel self h).1 := by
  rw [State.indexDel]
  by_cases hpacked : s.ht.packed = true
  · rw [if_pos hpacked]
    by_cases hlive : h < s.ht.nNumUsed ∧ s.ht.live h = true
    · rw [if_pos hlive]
      obtain ⟨e, he⟩ := occupied_slots.mpr hlive
      rw [← name_eq_inr.mpr (hv.indexed hpacked h e he)]
      refine delElEx_spec hv he fun hp => ?_
      exact absurd (hpacked.symm.trans hp) Bool.noConfusion
    · rw [if_neg hlive]
      refine ⟨hv, follows_without ?_⟩
      rw [slot_of_packed hv hpacked]
      rintro ⟨i, hi, hlive'⟩
      cases hi
      exact hlive hlive'
  · rw [if_neg hpacked]
    rw [Bool.not_eq_true] at hpacked
    rcases search_index hv hpacked h with ⟨hnone, hmem⟩ | ⟨i, u, w, e, hsome, hi, hname, hchain⟩
    · rw [hnone]
      exact ⟨hv, follows_without hmem⟩
    · rw [hsome, ← hname]
      exact delElEx_spec hv hi fun _ => ⟨u, w, rfl, hchain⟩

end

/-! ## All elements -/

theorem clean_spec (self : ℕ) (hv : s.ht.Valid hash) : s.ht.clean.Valid hash ∧
      Follows self (fun _ => []) (fun _ => 0)
        (∀ it ∈ s.iterators, it.ht = some self → it.pos = HT_INVALID_IDX) s
        { s with ht := s.ht.clean } := by
  have hht : s.ht.clean = { s.ht with
      hash := s.ht.clean.hash, nNumUsed := 0, nNumOfElements := 0, nNextFreeElement := 0
      nInternalPointer := HT_INVALID_IDX } := by
    rw [clean]
    split_ifs <;> rfl
  have hused : s.ht.clean.nNumUsed = 0 := by rw [hht]
  have hpacked : s.ht.clean.packed = s.ht.packed := by rw [hht]
  have hvisit : ∀ p, s.ht.clean.visit p = [] := by
    intro p
    exact visit_of_le (Nat.zero_le p)
  refine ⟨⟨⟨?_, ?_, ?_, ?_, ?_, ?_, ?_⟩, ?_, ?_, ?_, ?_⟩, ?_, fun _ => HT_INVALID_IDX,
    ⟨hvisit 0, ?_, ?_, fun _ _ => .inl rfl, fun _ _ => hvisit _⟩, fun _ _ hits => ?_⟩
  · rw [hht]
    exact hv.size_pos
  · exact Nat.zero_le _
  · rw [hht]
    exact hv.size_lt
  · rfl
  · exact nodup_nil
  · intro e he
    exact absurd he not_mem_nil
  · exact .inl rfl
  · intro _ k e hk
    cases hk
  · intro hp n
    rw [hpacked] at hp
    rw [clean, if_neg fun h => by rw [hp] at h; exact Bool.noConfusion h.2]
    exact hv.unlinked hp n
  · intro hp
    rw [hpacked] at hp
    by_cases hzero : s.ht.nNumUsed = 0
    · have hchained := hv.chained hp
      rw [hzero] at hchained
      rw [clean, if_neg fun h => h.1 hzero]
      exact hchained
    · rw [clean, if_pos ⟨hzero, hp⟩]
      exact fun _ => rfl
  · intro hinit
    refine ⟨?_, hused⟩
    rw [hpacked]
    rw [hht] at hinit
    exact (hv.fresh hinit).1
  · rw [hht]
  · rw [hht]
  · rw [hht]
  · symm
    apply relocate_eq_self
    intro it hit hself
    exact (hits it hit hself).symm

/-! ## More room -/

theorem or_shift_bounds {m k : ℕ} (hm : m ≤ n) (hn : n < 2 ^ 31) :
    m ≤ n ||| n >>> k ∧ n ||| n >>> k < 2 ^ 31 := by
  have hshift : n >>> k ≤ n := by
    rw [Nat.shiftRight_eq_div_pow]
    exact Nat.div_le_self ..
  exact ⟨le_trans hm Nat.left_le_or, Nat.or_lt_two_pow hn (lt_of_le_of_lt hshift hn)⟩

variable {it : HashTableIterator} {nSize : ℕ}

/-- A size is rounded up, and stays below the largest index. -/
theorem checkSize_spec {size : ℕ} (h : checkSize nSize = some size) :
    0 < size ∧ nSize ≤ size ∧ size < HT_INVALID_IDX := by
  rw [checkSize] at h
  by_cases hmax : HT_MAX_SIZE ≤ nSize
  · rw [if_pos hmax] at h
    cases h
  · rw [if_neg hmax] at h
    have hmax' : nSize < 2 ^ 31 := not_le.mp hmax
    have hstart : nSize - 1 ≤ (if nSize < HT_MIN_SIZE then HT_MIN_SIZE else nSize) - 1 ∧
        (if nSize < HT_MIN_SIZE then HT_MIN_SIZE else nSize) - 1 < 2 ^ 31 := by
      have hmin : HT_MIN_SIZE = 8 := rfl
      split_ifs
      · omega
      · omega
    have h1 := or_shift_bounds (k := 1) hstart.1 hstart.2
    have h2 := or_shift_bounds (k := 2) h1.1 h1.2
    have h4 := or_shift_bounds (k := 4) h2.1 h2.2
    have h8 := or_shift_bounds (k := 8) h4.1 h4.2
    have h16 := or_shift_bounds (k := 16) h8.1 h8.2
    have hinv : HT_INVALID_IDX = 4294967295 := rfl
    cases h
    omega

/-- Whether `zend_hash_extend` rehashes the table. -/
def State.ExtendRehashes (s : State K V) (nSize : ℕ) : Prop :=
  s.ht.initialized = true ∧ s.ht.packed = false ∧ s.ht.nTableSize < nSize

/-- The size of a table without memory may be set. -/
theorem sized_valid {size : ℕ} (hv : ht.Valid hash) (hpos : 0 < size)
    (hle : ht.nNumUsed ≤ size) (hlt : size < HT_INVALID_IDX) :
    ({ ht with nTableSize := size } : HashTable K V).Valid hash :=
  ⟨hv.toListed.of_slots rfl hpos hle hlt rfl rfl, hv.indexed, hv.unlinked, hv.chained, hv.fresh⟩

theorem realInit_spec (self : ℕ) (junk : ℕ → Bucket K V) (ok : Prop) (hv : s.ht.Valid hash)
    (hfresh : s.ht.initialized = false) (packed : Bool) : (s.ht.realInit packed junk).Valid hash ∧
      Follows self id id ok s { s with ht := s.ht.realInit packed junk } := by
  refine ⟨?_, realInit_follows hv hfresh packed⟩
  cases packed
  · exact (realInit_hash hv hfresh).toValid
  · exact realInit_packed hv hfresh

theorem extend_spec {packed : Bool} (hv : s.ht.Valid hash)
    (hlayout : s.ht.initialized = true → packed = s.ht.packed)
    (h : s.extend self junk nSize packed = some s') :
    s'.ht.Valid hash ∧ Follows self id id (s.ExtendRehashes nSize → ¬ s.Straddled self) s s' := by
  have hused := hv.used_le
  rw [State.extend] at h
  by_cases hzero : nSize = 0
  · rw [if_pos hzero] at h
    cases h
    exact ⟨hv, .refl s⟩
  rw [if_neg hzero] at h
  by_cases hinit : s.ht.initialized = false
  · rw [if_pos hinit] at h
    by_cases hsize : s.ht.nTableSize < nSize
    · rw [if_pos hsize] at h
      obtain ⟨size, hcheck, h⟩ := Option.map_eq_some_iff.mp h
      obtain ⟨hpos, hle, hlt⟩ := checkSize_spec hcheck
      cases h
      have hsized := sized_valid hv hpos (by omega) hlt
      obtain ⟨hvalid, hfollows⟩ := realInit_spec
        (s := { s with ht := { s.ht with nTableSize := size } }) self junk True hsized hinit packed
      have hfirst : Follows self id id
          (s.ExtendRehashes nSize → ¬ s.Straddled self) s
          { s with ht := { s.ht with nTableSize := size } } :=
        Follows.of_slots rfl rfl rfl rfl
      exact ⟨hvalid, hfirst.trans hfollows fun _ => trivial⟩
    · rw [if_neg hsize] at h
      cases h
      exact realInit_spec self junk _ hv hinit packed
  rw [if_neg hinit] at h
  rw [Bool.not_eq_false] at hinit
  have hlayout' := hlayout hinit
  by_cases hsize : s.ht.nTableSize < nSize
  · rw [if_pos hsize] at h
    obtain ⟨size, hcheck, h⟩ := Option.map_eq_some_iff.mp h
    obtain ⟨hpos, hle, hlt⟩ := checkSize_spec hcheck
    by_cases hpacked : s.ht.packed = true
    · rw [hlayout', if_pos hpacked] at h
      cases h
      have hslots : slots { s.ht with
          nTableSize := size, arData := realloc junk s.ht.nNumUsed s.ht.arData }
          = s.ht.slots := slots_realloc ..
      refine ⟨⟨hv.toListed.of_slots hslots hpos ?_ hlt rfl rfl, ?_, hv.unlinked, ?_, hv.fresh⟩,
        Follows.of_slots hslots rfl rfl rfl⟩
      · dsimp only
        omega
      · rw [hslots]
        exact hv.indexed
      · intro hp
        exact absurd (hp.symm.trans hpacked) Bool.noConfusion
    · rw [hlayout', if_neg hpacked] at h
      rw [Bool.not_eq_true] at hpacked
      cases h
      obtain ⟨hchaining, -, -, hfollows⟩ := resizeHash_spec self junk size
        ⟨hv, hpacked, hinit⟩ hpos (by omega) hlt
      exact ⟨hchaining.toValid, hfollows.mono fun hok => hok ⟨hinit, hpacked, hsize⟩⟩
  · rw [if_neg hsize] at h
    cases h
    exact ⟨hv, .refl s⟩

/-! # Moving the positions of a table -/

variable {K V : Type} {hash : K → ℕ} {self : ℕ} {s : State K V}

/-! ## The invariant -/

/-- The invariant of a table with its iterators. -/
structure State.Sound (addr : ℕ) (hash : K → ℕ) (s : State K V) : Prop where
  valid : s.ht.Valid hash
  counted : s.Counted addr
  standing : s.Standing addr

/-- The contract of the position operations: an iterator is registered at an element or past
the end, and the one that is moved is one of the table. -/
def State.SeekAllowed (self : ℕ) (s : State K V) : Seek → Prop
  | .iteratorAdd pos => s.ht.Stands pos
  | .feFetch idx => ∃ it, s.iterators[idx]? = some it ∧ it.ht = some self
  | _ => True

variable {its : List HashTableIterator}

theorem init_sound {nTableSize : ℕ} (arData : ℕ → Bucket K V)
    (hsize : checkSize nSize = some nTableSize)
    (hits : ∀ it ∈ its, it.ht ≠ some self) :
    State.Sound self hash ⟨init nTableSize arData, its⟩ := by
  obtain ⟨hpos, -, hlt⟩ := checkSize_spec hsize
  refine ⟨⟨⟨hpos, Nat.zero_le _, hlt, rfl, nodup_nil, ?_, .inl rfl⟩, ?_, ?_, ?_, ?_⟩, ?_, ?_⟩
  · intro e he
    exact absurd he not_mem_nil
  · intro hp
    cases hp
  · intro hp
    cases hp
  · intro _ n
    rfl
  · intro _
    exact ⟨rfl, rfl⟩
  · right
    have hnil : owned self its = [] := by
      rw [owned, filter_eq_nil_iff]
      intro it hit
      rw [decide_eq_true_iff]
      exact hits it hit
    rw [hnil]
    rfl
  · intro it hit hself
    exact absurd hself (hits it hit)

/-! ## The internal pointer -/

theorem stands_nextFrom (ht : HashTable K V) (hn : i + n ≤ ht.nNumUsed ∨ n = 0) :
    ht.Stands (ht.nextFrom n i) := by
  rcases (nextFrom_spec ht n i).1 with h | ⟨hle, hlt, hlive⟩
  · exact .inl h
  · exact .inr (occupied_slots.mpr ⟨by omega, hlive⟩)

theorem stands_posAfter (ht : HashTable K V) (pos : ℕ) : ht.Stands (ht.posAfter pos) :=
  stands_nextFrom ht (by omega)

theorem stands_prevFrom (ht : HashTable K V) (hn : n ≤ ht.nNumUsed) :
    ht.Stands (ht.prevFrom n) := by
  induction n with
  | zero => exact .inl rfl
  | succ n ih =>
    rw [prevFrom]
    split_ifs with hlive
    · exact .inr (occupied_slots.mpr ⟨hn, hlive⟩)
    · exact ih (Nat.le_of_succ_le hn)

/-- The internal pointer and the count of the iterators may be set. -/
theorem HashTable.Valid.pointed {ht : HashTable K V} {p : ℕ} (hv : ht.Valid hash)
    (hp : ht.Stands p) (c : ℕ) :
    ({ ht with nInternalPointer := p, nIteratorsCount := c } : HashTable K V).Valid hash :=
  ⟨⟨hv.size_pos, hv.used_le, hv.size_lt, hv.count, hv.nodup, hv.hashed, hp⟩, hv.indexed,
    hv.unlinked, hv.chained, hv.fresh⟩

/-- A position operation sets the internal pointer and the count of the iterators only. -/
theorem seek_ht (self : ℕ) (hv : s.ht.Valid hash) (k : Seek) : ∃ p c, s.ht.Stands p ∧
    (s.seek self k).ht = { s.ht with nInternalPointer := p, nIteratorsCount := c } := by
  have hstands := hv.stands
  cases k with
  | internalPointerReset => exact ⟨_, _, stands_nextFrom s.ht (by omega), rfl⟩
  | internalPointerEnd => exact ⟨_, _, stands_prevFrom s.ht le_rfl, rfl⟩
  | moveForward =>
    rw [State.seek, moveForward]
    split_ifs
    · exact ⟨_, _, hstands, rfl⟩
    · exact ⟨_, _, stands_posAfter .., rfl⟩
  | moveBackwards =>
    rw [State.seek, moveBackwards]
    split_ifs with hend
    · exact ⟨_, _, hstands, rfl⟩
    · have hlt := (hstands.resolve_left hend).lt
      rw [length_slots] at hlt
      exact ⟨_, _, stands_prevFrom s.ht (le_of_lt hlt), rfl⟩
  | iteratorAdd pos => exact ⟨_, _, hstands, rfl⟩
  | iteratorDel idx =>
    rw [State.seek, State.iteratorDel]
    rcases s.iterators[idx]? with _ | it
    · exact ⟨_, _, hstands, rfl⟩
    · dsimp only
      split_ifs
      · exact ⟨_, _, hstands, rfl⟩
      · exact ⟨_, _, hstands, rfl⟩
  | feFetch idx =>
    rw [State.seek, State.feFetch]
    rcases s.iterators[idx]? with _ | it
    · exact ⟨_, _, hstands, rfl⟩
    · dsimp only
      split_ifs
      · exact ⟨_, _, hstands, rfl⟩
      · exact ⟨_, _, hstands, rfl⟩

/-! ## The iterators -/

theorem length_owned_append_cons (u v : List HashTableIterator) (it : HashTableIterator) :
    (owned self (u ++ it :: v)).length
      = (owned self u).length + (owned self v).length + if it.ht = some self then 1 else 0 := by
  rw [owned, filter_append, length_append, filter_cons, owned, owned]
  by_cases h : it.ht = some self
  · rw [if_pos (decide_eq_true h), if_pos h, length_cons]
    omega
  · rw [if_neg (by rwa [decide_eq_true_iff]), if_neg h, add_zero]

theorem placeIterator_eq (self pos : ℕ) (its : List HashTableIterator) :
    (∃ u it v, its = u ++ it :: v ∧ it.ht = none ∧
      placeIterator self pos its = u ++ ⟨some self, pos⟩ :: v) ∨
    placeIterator self pos its = its ++ [⟨some self, pos⟩] := by
  induction its with
  | nil => exact .inr rfl
  | cons it its ih =>
    rw [placeIterator]
    split_ifs with hfree
    · exact .inl ⟨[], it, its, rfl, hfree, rfl⟩
    · rcases ih with ⟨u, it', v, rfl, hnone, hplace⟩ | hplace
      · exact .inl ⟨it :: u, it', v, rfl, hnone, by rw [hplace]; rfl⟩
      · exact .inr (by rw [hplace]; rfl)

theorem mem_placeIterator {pos : ℕ}
    (h : it ∈ placeIterator self pos its) : it ∈ its ∨ it.pos = pos := by
  rcases placeIterator_eq self pos its with ⟨u, it', v, rfl, -, hplace⟩ | hplace
  · rw [hplace, mem_append, mem_cons] at h
    rcases h with h | rfl | h
    · exact .inl (mem_append_left _ h)
    · exact .inr rfl
    · exact .inl (mem_append_right u (mem_cons_of_mem it' h))
  · rw [hplace, mem_append, mem_singleton] at h
    rcases h with h | rfl
    · exact .inl h
    · exact .inr rfl

theorem length_owned_placeIterator (self pos : ℕ) (its : List HashTableIterator) :
    (owned self (placeIterator self pos its)).length = (owned self its).length + 1 := by
  rcases placeIterator_eq self pos its with ⟨u, it', v, rfl, hnone, hplace⟩ | hplace
  · rw [hplace, length_owned_append_cons, length_owned_append_cons, if_pos rfl, hnone]
    rfl
  · rw [hplace, length_owned_append_cons, if_pos rfl]
    rfl

/-- The free places at the end have no iterator. -/
theorem length_owned_trimIterators (its : List HashTableIterator) :
    (owned self (trimIterators its)).length = (owned self its).length := by
  induction its using reverseRecOn with
  | nil => rfl
  | append_singleton its it ih =>
    rw [trimIterators, rdropWhile_concat]
    split_ifs with hnone
    · have hne : it.ht ≠ some self := by
        rw [Option.isNone_iff_eq_none] at hnone
        rw [hnone]
        exact nofun
      rw [length_owned_append_cons, if_neg hne, ← trimIterators, ih]
      rfl
    · rfl

theorem iteratorAdd_sound {pos : ℕ} (hs : s.Sound self hash) (hp : s.ht.Stands pos) :
    (s.iteratorAdd self pos).Sound self hash := by
  refine ⟨hs.valid.pointed hs.valid.stands _, ?_, ?_⟩
  · have hlen := length_owned_placeIterator self pos s.iterators
    have hc := hs.counted
    rw [State.Counted] at hc ⊢
    rw [State.iteratorAdd]
    dsimp only
    split_ifs <;> omega
  · intro it hit hself
    rcases mem_placeIterator hit with hold | hnew
    · exact hs.standing it hold hself
    · rw [hnew]
      exact hp

variable {idx : ℕ}

/-- One place among the iterators is written. -/
theorem length_owned_set (self : ℕ) (h : its[idx]? = some it) (x : HashTableIterator) :
    (owned self (its.set idx x)).length + (if it.ht = some self then 1 else 0)
      = (owned self its).length + if x.ht = some self then 1 else 0 := by
  obtain ⟨hlt, hget⟩ := List.getElem?_eq_some_iff.mp h
  have hsplit : its = its.take idx ++ it :: its.drop (idx + 1) := by
    rw [← hget, ← drop_eq_getElem_cons hlt, take_append_drop]
  have hold : (owned self its).length = (owned self _).length :=
    congrArg (fun its => (owned self its).length) hsplit
  rw [length_owned_append_cons] at hold
  rw [set_eq_take_append_cons_drop, if_pos hlt, length_owned_append_cons]
  omega

theorem iteratorDel_sound (hs : s.Sound self hash) : (s.iteratorDel self idx).Sound self hash := by
  rw [State.iteratorDel]
  rcases hit : s.iterators[idx]? with _ | it
  · exact hs
  dsimp only
  have hlen := length_owned_set self hit { it with ht := none }
  rw [if_neg (show ¬ (none : Option ℕ) = some self from nofun)] at hlen
  -- what is left of the iterators, with or without the free places at the end
  have hmem : ∀ it' ∈ s.iterators.set idx { it with ht := none }, it'.ht = some self →
      s.ht.Stands it'.pos := by
    intro it' hit' hself
    rcases mem_or_eq_of_mem_set hit' with hold | rfl
    · exact hs.standing it' hold hself
    · cases hself
  have hits : ∀ its, its = trimIterators (s.iterators.set idx { it with ht := none }) ∨
      its = s.iterators.set idx { it with ht := none } →
      (∀ it' ∈ its, it'.ht = some self → s.ht.Stands it'.pos) ∧
      (owned self its).length + (if it.ht = some self then 1 else 0)
        = (owned self s.iterators).length := by
    rintro its (rfl | rfl)
    · refine ⟨fun it' hit' => hmem it' (( rdropWhile_prefix _ _).subset hit'), ?_⟩
      rw [length_owned_trimIterators]
      exact hlen
    · exact ⟨hmem, hlen⟩
  obtain ⟨hstands, hcount⟩ := hits (if idx = s.iterators.length - 1 then
    trimIterators (s.iterators.set idx { it with ht := none })
    else s.iterators.set idx { it with ht := none }) (by
      split_ifs
      · exact .inl rfl
      · exact .inr rfl)
  have hc := hs.counted
  rw [State.Counted] at hc
  by_cases hown : it.ht = some self ∧ s.ht.nIteratorsCount ≠ 255
  · rw [if_pos hown]
    rw [if_pos hown.1] at hcount
    refine ⟨hs.valid.pointed hs.valid.stands _, ?_, hstands⟩
    rw [State.Counted]
    dsimp only
    omega
  · rw [if_neg hown]
    refine ⟨hs.valid, ?_, hstands⟩
    rw [State.Counted]
    dsimp only
    by_cases hself : it.ht = some self
    · exact .inl (not_not.mp fun h => hown ⟨hself, h⟩)
    · rw [if_neg hself] at hcount
      omega

theorem feFetch_sound (hs : s.Sound self hash)
    (hallowed : s.SeekAllowed self (.feFetch idx)) : (s.feFetch idx).Sound self hash := by
  obtain ⟨it, hit, hself⟩ := hallowed
  rw [State.feFetch, hit]
  dsimp only
  split_ifs with hend
  · exact hs
  · refine ⟨hs.valid, ?_, ?_⟩
    · have hlen := length_owned_set self hit
        { it with pos := s.ht.posAfter (s.ht.nextFrom (s.ht.nNumUsed - it.pos) it.pos) }
      rw [Nat.add_right_cancel_iff] at hlen
      rw [State.Counted]
      rw [hlen]
      exact hs.counted
    · intro it' hit' hself'
      rcases mem_or_eq_of_mem_set hit' with hold | rfl
      · exact hs.standing it' hold hself'
      · exact stands_posAfter ..

theorem seek_sound {k : Seek} (hs : s.Sound self hash) (hallowed : s.SeekAllowed self k) :
    (s.seek self k).Sound self hash := by
  have hpointed : ∀ p, s.ht.Stands p →
      ({ s with ht := { s.ht with nInternalPointer := p } } : State K V).Sound self hash :=
    fun p hp => ⟨hs.valid.pointed hp _, hs.counted, hs.standing⟩
  cases k with
  | internalPointerReset => exact hpointed _ (stands_nextFrom s.ht (by omega))
  | internalPointerEnd => exact hpointed _ (stands_prevFrom s.ht le_rfl)
  | moveForward =>
    rw [State.seek, moveForward]
    split_ifs
    · exact hs
    · exact hpointed _ (stands_posAfter ..)
  | moveBackwards =>
    rw [State.seek, moveBackwards]
    split_ifs with hend
    · exact hs
    · refine hpointed _ (stands_prevFrom _ ?_)
      rcases hs.valid.stands with h | h
      · exact absurd h hend
      · have hlt := h.lt
        rw [length_slots] at hlt
        exact le_of_lt hlt
  | iteratorAdd pos => exact iteratorAdd_sound hs hallowed
  | iteratorDel idx => exact iteratorDel_sound hs
  | feFetch idx => exact feFetch_sound hs hallowed

end ZendHash

/-!
# Runs of a table and its positions

Between the operations that change a table the internal pointer and the iterators are moved to
other elements, and iterators come and go.  Over all of that a position is at an element or past
the end, and an operation leaves it with what it had still to visit, less what is deleted and
followed by what is added.  A rehash that meets iterators on both sides of the first hole breaks
that, and so does cleaning a table under an iterator.
-/

namespace ZendHash

open ZendHash.HashTable

open List Option

variable {K V : Type} [DecidableEq K] {hash : K → ℕ} {self : ℕ} {junk : ℕ → Bucket K V}
  {s s' : State K V} {op : Op K V}

/-! ## One operation -/

/-- The key of the next index insertion. -/
def State.nextIndex (s : State K V) : ℕ := toUlong s.ht.nNextFreeElement

/-- The contract of the operations: `HASH_ADD_NEW` is for a key that is not there, and the
layout is the one that the operation is for. -/
def State.Allowed (s : State K V) : Op K V → Prop
  | .addOrUpdate k _ _ addNew => addNew = true → .inl k ∉ s.ht.names
  | .indexAddOrUpdate h _ _ addNew => h < 2 ^ 64 ∧ (addNew = true → .inr h ∉ s.ht.names)
  | .nextIndexInsert _ addNew => addNew = true → .inr s.nextIndex ∉ s.ht.names
  | .rehash => s.ht.packed = false
  | .extend _ packed => s.ht.initialized = true → packed = s.ht.packed
  | .packedToHash => s.ht.packed = true
  | _ => True

/-- What an operation does to the list of the elements. -/
def State.effect (hash : K → ℕ) (s : State K V) : Op K V → List (Entry K V) → List (Entry K V)
  | .addOrUpdate k v add _ => put s.ht ⟨some k, hash k, v⟩ add
  | .indexAddOrUpdate h v add _ => put s.ht ⟨none, h, v⟩ add
  | .nextIndexInsert v _ => put s.ht ⟨none, s.nextIndex, v⟩ true
  | .del k => without (.inl k)
  | .indexDel h => without (.inr h)
  | .clean => fun _ => []
  | .rehash => id
  | .extend _ _ => id
  | .packedToHash => id

/-- What an operation does to `nNextFreeElement`. -/
def State.freeEffect (s : State K V) : Op K V → ℤ → ℤ
  | .indexAddOrUpdate h _ add _ => putFree s.ht h add
  | .nextIndexInsert _ _ => putFree s.ht s.nextIndex true
  | .clean => fun _ => 0
  | _ => id

/-- Whether an operation rehashes the table. -/
def State.Rehashes (hash : K → ℕ) (s : State K V) : Op K V → Prop
  | .addOrUpdate k _ _ addNew => s.AddRehashes hash k addNew
  | .indexAddOrUpdate h _ _ addNew => s.IndexAddRehashes h addNew
  | .nextIndexInsert _ addNew => s.IndexAddRehashes s.nextIndex addNew
  | .extend nSize _ => s.ExtendRehashes nSize
  | .rehash => True
  | .packedToHash => True
  | _ => False

/-- The operation carries the iterators along: it does not rehash the table while they straddle
its first hole, and it does not clean the table while one is at an element. -/
def State.Carries (self : ℕ) (hash : K → ℕ) (s : State K V) (op : Op K V) : Prop :=
  (s.Rehashes hash op → ¬ s.Straddled self) ∧ (op matches .clean →
    ∀ it ∈ s.iterators, it.ht = some self → it.pos = HT_INVALID_IDX)

omit [DecidableEq K] in
theorem not_straddled_of_nil (h : s.iterators = []) : ¬ s.Straddled self := by
  rintro ⟨f, -, -, -, ⟨it, hit, -⟩, -⟩
  rw [h] at hit
  exact absurd hit not_mem_nil

/-- The fast insertion of the next index finds empty buckets in front of the new one. -/
def State.MemoryClear (junk : ℕ → Bucket K V) (s : State K V) : Op K V → Prop
  | .nextIndexInsert _ addNew => addNew = true → s.GapEmpty junk s.nextIndex
  | _ => True

theorem step_spec (hv : s.ht.Valid hash) (hallowed : s.Allowed op)
    (hmemory : s.MemoryClear junk op) (h : s.step self junk hash op = some s') : s'.ht.Valid hash ∧
      Follows self (s.effect hash op) (s.freeEffect op) (s.Carries self hash op) s s' := by
  cases op with
  | addOrUpdate k v add addNew =>
    obtain ⟨⟨t, r⟩, hrun, ht⟩ := map_eq_some_iff.mp h
    cases ht
    obtain ⟨hvalid, hfollows⟩ := addOrUpdate_spec hv hrun hallowed
    exact ⟨hvalid, hfollows.mono fun hok => hok.1⟩
  | indexAddOrUpdate h' v add addNew =>
    obtain ⟨⟨t, r⟩, hrun, ht⟩ := map_eq_some_iff.mp h
    cases ht
    obtain ⟨hvalid, hfollows⟩ := indexAddOrUpdate_spec hv hrun hallowed.2
      fun _ hnext => Bool.noConfusion hnext
    exact ⟨hvalid, hfollows.mono fun hok => hok.1⟩
  | nextIndexInsert v addNew =>
    obtain ⟨⟨t, r⟩, hrun, ht⟩ := map_eq_some_iff.mp h
    cases ht
    obtain ⟨hvalid, hfollows⟩ := indexAddOrUpdate_spec hv hrun hallowed
      fun hnew _ => hmemory hnew
    exact ⟨hvalid, hfollows.mono fun hok => hok.1⟩
  | del k =>
    cases h
    obtain ⟨hvalid, hfollows⟩ := del_spec self hv k
    exact ⟨hvalid, hfollows.mono fun _ => trivial⟩
  | indexDel h' =>
    cases h
    obtain ⟨hvalid, hfollows⟩ := indexDel_spec self hv h'
    exact ⟨hvalid, hfollows.mono fun _ => trivial⟩
  | rehash =>
    cases h
    by_cases hinit : s.ht.initialized = true
    · obtain ⟨hchaining, -, -, hfollows⟩ := rehash_spec self hv.toListed hallowed hinit
      exact ⟨hchaining.toValid, hfollows.mono fun hok => hok.1 trivial⟩
    · rw [Bool.not_eq_true] at hinit
      have hnil : s.ht.entries = [] := by
        rw [entries, slots, (hv.fresh hinit).2]
        rfl
      have hzero : s.ht.nNumOfElements = 0 := by
        rw [hv.count, hnil]
        rfl
      rw [State.rehash, if_pos hzero, if_neg (by rw [hinit]; exact Bool.false_ne_true)]
      exact ⟨hv, .refl s⟩
  | extend nSize packed =>
    obtain ⟨hvalid, hfollows⟩ := extend_spec hv hallowed h
    exact ⟨hvalid, hfollows.mono fun hok => hok.1⟩
  | packedToHash =>
    cases h
    have hinit : s.ht.initialized = true := by
      by_contra hinit
      rw [Bool.not_eq_true] at hinit
      exact absurd (hallowed.symm.trans (hv.fresh hinit).1) Bool.noConfusion
    obtain ⟨hchaining, -, hfollows⟩ := packedToHash_spec self junk hv hinit
    exact ⟨hchaining.toValid, hfollows.mono fun hok => hok.1 trivial⟩
  | clean =>
    cases h
    obtain ⟨hvalid, hfollows⟩ := clean_spec self hv
    exact ⟨hvalid, hfollows.mono fun hok => hok.2 rfl⟩

/-! ## What happens to a position -/

/-- The keys that a position has still to visit. -/
def HashTable.toVisit (ht : HashTable K V) (p : ℕ) : List (K ⊕ ℕ) := (ht.visit p).map Entry.name

/-- **A position survives** a change of the table: it is at an element or past the end, and it has
to visit what is left of what it had to visit, and then what has been added.  So it is at the
same element, or at the next one if that was deleted, and past the end it sees every new one. -/
def HashTable.Survives (before after : HashTable K V) (p p' : ℕ) : Prop :=
  after.Stands p' ∧ after.toVisit p' =
    (before.toVisit p).filter (fun x => x ∈ after.names) ++
      after.names.filter fun x => x ∉ before.names

/-- The keys after an operation are those that it leaves, and new ones. -/
theorem effect_names (hash : K → ℕ) (s : State K V) (op : Op K V) :
    ∃ q : K ⊕ ℕ → Bool, ∃ w, (∀ x ∈ w, x ∉ s.ht.names) ∧ ∀ l,
      (s.effect hash op l).map Entry.name = (l.map Entry.name).filter q ++ w := by
  have hput : ∀ (e : Entry K V) add, ∃ q : K ⊕ ℕ → Bool, ∃ w, (∀ x ∈ w, x ∉ s.ht.names) ∧ ∀ l,
      (put s.ht e add l).map Entry.name = (l.map Entry.name).filter q ++ w := by
    intro e add
    by_cases hmem : e.name ∈ s.ht.names
    · refine ⟨fun _ => true, [], fun _ h => absurd h not_mem_nil, fun l => ?_⟩
      rw [filter_true, append_nil, put]
      split_ifs
      · rfl
      · exact map_name_assign l
    · refine ⟨fun _ => true, [e.name], fun x hx => ?_, fun l => ?_⟩
      · rw [mem_singleton.mp hx]
        exact hmem
      · rw [filter_true, put, if_neg hmem, map_append]
        rfl
  have hsame : ∃ q : K ⊕ ℕ → Bool, ∃ w, (∀ x ∈ w, x ∉ s.ht.names) ∧ ∀ l : List (Entry K V),
      (id l).map Entry.name = (l.map Entry.name).filter q ++ w := by
    refine ⟨fun _ => true, [], fun _ h => absurd h not_mem_nil, fun l => ?_⟩
    rw [filter_true, append_nil]
    rfl
  have hwithout : ∀ x, ∃ q : K ⊕ ℕ → Bool, ∃ w, (∀ x ∈ w, x ∉ s.ht.names) ∧
      ∀ l : List (Entry K V),
        (without x l).map Entry.name = (l.map Entry.name).filter q ++ w := by
    intro x
    refine ⟨fun y => y ≠ x, [], fun _ h => absurd h not_mem_nil, fun l => ?_⟩
    rw [append_nil, List.filter_map]
    rfl
  cases op with
  | addOrUpdate k v add addNew => exact hput _ _
  | indexAddOrUpdate h v add addNew => exact hput _ _
  | nextIndexInsert v addNew => exact hput _ _
  | del k => exact hwithout _
  | indexDel h => exact hwithout _
  | clean =>
    refine ⟨fun _ => false, [], fun _ h => absurd h not_mem_nil, fun l => ?_⟩
    rw [filter_false]
    rfl
  | rehash => exact hsame
  | extend nSize packed => exact hsame
  | packedToHash => exact hsame

variable {before : HashTable K V} {r : ℕ → ℕ}

/-- A position that moves along with an operation survives it. -/
theorem survives_of_moves {after : HashTable K V} {p : ℕ}
    {f : List (Entry K V) → List (Entry K V)} {q : K ⊕ ℕ → Bool} {w : List (K ⊕ ℕ)}
    (hmoves : before.Moves f r after) (hw : ∀ x ∈ w, x ∉ before.names)
    (hf : ∀ l, (f l).map Entry.name = (l.map Entry.name).filter q ++ w)
    (hp : before.Stands p) : before.Survives after p (r p) := by
  have hafter : after.names = before.names.filter q ++ w := by
    rw [names, hmoves.entries, hf]
    rfl
  have hsub : ∀ x ∈ before.toVisit p, x ∈ before.names := by
    intro x hx
    obtain ⟨e, he, rfl⟩ := mem_map.mp hx
    have hsublist : (before.visit p).Sublist before.entries :=
      List.Sublist.filterMap _ (drop_sublist ..)
    exact mem_map_of_mem (hsublist.subset he)
  refine ⟨hmoves.stands p hp, ?_⟩
  rw [toVisit, hmoves.visit p hp, hf]
  congr 1
  · apply filter_congr
    intro x hx
    have hmem := hsub x hx
    rw [Bool.eq_iff_iff, decide_eq_true_iff, hafter, mem_append, mem_filter]
    exact ⟨fun hq => .inl ⟨hmem, hq⟩, fun h =>
      h.elim (fun h => h.2) fun h => absurd hmem (hw x h)⟩
  · rw [hafter, filter_append]
    have hold : (before.names.filter q).filter (fun x => x ∉ before.names) = [] := by
      rw [filter_eq_nil_iff]
      intro x hx
      rw [decide_eq_true_iff, not_not]
      exact (mem_filter.mp hx).1
    have hnew : w.filter (fun x => x ∉ before.names) = w := by
      rw [filter_eq_self]
      intro x hx
      exact decide_eq_true (hw x hx)
    rw [hold, hnew, nil_append]

/-! ## Runs -/

/-- The states that a table and the iterators reach from an empty table, where every operation
meets the condition `cond` in the state it begins in. -/
inductive Reachable (self : ℕ) (hash : K → ℕ)
    (cond : State K V → Op K V → (ℕ → Bucket K V) → Prop) : State K V → Prop where
  | init {nSize nTableSize : ℕ} (arData : ℕ → Bucket K V) (its : List HashTableIterator) :
    checkSize nSize = some nTableSize → (∀ it ∈ its, it.ht ≠ some self) →
      Reachable self hash cond ⟨init nTableSize arData, its⟩
  | step {s s' : State K V} (op : Op K V) (junk : ℕ → Bucket K V) :
    Reachable self hash cond s → s.Allowed op → cond s op junk →
      s.step self junk hash op = some s' → Reachable self hash cond s'
  | seek {s : State K V} (k : Seek) :
    Reachable self hash cond s → s.SeekAllowed self k → Reachable self hash cond (s.seek self k)

theorem Reachable.mono {cond cond' : State K V → Op K V → (ℕ → Bucket K V) → Prop}
    (hr : Reachable self hash cond s) (h : ∀ s op junk, cond s op junk → cond' s op junk) :
    Reachable self hash cond' s := by
  induction hr with
  | init arData its hsize hits => exact .init arData its hsize hits
  | step op junk _ hallowed hcond hstep ih => exact .step op junk ih hallowed (h _ _ _ hcond) hstep
  | seek k _ hallowed ih => exact .seek k ih hallowed

/-- The condition under which no position is lost. -/
def Kept (self : ℕ) (hash : K → ℕ) (s : State K V) (op : Op K V)
    (junk : ℕ → Bucket K V) : Prop :=
  s.Carries self hash op ∧ s.MemoryClear junk op

theorem step_sound (hs : s.Sound self hash) (hallowed : s.Allowed op)
    (hkept : Kept self hash s op junk) (h : s.step self junk hash op = some s') :
    s'.Sound self hash := by
  obtain ⟨hvalid, hfollows⟩ := step_spec hs.valid hallowed hkept.2 h
  exact ⟨hvalid, hfollows.counted hs.counted hs.standing hkept.1,
    hfollows.standing hs.counted hs.standing hkept.1⟩

theorem Reachable.sound (hr : Reachable self hash (Kept self hash) s) : s.Sound self hash := by
  induction hr with
  | init arData its hsize hits => exact init_sound arData hsize hits
  | step op junk _ hallowed hkept h ih => exact step_sound ih hallowed hkept h
  | seek k _ hallowed ih => exact seek_sound ih hallowed

/-- What one operation does to one iterator: one of the table survives, another one stays. -/
def IteratorSurvives (self : ℕ) (before after : HashTable K V)
    (it it' : HashTableIterator) : Prop :=
  it'.ht = it.ht ∧ (it.ht = some self → before.Survives after it.pos it'.pos) ∧
    (it.ht ≠ some self → it'.pos = it.pos)

/-- Every position is at an element or past the end, and every operation leaves each with what
it has still to visit. -/
def PositionsSurvive (self : ℕ) (hash : K → ℕ)
    (cond : State K V → Op K V → (ℕ → Bucket K V) → Prop) : Prop :=
  ∀ s, Reachable self hash cond s →
    s.ht.Stands s.ht.nInternalPointer ∧ s.Standing self ∧
    ∀ op junk s', s.Allowed op → cond s op junk → s.step self junk hash op = some s' →
      s.ht.Survives s'.ht s.ht.nInternalPointer s'.ht.nInternalPointer ∧
      List.Forall₂ (IteratorSurvives self s.ht s'.ht) s.iterators s'.iterators

theorem forall₂_relocate {its : List HashTableIterator} {after : HashTable K V}
    (h : ∀ it ∈ its, it.ht = some self → before.Survives after it.pos (r it.pos)) :
    List.Forall₂ (IteratorSurvives self before after) its (relocate self r its) := by
  rw [relocate, forall₂_map_right_iff, forall₂_same]
  intro it hit
  by_cases hself : it.ht = some self
  · rw [if_pos hself]
    exact ⟨rfl, fun _ => h it hit hself, fun hne => absurd hself hne⟩
  · rw [if_neg hself]
    exact ⟨rfl, fun heq => absurd heq hself, fun _ => rfl⟩

/-- **Positions survive** in every run whose operations carry the iterators along and find clear
memory. -/
theorem positions_survive (self : ℕ) (hash : K → ℕ) :
    PositionsSurvive (V := V) self hash (Kept self hash) := by
  intro s hr
  have hs := hr.sound
  refine ⟨hs.valid.stands, hs.standing, fun op junk s' hallowed hkept h => ?_⟩
  obtain ⟨-, hfollows⟩ := step_spec hs.valid hallowed hkept.2 h
  obtain ⟨r, hmoves, hits⟩ := hfollows.moves
  obtain ⟨q, w, hw, hf⟩ := effect_names hash s op
  rw [hits hs.counted hs.standing hkept.1, hmoves.pointer]
  refine ⟨survives_of_moves hmoves hw hf hs.valid.stands, forall₂_relocate ?_⟩
  intro it hit hself
  exact survives_of_moves hmoves hw hf (hs.standing it hit hself)

/-! ## A lost position -/

/-- An empty bucket. -/
def blank : Bucket ℕ Unit := ⟨none, 0, 0, none⟩

/-- An operation on a table at the address 1, with string keys that are their hashes. -/
def after (s : State ℕ Unit) (op : Op ℕ Unit) : State ℕ Unit :=
  (s.step 1 (fun _ => blank) id op).getD s

/-- A table with the keys 0, 1 and 2, an iterator at the first and one at the last. -/
def threeKeys : State ℕ Unit :=
  let s : State ℕ Unit := ⟨init 8 fun _ => blank, []⟩
  let s := after s (.addOrUpdate 0 () false false)
  let s := after s (.addOrUpdate 1 () false false)
  let s := after s (.addOrUpdate 2 () false false)
  (s.seek 1 (.iteratorAdd 0)).seek 1 (.iteratorAdd 2)

/-- The key 1 is deleted: the iterators straddle a hole. -/
def straddling : State ℕ Unit := after threeKeys (.del 1)

theorem Reachable.after {s : State ℕ Unit} {op : Op ℕ Unit} (h : Reachable 1 id (Kept 1 id) s)
    (hallowed : s.Allowed op) (hkept : Kept 1 id s op fun _ => blank)
    (hsome : (s.step 1 (fun _ => blank) id op).isSome = true) :
    Reachable 1 id (Kept 1 id) (ZendHash.after s op) := by
  obtain ⟨s', hs'⟩ := isSome_iff_exists.mp hsome
  rw [ZendHash.after, hs']
  exact h.step op _ hallowed hkept hs'

theorem reachable_threeKeys : Reachable 1 id (Kept 1 id) threeKeys := by
  refine .seek (.iteratorAdd 2) (.seek (.iteratorAdd 0) ?_ ?_) ?_
  · have hadd : ∀ {s : State ℕ Unit} {k : ℕ}, s.iterators = [] →
        Kept 1 id s (.addOrUpdate k () false false) fun _ => blank := fun hnil =>
      ⟨⟨fun _ => not_straddled_of_nil hnil, nofun⟩, trivial⟩
    refine .after (.after (.after ?_ nofun (hadd rfl) rfl) nofun (hadd rfl) rfl)
      nofun (hadd rfl) rfl
    exact .init _ [] (show checkSize 8 = some 8 from rfl) nofun
  · exact .inr (occupied_slots.mpr ⟨by decide, by decide⟩)
  · exact .inr (occupied_slots.mpr ⟨by decide, by decide⟩)

theorem kept_straddling : Kept 1 id threeKeys (.del 1) fun _ => blank := ⟨⟨nofun, nofun⟩, trivial⟩

/-- The first and the last key are still to be visited when the one between them is deleted. -/
theorem positions_survive_straddling : List.Forall₂ (IteratorSurvives 1 threeKeys.ht straddling.ht)
    threeKeys.iterators straddling.iterators := by
  obtain ⟨-, -, hstep⟩ := positions_survive 1 id threeKeys reachable_threeKeys
  exact (hstep (.del 1) _ _ trivial kept_straddling rfl).2

theorem reachable_straddling : Reachable 1 id (fun _ _ _ => True) straddling := by
  have hreached : Reachable 1 id (Kept 1 id) straddling :=
    .after reachable_threeKeys trivial kept_straddling rfl
  exact hreached.mono fun _ _ _ _ => trivial

/-- **A position is lost**: the rehash leaves the second iterator behind the end of the table. -/
theorem not_positions_survive : ¬ ∀ (K V : Type) [DecidableEq K] (self : ℕ) (hash : K → ℕ),
      PositionsSurvive (K := K) (V := V) self hash fun _ _ _ => True := by
  intro h
  obtain ⟨-, -, hstep⟩ := h ℕ Unit 1 id straddling reachable_straddling
  obtain ⟨-, hits⟩ := hstep .rehash (fun _ => blank) _
    (show straddling.ht.packed = false from rfl) trivial rfl
  have hsecond := List.Forall₂.get hits (i := 1) (by decide) (by decide)
  obtain ⟨-, hsurvives, -⟩ := hsecond
  obtain ⟨hstands, -⟩ := hsurvives (by decide)
  rcases hstands with hend | hocc
  · exact absurd hend (by decide)
  · exact absurd (occupied_slots.mp hocc).1 (by decide)

end ZendHash
