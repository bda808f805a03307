/-
# Adding, replacing and deleting an element

The invariant of a table, and what the three changes of its elements do: a new element comes
behind all others and the positions past the end are at it, a value is replaced in its place,
and a position at a deleted element goes to the next one.
-/
import ReadingCode.ZendHashEntries

open SlotList

namespace ZendHash

open ZendHash.HashTable

open List

variable {K V : Type} {hash : K → ℕ} {self i n p : ℕ} {ht ht' : HashTable K V}
  {e : Entry K V}

/-! ## The invariant -/

/-- The elements of a table in either layout. -/
structure HashTable.Listed (hash : K → ℕ) (ht : HashTable K V) : Prop where
  size_pos : 0 < ht.nTableSize
  used_le : ht.nNumUsed ≤ ht.nTableSize
  size_lt : ht.nTableSize < HT_INVALID_IDX
  count : ht.nNumOfElements = ht.entries.length
  nodup : (ht.entries.map Entry.name).Nodup
  hashed : ∀ e : Entry K V, e ∈ ht.entries → ∀ k, e.key = some k → e.h = hash k
  stands : ht.Stands ht.nInternalPointer

/-- The representation invariant of a table. -/
structure HashTable.Valid (hash : K → ℕ) (ht : HashTable K V) : Prop
    extends ht.Listed hash where
  indexed : ht.packed = true →
    ∀ i (e : Entry K V), ht.slots[i]? = some (some e) → e.key = none ∧ e.h = i
  unlinked : ht.packed = true → ∀ n, ht.hash n = HT_INVALID_IDX
  chained : ht.packed = false → Chained ht.nTableMask ht.arData ht.hash ht.nNumUsed
  fresh : ht.initialized = false → ht.packed = false ∧ ht.nNumUsed = 0

theorem HashTable.Listed.used_lt (h : ht.Listed hash) : ht.nNumUsed < HT_INVALID_IDX :=
  lt_of_le_of_lt h.used_le h.size_lt

theorem HashTable.Stands.of_slots (hs : ht'.slots = ht.slots) (h : ht.Stands p) : ht'.Stands p := by
  rwa [HashTable.Stands, hs]

/-- The elements do not depend on the layout and on the room for more of them. -/
theorem HashTable.Listed.of_slots (h : ht.Listed hash) (hs : ht'.slots = ht.slots)
    (hpos : 0 < ht'.nTableSize) (hused : ht'.nNumUsed ≤ ht'.nTableSize)
    (hsize : ht'.nTableSize < HT_INVALID_IDX) (hcount : ht'.nNumOfElements = ht.nNumOfElements)
    (hp : ht'.nInternalPointer = ht.nInternalPointer) : ht'.Listed hash where
  size_pos := hpos
  used_le := hused
  size_lt := hsize
  count := by rw [hcount, h.count, entries, entries, hs]
  nodup := by
    rw [entries, hs]
    exact h.nodup
  hashed := by
    rw [entries, hs]
    exact h.hashed
  stands := by
    rw [hp]
    exact h.stands.of_slots hs

theorem Rehashed.listed (h : Rehashed ht ht') (hl : ht.Listed hash) : ht'.Listed hash := by
  have hmoves := h.moves (le_of_lt hl.used_lt)
  have hentries : ht'.entries = ht.entries := hmoves.entries
  refine ⟨?_, ?_, ?_, ?_, ?_, ?_, ?_⟩
  · rw [h.rest]
    exact hl.size_pos
  · have hlen := congrArg List.length h.slots
    rw [length_slots, length_compacted] at hlen
    have hle := reduceOption_length_le ht.slots
    rw [length_slots] at hle
    have hsize : ht'.nTableSize = ht.nTableSize := by rw [h.rest]
    have hused := hl.used_le
    omega
  · rw [h.rest]
    exact hl.size_lt
  · rw [hentries, ← hl.count, h.rest]
  · rw [hentries]
    exact hl.nodup
  · rw [hentries]
    exact hl.hashed
  · rw [hmoves.pointer]
    exact hmoves.stands _ hl.stands

/-- A rehashed table in the hash layout. -/
theorem Rehashed.valid (h : Rehashed ht ht') (hl : ht.Listed hash) (hpacked : ht.packed = false)
    (hfresh : ht.initialized = false → ht.nNumUsed = 0) : ht'.Valid hash := by
  have hpacked' : ht'.packed = false := by
    rw [h.rest]
    exact hpacked
  refine ⟨h.listed hl, ?_, ?_, fun _ => h.chained, ?_⟩
  · intro hp
    rw [hpacked'] at hp
    exact absurd hp Bool.false_ne_true
  · intro hp
    rw [hpacked'] at hp
    exact absurd hp Bool.false_ne_true
  · intro hinit
    refine ⟨hpacked', ?_⟩
    have hlen := congrArg List.length h.slots
    have hle := reduceOption_length_le ht.slots
    rw [length_slots, length_compacted] at hlen
    rw [length_slots] at hle
    have hzero := hfresh (by rw [h.rest] at hinit; exact hinit)
    omega

/-! ## A new element -/

/-- A position past the end comes to the new element at `idx`. -/
def land (idx p : ℕ) : ℕ := if p = HT_INVALID_IDX then idx else p

/-- An element is added behind some holes. -/
theorem moves_append {g : ℕ} (hused : ht.nNumUsed + g < HT_INVALID_IDX)
    (hs : ht'.slots = ht.slots ++ replicate g none ++ [some e])
    (hp : ht'.nInternalPointer = land (ht.nNumUsed + g) ht.nInternalPointer)
    (hc : ht'.nIteratorsCount = ht.nIteratorsCount) :
    ht.Moves (· ++ [e]) (land (ht.nNumUsed + g)) ht' := by
  have hlen := length_slots ht
  have hlast : ht'.slots[ht.nNumUsed + g]? = some (some e) := by
    rw [hs, ← hlen]
    exact getElem?_append_holes ..
  have hvisit : ∀ q ≤ ht.nNumUsed, ht'.visit q = ht.visit q ++ [e] := by
    intro q hq
    rw [HashTable.visit, hs]
    exact visit_append_holes (hlen ▸ hq) g e
  refine ⟨hvisit 0 (Nat.zero_le _), hp, hc, ?_, ?_⟩
  · rintro q (rfl | hq)
    · right
      exact ⟨e, hlast⟩
    · right
      have hlt := hq.lt
      rw [land, if_neg (by omega), hs, append_assoc]
      exact hq.append _
  · rintro q (rfl | hq)
    · have hend : ht'.slots.length ≤ ht.nNumUsed + g + 1 := by
        rw [hs, length_append, length_append, length_replicate, hlen]
        exact le_rfl
      rw [land, if_pos rfl, HashTable.visit, visit_of_getElem? hlast, visit_of_le hend,
        visit_invalid (by omega)]
      rfl
    · have hlt := hq.lt
      rw [land, if_neg (by omega), hvisit q (by omega)]

theorem HashTable.Listed.append (h : ht.Listed hash)
    (hpos : 0 < ht'.nTableSize) (hsize : ht'.nTableSize < HT_INVALID_IDX)
    (hused : ht'.nNumUsed ≤ ht'.nTableSize) (hmoves : ht.Moves (· ++ [e]) (land i) ht')
    (hcount : ht'.nNumOfElements = ht.nNumOfElements + 1)
    (hnew : e.name ∉ ht.entries.map Entry.name) (hhash : ∀ k, e.key = some k → e.h = hash k) :
    ht'.Listed hash where
  size_pos := hpos
  used_le := hused
  size_lt := hsize
  count := by rw [hcount, hmoves.entries, length_append, h.count]; rfl
  nodup := by
    rw [hmoves.entries, map_append, nodup_append]
    refine ⟨h.nodup, nodup_singleton _, ?_⟩
    rintro x hx y hy rfl
    rw [map_singleton, mem_singleton] at hy
    exact hnew (hy ▸ hx)
  hashed := by
    rw [hmoves.entries]
    intro e' he' k hk
    rcases mem_append.mp he' with he' | he'
    · exact h.hashed e' he' k hk
    · rw [mem_singleton] at he'
      subst he'
      exact hhash k hk
  stands := by
    rw [hmoves.pointer]
    exact hmoves.stands _ h.stands

/-! ## Keys -/

/-- The elements with a key and those around it. -/
theorem name_ne_of_middle {u v : List (Entry K V)}
    (h : ((u ++ e :: v).map Entry.name).Nodup) : ∀ e' ∈ u ++ v, e'.name ≠ e.name := by
  rw [map_append, nodup_append] at h
  obtain ⟨-, hv, huv⟩ := h
  intro e' he'
  rcases mem_append.mp he' with he' | he'
  · exact huv _ (mem_map_of_mem he') _ mem_cons_self
  · intro hname
    exact (nodup_cons.mp hv).1 (hname ▸ mem_map_of_mem he')

section

variable [DecidableEq K]

/-- The element `e` replaces one with the same key. -/
def assign (e e' : Entry K V) : Entry K V := if e'.name = e.name then e else e'

/-- The list without the element of a key. -/
def without (x : K ⊕ ℕ) (l : List (Entry K V)) : List (Entry K V) :=
  l.filter fun e => e.name ≠ x

theorem name_assign (e e' : Entry K V) : (assign e e').name = e'.name := by
  rw [assign]
  split_ifs with h
  · exact h.symm
  · rfl

theorem map_name_assign (l : List (Entry K V)) :
    (l.map (assign e)).map Entry.name = l.map Entry.name := by
  rw [map_map]
  exact map_congr_left fun e' _ => name_assign e e'

theorem without_eq_self {l : List (Entry K V)} {x : K ⊕ ℕ} (h : x ∉ l.map Entry.name) :
    without x l = l := by
  apply filter_eq_self.mpr
  intro e he
  refine decide_eq_true fun hname => h ?_
  rw [← hname]
  exact mem_map_of_mem he

/-- One element is taken out of a list without repeated keys. -/
theorem without_middle {u v : List (Entry K V)}
    (h : ((u ++ e :: v).map Entry.name).Nodup) : without e.name (u ++ e :: v) = u ++ v := by
  have hne := name_ne_of_middle h
  rw [without, filter_append, filter_cons_of_neg (by simp), ← filter_append]
  apply filter_eq_self.mpr
  intro e' he'
  exact decide_eq_true (hne e' he')

end

/-! ## A value is replaced -/

section

variable [DecidableEq K]

variable {e0 : Entry K V}

/-- The slots with the new value. -/
theorem set_eq_map_assign {l : List (Option (Entry K V))}
    (h : (l.reduceOption.map Entry.name).Nodup) (hi : l[i]? = some (some e0))
    (hname : e0.name = e.name) : l.set i (some e) = l.map (Option.map (assign e)) := by
  have hassign : assign e e0 = e := if_pos hname
  rw [reduceOption_of_getElem? hi] at h
  rw [← set_eq_map hi, hassign]
  intro e' he'
  have hne := name_ne_of_middle h e' he'
  rw [hname] at hne
  exact if_neg hne

theorem moves_assign (hnodup : (ht.entries.map Entry.name).Nodup)
    (hi : ht.slots[i]? = some (some e0)) (hname : e0.name = e.name)
    (hs : ht'.slots = ht.slots.set i (some e)) (hp : ht'.nInternalPointer = ht.nInternalPointer)
    (hc : ht'.nIteratorsCount = ht.nIteratorsCount) : ht.Moves (List.map (assign e)) id ht' := by
  rw [set_eq_map_assign hnodup hi hname] at hs
  have hvisit : ∀ q, ht'.visit q = (ht.visit q).map (assign e) := by
    intro q
    rw [HashTable.visit, hs]
    exact visit_map ..
  refine ⟨hvisit 0, hp, hc, ?_, fun q _ => hvisit q⟩
  rintro q (rfl | hq)
  · exact .inl rfl
  · right
    rw [hs]
    exact (occupied_map _).mpr hq

theorem HashTable.Listed.assign (h : ht.Listed hash) (hused : ht'.nNumUsed = ht.nNumUsed)
    (hsize : ht'.nTableSize = ht.nTableSize) (hmoves : ht.Moves (List.map (assign e)) id ht')
    (hcount : ht'.nNumOfElements = ht.nNumOfElements)
    (hhash : ∀ k, e.key = some k → e.h = hash k) : ht'.Listed hash where
  size_pos := by rw [hsize]; exact h.size_pos
  used_le := by rw [hused, hsize]; exact h.used_le
  size_lt := by rw [hsize]; exact h.size_lt
  count := by rw [hcount, hmoves.entries, length_map, h.count]
  nodup := by
    rw [hmoves.entries, map_name_assign]
    exact h.nodup
  hashed := by
    rw [hmoves.entries]
    intro e' he' k hk
    obtain ⟨e1, he1, rfl⟩ := mem_map.mp he'
    by_cases hname : e1.name = e.name
    · rw [ZendHash.assign, if_pos hname] at hk ⊢
      exact hhash k hk
    · rw [ZendHash.assign, if_neg hname] at hk ⊢
      exact h.hashed e1 he1 k hk
  stands := by
    rw [hmoves.pointer]
    exact hmoves.stands _ h.stands

end

/-! ## An element is deleted -/

/-- The position `q` comes next after `i`. -/
def HashTable.Next (ht : HashTable K V) (i q : ℕ) : Prop :=
  (q = HT_INVALID_IDX ∨ i < q ∧ Occupied ht.slots q) ∧
    ∀ k, i < k → k < q → ¬ Occupied ht.slots k

/-- A position at a deleted element goes to the next one. -/
def skip (i q p : ℕ) : ℕ := if p = i then q else p

theorem HashTable.Next.visit {q : ℕ} (h : ht.Next i q) (hused : ht.nNumUsed ≤ HT_INVALID_IDX)
    (hi : i < ht.nNumUsed) : ht.visit (i + 1) = ht.visit q := by
  apply visit_eq_of_holes
  · rcases h.1 with rfl | h
    · omega
    · exact h.1
  · intro k hk hkq
    exact h.2 k hk hkq

section

variable [DecidableEq K]

theorem moves_without {q m : ℕ} (hl : ht.Listed hash) (hi : ht.slots[i]? = some (some e))
    (hq : ht.Next i q) (hs : ht.slots.set i none = ht'.slots ++ replicate m none)
    (hp : ht'.nInternalPointer = skip i q ht.nInternalPointer)
    (hc : ht'.nIteratorsCount = ht.nIteratorsCount) : ht.Moves (without e.name) (skip i q) ht' := by
  have hlt : i < ht.nNumUsed := by
    have h := (List.getElem?_eq_some_iff.mp hi).1
    rwa [length_slots] at h
  have hused := Nat.le_of_lt hl.used_lt
  have hentries : ht.entries = _ := reduceOption_of_getElem? hi
  have hvisit' : ∀ p, ht'.visit p = SlotList.visit (ht.slots.set i none) p := by
    intro p
    rw [hs, visit_append_replicate]
    rfl
  have hstand' : ∀ p, p ≠ i → Occupied ht.slots p → Occupied ht'.slots p := by
    intro p hne ⟨a, ha⟩
    rw [← occupied_append_replicate (n := m), ← hs]
    exact ⟨a, by rw [getElem?_set_ne (Ne.symm hne), ha]⟩
  -- the positions up to the element lose it
  have hbefore : ∀ p ≤ i, ht'.visit p = without e.name (ht.visit p) := by
    intro p hpi
    obtain ⟨u, v, hu, hv⟩ := visit_set_none hi hpi
    have hnodup : ((u ++ e :: v).map Entry.name).Nodup := by
      rw [← hu]
      refine List.Nodup.sublist (List.Sublist.map _ ?_) hl.nodup
      exact List.Sublist.filterMap _ (drop_sublist ..)
    rw [hvisit', hv, HashTable.visit, hu, without_middle hnodup]
  -- those behind it do not have it to visit
  have hafter : ∀ p, i < p → ht'.visit p = ht.visit p ∧
      without e.name (ht.visit p) = ht.visit p := by
    intro p hip
    refine ⟨by rw [hvisit', visit_set_of_lt hip]; rfl, ?_⟩
    apply filter_eq_self.mpr
    intro e' he'
    refine decide_eq_true (name_ne_of_middle (hentries ▸ hl.nodup) e' ?_)
    apply mem_append_right
    have hsub : (ht.visit p).Sublist (SlotList.visit ht.slots (i + 1)) :=
      List.Sublist.filterMap _ (drop_sublist_drop_left _ hip)
    exact hsub.subset he'
  refine ⟨hbefore 0 (Nat.zero_le _), hp, hc, ?_, ?_⟩
  · intro p hp
    rw [skip]
    split_ifs with hpi
    · rcases hq.1 with hq | hq
      · exact .inl hq
      · exact .inr (hstand' q (by omega) hq.2)
    · rcases hp with hp | hp
      · exact .inl hp
      · exact .inr (hstand' p hpi hp)
  · intro p _
    rw [skip]
    split_ifs with hpi
    · subst hpi
      have hnext : p < q := by
        rcases hq.1 with hq | hq
        · omega
        · exact hq.1
      have hcons : ht.visit p = e :: ht.visit (p + 1) := visit_of_getElem? hi
      rw [(hafter q hnext).1, ← hq.visit hused hlt, hcons, without, filter_cons_of_neg (by simp)]
      exact (hafter (p + 1) (Nat.lt_succ_self p)).2.symm
    · rcases Nat.lt_or_ge i p with hip | hip
      · rw [(hafter p hip).1, (hafter p hip).2]
      · exact hbefore p hip

theorem HashTable.Listed.without (h : ht.Listed hash) (he : e ∈ ht.entries)
    (hused : ht'.nNumUsed ≤ ht.nNumUsed) (hsize : ht'.nTableSize = ht.nTableSize)
    {r : ℕ → ℕ} (hmoves : ht.Moves (ZendHash.without e.name) r ht')
    (hcount : ht'.nNumOfElements = ht.nNumOfElements - 1) : ht'.Listed hash where
  size_pos := by rw [hsize]; exact h.size_pos
  used_le := by rw [hsize]; exact le_trans hused h.used_le
  size_lt := by rw [hsize]; exact h.size_lt
  count := by
    obtain ⟨u, v, huv⟩ := append_of_mem he
    have hnodup := h.nodup
    rw [huv] at hnodup
    rw [hcount, hmoves.entries, h.count, huv, without_middle hnodup, length_append,
      length_append, length_cons]
    omega
  nodup := by
    rw [hmoves.entries]
    exact List.Nodup.sublist (List.Sublist.map _ filter_sublist) h.nodup
  hashed := by
    rw [hmoves.entries]
    intro e' he'
    exact h.hashed e' (mem_filter.mp he').1
  stands := by
    rw [hmoves.pointer]
    exact hmoves.stands _ h.stands

end

end ZendHash

/-!
# The operations on a table

Every operation keeps the invariant of the table, changes the list of its elements in a way that
can be said, and moves all positions along.  For the iterators that holds as long as no rehash
meets them on both sides of a hole.
-/

namespace ZendHash

open ZendHash.HashTable

variable {K V : Type} {hash : K → ℕ} {self : ℕ} {junk : ℕ → Bucket K V}
  {s s' s'' : State K V} {ht' : HashTable K V}

/-! ## Steps -/

/-- What a step does: the list of the elements changes by `f` and `nNextFreeElement` by `g`, the
internal pointer moves along, and the iterators do if `ok` holds. -/
structure Follows (addr : ℕ) (f : List (Entry K V) → List (Entry K V)) (g : ℤ → ℤ) (ok : Prop)
    (s s' : State K V) : Prop where
  free : s'.ht.nNextFreeElement = g s.ht.nNextFreeElement
  moves : ∃ r, s.ht.Moves f r s'.ht ∧
    (s.Counted addr → s.Standing addr → ok → s'.iterators = relocate addr r s.iterators)

namespace Follows

variable {f f' : List (Entry K V) → List (Entry K V)} {g g' : ℤ → ℤ} {ok ok' : Prop}

theorem mono (h : Follows self f g ok s s') (hok : ok' → ok) : Follows self f g ok' s s' := by
  obtain ⟨hfree, r, hmoves, hits⟩ := h
  exact ⟨hfree, r, hmoves, fun hc hs h => hits hc hs (hok h)⟩

theorem entries (h : Follows self f g ok s s') : s'.ht.entries = f s.ht.entries := by
  obtain ⟨-, r, hmoves, -⟩ := h
  exact hmoves.entries

theorem counted (h : Follows self f g ok s s') (hc : s.Counted self) (hs : s.Standing self)
    (hok : ok) : s'.Counted self := by
  obtain ⟨-, r, hmoves, hits⟩ := h
  rw [State.Counted, hmoves.count, hits hc hs hok, length_owned_relocate]
  exact hc

theorem standing (h : Follows self f g ok s s') (hc : s.Counted self) (hs : s.Standing self)
    (hok : ok) : s'.Standing self := by
  obtain ⟨-, r, hmoves, hits⟩ := h
  intro it hit hself
  rw [hits hc hs hok] at hit
  obtain ⟨it0, hit0, hself0, hpos⟩ := mem_relocate hit hself
  rw [hpos]
  exact hmoves.stands _ (hs it0 hit0 hself0)

/-- Two steps one after the other. -/
theorem trans (h : Follows self f g ok s s') (h' : Follows self f' g' ok' s' s'')
    (hok : ok → ok') : Follows self (f' ∘ f) (g' ∘ g) ok s s'' := by
  obtain ⟨r, hmoves, hits⟩ := h.moves
  obtain ⟨r', hmoves', hits'⟩ := h'.moves
  refine ⟨?_, r' ∘ r, hmoves.trans hmoves', ?_⟩
  · rw [h'.free, h.free, Function.comp_apply]
  · intro hc hs h0
    rw [hits' (h.counted hc hs h0) (h.standing hc hs h0) (hok h0), hits hc hs h0, relocate_comp]

/-- A step that leaves the slots, the internal pointer and the iterators. -/
theorem of_slots (hs : ht'.slots = s.ht.slots) (hp : ht'.nInternalPointer = s.ht.nInternalPointer)
    (hc : ht'.nIteratorsCount = s.ht.nIteratorsCount)
    (hfree : ht'.nNextFreeElement = s.ht.nNextFreeElement) :
    Follows self id id ok s { s with ht := ht' } :=
  ⟨hfree, id, .of_slots hs hp hc, fun _ _ _ => (relocate_id ..).symm⟩

theorem refl (s : State K V) : Follows self id id ok s s := of_slots rfl rfl rfl rfl

end Follows

/-! ## More room -/

/-- A table in the hash layout. -/
structure HashTable.Chaining (hash : K → ℕ) (ht : HashTable K V) : Prop
    extends ht.Valid hash where
  hash_layout : ht.packed = false
  initialized : ht.initialized = true

theorem slots_realloc (n : ℕ) (a : ℕ → Bucket K V) : cells (realloc junk n a) n = cells a n := by
  apply cells_congr
  intro i hi
  rw [realloc, if_pos hi]

/-- What a rehash does to a table whose buckets have been laid out anew. -/
theorem rehash_spec (self : ℕ) (hl : s.ht.Listed hash) (hpacked : s.ht.packed = false)
    (hinit : s.ht.initialized = true) : (s.rehash self).ht.Chaining hash ∧
      (s.rehash self).ht.nTableSize = s.ht.nTableSize ∧
      (s.rehash self).ht.nNumUsed = s.ht.nNumOfElements ∧
      Follows self id id (¬ s.Straddled self) s (s.rehash self) := by
  have hused := le_of_lt hl.used_lt
  have hinit' : s.ht.initialized ≠ false := by
    rw [hinit]
    exact Bool.noConfusion
  have htable := rehash_table self s hl.count hused hl.stands fun h =>
    absurd h hinit'
  refine ⟨⟨htable.valid hl hpacked fun h => absurd h hinit', ?_, ?_⟩, ?_, ?_, ?_, ?_⟩
  · rw [htable.rest]
    exact hpacked
  · rw [htable.rest]
    exact hinit
  · rw [htable.rest]
  · have hlen := congrArg List.length htable.slots
    rw [length_slots, length_compacted] at hlen
    rw [hlen, hl.count]
    rfl
  · rw [htable.rest]
    rfl
  · refine ⟨_, htable.moves hused, fun hc hs hclear => ?_⟩
    exact rehash_iterators hl.count hused hl.stands hs hc hclear

/-- Whether the iterators straddle a hole is seen from the slots. -/
theorem straddled_of_slots (hs : ht'.slots = s.ht.slots)
    (h : ({ s with ht := ht' } : State K V).Straddled self) : s.Straddled self := by
  have hused : ht'.nNumUsed = s.ht.nNumUsed := by
    rw [← length_slots, hs, length_slots]
  have hlive : ∀ t < s.ht.nNumUsed, ht'.live t = s.ht.live t := by
    intro t ht
    have hocc : Occupied ht'.slots t ↔ Occupied s.ht.slots t := by rw [hs]
    rw [occupied_slots, occupied_slots, hused] at hocc
    rw [Bool.eq_iff_iff]
    exact ⟨fun h => (hocc.mp ⟨ht, h⟩).2, fun h => (hocc.mpr ⟨ht, h⟩).2⟩
  obtain ⟨f, hf, hhole, hbefore, hlow, it, hit, hself, hpos, hlt⟩ := h
  rw [hused] at hf hlt
  refine ⟨f, hf, ?_, fun k hk => ?_, hlow, it, hit, hself, hpos, hlt⟩
  · rw [← hlive f hf]
    exact hhole
  · rw [← hlive k (lt_trans hk hf)]
    exact hbefore k hk

/-- The buckets are copied to new memory in the hash layout and rehashed. -/
theorem relaid_spec (self : ℕ) (ht' : HashTable K V) (hl : s.ht.Listed hash)
    (hs : ht'.slots = s.ht.slots)
    (hpos : 0 < ht'.nTableSize) (hused : ht'.nNumUsed ≤ ht'.nTableSize)
    (hsize : ht'.nTableSize < HT_INVALID_IDX) (hcount : ht'.nNumOfElements = s.ht.nNumOfElements)
    (hp : ht'.nInternalPointer = s.ht.nInternalPointer)
    (hc : ht'.nIteratorsCount = s.ht.nIteratorsCount)
    (hfree : ht'.nNextFreeElement = s.ht.nNextFreeElement) (hpacked : ht'.packed = false)
    (hinit : ht'.initialized = true) : (State.rehash self { s with ht := ht' }).ht.Chaining hash ∧
      (State.rehash self { s with ht := ht' }).ht.nTableSize = ht'.nTableSize ∧
      (State.rehash self { s with ht := ht' }).ht.nNumUsed = s.ht.nNumOfElements ∧
      Follows self id id (¬ s.Straddled self) s (.rehash self { s with ht := ht' }) := by
  have hl' : ht'.Listed hash := hl.of_slots hs hpos hused hsize hcount hp
  obtain ⟨hchaining, hsize', hused', hfollows⟩ :=
    rehash_spec (s := { s with ht := ht' }) self hl' hpacked hinit
  refine ⟨hchaining, hsize', hused'.trans hcount, ?_⟩
  exact (Follows.of_slots hs hp hc hfree).trans hfollows fun h h' =>
    h (straddled_of_slots hs h')

theorem packedToHash_spec (self : ℕ) (junk : ℕ → Bucket K V) (hv : s.ht.Valid hash)
    (hinit : s.ht.initialized = true) :
    (s.packedToHash self junk).ht.Chaining hash ∧
      (s.packedToHash self junk).ht.nNumUsed = s.ht.nNumOfElements ∧
      Follows self id id (¬ s.Straddled self) s (s.packedToHash self junk) := by
  obtain ⟨hchaining, -, hused, hfollows⟩ := relaid_spec self
    { s.ht with
      packed := false
      nTableMask := negSize s.ht.nTableSize
      arData := realloc junk s.ht.nNumUsed s.ht.arData } hv.toListed (slots_realloc ..)
    hv.size_pos hv.used_le hv.size_lt rfl rfl rfl rfl rfl hinit
  exact ⟨hchaining, hused, hfollows⟩

theorem resizeHash_spec (self : ℕ) (junk : ℕ → Bucket K V) (nSize : ℕ) (hv : s.ht.Chaining hash)
    (hpos : 0 < nSize)
    (hused : s.ht.nNumUsed ≤ nSize) (hsize : nSize < HT_INVALID_IDX) :
    (s.resizeHash self junk nSize).ht.Chaining hash ∧
      (s.resizeHash self junk nSize).ht.nTableSize = nSize ∧
      (s.resizeHash self junk nSize).ht.nNumUsed = s.ht.nNumOfElements ∧
      Follows self id id (¬ s.Straddled self) s (s.resizeHash self junk nSize) :=
  relaid_spec self _ hv.toListed (slots_realloc ..) hpos hused hsize rfl rfl rfl rfl
    hv.hash_layout hv.initialized

/-- As many elements as buckets at most. -/
theorem HashTable.Listed.elements_le {ht : HashTable K V} (h : ht.Listed hash) :
    ht.nNumOfElements ≤ ht.nNumUsed := by
  have hle := List.reduceOption_length_le ht.slots
  rw [length_slots] at hle
  rw [h.count]
  exact hle

/-- A table that may be doubled has indices for all its buckets. -/
theorem double_max : HT_MAX_SIZE + HT_MAX_SIZE ≤ HT_INVALID_IDX + 1 := by decide

theorem doResize_spec (hv : s.ht.Chaining hash) (h : s.doResize self junk = some s') :
    s'.ht.Chaining hash ∧ s'.ht.nNumUsed < s'.ht.nTableSize ∧
      Follows self id id (¬ s.Straddled self) s s' := by
  have hused := hv.used_le
  have hpos := hv.size_pos
  have helements := hv.toListed.elements_le
  have hmax := double_max
  rw [State.doResize] at h
  split_ifs at h with hmany hroom
  · cases h
    obtain ⟨hchaining, hsize', hused', hfollows⟩ :=
      rehash_spec self hv.toListed hv.hash_layout hv.initialized
    exact ⟨hchaining, by omega, hfollows⟩
  · cases h
    obtain ⟨hchaining, hsize', hused', hfollows⟩ :=
      resizeHash_spec self junk (s.ht.nTableSize + s.ht.nTableSize)
        hv (by omega) (by omega) (by omega)
    exact ⟨hchaining, by omega, hfollows⟩

theorem ifFullDoResize_spec (hv : s.ht.Chaining hash) (h : s.ifFullDoResize self junk = some s') :
    s'.ht.Chaining hash ∧ s'.ht.nNumUsed < s'.ht.nTableSize ∧
      Follows self id id (s.ht.nTableSize ≤ s.ht.nNumUsed → ¬ s.Straddled self) s s' := by
  rw [State.ifFullDoResize] at h
  split_ifs at h with hfull
  · obtain ⟨hchaining, hroom, hfollows⟩ := doResize_spec hv h
    exact ⟨hchaining, hroom, hfollows.mono fun hok => hok hfull⟩
  · cases h
    exact ⟨hv, by omega, .refl s⟩

/-- A table without holes is not straddled. -/
theorem not_straddled_of_full (hl : s.ht.Listed hash)
    (hfull : s.ht.nNumUsed = s.ht.nNumOfElements) : ¬ s.Straddled self := by
  rintro ⟨f, hf, hhole, -⟩
  have hlive := live_of_length (hl.count.symm.trans hfull.symm) f hf
  rw [hhole] at hlive
  exact Bool.false_ne_true hlive

/-- A packed table becomes one in the hash layout with room for one more element. -/
theorem convert_spec (hv : s.ht.Valid hash) (hinit : s.ht.initialized = true)
    (h : (s.packedToHash self junk).ifFullDoResize self junk = some s') :
    s'.ht.Chaining hash ∧ s'.ht.nNumUsed < s'.ht.nTableSize ∧
      Follows self id id (¬ s.Straddled self) s s' := by
  obtain ⟨hchaining, hused, hfollows⟩ := packedToHash_spec self junk hv hinit
  obtain ⟨hchaining', hroom, hfollows'⟩ := ifFullDoResize_spec hchaining h
  refine ⟨hchaining', hroom, hfollows.trans hfollows' fun _ _ => ?_⟩
  refine not_straddled_of_full hchaining.toListed ?_
  -- the elements are as many as they were
  have hentries := hfollows.entries
  rw [hused, hv.count, hchaining.count, hentries]
  rfl

end ZendHash
