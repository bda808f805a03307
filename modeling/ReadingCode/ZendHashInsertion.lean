/-
# Finding and adding elements

A search finds the element with a key where there is one.  An insertion replaces the value of
such an element, or has no effect, and else it adds one behind the others, for which it may
first have to make room or to give up the packed layout.
-/
import ReadingCode.ZendHashChanges

open SlotList

namespace ZendHash

open ZendHash.HashTable

open List Option

variable {K V : Type} {hash : K → ℕ} {self : ℕ} {junk : ℕ → Bucket K V}
  {s s' : State K V} {ht : HashTable K V} {h : ℕ} {v : V} {key : Option K}

/-! ## Keys -/

variable {e : Entry K V} {k : K}

theorem name_eq_inl : e.name = .inl k ↔ e.key = some k := by
  rw [Entry.name]
  cases e.key with
  | none => simp
  | some k' => simp

theorem name_eq_inr : e.name = .inr h ↔ e.key = none ∧ e.h = h := by
  rw [Entry.name]
  cases e.key with
  | none => simp
  | some k' => simp

/-- The keys of a table. -/
def HashTable.names (ht : HashTable K V) : List (K ⊕ ℕ) := ht.entries.map Entry.name

variable {x : K ⊕ ℕ}

theorem mem_names :
    x ∈ ht.names ↔ ∃ i : ℕ, ∃ e : Entry K V, ht.slots[i]? = some (some e) ∧ e.name = x := by
  rw [names, List.mem_map]
  constructor
  · rintro ⟨e, he, hx⟩
    obtain ⟨i, hi⟩ := mem_iff_getElem?.mp (reduceOption_mem_iff.mp he)
    exact ⟨i, e, hi, hx⟩
  · rintro ⟨i, e, hi, hx⟩
    exact ⟨e, reduceOption_mem_iff.mpr (mem_of_getElem? hi), hx⟩

theorem mem_entries_of_slot {i : ℕ} (hi : ht.slots[i]? = some (some e)) : e ∈ ht.entries :=
  reduceOption_mem_iff.mpr (mem_of_getElem? hi)

/-! ## Searching -/

/-- A search for the key `x`, of the hash `h`. -/
theorem search_entry {p : Bucket K V → Bool} (hv : ht.Valid hash) (hpacked : ht.packed = false)
    (hp : ∀ (b : Bucket K V) e, b.entry = some e → (p b = true ↔ e.h = h ∧ e.name = x))
    (hx : ∀ e : Entry K V, e ∈ ht.entries → e.name = x → e.h = h) :
    (ht.search p h = none ∧ x ∉ ht.names) ∨
    ∃ i u w, ∃ e : Entry K V, ht.search p h = some (i, lastOr none u) ∧ ht.slots[i]? =
    some (some e) ∧
      e.name = x ∧ chainList ht.nTableMask ht.arData ht.nNumUsed (ht.nIndex (ht.arData i).h)
        = u ++ i :: w := by
  rcases search_spec (p := p) (hv.chained hpacked) h with ⟨hnone, hall⟩ | ⟨i, u, w, hi, hpi, hlist⟩
  · left
    refine ⟨hnone, fun hmem => ?_⟩
    obtain ⟨i, e, hi, he⟩ := mem_names.mp hmem
    have hlt : i < ht.nNumUsed := by
      have hlen := (List.getElem?_eq_some_iff.mp hi).1
      rwa [length_slots] at hlen
    have hentry : (ht.arData i).entry = some e := by
      rw [slots, getElem?_cells hlt] at hi
      exact Option.some.inj hi
    obtain ⟨hval, hkey, hh⟩ := entry_eq_some.mp hentry
    have heh := hx e (mem_entries_of_slot hi) he
    have hslot : inSlot ht.nTableMask (ht.nIndex h) (ht.arData i) = true := by
      rw [inSlot, hval, hh, heh, nIndex_eq, beq_self_eq_true]
      rfl
    have hfalse := hall i hlt hslot
    rw [(hp _ e hentry).mpr ⟨heh, he⟩] at hfalse
    cases hfalse
  · right
    have hmem : i ∈ chainList ht.nTableMask ht.arData ht.nNumUsed (ht.nIndex h) := by
      rw [hlist]
      exact mem_append_right u mem_cons_self
    obtain ⟨hlt, hslot⟩ := mem_chainList.mp hmem
    rw [inSlot, Bool.and_eq_true, beq_iff_eq, ← isSome_entry] at hslot
    obtain ⟨e, he⟩ := isSome_iff_exists.mp hslot.1
    refine ⟨i, u, w, e, hi, ?_, ((hp _ e he).mp hpi).2, ?_⟩
    · rw [slots, getElem?_cells hlt, he]
    · rw [nIndex_eq, hslot.2]
      exact hlist

variable {b : Bucket K V} {flag : Flag}

theorem isIndex_iff (he : b.entry = some e) : isIndex h b = true ↔ e.h = h ∧ e.name = .inr h := by
  obtain ⟨-, hkey, hh⟩ := entry_eq_some.mp he
  rw [isIndex, decide_eq_true_iff, hkey, hh, name_eq_inr, isNone_iff_eq_none]
  tauto

theorem isKey_iff [DecidableEq K] (he : b.entry = some e) :
    isKey k h b = true ↔ e.h = h ∧ e.name = .inl k := by
  obtain ⟨-, hkey, hh⟩ := entry_eq_some.mp he
  rw [isKey, decide_eq_true_iff, hkey, hh, name_eq_inl]

/-- The search of `zend_hash_find_bucket` and `zend_hash_del`. -/
theorem search_key [DecidableEq K] (hv : ht.Valid hash) (hpacked : ht.packed = false) (k : K) :
    (ht.search (isKey k (hash k)) (hash k) = none ∧ .inl k ∉ ht.names) ∨
    ∃ i u w, ∃ e : Entry K V, ht.search (isKey k (hash k)) (hash k) = some (i, lastOr none u) ∧
      ht.slots[i]? = some (some e) ∧ e.name = .inl k ∧
      chainList ht.nTableMask ht.arData ht.nNumUsed (ht.nIndex (ht.arData i).h) = u ++ i :: w :=
  search_entry hv hpacked (fun _ _ he => isKey_iff he) fun e he hname =>
    hv.hashed e he k (name_eq_inl.mp hname)

/-- The search of `zend_hash_index_find_bucket` and `zend_hash_index_del`. -/
theorem search_index (hv : ht.Valid hash) (hpacked : ht.packed = false) (h : ℕ) :
    (ht.search (isIndex h) h = none ∧ .inr h ∉ ht.names) ∨
    ∃ i u w, ∃ e : Entry K V, ht.search (isIndex h) h = some (i, lastOr none u) ∧
      ht.slots[i]? = some (some e) ∧ e.name = .inr h ∧
      chainList ht.nTableMask ht.arData ht.nNumUsed (ht.nIndex (ht.arData i).h) = u ++ i :: w :=
  search_entry hv hpacked (fun _ _ he => isIndex_iff he) fun _ _ hname =>
    (name_eq_inr.mp hname).2

/-- A packed table has integer keys only, each of them its index. -/
theorem slot_of_packed (hv : ht.Valid hash) (hpacked : ht.packed = true) :
    x ∈ ht.names ↔ ∃ i, x = .inr i ∧ i < ht.nNumUsed ∧ ht.live i = true := by
  rw [mem_names]
  constructor
  · rintro ⟨i, e, hi, rfl⟩
    obtain ⟨hkey, hh⟩ := hv.indexed hpacked i e hi
    exact ⟨i, name_eq_inr.mpr ⟨hkey, hh⟩, occupied_slots.mp ⟨e, hi⟩⟩
  · rintro ⟨i, rfl, hlive⟩
    obtain ⟨e, he⟩ := occupied_slots.mpr hlive
    exact ⟨i, e, he, name_eq_inr.mpr (hv.indexed hpacked i e he)⟩

/-! ## Adding in the hash layout -/

/-- `nNextFreeElement` after an insertion. -/
def freeAfter (key : Option K) (h : ℕ) (n : ℤ) : ℤ := if key.isNone then nextFree n h else n

theorem ht_addToHash (self : ℕ) (s : State K V) (key : Option K) (h : ℕ) (v : V) :
    (s.addToHash self key h v).ht = { s.ht with
      nNumUsed := s.ht.nNumUsed + 1
      nNumOfElements := s.ht.nNumOfElements + 1
      nInternalPointer := land s.ht.nNumUsed s.ht.nInternalPointer
      nNextFreeElement := freeAfter key h s.ht.nNextFreeElement
      arData := Function.update s.ht.arData s.ht.nNumUsed
        { val := some v, next := s.ht.hash (s.ht.nIndex h), h := h, key := key }
      hash := Function.update s.ht.hash (s.ht.nIndex h) s.ht.nNumUsed } := by
  simp [State.addToHash, State.arrive, link, nIndex, land, freeAfter]

theorem iterators_addToHash (hc : s.Counted self) (key : Option K) (h : ℕ) (v : V) :
    (s.addToHash self key h v).iterators = relocate self (land s.ht.nNumUsed) s.iterators := by
  refine State.iterators_iteratorsUpdate ?_ _ _
  exact hc

theorem addToHash_spec (self : ℕ) (hv : s.ht.Chaining hash)
    (hroom : s.ht.nNumUsed < s.ht.nTableSize)
    (hnew : Entry.name ⟨key, h, v⟩ ∉ s.ht.names) (hhash : ∀ k, key = some k → h = hash k) :
    (s.addToHash self key h v).ht.Chaining hash ∧
      Follows self (· ++ [⟨key, h, v⟩]) (freeAfter key h) True s (s.addToHash self key h v) := by
  have hht := ht_addToHash self s key h v
  have hused := hv.used_lt
  have hslots : (s.addToHash self key h v).ht.slots
      = s.ht.slots ++ replicate 0 none ++ [some ⟨key, h, v⟩] := by
    rw [hht, slots]
    dsimp only
    rw [cells_succ, cells_update_of_ge le_rfl, Function.update_self, replicate_zero, append_nil]
    rfl
  have hmoves := moves_append hused hslots (by rw [hht]; rfl) (by rw [hht])
  have hlisted : (s.addToHash self key h v).ht.Listed hash := by
    refine hv.toListed.append ?_ ?_ ?_ hmoves (by rw [hht]) hnew hhash
    · rw [hht]
      exact hv.size_pos
    · rw [hht]
      exact hv.size_lt
    · rw [hht]
      exact hroom
  refine ⟨⟨⟨hlisted, ?_, ?_, ?_, ?_⟩, ?_, ?_⟩, ?_, _, hmoves, fun hc _ _ => ?_⟩
  · intro hp
    rw [hht] at hp
    exact absurd (hp.symm.trans hv.hash_layout) Bool.noConfusion
  · intro hp
    rw [hht] at hp
    exact absurd (hp.symm.trans hv.hash_layout) Bool.noConfusion
  · intro _
    rw [hht]
    exact chained_link (b := ⟨some v, 0, h, key⟩) (hv.chained hv.hash_layout) hused rfl
  · intro hi
    rw [hht] at hi
    exact absurd (hi.symm.trans hv.initialized) Bool.noConfusion
  · rw [hht]
    exact hv.hash_layout
  · rw [hht]
    exact hv.initialized
  · rw [hht]
  · exact iterators_addToHash hc key h v

/-! ## Adding in the packed layout -/

/-- The buckets in front of a new element of a packed table. -/
def gapMemory (s : State K V) (h : ℕ) (flag : Flag) : ℕ → Bucket K V :=
  if flag.addNew ∧ flag.addNext then s.ht.arData
  else undefBuckets s.ht.nNumUsed h s.ht.arData

theorem ht_addToPacked (self : ℕ) (flag : Flag) (hle : s.ht.nNumUsed ≤ h) (v : V) :
    (s.addToPacked self h v flag).ht = { s.ht with
      nNumUsed := h + 1
      nNumOfElements := s.ht.nNumOfElements + 1
      nInternalPointer := land h s.ht.nInternalPointer
      nNextFreeElement := nextFree s.ht.nNextFreeElement h
      arData := Function.update (gapMemory s h flag) h
        { val := some v, next := (gapMemory s h flag h).next, h := h, key := none } } := by
  by_cases hfast : flag.addNew = true ∧ flag.addNext = true
  · simp [State.addToPacked, State.arrive, land, gapMemory, hfast]
  · simp [State.addToPacked, State.arrive, land, gapMemory, hfast, hle]

theorem iterators_addToPacked (hc : s.Counted self) (h : ℕ) (v : V) :
    (s.addToPacked self h v flag).iterators = relocate self (land h) s.iterators := by
  unfold State.addToPacked State.arrive
  refine State.iterators_iteratorsUpdate ?_ _ _
  dsimp only
  split_ifs <;> exact hc

theorem cells_gapMemory (hle : s.ht.nNumUsed ≤ h)
    (hclear : flag.addNew = true → flag.addNext = true →
      ∀ i, s.ht.nNumUsed ≤ i → i < h → (s.ht.arData i).val = none) : cells (gapMemory s h flag) h
      = s.ht.slots ++ replicate (h - s.ht.nNumUsed) none := by
  have hholes : ∀ i, s.ht.nNumUsed ≤ i → i < h → (gapMemory s h flag i).val = none := by
    intro i hi hlt
    rw [gapMemory]
    split_ifs with hfast
    · exact hclear hfast.1 hfast.2 i hi hlt
    · rw [undefBuckets, if_pos ⟨hi, hlt⟩]
  rw [cells_of_holes hle hholes]
  congr 1
  apply cells_congr
  intro i hi
  rw [gapMemory]
  split_ifs
  · rfl
  · rw [undefBuckets, if_neg (by omega)]

theorem addToPacked_spec (self : ℕ) (v : V) (hv : s.ht.Valid hash) (hpacked : s.ht.packed = true)
    (hinit : s.ht.initialized = true) (hle : s.ht.nNumUsed ≤ h) (hroom : h < s.ht.nTableSize)
    (hclear : flag.addNew = true → flag.addNext = true →
      ∀ i, s.ht.nNumUsed ≤ i → i < h → (s.ht.arData i).val = none) :
    (s.addToPacked self h v flag).ht.Valid hash ∧
      Follows self (· ++ [⟨none, h, v⟩]) (nextFree · h) True s (s.addToPacked self h v flag) := by
  have hht := ht_addToPacked self flag hle v
  have hsize := hv.size_lt
  have hidx : s.ht.nNumUsed + (h - s.ht.nNumUsed) = h := by omega
  have hslots : (s.addToPacked self h v flag).ht.slots
      = s.ht.slots ++ replicate (h - s.ht.nNumUsed) none ++ [some ⟨none, h, v⟩] := by
    rw [hht, slots]
    dsimp only
    rw [cells_succ, cells_update_of_ge le_rfl, Function.update_self, cells_gapMemory hle hclear]
    rfl
  have hmoves := moves_append (by omega) hslots (by rw [hht, hidx]) (by rw [hht])
  rw [hidx] at hmoves
  have hnew : Sum.inr h ∉ s.ht.names := by
    rw [slot_of_packed hv hpacked]
    rintro ⟨i, hi, hlt, -⟩
    have heq := Sum.inr.inj hi
    omega
  have hlisted : (s.addToPacked self h v flag).ht.Listed hash := by
    refine hv.toListed.append ?_ ?_ ?_ hmoves (by rw [hht]) hnew fun k hk => ?_
    · rw [hht]
      exact hv.size_pos
    · rw [hht]
      exact hv.size_lt
    · rw [hht]
      exact hroom
    · cases hk
  refine ⟨⟨hlisted, ?_, ?_, ?_, ?_⟩, ?_, _, hmoves, fun hc _ _ => ?_⟩
  · intro _ i e hi
    rw [hslots] at hi
    rcases Nat.lt_trichotomy i h with hlt | rfl | hlt
    · -- an old element, none is in the gap
      have hlen : (s.ht.slots ++ replicate (h - s.ht.nNumUsed) none).length = h := by
        rw [length_append, length_slots, length_replicate, hidx]
      rw [getElem?_append_left (by rw [hlen]; exact hlt)] at hi
      obtain ⟨e', he'⟩ := occupied_append_replicate.mp ⟨e, hi⟩
      have hlt' := (List.getElem?_eq_some_iff.mp he').1
      rw [getElem?_append_left hlt'] at hi
      exact hv.indexed hpacked i e hi
    · have hlast := getElem?_append_holes s.ht.slots (i - s.ht.nNumUsed)
        (⟨none, i, v⟩ : Entry K V)
      rw [length_slots, hidx, hi] at hlast
      cases hlast
      exact ⟨rfl, rfl⟩
    · have hlen := (List.getElem?_eq_some_iff.mp hi).1
      rw [length_append, length_append, length_slots] at hlen
      exact absurd hlen (by simp; omega)
  · intro _
    rw [hht]
    exact hv.unlinked hpacked
  · intro hp
    rw [hht] at hp
    exact absurd (hp.symm.trans hpacked) Bool.noConfusion
  · intro hi
    rw [hht] at hi
    exact absurd (hi.symm.trans hinit) Bool.noConfusion
  · rw [hht]
  · exact iterators_addToPacked hc h v

/-! ## A table without memory -/

theorem notMem_of_fresh (hv : s.ht.Valid hash) (hinit : s.ht.initialized = false)
    (x : K ⊕ ℕ) : x ∉ s.ht.names := by
  rw [mem_names]
  rintro ⟨i, e, hi, -⟩
  have hlt := (List.getElem?_eq_some_iff.mp hi).1
  rw [length_slots, (hv.fresh hinit).2] at hlt
  exact absurd hlt (Nat.not_lt_zero i)

/-- The first memory of a table. -/
theorem realInit_slots (junk : ℕ → Bucket K V) (hused : ht.nNumUsed = 0) (packed : Bool) :
    (ht.realInit packed junk).slots = ht.slots := by
  have hused' : (ht.realInit packed junk).nNumUsed = 0 := by
    cases packed
    · exact hused
    · exact hused
  rw [slots, slots, hused, hused']
  rfl

theorem realInit_listed (junk : ℕ → Bucket K V) (hv : ht.Valid hash)
    (hfresh : ht.initialized = false) (packed : Bool) :
    (ht.realInit packed junk).Listed hash := by
  have hslots := realInit_slots junk (hv.fresh hfresh).2 packed
  cases packed
  · exact hv.toListed.of_slots hslots hv.size_pos hv.used_le hv.size_lt rfl rfl
  · exact hv.toListed.of_slots hslots hv.size_pos hv.used_le hv.size_lt rfl rfl

theorem realInit_follows {ok : Prop} (hv : s.ht.Valid hash) (hfresh : s.ht.initialized = false)
    (packed : Bool) : Follows self id id ok s { s with ht := s.ht.realInit packed junk } := by
  have hslots := realInit_slots junk (hv.fresh hfresh).2 packed
  cases packed
  · exact .of_slots hslots rfl rfl rfl
  · exact .of_slots hslots rfl rfl rfl

theorem realInit_hash (hv : ht.Valid hash) (hfresh : ht.initialized = false) :
    (ht.realInit false junk).Chaining hash := by
  have hlisted := realInit_listed junk hv hfresh false
  obtain ⟨hpacked, hused⟩ := hv.fresh hfresh
  refine ⟨⟨hlisted, ?_, ?_, ?_, ?_⟩, hpacked, rfl⟩
  · intro hp
    exact absurd (hp.symm.trans hpacked) Bool.noConfusion
  · intro hp
    exact absurd (hp.symm.trans hpacked) Bool.noConfusion
  · intro _
    have hused' : (ht.realInit false junk).nNumUsed = 0 := hused
    rw [hused']
    exact fun _ => rfl
  · intro hi
    cases hi

theorem realInit_packed (hv : ht.Valid hash) (hfresh : ht.initialized = false) :
    (ht.realInit true junk).Valid hash := by
  have hlisted := realInit_listed junk hv hfresh true
  have hslots := realInit_slots junk (hv.fresh hfresh).2 true
  refine ⟨hlisted, ?_, fun _ _ => rfl, ?_, ?_⟩
  · intro _ i e hi
    rw [hslots] at hi
    have hlt := (List.getElem?_eq_some_iff.mp hi).1
    rw [length_slots, (hv.fresh hfresh).2] at hlt
    exact absurd hlt (Nat.not_lt_zero i)
  · intro hp
    cases hp
  · intro hi
    cases hi

/-! ## Replacing a value -/

section

variable [DecidableEq K]

theorem setVal_spec {i : ℕ} (hv : s.ht.Valid hash) (hi : s.ht.slots[i]? = some (some e)) (n : ℤ) :
    ({ s.ht.setVal i (some v) with nNextFreeElement := n } : HashTable K V).Valid hash ∧
      s.ht.Moves (List.map (assign { e with val := v })) id
        { s.ht.setVal i (some v) with nNextFreeElement := n } := by
  have hlt : i < s.ht.nNumUsed := by
    have hlen := (List.getElem?_eq_some_iff.mp hi).1
    rwa [length_slots] at hlen
  have hentry : (s.ht.arData i).entry = some e := by
    rw [slots, getElem?_cells hlt] at hi
    exact Option.some.inj hi
  obtain ⟨hval, hkey, hh⟩ := entry_eq_some.mp hentry
  have hslots : (s.ht.setVal i (some v)).slots
      = s.ht.slots.set i (some { e with val := v }) := by
    rw [slots, setVal]
    rw [cells_update]
    congr 1
    exact entry_eq_some.mpr ⟨rfl, hkey, hh⟩
  have hmoves : s.ht.Moves (List.map (assign { e with val := v })) id
      { s.ht.setVal i (some v) with nNextFreeElement := n } :=
    moves_assign hv.nodup hi rfl hslots rfl rfl
  refine ⟨⟨hv.toListed.assign rfl rfl hmoves rfl fun k hk => ?_, ?_, hv.unlinked, ?_, hv.fresh⟩,
    hmoves⟩
  · exact hv.hashed e (mem_entries_of_slot hi) k hk
  · intro hpacked k e' hk
    change (s.ht.setVal i (some v)).slots[k]? = _ at hk
    rw [hslots, getElem?_set] at hk
    split_ifs at hk with hik
    · cases hk
      subst hik
      exact hv.indexed hpacked i e hi
    · exact hv.indexed hpacked k e' hk
  · intro hpacked
    refine (hv.chained hpacked).setVal (v := v) ?_
    rw [hval]
    rfl

/-! ## Insertions -/

/-- Keys are compared as such; the sum type has a test for equality of its own. -/
instance decidableMemKeys (x : K ⊕ ℕ) (l : List (K ⊕ ℕ)) : Decidable (x ∈ l) :=
  @List.instDecidableMemOfLawfulBEq _ instBEqOfDecidableEq inferInstance x l

/-- What an insertion does to the list of the elements. -/
def put (ht : HashTable K V) (e : Entry K V) (add : Bool) (l : List (Entry K V)) :
    List (Entry K V) :=
  if e.name ∈ ht.names then if add then l else l.map (assign e) else l ++ [e]

theorem put_of_mem (h : e.name ∈ ht.names) : put ht e false = List.map (assign e) := by
  funext l
  rw [put, if_pos h]
  rfl

theorem put_add_of_mem (h : e.name ∈ ht.names) : put ht e true = id := by
  funext l
  rw [put, if_pos h]
  rfl

theorem put_of_notMem (h : e.name ∉ ht.names) (add : Bool) : put ht e add = (· ++ [e]) := by
  funext l
  rw [put, if_neg h]

/-- Whether an insertion with a string key rehashes the table. -/
def State.AddRehashes (hash : K → ℕ) (s : State K V) (k : K) (addNew : Bool) : Prop :=
  s.ht.initialized = true ∧ (s.ht.packed = true ∨
    (addNew = true ∨ s.ht.findBucket hash k = none) ∧ s.ht.nTableSize ≤ s.ht.nNumUsed)

/-- A state in which an element can be added. -/
theorem addOrUpdate_add {t : State K V} {ok : Prop} (hv : t.ht.Chaining hash)
    (hroom : t.ht.nNumUsed < t.ht.nTableSize) (hfollows : Follows self id id ok s t)
    (hnew : .inl k ∉ s.ht.names) (add : Bool) :
    (t.addToHash self (some k) (hash k) v).ht.Valid hash ∧
      Follows self (put s.ht ⟨some k, hash k, v⟩ add) id ok s
        (t.addToHash self (some k) (hash k) v) := by
  have hentries : t.ht.entries = s.ht.entries := hfollows.entries
  have hnew' : Entry.name (⟨some k, hash k, v⟩ : Entry K V) ∉ t.ht.names := by
    rw [names, hentries]
    exact hnew
  obtain ⟨hchaining, hadd⟩ := addToHash_spec self hv hroom hnew' fun k' hk' => by
    cases hk'
    rfl
  rw [put_of_notMem (e := ⟨some k, hash k, v⟩) hnew]
  exact ⟨hchaining.toValid, hfollows.trans hadd fun _ => trivial⟩

theorem addOrUpdate_spec {flag : Flag} {r : Option ℕ} (hv : s.ht.Valid hash)
    (h : s.addOrUpdate self junk hash k v flag = some (s', r))
    (hnew : flag.addNew = true → .inl k ∉ s.ht.names) :
    s'.ht.Valid hash ∧ Follows self (put s.ht ⟨some k, hash k, v⟩ flag.add) id
      (s.AddRehashes hash k flag.addNew → ¬ s.Straddled self) s s' := by
  rw [State.addOrUpdate] at h
  by_cases hinit : s.ht.initialized = false
  · rw [if_pos hinit] at h
    cases h
    obtain ⟨-, hused⟩ := hv.fresh hinit
    refine addOrUpdate_add (realInit_hash hv hinit) ?_ (realInit_follows hv hinit false) ?_ _
    · have hpos := hv.size_pos
      change s.ht.nNumUsed < s.ht.nTableSize
      omega
    · exact notMem_of_fresh hv hinit _
  rw [if_neg hinit] at h
  rw [Bool.not_eq_false] at hinit
  by_cases hpacked : s.ht.packed = true
  · rw [if_pos hpacked] at h
    obtain ⟨t, ht, h⟩ := map_eq_some_iff.mp h
    cases h
    obtain ⟨hchaining, hroom, hfollows⟩ := convert_spec hv hinit ht
    refine addOrUpdate_add hchaining hroom
      (hfollows.mono fun hok => hok ⟨hinit, .inl hpacked⟩) ?_ _
    rw [slot_of_packed hv hpacked]
    rintro ⟨i, hi, -⟩
    cases hi
  rw [if_neg hpacked] at h
  rw [Bool.not_eq_true] at hpacked
  by_cases hadd : flag.addNew = true
  · rw [if_pos hadd] at h
    obtain ⟨t, ht, h⟩ := map_eq_some_iff.mp h
    cases h
    obtain ⟨hchaining, hroom, hfollows⟩ := ifFullDoResize_spec ⟨hv, hpacked, hinit⟩ ht
    exact addOrUpdate_add hchaining hroom
      (hfollows.mono fun hok hfull => hok ⟨hinit, .inr ⟨.inl hadd, hfull⟩⟩) (hnew hadd) _
  · rw [if_neg hadd] at h
    rcases search_key hv hpacked k with ⟨hnone, hmem⟩ | ⟨i, u, w, e, hsome, hi, hname, -⟩
    · have hfind : s.ht.findBucket hash k = none := by
        rw [findBucket, hnone]
        rfl
      rw [hfind] at h
      obtain ⟨t, ht, h⟩ := map_eq_some_iff.mp h
      cases h
      obtain ⟨hchaining, hroom, hfollows⟩ := ifFullDoResize_spec ⟨hv, hpacked, hinit⟩ ht
      exact addOrUpdate_add hchaining hroom
        (hfollows.mono fun hok hfull => hok ⟨hinit, .inr ⟨.inr hfind, hfull⟩⟩) hmem _
    · have hfind : s.ht.findBucket hash k = some i := by
        rw [findBucket, hsome]
        rfl
      have hmem : Entry.name (⟨some k, hash k, v⟩ : Entry K V) ∈ s.ht.names :=
        mem_names.mpr ⟨i, e, hi, hname⟩
      rw [hfind] at h
      split_ifs at h with hflag
      · cases h
        rw [hflag, put_add_of_mem hmem]
        exact ⟨hv, .refl s⟩
      · cases h
        rw [Bool.not_eq_true] at hflag
        have hkey := name_eq_inl.mp hname
        have heq : (⟨some k, hash k, v⟩ : Entry K V) = { e with val := v } := by
          rw [← hkey, ← hv.hashed e (mem_entries_of_slot hi) k hkey]
        rw [hflag, put_of_mem hmem, heq]
        obtain ⟨hvalid, hmoves⟩ := setVal_spec (v := v) hv hi s.ht.nNextFreeElement
        exact ⟨hvalid, rfl, _, hmoves, fun _ _ _ => (relocate_id ..).symm⟩

end

end ZendHash

/-!
# Adding elements with integer keys

An insertion with an integer key may go to the packed layout, where its key is the index.  The
fast insertion of the next index does not look at the buckets in front of the new one; it is
right if nothing is in them.
-/

namespace ZendHash

open ZendHash.HashTable

open Option

variable {K V : Type} {hash : K → ℕ} {self : ℕ} {junk : ℕ → Bucket K V}
  {s s' t : State K V} {h : ℕ} {v : V} {flag : Flag} {ok : Prop}

/-! ## Where an element goes -/

/-- The new element of the key `h` goes to a packed table. -/
def State.AddsPacked (s : State K V) (h : ℕ) : Prop :=
  if s.ht.initialized = false then h < s.ht.nTableSize
  else s.ht.packed = true ∧ s.ht.nNumUsed ≤ h ∧ (h < s.ht.nTableSize ∨
    h >>> 1 < s.ht.nTableSize ∧ s.ht.nTableSize >>> 1 < s.ht.nNumOfElements)

/-- The memory of the table in which the bucket `h` is. -/
def State.packedMemory (s : State K V) (junk : ℕ → Bucket K V) (h : ℕ) : ℕ → Bucket K V :=
  if s.ht.initialized = true ∧ h < s.ht.nTableSize then s.ht.arData else junk

/-- The buckets between the used ones and the bucket `h` of a packed table are empty. -/
def State.GapEmpty (s : State K V) (junk : ℕ → Bucket K V) (h : ℕ) : Prop :=
  s.AddsPacked h → ∀ i, s.ht.nNumUsed ≤ i → i < h → (s.packedMemory junk h i).val = none

/-- Whether an insertion with an integer key rehashes the table. -/
def State.IndexAddRehashes (s : State K V) (h : ℕ) (addNew : Bool) : Prop :=
  s.ht.initialized = true ∧
    if s.ht.packed = true then
      h < s.ht.nNumUsed ∧ s.ht.live h = false ∨ s.ht.nTableSize ≤ h ∧
        ¬ (h >>> 1 < s.ht.nTableSize ∧ s.ht.nTableSize >>> 1 < s.ht.nNumOfElements)
    else
      (addNew = true ∨ s.ht.indexFindBucket h = none) ∧ s.ht.nTableSize ≤ s.ht.nNumUsed

/-! ## The tables -/

/-- A packed table with twice the room. -/
theorem packedGrow_spec {ht' : HashTable K V} (self : ℕ) (hv : s.ht.Valid hash)
    (hpacked : s.ht.packed = true) (hgrow : s.ht.packedGrow junk = some ht') :
    ht'.Valid hash ∧ ht' = { s.ht with
      nTableSize := s.ht.nTableSize + s.ht.nTableSize
      arData := realloc junk s.ht.nNumUsed s.ht.arData } ∧
    Follows self id id ok s { s with ht := ht' } := by
  have hused := hv.used_le
  have hpos := hv.size_pos
  have hmax := double_max
  rw [packedGrow] at hgrow
  split_ifs at hgrow with hsize
  cases hgrow
  have hslots : slots { s.ht with
      nTableSize := s.ht.nTableSize + s.ht.nTableSize
      arData := realloc junk s.ht.nNumUsed s.ht.arData } = s.ht.slots := slots_realloc ..
  refine ⟨⟨hv.toListed.of_slots hslots ?_ ?_ ?_ rfl rfl, ?_, hv.unlinked, ?_, hv.fresh⟩, rfl,
    Follows.of_slots hslots rfl rfl rfl⟩
  · dsimp only
    omega
  · dsimp only
    omega
  · dsimp only
    omega
  · rw [hslots]
    exact hv.indexed
  · intro hp
    exact absurd (hp.symm.trans hpacked) Bool.noConfusion

/-! ## The insertions -/

section

variable [DecidableEq K]

/-- What an insertion does to `nNextFreeElement`. -/
def putFree (ht : HashTable K V) (h : ℕ) (add : Bool) (n : ℤ) : ℤ :=
  if .inr h ∈ ht.names ∧ add = true then n else nextFree n h

variable {ht : HashTable K V} {r : Option ℕ}

theorem putFree_of_notMem (hmem : .inr h ∉ ht.names) (add : Bool) :
    putFree ht h add = (nextFree · h) := by
  funext n
  rw [putFree, if_neg fun hand => hmem hand.1]

theorem putFree_add_of_mem (hmem : .inr h ∈ ht.names) : putFree ht h true = id := by
  funext n
  rw [putFree, if_pos ⟨hmem, rfl⟩]
  rfl

theorem putFree_update (ht : HashTable K V) (h : ℕ) : putFree ht h false = (nextFree · h) := by
  funext n
  rw [putFree, if_neg fun hand => Bool.noConfusion hand.2]

/-- The element is added in the hash layout. -/
theorem indexAdd_hash (hv : t.ht.Chaining hash) (hroom : t.ht.nNumUsed < t.ht.nTableSize)
    (hfollows : Follows self id id ok s t) (hnew : .inr h ∉ s.ht.names) (add : Bool) :
    (t.addToHash self none h v).ht.Valid hash ∧
      Follows self (put s.ht ⟨none, h, v⟩ add) (putFree s.ht h add) ok s
        (t.addToHash self none h v) := by
  have hentries : t.ht.entries = s.ht.entries := hfollows.entries
  have hnew' : Entry.name (⟨none, h, v⟩ : Entry K V) ∉ t.ht.names := by
    rw [names, hentries]
    exact hnew
  obtain ⟨hchaining, hadd⟩ := addToHash_spec self hv hroom hnew' fun k hk => by
    cases hk
  rw [put_of_notMem (e := ⟨none, h, v⟩) hnew, putFree_of_notMem hnew]
  exact ⟨hchaining.toValid, hfollows.trans hadd fun _ => trivial⟩

/-- The element is added in the packed layout. -/
theorem indexAdd_packed (hv : t.ht.Valid hash) (hpacked : t.ht.packed = true)
    (hinit : t.ht.initialized = true) (hle : t.ht.nNumUsed ≤ h) (hroom : h < t.ht.nTableSize)
    (hclear : flag.addNew = true → flag.addNext = true →
      ∀ i, t.ht.nNumUsed ≤ i → i < h → (t.ht.arData i).val = none)
    (hfollows : Follows self id id ok s t) (hnew : .inr h ∉ s.ht.names) :
    (t.addToPacked self h v flag).ht.Valid hash ∧
      Follows self (put s.ht ⟨none, h, v⟩ flag.add) (putFree s.ht h flag.add) ok s
        (t.addToPacked self h v flag) := by
  obtain ⟨hvalid, hadd⟩ := addToPacked_spec self v hv hpacked hinit hle hroom
    hclear
  rw [put_of_notMem (e := ⟨none, h, v⟩) hnew, putFree_of_notMem hnew]
  exact ⟨hvalid, hfollows.trans hadd fun _ => trivial⟩

/-- The value of the element with the key is replaced, or it stays. -/
theorem updateIndex_spec {i : ℕ} {e : Entry K V} (hv : s.ht.Valid hash)
    (hi : s.ht.slots[i]? = some (some e)) (hname : e.name = .inr h) :
    (s.updateIndex i h v flag).1.ht.Valid hash ∧
      Follows self (put s.ht ⟨none, h, v⟩ flag.add) (putFree s.ht h flag.add) ok s
        (s.updateIndex i h v flag).1 := by
  have hmem : .inr h ∈ s.ht.names := mem_names.mpr ⟨i, e, hi, hname⟩
  rw [State.updateIndex]
  by_cases hadd : flag.add = true
  · rw [hadd, put_add_of_mem (e := ⟨none, h, v⟩) hmem, putFree_add_of_mem hmem]
    exact ⟨hv, .refl s⟩
  · rw [Bool.not_eq_true] at hadd
    obtain ⟨hkey, hh⟩ := name_eq_inr.mp hname
    have heq : (⟨none, h, v⟩ : Entry K V) = { e with val := v } := by rw [← hkey, ← hh]
    rw [hadd, put_of_mem (e := ⟨none, h, v⟩) hmem, putFree_update, heq]
    obtain ⟨hvalid, hmoves⟩ := setVal_spec (v := v) hv hi (nextFree s.ht.nNextFreeElement h)
    exact ⟨hvalid, rfl, _, hmoves, fun _ _ _ => (relocate_id ..).symm⟩

/-- An insertion in a packed table. -/
theorem indexAddOrUpdate_packed (hv : s.ht.Valid hash)
    (hinit : s.ht.initialized = true) (hpacked : s.ht.packed = true)
    (hclear : flag.addNew = true → flag.addNext = true → s.GapEmpty junk h)
    (hrun : s.indexAddOrUpdate self junk h v flag = some (s', r)) :
    s'.ht.Valid hash ∧ Follows self (put s.ht ⟨none, h, v⟩ flag.add) (putFree s.ht h flag.add)
      (s.IndexAddRehashes h flag.addNew → ¬ s.Straddled self) s s' := by
  have hinit' : s.ht.initialized ≠ false := by
    rw [hinit]
    exact Bool.noConfusion
  have hnew : s.ht.nNumUsed ≤ h ∨ s.ht.live h = false → Sum.inr h ∉ s.ht.names := by
    rintro hor hmem
    obtain ⟨i, hi, hlt, hlive⟩ := (slot_of_packed hv hpacked).mp hmem
    cases hi
    rcases hor with hle | hdead
    · omega
    · rw [hdead] at hlive
      cases hlive
  -- the packed layout is given up
  have hconvert : ∀ t, (s.packedToHash self junk).ifFullDoResize self junk = some t →
      s.IndexAddRehashes h flag.addNew → t.ht.Chaining hash ∧
        t.ht.nNumUsed < t.ht.nTableSize ∧ Follows self id id
          (s.IndexAddRehashes h flag.addNew → ¬ s.Straddled self) s t := by
    intro t ht hre
    obtain ⟨hchaining, hroom, hfollows⟩ := convert_spec hv hinit ht
    exact ⟨hchaining, hroom, hfollows.mono fun hok => hok hre⟩
  rw [State.indexAddOrUpdate] at hrun
  rw [if_neg hinit', if_pos hpacked] at hrun
  by_cases hlt : h < s.ht.nNumUsed
  · rw [if_pos hlt] at hrun
    by_cases hlive : s.ht.live h = true
    · rw [if_pos hlive] at hrun
      have heq : s' = (s.updateIndex h h v flag).1 := by rw [Option.some.inj hrun]
      subst heq
      obtain ⟨e, he⟩ := occupied_slots.mpr ⟨hlt, hlive⟩
      exact updateIndex_spec hv he (name_eq_inr.mpr (hv.indexed hpacked h e he))
    · rw [if_neg hlive] at hrun
      rw [Bool.not_eq_true] at hlive
      obtain ⟨t, ht, hrun⟩ := map_eq_some_iff.mp hrun
      cases hrun
      obtain ⟨hchaining, hroom, hfollows⟩ := hconvert t ht
        ⟨hinit, by rw [if_pos hpacked]; exact .inl ⟨hlt, hlive⟩⟩
      exact indexAdd_hash hchaining hroom hfollows (hnew (.inr hlive)) _
  rw [if_neg hlt] at hrun
  rw [not_lt] at hlt
  by_cases hsize : h < s.ht.nTableSize
  · rw [if_pos hsize] at hrun
    cases hrun
    refine indexAdd_packed hv hpacked hinit hlt hsize ?_ (.refl s) (hnew (.inl hlt))
    intro hn hx i hi hih
    have hgap := hclear hn hx (by
      rw [State.AddsPacked, if_neg hinit']
      exact ⟨hpacked, hlt, .inl hsize⟩) i hi hih
    rw [State.packedMemory, if_pos ⟨hinit, hsize⟩] at hgap
    exact hgap
  rw [if_neg hsize] at hrun
  by_cases hgrow : h >>> 1 < s.ht.nTableSize ∧ s.ht.nTableSize >>> 1 < s.ht.nNumOfElements
  · rw [if_pos hgrow] at hrun
    obtain ⟨ht', hht', hrun⟩ := map_eq_some_iff.mp hrun
    cases hrun
    obtain ⟨hvalid, rfl, hfollows⟩ := packedGrow_spec self hv hpacked hht'
    refine indexAdd_packed hvalid hpacked hinit hlt ?_ ?_ hfollows (hnew (.inl hlt))
    · dsimp only
      omega
    · intro hn hx i hi hih
      have hgap := hclear hn hx (by
        rw [State.AddsPacked, if_neg hinit']
        exact ⟨hpacked, hlt, .inr hgrow⟩) i hi hih
      rw [State.packedMemory, if_neg fun hand => hsize hand.2] at hgap
      dsimp only at hi ⊢
      rw [realloc, if_neg (not_lt.mpr hi)]
      exact hgap
  · rw [if_neg hgrow] at hrun
    obtain ⟨t, ht, hrun⟩ := map_eq_some_iff.mp hrun
    cases hrun
    obtain ⟨hchaining, hroom, hfollows⟩ := hconvert t ht
      ⟨hinit, by rw [if_pos hpacked]; exact .inr ⟨not_lt.mp hsize, hgrow⟩⟩
    exact indexAdd_hash hchaining hroom hfollows (hnew (.inl hlt)) _

theorem indexAddOrUpdate_spec (hv : s.ht.Valid hash)
    (hrun : s.indexAddOrUpdate self junk h v flag = some (s', r))
    (hnew : flag.addNew = true → .inr h ∉ s.ht.names)
    (hclear : flag.addNew = true → flag.addNext = true → s.GapEmpty junk h) :
    s'.ht.Valid hash ∧ Follows self (put s.ht ⟨none, h, v⟩ flag.add) (putFree s.ht h flag.add)
      (s.IndexAddRehashes h flag.addNew → ¬ s.Straddled self) s s' := by
  by_cases hinit : s.ht.initialized = false
  · have hused := (hv.fresh hinit).2
    have hpos := hv.size_pos
    have habsent := notMem_of_fresh hv hinit (.inr h)
    rw [State.indexAddOrUpdate] at hrun
    rw [if_pos hinit] at hrun
    by_cases hsize : h < s.ht.nTableSize
    · rw [if_pos hsize] at hrun
      cases hrun
      refine indexAdd_packed (realInit_packed hv hinit) rfl rfl ?_ hsize ?_
        (realInit_follows hv hinit true) habsent
      · change s.ht.nNumUsed ≤ h
        omega
      · intro hn hx i hi hih
        have hgap := hclear hn hx (by rw [State.AddsPacked, if_pos hinit]; exact hsize) i
          (by omega) hih
        rw [State.packedMemory, if_neg fun hand => by
          rw [hinit] at hand
          exact Bool.noConfusion hand.1] at hgap
        exact hgap
    · rw [if_neg hsize] at hrun
      cases hrun
      refine indexAdd_hash (realInit_hash hv hinit) ?_ (realInit_follows hv hinit false)
        habsent _
      change s.ht.nNumUsed < s.ht.nTableSize
      omega
  · by_cases hpacked : s.ht.packed = true
    · exact indexAddOrUpdate_packed hv (Bool.not_eq_false _ ▸ hinit) hpacked hclear hrun
    · rw [State.indexAddOrUpdate] at hrun
      rw [if_neg hinit, if_neg hpacked] at hrun
      rw [Bool.not_eq_false] at hinit
      have hok : (addNew : Bool) → (addNew = true ∨ s.ht.indexFindBucket h = none) →
          s.ht.nTableSize ≤ s.ht.nNumUsed → s.IndexAddRehashes h addNew := by
        intro addNew hor hfull
        exact ⟨hinit, by rw [if_neg hpacked]; exact ⟨hor, hfull⟩⟩
      rw [Bool.not_eq_true] at hpacked
      by_cases haddNew : flag.addNew = true
      · rw [if_pos haddNew] at hrun
        obtain ⟨t, ht, hrun⟩ := map_eq_some_iff.mp hrun
        cases hrun
        obtain ⟨hchaining, hroom, hfollows⟩ := ifFullDoResize_spec ⟨hv, hpacked, hinit⟩ ht
        exact indexAdd_hash hchaining hroom
          (hfollows.mono fun h hfull => h (hok _ (.inl haddNew) hfull)) (hnew haddNew) _
      · rw [if_neg haddNew] at hrun
        rcases search_index hv hpacked h with ⟨hnone, hmem⟩ | ⟨i, u, w, e, hsome, hi, hname, -⟩
        · have hfind : s.ht.indexFindBucket h = none := by
            rw [indexFindBucket, hnone]
            rfl
          rw [hfind] at hrun
          obtain ⟨t, ht, hrun⟩ := map_eq_some_iff.mp hrun
          cases hrun
          obtain ⟨hchaining, hroom, hfollows⟩ := ifFullDoResize_spec ⟨hv, hpacked, hinit⟩ ht
          exact indexAdd_hash hchaining hroom
            (hfollows.mono fun h hfull => h (hok _ (.inr hfind) hfull)) hmem _
        · have hfind : s.ht.indexFindBucket h = some i := by
            rw [indexFindBucket, hsome]
            rfl
          rw [hfind] at hrun
          have heq : s' = (s.updateIndex i h v flag).1 := by rw [Option.some.inj hrun]
          subst heq
          exact updateIndex_spec hv hi hname

end

end ZendHash
