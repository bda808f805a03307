/-
# A table as an ordered map

What a table is for: a map that keeps its elements in the order in which their keys were
inserted, with a counter for the next index.  The map is an association list without repeated
keys, the newest element first; a value is replaced in place.
-/
import ReadingCode.ZendHashSeeks

open SlotList IndexChains

namespace ZendHash

open ZendHash.HashTable

variable {K V : Type} {hash : K → ℕ} {self : ℕ} {s s' : State K V}
  {ht : HashTable K V} {op : Op K V}
  {map : AList fun _ : K ⊕ ℕ => V} {x : K ⊕ ℕ} {e : Entry K V}

/-! ## Elements and keys -/

/-- An element as a pair. -/
def Entry.pair (e : Entry K V) : Σ _ : K ⊕ ℕ, V := ⟨e.name, e.val⟩

/-- The next index is above an integer key, or as large as it gets. -/
def Above (n : ℤ) (h : ℕ) : Prop := toLong h < n ∨ n = ZEND_LONG_MAX

/-- The elements of a table are those of a map, in their order. -/
def InOrder (ht : HashTable K V) (map : AList fun _ : K ⊕ ℕ => V) : Prop :=
  ht.entries.map Entry.pair = map.entries.reverse

theorem InOrder.mem_iff (ho : InOrder ht map) : x ∈ map ↔ x ∈ ht.names := by
  have hkeys := congrArg (List.map Sigma.fst) ho
  rw [List.map_reverse, List.map_map] at hkeys
  change ht.names = map.keys.reverse at hkeys
  rw [AList.mem_keys, hkeys, List.mem_reverse]

theorem val_of_slot {i : ℕ} (hi : ht.slots[i]? = some (some e)) :
    (ht.arData i).val = some e.val := by
  have hlt : i < ht.nNumUsed := by
    have hlen := (List.getElem?_eq_some_iff.mp hi).1
    rwa [length_slots] at hlen
  rw [slots, getElem?_cells hlt] at hi
  exact (entry_eq_some.mp (Option.some.inj hi)).1

/-! ## The next index -/

variable {n : ℤ}

theorem nextFree_above (h : ℕ) : Above (nextFree n h) h := by
  rw [nextFree]
  by_cases hge : toLong h ≥ n
  · rw [if_pos hge]
    by_cases hlt : h < ZEND_LONG_MAX
    · left
      rw [if_pos hlt, toLong, if_pos (le_of_lt hlt)]
      exact Int.lt_succ _
    · right
      rw [if_neg hlt]
  · left
    rw [if_neg hge]
    exact Int.not_le.mp hge

theorem nextFree_bounds {h : ℕ} (hn : n ≤ ZEND_LONG_MAX) :
    n ≤ nextFree n h ∧ nextFree n h ≤ ZEND_LONG_MAX := by
  rw [nextFree, toLong]
  split_ifs <;> omega

theorem Above.mono {n' : ℤ} {h : ℕ} (ha : Above n h) (hn : n ≤ n')
    (hn' : n' ≤ ZEND_LONG_MAX) : Above n' h := by
  rcases ha with ha | ha
  · exact .inl (Int.lt_of_lt_of_le ha hn)
  · right
    omega

theorem toUlong_lt (n : ℤ) : toUlong n < 2 ^ 64 := by
  rw [toUlong]
  omega

/-! ## The map -/

/-- An ordered map with the next index, the integer keys inserted since it was cleaned and all
those inserted. -/
structure OrderedMap (K V : Type) where
  map : AList fun _ : K ⊕ ℕ => V
  next : ℤ
  inserted : List ℕ
  ever : List ℕ

variable [DecidableEq K]

namespace OrderedMap

/-- The empty map. -/
def empty : OrderedMap K V := ⟨∅, 0, [], []⟩

/-- A value is stored under a key; `add` is for a key that is not there. -/
def store (map : AList fun _ : K ⊕ ℕ => V) (x : K ⊕ ℕ) (v : V) (add : Bool) :
    AList fun _ : K ⊕ ℕ => V :=
  if x ∈ map then if add then map else map.replace x v else map.insert x v

/-- A value is stored under an integer key. -/
def storeIndex (m : OrderedMap K V) (h : ℕ) (v : V) (add : Bool) : OrderedMap K V :=
  if .inr h ∈ m.map ∧ add = true then m
  else ⟨store m.map (.inr h) v add, nextFree m.next h, h :: m.inserted, h :: m.ever⟩

/-- The operations on the map. -/
def step (m : OrderedMap K V) : Op K V → OrderedMap K V
  | .addOrUpdate k v add _ => { m with map := store m.map (.inl k) v add }
  | .indexAddOrUpdate h v add _ => m.storeIndex h v add
  | .nextIndexInsert v _ => m.storeIndex (toUlong m.next) v true
  | .del k => { m with map := m.map.erase (.inl k) }
  | .indexDel h => { m with map := m.map.erase (.inr h) }
  | .clean => ⟨∅, 0, [], m.ever⟩
  | .rehash => m
  | .extend _ _ => m
  | .packedToHash => m

end OrderedMap

/-! ## What a table represents -/

/-- **A table represents an ordered map.** -/
structure Represents (hash : K → ℕ) (ht : HashTable K V) (m : OrderedMap K V) : Prop where
  order : ht.entries.map Entry.pair = m.map.entries.reverse
  find : ∀ k, ht.find hash k = m.map.lookup (.inl k)
  indexFind : ∀ h, ht.indexFind h = m.map.lookup (.inr h)
  count : ht.nNumOfElements = m.map.entries.length
  initialised : ∀ i < ht.nNumUsed, ∀ v, (ht.arData i).val = some v →
    ∃ e : Entry K V, (ht.arData i).entry = some e ∧ e.pair ∈ m.map.entries
  chained : ht.packed = false → ∀ n, ∃ l : List ℕ, l.Nodup ∧
    Chain (fun i => (ht.arData i).next) HT_INVALID_IDX (ht.hash n) l ∧
    ∀ i, i ∈ l ↔ i < ht.nNumUsed ∧ ht.live i = true ∧ ht.nIndex (ht.arData i).h = n
  above : ∀ h ∈ m.inserted, Above ht.nNextFreeElement h

/-! ## Association lists -/

section

variable {A B : Type} [DecidableEq A] {l : List (Σ _ : A, B)} {a : A}

theorem kerase_eq_filter (h : l.NodupKeys) : l.kerase a = l.filter fun p => p.1 ≠ a := by
  induction l with
  | nil => rfl
  | cons p l ih =>
    obtain ⟨hp, hl⟩ := List.nodupKeys_cons.mp h
    by_cases hpa : a = p.1
    · subst hpa
      rw [List.kerase_cons_eq rfl, List.filter_cons_of_neg (by simp)]
      symm
      apply List.filter_eq_self.mpr
      intro p' hp'
      exact decide_eq_true fun heq => hp (heq ▸ List.mem_map_of_mem hp')
    · rw [List.kerase_cons_ne hpa, ih hl, List.filter_cons_of_pos]
      exact decide_eq_true (Ne.symm hpa)

theorem kreplace_eq_map (h : l.NodupKeys) (b : B) :
    l.kreplace a b = l.map fun p => if p.1 = a then ⟨a, b⟩ else p := by
  induction l with
  | nil => rfl
  | cons p l ih =>
    obtain ⟨hp, hl⟩ := List.nodupKeys_cons.mp h
    by_cases hpa : a = p.1
    · subst hpa
      have hsome : (fun s : Σ _ : A, B => if p.1 = s.1 then some (⟨p.1, b⟩ : Σ _ : A, B)
          else none) p = some ⟨p.1, b⟩ := if_pos rfl
      rw [List.kreplace, List.lookmap_cons_some _ _ hsome, List.map_cons, if_pos rfl]
      congr 1
      conv_lhs => rw [← List.map_id l]
      apply List.map_congr_left
      intro p' hp'
      rw [if_neg]
      · rfl
      · intro heq
        exact hp (heq ▸ List.mem_map_of_mem hp')
    · have hnone : (fun s : Σ _ : A, B => if a = s.1 then some (⟨a, b⟩ : Σ _ : A, B)
          else none) p = none := if_neg hpa
      rw [List.kreplace, List.lookmap_cons_none _ _ hnone, List.map_cons,
        if_neg (Ne.symm hpa), ← ih hl]
      rfl

end

/-! ## The operations refine those on the map -/

theorem InOrder.put (ho : InOrder ht map) (e : Entry K V) (add : Bool) :
    (put ht e add ht.entries).map Entry.pair
      = (OrderedMap.store map e.name e.val add).entries.reverse := by
  rw [OrderedMap.store, ZendHash.put]
  by_cases hmem : e.name ∈ ht.names
  · rw [if_pos (ho.mem_iff.mpr hmem)]
    split_ifs
    · exact ho
    · change _ = (map.entries.kreplace e.name e.val).reverse
      rw [kreplace_eq_map map.nodupKeys, ← List.map_reverse, ← ho, List.map_map, List.map_map]
      apply List.map_congr_left
      intro e' _
      rw [Function.comp_apply, Function.comp_apply, assign]
      by_cases hname : e'.name = e.name
      · rw [if_pos hname, if_pos (show e'.pair.1 = e.name from hname)]
        rfl
      · rw [if_neg hname, if_neg (show ¬ e'.pair.1 = e.name from hname)]
  · have hmem' : e.name ∉ map := fun h => hmem (ho.mem_iff.mp h)
    rw [if_neg hmem, if_neg hmem', AList.entries_insert_of_notMem hmem', List.reverse_cons,
      List.map_append, ho]
    rfl

theorem InOrder.without (ho : InOrder ht map) (x : K ⊕ ℕ) :
    (without x ht.entries).map Entry.pair = (map.erase x).entries.reverse := by
  change _ = (map.entries.kerase x).reverse
  rw [kerase_eq_filter map.nodupKeys, ← List.filter_reverse, ← ho, List.filter_map]
  rfl

/-! ## Runs -/

/-- A run from an empty table beside the one from an empty map.  The fast insertion of the next
index is not made where values are left in the buckets in front of the new one. -/
inductive Runs (self : ℕ) (hash : K → ℕ) : State K V → OrderedMap K V → Prop where
  | init {nSize nTableSize : ℕ} (arData : ℕ → Bucket K V) (its : List HashTableIterator) :
    checkSize nSize = some nTableSize → (∀ it ∈ its, it.ht ≠ some self) →
      Runs self hash ⟨init nTableSize arData, its⟩ OrderedMap.empty
  | step {s s' : State K V} {m : OrderedMap K V} (op : Op K V) (junk : ℕ → Bucket K V) :
    Runs self hash s m → s.Allowed op → s.MemoryClear junk op →
      s.step self junk hash op = some s' → Runs self hash s' (m.step op)

/-- What holds of a table and its map in every run. -/
structure Refines (hash : K → ℕ) (ht : HashTable K V) (m : OrderedMap K V) : Prop where
  valid : ht.Valid hash
  order : InOrder ht m.map
  next : ht.nNextFreeElement = m.next
  next_le : m.next ≤ ZEND_LONG_MAX
  above : ∀ h ∈ m.inserted, Above m.next h

variable {m : OrderedMap K V}

/-- An insertion with an integer key. -/
theorem Refines.storeIndex {ht' : HashTable K V} {h : ℕ} {v : V}
    {add : Bool} (hr : Refines hash ht m) (hh : h < 2 ^ 64) (hvalid : ht'.Valid hash)
    (hentries : ht'.entries = put ht ⟨none, h, v⟩ add ht.entries)
    (hfree : ht'.nNextFreeElement = putFree ht h add ht.nNextFreeElement) :
    Refines hash ht' (m.storeIndex h v add) := by
  have horder : InOrder ht' (OrderedMap.store m.map (.inr h) v add) := by
    rw [InOrder, hentries]
    exact hr.order.put ⟨none, h, v⟩ add
  rw [putFree, hr.next] at hfree
  rw [OrderedMap.storeIndex]
  by_cases hmem : .inr h ∈ m.map ∧ add = true
  · rw [if_pos hmem]
    rw [if_pos ⟨hr.order.mem_iff.mp hmem.1, hmem.2⟩] at hfree
    rw [OrderedMap.store, if_pos hmem.1, if_pos hmem.2] at horder
    exact ⟨hvalid, horder, hfree, hr.next_le, hr.above⟩
  · rw [if_neg hmem]
    rw [if_neg fun h => hmem ⟨hr.order.mem_iff.mpr h.1, h.2⟩] at hfree
    obtain ⟨hle, hmax⟩ := nextFree_bounds (h := h) hr.next_le
    refine ⟨hvalid, horder, hfree, hmax, ?_⟩
    intro h' hh'
    rcases List.mem_cons.mp hh' with rfl | hh'
    · exact nextFree_above h'
    · exact (hr.above h' hh').mono hle hmax

/-- One operation. -/
theorem Refines.step {m : OrderedMap K V} {junk : ℕ → Bucket K V} (hr : Refines hash s.ht m)
    (hallowed : s.Allowed op) (hmemory : s.MemoryClear junk op)
    (h : s.step self junk hash op = some s') : Refines hash s'.ht (m.step op) := by
  obtain ⟨hvalid, hfollows⟩ := step_spec hr.valid hallowed hmemory h
  have hentries := hfollows.entries
  have hfree := hfollows.free
  have hsame : s'.ht.entries = s.ht.entries → s'.ht.nNextFreeElement = s.ht.nNextFreeElement →
      Refines hash s'.ht m := by
    intro he hn
    refine ⟨hvalid, ?_, hn.trans hr.next, hr.next_le, hr.above⟩
    rw [InOrder, he]
    exact hr.order
  have hwithout : ∀ x, s'.ht.entries = without x s.ht.entries →
      s'.ht.nNextFreeElement = s.ht.nNextFreeElement →
      Refines hash s'.ht { m with map := m.map.erase x } := by
    intro x he hn
    refine ⟨hvalid, ?_, hn.trans hr.next, hr.next_le, hr.above⟩
    rw [InOrder, he]
    exact hr.order.without x
  cases op with
  | addOrUpdate k v add addNew =>
    refine ⟨hvalid, ?_, hfree.trans hr.next, hr.next_le, hr.above⟩
    rw [InOrder, hentries]
    exact hr.order.put ⟨some k, hash k, v⟩ add
  | indexAddOrUpdate h' v add addNew => exact hr.storeIndex hallowed.1 hvalid hentries hfree
  | nextIndexInsert v addNew =>
    rw [State.effect, State.nextIndex, hr.next] at hentries
    rw [State.freeEffect, State.nextIndex] at hfree
    nth_rewrite 1 [hr.next] at hfree
    exact hr.storeIndex (toUlong_lt _) hvalid hentries hfree
  | del k => exact hwithout _ hentries hfree
  | indexDel h' => exact hwithout _ hentries hfree
  | rehash => exact hsame hentries hfree
  | extend nSize packed => exact hsame hentries hfree
  | packedToHash => exact hsame hentries hfree
  | clean =>
    refine ⟨hvalid, ?_, hfree, Int.natCast_nonneg _, fun _ h => absurd h List.not_mem_nil⟩
    rw [InOrder, hentries]
    rfl

theorem Runs.refining (h : Runs self hash s m) : Refines hash s.ht m := by
  induction h with
  | init arData its hsize hits =>
    have hs : State.Sound self hash _ := init_sound arData hsize hits
    exact ⟨hs.valid, rfl, rfl, Int.natCast_nonneg _, fun _ h => absurd h List.not_mem_nil⟩
  | step op junk _ hallowed hmemory hstep ih => exact ih.step hallowed hmemory hstep

/-! ## What is found -/

theorem InOrder.lookup (ho : InOrder ht map) (he : e ∈ ht.entries) :
    map.lookup e.name = some e.val := by
  refine AList.mem_lookup_iff.mpr ?_
  rw [← List.mem_reverse, ← ho]
  exact List.mem_map_of_mem he

theorem InOrder.lookup_none (ho : InOrder ht map) (hx : x ∉ ht.names) : map.lookup x = none :=
  AList.lookup_eq_none.mpr fun h => hx (ho.mem_iff.mp h)

theorem InOrder.find (ho : InOrder ht map) (hv : ht.Valid hash) (k : K) :
    ht.find hash k = map.lookup (.inl k) := by
  rw [HashTable.find, HashTable.findBucket]
  by_cases hpacked : ht.packed = true
  · have hsearch : ht.search (isKey k (hash k)) (hash k) = none := by
      rw [search, walk, if_pos (hv.unlinked hpacked _)]
    rw [hsearch, ho.lookup_none]
    · rfl
    · rw [slot_of_packed hv hpacked]
      rintro ⟨i, hi, -⟩
      cases hi
  · rw [Bool.not_eq_true] at hpacked
    rcases search_key hv hpacked k with ⟨hnone, hmem⟩ | ⟨i, u, w, e, hsome, hi, hname, -⟩
    · rw [hnone, ho.lookup_none hmem]
      rfl
    · rw [hsome, ← hname, ho.lookup (mem_entries_of_slot hi)]
      exact val_of_slot hi

theorem InOrder.indexFind (ho : InOrder ht map) (hv : ht.Valid hash) (h : ℕ) :
    ht.indexFind h = map.lookup (.inr h) := by
  rw [HashTable.indexFind]
  by_cases hpacked : ht.packed = true
  · rw [if_pos hpacked]
    by_cases hlive : h < ht.nNumUsed ∧ ht.live h = true
    · obtain ⟨e, he⟩ := occupied_slots.mpr hlive
      rw [if_pos hlive.1, ← name_eq_inr.mpr (hv.indexed hpacked h e he),
        ho.lookup (mem_entries_of_slot he)]
      exact val_of_slot he
    · rw [ho.lookup_none]
      · split_ifs with hlt
        · have hdead : ¬ ht.live h = true := fun hl => hlive ⟨hlt, hl⟩
          rw [HashTable.live, Option.not_isSome_iff_eq_none] at hdead
          exact hdead
        · rfl
      · rw [slot_of_packed hv hpacked]
        rintro ⟨i, hi, hlive'⟩
        cases hi
        exact hlive hlive'
  · rw [if_neg hpacked, HashTable.indexFindBucket]
    rw [Bool.not_eq_true] at hpacked
    rcases search_index hv hpacked h with ⟨hnone, hmem⟩ | ⟨i, u, w, e, hsome, hi, hname, -⟩
    · rw [hnone, ho.lookup_none hmem]
      rfl
    · rw [hsome, ← hname, ho.lookup (mem_entries_of_slot hi)]
      exact val_of_slot hi

theorem Refines.represents (hr : Refines hash ht m) : Represents hash ht m := by
  refine ⟨hr.order, hr.order.find hr.valid, hr.order.indexFind hr.valid, ?_, ?_, ?_, ?_⟩
  · have hlen := congrArg List.length hr.order
    rw [List.length_map, List.length_reverse] at hlen
    rw [hr.valid.count, hlen]
  · intro i hi v hval
    have hentry : (ht.arData i).entry = some ⟨(ht.arData i).key, (ht.arData i).h, v⟩ :=
      entry_eq_some.mpr ⟨hval, rfl, rfl⟩
    refine ⟨_, hentry, ?_⟩
    rw [← List.mem_reverse, ← hr.order]
    apply List.mem_map_of_mem
    refine mem_entries_of_slot (i := i) ?_
    rw [slots, getElem?_cells hi, hentry]
  · intro hpacked n
    refine ⟨_, nodup_chainList, hr.valid.chained hpacked n, fun i => ?_⟩
    rw [mem_chainList, inSlot, Bool.and_eq_true, beq_iff_eq]
    rfl
  · rw [hr.next]
    exact hr.above

/-- **A table refines an ordered map** in every run. -/
theorem runs_represent {m : OrderedMap K V} (h : Runs self hash s m) : Represents hash s.ht m :=
  h.refining.represents

/-- The run that adds a key and the next index. -/
theorem runs_represent_two :
    ∃ (s : State ℕ Unit) (m : OrderedMap ℕ Unit), Runs 1 id s m ∧ Represents id s.ht m ∧
      s.ht.nNumOfElements = 2 := by
  have hinit : Runs 1 id ⟨init 8 fun _ => blank, []⟩ OrderedMap.empty :=
    Runs.init _ [] (show checkSize 8 = some 8 from rfl) nofun
  have hone := hinit.step (.addOrUpdate 7 () true false) (fun _ => blank) nofun trivial rfl
  have htwo := hone.step (.nextIndexInsert () false) (fun _ => blank) nofun nofun rfl
  exact ⟨_, _, htwo, runs_represent htwo, rfl⟩

/-- **The next index is not above every key**: cleaning a table sets it back. -/
theorem not_above_ever : ¬ ∀ (K V : Type) [DecidableEq K] (self : ℕ) (hash : K → ℕ) (s : State K V)
      (m : OrderedMap K V), Runs self hash s m → ∀ h ∈ m.ever, Above s.ht.nNextFreeElement h := by
  intro h
  have hinit : Runs 1 id ⟨init 8 fun _ => blank, []⟩ OrderedMap.empty :=
    Runs.init _ [] (show checkSize 8 = some 8 from rfl) nofun
  have hone := hinit.step (.indexAddOrUpdate 5 () false false) (fun _ => blank)
    ⟨by decide, nofun⟩ trivial rfl
  have htwo := hone.step .clean (fun _ => blank) trivial trivial rfl
  rcases h ℕ Unit 1 id _ _ htwo 5 (by decide) with habove | hmax
  · exact absurd habove (by decide)
  · exact absurd hmax (by decide)

/-!
# Taking and adding elements at the ends of an array

The functions of `ext/standard/array.c`, with `php_splice`, work on the buckets themselves.
`array_unshift` and `php_splice` build a new table; what its memory holds before the `i`th insertion
is `junk i`.  The symbol tables, whose values may be indirect, are left out.
-/

variable {K V : Type}

/-! ## Numbers -/

/-- `(uint32_t)n`, and `(unsigned)n` -/
def toUint (n : ℤ) : ℕ := (n % 2 ^ 32).toNat

/-- `(int)n` -/
def toInt (n : ℤ) : ℤ := if toUint n < 2 ^ 31 then toUint n else (toUint n : ℤ) - 2 ^ 32

/-- What an array function returns. -/
inductive Returned (K V : Type) where
  | null
  | no
  | long (n : ℕ)
  | value (v : V)
  | array (ht : HashTable K V)

/-- The value of a bucket, returned. -/
def Bucket.returned (p : Bucket K V) : Returned K V :=
  match p.val with
  | some v => .value v
  | none => .null

section

variable (self : ℕ)

/-! ## Adding at the end -/

/-- `zend_hash_next_index_insert`, and with `addNew` `zend_hash_next_index_insert_new` -/
def State.nextIndexInsert (s : State K V) (junk : ℕ → Bucket K V) (v : V) (addNew : Bool) :
    Option (State K V × Option ℕ) :=
  s.indexAddOrUpdate self junk (toUlong s.ht.nNextFreeElement) v ⟨true, addNew, true⟩

/-- `array_push`, from the argument `i` on. -/
def State.arrayPush (junk : ℕ → ℕ → Bucket K V) :
    ℕ → List V → State K V → Option (State K V × Returned K V)
  | _, [], s => some (s, .long s.ht.nNumOfElements)
  | i, v :: args, s =>
    (s.nextIndexInsert self (junk i) v false).bind fun r =>
      if r.2.isNone then some (r.1, .no) else State.arrayPush junk (i + 1) args r.1

/-! ## Taking from the end -/

variable [DecidableEq K] (hash : K → ℕ)

/-- The element of the bucket `p` is deleted by its key. -/
def State.delBucket (s : State K V) (p : Bucket K V) : State K V :=
  match p.key with
  | some k => (s.del self hash k).1
  | none => (s.indexDel self p.h).1

omit [DecidableEq K] in
/-- Whether `array_pop` sets `nNextFreeElement` back when it takes the element of the bucket `p`;
the key is compared as `zend_ulong`. -/
def HashTable.SetsBack (ht : HashTable K V) (p : Bucket K V) : Prop :=
  p.key.isNone ∧ ht.nNextFreeElement > 0 ∧ p.h ≥ toUlong (ht.nNextFreeElement - 1)

instance (ht : HashTable K V) (p : Bucket K V) : Decidable (ht.SetsBack p) :=
  inferInstanceAs (Decidable (_ ∧ _))

/-- `array_pop` -/
def State.arrayPop (s : State K V) : State K V × Returned K V :=
  if s.ht.nNumOfElements = 0 then (s, .null)
  else
    let idx := s.ht.prevFrom s.ht.nNumUsed
    if idx = HT_INVALID_IDX then (s, .null)
    else
      let p := s.ht.arData idx
      let s : State K V :=
        if s.ht.SetsBack p then
          { s with ht := { s.ht with nNextFreeElement := s.ht.nNextFreeElement - 1 } }
        else s
      let s := s.delBucket self hash p
      ({ s with ht := s.ht.internalPointerReset }, p.returned)

/-! ## Taking from the beginning -/

/-- One element of a packed table that `array_shift` moves from the bucket `idx` to `k`. -/
def HashTable.shiftBucket (ht : HashTable K V) (idx k : ℕ) : HashTable K V :=
  let q : Bucket K V := { ht.arData k with val := (ht.arData idx).val, h := k, key := none }
  HashTable.setVal { ht with arData := Function.update ht.arData k q } idx none

/-- The loop of `array_shift` over a packed table, with `n` buckets to go from `idx` on, the next
key `k` and, where the table has iterators, the lowest position of one that is still to move. -/
def shiftPacked : ℕ → ℕ → ℕ → ℕ → State K V → State K V × ℕ
  | 0, _, k, _, s => (s, k)
  | n + 1, idx, k, iterPos, s =>
    if s.ht.live idx then
      if idx ≠ k then
        let s : State K V := { s with ht := s.ht.shiftBucket idx k }
        if s.ht.nIteratorsCount ≠ 0 ∧ idx = iterPos then
          let s := s.iteratorsUpdate self idx k
          shiftPacked n (idx + 1) (k + 1) (lowerPos self (iterPos + 1) s.iterators) s
        else shiftPacked n (idx + 1) (k + 1) iterPos s
      else shiftPacked n (idx + 1) (k + 1) iterPos s
    else shiftPacked n (idx + 1) k iterPos s

/-- The loop of `array_shift` over a table in the hash layout, with `n` buckets to go from `idx`
on: the table, the next key `k` and `should_rehash`. -/
def renumberFrom : ℕ → ℕ → ℕ → Bool → HashTable K V → HashTable K V × ℕ × Bool
  | 0, _, k, shouldRehash, ht => (ht, k, shouldRehash)
  | n + 1, idx, k, shouldRehash, ht =>
    let p := ht.arData idx
    if ht.live idx ∧ p.key.isNone then
      if p.h ≠ k then
        renumberFrom n (idx + 1) (k + 1) true
          { ht with arData := Function.update ht.arData idx { p with h := k } }
      else renumberFrom n (idx + 1) (k + 1) shouldRehash ht
    else renumberFrom n (idx + 1) k shouldRehash ht

/-- `array_shift` numbers the elements anew. -/
def State.reindex (s : State K V) : State K V :=
  if s.ht.packed then
    let r := shiftPacked self s.ht.nNumUsed 0 0 (lowerPos self 0 s.iterators) s
    { r.1 with ht := { r.1.ht with nNumUsed := r.2, nNextFreeElement := r.2 } }
  else
    let r := renumberFrom s.ht.nNumUsed 0 0 false s.ht
    let s : State K V := { s with ht := { r.1 with nNextFreeElement := r.2.1 } }
    if r.2.2 then s.rehash self else s

/-- `array_shift` -/
def State.arrayShift (s : State K V) : State K V × Returned K V :=
  if s.ht.nNumOfElements = 0 then (s, .null)
  else
    let idx := s.ht.nextFrom s.ht.nNumUsed 0
    if idx = HT_INVALID_IDX then (s, .null)
    else
      let p := s.ht.arData idx
      let s := (s.delBucket self hash p).reindex self
      ({ s with ht := s.ht.internalPointerReset }, p.returned)

/-! ## Building a table -/

/-- A new table; it has no iterators. -/
def newTable (nSize : ℕ) (arData : ℕ → Bucket K V) : Option (State K V) :=
  (checkSize nSize).map fun size => ⟨HashTable.init size arData, []⟩

/-- The element of the bucket `p` with the value `v` is added: an integer key becomes the next
index. -/
def State.addBucket (t : State K V) (junk : ℕ → Bucket K V) (p : Bucket K V) (v : V) :
    Option (State K V) :=
  match p.key with
  | none => (t.nextIndexInsert self junk v true).map (·.1)
  | some k => (t.addOrUpdate self junk hash k v ⟨true, true, false⟩).map (·.1)

/-- Where `php_splice` and `array_unshift` are: the array, the table that they build, the position
of the next element there, the bucket and the lowest iterator that is still to move. -/
structure Splicing (K V : Type) where
  s : State K V
  out : State K V
  pos : ℕ
  idx : ℕ
  iterPos : ℕ

/-- `php_splice` moves the iterators at a bucket that has been copied. -/
def Splicing.track (c : Splicing K V) : Splicing K V :=
  if c.idx = c.iterPos then
    let s := if c.idx ≠ c.pos then c.s.iteratorsUpdate self c.idx c.pos else c.s
    { c with s := s, iterPos := lowerPos self (c.iterPos + 1) s.iterators }
  else c

/-- `array_unshift` moves the iterators at a bucket that has been copied. -/
def Splicing.trackAll (c : Splicing K V) : Splicing K V :=
  if c.s.ht.nIteratorsCount ≠ 0 ∧ c.idx = c.iterPos then
    let s := c.s.iteratorsUpdate self c.idx c.pos
    { c with s := s, iterPos := lowerPos self (c.iterPos + 1) s.iterators }
  else c

variable (junk : ℕ → ℕ → Bucket K V)

/-- The loops that copy elements as long as `more` holds for the position, for at most the `n`
buckets to go. -/
def copyFrom (track : Splicing K V → Splicing K V) (more : ℕ → Bool) :
    ℕ → Splicing K V → Option (Splicing K V)
  | 0, c => some c
  | n + 1, c =>
    if more c.pos ∧ c.idx < c.s.ht.nNumUsed then
      let p := c.s.ht.arData c.idx
      match p.val with
      | none => copyFrom track more n { c with idx := c.idx + 1 }
      | some v =>
        (c.out.addBucket self hash (junk c.pos) p v).bind fun out =>
          copyFrom track more n { track c with out := out, pos := c.pos + 1, idx := c.idx + 1 }
    else some c

/-- The values are added. -/
def insertAll : List V → Splicing K V → Option (Splicing K V)
  | [], c => some c
  | v :: vs, c =>
    (c.out.nextIndexInsert self (junk c.pos) v true).bind fun r =>
      insertAll vs { c with out := r.1, pos := c.pos + 1 }

/-- The loop that moves the elements up to the position `stop` to the table `removed`. -/
def removeFrom (stop : ℤ) :
    ℕ → Splicing K V → State K V → Option (Splicing K V × State K V)
  | 0, c, removed => some (c, removed)
  | n + 1, c, removed =>
    if c.pos < stop ∧ c.idx < c.s.ht.nNumUsed then
      let p := c.s.ht.arData c.idx
      match p.val with
      | none => removeFrom stop n { c with idx := c.idx + 1 } removed
      | some v =>
        (removed.addBucket self hash (junk c.pos) p v).bind fun removed =>
          removeFrom stop n
            { c with s := c.s.delBucket self hash p, pos := c.pos + 1, idx := c.idx + 1 } removed
    else some (c, removed)

/-- The loop that deletes the elements up to the position `stop`; `pos2` is an `int`. -/
def skipFrom (stop : ℤ) : ℕ → ℤ → Splicing K V → Splicing K V
  | 0, _, c => c
  | n + 1, pos2, c =>
    if pos2 < stop ∧ c.idx < c.s.ht.nNumUsed then
      let p := c.s.ht.arData c.idx
      match p.val with
      | none => skipFrom stop n pos2 { c with idx := c.idx + 1 }
      | some _ =>
        skipFrom stop n (toInt (pos2 + 1))
          { c with s := c.s.delBucket self hash p, idx := c.idx + 1 }
    else c

omit [DecidableEq K] in
/-- The table in the place of the old one.  The count of the iterators is 0, so that they stay
when the old one is destroyed. -/
def State.replaceTable (s : State K V) (new : HashTable K V) : State K V :=
  { s with ht := HashTable.internalPointerReset { new with nIteratorsCount := 0 } }

/-! ## Adding at the beginning -/

/-- `array_unshift` -/
def State.arrayUnshift (args : List V) (s : State K V) : Option (State K V × Returned K V) :=
  (newTable (toUint (s.ht.nNumOfElements + args.length)) (junk 0)).bind fun out =>
  (insertAll self junk args ⟨s, out, 0, 0, lowerPos self 0 s.iterators⟩).bind fun c =>
  (copyFrom self hash junk (Splicing.trackAll self) (fun _ => true) s.ht.nNumUsed c).map fun c =>
    let s := c.s.replaceTable c.out.ht
    (s, .long s.ht.nNumOfElements)

/-! ## Splicing -/

/-- `offset`, clamped. -/
def clampOffset (numIn offset : ℤ) : ℤ :=
  if offset > numIn then numIn
  else if offset < 0 then if numIn + offset < 0 then 0 else numIn + offset
  else offset

/-- `length`, clamped by `php_splice`. -/
def clampLength (numIn offset length : ℤ) : ℤ :=
  if length < 0 then numIn - offset + length
  else if (toUint offset + toUint length) % 2 ^ 32 > toUint numIn then numIn - offset
  else length

/-- The elements up to the position `stop` are moved to the table `removed`, or deleted. -/
def takeOut (stop : ℤ) (c : Splicing K V) :
    Option (State K V) → Option (Splicing K V × Option (State K V))
  | some removed =>
    (removeFrom self hash junk stop (c.s.ht.nNumUsed - c.idx) c removed).map fun r =>
      (r.1, some r.2)
  | none => some (skipFrom self hash stop (c.s.ht.nNumUsed - c.idx) (toInt c.pos) c, none)

/-- `php_splice` -/
def State.phpSplice (offset length : ℤ) (replace : Option (List V)) (removed : Option (State K V))
    (s : State K V) : Option (State K V × Option (State K V)) :=
  let numIn : ℤ := s.ht.nNumOfElements
  let offset := clampOffset numIn offset
  let length := clampLength numIn offset length
  let stop := toLong (toUlong (offset + length))
  let values := replace.getD []
  (newTable (toUint ((if length > 0 then numIn - length else 0) + values.length))
    (junk 0)).bind fun out =>
  (copyFrom self hash junk (Splicing.track self) (fun pos => (pos : ℤ) < offset) s.ht.nNumUsed
    ⟨s, out, 0, 0, lowerPos self 0 s.iterators⟩).bind fun c =>
  (takeOut self hash junk stop c removed).bind fun r =>
  let c := { r.1 with iterPos := lowerPos self r.1.iterPos r.1.s.iterators }
  (insertAll self junk values c).bind fun c =>
  (copyFrom self hash junk (Splicing.track self) (fun _ => true) (c.s.ht.nNumUsed - c.idx) c).map
    fun c => (c.s.replaceTable c.out.ht, r.2)

/-- The size of the table for the removed elements in `array_splice`. -/
def removedSize (numIn offset length : ℤ) : ℤ :=
  if length < 0 then numIn - offset + length
  else if (toUlong offset + toUlong length) % 2 ^ 64 > toUint numIn then numIn - offset
  else length

/-- `array_splice`; without a `length` it is the number of the elements, and `usedRet` tells
whether the result is used. -/
def State.arraySplice (offset : Int64) (length : Option Int64) (replace : Option (List V))
    (usedRet : Bool) (s : State K V) : Option (State K V × Returned K V) :=
  let numIn := toInt s.ht.nNumOfElements
  let length := (length.map Int64.toInt).getD numIn
  if usedRet then
    let offset := clampOffset numIn offset.toInt
    let size := removedSize numIn offset length
    (newTable (if size > 0 then toUint size else 0) (junk 0)).bind fun removed =>
    (s.phpSplice self hash junk offset length replace (some removed)).map fun r =>
      (r.1, (r.2.map fun t => .array t.ht).getD .null)
  else
    (s.phpSplice self hash junk offset.toInt length replace none).map fun r => (r.1, .null)

/-! ## Calls -/

/-- The array functions. -/
inductive ArrayFunction (V : Type) where
  | push (args : List V)
  | pop
  | shift
  | unshift (args : List V)
  | splice (offset : Int64) (length : Option Int64) (replace : Option (List V)) (usedRet : Bool)

/-- A call of an array function; none is a fatal error. -/
def State.call (s : State K V) : ArrayFunction V → Option (State K V × Returned K V)
  | .push args => s.arrayPush self junk 0 args
  | .pop => some (s.arrayPop self hash)
  | .shift => some (s.arrayShift self hash)
  | .unshift args => s.arrayUnshift self hash junk args
  | .splice offset length replace usedRet =>
    s.arraySplice self hash junk offset length replace usedRet

end

end ZendHash

/-!
# Building a table from a list of elements

`array_unshift` and `php_splice` build a new table by inserting elements behind each other: an
integer key becomes the next index, a string key stays.  So the integer keys are numbered from 0
on, and the table has no holes in front of the next index.
-/

namespace ZendHash

open ZendHash.HashTable

open List Option

variable {K V : Type} {hash : K → ℕ} {self h n : ℕ} {junk : ℕ → Bucket K V}
  {s s' t t' : State K V} {v : V} {r : Option ℕ} {l m items : List (Entry K V)} {e : Entry K V}

/-! ## Numbering -/

/-- The number of the integer keys. -/
def ints (l : List (Entry K V)) : ℕ := l.countP fun e => e.key.isNone

/-- The string keys. -/
def strings (l : List (Entry K V)) : List K := l.filterMap Entry.key

/-- The integer keys are numbered from `n` on. -/
def renumber : ℕ → List (Entry K V) → List (Entry K V)
  | _, [] => []
  | n, e :: l =>
    if e.key.isNone then { e with h := n } :: renumber (n + 1) l else e :: renumber n l

theorem ints_append (l m : List (Entry K V)) : ints (l ++ m) = ints l + ints m :=
  countP_append ..

theorem strings_append (l m : List (Entry K V)) : strings (l ++ m) = strings l ++ strings m :=
  filterMap_append ..

theorem ints_cons_none (he : e.key = none) (l : List (Entry K V)) : ints (e :: l) = ints l + 1 := by
  rw [ints, countP_cons_of_pos (by rw [he]; rfl), ints]

variable {k : K}

theorem ints_cons_some (he : e.key = some k) (l : List (Entry K V)) : ints (e :: l) = ints l := by
  rw [ints, countP_cons_of_neg (by rw [he]; exact Bool.false_ne_true), ints]

theorem renumber_cons_none (he : e.key = none) (n : ℕ) (l : List (Entry K V)) :
    renumber n (e :: l) = ⟨none, n, e.val⟩ :: renumber (n + 1) l := by
  rw [renumber, if_pos (by rw [he]; rfl), he]

theorem renumber_cons_some (he : e.key = some k) (n : ℕ) (l : List (Entry K V)) :
    renumber n (e :: l) = e :: renumber n l := by
  rw [renumber, if_neg (by rw [he]; exact Bool.false_ne_true)]

theorem renumber_append (n : ℕ) (l m : List (Entry K V)) :
    renumber n (l ++ m) = renumber n l ++ renumber (n + ints l) m := by
  induction l generalizing n with
  | nil => rfl
  | cons e l ih =>
    rw [cons_append]
    cases he : e.key with
    | none =>
      rw [renumber_cons_none he, renumber_cons_none he, ih, ints_cons_none he, add_assoc,
        add_comm 1]
      rfl
    | some k =>
      rw [renumber_cons_some he, renumber_cons_some he, ih, ints_cons_some he]
      rfl

@[simp] theorem length_renumber (n : ℕ) (l : List (Entry K V)) :
    (renumber n l).length = l.length := by
  induction l generalizing n with
  | nil => rfl
  | cons e l ih =>
    cases he : e.key with
    | none => rw [renumber_cons_none he, length_cons, ih, length_cons]
    | some k => rw [renumber_cons_some he, length_cons, ih, length_cons]

theorem inl_mem_renumber : .inl k ∈ (renumber n l).map Entry.name ↔ k ∈ strings l := by
  induction l generalizing n with
  | nil => exact iff_of_false not_mem_nil not_mem_nil
  | cons e l ih =>
    cases he : e.key with
    | none =>
      rw [renumber_cons_none he, map_cons, mem_cons, ih, strings, strings, filterMap_cons_none he]
      exact or_iff_right (by rintro ⟨⟩)
    | some k' =>
      rw [renumber_cons_some he, map_cons, mem_cons, ih, strings, strings,
        filterMap_cons_some he, mem_cons, name_eq_inl.mpr he, Sum.inl.injEq]

theorem inr_mem_renumber : .inr h ∈ (renumber n l).map Entry.name ↔ n ≤ h ∧ h < n + ints l := by
  induction l generalizing n with
  | nil =>
    refine iff_of_false not_mem_nil ?_
    rw [ints, countP_nil]
    omega
  | cons e l ih =>
    cases he : e.key with
    | none =>
      rw [renumber_cons_none he, map_cons, mem_cons, ih, ints_cons_none he,
        show Entry.name (⟨none, n, e.val⟩ : Entry K V) = .inr n from rfl, Sum.inr.injEq]
      omega
    | some k =>
      rw [renumber_cons_some he, map_cons, mem_cons, ih, ints_cons_some he, name_eq_inl.mpr he]
      exact or_iff_right (by rintro ⟨⟩)

theorem strings_nodup (h : (l.map Entry.name).Nodup) : (strings l).Nodup := by
  induction l with
  | nil => exact nodup_nil
  | cons e l ih =>
    obtain ⟨he, hl⟩ := nodup_cons.mp h
    cases hk : e.key with
    | none =>
      rw [strings, filterMap_cons_none hk]
      exact ih hl
    | some k =>
      rw [strings, filterMap_cons_some hk, nodup_cons]
      refine ⟨fun hmem => he ?_, ih hl⟩
      obtain ⟨e', he', hk'⟩ := mem_filterMap.mp hmem
      rw [name_eq_inl.mpr hk, ← name_eq_inl.mpr hk']
      exact mem_map_of_mem he'

/-- The keys are distinct after numbering. -/
theorem nodup_renumber (h : (strings l).Nodup) : ((renumber n l).map Entry.name).Nodup := by
  induction l generalizing n with
  | nil => exact nodup_nil
  | cons e l ih =>
    cases he : e.key with
    | none =>
      rw [strings, filterMap_cons_none he] at h
      rw [renumber_cons_none he, map_cons, nodup_cons]
      refine ⟨fun hmem => ?_, ih h⟩
      have hle : n + 1 ≤ n := (inr_mem_renumber.mp hmem).1
      omega
    | some k =>
      rw [strings, filterMap_cons_some he, nodup_cons] at h
      rw [renumber_cons_some he, map_cons, nodup_cons]
      refine ⟨fun hmem => h.1 ?_, ih h.2⟩
      rw [name_eq_inl.mpr he] at hmem
      exact inl_mem_renumber.mp hmem

/-- The elements with string keys are those that were there. -/
theorem mem_of_mem_renumber (he : e ∈ renumber n l) (hk : e.key = some k) : e ∈ l := by
  induction l generalizing n with
  | nil => exact he
  | cons e' l ih =>
    cases hk' : e'.key with
    | none =>
      rw [renumber_cons_none hk', mem_cons] at he
      rcases he with rfl | he
      · cases hk
      · exact mem_cons_of_mem _ (ih he)
    | some k' =>
      rw [renumber_cons_some hk', mem_cons] at he
      rcases he with rfl | he
      · exact mem_cons_self
      · exact mem_cons_of_mem _ (ih he)

theorem ints_le (l : List (Entry K V)) : ints l ≤ l.length := countP_le_length

/-! ## Insertions -/

/-- An insertion that replaces nothing returns `NULL` just if the key is there. -/
theorem indexAddOrUpdate_fails {x : Bool} (hv : s.ht.Valid hash)
    (hrun : s.indexAddOrUpdate self junk h v ⟨true, false, x⟩ = some (s', r)) :
    r = none ↔ .inr h ∈ s.ht.names := by
  rw [State.indexAddOrUpdate] at hrun
  dsimp only at hrun
  by_cases hinit : s.ht.initialized = false
  · refine iff_of_false ?_ (notMem_of_fresh hv hinit _)
    split_ifs at hrun
    · cases hrun
      exact some_ne_none _
    · cases hrun
      exact some_ne_none _
  rw [if_neg hinit] at hrun
  by_cases hpacked : s.ht.packed = true
  · rw [if_pos hpacked] at hrun
    have hmem := slot_of_packed hv hpacked (x := .inr h)
    by_cases hlive : h < s.ht.nNumUsed ∧ s.ht.live h = true
    · rw [if_pos hlive.1, if_pos hlive.2] at hrun
      cases hrun
      exact iff_of_true rfl (hmem.mpr ⟨h, rfl, hlive⟩)
    · refine iff_of_false ?_ fun h' => ?_
      · have hsome : ∃ t k, (s', r) = ((t : State K V), some (k : ℕ)) := by
          by_cases hlt : h < s.ht.nNumUsed
          · rw [if_pos hlt, if_neg fun hl => hlive ⟨hlt, hl⟩] at hrun
            obtain ⟨t, -, hrun⟩ := map_eq_some_iff.mp hrun
            exact ⟨_, _, hrun.symm⟩
          · split_ifs at hrun
            · exact ⟨_, _, (Option.some.inj hrun).symm⟩
            · obtain ⟨t, -, hrun⟩ := map_eq_some_iff.mp hrun
              exact ⟨_, _, hrun.symm⟩
            · obtain ⟨t, -, hrun⟩ := map_eq_some_iff.mp hrun
              exact ⟨_, _, hrun.symm⟩
        obtain ⟨t, k, heq⟩ := hsome
        rw [(Prod.mk.inj heq).2]
        exact some_ne_none _
      · obtain ⟨i, hi, hlive'⟩ := hmem.mp h'
        cases hi
        exact hlive hlive'
  · rw [if_neg hpacked] at hrun
    rw [Bool.not_eq_true] at hpacked
    rcases search_index hv hpacked h with ⟨hnone, hmem⟩ | ⟨i, u, w, e, hsome, hi, hname, -⟩
    · rw [indexFindBucket, hnone] at hrun
      obtain ⟨t, -, hrun⟩ := map_eq_some_iff.mp hrun
      cases hrun
      exact iff_of_false (some_ne_none _) hmem
    · rw [indexFindBucket, hsome] at hrun
      cases hrun
      exact iff_of_true rfl (mem_names.mpr ⟨i, e, hi, hname⟩)

/-- A packed table ends behind a new element. -/
theorem indexAddOrUpdate_used (hv : s.ht.Valid hash) (hnew : .inr h ∉ s.ht.names)
    (hrun : s.indexAddOrUpdate self junk h v ⟨true, true, true⟩ = some (s', r)) :
    s'.ht.packed = true → s'.ht.nNumUsed = h + 1 := by
  have hadd : ∀ t : State K V, (t.addToPacked self h v ⟨true, true, true⟩).ht.nNumUsed = h + 1 := by
    intro t
    simp [State.addToPacked, State.arrive]
  have hhash : ∀ t : State K V, t.ht.packed = false →
      ¬ (t.addToHash self none h v).ht.packed = true := by
    intro t ht
    rw [ht_addToHash]
    dsimp only
    rw [ht]
    exact Bool.false_ne_true
  rw [State.indexAddOrUpdate] at hrun
  dsimp only at hrun
  by_cases hinit : s.ht.initialized = false
  · split_ifs at hrun
    · cases hrun
      exact fun _ => hadd _
    · cases hrun
      exact fun hp => absurd hp (hhash _ (hv.fresh hinit).1)
  rw [if_neg hinit] at hrun
  rw [Bool.not_eq_false] at hinit
  by_cases hpacked : s.ht.packed = true
  · have hconvert : ((s.packedToHash self junk).ifFullDoResize self junk).map
        (fun t => (t.addToHash self none h v, some t.ht.nNumUsed)) = some (s', r) →
        ¬ s'.ht.packed = true := by
      intro hrun
      obtain ⟨t, ht, hrun⟩ := map_eq_some_iff.mp hrun
      cases hrun
      exact hhash t (convert_spec hv hinit ht).1.hash_layout
    rw [if_pos hpacked] at hrun
    by_cases hlt : h < s.ht.nNumUsed
    · have hdead : ¬ s.ht.live h = true := fun hl =>
        hnew ((slot_of_packed hv hpacked).mpr ⟨h, rfl, hlt, hl⟩)
      rw [if_pos hlt, if_neg hdead] at hrun
      exact fun hp => absurd hp (hconvert hrun)
    · split_ifs at hrun
      · cases hrun
        exact fun _ => hadd _
      · obtain ⟨t, -, hrun⟩ := map_eq_some_iff.mp hrun
        cases hrun
        exact fun _ => hadd _
      · exact fun hp => absurd hp (hconvert hrun)
  · rw [if_neg hpacked] at hrun
    rw [Bool.not_eq_true] at hpacked
    obtain ⟨t, ht, hrun⟩ := map_eq_some_iff.mp hrun
    cases hrun
    have hchaining : s.ht.Chaining hash := ⟨hv, hpacked, hinit⟩
    exact fun hp => absurd hp (hhash t (ifFullDoResize_spec hchaining ht).1.hash_layout)

section

variable [DecidableEq K]

/-- A table with a new string key is not packed. -/
theorem addOrUpdate_hash {k : K} (hv : s.ht.Valid hash)
    (hrun : s.addOrUpdate self junk hash k v ⟨true, true, false⟩ = some (s', r)) :
    s'.ht.packed = false := by
  have hhash : ∀ t : State K V, t.ht.packed = false →
      (t.addToHash self (some k) (hash k) v).ht.packed = false := by
    intro t ht
    rw [ht_addToHash]
    exact ht
  rw [State.addOrUpdate] at hrun
  by_cases hinit : s.ht.initialized = false
  · rw [if_pos hinit] at hrun
    cases hrun
    exact hhash _ (hv.fresh hinit).1
  rw [if_neg hinit] at hrun
  rw [Bool.not_eq_false] at hinit
  by_cases hpacked : s.ht.packed = true
  · rw [if_pos hpacked] at hrun
    obtain ⟨t, ht, hrun⟩ := map_eq_some_iff.mp hrun
    cases hrun
    exact hhash t (convert_spec hv hinit ht).1.hash_layout
  · rw [if_neg hpacked] at hrun
    rw [Bool.not_eq_true] at hpacked
    obtain ⟨t, ht, hrun⟩ := map_eq_some_iff.mp hrun
    cases hrun
    have hchaining : s.ht.Chaining hash := ⟨hv, hpacked, hinit⟩
    exact hhash t (ifFullDoResize_spec hchaining ht).1.hash_layout

/-! ## Tables that are built -/

/-- A table without iterators that has been built from `items`. -/
structure Built (hash : K → ℕ) (t : State K V) (items : List (Entry K V)) : Prop where
  valid : t.ht.Valid hash
  alone : t.iterators = []
  uncounted : t.ht.nIteratorsCount = 0
  entries : t.ht.entries = renumber 0 items
  next : t.ht.nNextFreeElement = ints items
  used : t.ht.packed = true → t.ht.nNumUsed = ints items

omit [DecidableEq K] in
theorem built_newTable {nSize : ℕ} {arData : ℕ → Bucket K V}
    (h : newTable nSize arData = some t) : Built hash t [] := by
  obtain ⟨size, hsize, rfl⟩ := map_eq_some_iff.mp h
  have hsound : State.Sound 0 hash (⟨init size arData, []⟩ : State K V) :=
    init_sound arData hsize nofun
  exact ⟨hsound.valid, rfl, rfl, rfl, rfl, nofun⟩

namespace Built

omit [DecidableEq K] in
theorem counted (hb : Built hash t items) : t.Counted self := by
  right
  rw [hb.alone, hb.uncounted]
  rfl

omit [DecidableEq K] in
theorem standing (hb : Built hash t items) : t.Standing self := by
  intro it hit
  rw [hb.alone] at hit
  exact absurd hit not_mem_nil

omit [DecidableEq K] in
theorem not_straddled (hb : Built hash t items) : ¬ t.Straddled self :=
  not_straddled_of_nil hb.alone

omit [DecidableEq K] in
/-- There are less elements than `uint32_t` has numbers. -/
theorem ints_lt (hb : Built hash t items) : ints items < 2 ^ 32 := by
  have hle := ints_le items
  have hcount := hb.valid.count
  have helements := hb.valid.toListed.elements_le
  have hused := hb.valid.toListed.used_lt
  have hinvalid : HT_INVALID_IDX < 2 ^ 32 := by decide
  rw [hb.entries, length_renumber] at hcount
  omega

omit [DecidableEq K] in
/-- The next index. -/
theorem toUlong_next (hb : Built hash t items) : toUlong t.ht.nNextFreeElement = ints items := by
  have hlt := hb.ints_lt
  rw [hb.next, toUlong]
  omega

omit [DecidableEq K] in
theorem nextFree_ints (hb : Built hash t items) :
    nextFree (ints items) (ints items) = (ints items : ℤ) + 1 := by
  have hlt := hb.ints_lt
  have hmax : ZEND_LONG_MAX = 9223372036854775807 := rfl
  have hlong : toLong (ints items) = ints items := if_pos (by omega)
  rw [nextFree, hlong, if_pos (Int.le_refl _), if_pos (by omega)]

omit [DecidableEq K] in
theorem inr_notMem (hb : Built hash t items) : .inr (ints items) ∉ t.ht.names := by
  rw [names, hb.entries, inr_mem_renumber]
  omega

omit [DecidableEq K] in
/-- An insertion behind the others. -/
theorem append {f : List (Entry K V) → List (Entry K V)} {g : ℤ → ℤ} {ok : Prop}
    (hb : Built hash t items) (hv : t'.ht.Valid hash) (hfollows : Follows self f g ok t t')
    (hok : ok) (hf : f (renumber 0 items) = renumber 0 items ++ renumber (ints items) [e])
    (hg : g (ints items) = ints (items ++ [e]))
    (hused : t'.ht.packed = true → t'.ht.nNumUsed = ints (items ++ [e])) :
    Built hash t' (items ++ [e]) := by
  have hentries := hfollows.entries
  have hfree := hfollows.free
  obtain ⟨r, hmoves, hits⟩ := hfollows.moves
  refine ⟨hv, ?_, ?_, ?_, ?_, hused⟩
  · rw [hits hb.counted hb.standing hok, hb.alone]
    rfl
  · rw [hmoves.count, hb.uncounted]
  · rw [hentries, hb.entries, hf, renumber_append, zero_add]
  · rw [hfree, hb.next, hg]

theorem nextIndexInsert (hb : Built hash t items) (x : ℕ)
    (h : t.nextIndexInsert self junk v true = some (t', r)) :
    Built hash t' (items ++ [⟨none, x, v⟩]) := by
  rw [State.nextIndexInsert, hb.toUlong_next] at h
  have hgap : t.GapEmpty junk (ints items) := by
    intro hadds i hi hlt
    rw [State.AddsPacked] at hadds
    by_cases hinit : t.ht.initialized = false
    · -- nothing has been inserted
      have hcount := hb.valid.toListed.elements_le
      rw [hb.valid.count, hb.entries, length_renumber] at hcount
      have hle := ints_le items
      omega
    · rw [if_neg hinit] at hadds
      have hused := hb.used hadds.1
      omega
  have hints : ints (items ++ [(⟨none, x, v⟩ : Entry K V)]) = ints items + 1 := by
    rw [ints_append]
    rfl
  obtain ⟨hvalid, hfollows⟩ := indexAddOrUpdate_spec hb.valid h (fun _ => hb.inr_notMem)
    fun _ _ => hgap
  refine hb.append hvalid hfollows (fun _ => hb.not_straddled) ?_ ?_ ?_
  · rw [put_of_notMem (e := ⟨none, ints items, v⟩) hb.inr_notMem]
    rfl
  · rw [putFree_of_notMem hb.inr_notMem, hints]
    exact hb.nextFree_ints
  · rw [hints]
    exact indexAddOrUpdate_used hb.valid hb.inr_notMem h

theorem addOrUpdate {k : K} (hb : Built hash t items) (hk : k ∉ strings items)
    (h : t.addOrUpdate self junk hash k v ⟨true, true, false⟩ = some (t', r)) :
    Built hash t' (items ++ [⟨some k, hash k, v⟩]) := by
  have hnew : .inl k ∉ t.ht.names := by
    rw [names, hb.entries, inl_mem_renumber]
    exact hk
  have hints : ints (items ++ [(⟨some k, hash k, v⟩ : Entry K V)]) = ints items := by
    rw [ints_append]
    rfl
  obtain ⟨hvalid, hfollows⟩ := addOrUpdate_spec hb.valid h fun _ => hnew
  refine hb.append hvalid hfollows (fun _ => hb.not_straddled) ?_ ?_ fun hp => ?_
  · rw [put_of_notMem (e := ⟨some k, hash k, v⟩) hnew]
    rfl
  · rw [hints]
    rfl
  · rw [addOrUpdate_hash hb.valid h] at hp
    cases hp

/-- **An element of another table** is added. -/
theorem addBucket {p : Bucket K V} (hb : Built hash t items) (he : p.entry = some e)
    (hhash : ∀ k, e.key = some k → e.h = hash k) (hnew : ∀ k, e.key = some k → k ∉ strings items)
    (h : t.addBucket self hash junk p e.val = some t') : Built hash t' (items ++ [e]) := by
  obtain ⟨-, hkey, hh⟩ := entry_eq_some.mp he
  obtain ⟨key, h', v⟩ := e
  rw [State.addBucket, hkey] at h
  cases key with
  | none =>
    obtain ⟨⟨t'', r⟩, hrun, rfl⟩ := map_eq_some_iff.mp h
    exact hb.nextIndexInsert h' hrun
  | some k =>
    obtain ⟨⟨t'', r⟩, hrun, rfl⟩ := map_eq_some_iff.mp h
    have hh' : h' = hash k := hhash k rfl
    rw [hh']
    exact hb.addOrUpdate (hnew k rfl) hrun

end Built

end

end ZendHash
