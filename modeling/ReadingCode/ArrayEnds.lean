/-
# Adding and taking at the end of an array

Between the changes of an array the position of an iterator is told by the number of the elements
in front of it.  `array_push` leaves that number; an iterator past the end is then at the first new
element.  `array_pop` leaves it too, unless it was past the end.

`array_pop` sets `nNextFreeElement` back when the key that it takes, as a `zend_ulong`, is not
below the last index.  Such a key may be negative, and the last index may be in use.
-/
import ReadingCode.ArrayFunctions

open SlotList

namespace ZendHash

open ZendHash.HashTable

variable {K V : Type} {hash : K → ℕ} {self i p : ℕ} {s s' s'' : State K V}
  {ht : HashTable K V} {e : Entry K V} {f g : ℕ → ℕ}

/-! ## Positions -/

/-- The number of the elements in front of a position. -/
def HashTable.ordinal (ht : HashTable K V) (p : ℕ) : ℕ := rank ht.slots p

theorem ordinal_add_visit (ht : HashTable K V) (p : ℕ) :
    ht.ordinal p + (ht.visit p).length = ht.entries.length := rank_add_visit ..

theorem visit_eq_drop_ordinal (ht : HashTable K V) (p : ℕ) :
    ht.visit p = ht.entries.drop (ht.ordinal p) := visit_eq_drop ..

theorem ordinal_le (ht : HashTable K V) (p : ℕ) : ht.ordinal p ≤ ht.entries.length := by
  have h := ordinal_add_visit ht p
  omega

/-- The iterators of the table have moved along: the elements in front of each of them have become
`f` of what they were. -/
def Carried (addr : ℕ) (f : ℕ → ℕ) (s s' : State K V) : Prop :=
  ∃ r, s'.iterators = relocate addr r s.iterators ∧
    ∀ it ∈ s.iterators, it.ht = some addr → s.ht.Stands it.pos →
      s'.ht.Stands (r it.pos) ∧ s'.ht.ordinal (r it.pos) = f (s.ht.ordinal it.pos)

namespace Carried

theorem trans (h : Carried self f s s') (h' : Carried self g s' s'') :
    Carried self (g ∘ f) s s'' := by
  obtain ⟨r, hits, hr⟩ := h
  obtain ⟨r', hits', hr'⟩ := h'
  refine ⟨r' ∘ r, by rw [hits', hits, relocate_comp], fun it hit hself hp => ?_⟩
  obtain ⟨hstands, hord⟩ := hr it hit hself hp
  have hmem : ({ it with pos := r it.pos } : HashTableIterator) ∈ s'.iterators := by
    rw [hits]
    exact List.mem_map.mpr ⟨it, hit, if_pos hself⟩
  obtain ⟨hstands', hord'⟩ := hr' _ hmem hself hstands
  exact ⟨hstands', by rw [Function.comp_apply, Function.comp_apply, hord', hord]⟩

/-- The iterators and the slots are the same. -/
theorem of_slots (hits : s'.iterators = s.iterators) (hs : s'.ht.slots = s.ht.slots) :
    Carried self id s s' := by
  refine ⟨id, by rw [hits, relocate_id], fun it _ _ hp => ⟨hp.of_slots hs, ?_⟩⟩
  rw [ordinal, hs]
  rfl

theorem standing (h : Carried self f s s') (hs : s.Standing self) : s'.Standing self := by
  obtain ⟨r, hits, hr⟩ := h
  intro it hit hself
  rw [hits] at hit
  obtain ⟨it0, hit0, hself0, hpos⟩ := mem_relocate hit hself
  rw [hpos]
  exact (hr it0 hit0 hself0 (hs it0 hit0 hself0)).1

theorem counted (h : Carried self f s s') (hc : s.Counted self)
    (hcount : s'.ht.nIteratorsCount = s.ht.nIteratorsCount) : s'.Counted self := by
  obtain ⟨r, hits, -⟩ := h
  rw [State.Counted, hits, length_owned_relocate, hcount]
  exact hc

theorem congr (h : Carried self f s s')
    (hfg : ∀ n ≤ s.ht.entries.length, f n = g n) : Carried self g s s' := by
  obtain ⟨r, hits, hr⟩ := h
  refine ⟨r, hits, fun it hit hself hp => ?_⟩
  rw [← hfg _ (ordinal_le ..)]
  exact hr it hit hself hp

end Carried

variable {F : List (Entry K V) → List (Entry K V)} {n : ℤ → ℤ}

/-- A step that changes the elements by `F` carries the iterators. -/
theorem Follows.carried {ok : Prop}
    (h : Follows self F n ok s s') (hc : s.Counted self) (hs : s.Standing self) (hok : ok)
    (hf : ∀ k ≤ s.ht.entries.length,
      (F s.ht.entries).length = f k + (F (s.ht.entries.drop k)).length) : Carried self f s s' := by
  obtain ⟨r, hmoves, hits⟩ := h.moves
  refine ⟨r, hits hc hs hok, fun it _ _ hp => ⟨hmoves.stands _ hp, ?_⟩⟩
  have hlen := ordinal_add_visit s'.ht (r it.pos)
  rw [hmoves.visit _ hp, hmoves.entries, visit_eq_drop_ordinal,
    hf _ (ordinal_le s.ht it.pos)] at hlen
  omega

theorem Follows.sound {ok : Prop}
    (h : Follows self F n ok s s') (hs : s.Sound self hash) (hv : s'.ht.Valid hash) (hok : ok) :
    s'.Sound self hash :=
  ⟨hv, h.counted hs.counted hs.standing hok, h.standing hs.counted hs.standing hok⟩

/-! ## The next index -/

/-- The invariant of an array: that of the table with its iterators, and the next index is above
every integer key, as far as there is a larger one. -/
structure State.Numbered (addr : ℕ) (hash : K → ℕ) (s : State K V) : Prop
    extends s.Sound addr hash where
  nonneg : 0 ≤ s.ht.nNextFreeElement
  le_max : s.ht.nNextFreeElement ≤ ZEND_LONG_MAX
  above : ∀ h, .inr h ∈ s.ht.names → Above s.ht.nNextFreeElement h

theorem toLong_nextIndex (h0 : 0 ≤ s.ht.nNextFreeElement)
    (hmax : s.ht.nNextFreeElement ≤ ZEND_LONG_MAX) :
    toLong s.nextIndex = s.ht.nNextFreeElement := by
  have hvalue : ZEND_LONG_MAX = 9223372036854775807 := rfl
  rw [State.nextIndex, toUlong, toLong]
  split_ifs <;> omega

/-- **The next index is free** unless the key `ZEND_LONG_MAX` is in use. -/
theorem State.Numbered.nextIndex_notMem (hs : s.Numbered self hash)
    (hmax : .inr ZEND_LONG_MAX ∉ s.ht.names) : .inr s.nextIndex ∉ s.ht.names := by
  intro hmem
  have hlong := toLong_nextIndex hs.nonneg hs.le_max
  rcases hs.above _ hmem with h | h
  · omega
  · apply hmax
    have hindex : s.nextIndex = ZEND_LONG_MAX := by
      have hvalue : ZEND_LONG_MAX = 9223372036854775807 := rfl
      rw [State.nextIndex, toUlong]
      omega
    rwa [hindex] at hmem

/-- An insertion leaves the next index above the keys. -/
theorem nextFree_numbered {n : ℤ} {h : ℕ} (h0 : 0 ≤ n) (hmax : n ≤ ZEND_LONG_MAX) :
    0 ≤ nextFree n h ∧ nextFree n h ≤ ZEND_LONG_MAX ∧
      Above (nextFree n h) h ∧ ∀ h', Above n h' → Above (nextFree n h) h' := by
  obtain ⟨hle, hle'⟩ := nextFree_bounds (h := h) hmax
  exact ⟨Int.le_trans h0 hle, hle', nextFree_above h, fun h' ha => ha.mono hle hle'⟩

section

variable [DecidableEq K]

theorem mem_names_put {x : K ⊕ ℕ} {add : Bool}
    (h : x ∈ (put ht e add ht.entries).map Entry.name) : x ∈ ht.names ∨ x = e.name := by
  rw [put] at h
  split_ifs at h
  · exact .inl h
  · rw [map_name_assign] at h
    exact .inl h
  · rw [List.map_append, List.mem_append, List.map_singleton, List.mem_singleton] at h
    exact h

/-- An insertion with an integer key. -/
theorem State.Numbered.put {h : ℕ} {v : V} {add : Bool} (hs : s.Numbered self hash)
    (hs' : s'.Sound self hash) (hh : h < 2 ^ 64)
    (hentries : s'.ht.entries = ZendHash.put s.ht ⟨none, h, v⟩ add s.ht.entries)
    (hfree : s'.ht.nNextFreeElement = putFree s.ht h add s.ht.nNextFreeElement) :
    s'.Numbered self hash := by
  obtain ⟨h0, hmax, habove, hmono⟩ := nextFree_numbered (h := h) hs.nonneg hs.le_max
  have hnames : ∀ h', .inr h' ∈ s'.ht.names → .inr h' ∈ s.ht.names ∨ h' = h := by
    intro h' hmem
    rw [names, hentries] at hmem
    exact (mem_names_put hmem).imp_right Sum.inr.inj
  rw [putFree] at hfree
  split_ifs at hfree with hmem
  · refine ⟨hs', ?_, ?_, fun h' hh' => ?_⟩
    · rw [hfree]
      exact hs.nonneg
    · rw [hfree]
      exact hs.le_max
    · rw [hfree]
      rcases hnames h' hh' with hold | rfl
      · exact hs.above h' hold
      · exact hs.above h' hmem.1
  · refine ⟨hs', hfree ▸ h0, hfree ▸ hmax, fun h' hh' => ?_⟩
    rw [hfree]
    rcases hnames h' hh' with hold | rfl
    · exact hmono h' (hs.above h' hold)
    · exact habove

omit [DecidableEq K] in
/-- No integer key is new, and the next index stays. -/
theorem State.Numbered.of_names (hs : s.Numbered self hash) (hs' : s'.Sound self hash)
    (hfree : s'.ht.nNextFreeElement = s.ht.nNextFreeElement)
    (hnames : ∀ h, .inr h ∈ s'.ht.names → .inr h ∈ s.ht.names) : s'.Numbered self hash := by
  refine ⟨hs', ?_, ?_, fun h hh => ?_⟩
  · rw [hfree]
    exact hs.nonneg
  · rw [hfree]
    exact hs.le_max
  · rw [hfree]
    exact hs.above h (hnames h hh)

/-- **One operation** on the table leaves the next index above the integer keys. -/
theorem State.Numbered.step {op : Op K V} {junk : ℕ → Bucket K V} (hs : s.Numbered self hash)
    (hallowed : s.Allowed op) (hkept : Kept self hash s op junk)
    (h : s.step self junk hash op = some s') : s'.Numbered self hash := by
  have hs' := step_sound hs.toSound hallowed hkept h
  obtain ⟨-, hfollows⟩ := step_spec hs.valid hallowed hkept.2 h
  have hentries := hfollows.entries
  have hfree := hfollows.free
  have hwithout : ∀ x, s'.ht.entries = without x s.ht.entries →
      ∀ h, .inr h ∈ s'.ht.names → .inr h ∈ s.ht.names := by
    intro x hx h hmem
    rw [names, hx] at hmem
    exact (List.Sublist.map _ List.filter_sublist).subset hmem
  have hsame : s'.ht.entries = s.ht.entries →
      ∀ h, .inr h ∈ s'.ht.names → .inr h ∈ s.ht.names := by
    intro hx h hmem
    rwa [names, hx] at hmem
  cases op with
  | addOrUpdate k v add addNew =>
    refine hs.of_names hs' hfree fun h hmem => ?_
    rw [names, hentries] at hmem
    rcases mem_names_put hmem with hold | hnew
    · exact hold
    · cases hnew
  | indexAddOrUpdate h' v add addNew => exact hs.put hs' hallowed.1 hentries hfree
  | nextIndexInsert v addNew => exact hs.put hs' (toUlong_lt _) hentries hfree
  | del k => exact hs.of_names hs' hfree (hwithout _ hentries)
  | indexDel h' => exact hs.of_names hs' hfree (hwithout _ hentries)
  | rehash => exact hs.of_names hs' hfree (hsame hentries)
  | extend nSize packed => exact hs.of_names hs' hfree (hsame hentries)
  | packedToHash => exact hs.of_names hs' hfree (hsame hentries)
  | clean =>
    have hzero : s'.ht.nNextFreeElement = 0 := hfree
    refine ⟨hs', ?_, ?_, fun h hmem => ?_⟩
    · omega
    · omega
    · rw [names, hentries] at hmem
      exact absurd hmem List.not_mem_nil

omit [DecidableEq K] in
/-- The internal pointer and the iterators may be moved. -/
theorem State.Numbered.seek {k : Seek} (hs : s.Numbered self hash)
    (hallowed : s.SeekAllowed self k) : (s.seek self k).Numbered self hash := by
  obtain ⟨p, c, -, hht⟩ := seek_ht self hs.valid k
  have hs' := seek_sound hs.toSound hallowed
  refine ⟨hs', ?_, ?_, ?_⟩
  · rw [hht]
    exact hs.nonneg
  · rw [hht]
    exact hs.le_max
  · rw [hht]
    exact hs.above

/-! ## Adding -/

/-- The elements with the values behind them, each with the next index as long as that is free, and
whether all have been added. -/
def pushed : ℤ → List (Entry K V) → List V → List (Entry K V) × Bool
  | _, l, [] => (l, true)
  | n, l, v :: vs =>
    if .inr (toUlong n) ∈ l.map Entry.name then (l, false)
    else pushed (min (n + 1) ZEND_LONG_MAX) (l ++ [⟨none, toUlong n, v⟩]) vs

theorem pushed_of_mem (hmem : .inr s.nextIndex ∈ s.ht.names) (v : V) (vs : List V) :
    pushed s.ht.nNextFreeElement s.ht.entries (v :: vs) = (s.ht.entries, false) := if_pos hmem

theorem pushed_of_notMem (hmem : .inr s.nextIndex ∉ s.ht.names) (v : V) (vs : List V) :
    pushed s.ht.nNextFreeElement s.ht.entries (v :: vs)
      = pushed (min (s.ht.nNextFreeElement + 1) ZEND_LONG_MAX)
        (s.ht.entries ++ [⟨none, s.nextIndex, v⟩]) vs := if_neg hmem

/-- The insertions that rehash the table do not meet iterators on both sides of its first hole. -/
def State.PushKept (self : ℕ) (junk : ℕ → ℕ → Bucket K V) : ℕ → List V → State K V → Prop
  | _, [], _ => True
  | i, v :: args, s =>
    (s.IndexAddRehashes s.nextIndex false → ¬ s.Straddled self) ∧
      ∀ s' r, s.nextIndexInsert self (junk i) v false = some (s', r) →
        State.PushKept self junk (i + 1) args s'

omit [DecidableEq K] in
theorem nextFree_nextIndex (h0 : 0 ≤ s.ht.nNextFreeElement)
    (hmax : s.ht.nNextFreeElement ≤ ZEND_LONG_MAX) :
    nextFree s.ht.nNextFreeElement s.nextIndex = min (s.ht.nNextFreeElement + 1) ZEND_LONG_MAX := by
  have hlong := toLong_nextIndex h0 hmax
  have hindex : (s.nextIndex : ℤ) = s.ht.nNextFreeElement := by
    have hvalue : ZEND_LONG_MAX = 9223372036854775807 := rfl
    rw [State.nextIndex, toUlong]
    omega
  rw [nextFree, hlong, if_pos (Int.le_refl _)]
  split_ifs <;> omega

/-- One value is added. -/
theorem nextIndexInsert_spec {junk : ℕ → Bucket K V} {v : V} {r : Option ℕ}
    (hs : s.Numbered self hash) (hkept : s.IndexAddRehashes s.nextIndex false → ¬ s.Straddled self)
    (h : s.nextIndexInsert self junk v false = some (s', r)) :
    s'.Numbered self hash ∧ Carried self id s s' ∧ (r = none ↔ .inr s.nextIndex ∈ s.ht.names) ∧
      (.inr s.nextIndex ∈ s.ht.names → s'.ht.entries = s.ht.entries) ∧
      (.inr s.nextIndex ∉ s.ht.names → s'.ht.entries = s.ht.entries ++ [⟨none, s.nextIndex, v⟩] ∧
          s'.ht.nNextFreeElement = min (s.ht.nNextFreeElement + 1) ZEND_LONG_MAX) := by
  obtain ⟨hvalid, hfollows⟩ : s'.ht.Valid hash ∧
      Follows self (put s.ht ⟨none, s.nextIndex, v⟩ true) (putFree s.ht s.nextIndex true)
        (s.IndexAddRehashes s.nextIndex false → ¬ s.Straddled self) s s' :=
    indexAddOrUpdate_spec hs.valid h nofun nofun
  have hs' := hfollows.sound hs.toSound hvalid hkept
  have hentries := hfollows.entries
  have hfree := hfollows.free
  refine ⟨hs.put hs' (toUlong_lt _) hentries hfree, ?_,
    indexAddOrUpdate_fails hs.valid h, fun hmem => ?_, fun hmem => ?_⟩
  · refine hfollows.carried hs.counted hs.standing hkept fun k hk => ?_
    by_cases hmem : .inr s.nextIndex ∈ s.ht.names
    · rw [put_add_of_mem (e := ⟨none, s.nextIndex, v⟩) hmem, id, id, id, List.length_drop]
      omega
    · rw [put_of_notMem (e := ⟨none, s.nextIndex, v⟩) hmem, List.length_append,
        List.length_append, List.length_drop, id]
      omega
  · rw [hentries, put_add_of_mem (e := ⟨none, s.nextIndex, v⟩) hmem]
    rfl
  · rw [hentries, hfree, put_of_notMem (e := ⟨none, s.nextIndex, v⟩) hmem, putFree_of_notMem hmem]
    exact ⟨rfl, nextFree_nextIndex hs.nonneg hs.le_max⟩

/-- **`array_push`** adds the values at the end. -/
theorem arrayPush_spec {junk : ℕ → ℕ → Bucket K V} {args : List V} {r : Returned K V}
    (hs : s.Numbered self hash) (hkept : s.PushKept self junk i args)
    (h : s.arrayPush self junk i args = some (s', r)) :
    s'.Numbered self hash ∧ Carried self id s s' ∧
      s'.ht.entries = (pushed s.ht.nNextFreeElement s.ht.entries args).1 ∧
      r = if (pushed s.ht.nNextFreeElement s.ht.entries args).2 then
        .long s'.ht.entries.length else .no := by
  induction args generalizing i s with
  | nil =>
    cases h
    refine ⟨hs, .of_slots rfl rfl, rfl, ?_⟩
    rw [pushed, if_pos rfl, hs.valid.count]
  | cons v args ih =>
    obtain ⟨⟨t, k⟩, hrun, h⟩ := Option.bind_eq_some_iff.mp h
    obtain ⟨hrehash, hrest⟩ := hkept
    obtain ⟨ht, hcarried, hfails, hsame, hnew⟩ := nextIndexInsert_spec hs hrehash hrun
    by_cases hmem : .inr s.nextIndex ∈ s.ht.names
    · rw [hfails.mpr hmem] at h
      cases h
      rw [pushed_of_mem hmem]
      exact ⟨ht, hcarried, hsame hmem, rfl⟩
    · have hsome : ¬ k.isNone = true := by
        rw [Option.isNone_iff_eq_none, hfails]
        exact hmem
      rw [if_neg hsome] at h
      obtain ⟨hentries, hfree⟩ := hnew hmem
      obtain ⟨hs', hcarried', hresult⟩ := ih ht (hrest t k hrun) h
      rw [hentries, hfree] at hresult
      rw [pushed_of_notMem hmem]
      exact ⟨hs', hcarried.trans hcarried', hresult⟩

/-! ## Taking -/

omit [DecidableEq K] in
theorem entry_of_slot (hi : ht.slots[i]? = some (some e)) :
    i < ht.nNumUsed ∧ (ht.arData i).entry = some e := by
  have hlt := (List.getElem?_eq_some_iff.mp hi).1
  rw [length_slots] at hlt
  rw [slots, getElem?_cells hlt] at hi
  exact ⟨hlt, Option.some.inj hi⟩

omit [DecidableEq K] in
/-- A key is in one slot only. -/
theorem slot_unique {j : ℕ} {e' : Entry K V} (hl : ht.Listed hash)
    (hi : ht.slots[i]? = some (some e)) (hj : ht.slots[j]? = some (some e'))
    (hname : e.name = e'.name) : i = j := by
  have hlt : ∀ {i j : ℕ} {e e' : Entry K V}, ht.slots[i]? = some (some e) →
      ht.slots[j]? = some (some e') → e.name = e'.name → ¬ i < j := by
    intro i j e e' hi hj hname hij
    have hsplit : ht.entries = _ := reduceOption_of_getElem? hi
    have hmem : e' ∈ SlotList.visit ht.slots (i + 1) := by
      have hslot : (ht.slots.drop (i + 1))[j - (i + 1)]? = some (some e') := by
        rw [List.getElem?_drop, show i + 1 + (j - (i + 1)) = j by omega, hj]
      exact List.reduceOption_mem_iff.mpr (List.mem_of_getElem? hslot)
    exact name_ne_of_middle (hsplit ▸ hl.nodup) e' (List.mem_append_right _ hmem) hname.symm
  rcases Nat.lt_trichotomy i j with h | h | h
  · exact absurd h (hlt hi hj hname)
  · exact h
  · exact absurd h (hlt hj hi hname.symm)

/-- An element is deleted by its key in its bucket. -/
theorem delBucket_eq (self : ℕ) (hv : s.ht.Valid hash) (hi : s.ht.slots[i]? = some (some e)) :
    ∃ prev, Found s.ht i prev ∧ s.delBucket self hash (s.ht.arData i) = s.delElEx self i prev := by
  obtain ⟨hlt, hentry⟩ := entry_of_slot hi
  obtain ⟨hval, hkey, hh⟩ := entry_eq_some.mp hentry
  rw [State.delBucket, hkey, hh]
  cases hk : e.key with
  | none =>
    rw [State.indexDel]
    by_cases hpacked : s.ht.packed = true
    · have hidx := (hv.indexed hpacked i e hi).2
      have hlive := (occupied_slots.mp ⟨e, hi⟩).2
      rw [if_pos hpacked, hidx, if_pos ⟨hlt, hlive⟩]
      exact ⟨none, fun hp => absurd (hpacked.symm.trans hp) Bool.noConfusion, rfl⟩
    · rw [if_neg hpacked]
      rw [Bool.not_eq_true] at hpacked
      have hname : e.name = .inr e.h := name_eq_inr.mpr ⟨hk, rfl⟩
      rcases search_index hv hpacked e.h with ⟨-, hmem⟩ | ⟨j, u, w, e', hsome, hj, hname', hchain⟩
      · exact absurd (mem_names.mpr ⟨i, e, hi, hname⟩) hmem
      · have hij := slot_unique hv.toListed hi hj (hname.trans hname'.symm)
        subst hij
        rw [hsome]
        exact ⟨_, fun _ => ⟨u, w, rfl, hchain⟩, rfl⟩
  | some k =>
    dsimp only
    rw [State.del]
    have hname : e.name = .inl k := name_eq_inl.mpr hk
    have hpacked : s.ht.packed = false := by
      by_contra hpacked
      have hnone := (hv.indexed (Bool.not_eq_false _ ▸ hpacked) i e hi).1
      rw [hk] at hnone
      cases hnone
    rcases search_key hv hpacked k with ⟨-, hmem⟩ | ⟨j, u, w, e', hsome, hj, hname', hchain⟩
    · exact absurd (mem_names.mpr ⟨i, e, hi, hname⟩) hmem
    · have hij := slot_unique hv.toListed hi hj (hname.trans hname'.symm)
      subst hij
      rw [hsome]
      exact ⟨_, fun _ => ⟨u, w, rfl, hchain⟩, rfl⟩

theorem delBucket_spec (self : ℕ) (hv : s.ht.Valid hash) (hi : s.ht.slots[i]? = some (some e)) :
    (s.delBucket self hash (s.ht.arData i)).ht.Valid hash ∧
      Follows self (without e.name) id True s (s.delBucket self hash (s.ht.arData i)) := by
  obtain ⟨prev, hfound, heq⟩ := delBucket_eq self hv hi
  rw [heq]
  exact delElEx_spec hv hi hfound

omit [DecidableEq K] in
/-- `nNextFreeElement` may be set. -/
theorem HashTable.Valid.freed (hv : ht.Valid hash) (n : ℤ) :
    ({ ht with nNextFreeElement := n } : HashTable K V).Valid hash :=
  ⟨⟨hv.size_pos, hv.used_le, hv.size_lt, hv.count, hv.nodup, hv.hashed, hv.stands⟩, hv.indexed,
    hv.unlinked, hv.chained, hv.fresh⟩

omit [DecidableEq K] in
theorem prevFrom_spec (ht : HashTable K V) (n : ℕ) :
    (ht.prevFrom n = HT_INVALID_IDX ∧ ∀ k < n, ht.live k = false) ∨
      ht.prevFrom n < n ∧ ht.live (ht.prevFrom n) = true ∧
        ∀ k, ht.prevFrom n < k → k < n → ht.live k = false := by
  induction n with
  | zero => exact .inl ⟨rfl, fun k hk => absurd hk (Nat.not_lt_zero k)⟩
  | succ n ih =>
    rw [prevFrom]
    by_cases hlive : ht.live n = true
    · rw [if_pos hlive]
      exact .inr ⟨Nat.lt_succ_self n, hlive, fun k hk hkn => by omega⟩
    · rw [if_neg hlive]
      rw [Bool.not_eq_true] at hlive
      have hlast : ∀ k, ¬ k < n → k < n + 1 → ht.live k = false := by
        intro k hk hkn
        rw [show k = n by omega]
        exact hlive
      rcases ih with ⟨hend, hdead⟩ | ⟨hlt, hl, hdead⟩
      · refine .inl ⟨hend, fun k hk => ?_⟩
        by_cases hkn : k < n
        · exact hdead k hkn
        · exact hlast k hkn hk
      · refine .inr ⟨Nat.lt_succ_of_lt hlt, hl, fun k hk hkn' => ?_⟩
        by_cases hkn : k < n
        · exact hdead k hk hkn
        · exact hlast k hkn hkn'

omit [DecidableEq K] in
/-- The last element of a table. -/
theorem prevFrom_last (hv : ht.Valid hash) (hne : ht.nNumOfElements ≠ 0) :
    ∃ e, ht.slots[ht.prevFrom ht.nNumUsed]? = some (some e) ∧
      ht.entries = ht.entries.dropLast ++ [e] := by
  have hnil : ht.entries ≠ [] := by
    intro hnil
    rw [hv.count, hnil] at hne
    exact hne rfl
  rcases prevFrom_spec ht ht.nNumUsed with ⟨-, hdead⟩ | ⟨hlt, hlive, hdead⟩
  · refine absurd ?_ hnil
    rw [← HashTable.visit_zero, HashTable.visit, visit_eq_of_holes (Nat.zero_le ht.nNumUsed),
      visit_of_le (Nat.le_of_eq ht.length_slots)]
    intro k _ hk hocc
    rw [occupied_slots, hdead k hk] at hocc
    exact Bool.false_ne_true hocc.2
  · obtain ⟨e, he⟩ := occupied_slots.mpr ⟨hlt, hlive⟩
    refine ⟨e, he, ?_⟩
    have hend : SlotList.visit ht.slots (ht.prevFrom ht.nNumUsed + 1) = [] := by
      rw [visit_eq_of_holes hlt, visit_of_le (Nat.le_of_eq ht.length_slots)]
      intro k hk hkn hocc
      rw [occupied_slots, hdead k hk hkn] at hocc
      exact Bool.false_ne_true hocc.2
    have hsplit : ht.entries = _ := reduceOption_of_getElem? he
    rw [hend] at hsplit
    rw [hsplit, List.dropLast_concat]

/-- The value of an element, returned. -/
def returnedOf (e : Option (Entry K V)) : Returned K V :=
  (e.map fun e => .value e.val).getD .null

omit [DecidableEq K] in
theorem returned_of_slot (hi : ht.slots[i]? = some (some e)) :
    (ht.arData i).returned = .value e.val := by
  rw [Bucket.returned, val_of_slot hi]

/-- `array_pop` does not set `nNextFreeElement` back to a key that is in use or below one. -/
def State.PopKept (s : State K V) : Prop :=
  ∀ e, s.ht.entries.getLast? = some e → e.key = none → s.ht.nNextFreeElement > 0 →
    e.h ≥ toUlong (s.ht.nNextFreeElement - 1) →
      ∀ e' ∈ s.ht.entries.dropLast, e'.key = none → toLong e'.h < s.ht.nNextFreeElement - 1

/-- The last element is taken out of the end of a list. -/
theorem length_without_last {l : List (Entry K V)} (h : ((l ++ [e]).map Entry.name).Nodup) (k : ℕ) :
    (without e.name (l ++ [e])).length
      = min k l.length + (without e.name ((l ++ [e]).drop k)).length := by
  rw [without_middle h, List.append_nil]
  by_cases hend : k ≤ l.length
  · have hdrop : (l ++ [e]).drop k = l.drop k ++ [e] := List.drop_append_of_le_length hend
    have hnodup : ((l.drop k ++ [e]).map Entry.name).Nodup := by
      rw [← hdrop]
      exact h.sublist ((List.drop_sublist k _).map _)
    rw [hdrop, without_middle hnodup, List.append_nil, List.length_drop]
    omega
  · rw [List.drop_eq_nil_of_le (by rw [List.length_append, List.length_singleton]; omega)]
    change l.length = min k l.length + 0
    omega

/-- **`array_pop`** takes the last element. -/
theorem arrayPop_spec (hs : s.Numbered self hash) (hkept : s.PopKept) :
    (s.arrayPop self hash).1.Numbered self hash ∧
      Carried self (fun k => min k (s.ht.entries.length - 1)) s (s.arrayPop self hash).1 ∧
      (s.arrayPop self hash).1.ht.entries = s.ht.entries.dropLast ∧
      (s.arrayPop self hash).2 = returnedOf s.ht.entries.getLast? := by
  rw [State.arrayPop]
  by_cases hzero : s.ht.nNumOfElements = 0
  · rw [if_pos hzero]
    have hnil : s.ht.entries = [] := by
      rw [← List.length_eq_zero_iff, ← hs.valid.count, hzero]
    refine ⟨hs, ?_, by rw [hnil]; rfl, by rw [hnil]; rfl⟩
    refine (Carried.of_slots rfl rfl).congr fun n hn => ?_
    rw [hnil] at hn ⊢
    rw [Nat.le_zero.mp hn]
    rfl
  obtain ⟨e, he, hsplit⟩ := prevFrom_last hs.valid hzero
  have hlt := (entry_of_slot he).1
  have hused := hs.valid.used_lt
  have hlast : s.ht.entries.getLast? = some e := by rw [hsplit, List.getLast?_concat]
  rw [if_neg hzero]
  dsimp only
  rw [if_neg (by omega)]
  generalize s.ht.prevFrom s.ht.nNumUsed = idx at he hlt
  -- `nNextFreeElement` first
  obtain ⟨-, hkey, hh⟩ := entry_eq_some.mp (entry_of_slot he).2
  obtain ⟨n, hn, hn'⟩ : ∃ n, (if s.ht.SetsBack (s.ht.arData idx) then
      ({ s with ht := { s.ht with nNextFreeElement := s.ht.nNextFreeElement - 1 } } : State K V)
        else s) = { s with ht := { s.ht with nNextFreeElement := n } } ∧
      (0 ≤ n ∧ n ≤ ZEND_LONG_MAX ∧
        ∀ e' ∈ s.ht.entries.dropLast, e'.key = none → Above n e'.h) := by
    have hnonneg := hs.nonneg
    have hmax := hs.le_max
    split_ifs with hback
    · rw [HashTable.SetsBack, hkey, hh, Option.isNone_iff_eq_none] at hback
      refine ⟨_, rfl, by omega, by omega, fun e' he' hk' => ?_⟩
      exact .inl (hkept e hlast hback.1 hback.2.1 hback.2.2 e' he' hk')
    · refine ⟨s.ht.nNextFreeElement, rfl, hnonneg, hmax, fun e' he' hk' => hs.above e'.h ?_⟩
      rw [← name_eq_inr.mpr ⟨hk', rfl⟩]
      exact List.mem_map_of_mem (List.dropLast_subset _ he')
  rw [hn]
  have hs1 : ({ s with ht := { s.ht with nNextFreeElement := n } } : State K V).Sound self hash :=
    ⟨hs.valid.freed n, hs.counted, hs.standing⟩
  obtain ⟨hvalid, hfollows⟩ := delBucket_spec self hs1.valid he
  have hnodup := hs.valid.nodup
  rw [hsplit] at hnodup
  have hentries := hfollows.entries
  have hfree := hfollows.free
  have ht := hfollows.sound hs1 hvalid trivial
  have hcarried : Carried self (fun k => min k (s.ht.entries.length - 1)) _ _ :=
    hfollows.carried hs1.counted hs1.standing trivial fun k _ => by
      change (without e.name s.ht.entries).length
        = _ + (without e.name (s.ht.entries.drop k)).length
      rw [hsplit, length_without_last hnodup k, List.length_append]
      rfl
  change _ = without e.name s.ht.entries at hentries
  rw [hsplit, without_middle hnodup, List.append_nil] at hentries
  generalize State.delBucket self hash { s with ht := { s.ht with nNextFreeElement := n } }
    (s.ht.arData idx) = t at hentries hfree ht hcarried ⊢
  have hreset := seek_sound (k := .internalPointerReset) ht trivial
  refine ⟨⟨hreset, ?_, ?_, fun h hmem => ?_⟩, ?_, hentries, ?_⟩
  · exact hfree.symm ▸ hn'.1
  · exact hfree.symm ▸ hn'.2.1
  · change .inr h ∈ t.ht.names at hmem
    rw [names, hentries] at hmem
    obtain ⟨e', he', hname⟩ := List.mem_map.mp hmem
    obtain ⟨hk', rfl⟩ := name_eq_inr.mp hname
    exact hfree.symm ▸ hn'.2.2 e' he' hk'
  · have hbefore : Carried self id s
        ({ s with ht := { s.ht with nNextFreeElement := n } } : State K V) :=
      Carried.of_slots rfl rfl
    exact (hbefore.trans hcarried).trans (Carried.of_slots rfl rfl)
  · rw [hlast, returned_of_slot he]
    rfl

end

end ZendHash
