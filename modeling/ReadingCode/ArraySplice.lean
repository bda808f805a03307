/-
# Splicing an array

`array_unshift` and `array_splice` copy the elements that stay to a new table, which comes in the
place of the old one.  The table is then without the count of its iterators, so an array that has
iterators is left out here; without them nothing is to be moved.

The end of the elements that `php_splice` removes is computed as a `zend_long`, and after a test
that is made in 32 bits.
-/
import ReadingCode.ArrayShift

open SlotList

namespace ZendHash

open List Option

variable {K V : Type} {hash : K → ℕ} {self n d p : ℕ} {junk : ℕ → ℕ → Bucket K V}
  {s s' t : State K V} {c c' : Splicing K V} {items rest : List (Entry K V)} {e : Entry K V}

/-! ## Arrays without iterators -/

/-- The table has no iterators. -/
def State.Alone (addr : ℕ) (s : State K V) : Prop := ∀ it ∈ s.iterators, it.ht ≠ some addr

theorem relocate_alone (h : s.Alone self) (r : ℕ → ℕ) : relocate self r s.iterators = s.iterators :=
  relocate_eq_self fun it hit hself => absurd hself (h it hit)

theorem carried_alone {f : ℕ → ℕ} (h : s.Alone self) (hits : s'.iterators = s.iterators) :
    Carried self f s s' :=
  ⟨id, by rw [hits, relocate_id], fun it hit hself => absurd hself (h it hit)⟩

theorem iteratorsUpdate_alone (h : s.Alone self) (src dst : ℕ) :
    s.iteratorsUpdate self src dst = s := by
  rw [State.iteratorsUpdate]
  split_ifs
  · rw [iteratorsUpdate_eq_relocate, relocate_alone h]
  · rfl

theorem track_alone (h : c.s.Alone self) : (c.track self).s = c.s := by
  rw [Splicing.track]
  split_ifs
  · exact iteratorsUpdate_alone h ..
  · rfl
  · rfl

theorem trackAll_alone (h : c.s.Alone self) : (c.trackAll self).s = c.s := by
  rw [Splicing.trackAll]
  split_ifs
  · exact iteratorsUpdate_alone h ..
  · rfl

/-! ## The loops -/

/-- A loop that goes from the position `p` to `stop` has passed `d` of the `n` elements that are
left. -/
structure Passed (more : ℕ → Prop) (p n d : ℕ) : Prop where
  le : d ≤ n
  stops : d = n ∨ ¬ more (p + d)
  goes : ∀ k < d, more (p + k)

variable {more : ℕ → Prop}

theorem Passed.succ (h : Passed more (p + 1) n d) (hp : more p) :
    Passed more p (n + 1) (d + 1) where
  le := Nat.succ_le_succ h.le
  stops := by
    rcases h.stops with hend | hstop
    · exact .inl (by rw [hend])
    · right
      rwa [show p + (d + 1) = p + 1 + d by omega]
  goes k hk := by
    cases k with
    | zero => exact hp
    | succ k =>
      rw [show p + (k + 1) = p + 1 + k by omega]
      exact h.goes k (by omega)

theorem passed_zero (h : ¬ more p ∨ n = 0) : Passed more p n 0 where
  le := Nat.zero_le n
  stops := h.elim Or.inr fun h => .inl h.symm
  goes k hk := absurd hk (Nat.not_lt_zero k)

/-- What is left of the array when some elements have been passed. -/
structure Left (addr : ℕ) (hash : K → ℕ) (c : Splicing K V) (rest : List (Entry K V)) :
    Prop where
  sound : c.s.Sound addr hash
  alone : c.s.Alone addr
  visit : c.s.ht.visit c.idx = rest

/-- The bucket `idx` is a hole or the next element. -/
theorem visit_cases {ht : HashTable K V} {idx : ℕ} (hrest : ht.visit idx = rest) :
    ht.nNumUsed ≤ idx ∧ rest = [] ∨
    idx < ht.nNumUsed ∧ (ht.arData idx).val = none ∧ ht.visit (idx + 1) = rest ∨
    ∃ e rest', idx < ht.nNumUsed ∧ ht.slots[idx]? = some (some e) ∧
      (ht.arData idx).val = some e.val ∧ rest = e :: rest' ∧ ht.visit (idx + 1) = rest' := by
  rcases lt_or_ge idx ht.nNumUsed with hlt | hge
  · right
    have hslot : ht.slots[idx]? = some (ht.arData idx).entry := Compacting.slot hlt
    cases hentry : (ht.arData idx).entry with
    | none =>
      rw [hentry] at hslot
      exact .inl ⟨hlt, entry_eq_none.mp hentry, hrest ▸ (visit_of_hole hslot).symm⟩
    | some e =>
      rw [hentry] at hslot
      exact .inr ⟨e, _, hlt, hslot, val_of_slot hslot, hrest ▸ visit_of_getElem? hslot, rfl⟩
  · left
    rw [← ht.length_slots] at hge
    exact ⟨ht.length_slots ▸ hge, hrest ▸ visit_of_le hge⟩

/-- Nothing is left behind the last bucket. -/
theorem Left.length_of_le (hl : Left self hash c rest) (h : c.s.ht.nNumUsed ≤ c.idx) :
    rest.length = 0 := by
  rcases visit_cases hl.visit with ⟨-, hnil⟩ | ⟨hlt, -⟩ | ⟨e, rest', hlt, -⟩
  · rw [hnil]
    rfl
  · omega
  · omega

/-- A loop stops at the position or behind the last bucket. -/
theorem Left.stop_of_not (hl : Left self hash c rest) {q : Prop}
    (h : ¬ (q ∧ c.idx < c.s.ht.nNumUsed)) : ¬ q ∨ rest.length = 0 := by
  by_cases hlt : c.idx < c.s.ht.nNumUsed
  · exact .inl fun hq => h ⟨hq, hlt⟩
  · exact .inr (hl.length_of_le (not_lt.mp hlt))

theorem strings_cons_notMem {k : K} (h : (strings (items ++ e :: rest)).Nodup)
    (hk : e.key = some k) : k ∉ strings items := by
  rw [strings_append, strings, strings, filterMap_cons_some hk, nodup_append] at h
  exact fun hmem => h.2.2 k hmem k mem_cons_self rfl

section

variable [DecidableEq K]

/-- **Copying** the elements that are left, as long as `more` holds for the position. -/
theorem copyFrom_spec {track : Splicing K V → Splicing K V} {more : ℕ → Bool}
    (htrack : ∀ c : Splicing K V, c.s.Alone self → (track c).s = c.s)
    (hl : Left self hash c rest) (hfuel : c.s.ht.nNumUsed ≤ c.idx + n)
    (hbuilt : Built hash c.out items) (hnodup : (strings (items ++ rest)).Nodup)
    (h : copyFrom self hash junk track more n c = some c') :
    ∃ d, Passed (fun p => more p = true) c.pos rest.length d ∧
      Left self hash c' (rest.drop d) ∧ Built hash c'.out (items ++ rest.take d) ∧
      c'.pos = c.pos + d ∧ c'.s.iterators = c.s.iterators := by
  induction n generalizing c items rest with
  | zero =>
    cases h
    refine ⟨0, passed_zero (.inr (hl.length_of_le hfuel)), hl, ?_, rfl, rfl⟩
    rw [take_zero, append_nil]
    exact hbuilt
  | succ n ih =>
    rw [copyFrom] at h
    by_cases hgo : more c.pos = true ∧ c.idx < c.s.ht.nNumUsed
    · rw [if_pos hgo] at h
      dsimp only at h
      rcases visit_cases hl.visit with ⟨hend, -⟩ | ⟨-, hval, hnext⟩ |
        ⟨e, rest', -, hslot, hval, rfl, hnext⟩
      · omega
      · rw [hval] at h
        exact ih (c := { c with idx := c.idx + 1 }) ⟨hl.sound, hl.alone, hnext⟩
          (by dsimp only; omega) hbuilt hnodup h
      · rw [hval] at h
        obtain ⟨out, hout, h⟩ := bind_eq_some_iff.mp h
        have hbuilt' := hbuilt.addBucket (entry_of_slot hslot).2
          (hl.sound.valid.hashed e (mem_entries_of_slot hslot))
          (fun k hk => strings_cons_notMem hnodup hk) hout
        have hsame := htrack c hl.alone
        have hl' : Left self hash
            { track c with out := out, pos := c.pos + 1, idx := c.idx + 1 } rest' :=
          ⟨hsame.symm ▸ hl.sound, hsame.symm ▸ hl.alone, by rw [hsame, hnext]⟩
        rw [← singleton_append, ← append_assoc] at hnodup
        obtain ⟨d, hpassed, hleft, hbuilt'', hpos, hits⟩ :=
          ih hl' (by dsimp only; rw [hsame]; omega) hbuilt' hnodup h
        refine ⟨d + 1, hpassed.succ hgo.1, hleft, ?_, ?_, ?_⟩
        · rw [take_succ_cons, ← singleton_append, ← append_assoc]
          exact hbuilt''
        · dsimp only at hpos
          omega
        · rw [hits]
          rw [hsame]
    · rw [if_neg hgo] at h
      cases h
      refine ⟨0, passed_zero (hl.stop_of_not hgo), hl, ?_, rfl, rfl⟩
      rw [take_zero, append_nil]
      exact hbuilt

/-- Deleting an element leaves those behind it to be visited. -/
theorem delBucket_alone (hs : s.Sound self hash) (halone : s.Alone self)
    (hi : s.ht.slots[p]? = some (some e)) :
    (s.delBucket self hash (s.ht.arData p)).Sound self hash ∧
      (s.delBucket self hash (s.ht.arData p)).iterators = s.iterators ∧
      (s.delBucket self hash (s.ht.arData p)).ht.visit (p + 1) = s.ht.visit (p + 1) ∧
      (s.delBucket self hash (s.ht.arData p)).ht.nNumUsed ≤ s.ht.nNumUsed := by
  obtain ⟨hvalid, hfollows⟩ := delBucket_spec self hs.valid hi
  have hs' := hfollows.sound hs hvalid trivial
  obtain ⟨r, -, hits⟩ := hfollows.moves
  refine ⟨hs', ?_, ?_, ?_⟩
  · rw [hits hs.counted hs.standing trivial, relocate_alone halone]
  · obtain ⟨prev, -, heq⟩ := delBucket_eq self hs.valid hi
    rw [heq, HashTable.visit, ← visit_append_replicate, ← slots_delElEx,
      visit_set_of_lt (Nat.lt_succ_self p)]
    rfl
  · obtain ⟨prev, -, heq⟩ := delBucket_eq self hs.valid hi
    have hused : (s.ht.unchained p prev).nNumUsed = s.ht.nNumUsed := by rw [unchained_fields]
    rw [heq, ht_delElEx, ← hused]
    exact usedAfter_le ..

/-- **Moving** the elements up to the position `stop` to another table. -/
theorem removeFrom_spec {stop : ℤ} {r : Splicing K V × State K V} (hl : Left self hash c rest)
    (hfuel : c.s.ht.nNumUsed ≤ c.idx + n) (hbuilt : Built hash t items)
    (hnodup : (strings (items ++ rest)).Nodup) (h : removeFrom self hash junk stop n c t = some r) :
    ∃ d, Passed (fun p => (p : ℤ) < stop) c.pos rest.length d ∧
      Left self hash r.1 (rest.drop d) ∧ Built hash r.2 (items ++ rest.take d) ∧
      r.1.out = c.out ∧ r.1.s.iterators = c.s.iterators := by
  induction n generalizing c t items rest with
  | zero =>
    cases h
    refine ⟨0, passed_zero (.inr (hl.length_of_le hfuel)), hl, ?_, rfl, rfl⟩
    rw [take_zero, append_nil]
    exact hbuilt
  | succ n ih =>
    rw [removeFrom] at h
    by_cases hgo : (c.pos : ℤ) < stop ∧ c.idx < c.s.ht.nNumUsed
    · rw [if_pos hgo] at h
      dsimp only at h
      rcases visit_cases hl.visit with ⟨hend, -⟩ | ⟨-, hval, hnext⟩ |
        ⟨e, rest', -, hslot, hval, rfl, hnext⟩
      · omega
      · rw [hval] at h
        exact ih (c := { c with idx := c.idx + 1 }) ⟨hl.sound, hl.alone, hnext⟩
          (by dsimp only; omega) hbuilt hnodup h
      · rw [hval] at h
        obtain ⟨t', ht', h⟩ := bind_eq_some_iff.mp h
        have hmem := mem_entries_of_slot hslot
        have hbuilt' := hbuilt.addBucket (entry_of_slot hslot).2
          (hl.sound.valid.hashed e hmem) (fun k hk => strings_cons_notMem hnodup hk) ht'
        obtain ⟨hsound, hits, hvisit, hused⟩ := delBucket_alone hl.sound hl.alone hslot
        rw [← singleton_append, ← append_assoc] at hnodup
        obtain ⟨d, hpassed, hleft, hbuilt'', hout, hits'⟩ := ih
          (c := { c with
            s := c.s.delBucket self hash (c.s.ht.arData c.idx)
            pos := c.pos + 1, idx := c.idx + 1 })
          ⟨hsound, fun it hit => hl.alone it (hits ▸ hit), hvisit.trans hnext⟩
          (by dsimp only; omega) hbuilt' hnodup h
        refine ⟨d + 1, hpassed.succ hgo.1, hleft, ?_, hout, hits'.trans hits⟩
        rw [take_succ_cons, ← singleton_append, ← append_assoc]
        exact hbuilt''
    · rw [if_neg hgo] at h
      cases h
      refine ⟨0, passed_zero (hl.stop_of_not hgo), hl, ?_, rfl, rfl⟩
      rw [take_zero, append_nil]
      exact hbuilt

omit [DecidableEq K] in
/-- A count below 2 ^ 31 is an `int`. -/
theorem toInt_natCast (h : p < 2 ^ 31) : toInt p = p := by
  have hmod : toUint p = p := by
    rw [toUint]
    omega
  rw [toInt, hmod, if_pos h]

/-- **Deleting** the elements up to the position `stop`. -/
theorem skipFrom_spec (stop : ℤ) (hl : Left self hash c rest)
    (hfuel : c.s.ht.nNumUsed ≤ c.idx + n) (hsmall : p + rest.length < 2 ^ 31) :
    ∃ d, Passed (fun p => (p : ℤ) < stop) p rest.length d ∧
      Left self hash (skipFrom self hash stop n p c) (rest.drop d) ∧
      (skipFrom self hash stop n p c).out = c.out ∧
      (skipFrom self hash stop n p c).s.iterators = c.s.iterators := by
  induction n generalizing c p rest with
  | zero => exact ⟨0, passed_zero (.inr (hl.length_of_le hfuel)), hl, rfl, rfl⟩
  | succ n ih =>
    rw [skipFrom]
    by_cases hgo : (p : ℤ) < stop ∧ c.idx < c.s.ht.nNumUsed
    · rw [if_pos hgo]
      dsimp only
      rcases visit_cases hl.visit with ⟨hend, -⟩ | ⟨-, hval, hnext⟩ |
        ⟨e, rest', -, hslot, hval, rfl, hnext⟩
      · omega
      · rw [hval]
        exact ih (c := { c with idx := c.idx + 1 }) ⟨hl.sound, hl.alone, hnext⟩
          (by dsimp only; omega) hsmall
      · obtain ⟨hsound, hits, hvisit, hused⟩ := delBucket_alone hl.sound hl.alone hslot
        rw [length_cons] at hsmall
        have hnext' : toInt ((p + 1 : ℕ) : ℤ) = ((p + 1 : ℕ) : ℤ) := toInt_natCast (by omega)
        change toInt ((p : ℤ) + 1) = _ at hnext'
        rw [hval]
        rw [hnext']
        obtain ⟨d, hpassed, hleft, hout, hits'⟩ := ih
          (c := { c with
            s := c.s.delBucket self hash (c.s.ht.arData c.idx), idx := c.idx + 1 })
          ⟨hsound, fun it hit => hl.alone it (hits ▸ hit), hvisit.trans hnext⟩
          (by dsimp only; omega) (p := p + 1) (by omega)
        exact ⟨d + 1, hpassed.succ hgo.1, hleft, hout, hits'.trans hits⟩
    · rw [if_neg hgo]
      exact ⟨0, passed_zero (hl.stop_of_not hgo), hl, rfl, rfl⟩

/-- The elements up to the position `stop` are taken out. -/
theorem takeOut_spec {stop : ℤ} {removed : Option (State K V)}
    {r : Splicing K V × Option (State K V)} (hl : Left self hash c rest)
    (hsmall : c.pos + rest.length < 2 ^ 31) (hnodup : (strings rest).Nodup)
    (hremoved : ∀ t, removed = some t → Built hash t [])
    (h : takeOut self hash junk stop c removed = some r) :
    ∃ d, Passed (fun p => (p : ℤ) < stop) c.pos rest.length d ∧
      Left self hash r.1 (rest.drop d) ∧ r.1.out = c.out ∧ r.1.s.iterators = c.s.iterators ∧
      r.2.isSome = removed.isSome ∧ ∀ t, r.2 = some t → Built hash t (rest.take d) := by
  have hfuel : c.s.ht.nNumUsed ≤ c.idx + (c.s.ht.nNumUsed - c.idx) := by omega
  cases removed with
  | none =>
    cases h
    obtain ⟨d, hpassed, hleft, hout, hits⟩ := skipFrom_spec stop hl hfuel hsmall
    rw [toInt_natCast (by omega)]
    exact ⟨d, hpassed, hleft, hout, hits, rfl, nofun⟩
  | some t =>
    obtain ⟨r', hr', rfl⟩ := map_eq_some_iff.mp h
    obtain ⟨d, hpassed, hleft, hbuilt, hout, hits⟩ :=
      removeFrom_spec hl hfuel (hremoved t rfl) (show (strings ([] ++ rest)).Nodup from hnodup) hr'
    refine ⟨d, hpassed, hleft, hout, hits, rfl, fun t' ht' => ?_⟩
    cases ht'
    exact hbuilt

/-- Values as elements, the keys of which do not matter. -/
def valueEntries (vs : List V) : List (Entry K V) := vs.map fun v => ⟨none, 0, v⟩

omit [DecidableEq K] in
theorem strings_valueEntries (vs : List V) : strings (valueEntries (K := K) vs) = [] := by
  induction vs with
  | nil => rfl
  | cons v vs ih => exact ih

theorem insertAll_spec {vs : List V} (hbuilt : Built hash c.out items)
    (h : insertAll self junk vs c = some c') :
    Built hash c'.out (items ++ valueEntries vs) ∧ c'.s = c.s ∧ c'.idx = c.idx := by
  induction vs generalizing c items with
  | nil =>
    cases h
    rw [valueEntries, map_nil, append_nil]
    exact ⟨hbuilt, rfl, rfl⟩
  | cons v vs ih =>
    obtain ⟨⟨t, k⟩, hrun, h⟩ := bind_eq_some_iff.mp h
    obtain ⟨hbuilt', hs, hidx⟩ := ih (c := { c with out := t, pos := c.pos + 1 })
      (hbuilt.nextIndexInsert 0 hrun) h
    rw [append_assoc] at hbuilt'
    exact ⟨hbuilt', hs, hidx⟩

omit [DecidableEq K] in
/-- The new table has come in the place of the old one. -/
theorem replaceTable_spec (halone : s.Alone self) (hbuilt : Built hash t items) :
    (s.replaceTable t.ht).Numbered self hash ∧ (s.replaceTable t.ht).iterators = s.iterators ∧
      (s.replaceTable t.ht).ht.entries = renumber 0 items := by
  have hvalid : (s.replaceTable t.ht).ht.Valid hash :=
    (hbuilt.valid.pointed hbuilt.valid.stands 0).pointed
      (stands_nextFrom _ (.inl (le_of_eq (zero_add _)))) 0
  have howned : owned self s.iterators = [] := by
    rw [owned, filter_eq_nil_iff]
    intro it hit
    rw [decide_eq_true_iff]
    exact halone it hit
  have hcounted : (s.replaceTable t.ht).Counted self := by
    right
    change 0 = (owned self s.iterators).length
    rw [howned]
    rfl
  have hsound : (s.replaceTable t.ht).Sound self hash :=
    ⟨hvalid, hcounted, fun it hit hself => absurd hself (halone it hit)⟩
  exact ⟨numbered_of_renumber hsound hbuilt.entries hbuilt.next, rfl, hbuilt.entries⟩

/-! ## Adding at the beginning -/

/-- **`array_unshift`** adds the values in front and numbers the others anew. -/
theorem arrayUnshift_spec {args : List V} {r : Returned K V} (hs : s.Sound self hash)
    (halone : s.Alone self) (h : s.arrayUnshift self hash junk args = some (s', r)) :
    s'.Numbered self hash ∧ s'.iterators = s.iterators ∧
      s'.ht.entries = renumber 0 (valueEntries args ++ s.ht.entries) ∧
      r = .long s'.ht.entries.length := by
  obtain ⟨out, hout, h⟩ := bind_eq_some_iff.mp h
  obtain ⟨c, hc, h⟩ := bind_eq_some_iff.mp h
  obtain ⟨c', hc', h⟩ := map_eq_some_iff.mp h
  cases h
  obtain ⟨hbuilt, hcs, hidx⟩ := insertAll_spec (built_newTable hout) hc
  dsimp only at hcs hidx
  have hl : Left self hash c s.ht.entries := by
    refine ⟨hcs.symm ▸ hs, hcs.symm ▸ halone, ?_⟩
    rw [hcs, hidx]
    rfl
  have hnodup : (strings ([] ++ valueEntries args ++ s.ht.entries)).Nodup := by
    rw [nil_append, strings_append, strings_valueEntries]
    exact strings_nodup hs.valid.nodup
  obtain ⟨d, hpassed, hleft, hbuilt', -, hits⟩ :=
    copyFrom_spec (fun c hc => trackAll_alone hc) hl (by rw [hcs]; omega) hbuilt hnodup hc'
  have hd : d = s.ht.entries.length := by
    rcases hpassed.stops with h | h
    · exact h
    · exact absurd rfl h
  rw [hd, take_length] at hbuilt'
  obtain ⟨hnumbered, hits', hentries⟩ := replaceTable_spec hleft.alone hbuilt'
  refine ⟨hnumbered, ?_, hentries, ?_⟩
  · rw [hits', hits, hcs]
  · rw [hnumbered.valid.count]

end

/-! ## Offsets and lengths -/

/-- The elements of `n` that are in front of an offset, which may count from the end. -/
def spliceOffset (n : ℕ) (offset : ℤ) : ℕ :=
  if offset < 0 then (n + offset).toNat else min offset.toNat n

/-- The elements that a length takes out from `off` on; a negative one leaves that many at the
end. -/
def spliceLength (n off : ℕ) (length : ℤ) : ℕ :=
  if length < 0 then (n - off + length).toNat else min length.toNat (n - off)

theorem clampOffset_eq (n : ℕ) (offset : ℤ) : clampOffset n offset = spliceOffset n offset := by
  rw [clampOffset, spliceOffset]
  split_ifs <;> omega

theorem spliceOffset_le (n : ℕ) (offset : ℤ) : spliceOffset n offset ≤ n := by
  rw [spliceOffset]
  split_ifs <;> omega

theorem spliceOffset_self {n off : ℕ} (h : off ≤ n) : spliceOffset n off = off := by
  rw [spliceOffset]
  split_ifs <;> omega

/-- The end of the elements that are taken out is a `zend_long`, unless there are none. -/
def EndFits (n : ℕ) (offset length : ℤ) : Prop :=
  spliceOffset n offset < n → spliceOffset n offset + length ≤ ZEND_LONG_MAX

theorem toLong_toUlong {m : ℤ} (hmin : -2 ^ 63 ≤ m) (hmax : m < 2 ^ 63) :
    toLong (toUlong m) = m := by
  have hvalue : ZEND_LONG_MAX = 9223372036854775807 := rfl
  rw [toLong, toUlong]
  split_ifs <;> omega

/-- **The loop takes out** what it should. -/
theorem passed_spliceLength {n off d : ℕ} {length : ℤ} (hoff : off ≤ n) (hn : n < 2 ^ 31)
    (hmin : -2 ^ 63 ≤ length) (hfits : off < n → off + length ≤ ZEND_LONG_MAX)
    (h : Passed (fun p => (p : ℤ) < toLong (toUlong (off + clampLength n off length)))
      off (n - off) d) : d = spliceLength n off length := by
  have hvalue : ZEND_LONG_MAX = 9223372036854775807 := rfl
  obtain ⟨hle, hstops, hgoes⟩ := h
  by_cases hend : off = n
  · rw [spliceLength]
    split_ifs <;> omega
  -- the end does not overflow
  have hstop : toLong (toUlong (off + clampLength n off length))
      = off + clampLength n off length := by
    apply toLong_toUlong
    · rw [clampLength]
      split_ifs <;> omega
    · rw [clampLength]
      split_ifs <;> omega
  rw [hstop] at hstops hgoes
  have hlast : d = 0 ∨ ((off + (d - 1) : ℕ) : ℤ) < off + clampLength n off length := by
    by_cases hd : d = 0
    · exact .inl hd
    · exact .inr (hgoes (d - 1) (by omega))
  rw [clampLength] at hstops hlast
  rw [spliceLength]
  by_cases hneg : length < 0
  · rw [if_pos hneg] at hstops hlast ⊢
    omega
  · rw [if_neg hneg] at hstops hlast ⊢
    rw [toUint, toUint, toUint] at hstops hlast
    split_ifs at hstops hlast <;> omega

/-! ## Splicing -/

section

variable [DecidableEq K]

/-- The elements that stay, with new ones between them. -/
def spliced (l : List (Entry K V)) (off d : ℕ) (vs : List V) : List (Entry K V) :=
  l.take off ++ valueEntries vs ++ l.drop (off + d)

variable {replace : Option (List V)}

theorem phpSplice_spec {off : ℕ} {offset length : ℤ}
    {removed : Option (State K V)} {r : Option (State K V)} (hs : s.Sound self hash)
    (halone : s.Alone self) (hn : s.ht.entries.length < 2 ^ 31)
    (hoff : off = spliceOffset s.ht.entries.length offset) (hmin : -2 ^ 63 ≤ length)
    (hfits : EndFits s.ht.entries.length offset length)
    (hremoved : ∀ t, removed = some t → Built hash t [])
    (h : s.phpSplice self hash junk offset length replace removed = some (s', r)) :
    s'.Numbered self hash ∧ s'.iterators = s.iterators ∧
      s'.ht.entries = renumber 0 (spliced s.ht.entries off
        (spliceLength s.ht.entries.length off length) (replace.getD [])) ∧
      r.isSome = removed.isSome ∧ ∀ t, r = some t → Built hash t
        ((s.ht.entries.drop off).take (spliceLength s.ht.entries.length off length)) := by
  have hle := spliceOffset_le s.ht.entries.length offset
  rw [EndFits, ← hoff] at hfits
  rw [← hoff] at hle
  rw [State.phpSplice] at h
  rw [hs.valid.count, clampOffset_eq, ← hoff] at h
  obtain ⟨out, hout, h⟩ := bind_eq_some_iff.mp h
  obtain ⟨c, hc, h⟩ := bind_eq_some_iff.mp h
  obtain ⟨q, hq, h⟩ := bind_eq_some_iff.mp h
  obtain ⟨c1, hc1, h⟩ := bind_eq_some_iff.mp h
  obtain ⟨c2, hc2, h⟩ := map_eq_some_iff.mp h
  cases h
  -- the elements in front
  have hnodup := strings_nodup hs.valid.nodup
  obtain ⟨d0, hpassed0, hl0, hbuilt0, hpos0, hits0⟩ :=
    copyFrom_spec (fun c hc => track_alone hc) (⟨hs, halone, rfl⟩ : Left self hash _ s.ht.entries)
      (by dsimp only; omega) (built_newTable hout) hnodup hc
  have hd0 : d0 = off := by
    obtain ⟨hle0, hstops, hgoes⟩ := hpassed0
    simp only [decide_eq_true_eq] at hstops hgoes
    have hlast := hgoes (d0 - 1)
    omega
  subst hd0
  have hrest : (s.ht.entries.drop d0).length = s.ht.entries.length - d0 := length_drop
  rw [zero_add] at hpos0
  -- those that are taken out
  obtain ⟨d, hpassed, hl, hout', hits, hsome, hbuilt'⟩ := takeOut_spec hl0
    (by omega) (hnodup.sublist ((drop_sublist ..).filterMap _)) hremoved hq
  rw [hpos0, hrest] at hpassed
  have hd := passed_spliceLength hle hn hmin hfits hpassed
  -- the new ones and those behind
  obtain ⟨hbuilt1, hs1, hidx1⟩ := insertAll_spec (c := { q.1 with
    iterPos := lowerPos self q.1.iterPos q.1.s.iterators }) (hout'.symm ▸ hbuilt0) hc1
  have hl1 : Left self hash c1 ((s.ht.entries.drop d0).drop d) :=
    ⟨hs1.symm ▸ hl.sound, hs1.symm ▸ hl.alone, by rw [hs1, hidx1]; exact hl.visit⟩
  have hnodup1 : (strings ([] ++ s.ht.entries.take d0 ++ valueEntries (replace.getD [])
      ++ (s.ht.entries.drop d0).drop d)).Nodup := by
    rw [strings_append, strings_append, strings_valueEntries, append_nil,
      drop_drop, ← strings_append]
    refine hnodup.sublist (List.Sublist.filterMap _ ?_)
    conv_rhs => rw [← take_append_drop d0 s.ht.entries]
    exact (List.Sublist.refl _).append (drop_sublist_drop_left _ (Nat.le_add_right ..))
  obtain ⟨d2, hpassed2, hl2, hbuilt2, -, hits2⟩ :=
    copyFrom_spec (fun c hc => track_alone hc) hl1 (by omega) hbuilt1 hnodup1 hc2
  have hd2 : d2 = ((s.ht.entries.drop d0).drop d).length := by
    rcases hpassed2.stops with h | h
    · exact h
    · exact absurd rfl h
  rw [hd2, take_length, drop_drop] at hbuilt2
  obtain ⟨hnumbered, hits', hentries⟩ := replaceTable_spec hl2.alone hbuilt2
  rw [← hd]
  refine ⟨hnumbered, ?_, hentries, hsome, hbuilt'⟩
  rw [hits', hits2, hs1, hits, hits0]

/-- The length that `array_splice` is called with; without one it is the number of the elements. -/
def lengthArgument (n : ℕ) (length : Option Int64) : ℤ := (length.map Int64.toInt).getD n

omit [DecidableEq K] in
/-- `array_splice` does not meet iterators, nor more elements than an `int` counts, nor an end
that overflows. -/
structure State.SpliceKept (addr : ℕ) (offset : Int64) (length : Option Int64) (s : State K V) :
    Prop where
  alone : s.Alone addr
  count : s.ht.entries.length < 2 ^ 31
  fits : EndFits s.ht.entries.length offset.toInt (lengthArgument s.ht.entries.length length)

/-- What `array_splice` returns: the elements that it has taken out, numbered anew, if the result
is used. -/
def RemovedElements (hash : K → ℕ) (usedRet : Bool) (l : List (Entry K V)) (r : Returned K V) :
    Prop :=
  if usedRet then ∃ t : State K V, r = .array t.ht ∧ Built hash t l else r = .null

/-- **`array_splice`** takes elements out and puts others in their place. -/
theorem arraySplice_spec {offset : Int64} {length : Option Int64}
    {usedRet : Bool} {r : Returned K V} {off d : ℕ} (hs : s.Sound self hash)
    (hkept : s.SpliceKept self offset length)
    (hoff : off = spliceOffset s.ht.entries.length offset.toInt)
    (hd : d = spliceLength s.ht.entries.length off (lengthArgument s.ht.entries.length length))
    (h : s.arraySplice self hash junk offset length replace usedRet = some (s', r)) :
    s'.Numbered self hash ∧ s'.iterators = s.iterators ∧
      s'.ht.entries = renumber 0 (spliced s.ht.entries off d (replace.getD [])) ∧
      RemovedElements hash usedRet ((s.ht.entries.drop off).take d) r := by
  obtain ⟨halone, hn, hfits⟩ := hkept
  have hle := spliceOffset_le s.ht.entries.length offset.toInt
  have hcount : toInt s.ht.nNumOfElements = s.ht.entries.length := by
    rw [hs.valid.count]
    exact toInt_natCast hn
  have hmin : -2 ^ 63 ≤ lengthArgument s.ht.entries.length length := by
    cases length with
    | none =>
      change -2 ^ 63 ≤ (s.ht.entries.length : ℤ)
      omega
    | some l => exact l.le_toInt
  rw [State.arraySplice] at h
  rw [hcount] at h
  cases usedRet with
  | false =>
    obtain ⟨⟨t, q⟩, hrun, h⟩ := map_eq_some_iff.mp h
    cases h
    obtain ⟨hnumbered, hits, hentries, -⟩ :=
      phpSplice_spec hs halone hn hoff hmin hfits (fun t ht => by cases ht) hrun
    rw [hd]
    exact ⟨hnumbered, hits, hentries, rfl⟩
  | true =>
    rw [clampOffset_eq] at h
    obtain ⟨removed, hremoved, h⟩ := bind_eq_some_iff.mp h
    obtain ⟨⟨t, q⟩, hrun, h⟩ := map_eq_some_iff.mp h
    cases h
    have hself := spliceOffset_self hle
    rw [← hoff] at hle hrun hself
    rw [EndFits, ← hoff] at hfits
    obtain ⟨hnumbered, hits, hentries, hsome, hbuilt⟩ :=
      phpSplice_spec hs halone hn hself.symm hmin (by rw [EndFits, hself]; exact hfits)
        (fun t ht => by cases ht; exact built_newTable hremoved) hrun
    obtain ⟨t', rfl⟩ := isSome_iff_exists.mp hsome
    rw [hd]
    exact ⟨hnumbered, hits, hentries, t', rfl, hbuilt t' rfl⟩

end

end ZendHash

/-!
# Runs of the array functions

An array is changed by the operations on its table and by the functions that add and take elements
at its ends.  In every run the next index stays above the integer keys, and the functions do on the
table what they should do on the list of its elements.

That does not hold without conditions: `array_pop` may set the next index back to a key that is in
use, `array_unshift` and `array_splice` forget the iterators, the end of what `array_splice` takes
out may overflow, and adding may rehash a table under its iterators.
-/

namespace ZendHash

variable {K V : Type} [DecidableEq K] {hash : K → ℕ} {self : ℕ} {s s' : State K V}
  {f : ArrayFunction V}

/-! ## What the functions should do -/

/-- Where an iterator comes to when `d` elements from `off` on are replaced by `m` others: at an
element that is taken out it goes to the next one that stays. -/
def splicePosition (off d m j : ℕ) : ℕ := if j < off then j else max j (off + d) - d + m

/-- **What an array function should do** to the list of the elements and to the iterators, and what
it should return. -/
def State.Meets (addr : ℕ) (hash : K → ℕ) (s s' : State K V) (r : Returned K V) :
    ArrayFunction V → Prop
  | .push args =>
    s'.ht.entries = (pushed s.ht.nNextFreeElement s.ht.entries args).1 ∧
      (r = if (pushed s.ht.nNextFreeElement s.ht.entries args).2 then
        .long s'.ht.entries.length else .no) ∧ Carried addr id s s'
  | .pop =>
    s'.ht.entries = s.ht.entries.dropLast ∧ r = returnedOf s.ht.entries.getLast? ∧
      Carried addr (fun j => min j (s.ht.entries.length - 1)) s s'
  | .shift =>
    s'.ht.entries = renumber 0 s.ht.entries.tail ∧ r = returnedOf s.ht.entries.head? ∧
      Carried addr (· - 1) s s'
  | .unshift args =>
    s'.ht.entries = renumber 0 (valueEntries args ++ s.ht.entries) ∧
      r = .long s'.ht.entries.length ∧ Carried addr (· + args.length) s s'
  | .splice offset length replace usedRet =>
    let n := s.ht.entries.length
    let off := spliceOffset n offset.toInt
    let d := spliceLength n off (lengthArgument n length)
    let values := replace.getD []
    s'.ht.entries = renumber 0 (spliced s.ht.entries off d values) ∧
      RemovedElements hash usedRet ((s.ht.entries.drop off).take d) r ∧
      Carried addr (splicePosition off d values.length) s s'

/-- A value can be added under the next index, unless the key `ZEND_LONG_MAX` is in use. -/
def State.Appends (addr : ℕ) (s : State K V) : Prop :=
  .inr ZEND_LONG_MAX ∉ s.ht.names → ∀ junk v s' r,
    s.nextIndexInsert addr junk v false = some (s', r) → r ≠ none

omit [DecidableEq K] in
theorem State.Numbered.appends (hs : s.Numbered self hash) : s.Appends self := by
  intro hmax junk v s' r hrun hnone
  exact hs.nextIndex_notMem hmax ((indexAddOrUpdate_fails hs.valid hrun).mp hnone)

/-! ## One call -/

/-- The condition under which an array function does what it should.  `array_unshift` and
`array_splice` set the number of the iterators of the table to zero, so that one that stands right
by chance is not carried along any more. -/
def State.CallKept (addr : ℕ) (s : State K V) (junk : ℕ → ℕ → Bucket K V) :
    ArrayFunction V → Prop
  | .push args => s.PushKept addr junk 0 args
  | .pop => s.PopKept
  | .shift => True
  | .unshift _ => s.Alone addr
  | .splice offset length _ _ => s.SpliceKept addr offset length

theorem call_spec {junk : ℕ → ℕ → Bucket K V} {r : Returned K V} (hs : s.Numbered self hash)
    (hkept : s.CallKept self junk f) (h : s.call self hash junk f = some (s', r)) :
    s'.Numbered self hash ∧ s.Meets self hash s' r f := by
  cases f with
  | push args =>
    obtain ⟨hs', hcarried, hentries, hr⟩ := arrayPush_spec hs hkept h
    exact ⟨hs', hentries, hr, hcarried⟩
  | pop =>
    have hspec := arrayPop_spec hs hkept
    rw [show s.arrayPop self hash = (s', r) from Option.some.inj h] at hspec
    obtain ⟨hs', hcarried, hentries, hr⟩ := hspec
    exact ⟨hs', hentries, hr, hcarried⟩
  | shift =>
    have hspec := arrayShift_spec hs
    rw [show s.arrayShift self hash = (s', r) from Option.some.inj h] at hspec
    obtain ⟨hs', hcarried, hentries, hr⟩ := hspec
    exact ⟨hs', hentries, hr, hcarried⟩
  | unshift args =>
    obtain ⟨hs', hits, hentries, hr⟩ := arrayUnshift_spec hs.toSound hkept h
    exact ⟨hs', hentries, hr, carried_alone hkept hits⟩
  | splice offset length replace usedRet =>
    obtain ⟨hs', hits, hentries, hr⟩ := arraySplice_spec hs.toSound hkept rfl rfl h
    exact ⟨hs', hentries, hr, carried_alone hkept.alone hits⟩

/-! ## Runs -/

/-- The states that an array and the iterators reach from an empty table, where every call of an
array function meets the condition `cond` in the state it begins in, and the operations of the
table leave no position behind. -/
inductive ArrayReachable (addr : ℕ) (hash : K → ℕ)
    (cond : State K V → (ℕ → ℕ → Bucket K V) → ArrayFunction V → Prop) : State K V → Prop where
  | init {nSize nTableSize : ℕ} (arData : ℕ → Bucket K V) (its : List HashTableIterator) :
    checkSize nSize = some nTableSize → (∀ it ∈ its, it.ht ≠ some addr) →
      ArrayReachable addr hash cond ⟨HashTable.init nTableSize arData, its⟩
  | step {s s' : State K V} (op : Op K V) (junk : ℕ → Bucket K V) :
    ArrayReachable addr hash cond s → s.Allowed op → Kept addr hash s op junk →
      s.step addr junk hash op = some s' → ArrayReachable addr hash cond s'
  | seek {s : State K V} (k : Seek) :
    ArrayReachable addr hash cond s → s.SeekAllowed addr k →
      ArrayReachable addr hash cond (s.seek addr k)
  | call {s s' : State K V} {r : Returned K V} (f : ArrayFunction V)
    (junk : ℕ → ℕ → Bucket K V) :
    ArrayReachable addr hash cond s → cond s junk f →
      s.call addr hash junk f = some (s', r) → ArrayReachable addr hash cond s'

theorem ArrayReachable.of_reachable
    {cond : State K V → (ℕ → ℕ → Bucket K V) → ArrayFunction V → Prop}
    (hr : Reachable self hash (Kept self hash) s) : ArrayReachable self hash cond s := by
  induction hr with
  | init arData its hsize hits => exact .init arData its hsize hits
  | step op junk _ hallowed hkept hstep ih => exact .step op junk ih hallowed hkept hstep
  | seek k _ hallowed ih => exact .seek k ih hallowed

theorem ArrayReachable.numbered (h : ArrayReachable self hash (State.CallKept self) s) :
    s.Numbered self hash := by
  induction h with
  | init arData its hsize hits =>
    refine ⟨init_sound arData hsize hits, Int.le_refl _, Int.natCast_nonneg _, fun h hmem => ?_⟩
    exact absurd hmem List.not_mem_nil
  | step op junk _ hallowed hkept hstep ih => exact ih.step hallowed hkept hstep
  | seek k _ hallowed ih => exact ih.seek hallowed
  | call f junk _ hkept hcall ih => exact (call_spec ih hkept hcall).1

/-- In every state that is reached the invariant of the table holds, every iterator is at an
element or past the end, and the next index is above the integer keys, so that a value can be
added; and every call of an array function does what it should. -/
def EndsMet (addr : ℕ) (hash : K → ℕ)
    (cond : State K V → (ℕ → ℕ → Bucket K V) → ArrayFunction V → Prop) : Prop :=
  ∀ s, ArrayReachable addr hash cond s → s.Numbered addr hash ∧ s.Appends addr ∧
    ∀ f junk s' r, cond s junk f → s.call addr hash junk f = some (s', r) →
      s.Meets addr hash s' r f

/-- **The array functions do what they should** in every run whose calls meet the condition. -/
theorem ends_met (self : ℕ) (hash : K → ℕ) : EndsMet (V := V) self hash (State.CallKept self) := by
  intro s hr
  have hs := hr.numbered
  exact ⟨hs, hs.appends, fun f junk s' r hkept h => (call_spec hs hkept h).2⟩

/-- The last of three keys is taken out, and the iterator at it comes to the end. -/
theorem ends_met_threeKeys : threeKeys.Meets 1 id (threeKeys.arrayPop 1 id).1 (.value ()) .pop := by
  obtain ⟨-, -, hcall⟩ := ends_met 1 id threeKeys (.of_reachable reachable_threeKeys)
  refine hcall .pop (fun _ _ => blank) _ _ ?_ rfl
  rintro e he hkey
  cases he
  cases hkey

/-! ## A next index in use -/

/-- The array `[5 => …, -3 => …]`. -/
def negativeLast : State ℕ Unit :=
  let s : State ℕ Unit := ⟨HashTable.init 8 fun _ => blank, []⟩
  after (after s (.indexAddOrUpdate 5 () false false))
    (.indexAddOrUpdate (2 ^ 64 - 3) () false false)

theorem reachable_negativeLast : Reachable 1 id (Kept 1 id) negativeLast := by
  refine .after (.after ?_ ?_ ?_ rfl) ?_ ?_ rfl
  · exact .init _ [] (show checkSize 8 = some 8 from rfl) nofun
  · exact ⟨by decide, nofun⟩
  · exact ⟨⟨fun _ => not_straddled_of_nil rfl, nofun⟩, trivial⟩
  · exact ⟨by decide, nofun⟩
  · exact ⟨⟨fun _ => not_straddled_of_nil rfl, nofun⟩, trivial⟩

/-- **The next index is in use**: `array_pop` takes the key -3, which is large as a `zend_ulong`,
and the next index becomes 5. -/
theorem not_ends_met : ¬ ∀ (K V : Type) [DecidableEq K] (self : ℕ) (hash : K → ℕ),
      EndsMet (K := K) (V := V) self hash fun _ _ _ => True := by
  intro h
  have hlast : ArrayReachable 1 id (fun _ _ _ => True) negativeLast :=
    .of_reachable reachable_negativeLast
  have hreached := ArrayReachable.call (r := .value ()) .pop (fun _ _ => blank) hlast trivial rfl
  obtain ⟨-, happends, -⟩ := h ℕ Unit 1 id _ hreached
  exact happends (by decide) (fun _ => blank) () _ _ rfl rfl

end ZendHash
