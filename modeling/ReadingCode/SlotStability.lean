/-
# The slots stay where they are

While values are read, a table that has pointers into it is filled up to the size it was
given, no further: nothing in it moves, unless a size was cut down to 32 bits.  A bucket keeps its
key when the key occurs again, and another key gets it only after it was given back.
-/
import ReadingCode.ElementSlots

namespace PhpSlots

open PhpSlots.HashTable

open Function (update)

open PhpVar (Key Token scan expect text)

/-! ## Sizes -/

namespace HashTable

open List

/-- A table has room for the size it was made for. -/
theorem le_checkSize {n size : ℕ} (h : checkSize n = some size) : n ≤ size := by
  rw [checkSize] at h
  split at h
  · rw [← Option.some.inj h]
    omega
  · split at h
    · exact absurd h (by simp)
    · have hlog : n - 1 < 2 ^ ((n - 1).log2 + 1) := Nat.lt_log2_self
      rw [← Option.some.inj h]
      omega

theorem rehash_nNumUsed_le (ht : HashTable) : ht.rehash.nNumUsed ≤ ht.nNumUsed := by
  rw [rehash]
  split
  · exact Nat.zero_le _
  · exact length_filter_le _ _

theorem rehash_nTableSize (ht : HashTable) : ht.rehash.nTableSize = ht.nTableSize := by
  rw [rehash]
  split <;> rfl

theorem setVal_nNumUsed (ht : HashTable) (i : ℕ) (v : Zv) :
    (ht.setVal i v).nNumUsed = ht.nNumUsed := length_modify ..

theorem append_nNumUsed (ht : HashTable) (k : Key) (v : Zv) :
    (ht.append k v).nNumUsed = ht.nNumUsed + 1 := by
  rw [nNumUsed, append, length_append]
  rfl

theorem del_nTableSize (ht : HashTable) (k : Key) : (ht.del k).nTableSize = ht.nTableSize := by
  rw [del]
  split
  · split <;> rfl
  · rfl

theorem setVal_keyAt (ht : HashTable) (i j : ℕ) (v : Zv) :
    (ht.setVal i v).keyAt j = ht.keyAt j := by
  rw [keyAt, setVal, keyAt, getElem?_modify]
  cases ht.arData[j]? with
  | none => rfl
  | some b => cases b <;> split <;> rfl

theorem append_keyAt (ht : HashTable) (k : Key) (v : Zv) {i : ℕ} (hi : ht.keyAt i ≠ none) :
    (ht.append k v).keyAt i = ht.keyAt i := by
  have hlt : i < ht.arData.length := by
    by_contra hle
    rw [keyAt, getElem?_eq_none (not_lt.mp hle)] at hi
    exact hi rfl
  rw [keyAt, append, getElem?_append_left hlt, keyAt]

theorem append_keyAt_self (ht : HashTable) (k : Key) (v : Zv) :
    (ht.append k v).keyAt ht.nNumUsed = some k := by
  rw [keyAt, append, nNumUsed, getElem?_concat_length]
  rfl

variable {ht : HashTable}

theorem find_keyAt {k : Key} {i : ℕ} (hf : ht.find k = some i) : ht.keyAt i = some k := by
  obtain ⟨hlt, hk, -⟩ := findIdx?_eq_some_iff_getElem.mp hf
  rw [keyAt, getElem?_eq_getElem hlt, Option.join_some]
  cases hb : ht.arData[i] with
  | none =>
    rw [hb] at hk
    cases hk
  | some b =>
    rw [hb] at hk
    exact congrArg some (of_decide_eq_true hk)

/-- A bucket that is not given back keeps its key. -/
theorem del_keyAt (ht : HashTable) (k : Key) (i : ℕ) :
    (ht.del k).keyAt i = none ∨ (ht.del k).keyAt i = ht.keyAt i := by
  have hdel : ∀ j, (ht.delEl j).keyAt i = none ∨ (ht.delEl j).keyAt i = ht.keyAt i := by
    intro j
    simp only [keyAt, delEl]
    split
    · have hfree := rdropWhile_prefix isFree ht.arData.dropLast
      have hpre := hfree.trans <| dropLast_prefix ht.arData
      cases hget : (ht.arData.dropLast.rdropWhile isFree)[i]? with
      | none => exact .inl rfl
      | some b =>
        obtain ⟨rest, hrest⟩ := hpre
        have hlt := (List.getElem?_eq_some_iff.mp hget).1
        exact .inr (by rw [← hrest, getElem?_append_left hlt, hget])
    · by_cases hij : j = i
      · rw [hij, getElem?_set_self']
        cases ht.arData[i]? <;> exact .inl rfl
      · rw [getElem?_set_ne hij]
        exact .inr rfl
  rw [del]
  split
  · split
    · exact .inr rfl
    · exact hdel _
  · exact .inr rfl

/-- Deleting gives buckets back. -/
theorem del_nNumUsed_le (ht : HashTable) (k : Key) : (ht.del k).nNumUsed ≤ ht.nNumUsed := by
  have hdel : ∀ i, (ht.delEl i).nNumUsed ≤ ht.nNumUsed := by
    intro i
    rw [nNumUsed, delEl]
    split
    · refine le_trans ( rdropWhile_prefix _ _).length_le ?_
      rw [length_dropLast]
      exact Nat.sub_le _ _
    · rw [length_set]
      exact le_rfl
  rw [del]
  split
  · split
    · exact le_rfl
    · exact hdel _
  · exact le_rfl

/-- After it was extended a table has room for the size. -/
theorem le_extend {ht' : HashTable} {nSize : ℕ} (h : ht.extend nSize = some ht') :
    nSize ≤ ht'.nTableSize ∧ ht'.nNumUsed ≤ ht.nNumUsed := by
  rw [extend] at h
  split at h
  · obtain rfl := Option.some.inj h
    rename_i h0
    rw [h0]
    exact ⟨Nat.zero_le _, le_rfl⟩
  · split at h
    · split at h
      · obtain ⟨size, hsize, rfl⟩ := Option.map_eq_some_iff.mp h
        rw [rehash_nTableSize]
        exact ⟨le_checkSize hsize, rehash_nNumUsed_le _⟩
      · obtain rfl := Option.some.inj h
        rename_i hle
        exact ⟨not_lt.mp hle, le_rfl⟩
    · split at h
      · obtain ⟨size, hsize, rfl⟩ := Option.map_eq_some_iff.mp h
        exact ⟨le_checkSize hsize, le_rfl⟩
      · obtain rfl := Option.some.inj h
        rename_i hle
        exact ⟨not_lt.mp hle, le_rfl⟩

end HashTable

/-! ## What is kept -/

/-- A location in a table in use, or in none. -/
def Loc.Below (n : ℕ) : Loc → Prop
  | .bucket t _ => t < n
  | _ => True

/-- No size was cut down and no bucket of a recorded slot was given back. -/
def Memory.Clean (s : Memory) : Prop := s.wide = false ∧ s.freed = false

/-- A location in a table in use, in a bucket with a key, or in no table. -/
def Memory.Live (s : Memory) (m : Loc) : Prop :=
  m.Below s.next ∧ ∀ t i, m = .bucket t i → (s.tables t).keyAt i ≠ none

/-- The buckets of the recorded slots have the keys the slots were recorded with. -/
structure Memory.Kept (s : Memory) : Prop where
  keys : s.slots.map s.keyAt = s.keys
  live : ∀ t i, .bucket t i ∈ s.slots → (s.tables t).keyAt i ≠ none

theorem Memory.Kept.of_tables {s s' : Memory} (h : s.Kept) (hslots : s'.slots = s.slots)
    (hkeys : s'.keys = s.keys)
    (hsame : ∀ t i, .bucket t i ∈ s.slots → (s'.tables t).keyAt i = (s.tables t).keyAt i) :
    s'.Kept where
  keys := by
    rw [hslots, hkeys, ← h.keys]
    refine List.map_congr_left fun m hm => ?_
    cases m with
    | bucket t i => exact hsame t i hm
    | _ => rfl
  live t i hm := by
    rw [hslots] at hm
    rw [hsame t i hm]
    exact h.live t i hm

/-- The recorded slots are in tables in use, and in the buckets they were recorded for. -/
structure Memory.Bounded (s : Memory) : Prop where
  below : ∀ m ∈ s.slots, m.Below s.next
  kept : s.Clean → s.Kept

/-- Between two moments the first `n` tables are not filled, and no pointers are lost unless a size
was too wide; `var_access` gives what was recorded unless a bucket was given back. -/
structure Frame (n : ℕ) (s s' : Memory) : Prop where
  next : s.next ≤ s'.next
  wide : s'.wide = false → s.wide = false
  freed : s'.freed = false → s.freed = false
  bounded : s'.Bounded
  size : ∀ t < n, (s'.tables t).nTableSize = (s.tables t).nTableSize
  used : ∀ t < n, (s'.tables t).nNumUsed = (s.tables t).nNumUsed
  stale : s'.wide = false → s'.stale = s.stale
  foreign : s'.Clean → s'.foreign = s.foreign

variable {A B : Type} {n n' : ℕ} {s s' s'' : Memory}

namespace Frame

theorem clean (h : Frame n s s') (hc : s'.Clean) : s.Clean := ⟨h.wide hc.1, h.freed hc.2⟩

theorem refl (h : s.Bounded) : Frame n s s where
  next := le_rfl
  wide h := h
  freed h := h
  bounded := h
  size _ _ := rfl
  used _ _ := rfl
  stale _ := rfl
  foreign _ := rfl

theorem trans (h : Frame n s s') (h' : Frame n s' s'') : Frame n s s'' where
  next := h.next.trans h'.next
  wide hw := h.wide (h'.wide hw)
  freed hd := h.freed (h'.freed hd)
  bounded := h'.bounded
  size t ht := (h'.size t ht).trans (h.size t ht)
  used t ht := (h'.used t ht).trans (h.used t ht)
  stale hw := (h'.stale hw).trans (h.stale (h'.wide hw))
  foreign hc := (h'.foreign hc).trans (h.foreign (h'.clean hc))

instance : Trans (Frame n) (Frame n) (Frame n) := ⟨trans⟩

theorem mono (h : Frame n s s') (hn : n' ≤ n) : Frame n' s s' :=
  { h with
    size := fun t ht => h.size t (lt_of_lt_of_le ht hn)
    used := fun t ht => h.used t (lt_of_lt_of_le ht hn) }

/-- Nothing but later tables and the values of zvals changes. -/
theorem of_tables (hb : s.Bounded) (hslots : s'.slots = s.slots) (hnext : s'.next = s.next)
    (hwide : s'.wide = s.wide) (hstale : s'.stale = s.stale) (hforeign : s'.foreign = s.foreign)
    (hfreed : s'.freed = false → s.freed = false) (hkeys : s'.keys = s.keys)
    (hkeyAt : s'.Clean → s.Kept → ∀ t i, .bucket t i ∈ s.slots →
      (s'.tables t).keyAt i = (s.tables t).keyAt i)
    (hsize : ∀ t < n, (s'.tables t).nTableSize = (s.tables t).nTableSize)
    (hused : ∀ t < n, (s'.tables t).nNumUsed = (s.tables t).nNumUsed) : Frame n s s' where
  next := hnext.ge
  wide hw := hwide ▸ hw
  freed := hfreed
  bounded :=
    { below m hm := by
        rw [hnext]
        exact hb.below m (hslots ▸ hm)
      kept hc := by
        have hk := hb.kept ⟨hwide ▸ hc.1, hfreed hc.2⟩
        exact hk.of_tables hslots hkeys (hkeyAt hc hk) }
  size := hsize
  used := hused
  stale _ := hstale
  foreign _ := hforeign

end Frame

/-! ## Changes of the state -/

theorem Loc.Below.mono {m : Loc} (h : m.Below n) (hn : n ≤ n') : m.Below n' := by
  cases m with
  | bucket t i => exact lt_of_lt_of_le h hn
  | _ => trivial

section Changes

variable (h : s.Bounded)

include h

theorem frame_setTable {t : ℕ} {ht : HashTable}
    (hsame : t < n → ht.nTableSize = (s.tables t).nTableSize ∧ ht.nNumUsed = (s.tables t).nNumUsed)
    (hkeyAt : ∀ i, (s.tables t).keyAt i ≠ none → ht.keyAt i = (s.tables t).keyAt i) :
    Frame n s (s.setTable t ht) := by
  have hkeep : ∀ t', (s.setTable t ht).tables t' = s.tables t' ∨
      t' = t ∧ (s.setTable t ht).tables t' = ht := by
    intro t'
    by_cases htt : t' = t
    · subst htt
      exact .inr ⟨rfl, Function.update_self ..⟩
    · exact .inl (Function.update_of_ne htt ..)
  refine .of_tables h rfl rfl rfl rfl rfl (fun hd => hd) rfl (fun _ hk t' i hm => ?_)
    (fun t' ho => ?_) (fun t' ho => ?_)
  · rcases hkeep t' with heq | ⟨rfl, heq⟩
    · rw [heq]
    · rw [heq]
      exact hkeyAt i (hk.live t' i hm)
  · rcases hkeep t' with heq | ⟨rfl, heq⟩
    · rw [heq]
    · rw [heq]
      exact (hsame ho).1
  · rcases hkeep t' with heq | ⟨rfl, heq⟩
    · rw [heq]
    · rw [heq]
      exact (hsame ho).2

/-- Writing a zval changes no table's shape. -/
theorem frame_set (m : Loc) (v : Zv) : Frame n s (s.set m v) := by
  cases m with
  | bucket t i =>
    exact frame_setTable h (fun _ => ⟨rfl, setVal_nNumUsed _ i v⟩) fun j _ => setVal_keyAt _ i j v
  | _ =>
    exact .of_tables h rfl rfl rfl rfl rfl (fun hd => hd) rfl (fun _ _ _ _ _ => rfl)
      (fun _ _ => rfl) (fun _ _ => rfl)

/-- A slot is recorded. -/
theorem keeps_varPush (value : Bool) {m : Loc} (hm : s.Live m) :
    (varPush value m).Leaves (Frame n) s := by
  refine .modify ?_ trivial
  split
  · exact {
      next := le_rfl
      wide := fun hw => hw
      freed := fun hd => hd
      bounded :=
        { below := fun m' hm' => by
            rcases List.mem_append.mp hm' with hm' | hm'
            · exact h.below m' hm'
            · rw [List.mem_singleton.mp hm']
              exact hm.1
          kept := fun hc =>
            { keys := (List.map_append ..).trans (congrArg (· ++ [s.keyAt m]) (h.kept hc).keys)
              live := fun t i hm' => by
                rcases List.mem_append.mp hm' with hm' | hm'
                · exact (h.kept hc).live t i hm'
                · exact hm.2 t i (List.mem_singleton.mp hm').symm } }
      size := fun _ _ => rfl
      used := fun _ _ => rfl
      stale := fun _ => rfl
      foreign := fun _ => rfl }
  · exact .refl h

theorem frame_wide (w : Bool) : Frame n s { s with wide := s.wide || w } where
  next := le_rfl
  wide hw := (Bool.or_eq_false_iff.mp hw).1
  freed hd := hd
  bounded :=
    { below := h.below
      kept hc := (h.kept ⟨(Bool.or_eq_false_iff.mp hc.1).1, hc.2⟩).of_tables rfl rfl
        fun _ _ _ => rfl }
  size _ _ := rfl
  used _ _ := rfl
  stale _ := rfl
  foreign _ := rfl

/-- Tables not in use have no recorded slots. -/
theorem Memory.Bounded.made (hslots : s'.slots = s.slots) (hkeys : s'.keys = s.keys)
    (hclean : s'.Clean → s.Clean) (hn : s.next ≤ s'.next)
    (htables : ∀ t < s.next, s'.tables t = s.tables t) : s'.Bounded where
  below m hm := (h.below m (hslots ▸ hm)).mono hn
  kept hc := (h.kept (hclean hc)).of_tables hslots hkeys fun t i hm => by
    rw [htables t (h.below _ hm)]

/-- A new table. -/
theorem frame_new (hn : n ≤ s.next) (ht : HashTable) (declared : List Zv) :
    Frame n s (s.newTable ht declared) where
  next := Nat.le_succ _
  wide hw := hw
  freed hd := hd
  bounded := h.made rfl rfl (fun hc => hc) (Nat.le_succ _)
    fun _ hlt => Function.update_of_ne (Nat.ne_of_lt hlt) ..
  size _ hlt := congrArg _ (Function.update_of_ne (lt_of_lt_of_le hlt hn).ne ..)
  used _ hlt := congrArg _ (Function.update_of_ne (lt_of_lt_of_le hlt hn).ne ..)
  stale _ := rfl
  foreign _ := rfl

/-- A new reference. -/
theorem frame_newCell (v : Zv) : Frame n s (s.newCell v) where
  next := Nat.le_succ _
  wide hw := hw
  freed hd := hd
  bounded := h.made rfl rfl (fun hc => hc) (Nat.le_succ _) fun _ _ => rfl
  size _ _ := rfl
  used _ _ := rfl
  stale _ := rfl
  foreign _ := rfl

end Changes

theorem Memory.Live.set {m : Loc} (h : s.Live m) (m' : Loc) (v : Zv)
    (hn : s.next ≤ (s.set m' v).next) : (s.set m' v).Live m := by
  refine ⟨h.1.mono hn, fun t i heq => ?_⟩
  have hkey := h.2 t i heq
  cases m' with
  | bucket t' j =>
    change HashTable.keyAt (update s.tables t' _ t) i ≠ none
    by_cases ht : t = t'
    · subst ht
      rwa [Function.update_self, setVal_keyAt]
    · rwa [Function.update_of_ne ht]
  | _ => exact hkey

/-! ## Elements -/

/-- If no size was cut down, `k` more elements fit into the table `t`. -/
def Room (s : Memory) (t k : ℕ) : Prop :=
  s.wide = false → (s.tables t).nNumUsed + k ≤ (s.tables t).nTableSize

variable {t k : ℕ} {key : Key} {m : Loc}

theorem Room.frame (h : Room s t k) (hf : Frame n s s') (ht : t < n) : Room s' t k := by
  intro hw
  rw [hf.size t ht, hf.used t ht]
  exact h (hf.wide hw)

/-- A table with room is not resized. -/
theorem keeps_checkInit (h : s.Bounded) (hn : n ≤ t) (hr : Room s t (k + 1)) :
    (checkInit t).Keeps (Frame n) s fun _ s' => Room s' t (k + 1) := by
  refine .get_bind (.ite (fun _ => .get_bind (.ite (fun hfull => ?_) fun _ =>
    .pure (.refl h) hr)) fun _ => .pure (.refl h) hr)
  -- the table is full: a size was cut down
  have hcut : s.wide ≠ false := by
    intro hw
    have := hr hw
    omega
  refine .ofOption_bind (.refl h) fun ht _ => .modify ⟨le_rfl, fun hw => hw, fun hd => hd,
    ⟨h.below, fun hc => absurd hc.1 hcut⟩, fun t' ht' => ?_, fun t' ht' => ?_,
    fun hw => absurd hw hcut, fun _ => rfl⟩ fun hw => absurd hw hcut
  · exact congrArg _ (Function.update_of_ne (lt_of_lt_of_le ht' hn).ne ..)
  · exact congrArg _ (Function.update_of_ne (lt_of_lt_of_le ht' hn).ne ..)

/-- The new bucket takes one place. -/
theorem room_append {v : Zv} (hr : Room s t (k + 1)) :
    Room (s.setTable t ((s.tables t).append key v)) t k := by
  intro hw
  have hroom := hr hw
  change (update s.tables t _ t).nNumUsed + k ≤ (update s.tables t _ t).nTableSize
  rw [Function.update_self, append_nNumUsed]
  change _ ≤ (s.tables t).nTableSize
  omega

theorem frame_append {v : Zv} (h : s.Bounded) (hn : n ≤ t) :
    Frame n s (s.setTable t ((s.tables t).append key v)) :=
  frame_setTable h (fun ht => absurd ht (not_lt.mpr hn)) fun _ hi => append_keyAt _ key v hi

theorem keeps_addNew (h : s.Bounded) (ht : t < s.next) (hn : n ≤ t) (hr : Room s t (k + 1)) :
    (zendHashAddNew t key).Keeps (Frame n) s fun m s' => s'.Live m ∧ Room s' t k := by
  refine (keeps_checkInit h hn hr).bind fun _ s1 hf hr1 => .get_bind
    (.modify_pure (frame_append hf.bounded hn)
      ⟨⟨lt_of_lt_of_le ht hf.next, fun t' i heq => ?_⟩, room_append hr1⟩)
  obtain ⟨rfl, rfl⟩ := Loc.bucket.inj heq
  change keyAt (update s1.tables _ _ _) _ ≠ _
  rw [Function.update_self, append_keyAt_self]
  exact Option.some_ne_none key

/-- The zval of an element, entered or there before. -/
theorem keeps_dataFor (h : s.Bounded) (ht : t < s.next) (hn : n ≤ t) (hr : Room s t (k + 1)) :
    (dataFor t key).Keeps (Frame n) s fun m s' => s'.Live m ∧ Room s' t k := by
  refine .get_bind ?_
  split
  · rename_i i hfind
    have hset : ∀ m : Loc, s.Live m →
        (s.set m .undef).Live m ∧ Room (s.set m .undef) t k := by
      intro m hm
      have hf : Frame (t + 1) s (s.set m .undef) := frame_set h m .undef
      refine ⟨hm.set m .undef hf.next, Room.frame (fun hw => ?_) hf (Nat.lt_succ_self t)⟩
      have := hr hw
      omega
    refine .get_bind (.modify_pure (frame_set h _ .undef) (hset _ ?_))
    split
    · exact ⟨trivial, fun _ _ heq => by cases heq⟩
    · refine ⟨ht, fun t' j heq => ?_⟩
      -- the key occurs again: the bucket has it already
      obtain ⟨rfl, rfl⟩ := Loc.bucket.inj heq
      rw [find_keyAt hfind]
      exact Option.some_ne_none key
  · exact keeps_addNew h ht hn hr

/-- A deleted element makes room, and no recorded slot loses its key unless that is noted. -/
theorem keeps_zendHashDel (h : s.Bounded) (hn : n ≤ t) (hr : Room s t k) :
    (zendHashDel t key).Keeps (Frame n) s fun _ s' => Room s' t k := by
  refine .modify (.of_tables h rfl rfl rfl rfl rfl (fun hd => (Bool.or_eq_false_iff.mp hd).1) rfl
    (fun hc hk t' i hm => ?_) (fun t' ht' => ?_) (fun t' ht' => ?_)) fun hw => ?_
  · by_cases htt : t' = t
    · subst htt
      have hno := List.any_eq_false.mp (Bool.or_eq_false_iff.mp hc.2).2 _ hm
      simp only [decide_eq_true_eq, true_and] at hno
      exact (congrArg (keyAt · i) (Function.update_self ..)).trans
        ((del_keyAt _ key i).resolve_left hno)
    · exact congrArg (keyAt · i) (Function.update_of_ne htt ..)
  · exact congrArg _ (Function.update_of_ne (lt_of_lt_of_le ht' hn).ne ..)
  · exact congrArg _ (Function.update_of_ne (lt_of_lt_of_le ht' hn).ne ..)
  have hroom := hr hw
  have hle := del_nNumUsed_le (s.tables t) key
  change (update s.tables t _ t).nNumUsed + k ≤ (update s.tables t _ t).nTableSize
  rw [Function.update_self, del_nTableSize]
  omega

theorem keeps_deleteUndef {objprops : Bool} {token : Token} (h : s.Bounded) (hn : n ≤ t)
    (hr : Room s t k) :
    (deleteUndef t objprops token m).Keeps (Frame n) s fun _ s' => Room s' t k :=
  .get_bind (.ite (fun _ => .ofOption_bind (.refl h) fun _ _ => keeps_zendHashDel h hn hr)
    fun _ => .pure (.refl h) hr)

/-- A reader of values that fills no table in use. -/
def Reads (unserialize : Loc → Bytes → Run Memory Bytes) : Prop :=
  ∀ m r s, s.Bounded → s.Live m → (unserialize m r).Leaves (Frame s.next) s

variable {unserialize : Loc → Bytes → Run Memory Bytes}

/-- The elements that were announced fit. -/
theorem keeps_nested (hu : Reads unserialize) (objprops : Bool) (k : ℕ) (r : Bytes)
    (h : s.Bounded) (ht : t < s.next) (hn : n ≤ t) (hr : Room s t k) :
    (processNestedData unserialize t objprops k r).Leaves (Frame n) s := by
  induction k generalizing r s with
  | zero => exact .pure (.refl h) trivial
  | succ k ih =>
    refine .ofOption_bind (.refl h) fun p _ => .ofOption_bind (.refl h) fun key _ =>
      (keeps_dataFor h ht hn hr).bind fun data s1 hf1 hdata => ?_
    have ht1 : t < s1.next := lt_of_lt_of_le ht hf1.next
    -- the value goes to other tables
    have hvalue : (unserialize data p.2).Keeps (Frame n) s1 fun _ s2 => Room s2 t k := by
      obtain ⟨hf2, -⟩ := hu data p.2 s1 hf1.bounded hdata.1
      exact ⟨hf2.mono (hn.trans ht1.le), fun _ _ => hdata.2.frame hf2 ht1⟩
    refine hvalue.bind fun r' s2 hf2 hr2 => (keeps_deleteUndef hf2.bounded hn hr2).bind
      fun _ s3 hf3 hr3 => .assert_bind (.refl hf3.bounded) fun _ => ih r' hf3.bounded ?_ hr3
    exact lt_of_lt_of_le ht1 (hf2.next.trans hf3.next)

/-! ## Arrays -/

/-- A size that is not too wide is passed as it is. -/
theorem keeps_uint32 (h : s.Bounded) (v : ℕ) : (uint32 v).Keeps (Frame n) s fun w s' =>
    s' = { s with wide := s.wide || decide (2 ^ 32 ≤ v) } ∧ (s'.wide = false → w = v) := by
  refine .modify_pure (frame_wide h _) ⟨rfl, fun hw => ?_⟩
  have hv := (Bool.or_eq_false_iff.mp hw).2
  rw [decide_eq_false_iff_not] at hv
  exact Nat.mod_eq_of_lt (not_le.mp hv)

theorem keeps_arrayInitSize {elements : ℕ} (h : s.Bounded) (hn : n ≤ s.next) :
    (arrayInitSize m elements).Keeps (Frame n) s fun t s' =>
      n ≤ t ∧ t < s'.next ∧ Room s' t elements := by
  refine (keeps_uint32 h elements).bind fun v s1 hf hv => .ofOption_bind (.refl hf.bounded)
    fun size hsize => .get_bind ?_
  have hn1 : n ≤ s1.next := hn.trans hf.next
  have hnew := frame_new hf.bounded hn1
    { initialized := decide (elements ≠ 0), nTableSize := size, nNumOfElements := 0,
      arData := [] } []
  have hset : Frame (s1.next + 1) _ _ := frame_set hnew.bounded m (.arr s1.next)
  refine .modify_pure (hnew.trans (frame_set hnew.bounded m _))
    ⟨hn1, hset.next, Room.frame (fun hw => ?_) hset (Nat.lt_succ_self _)⟩
  have hle := le_checkSize hsize
  rw [hv.2 hw] at hle
  change (update s1.tables s1.next _ s1.next).nNumUsed + elements ≤
    (update s1.tables s1.next _ s1.next).nTableSize
  rw [Function.update_self]
  exact (Nat.zero_add _).le.trans hle

/-! ## Objects -/

/-- The table of an object without declared properties. -/
def emptyTable : HashTable :=
  { initialized := false, nTableSize := 8, nNumOfElements := 0, arData := [] }

/-- The object `o` is none of the first `n` and is at `m`, if there is a zval; no slot in its
table is recorded. -/
structure Made (n : ℕ) (s : Memory) (m : Loc) (o : ℕ) : Prop where
  new : n ≤ o
  lt : o < s.next
  full : (s.tables o).nNumUsed = (s.tables o).nNumOfElements
  recorded : s.recorded o = false
  value : s.zval m = .undef ∨ s.zval m = .obj o

/-- What is written can be read, if there is a zval. -/
theorem zval_set (s : Memory) (m : Loc) (v : Zv) :
    (s.set m v).zval m = .undef ∨ (s.set m v).zval m = v := by
  cases m with
  | root => exact .inr rfl
  | cell c => exact .inr (Function.update_self ..)
  | bucket t i =>
    change getVal (update s.tables t _ t) i = _ ∨
      getVal (update s.tables t _ t) i = _
    rw [Function.update_self, getVal, setVal, List.getElem?_modify_eq]
    cases (s.tables t).arData[i]? with
    | none => exact .inl rfl
    | some b => cases b <;> simp
  | property o i =>
    change List.getD (update s.properties o _ o) i _ = _ ∨
      List.getD (update s.properties o _ o) i _ = _
    rw [Function.update_self, List.getD_eq_getElem?_getD, List.getElem?_set_self']
    cases (s.properties o)[i]? <;> simp

/-- No slot is recorded in a table that is not in use yet. -/
theorem recorded_of_bounded {s : Memory} (h : s.Bounded) {t : ℕ} (ht : s.next ≤ t) :
    s.recorded t = false := by
  rw [Memory.recorded, List.any_eq_false]
  intro m hm
  have hbelow := h.below m hm
  cases m with
  | bucket t' i =>
    have hlt : t' < s.next := hbelow
    simp only [decide_eq_true_eq]
    omega
  | _ => simp

theorem ne_of_recorded {o : ℕ} (h : s.recorded o = false) {i : ℕ}
    (hm : .bucket t i ∈ s.slots) : t ≠ o := fun ht =>
  List.any_eq_false.mp h _ hm (decide_eq_true ht)

theorem set_tables (s : Memory) (m : Loc) (v : Zv) (t : ℕ) : (s.set m v).tables t = s.tables t ∨
    ∃ i, m = .bucket t i ∧ (s.set m v).tables t = (s.tables t).setVal i v := by
  cases m with
  | bucket t' i =>
    by_cases ht : t = t'
    · subst ht
      exact .inr ⟨i, rfl, Function.update_self ..⟩
    · exact .inl (Function.update_of_ne ht ..)
  | _ => exact .inl rfl

theorem set_slots (s : Memory) (m : Loc) (v : Zv) : (s.set m v).slots = s.slots := by
  cases m <;> rfl

theorem recorded_congr {s s' : Memory} (h : s'.slots = s.slots) (t : ℕ) :
    s'.recorded t = s.recorded t := by
  rw [Memory.recorded, Memory.recorded, h]

/-- An object made in a table that the location is not in. -/
theorem keeps_objectInitEx {declared : List Bytes} (h : s.Bounded) (hn : n ≤ s.next)
    (hm : m.Below n) : (objectInitEx m declared).Keeps (Frame n) s fun _ s' =>
      ∃ o, Made n s' m o ∧ (declared = [] → s'.tables o = emptyTable) := by
  refine .ofOption_bind (.refl h) fun size hsize => ?_
  set ht := rebuildObjectProperties declared size with hht
  have hnew : Frame n s (s.newTable ht (declared.map fun _ => .scalar)) := frame_new h hn ht _
  have hself : (s.newTable ht (declared.map fun _ => .scalar)).tables s.next = ht :=
    Function.update_self ..
  have hrec : (s.newTable ht (declared.map fun _ => .scalar)).recorded s.next = false :=
    recorded_of_bounded h le_rfl
  have hlt : s.next < (s.newTable ht (declared.map fun _ => .scalar)).next := Nat.lt_succ_self _
  generalize hs1 : s.newTable ht (declared.map fun _ => .scalar) = s1 at hnew hself hrec hlt
  have htable : (s1.set m (.obj s.next)).tables s.next = ht := by
    rcases set_tables s1 m (.obj s.next) s.next with heq | ⟨i, rfl, -⟩
    · rw [heq, hself]
    · exact absurd (lt_of_lt_of_le hm hn) (lt_irrefl _)
  have hset : Frame n s1 (s1.set m (.obj s.next)) := frame_set hnew.bounded m _
  refine .modify ?_ ⟨s.next, ⟨hn, ?_, ?_, ?_, ?_⟩, fun hempty => ?_⟩ <;> simp only [hs1]
  · exact hnew.trans hset
  · exact lt_of_lt_of_le hlt hset.next
  · rw [htable, nNumUsed, hht, rebuildObjectProperties, List.length_map, List.length_zipIdx]
  · rw [recorded_congr (set_slots ..), hrec]
  · exact zval_set _ m _
  · subst hempty
    obtain rfl : size = 8 := by simpa [checkSize] using hsize.symm
    rw [htable]
    rfl

/-- The name of a class that is not there is a property of an object without others. -/
theorem keeps_storeClassName {o : ℕ} (h : s.Bounded) (hmade : Made n s m o) (hm : m.Below n)
    (incomplete : Bool) (hempty : incomplete = true → s.tables o = emptyTable) :
    (storeClassName incomplete m).Keeps (Frame n) s fun _ s' => Made n s' m o := by
  refine .get_bind ?_
  cases incomplete with
  | false => exact .pure (.refl h) hmade
  | true =>
    rcases hmade.value with hv | hv
    · simp only [hv]
      exact .pure (.refl h) hmade
    · have hfind : ∀ k, (s.tables o).find k = none := by
        intro k
        rw [hempty rfl]
        rfl
      have hinit : (s.tables o).initialized = false := by rw [hempty rfl]; rfl
      simp only [hv]
      generalize hk : Key.str _ = k
      have hadd : Frame n s (s.setTable o ((s.tables o).append k .undef)) :=
        frame_append h hmade.new
      have hself : (s.setTable o ((s.tables o).append k .undef)).tables o =
          (s.tables o).append k .undef := Function.update_self ..
      have hset : Frame n _ _ :=
        frame_set hadd.bounded (.bucket o (s.tables o).nNumUsed) .scalar
      -- the name goes to a new bucket
      have hdata : (dataFor o k).Keeps (Frame n) s fun m' s' =>
          m' = .bucket o (s.tables o).nNumUsed ∧
            s' = s.setTable o ((s.tables o).append k .undef) := by
        refine .get_bind ?_
        simp only [hfind]
        have hinitialized : (checkInit o).Keeps (Frame n) s fun _ s' => s' = s := by
          refine .get_bind ?_
          simp only [hinit]
          exact .pure (.refl h) rfl
        refine hinitialized.bind fun _ s1 _ hs1 => ?_
        subst hs1
        exact .get_bind (.modify_pure hadd ⟨rfl, rfl⟩)
      refine hdata.bind fun m' s1 _ hs1 => ?_
      obtain ⟨rfl, rfl⟩ := hs1
      refine .modify hset ⟨hmade.new, lt_of_lt_of_le hmade.lt (hadd.trans hset).next, ?_,
        hmade.recorded, .inr ?_⟩
      · have hfull : ((s.tables o).append k .undef).nNumUsed =
            ((s.tables o).append k .undef).nNumOfElements := by
          rw [append_nNumUsed, hmade.full]
          rfl
        rcases set_tables (s.setTable o ((s.tables o).append k .undef))
            (.bucket o (s.tables o).nNumUsed) .scalar o with heq | ⟨i, -, heq⟩
        · rw [heq, hself, hfull]
        · rw [heq, setVal_nNumUsed, hself, hfull]
          rfl
      · -- the zval of the object is in no bucket of its table
        rw [← hv]
        cases m with
        | bucket t i =>
          have hto : t ≠ o := (lt_of_lt_of_le hm hmade.new).ne
          exact congrArg (getVal · i)
            ((Function.update_of_ne hto ..).trans (Function.update_of_ne hto ..))
        | _ => rfl

/-- The table of a new object is extended for the properties announced. -/
theorem keeps_extendProperties {o elements : ℕ} (h : s.Bounded) (hmade : Made n s m o) :
    (extendProperties o elements).Keeps (Frame n) s fun _ s' => Room s' o elements := by
  refine .get_bind ((keeps_uint32 h _).bind fun v s1 hf hv => ?_)
  obtain ⟨rfl, hv⟩ := hv
  refine .ofOption_bind (.refl hf.bounded) fun ht hext => .modify ⟨le_rfl, fun hw => hw,
    fun hd => hd, ⟨h.below, fun hc => ?_⟩, fun t hto => ?_, fun t hto => ?_, fun _ => ?_,
    fun _ => rfl⟩ fun hw => ?_
  · refine (h.kept (hf.clean hc)).of_tables rfl rfl fun t i hm => ?_
    exact congrArg (keyAt · i) (Function.update_of_ne (ne_of_recorded hmade.recorded hm) ..)
  · exact congrArg _ (Function.update_of_ne (lt_of_lt_of_le hto hmade.new).ne ..)
  · exact congrArg _ (Function.update_of_ne (lt_of_lt_of_le hto hmade.new).ne ..)
  · change (s.stale || (_ && s.recorded o)) = s.stale
    rw [hmade.recorded, Bool.and_false, Bool.or_false]
  · obtain ⟨hsize, hused⟩ := le_extend hext
    change (update s.tables o ht o).nNumUsed + elements ≤ (update s.tables o ht o).nTableSize
    rw [Function.update_self]
    rw [hv hw] at hsize
    have := hmade.full
    omega

/-! ## Values -/

/-- What `x` does leaves the tables in use as they are. -/
def Framed (x : Run Memory A) : Prop := ∀ s, s.Bounded → Frame s.next s (x s).2

/-- What the parser calls fills no table in use. -/
structure Env.Quiet (env : Env) : Prop where
  lookupClass : ∀ name, Framed (env.lookupClass name)
  callback : ∀ name, Framed (env.callback name)
  error : Framed env.error
  unserialize : ∀ name s ce u, (env.lookupClass name s).1 = some (some ce) →
    ce.unserialize = some u → ∀ m r, Framed (u m r)

/-- A class whose handler fills no table in use. -/
def Class.Quiet (ce : Class) : Prop := ∀ u, ce.unserialize = some u → ∀ m r, Framed (u m r)

/-- What is known of the class found. -/
def Found (p : Class × Bool) : Prop := p.1.Quiet ∧ (p.2 = true → p.1 = incompleteClass)

theorem found_incompleteClass : Found (incompleteClass, true) := by
  refine ⟨fun u hu => ?_, fun _ => rfl⟩
  cases hu

variable {env : Env}

theorem keeps_of_framed {x : Run Memory A} (hx : Framed x) (h : s.Bounded) (hn : n ≤ s.next) :
    x.Leaves (Frame n) s := ⟨(hx s h).mono hn, fun _ _ => trivial⟩

section Calls

variable (hq : env.Quiet) (name : Bytes) (h : s.Bounded) (hn : n ≤ s.next)

include hq h hn

theorem keeps_lookupClass : (env.lookupClass name).Keeps (Frame n) s fun found _ =>
    ∀ ce, found = some ce → ce.Quiet :=
  ⟨(hq.lookupClass name s h).mono hn, fun found hfound ce hce u hu m r =>
    hq.unserialize name s ce u (by rw [hfound, hce]) hu m r⟩

theorem keeps_missingClass : (missingClass env).Keeps (Frame n) s fun p _ => Found p :=
  (keeps_of_framed hq.error h hn).bind fun _ _ hf _ =>
    .pure (.refl hf.bounded) found_incompleteClass

theorem keeps_callbackClass : (callbackClass env name).Keeps (Frame n) s fun p _ => Found p := by
  refine (keeps_of_framed (hq.callback name) h hn).bind fun success s1 hf1 _ => ?_
  have hn1 := hn.trans hf1.next
  refine .get_bind (.assert_bind (.refl hf1.bounded) fun _ => .ite (fun _ => ?_) fun _ =>
    keeps_missingClass hq hf1.bounded hn1)
  refine (keeps_lookupClass hq name hf1.bounded hn1).bind fun found s2 hf2 hce => ?_
  cases found with
  | none => exact keeps_missingClass hq hf2.bounded (hn1.trans hf2.next)
  | some ce => exact .pure (.refl hf2.bounded) ⟨hce ce rfl, fun hfalse => by cases hfalse⟩

theorem keeps_findClass : (findClass env name).Keeps (Frame n) s fun p _ => Found p := by
  refine .ite (fun _ => ?_) fun _ => .pure (.refl h) found_incompleteClass
  refine (keeps_lookupClass hq name h hn).bind fun found s1 hf1 hce =>
    .get_bind (.assert_bind (.refl hf1.bounded) fun _ => ?_)
  cases found with
  | some ce => exact .pure (.refl hf1.bounded) ⟨hce ce rfl, fun hfalse => by cases hfalse⟩
  | none =>
    exact .ite (fun _ => keeps_callbackClass hq name hf1.bounded (hn.trans hf1.next)) fun _ =>
      .pure (.refl hf1.bounded) found_incompleteClass

variable {rval : Loc} (hm : rval.Below n) (r : Bytes) {ce : Class}

include hm

theorem keeps_objectCustom (hce : ce.Quiet) : (objectCustom env rval r ce).Keeps (Frame n) s
    fun _ s' => ce = incompleteClass → ∃ o, Made n s' rval o ∧ s'.tables o = emptyTable := by
  refine .ite (fun _ => ?_) fun _ => ?_
  · exact (keeps_of_framed hq.error h hn).bind fun _ _ hf _ => .fail (.refl hf.bounded)
  · split
    · refine (keeps_of_framed hq.error h hn).bind fun _ s1 hf1 _ => (keeps_objectInitEx hf1.bounded
        (hn.trans hf1.next) hm).bind fun _ s2 hf2 hmade => .ofOption (.refl hf2.bounded)
          fun _ _ hinc => ?_
      obtain ⟨o, hmade, hempty⟩ := hmade
      exact ⟨o, hmade, hempty (by rw [hinc]; rfl)⟩
    · rename_i u hu
      refine (keeps_of_framed (hce u hu rval _) h hn).bind fun _ s1 hf _ => .assert_bind
        (.refl hf.bounded) fun _ => .ofOption (.refl hf.bounded) fun _ _ hinc => ?_
      rw [hinc] at hu
      cases hu

theorem keeps_objectCommon1 : (objectCommon1 env rval r ce).Keeps (Frame n) s fun _ s' =>
    ∃ o, Made n s' rval o ∧ (ce.declared = [] → s'.tables o = emptyTable) := by
  refine .ite (fun _ => ?_) fun _ => ?_
  · exact (keeps_of_framed hq.error h hn).bind fun _ _ hf _ => .fail (.refl hf.bounded)
  · exact (keeps_objectInitEx h hn hm).bind fun _ s1 hf hmade =>
      .assert_bind (.refl hf.bounded) fun _ => .pure (.refl hf.bounded) hmade

end Calls

variable {rval : Loc}

theorem keeps_objectCommon2 (hu : Reads unserialize) {o : ℕ} (elements : ℕ) (r : Bytes)
    (h : s.Bounded) (hmade : Made n s rval o) :
    (objectCommon2 unserialize rval elements r).Leaves (Frame n) s := by
  refine .get_bind ?_
  rcases hmade.value with hv | hv
  · simp only [hv]
    exact .fail (.refl h)
  · simp only [hv]
    exact (keeps_extendProperties h hmade).bind fun _ s1 hf1 hroom => (keeps_nested hu true elements
      r hf1.bounded (lt_of_lt_of_le hmade.lt hf1.next) hmade.new hroom).bind fun _ s2 hf2 _ =>
        .ofOption (.refl hf2.bounded) fun _ _ => trivial

theorem keeps_unserializeObject (hq : env.Quiet) (hu : Reads unserialize) (custom : Bool)
    (r : Bytes) (h : s.Bounded) (hn : n ≤ s.next) (hm : rval.Below n) :
    (unserializeObject env unserialize custom rval r).Leaves (Frame n) s := by
  refine .ofOption_bind (.refl h) fun p _ => (keeps_findClass hq p.1 h hn).bind
    fun found s1 hf1 hfound => ?_
  obtain ⟨ce, incomplete⟩ := found
  obtain ⟨hce, hinc⟩ := hfound
  have hn1 := hn.trans hf1.next
  refine .ite (fun _ => ?_) fun _ => ?_
  · refine (keeps_objectCustom hq hf1.bounded hn1 hm p.2 hce).bind fun r' s2 hf2 hmade => ?_
    have hstore : (storeClassName incomplete rval).Leaves (Frame n) s2 := by
      cases incomplete with
      | false => exact .get_bind (.pure (.refl hf2.bounded) trivial)
      | true =>
        obtain ⟨o, hnew, hempty⟩ := hmade (hinc rfl)
        exact (keeps_storeClassName hf2.bounded hnew hm true fun _ => hempty).leaves
    exact hstore.bind fun _ s3 hf3 _ => .pure (.refl hf3.bounded) trivial
  · refine (keeps_objectCommon1 hq hf1.bounded hn1 hm p.2).bind fun p s2 hf2 hmade => ?_
    obtain ⟨o, hnew, hempty⟩ := hmade
    refine (keeps_storeClassName hf2.bounded hnew hm incomplete fun hi => hempty ?_).bind
      fun _ s3 hf3 hnew3 => keeps_objectCommon2 hu p.1 p.2 hf3.bounded hnew3
    rw [show ce = incompleteClass from hinc hi]
    rfl

theorem keeps_unserializeStd (hu : Reads unserialize) (r : Bytes) (h : s.Bounded)
    (hn : n ≤ s.next) (hm : rval.Below n) :
    (unserializeStd unserialize rval r).Leaves (Frame n) s := by
  refine .ofOption_bind (.refl h) fun p _ => .ofOption_bind (.refl h) fun r' _ =>
    (keeps_objectInitEx h hn hm).bind fun _ s1 hf hmade =>
      .assert_bind (.refl hf.bounded) fun _ => ?_
  obtain ⟨o, hnew, -⟩ := hmade
  exact keeps_objectCommon2 hu p.1.toNat r' hf.bounded hnew

theorem keeps_unserializeOther (hq : env.Quiet) (hu : Reads unserialize) (r : Bytes)
    (h : s.Bounded) (hn : n ≤ s.next) (hm : rval.Below n) :
    (unserializeOther env unserialize rval r).Leaves (Frame n) s := by
  cases r with
  | nil => exact .fail (.refl h)
  | cons c r =>
    refine .ite (fun _ => ?_) fun _ => .ofOption_bind (.refl h) fun r _ => .ite (fun _ => ?_)
      fun _ => .ite (fun _ => keeps_unserializeStd hu r h hn hm) fun _ => .ite
        (fun _ => keeps_unserializeObject hq hu false r h hn hm) fun _ => .ite
          (fun _ => keeps_unserializeObject hq hu true r h hn hm) fun _ => .fail (.refl h)
    · exact (keeps_of_framed hq.error h hn).bind fun _ _ hf _ => .fail (.refl hf.bounded)
    · exact .ofOption_bind (.refl h) fun r _ => .modify_pure (frame_set h rval .scalar) trivial

/-! ## References -/

/-- The bucket of a slot has the key the slot was recorded with. -/
theorem keeps_varAccess (id : ℤ) (h : s.Bounded) : (varAccess id).Leaves (Frame n) s := by
  refine .get_bind (.ofOption_bind (.refl h) fun m hm => .modify_pure ⟨le_rfl, fun hw => hw,
    fun hd => hd, ⟨h.below, fun hc => (h.kept hc).of_tables rfl rfl fun _ _ _ => rfl⟩,
    fun _ _ => rfl, fun _ _ => rfl, fun _ => rfl, fun hc => ?_⟩ trivial)
  have hsame : s.keys[id.toNat]? = some (s.keyAt m) := by
    rw [access] at hm
    split at hm
    · cases hm
    · rw [← (h.kept hc).keys, List.getElem?_map, hm]
      rfl
  change (s.foreign || decide (s.keys[id.toNat]? ≠ some (s.keyAt m))) = s.foreign
  rw [hsame, decide_eq_false (not_not.mpr rfl), Bool.or_false]

theorem keeps_backRef (rval : Loc) (id : BitVec 64) (h : s.Bounded) :
    (backRef rval id).Leaves (Frame n) s := by
  refine (keeps_varAccess _ h).bind fun m s1 hf _ => .get_bind (.ite (fun _ => ?_) fun _ => ?_)
  · exact .modify (frame_set hf.bounded rval .undef) trivial
  · split
    · exact .modify (frame_set hf.bounded rval _) trivial
    · have hcell : Frame n _ _ := frame_newCell hf.bounded (s1.zval m)
      have hm : Frame n _ _ := frame_set hcell.bounded m (.ref s1.next)
      exact .modify ((hcell.trans hm).trans (frame_set hm.bounded rval _)) trivial

theorem keeps_copy (rval : Loc) (id : BitVec 64) (h : s.Bounded) :
    (copy rval id).Leaves (Frame n) s :=
  (keeps_varAccess _ h).bind fun _ _ hf _ => .get_bind (.assert_bind (.refl hf.bounded) fun _ =>
    .ite (fun _ => .modify (frame_set hf.bounded rval .undef) trivial)
      fun _ => .modify (frame_set hf.bounded rval _) trivial)

/-! ## The parser -/

/-- Reading a value fills no table in use. -/
theorem reads_unserializeInternal (hq : env.Quiet) (fuel : ℕ) :
    Reads (unserializeInternal env fuel) := by
  induction fuel with
  | zero => exact fun m r s h _ => .fail (.refl h)
  | succ fuel ih =>
    intro m r s h hm
    cases r with
    | nil => exact .fail (.refl h)
    | cons c r =>
      refine (keeps_varPush h (c ≠ 'R'.toUInt8) hm).bind fun _ s1 hpush _ => ?_
      have hb := hpush.bounded
      split
      · exact (keeps_backRef m _ hb).bind fun _ _ hf _ => .pure (.refl hf.bounded) trivial
      · exact (keeps_copy m _ hb).bind fun _ _ hf _ => .pure (.refl hf.bounded) trivial
      · rename_i elements r' _
        exact .assert_bind (.refl hb) fun _ => (keeps_arrayInitSize hb hpush.next).bind
          fun t s2 hf2 hnew => (keeps_nested ih false elements.toNat r' hf2.bounded hnew.2.1 hnew.1
            hnew.2.2).bind fun _ s3 hf3 _ => .ofOption (.refl hf3.bounded) fun _ _ => trivial
      · exact .modify_pure (frame_set hb m .scalar) trivial
      · exact keeps_unserializeOther hq ih _ hb hpush.next hm.1

/-- No table with a recorded slot was moved, and whatever slot `var_access` gave was still the one
that was recorded under the number. -/
def Memory.Stable (s : Memory) : Prop := s.stale = false ∧ s.foreign = false

/-- However far the parse gets, the slots are stable, if no size was cut down to 32 bits, no bucket
of a recorded slot was given back and what the parser calls fills no table in use. -/
theorem slots_stable (hq : env.Quiet) (fuel : ℕ) (buf : Bytes)
    (hwide : (unserializeInternal env fuel .root buf .start).2.wide = false)
    (hfreed : (unserializeInternal env fuel .root buf .start).2.freed = false) :
    (unserializeInternal env fuel .root buf .start).2.Stable := by
  have hstart : Memory.start.Bounded :=
    { below := fun _ hm => by cases hm
      kept := fun _ => { keys := rfl, live := fun _ _ hm => by cases hm } }
  obtain ⟨hf, -⟩ := reads_unserializeInternal hq fuel .root buf .start hstart
    ⟨trivial, fun _ _ heq => by cases heq⟩
  exact ⟨hf.stale hwide, hf.foreign ⟨hwide, hfreed⟩⟩

/-! ## Three texts -/

/-- No classes and no handlers. -/
def noClasses : Env where
  allowedClass := fun _ => false
  lookupClass := fun _ => pure none
  exception := fun _ => false
  hasCallback := false
  callback := fun _ => pure false
  error := pure ()

theorem quiet_noClasses : noClasses.Quiet where
  lookupClass _ _ h := .refl h
  callback _ _ h := .refl h
  error _ h := .refl h
  unserialize name s ce u hce := absurd hce (by change some none ≠ some (some ce); simp)

/-- Two elements and a reference to the first. -/
def sharedText : Bytes := "a:2:\x7bi:0;s:1:\"x\";i:1;R:2;\x7d".toUTF8.toList

theorem slots_stable_sharedText :
    (unserializeInternal noClasses 29 .root sharedText .start).2.Stable :=
  slots_stable quiet_noClasses 29 sharedText (by decide +kernel) (by decide +kernel)

/-- More than 2 ^ 32 elements are announced, one in 32 bits, and nine follow. -/
def longText : Bytes :=
  "a:4294967297:\x7bi:0;N;i:1;N;i:2;N;i:3;N;i:4;N;i:5;N;i:6;N;i:7;N;i:8;N;".toUTF8.toList

/-- The table of eight buckets is resized for the ninth element while the slots of the
others are recorded. -/
theorem not_stable_longText : ¬ (varUnserialize noClasses longText).2.Stable := by
  have hstale : (varUnserialize noClasses longText).2.stale = true := by
    decide +kernel
  exact fun h => absurd (hstale.symm.trans h.1) (by decide)

/-- The key 0 occurs again, with a reference to the slot that is being read. -/
def repeatedText : Bytes := "a:4:\x7bi:0;i:7;i:0;R:2;i:1;i:8;i:2;R:2;\x7d".toUTF8.toList

/-- The element is taken out again, its bucket goes to the key 1, and the second reference finds
that there. -/
theorem not_stable_repeatedText : ¬ (varUnserialize noClasses repeatedText).2.Stable := by
  have hforeign : (varUnserialize noClasses repeatedText).2.foreign = true := by
    decide +kernel
  exact fun h => absurd (hforeign.symm.trans h.2) (by decide)

end PhpSlots
