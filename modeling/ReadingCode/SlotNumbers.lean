/-
# The heap of the unserializer

Every value gets a zval of its own, every array one zval that holds it, and a reference
has the zval inside it to itself.  Each way the unserializer changes the heap keeps this.
-/
import ReadingCode.VarUnserializer

namespace PhpVar

/-- No location is the zval of two elements, and no array the value of two zvals; what a
reference points to is no element and not a reference. -/
structure HeapOk (H : Heap) : Prop where
  pos : 0 < H.next
  zval_lt : ∀ m, H.next ≤ m → H.zval m = .undef
  arr_lt : ∀ m a, H.zval m = .arr a → a < H.next
  arr_inj : ∀ m m' a, H.zval m = .arr a → H.zval m' = .arr a → m = m'
  table_lt : ∀ a, H.next ≤ a → H.table a = []
  elem : ∀ a k m, (k, m) ∈ H.table a → 0 < m ∧ m < H.next
  elem_inj : ∀ (a b i j : ℕ) k k' m, (H.table a)[i]? = some (k, m) →
    (H.table b)[j]? = some (k', m) → a = b ∧ i = j
  ref_lt : ∀ m c, H.zval m = .ref c → 0 < c ∧ c < H.next ∧ 1 < H.refcount c
  ref_val : ∀ m c, H.zval m = .ref c → H.zval c ≠ .undef ∧ ∀ c', H.zval c ≠ .ref c'
  ref_elem : ∀ m c a k, H.zval m = .ref c → (k, c) ∉ H.table a

/-- `ZVAL_NEW_REF` and `ZVAL_COPY`: the value of `m` moves into a new reference, which is
counted twice. -/
def Heap.newRef (H : Heap) (m : ℕ) : Heap :=
  { H with
    zval := Function.update (Function.update H.zval H.next (H.zval m)) m (.ref H.next)
    refcount := Function.update H.refcount H.next 2
    next := H.next + 1 }

theorem Heap.newRef_zval (H : Heap) (m x : ℕ) : (H.newRef m).zval x =
    if x = m then .ref H.next else if x = H.next then H.zval m else H.zval x := by
  exact (Function.update_apply ..).trans (congrArg (ite _ _) (Function.update_apply ..))

namespace HeapOk

open Function

variable {H : Heap}

variable {m : ℕ}

/-- A location with a value is in use. -/
theorem lt_of_ne (h : HeapOk H) (hm : H.zval m ≠ .undef) : m < H.next := by
  by_contra hn
  exact hm (h.zval_lt m (not_lt.mp hn))

/-- One more address. -/
theorem bump (h : HeapOk H) : HeapOk { H with next := H.next + 1 } where
  pos := Nat.succ_pos _
  zval_lt m hm := h.zval_lt m (Nat.le_of_succ_le hm)
  arr_lt m a hm := Nat.lt_succ_of_lt (h.arr_lt m a hm)
  arr_inj := h.arr_inj
  table_lt a ha := h.table_lt a (Nat.le_of_succ_le ha)
  elem a k m hm := ⟨(h.elem a k m hm).1, Nat.lt_succ_of_lt (h.elem a k m hm).2⟩
  elem_inj := h.elem_inj
  ref_lt m c hm := by
    obtain ⟨h0, hlt, hr⟩ := h.ref_lt m c hm
    exact ⟨h0, Nat.lt_succ_of_lt hlt, hr⟩
  ref_val := h.ref_val
  ref_elem := h.ref_elem

/-- Writing to a location without a value: a scalar, a new array, or a reference in use. -/
theorem write (h : HeapOk H) {z : Zval} (hm : m < H.next) (hz : H.zval m = .undef)
    (harr : ∀ a, z = .arr a → a < H.next ∧ ∀ x, H.zval x ≠ .arr a)
    (href : ∀ c, z = .ref c → ∃ x, H.zval x = .ref c) :
    HeapOk { H with zval := update H.zval m z } := by
  have hval : ∀ x, update H.zval m z x = if x = m then z else H.zval x :=
    fun x => update_apply ..
  have hcell : ∀ x c, H.zval x = .ref c → c ≠ m := by
    rintro x c hx rfl
    exact (h.ref_val x c hx).1 hz
  -- a reference that is found was one before
  have hold : ∀ x c, update H.zval m z x = .ref c → ∃ y, H.zval y = .ref c := by
    intro x c hx
    rw [hval] at hx
    split at hx
    · exact href c hx
    · exact ⟨x, hx⟩
  have hkeep : ∀ c, c ≠ m → update H.zval m z c = H.zval c :=
    fun c hc => update_of_ne hc ..
  refine ⟨h.pos, fun x hx => ?_, fun x a hx => ?_, fun x x' a hx hx' => ?_, h.table_lt, h.elem,
    h.elem_inj, fun x c hx => ?_, fun x c hx => ?_, fun x c a k hx => ?_⟩
  · rw [← h.zval_lt x hx]
    apply hkeep
    rintro rfl
    exact absurd hm (not_lt.mpr hx)
  · change update H.zval m z x = _ at hx
    rw [hval] at hx
    split at hx
    · exact (harr a hx).1
    · exact h.arr_lt x a hx
  · change update H.zval m z x = _ at hx
    change update H.zval m z x' = _ at hx'
    rw [hval] at hx hx'
    split at hx
    · rename_i hxm
      split at hx'
      · rename_i hxm'
        rw [hxm, hxm']
      · exact absurd hx' ((harr a hx).2 x')
    · split at hx'
      · exact absurd hx ((harr a hx').2 x)
      · exact h.arr_inj x x' a hx hx'
  · obtain ⟨y, hy⟩ := hold x c hx
    exact h.ref_lt y c hy
  · obtain ⟨y, hy⟩ := hold x c hx
    change update H.zval m z c ≠ _ ∧ ∀ c', update H.zval m z c ≠ _
    rw [hkeep c (hcell y c hy)]
    exact h.ref_val y c hy
  · obtain ⟨y, hy⟩ := hold x c hx
    exact h.ref_elem y c a k hy

/-- A new element, with a zval of its own. -/
theorem append (h : HeapOk H) {a : ℕ} (ha : a < H.next) (k : Key) : HeapOk { H with
      table := update H.table a (H.table a ++ [(k, H.next)]), next := H.next + 1 } := by
  have hmem : ∀ b k' m, (k', m) ∈ update H.table a (H.table a ++ [(k, H.next)]) b →
      (k', m) ∈ H.table b ∨ m = H.next := by
    intro b k' m hm
    by_cases hb : b = a
    · subst hb
      rw [update_self] at hm
      rcases List.mem_append.mp hm with hm | hm
      · exact .inl hm
      · rw [List.mem_singleton, Prod.mk.injEq] at hm
        exact .inr hm.2
    · rw [update_of_ne hb] at hm
      exact .inl hm
  -- the new zval is found at the end of `a` only
  have hget : ∀ b i k' m, (update H.table a (H.table a ++ [(k, H.next)]) b)[i]?
      = some (k', m) → (H.table b)[i]? = some (k', m) ∧ m < H.next ∨
        m = H.next ∧ b = a ∧ i = (H.table a).length := by
    intro b i k' m hi
    have hold : (H.table b)[i]? = some (k', m) → (H.table b)[i]? = some (k', m) ∧ m < H.next :=
      fun hi => ⟨hi, (h.elem b k' m (List.mem_of_getElem? hi)).2⟩
    by_cases hb : b = a
    · subst hb
      rw [update_self, List.getElem?_append] at hi
      split at hi
      · exact .inl (hold hi)
      · rw [List.getElem?_singleton] at hi
        split at hi
        · rw [Option.some.injEq, Prod.mk.injEq] at hi
          exact .inr ⟨hi.2.symm, rfl, by omega⟩
        · exact absurd hi (by simp)
    · rw [update_of_ne hb] at hi
      exact .inl (hold hi)
  refine ⟨Nat.succ_pos _, fun m hm => h.zval_lt m (Nat.le_of_succ_le hm), fun m b hm =>
    Nat.lt_succ_of_lt (h.arr_lt m b hm), h.arr_inj, fun b hb => ?_, fun b k' m hm => ?_, fun b b' i
    j k1 k2 m hi hj => ?_, fun m c hm => ?_, h.ref_val, fun m c b k' hm hin => ?_⟩
  · have hb' : H.next + 1 ≤ b := hb
    have hba : b ≠ a := by omega
    exact (update_of_ne hba ..).trans (h.table_lt b (by omega))
  · rcases hmem b k' m hm with hm | rfl
    · exact ⟨(h.elem b k' m hm).1, Nat.lt_succ_of_lt (h.elem b k' m hm).2⟩
    · exact ⟨h.pos, Nat.lt_succ_self _⟩
  · rcases hget b i k1 m hi with ⟨hi, hlt⟩ | ⟨rfl, rfl, rfl⟩
    · rcases hget b' j k2 m hj with ⟨hj, -⟩ | ⟨rfl, -, -⟩
      · exact h.elem_inj b b' i j k1 k2 m hi hj
      · exact absurd hlt (lt_irrefl _)
    · rcases hget b' j k2 _ hj with ⟨-, hlt⟩ | ⟨-, rfl, rfl⟩
      · exact absurd hlt (lt_irrefl _)
      · exact ⟨rfl, rfl⟩
  · obtain ⟨h0, hlt, hr⟩ := h.ref_lt m c hm
    exact ⟨h0, Nat.lt_succ_of_lt hlt, hr⟩
  · rcases hmem b k' c hin with hin | rfl
    · exact h.ref_elem m c b k' hm hin
    · exact absurd (h.ref_lt m _ hm).2.1 (lt_irrefl _)

theorem newRef (h : HeapOk H) (hundef : H.zval m ≠ .undef)
    (href : ∀ c, H.zval m ≠ .ref c) (hcell : ∀ x, H.zval x ≠ .ref m) : HeapOk (H.newRef m) := by
  have hlt := h.lt_of_ne hundef
  have hnext : ∀ x c, H.zval x = .ref c → c ≠ H.next := by
    rintro x c hx rfl
    exact absurd (h.ref_lt x _ hx).2.1 (lt_irrefl _)
  -- a value other than the new reference was a value before
  have hcases : ∀ x z, (H.newRef m).zval x = z → z = .ref H.next ∨
      (x = H.next ∧ H.zval m = z) ∨ (x ≠ m ∧ x ≠ H.next ∧ H.zval x = z) := by
    intro x z hx
    rw [Heap.newRef_zval] at hx
    split at hx
    · exact .inl hx.symm
    · rename_i hxm
      split at hx
      · rename_i hxn
        exact .inr (.inl ⟨hxn, hx⟩)
      · rename_i hxn
        exact .inr (.inr ⟨hxm, hxn, hx⟩)
  refine ⟨Nat.succ_pos _, fun x hx => ?_, fun x a hx => ?_, fun x x' a hx hx' => ?_, fun a ha =>
    h.table_lt a (Nat.le_of_succ_le ha), fun a k x hx => ?_, h.elem_inj, fun x c hx => ?_,
    fun x c hx => ?_, fun x c a k hx hin => ?_⟩
  · have hx' : H.next + 1 ≤ x := hx
    rw [Heap.newRef_zval, if_neg (by omega), if_neg (by omega)]
    exact h.zval_lt x (by omega)
  · rcases hcases x _ hx with hn | ⟨-, hx⟩ | ⟨-, -, hx⟩
    · exact absurd hn (by simp)
    · exact Nat.lt_succ_of_lt (h.arr_lt m a hx)
    · exact Nat.lt_succ_of_lt (h.arr_lt x a hx)
  · rcases hcases x _ hx with hn | ⟨hxn, hx⟩ | ⟨hxm, -, hx⟩
    · exact absurd hn (by simp)
    · rcases hcases x' _ hx' with hn | ⟨hxn', -⟩ | ⟨hxm', -, hx'⟩
      · exact absurd hn (by simp)
      · rw [hxn, hxn']
      · exact absurd (h.arr_inj x' m a hx' hx) hxm'
    · rcases hcases x' _ hx' with hn | ⟨-, hx'⟩ | ⟨-, -, hx'⟩
      · exact absurd hn (by simp)
      · exact absurd (h.arr_inj x m a hx hx') hxm
      · exact h.arr_inj x x' a hx hx'
  · exact ⟨(h.elem a k x hx).1, Nat.lt_succ_of_lt (h.elem a k x hx).2⟩
  · change 0 < c ∧ c < H.next + 1 ∧ 1 < update H.refcount H.next 2 c
    have hold : ∀ y, H.zval y = .ref c → 0 < c ∧ c < H.next + 1 ∧
        1 < update H.refcount H.next 2 c := by
      intro y hy
      obtain ⟨h0, hlt', hr⟩ := h.ref_lt y c hy
      rw [update_of_ne (hnext y c hy)]
      exact ⟨h0, Nat.lt_succ_of_lt hlt', hr⟩
    rcases hcases x _ hx with hn | ⟨-, hx⟩ | ⟨-, -, hx⟩
    · rw [Zval.ref.injEq] at hn
      rw [hn, update_self]
      exact ⟨h.pos, Nat.lt_succ_self _, by decide⟩
    · exact hold m hx
    · exact hold x hx
  · rw [Heap.newRef_zval]
    rcases hcases x _ hx with hn | ⟨-, hx'⟩ | ⟨-, -, hx'⟩
    · rw [Zval.ref.injEq] at hn
      rw [hn, if_neg hlt.ne', if_pos rfl]
      exact ⟨hundef, href⟩
    · exact absurd hx' (href c)
    · have hcm : c ≠ m := by
        rintro rfl
        exact hcell x hx'
      rw [if_neg hcm, if_neg (hnext x c hx')]
      exact h.ref_val x c hx'
  · rcases hcases x _ hx with hn | ⟨-, hx⟩ | ⟨-, -, hx⟩
    · rw [Zval.ref.injEq] at hn
      subst hn
      exact absurd (h.elem a k _ hin).2 (lt_irrefl _)
    · exact h.ref_elem m c a k hx hin
    · exact h.ref_elem x c a k hx hin

/-- One more count of a reference. -/
theorem addref (h : HeapOk H) (c : ℕ) :
    HeapOk { H with refcount := update H.refcount c (H.refcount c + 1) } := by
  refine ⟨h.pos, h.zval_lt, h.arr_lt, h.arr_inj, h.table_lt, h.elem, h.elem_inj,
    fun m c' hm => ?_, h.ref_val, h.ref_elem⟩
  obtain ⟨h0, hlt, hr⟩ := h.ref_lt m c' hm
  refine ⟨h0, hlt, ?_⟩
  by_cases hc : c' = c
  · subst hc
    change 1 < update H.refcount c' (H.refcount c' + 1) c'
    rw [update_self]
    omega
  · exact lt_of_lt_of_eq hr (update_of_ne hc ..).symm

end HeapOk

/-!
# The slots of both sides

While a text is read back, every location of the new heap stands for a zval of the old one, and the
number of a reference leads to the slot where it was read.
-/

open Function (update)

/-- Both sides between two values, with the old zval that a location of the new heap was
read from, and the new reference that was made for an old one. -/
structure Pair where
  d : SerializeData
  u : Unserializer
  source : ℕ → Option ℕ
  cell : ℕ → Option ℕ

variable (H : Heap)

/-- A value is there: not undefined, and no reference inside a reference. -/
def HasValue (x : ℕ) : Prop := H.zval (H.deref x) ≠ .undef ∧ ∀ c, H.zval (H.deref x) ≠ .ref c

/-- The location `m` holds a copy of the value of `x`, the elements by their sources. -/
def Plain (s : Pair) (m x : ℕ) : Prop :=
  match H.zval x with
  | .arr a => ∃ b, s.u.heap.zval m = .arr b ∧
      List.Forall₂ (fun e e' => e'.1 = e.1 ∧ s.source e'.2 = some (H.unwrap e.2)) (H.table a)
        (s.u.heap.table b)
  | z => s.u.heap.zval m = z

/-- Copies of elements have their keys, in order. -/
theorem copied_keys {es es' : List (Key × ℕ)} {P : Key × ℕ → Key × ℕ → Prop}
    (h : List.Forall₂ (fun e e' => e'.1 = e.1 ∧ P e e') es es') :
    es'.map Prod.fst = es.map Prod.fst := by
  induction h with
  | nil => rfl
  | cons he _ ih => rw [List.map_cons, List.map_cons, he.1, ih]

/-- The location `m` shows the zval `x`: the value of a reference stands in the slot of
its number until the reference is met again, then in the new reference. -/
def Shown (s : Pair) (m x : ℕ) : Prop :=
  match H.zval x with
  | .ref c => (∃ c', s.cell c = some c' ∧ s.u.heap.zval m = .ref c') ∨
      (s.cell c = none ∧ Plain H s m c ∧ ∃ k, s.d.ht c = some k ∧ s.u.slots[k - 1]? = some m)
  | _ => Plain H s m x

/-- The value with the number `k` of the reference `c` was read. -/
def Done (s : Pair) (c k : ℕ) : Prop :=
  ∃ m x, s.u.slots[k - 1]? = some m ∧ s.source m = some x ∧ H.zval x = .ref c

/-- The correspondence of the two sides. -/
structure Corr (s : Pair) : Prop where
  heap : HeapOk s.u.heap
  n_eq : s.d.n = s.u.slots.length
  slot_lt : ∀ m ∈ s.u.slots, m < s.u.heap.next
  source_lt : ∀ m x, s.source m = some x → m < s.u.heap.next
  value : ∀ m x, s.source m = some x → HasValue H x
  shown : ∀ m x, s.source m = some x → Shown H s m x
  ht_pos : ∀ c k, s.d.ht c = some k → 0 < k ∧ k ≤ s.d.n
  cell : ∀ c c', s.cell c = some c' → s.source c' = some c ∧ (∀ e, H.zval c ≠ .ref e) ∧
    ∃ k, s.d.ht c = some k ∧ Done H s c k
  ref_cell : ∀ m c', s.u.heap.zval m = .ref c' → ∃ c, s.cell c = some c'
  shared : ∀ c c', s.cell c = some c' → 1 < H.refcount c

variable {H}

/-! ## What stays -/

/-- `m'` shows after the changes what `m` showed before. -/
structure Keeps (s s' : Pair) (m m' : ℕ) : Prop where
  zval : s'.u.heap.zval m' = s.u.heap.zval m
  table : ∀ b, s.u.heap.zval m = .arr b → s'.u.heap.table b = s.u.heap.table b
  source : ∀ y x, s.source y = some x → s'.source y = some x

variable {m x : ℕ} {s s' : Pair}

theorem Plain.keep {m' : ℕ} (h : Plain H s m x) (hk : Keeps s s' m m') : Plain H s' m' x := by
  rw [Plain] at h ⊢
  split
  · rename_i a ha
    rw [ha] at h
    obtain ⟨b, hb, hall⟩ := h
    refine ⟨b, hk.zval.trans hb, ?_⟩
    rw [hk.table b hb]
    exact hall.imp fun e e' he => ⟨he.1, hk.source _ _ he.2⟩
  · rename_i z hz
    rw [hk.zval]
    cases hx : H.zval x with
    | arr a => exact absurd hx (hz a)
    | _ => rw [hx] at h; exact h

theorem Plain.ne_ref (h : Plain H s m x) (hx : ∀ e, H.zval x ≠ .ref e)
    (e : ℕ) : s.u.heap.zval m ≠ .ref e := by
  rw [Plain] at h
  split at h
  · obtain ⟨b, hb, -⟩ := h
    rw [hb]
    simp
  · rw [h]
    exact hx e

theorem Plain.ne_undef (h : Plain H s m x) (hx : H.zval x ≠ .undef) : s.u.heap.zval m ≠ .undef := by
  rw [Plain] at h
  split at h
  · obtain ⟨b, hb, -⟩ := h
    rw [hb]
    simp
  · rwa [h]

theorem Shown.keep (h : Shown H s m x) (hk : Keeps s s' m m)
    (hcell : ∀ c, H.zval x = .ref c → s'.cell c = s.cell c)
    (hht : ∀ c k, s.d.ht c = some k → s'.d.ht c = some k)
    (hslots : ∃ new, s'.u.slots = s.u.slots ++ new) : Shown H s' m x := by
  cases hx : H.zval x with
  | ref c =>
    rw [Shown, hx] at h ⊢
    rcases h with ⟨c', hc, hm⟩ | ⟨hc, hp, k, hk', hs⟩
    · exact .inl ⟨c', (hcell c hx).trans hc, hk.zval.trans hm⟩
    · refine .inr ⟨(hcell c hx).trans hc, hp.keep hk, k, hht c k hk', ?_⟩
      obtain ⟨new, hnew⟩ := hslots
      rw [hnew, List.getElem?_append_left]
      · exact hs
      · exact (List.getElem?_eq_some_iff.mp hs).1
  | _ =>
    rw [Shown, hx] at h ⊢
    exact h.keep hk

theorem Done.keep {c k : ℕ} (h : Done H s c k)
    (hsource : ∀ y x, s.source y = some x → s'.source y = some x)
    (hslots : ∃ new, s'.u.slots = s.u.slots ++ new) : Done H s' c k := by
  obtain ⟨m, x, hm, hx, hc⟩ := h
  obtain ⟨new, hnew⟩ := hslots
  refine ⟨m, x, ?_, hsource m x hx, hc⟩
  rw [hnew, List.getElem?_append_left]
  · exact hm
  · exact (List.getElem?_eq_some_iff.mp hm).1

variable (H) in
/-- What happens between two moments: locations and arrays in use change only where `W`
and `T` allow it, and references newly numbered have been read. -/
structure Ext (W T : ℕ → Prop) (s s' : Pair) : Prop where
  source : ∀ m x, s.source m = some x → s'.source m = some x
  ht : ∀ c k, s.d.ht c = some k → s'.d.ht c = some k
  done : ∀ c k, s'.d.ht c = some k → s.d.ht c = some k ∨ Done H s' c k
  zval : ∀ m, m < s.u.heap.next → ¬ W m → s.source m = none →
    s'.u.heap.zval m = s.u.heap.zval m ∧ s'.source m = none
  table : ∀ a, a < s.u.heap.next → ¬ T a → s'.u.heap.table a = s.u.heap.table a
  slots : ∃ new, s'.u.slots = s.u.slots ++ new
  next : s.u.heap.next ≤ s'.u.heap.next

namespace Ext

variable {W T W' T' : ℕ → Prop} {s s' s'' : Pair}

theorem refl (s : Pair) : Ext H W T s s where
  source _ _ h := h
  ht _ _ h := h
  done _ _ h := .inl h
  zval _ _ _ h := ⟨rfl, h⟩
  table _ _ _ := rfl
  slots := ⟨[], (List.append_nil _).symm⟩
  next := le_rfl

/-- What the second part may change is new or allowed before. -/
theorem trans (h : Ext H W T s s') (h' : Ext H W' T' s' s'')
    (hW : ∀ m, m < s.u.heap.next → W' m → W m) (hT : ∀ a, a < s.u.heap.next → T' a → T a) :
    Ext H W T s s'' where
  source m x hm := h'.source m x (h.source m x hm)
  ht c k hk := h'.ht c k (h.ht c k hk)
  done c k hk := by
    rcases h'.done c k hk with hk | hd
    · exact (h.done c k hk).imp_right fun hd => hd.keep h'.source h'.slots
    · exact .inr hd
  zval m hm hWm hs := by
    obtain ⟨hz, hs'⟩ := h.zval m hm hWm hs
    obtain ⟨hz', hs''⟩ := h'.zval m (lt_of_lt_of_le hm h.next) (fun hw => hWm (hW m hm hw)) hs'
    exact ⟨hz'.trans hz, hs''⟩
  table a ha hTa :=
    (h'.table a (lt_of_lt_of_le ha h.next) fun ht => hTa (hT a ha ht)).trans (h.table a ha hTa)
  slots := by
    obtain ⟨new, hnew⟩ := h.slots
    obtain ⟨new', hnew'⟩ := h'.slots
    exact ⟨new ++ new', by rw [hnew', hnew, List.append_assoc]⟩
  next := h.next.trans h'.next

end Ext

/-! ## Steps -/

namespace Corr

open List

variable {s : Pair} {m x : ℕ}

/-- A location that was read has a value. -/
theorem ne_undef (h : Corr H s) (hx : s.source m = some x) : s.u.heap.zval m ≠ .undef := by
  have hv := (h.value m x hx).1
  have hs := h.shown m x hx
  rw [Heap.deref] at hv
  cases hz : H.zval x with
  | ref c =>
    rw [hz] at hv
    rw [Shown, hz] at hs
    rcases hs with ⟨c', -, hc'⟩ | ⟨-, hp, -⟩
    · rw [hc']
      simp
    · exact hp.ne_undef hv
  | _ =>
    rw [Shown, hz] at hs
    rw [hz] at hv
    exact Plain.ne_undef hs hv

/-- A value gets the next number and the next slot. -/
theorem push (h : Corr H s) {d : SerializeData} (hm : m < s.u.heap.next)
    (hn : d.n = s.d.n + 1) (hht : ∀ c k, s.d.ht c = some k → d.ht c = some k)
    (hpos : ∀ c k, d.ht c = some k → 0 < k ∧ k ≤ d.n) :
    Corr H { s with d := d, u := s.u.push m } := by
  have hslots : ∃ new, (s.u.push m).slots = s.u.slots ++ new := ⟨[m], rfl⟩
  refine ⟨h.heap, ?_, ?_, h.source_lt, h.value, ?_, hpos, ?_, h.ref_cell, h.shared⟩
  · rw [hn, h.n_eq]
    change s.u.slots.length + 1 = (s.u.slots ++ [m]).length
    rw [length_append, length_singleton]
  · intro y hy
    rcases mem_append.mp hy with hy | hy
    · exact h.slot_lt y hy
    · rw [mem_singleton.mp hy]
      exact hm
  · intro y z hy
    exact (h.shown y z hy).keep ⟨rfl, fun _ _ => rfl, fun _ _ h => h⟩ (fun _ _ => rfl) hht hslots
  · intro c c' hc
    obtain ⟨hs, hv, k, hk, hd⟩ := h.cell c c' hc
    exact ⟨hs, hv, k, hht c k hk, hd.keep (fun _ _ h => h) hslots⟩

/-- A value that is complete is entered as the copy of `x`. -/
theorem close (h : Corr H s) (hm : m < s.u.heap.next) (hnone : s.source m = none)
    (hv : HasValue H x) (hshown : Shown H { s with source := update s.source m (some x) } m x) :
    Corr H { s with source := update s.source m (some x) } := by
  have hsource : ∀ y z, s.source y = some z →
      update s.source m (some x) y = some z := by
    intro y z hy
    rw [Function.update_of_ne]
    · exact hy
    · rintro rfl
      rw [hnone] at hy
      exact Option.some_ne_none z hy.symm
  have hcases : ∀ y z, update s.source m (some x) y = some z →
      (y = m ∧ z = x) ∨ s.source y = some z := by
    intro y z hy
    by_cases hym : y = m
    · subst hym
      rw [Function.update_self] at hy
      exact .inl ⟨rfl, (Option.some.inj hy).symm⟩
    · rw [Function.update_of_ne hym] at hy
      exact .inr hy
  refine ⟨h.heap, h.n_eq, h.slot_lt, ?_, ?_, ?_, h.ht_pos, ?_, h.ref_cell, h.shared⟩
  · intro y z hy
    rcases hcases y z hy with ⟨rfl, -⟩ | hy
    · exact hm
    · exact h.source_lt y z hy
  · intro y z hy
    rcases hcases y z hy with ⟨-, rfl⟩ | hy
    · exact hv
    · exact h.value y z hy
  · intro y z hy
    rcases hcases y z hy with ⟨rfl, rfl⟩ | hy
    · exact hshown
    · exact (h.shown y z hy).keep ⟨rfl, fun _ _ => rfl, hsource⟩ (fun _ _ => rfl)
        (fun _ _ h => h) ⟨[], (append_nil _).symm⟩
  · intro c c' hc
    obtain ⟨hs, hn, k, hk, hd⟩ := h.cell c c' hc
    exact ⟨hsource _ _ hs, hn, k, hk, hd.keep hsource ⟨[], (append_nil _).symm⟩⟩

/-- The changes to zvals and tables of locations that were not read yet. -/
theorem change (h : Corr H s) {heap : Heap} (hok : HeapOk heap)
    (hkeep : ∀ y z, s.source y = some z → Keeps s { s with u := { s.u with heap := heap } } y y)
    (hnext : s.u.heap.next ≤ heap.next)
    (href : ∀ y c', heap.zval y = .ref c' → ∃ c, s.cell c = some c') :
    Corr H { s with u := { s.u with heap := heap } } := by
  refine ⟨hok, h.n_eq, ?_, ?_, h.value, ?_, h.ht_pos, h.cell, href, h.shared⟩
  · exact fun y hy => lt_of_lt_of_le (h.slot_lt y hy) hnext
  · exact fun y z hy => lt_of_lt_of_le (h.source_lt y z hy) hnext
  · intro y z hy
    exact (h.shown y z hy).keep (hkeep y z hy) (fun _ _ => rfl) (fun _ _ h => h)
      ⟨[], (append_nil _).symm⟩

end Corr

/-- The value in the slot `m` moves into a new reference, the one for `c`. -/
def Pair.newRef (s : Pair) (c m : ℕ) : Pair where
  d := s.d
  u := { s.u with heap := s.u.heap.newRef m }
  source := update s.source s.u.heap.next (some c)
  cell := update s.cell c (some s.u.heap.next)

namespace Corr

open Function

variable {s : Pair} {m x c k : ℕ}

theorem source_next (h : Corr H s) : s.source s.u.heap.next = none := by
  cases hs : s.source s.u.heap.next with
  | none => rfl
  | some y => exact absurd (h.source_lt _ y hs) (lt_irrefl _)

variable {y z : ℕ}

/-- What was read before the new reference was made is not at its address. -/
theorem newRef_source (h : Corr H s) (c : ℕ) (hy : s.source y = some z) :
    (s.newRef c m).source y = some z := by
  exact (update_of_ne (h.source_lt y z hy).ne ..).trans hy

theorem newRef_cases (hy : (s.newRef c m).source y = some z) :
    (y = s.u.heap.next ∧ z = c) ∨ s.source y = some z := by
  change update s.source s.u.heap.next (some c) y = some z at hy
  by_cases hyn : y = s.u.heap.next
  · subst hyn
    rw [update_self] at hy
    exact .inl ⟨rfl, (Option.some.inj hy).symm⟩
  · rw [update_of_ne hyn] at hy
    exact .inr hy

/-- The zvals read before keep their values, but for the slot `m`. -/
theorem newRef_keeps (h : Corr H s) (hy : s.source y = some z) (hym : y ≠ m) :
    Keeps s (s.newRef c m) y y where
  zval := by
    change (s.u.heap.newRef m).zval y = _
    rw [Heap.newRef_zval, if_neg hym, if_neg (h.source_lt y z hy).ne]
  table _ _ := rfl
  source _ _ := h.newRef_source c

/-- The value of a reference that is met again. -/
theorem newRef (h : Corr H s) (hk : s.d.ht c = some k) (hm : s.u.slots[k - 1]? = some m)
    (hx : s.source m = some x) (hc : H.zval x = .ref c) (hcell : s.cell c = none)
    (hplain : Plain H s m c) (hshared : 1 < H.refcount c) : Corr H (s.newRef c m) := by
  have hmlt := h.source_lt m x hx
  have hval : H.zval c ≠ .undef ∧ ∀ e, H.zval c ≠ .ref e := by
    have := h.value m x hx
    rwa [HasValue, Heap.deref, hc] at this
  have hundef := h.ne_undef hx
  have hnoref := hplain.ne_ref hval.2
  have hslots : ∃ new, (s.newRef c m).u.slots = s.u.slots ++ new := ⟨[], (List.append_nil _).symm⟩
  have hself : (s.newRef c m).cell c = some s.u.heap.next := update_self ..
  have hother : ∀ e, e ≠ c → (s.newRef c m).cell e = s.cell e :=
    fun e he => update_of_ne he ..
  have hzval : ∀ y, (s.newRef c m).u.heap.zval y =
      if y = m then .ref s.u.heap.next else if y = s.u.heap.next then s.u.heap.zval m
      else s.u.heap.zval y := Heap.newRef_zval _ m
  refine ⟨h.heap.newRef hundef hnoref ?_, h.n_eq, ?_, ?_, ?_, ?_, h.ht_pos, ?_, ?_, ?_⟩
  · -- the slot of an element is no reference
    intro y hy
    obtain ⟨e, he⟩ := h.ref_cell y m hy
    obtain ⟨hs, hv, -⟩ := h.cell e m he
    rw [Option.some.inj (hs.symm.trans hx)] at hv
    exact hv c hc
  · exact fun y hy => Nat.lt_succ_of_lt (h.slot_lt y hy)
  · intro y z hy
    rcases newRef_cases hy with ⟨rfl, -⟩ | hy
    · exact Nat.lt_succ_self _
    · exact Nat.lt_succ_of_lt (h.source_lt y z hy)
  · intro y z hy
    rcases newRef_cases hy with ⟨-, rfl⟩ | hy
    · have hderef : H.deref z = z := by
        rw [Heap.deref]
        split
        · rename_i e he
          exact absurd he (hval.2 e)
        · rfl
      rw [HasValue, hderef]
      exact hval
    · exact h.value y z hy
  · intro y z hy
    rcases newRef_cases hy with ⟨rfl, rfl⟩ | hy'
    · have hp : Plain H (s.newRef z m) s.u.heap.next z := by
        refine hplain.keep ⟨?_, fun _ _ => rfl, fun _ _ => h.newRef_source z⟩
        rw [hzval, if_neg hmlt.ne', if_pos rfl]
      rw [Shown]
      split
      · rename_i e he
        exact absurd he (hval.2 e)
      · exact hp
    · by_cases hym : y = m
      · subst hym
        rw [Option.some.inj (hy'.symm.trans hx), Shown, hc]
        exact .inl ⟨s.u.heap.next, hself, by rw [hzval, if_pos rfl]⟩
      · refine (h.shown y z hy').keep (h.newRef_keeps hy' hym) ?_ (fun _ _ h => h) hslots
        -- only the slot of its number shows a reference without a copy
        intro e he
        apply hother
        rintro rfl
        have hs := h.shown y z hy'
        rw [Shown, he] at hs
        rcases hs with ⟨e', he', -⟩ | ⟨-, -, k', hk', hs⟩
        · exact absurd (hcell.symm.trans he') (by simp)
        · obtain rfl := Option.some.inj (hk.symm.trans hk')
          exact hym (Option.some.inj (hs.symm.trans hm))
  · intro e e' he
    by_cases hec : e = c
    · subst hec
      obtain rfl := Option.some.inj (hself.symm.trans he)
      refine ⟨update_self .., hval.2, k, hk, m, x, hm, h.newRef_source e hx, hc⟩
    · rw [hother e hec] at he
      obtain ⟨hs, hv, k', hk', hd⟩ := h.cell e e' he
      exact ⟨h.newRef_source c hs, hv, k', hk', hd.keep (fun _ _ => h.newRef_source c) hslots⟩
  · intro y e' hy
    have hold : ∀ y, s.u.heap.zval y = .ref e' → ∃ e, (s.newRef c m).cell e = some e' := by
      intro y hy
      obtain ⟨e, he⟩ := h.ref_cell y e' hy
      refine ⟨e, ?_⟩
      rw [hother e, he]
      rintro rfl
      exact absurd (hcell.symm.trans he) (by simp)
    rw [hzval] at hy
    split at hy
    · rw [Zval.ref.injEq] at hy
      exact ⟨c, hy ▸ hself⟩
    · split at hy
      · exact absurd hy (hnoref e')
      · exact hold y hy
  · intro e e' he
    by_cases hec : e = c
    · rwa [hec]
    · exact h.shared e e' ((hother e hec).symm.trans he)

end Corr

/-- The sides after a value was read: `m` holds the copy of `x`. -/
def Pair.read (s : Pair) (heap : Heap) (m x : ℕ) : Pair :=
  { s with u := { s.u with heap := heap }, source := update s.source m (some x) }

/-- A location that waits for its value. -/
structure Waits (s : Pair) (m : ℕ) : Prop where
  lt : m < s.u.heap.next
  undef : s.u.heap.zval m = .undef
  source : s.source m = none

variable {s : Pair} {m x c k : ℕ}

theorem Waits.ne (h : Waits s m) {y z : ℕ} (hy : s.source y = some z) : y ≠ m := by
  rintro rfl
  exact Option.some_ne_none z (hy.symm.trans h.source)

/-- A zval written to a location that waits. -/
theorem Waits.ext (h : Waits s m) {heap : Heap} {z : Zval}
    (hzval : heap.zval = update s.u.heap.zval m z) (htable : heap.table = s.u.heap.table)
    (hnext : heap.next = s.u.heap.next) {T : ℕ → Prop} : Ext H (· = m) T s (s.read heap m x) where
  source y z' hy := (Function.update_of_ne (h.ne hy) ..).trans hy
  ht _ _ hk := hk
  done _ _ hk := .inl hk
  zval y _ hym hy := by
    refine ⟨?_, (Function.update_of_ne hym ..).trans hy⟩
    change heap.zval y = _
    rw [hzval, Function.update_of_ne hym]
  table a _ _ := congrFun htable a
  slots := ⟨[], (List.append_nil _).symm⟩
  next := hnext.ge

namespace Corr

open Function

/-- Writing a value to a location that waits, when the location then shows `x`. -/
theorem read (h : Corr H s) (hm : Waits s m) {heap : Heap} {z : Zval} (hok : HeapOk heap)
    (hzval : heap.zval = update s.u.heap.zval m z) (htable : heap.table = s.u.heap.table)
    (hnext : heap.next = s.u.heap.next) (hv : HasValue H x)
    (href : ∀ c', z = .ref c' → ∃ c, s.cell c = some c')
    (hshown : Shown H (s.read heap m x) m x) : Corr H (s.read heap m x) := by
  have hchange : Corr H { s with u := { s.u with heap := heap } } := by
    refine h.change hok ?_ hnext.ge ?_
    · intro y z' hy
      refine ⟨?_, fun b _ => congrFun htable b, fun _ _ hy => hy⟩
      rw [hzval, update_of_ne (hm.ne hy)]
    · intro y c' hy
      rw [hzval] at hy
      by_cases hym : y = m
      · subst hym
        rw [update_self] at hy
        exact href c' hy
      · rw [update_of_ne hym] at hy
        exact h.ref_cell y c' hy
  exact hchange.close (lt_of_lt_of_eq hm.lt hnext.symm) hm.source hv hshown

/-- A reference that has a copy is copied again. -/
theorem copyRef (h : Corr H s) (hm : Waits s m) {c' : ℕ} (hc' : s.cell c = some c')
    (hex : ∃ y, s.u.heap.zval y = .ref c') {refcount : ℕ → ℕ}
    (hok : HeapOk { s.u.heap with refcount := refcount }) (hx : H.zval x = .ref c)
    (hv : HasValue H x) :
    Corr H (s.read { s.u.heap with
      zval := update s.u.heap.zval m (.ref c'), refcount := refcount } m x) := by
  have hok' := hok.write (m := m) (z := .ref c') hm.lt hm.undef (by simp) (by
    intro c'' he
    rw [← he]
    exact hex)
  refine h.read hm hok' rfl rfl rfl hv ?_ ?_
  · intro c'' he
    rw [Zval.ref.injEq] at he
    exact ⟨c, he ▸ hc'⟩
  · rw [Shown, hx]
    exact .inl ⟨c', hc', update_self ..⟩

/-- A back reference to a value that was read. -/
theorem backRef (h : Corr H s) (hm : Waits s m) (hk : s.d.ht c = some k) (hd : Done H s c k)
    (hx : H.zval x = .ref c) (hv : HasValue H x) (hshared : 1 < H.refcount c) :
    ∃ slot s', s.u.slots[k - 1]? = some slot ∧ s'.d = s.d ∧ s'.u = s.u.backRef m slot ∧
      Corr H s' ∧ Ext H (· = m) (fun _ => False) s s' ∧ s'.source m = some x := by
  obtain ⟨slot, y, hslot, hy, hyc⟩ := hd
  have hshown := h.shown slot y hy
  rw [Shown, hyc] at hshown
  rcases hshown with ⟨c', hc', hz⟩ | ⟨hnone, hplain, -⟩
  · have hundef : ¬ s.u.undefAt slot := by
      rw [Unserializer.undefAt, Heap.deref, hz]
      exact (h.heap.ref_val slot c' hz).1
    have hcorr := h.copyRef hm hc' ⟨slot, hz⟩ (h.heap.addref c') hx hv
    refine ⟨slot, _, hslot, ?_, ?_, hcorr, hm.ext (by rfl) (by rfl) (by rfl), update_self ..⟩
    · rfl
    · rw [Unserializer.backRef, if_neg hundef, hz]
      rfl
  · have hval := h.value slot y hy
    rw [HasValue, Heap.deref, hyc] at hval
    have hnoref := hplain.ne_ref hval.2
    have hnew := h.newRef hk hslot hy hyc hnone hplain hshared
    have hm' : Waits (s.newRef c slot) m := by
      refine ⟨Nat.lt_succ_of_lt hm.lt, ?_, (update_of_ne hm.lt.ne ..).trans hm.source⟩
      change (s.u.heap.newRef slot).zval m = _
      rw [Heap.newRef_zval, if_neg (hm.ne hy).symm, if_neg hm.lt.ne, hm.undef]
    have hderef : s.u.heap.deref slot = slot := by
      rw [Heap.deref]
      split
      · rename_i e he
        exact absurd he (hnoref e)
      · rfl
    have hundef : ¬ s.u.undefAt slot := by
      rw [Unserializer.undefAt, hderef]
      exact hplain.ne_undef hval.1
    have hcorr := hnew.copyRef hm' (update_self ..) ⟨slot, update_self ..⟩
      hnew.heap hx hv
    refine ⟨slot, _, hslot, ?_, ?_, hcorr, ?_, update_self ..⟩
    · rfl
    · rw [Unserializer.backRef, if_neg hundef]
      cases hz : s.u.heap.zval slot with
      | ref e => exact absurd hz (hnoref e)
      | _ =>
        simp only [Pair.read, Pair.newRef, Heap.newRef, hz]
    · suffices hmoved : Ext H (· = m) (fun _ => False) s (s.newRef c slot) from
        hmoved.trans (hm'.ext (T := fun _ => False) (by rfl) (by rfl) (by rfl))
          (fun _ _ h => h) (fun _ _ h => h)
      refine ⟨fun _ _ => h.newRef_source c, fun _ _ h => h, fun _ _ h => .inl h, ?_,
        fun _ _ _ => rfl, ⟨[], (List.append_nil _).symm⟩, Nat.le_succ _⟩
      intro z hlt _ hz
      have hzs : z ≠ slot := by
        rintro rfl
        exact Option.some_ne_none y (hy.symm.trans hz)
      refine ⟨?_, (update_of_ne hlt.ne ..).trans hz⟩
      change (s.u.heap.newRef slot).zval z = _
      rw [Heap.newRef_zval, if_neg hzs, if_neg hlt.ne]

end Corr

end PhpVar
