/-
# Reading one value back

The text of a value that is no array is read back as the value, at the slot that its
number stands for.
-/
import ReadingCode.SameVariables

namespace PhpVar

open Function

variable {H : Heap} {l : ℕ} {d d' : SerializeData} {x : ℕ}

/-! ## Values of both sides -/

variable {other : ℕ → Bytes → Unserializer → Option (Bytes × Unserializer)}

variable (H other) in
/-- The text `t` is read back into `m` as the zval `x`, in front of any text. -/
def Reads (s : Pair) (m x : ℕ) (t : Bytes) (d' : SerializeData) : Prop :=
  ∀ rest fuel, t.length < fuel → ∃ s', s'.d = d' ∧
    unserializeInternal other fuel m (t ++ rest) s.u = some (rest, s'.u) ∧ Corr H s' ∧
    Ext H (· = m) (fun _ => False) s s' ∧ s'.source m = some x

/-- The references that can be met below `x` and have a number have been read. -/
def Ready (H : Heap) (s : Pair) (x : ℕ) : Prop :=
  ∀ c k, s.d.ht c = some k → H.height c ≤ H.height x → Done H s c k

/-- No array that can be met below `x` is being written. -/
def Idle (H : Heap) (d : SerializeData) (x : ℕ) : Prop :=
  ∀ a b, H.zval (H.deref x) = .arr a → Relation.TransGen H.Holds a b → d.applyCount b = 0

variable (H other) in
/-- What is written of a value is read back. -/
def RoundTrip (fuel : ℕ) (s : Pair) (m x : ℕ) : Prop :=
  ∀ t d', serializeIntern H fuel s.d x = some (t, d') → d'.n < 2 ^ 32 → Reads H other s m x t d'

variable {k m : ℕ} {s : Pair}

/-- The number of a reference as `R:` gives it leads to its slot. -/
theorem access_backRef (u : Unserializer) (h0 : 0 < k) (hk : k < 2 ^ 63) :
    u.access ((BitVec.ofNat 64 k - 1).toInt) = u.slots[k - 1]? := by
  have hnat : (BitVec.ofNat 64 k - 1).toNat = k - 1 := by
    have h1 : (1 : BitVec 64).toNat = 1 := rfl
    rw [BitVec.toNat_sub, BitVec.toNat_ofNat]
    omega
  have hint : (BitVec.ofNat 64 k - 1).toInt = ((k - 1 : ℕ) : ℤ) := by
    rw [BitVec.toInt_eq_toNat_of_lt (by omega), hnat]
  rw [Unserializer.access, hint, if_neg (by omega), Int.toNat_natCast]

/-- A reference met before is written as `R:`. -/
theorem roundTrip_backRef {fuel c : ℕ} (h : Corr H s) (hm : Waits s m)
    (hx : H.zval x = .ref c) (hv : HasValue H x) (hk : s.d.ht c = some k) (hd : Done H s c k)
    (hshared : 1 < H.refcount c) : RoundTrip H other (fuel + 1) s m x := by
  obtain ⟨h0, hkn⟩ := h.ht_pos c k hk
  obtain ⟨j, rfl⟩ := Nat.exists_eq_succ_of_ne_zero h0.ne'
  intro t d' hser hn rest f hf
  rw [serializeIntern, addVarHash_found hx hk] at hser
  obtain ⟨rfl, rfl⟩ := Prod.mk.inj (Option.some.inj hser)
  cases f with
  | zero => exact absurd hf (Nat.not_lt_zero _)
  | succ f =>
    obtain ⟨slot, s', hslot, hd', hu', hcorr, hext, hsource⟩ := h.backRef hm hk hd hx hv hshared
    have hk63 : j + 1 < 2 ^ 63 := by omega
    refine ⟨s', hd', ?_, hcorr, hext, hsource⟩
    rw [unserializeInternal, scan_backRef]
    have hhead : (text ['R', ':'] ++ printLong (BitVec.ofNat 64 (j + 1)) ++ text [';']
        ++ rest).head? = some 'R'.toUInt8 := rfl
    have hne : text ['R', ':'] ++ printLong (BitVec.ofNat 64 (j + 1)) ++ text [';']
        ++ rest ≠ [] := by simp
    simp only [if_neg hne, if_pos hhead, access_backRef s.u h0 hk63, hslot, Option.map_some, hu']

/-! ## Values that get a number -/

/-- `x` is no reference met before. -/
def Unmet (H : Heap) (s : Pair) (x : ℕ) : Prop := ∀ c, H.zval x = .ref c → s.d.ht c = none

/-- Both sides after a value got its number and its slot. -/
structure Numbered (H : Heap) (s : Pair) (m x : ℕ) (s1 : Pair) : Prop where
  corr : Corr H s1
  waits : Waits s1 m
  applyCount : s1.d.applyCount = s.d.applyCount
  n_eq : s1.d.n = s.d.n + 1
  unserializer : s1.u = s.u.push m
  slot : ∀ c, H.zval x = .ref c → ∃ k, s1.d.ht c = some k ∧ s1.u.slots[k - 1]? = some m
  ready : ∀ c k, s1.d.ht c = some k → s.d.ht c = some k ∨ H.zval x = .ref c
  source : s1.source = s.source
  ext : ∀ T s', Ext H (· = m) T s1 s' → s'.source m = some x → Ext H (· = m) T s s'

theorem exists_numbered (h : Corr H s) (hm : Waits s m) (hnew : Unmet H s x) :
    ∃ s1, s.d.addVarHash H x = (0, s1.d) ∧ s1.d.n = s.d.n + 1 ∧
      (s.d.n + 1 < 2 ^ 32 → Numbered H s m x s1) := by
  obtain ⟨d1, hadd, hn, happ, hht, hback, hx⟩ := addVarHash_new hnew
  refine ⟨{ s with d := d1, u := s.u.push m }, hadd, hn, fun hbound => ?_⟩
  rw [Nat.mod_eq_of_lt hbound] at hback hx
  have hlast : (s.u.push m).slots[s.d.n]? = some m := by
    rw [h.n_eq]
    exact List.getElem?_concat_length
  have hpos : ∀ c k, d1.ht c = some k → 0 < k ∧ k ≤ d1.n := by
    intro c k hk
    rcases hback c k hk with hk | ⟨-, rfl⟩
    · have := h.ht_pos c k hk
      omega
    · omega
  refine ⟨h.push hm.lt hn hht hpos, ⟨hm.lt, hm.undef, hm.source⟩, happ, hn, rfl, fun c hc => ⟨s.d.n
    + 1, hx c hc, hlast⟩, ?_, rfl, ?_⟩
  · exact fun c k hk => (hback c k hk).imp_right fun hr => hr.1
  · intro T s' hext hsource
    obtain ⟨new, hslots⟩ := hext.slots
    refine ⟨hext.source, fun c k hk => hext.ht c k (hht c k hk), fun c k hk => ?_, hext.zval,
      hext.table, ⟨[m] ++ new, ?_⟩, hext.next⟩
    · rcases hext.done c k hk with hk | hd
      · rcases hback c k hk with hk | ⟨hc, rfl⟩
        · exact .inl hk
        · refine .inr ⟨m, x, ?_, hsource, hc⟩
          rw [hslots, List.getElem?_append_left]
          · exact hlast
          · exact (List.getElem?_eq_some_iff.mp hlast).1
      · exact .inr hd
    · rw [hslots, ← List.append_assoc]
      rfl

/-- A reference without a value read has no new reference. -/
theorem Corr.cell_none {c : ℕ} (h : Corr H s) (hk : s.d.ht c = some k)
    (hslot : s.u.slots[k - 1]? = some m) (hm : s.source m = none) : s.cell c = none := by
  cases hc : s.cell c with
  | none => rfl
  | some c' =>
    obtain ⟨-, -, k', hk', m', y, hslot', hy, -⟩ := h.cell c c' hc
    obtain rfl := Option.some.inj (hk.symm.trans hk')
    obtain rfl := Option.some.inj (hslot.symm.trans hslot')
    exact absurd (hm.symm.trans hy) (by simp)

/-- A copy of the value shows a zval that was just read. -/
theorem shown_of_plain (hp : Plain H s m (H.deref x)) (hnew : ∀ c, H.zval x = .ref c →
      s.cell c = none ∧ ∃ k, s.d.ht c = some k ∧ s.u.slots[k - 1]? = some m) : Shown H s m x := by
  rw [Shown]
  split
  · rename_i c hc
    rw [deref_of_ref hc] at hp
    exact .inr ⟨(hnew c hc).1, hp, (hnew c hc).2⟩
  · rename_i hno
    rwa [deref_of_ne_ref hno] at hp

/-- Scalars. -/
theorem roundTrip_scalar {fuel : ℕ} {z : Zval} {t : Bytes} (h : Corr H s)
    (hm : Waits s m) (hv : HasValue H x) (hnew : Unmet H s x) (hz : H.zval (H.deref x) = z)
    (harr : ∀ a, z ≠ .arr a)
    (hwrite : ∀ d d1, d.addVarHash H x = (0, d1) → serializeIntern H (fuel + 1) d x = some (t, d1))
    (hread : ∀ rest f, unserializeInternal other (f + 1) m (t ++ rest) s.u
      = some (rest, (s.u.push m).set m z)) : RoundTrip H other (fuel + 1) s m x := by
  intro t' d' hser hbound rest f hf
  obtain ⟨s1, hadd, hn, hnumbered⟩ := exists_numbered h hm hnew
  rw [hwrite _ _ hadd] at hser
  obtain ⟨rfl, rfl⟩ := Prod.mk.inj (Option.some.inj hser)
  have hs1 := hnumbered (hn ▸ hbound)
  have href : ∀ c, z ≠ .ref c := by
    intro c hc
    exact hv.2 c (hz.trans hc)
  cases f with
  | zero => exact absurd hf (Nat.not_lt_zero _)
  | succ f =>
    set heap := (s1.u.set m z).heap with hheap
    have hok : HeapOk heap := hs1.corr.heap.write hs1.waits.lt hs1.waits.undef
      (fun a ha => absurd ha (harr a)) fun c hc => absurd hc (href c)
    have hplain : Plain H (s1.read heap m x) m (H.deref x) := by
      rw [Plain, hz]
      split
      · rename_i a
        exact absurd rfl (harr a)
      · exact update_self ..
    have hshown : Shown H (s1.read heap m x) m x := by
      refine shown_of_plain hplain fun c hc => ?_
      obtain ⟨k, hk, hslot⟩ := hs1.slot c hc
      exact ⟨hs1.corr.cell_none hk hslot hs1.waits.source, k, hk, hslot⟩
    have hcorr : Corr H (s1.read heap m x) := hs1.corr.read hs1.waits hok rfl rfl rfl hv
      (fun c hc => absurd hc (href c)) hshown
    refine ⟨s1.read heap m x, rfl, ?_, hcorr, ?_, update_self ..⟩
    · rw [hread rest f, ← hs1.unserializer]
      rfl
    · exact hs1.ext _ _ (hs1.waits.ext (by rfl) (by rfl) (by rfl)) (update_self ..)

end PhpVar

/-!
# Reading arrays back

An array is there from its opening brace on, and its elements are entered one by one:
each gets a new zval, which waits for its value while the elements inside are read.
-/

namespace PhpVar

open List Option Function

variable {H : Heap} {l : ℕ} {s s' : Pair} {m b : ℕ}

/-! ## The counters of the arrays -/

variable {d : SerializeData}

/-- The counters of the arrays have no part in the correspondence. -/
theorem Corr.withData (h : Corr H s) (hn : d.n = s.d.n) (hht : d.ht = s.d.ht) :
    Corr H { s with d := d } where
  heap := h.heap
  n_eq := hn.trans h.n_eq
  slot_lt := h.slot_lt
  source_lt := h.source_lt
  value := h.value
  shown y z hy := (h.shown y z hy).keep ⟨rfl, fun _ _ => rfl, fun _ _ h => h⟩ (fun _ _ => rfl)
    (fun c k hk => (congrFun hht c).trans hk) ⟨[], (append_nil _).symm⟩
  ht_pos c k hk := by
    obtain ⟨h0, hle⟩ := h.ht_pos c k ((congrFun hht c).symm.trans hk)
    exact ⟨h0, hle.trans hn.ge⟩
  cell c c' hc := by
    obtain ⟨hs, hv, k, hk, hd⟩ := h.cell c c' hc
    exact ⟨hs, hv, k, (congrFun hht c).trans hk, hd⟩
  ref_cell := h.ref_cell
  shared := h.shared

theorem Ext.withData {W T : ℕ → Prop} (h : Ext H W T s s') {d' : SerializeData}
    (hd : d.ht = s.d.ht) (hd' : d'.ht = s'.d.ht) :
    Ext H W T { s with d := d } { s' with d := d' } where
  source := h.source
  ht c k hk := (congrFun hd' c).trans (h.ht c k ((congrFun hd c).symm.trans hk))
  done c k hk := by
    rcases h.done c k ((congrFun hd' c).symm.trans hk) with hk | hdone
    · exact .inl ((congrFun hd c).trans hk)
    · exact .inr hdone
  zval := h.zval
  table := h.table
  slots := h.slots
  next := h.next

/-! ## Entering elements -/

variable (H) in
/-- The location `m` holds the array `b`, which has copies of the elements `es`. -/
structure Filling (s : Pair) (m b : ℕ) (es : List (Key × ℕ)) : Prop where
  zval : s.u.heap.zval m = .arr b
  source : s.source m = none
  copied : List.Forall₂ (fun e e' => e'.1 = e.1 ∧ s.source e'.2 = some (H.unwrap e.2)) es
    (s.u.heap.table b)

/-- A new array is empty. -/
theorem Corr.arrayInit (h : Corr H s) (hm : Waits s m) : Corr H { s with u := s.u.arrayInit m } ∧
      Ext H (· = m) (fun _ => False) s { s with u := s.u.arrayInit m } ∧
      Filling H { s with u := s.u.arrayInit m } m s.u.heap.next [] := by
  have htable : update s.u.heap.table s.u.heap.next [] = s.u.heap.table := by
    rw [← h.heap.table_lt s.u.heap.next le_rfl, update_eq_self]
  have hok : HeapOk (s.u.arrayInit m).heap := by
    have hfresh : ∀ y, s.u.heap.zval y ≠ .arr s.u.heap.next :=
      fun y hy => absurd (h.heap.arr_lt y _ hy) (lt_irrefl _)
    have hwrite := h.heap.bump.write (z := .arr s.u.heap.next) (Nat.lt_succ_of_lt hm.lt) hm.undef
      (fun a ha => by
        rw [Zval.arr.injEq] at ha
        rw [← ha]
        exact ⟨Nat.lt_succ_self _, hfresh⟩)
      (fun c hc => absurd hc (by simp))
    rw [Unserializer.arrayInit, htable]
    exact hwrite
  have hzval : ∀ y, y ≠ m → (s.u.arrayInit m).heap.zval y = s.u.heap.zval y :=
    fun y hy => update_of_ne hy ..
  refine ⟨h.change hok ?_ (Nat.le_succ _) ?_, ⟨fun _ _ h => h, fun _ _ h => h, fun _ _ h => .inl h,
    fun y _ hy hs => ⟨hzval y hy, hs⟩, fun a _ _ => congrFun htable a,
    ⟨[], (append_nil _).symm⟩, Nat.le_succ _⟩, ⟨update_self .., hm.source, ?_⟩⟩
  · exact fun y z hy => ⟨hzval y (hm.ne hy), fun c _ => congrFun htable c, fun _ _ h => h⟩
  · intro y c' hy
    by_cases hym : y = m
    · subst hym
      have hself : (s.u.arrayInit y).heap.zval y = .arr s.u.heap.next := update_self ..
      exact absurd (hself.symm.trans hy) (by simp)
    · exact h.ref_cell y c' ((hzval y hym).symm.trans hy)
  · change List.Forall₂ _ [] (update s.u.heap.table s.u.heap.next [] s.u.heap.next)
    rw [update_self]
    exact .nil

variable {k : Key} {es : List (Key × ℕ)}

/-- The zval for an element under a new key. -/
theorem Corr.slotFor (h : Corr H s) (hf : Filling H s m b es)
    (hk : ∀ e ∈ s.u.heap.table b, e.1 ≠ k) :
    ∃ u, s.u.slotFor b k = (s.u.heap.next, u) ∧ Corr H { s with u := u } ∧
      Waits { s with u := u } s.u.heap.next ∧
      Ext H (fun _ => False) (· = b) s { s with u := u } ∧
      u.heap.table b = s.u.heap.table b ++ [(k, s.u.heap.next)] := by
  have hfind : (s.u.heap.table b).find? (fun e => e.1 = k) = none := by
    rw [find?_eq_none]
    intro e he
    rw [decide_eq_true_eq]
    exact hk e he
  have hzval : update s.u.heap.zval s.u.heap.next .undef = s.u.heap.zval := by
    rw [← h.heap.zval_lt s.u.heap.next le_rfl, update_eq_self]
  have hb : b < s.u.heap.next := h.heap.arr_lt m b hf.zval
  -- only the zval that is being filled holds the array
  have howner : ∀ y z, s.source y = some z → s.u.heap.zval y ≠ .arr b := by
    intro y z hy hyb
    obtain rfl := h.heap.arr_inj y m b hyb hf.zval
    exact some_ne_none z (hy.symm.trans hf.source)
  refine ⟨_, by rw [Unserializer.slotFor, hfind], ?_, ?_, ?_, update_self ..⟩
  · rw [hzval]
    refine h.change (h.heap.append hb k) ?_ (Nat.le_succ _) h.ref_cell
    intro y z hy
    refine ⟨rfl, fun c hc => update_of_ne ?_ .., fun _ _ h => h⟩
    rintro rfl
    exact howner y z hy hc
  · exact ⟨Nat.lt_succ_self _, update_self .., h.source_next⟩
  · refine ⟨fun _ _ h => h, fun _ _ h => h, fun _ _ h => .inl h, fun y _ _ hs => ⟨?_, hs⟩,
      fun a _ ha => update_of_ne ha .., ⟨[], (append_nil _).symm⟩, Nat.le_succ _⟩
    exact congrFun hzval y

/-! ## The elements -/

section Elements

variable {other : ℕ → Bytes → Unserializer → Option (Bytes × Unserializer)}
  {fuel x a : ℕ} (hwf : H.WellFormed l)
  (hnum : ∀ x a t y, H.Part l x → H.zval (H.deref x) = .arr a → (.str t, y) ∈ H.table a →
    handleNumeric t = none)
  (hx : Piece H l x) (ha : H.zval (H.deref x) = .arr a) (hwrites : ∀ y, Piece H l y →
    H.height y < H.height x → Writes (serializeIntern H fuel) y)
  (ih : ∀ y, Piece H l y → H.height y < H.height x → ∀ s m, Corr H s → Waits s m → Ready H s y →
    Idle H s.d y → Counted H y → RoundTrip H other fuel s m y)

include hwf hx ha

variable {y : ℕ}

/-- The array of an element is not the array it is in, and lies idle. -/
theorem idle_element {d : SerializeData} (hidle : Idle H d x) {c : ℕ} (hy : (k, y) ∈ H.table a)
    (hc : H.zval (H.deref (H.unwrap y)) = .arr c) : c ≠ a ∧ d.applyCount c = 0 := by
  obtain ⟨z, hz, hxz⟩ := hx
  have ha' : H.zval (H.deref z) = .arr a := hxz ▸ ha
  have hholds : H.Holds a c := by
    refine ⟨(k, y), hy, ?_⟩
    rw [← deref_unwrap (hwf.value y (.element hz ha' hy))]
    exact hc
  refine ⟨?_, hidle a c ha (.single hholds)⟩
  rintro rfl
  exact hwf.acyclic z c hz ha' (.single hholds)

include ih

variable {t : Bytes}

variable {d' : SerializeData}

/-- The value of an element is read back, the counter of its own array apart. -/
theorem reads_data (h : Corr H s) (hm : Waits s m) (hidle : Idle H s.d x) (hy : (k, y) ∈ H.table a)
    (hready : Ready H s (H.unwrap y))
    (hser : serializeData H (serializeIntern H fuel) a s.d (H.unwrap y) = some (t, d'))
    (hn : d'.n < 2 ^ 32) : Reads H other s m (H.unwrap y) t d' := by
  obtain ⟨hpiece, hheight, hderef⟩ := hx.element hwf ha hy
  have hcounted := hx.counted hwf ha hy
  have hbelow : Idle H s.d (H.unwrap y) := by
    intro c e hc hce
    refine hidle a e ha (.head ?_ hce)
    exact ⟨(k, y), hy, hderef ▸ hc⟩
  cases hz : H.zval (H.unwrap y) with
  | arr c =>
    have hself : H.deref (H.unwrap y) = H.unwrap y := deref_of_ne_ref (by simp [hz])
    obtain ⟨hca, hcount⟩ := idle_element hwf hx ha hidle hy (hself ▸ hz)
    have hcheck : ¬ (c = a ∨ 1 < s.d.applyCount c) := by omega
    simp only [serializeData, hz, if_neg hcheck] at hser
    obtain ⟨⟨t1, d1⟩, hser1, heq⟩ := map_eq_some_iff.mp hser
    obtain ⟨rfl, rfl⟩ := Prod.mk.inj heq
    obtain ⟨hpn, hpht⟩ := protect_n (H := H) s.d c
    obtain ⟨hun, huht⟩ := unprotect_n (H := H) d1 c
    have hidle' : Idle H (s.d.protect H c) (H.unwrap y) := by
      intro c' e hc' hce
      obtain rfl : c' = c := by
        rw [hself, hz, Zval.arr.injEq] at hc'
        exact hc'.symm
      obtain ⟨z, hz', hyz⟩ := hpiece
      have hec : e ≠ c' := by
        rintro rfl
        exact hwf.acyclic z e hz' (hyz ▸ hc') hce
      rw [SerializeData.protect]
      split
      · exact (update_of_ne hec ..).trans (hbelow c' e hc' hce)
      · exact hbelow c' e hc' hce
    have hready' : Ready H { s with d := s.d.protect H c } (H.unwrap y) :=
      fun e k hk he => hready e k ((congrFun hpht e).symm.trans hk) he
    have hreads := ih _ hpiece hheight { s with d := s.d.protect H c } m (h.withData hpn hpht)
      ⟨hm.lt, hm.undef, hm.source⟩ hready' hidle' hcounted t1 d1 hser1
      (hun ▸ hn)
    intro rest f hf
    obtain ⟨s', hd', hread, hcorr, hext, hsource⟩ := hreads rest f hf
    refine ⟨{ s' with d := d1.unprotect H c }, rfl, hread, hcorr.withData ?_ ?_, ?_, hsource⟩
    · rw [hun, hd']
    · rw [huht, hd']
    · have hback : Ext H (· = m) (fun _ => False)
          { { s with d := s.d.protect H c } with d := s.d } { s' with d := d1.unprotect H c } :=
        hext.withData hpht.symm (hd' ▸ huht)
      exact hback
  | _ =>
    simp only [serializeData, hz] at hser
    exact ih _ hpiece hheight s m h hm hready hbelow hcounted t d' hser hn

include hnum

/-- One element is entered and read. -/
theorem reads_element (h : Corr H s) (hf : Filling H s m b es) (hidle : Idle H s.d x)
    (hy : (k, y) ∈ H.table a) (hfresh : ∀ e ∈ es, e.1 ≠ k) (hready : Ready H s (H.unwrap y))
    (hser : serializeData H (serializeIntern H fuel) a s.d (H.unwrap y) = some (t, d'))
    (hn : d'.n < 2 ^ 32) (rest : Bytes) {f : ℕ} (hlen : t.length < f) :
    ∃ key u s', scan (serializeKey k ++ t ++ rest) = some (key, t ++ rest) ∧ keyOf key = some k ∧
      s.u.slotFor b k = (s.u.heap.next, u) ∧ s'.d = d' ∧
      unserializeInternal other f s.u.heap.next (t ++ rest) u = some (rest, s'.u) ∧ Corr H s' ∧
      Ext H (fun _ => False) (· = b) s s' ∧ Filling H s' m b (es ++ [(k, y)]) ∧
      s'.u.heap.zval s.u.heap.next ≠ .undef := by
  obtain ⟨z, hz, hxz⟩ := id hx
  have ha' : H.zval (H.deref z) = .arr a := hxz ▸ ha
  obtain ⟨key, hscan, hkey⟩ := scan_key (k := k)
    (fun q hq => hwf.key z a q y hz ha' (hq ▸ hy)) (fun q hq => hnum z a q y hz ha' (hq ▸ hy))
    (t ++ rest)
  have hnew : ∀ e ∈ s.u.heap.table b, e.1 ≠ k := by
    intro e he
    have hkeys : e.1 ∈ es.map Prod.fst := by
      rw [← copied_keys hf.copied]
      exact mem_map_of_mem he
    obtain ⟨e', he', hee⟩ := mem_map.mp hkeys
    rw [← hee]
    exact hfresh e' he'
  obtain ⟨u, hslot, hcorr, hwaits, hext, htable⟩ := h.slotFor hf hnew
  have hready' : Ready H { s with u := u } (H.unwrap y) := fun c j hj hc =>
    (hready c j hj hc).keep hext.source hext.slots
  obtain ⟨s', hd', hread, hcorr', hext', hsource⟩ :=
    reads_data hwf hx ha ih hcorr hwaits hidle hy hready' hser hn rest f hlen
  have hm : m < s.u.heap.next := h.heap.lt_of_ne (by simp [hf.zval])
  have hb : b < s.u.heap.next := h.heap.arr_lt m b hf.zval
  have hboth : Ext H (fun _ => False) (· = b) s s' := by
    refine hext.trans hext' ?_ fun _ _ h => h.elim
    rintro y hlt rfl
    exact absurd hlt (lt_irrefl _)
  refine ⟨key, u, s', by rw [append_assoc]; exact hscan, hkey, hslot, hd', hread, hcorr',
    hboth, ⟨?_, ?_, ?_⟩, hcorr'.ne_undef hsource⟩
  · exact (hboth.zval m hm (fun h => h) hf.source).1.trans hf.zval
  · exact (hboth.zval m hm (fun h => h) hf.source).2
  · rw [hext'.table b (lt_of_lt_of_le hb hext.next) (fun h => h)]
    rw [htable]
    refine rel_append (hf.copied.imp fun e e' he => ⟨he.1, hboth.source _ _ he.2⟩) ?_
    exact .cons ⟨rfl, hsource⟩ .nil

include hwrites

/-- The elements `es` that follow the ones entered. -/
theorem reads_elements {done : List (Key × ℕ)} (htable : H.table a = done ++ es)
    (h : Corr H s) (hf : Filling H s m b done) (hidle : Idle H s.d x)
    (hready : ∀ c k, s.d.ht c = some k → H.height c < H.height x → Done H s c k)
    (hser : serializeElements H (serializeIntern H fuel) a s.d es = some (t, d'))
    (hn : d'.n < 2 ^ 32) (rest : Bytes) {f : ℕ} (hlen : t.length < f) :
    ∃ s', s'.d = d' ∧ processNestedData (unserializeInternal other f) b es.length (t ++ rest) s.u
      = some (rest, s'.u) ∧ Corr H s' ∧ Ext H (fun _ => False) (· = b) s s' ∧
      Filling H s' m b (H.table a) := by
  induction es generalizing done s t with
  | nil =>
    obtain ⟨rfl, rfl⟩ := Prod.mk.inj (Option.some.inj hser)
    rw [append_nil] at htable
    exact ⟨s, rfl, rfl, h, .refl s, htable ▸ hf⟩
  | cons e es ihes =>
    obtain ⟨k, y⟩ := e
    have hy : (k, y) ∈ H.table a := by
      rw [htable]
      exact mem_append_right _ mem_cons_self
    have hpiece := hx.element hwf ha hy
    have hall : ∀ e ∈ es, Writes (serializeIntern H fuel) (H.unwrap e.2) := by
      intro e he
      have he' : e ∈ H.table a := htable ▸ mem_append_right _ (mem_cons_of_mem _ he)
      have := hx.element hwf ha he'
      exact hwrites _ this.1 this.2.1
    obtain ⟨t1, d1, hser1, hw⟩ :=
      writes_data (H := H) a (hwrites _ hpiece.1 hpiece.2.1) s.d
    obtain ⟨t2, d2, hser2, happ, hle, -⟩ := writes_elements (H := H) _ a es hall d1
    simp only [serializeElements, serializeElement, hser1, hser2, map_some, bind_some] at hser
    obtain ⟨rfl, rfl⟩ := Prod.mk.inj (Option.some.inj hser)
    have hfresh : ∀ e ∈ done, e.1 ≠ k := by
      obtain ⟨z, hz, hxz⟩ := hx
      have hnodup := hwf.nodup z a hz (hxz ▸ ha)
      rw [htable, map_append, nodup_append] at hnodup
      intro e he
      exact hnodup.2.2 e.1 (mem_map_of_mem he) k mem_cons_self
    rw [length_append, length_append] at hlen
    have hlen1 : t1.length < f := by omega
    have hlen2 : t2.length < f := by omega
    have hready1 : Ready H s (H.unwrap y) := fun c j hj hc =>
      hready c j hj (lt_of_le_of_lt hc hpiece.2.1)
    obtain ⟨key, u, s1, hscan, hkey, hslot, rfl, hread, hcorr, hext, hfilling, hne⟩ :=
      reads_element hwf hnum hx ha ih h hf hidle hy hfresh hready1 hser1 (lt_of_le_of_lt hle hn)
        (t2 ++ rest) hlen1
    have hidle1 : Idle H s1.d x := by
      intro c e hc hce
      rw [hw.applyCount]
      exact hidle c e hc hce
    have hready2 : ∀ c j, s1.d.ht c = some j → H.height c < H.height x → Done H s1 c j := by
      intro c j hj hc
      rcases hext.done c j hj with hold | hdone
      · exact (hready c j hold hc).keep hext.source hext.slots
      · exact hdone
    obtain ⟨s', hd', hreads, hcorr', hext', hfilling'⟩ := ihes
      (by rw [htable, append_assoc, singleton_append]) hcorr hfilling hidle1 hready2 hser2
      hlen2
    refine ⟨s', hd', ?_, hcorr', hext.trans hext' (fun _ _ h => h) (fun _ _ h => h), hfilling'⟩
    have hlast : ¬ (es.length ≠ 0 ∧ lastRead (t1 ++ (t2 ++ rest)) (t2 ++ rest) ≠ some ';'.toUInt8 ∧
        lastRead (t1 ++ (t2 ++ rest)) (t2 ++ rest) ≠ some '}'.toUInt8) := by
      rw [lastRead_append]
      rcases hw.last with hl | hl <;> simp [hl]
    have htext : serializeKey k ++ t1 ++ t2 ++ rest = serializeKey k ++ t1 ++ (t2 ++ rest) := by
      rw [append_assoc _ t2]
    rw [length_cons, processNestedData, htext, hscan]
    simp only [bind_some, hkey, hslot, hread, if_neg hne, if_neg hlast, hreads]

end Elements

/-! # Reading back what was serialized -/

variable {H : Heap} {l : ℕ} {s : Pair} {m x : ℕ}
  {other : ℕ → Bytes → Unserializer → Option (Bytes × Unserializer)}

/-! ## Arrays -/

/-- The location `m` is complete. -/
theorem Ext.close (hm : s.source m = none) {T : ℕ → Prop} :
    Ext H (· = m) T s { s with source := update s.source m (some x) } where
  source y z hy := by
    refine (update_of_ne ?_ ..).trans hy
    rintro rfl
    exact some_ne_none z (hy.symm.trans hm)
  ht _ _ hk := hk
  done _ _ hk := .inl hk
  zval y _ hym hy := ⟨rfl, (update_of_ne hym ..).trans hy⟩
  table _ _ _ := rfl
  slots := ⟨[], (append_nil _).symm⟩
  next := le_rfl

/-- The count of an array as the scanner reads it. -/
theorem count_toNat {n : ℕ} (hn : n < 2 ^ 32) :
    ¬ (BitVec.ofNat 64 n).toInt < 0 ∧ (BitVec.ofNat 64 n).toNat = n := by
  have hnat : (BitVec.ofNat 64 n).toNat = n := by
    rw [BitVec.toNat_ofNat, Nat.mod_eq_of_lt (by omega)]
  rw [BitVec.toInt_eq_toNat_of_lt (by omega)]
  omega

/-- The value of a reference lies as deep as what refers to it. -/
theorem height_ref {c : ℕ} (hv : HasValue H x) (hc : H.zval x = .ref c) :
    H.height c = H.height x := by
  apply height_congr
  rw [← deref_of_ref hc]
  exact hv.deref_deref

variable {a : ℕ}

theorem roundTrip_array (hwf : H.WellFormed l)
    (hnum : ∀ x a t y, H.Part l x → H.zval (H.deref x) = .arr a → (.str t, y) ∈ H.table a →
      handleNumeric t = none) {fuel : ℕ} (hx : Piece H l x) (ha : H.zval (H.deref x) = .arr a)
    (hfuel : H.height x < fuel + 1)
    (ih : ∀ y, Piece H l y → H.height y < H.height x → ∀ s m, Corr H s → Waits s m → Ready H s y →
      Idle H s.d y → Counted H y → RoundTrip H other fuel s m y)
    (h : Corr H s) (hm : Waits s m) (hnew : Unmet H s x) (hready : Ready H s x)
    (hidle : Idle H s.d x) : RoundTrip H other (fuel + 1) s m x := by
  intro t d' hser hn rest f hf
  obtain ⟨s1, hadd, hn1, hnumbered⟩ := exists_numbered h hm hnew
  simp only [serializeIntern, hadd, ha] at hser
  obtain ⟨⟨t1, d1⟩, hser1, heq⟩ := map_eq_some_iff.mp hser
  obtain ⟨rfl, rfl⟩ := Prod.mk.inj heq
  have hle : s1.d.n ≤ d1.n := by
    obtain ⟨t', d', hser', -, hle, -⟩ := writes_elements (H := H)
      (serializeIntern H fuel) a (H.table a) (fun e he => by
        obtain ⟨hpiece, hheight, -⟩ := hx.element hwf ha he
        exact writes_intern hwf fuel hpiece (by omega)) s1.d
    obtain ⟨rfl, rfl⟩ := Prod.mk.inj (Option.some.inj (hser'.symm.trans hser1))
    exact hle
  have hs1 := hnumbered (hn1 ▸ lt_of_le_of_lt hle hn)
  have hv := hx.value hwf
  have hcount : (H.table a).length < 2 ^ 32 := by
    obtain ⟨z, hz, hxz⟩ := hx
    exact hwf.count z a hz (hxz ▸ ha)
  obtain ⟨hcorr2, hext2, hfilling2⟩ := hs1.corr.arrayInit hs1.waits
  cases f with
  | zero => exact absurd hf (Nat.not_lt_zero _)
  | succ f =>
    have hlen : t1.length < f := by
      simp only [length_append, length_map, length_cons] at hf
      omega
    have hready2 : ∀ c k, s1.d.ht c = some k → H.height c < H.height x →
        Done H { s1 with u := s1.u.arrayInit m } c k := by
      intro c k hk hc
      rcases hs1.ready c k hk with hold | hself
      · refine (hready c k hold hc.le).keep (fun y z hy => ?_) ⟨[m], ?_⟩
        · exact (congrFun hs1.source y).trans hy
        · rw [hs1.unserializer]
          rfl
      · exact absurd (height_ref hv hself) hc.ne
    obtain ⟨s3, rfl, hread, hcorr3, hext3, hfilling3⟩ := reads_elements hwf hnum hx ha
      (fun y hy hyx => writes_intern hwf fuel hy (by omega)) ih
      (show H.table a = [] ++ H.table a from rfl) hcorr2 hfilling2
      (fun c e hc hce => (congrFun hs1.applyCount e).trans (hidle c e hc hce)) hready2 hser1 hn
      ('}'.toUInt8 :: rest) hlen
    have hext : Ext H (· = m) (fun _ => False) s1
        { s3 with source := update s3.source m (some x) } := by
      have hclose : Ext H (· = m) (fun _ => False) s3
          { s3 with source := update s3.source m (some x) } :=
        .close hfilling3.source
      refine (hext2.trans hext3 (fun _ _ h => h.elim) ?_).trans hclose (fun _ _ h => h)
        fun _ _ h => h
      rintro c hlt rfl
      exact absurd hlt (lt_irrefl _)
    have hplain : Plain H { s3 with source := update s3.source m (some x) } m
        (H.deref x) := by
      rw [Plain, ha]
      refine ⟨_, hfilling3.zval, hfilling3.copied.imp fun e e' he => ⟨he.1, ?_⟩⟩
      refine (update_of_ne ?_ ..).trans he.2
      rintro hem
      exact some_ne_none _ ((hem ▸ he.2).symm.trans hfilling3.source)
    have hmlt : m < s3.u.heap.next := hcorr3.heap.lt_of_ne (by simp [hfilling3.zval])
    have hcorr : Corr H { s3 with source := update s3.source m (some x) } := by
      refine hcorr3.close hmlt hfilling3.source hv (shown_of_plain hplain fun c hc => ?_)
      obtain ⟨k, hk, hslot⟩ := hs1.slot c hc
      obtain ⟨new, hslots⟩ := hext.slots
      have hslot' : s3.u.slots[k - 1]? = some m := by
        rw [hslots, getElem?_append_left]
        · exact hslot
        · exact (List.getElem?_eq_some_iff.mp hslot).1
      have hk' : s3.d.ht c = some k := hext.ht c k hk
      exact ⟨hcorr3.cell_none hk' hslot' hfilling3.source, k, hk', hslot'⟩
    refine ⟨{ s3 with source := update s3.source m (some x) }, rfl, ?_, hcorr,
      hs1.ext _ _ hext (update_self ..), update_self ..⟩
    have htext : text ['a', ':'] ++ Decimal.print (H.table a).length ++ text [':', '{'] ++ t1 ++
        text ['}'] ++ rest = text ['a', ':'] ++ Decimal.print (H.table a).length ++ text [':', '{']
          ++ (t1 ++ '}'.toUInt8 :: rest) := by
      simp only [append_assoc]
      rfl
    have hne : text ['a', ':'] ++ Decimal.print (H.table a).length ++ text [':', '{']
        ++ (t1 ++ '}'.toUInt8 :: rest) ≠ [] := by simp
    have hhead : (text ['a', ':'] ++ Decimal.print (H.table a).length ++ text [':', '{']
        ++ (t1 ++ '}'.toUInt8 :: rest)).head? ≠ some 'R'.toUInt8 := by
      change some 'a'.toUInt8 ≠ some 'R'.toUInt8
      decide
    obtain ⟨hnonneg, htoNat⟩ := count_toNat hcount
    rw [htext, unserializeInternal, scan_arr]
    simp only [if_neg hne, if_neg hhead, if_neg hnonneg, htoNat, ← hs1.unserializer, hread,
      bind_some, expect_cons, map_some]

/-! ## Values -/

/-- The text of a piece is read back. -/
theorem roundTrip_piece (hwf : H.WellFormed l)
    (hnum : ∀ x a t y, H.Part l x → H.zval (H.deref x) = .arr a → (.str t, y) ∈ H.table a →
      handleNumeric t = none) (fuel : ℕ) :
    ∀ x, Piece H l x → H.height x < fuel → ∀ s m, Corr H s → Waits s m → Ready H s x →
      Idle H s.d x → (∀ c k, H.zval x = .ref c → s.d.ht c = some k → 1 < H.refcount c) →
      RoundTrip H other fuel s m x := by
  induction fuel with
  | zero =>
    intro x _ hfuel
    exact absurd hfuel (Nat.not_lt_zero _)
  | succ fuel ih =>
    intro x hx hfuel s m h hm hready hidle hshared
    have hv := hx.value hwf
    by_cases hnew : Unmet H s x
    · cases hz : H.zval (H.deref x) with
      | undef => exact absurd hz hv.1
      | ref c => exact absurd hz (hv.2 c)
      | arr a =>
        exact roundTrip_array hwf hnum hx hz hfuel
          (fun y hy hyx s m h hm hready hidle hc =>
            ih y hy (by omega) s m h hm hready hidle fun c _ hy _ => hc c hy)
          h hm hnew hready hidle
      | null =>
        refine roundTrip_scalar (t := text ['N', ';']) h hm hv hnew hz (by simp) ?_ ?_
        · intro d d1 hadd
          simp only [serializeIntern, hadd, hz]
        · intro rest f
          rfl
      | bool b =>
        cases b with
        | false =>
          refine roundTrip_scalar (t := text ['b', ':', '0', ';']) h hm hv hnew hz (by simp) ?_ ?_
          · intro d d1 hadd
            simp only [serializeIntern, hadd, hz]
          · intro rest f
            rfl
        | true =>
          refine roundTrip_scalar (t := text ['b', ':', '1', ';']) h hm hv hnew hz (by simp) ?_ ?_
          · intro d d1 hadd
            simp only [serializeIntern, hadd, hz]
          · intro rest f
            rfl
      | long v =>
        refine roundTrip_scalar (t := serializeLong v) h hm hv hnew hz (by simp) ?_ ?_
        · intro d d1 hadd
          simp only [serializeIntern, hadd, hz]
        · intro rest f
          rw [unserializeInternal, scan_long]
          rfl
      | str q =>
        have hq : q.length < 2 ^ 64 := by
          obtain ⟨z, hpart, hxz⟩ := hx
          exact hwf.string z q hpart (hxz ▸ hz)
        refine roundTrip_scalar (t := serializeString q) h hm hv hnew hz (by simp) ?_ ?_
        · intro d d1 hadd
          simp only [serializeIntern, hadd, hz]
        · intro rest f
          rw [unserializeInternal, scan_string hq]
          rfl
    · rw [Unmet] at hnew
      push Not at hnew
      obtain ⟨c, hc, hsome⟩ := hnew
      obtain ⟨k, hk⟩ := ne_none_iff_exists'.mp hsome
      intro t d' hser hn
      exact roundTrip_backRef h hm hc hv hk (hready c k hk (height_ref hv hc).le)
        (hshared c k hc hk) t d' hser hn

/-! ## The round trip -/

/-- Before the first value. -/
def Pair.start : Pair where
  d := { n := 0, ht := fun _ => none, applyCount := fun _ => 0 }
  u :=
    { heap :=
        { zval := fun _ => .undef, table := fun _ => [], refcount := fun _ => 0,
          applyProtection := fun _ => true, next := 1 },
      slots := [] }
  source := fun _ => none
  cell := fun _ => none

theorem corr_start : Corr H Pair.start where
  heap :=
    { pos := Nat.one_pos
      zval_lt := fun _ _ => rfl
      arr_lt := by simp [Pair.start]
      arr_inj := by simp [Pair.start]
      table_lt := fun _ _ => rfl
      elem := by simp [Pair.start]
      elem_inj := by simp [Pair.start]
      ref_lt := by simp [Pair.start]
      ref_val := by simp [Pair.start]
      ref_elem := by simp [Pair.start] }
  n_eq := rfl
  slot_lt := by simp [Pair.start]
  source_lt := by simp [Pair.start]
  value := by simp [Pair.start]
  shown := by simp [Pair.start]
  ht_pos := by simp [Pair.start]
  cell := by simp [Pair.start]
  ref_cell := by simp [Pair.start]
  shared := by simp [Pair.start]

/-- `serialize()` gives a text for every value, and `unserialize()` reads the whole of it
back, if no string key is taken for an integer and the numbers fit their 32 bits: the
value looks the same along every path, the same paths share variables, and the number of
a reference is the slot of what is read for it. -/
theorem unserialize_serialize (other) (hwf : H.WellFormed l)
    (hnum : ∀ x a t y, H.Part l x → H.zval (H.deref x) = .arr a → (.str t, y) ∈ H.table a →
      handleNumeric t = none) : ∃ t d, varSerialize H l = some (t, d) ∧ (d.n < 2 ^ 32 → ∃ u,
      varUnserialize other t = some ([], u) ∧ (∀ p, u.heap.view 0 p = H.view l p) ∧
      (∀ p q, H.SamePlace l p q ↔ u.heap.SamePlace 0 p q) ∧
      ∀ p y e, H.walk l p = some y → H.zval y = .ref e → 1 < H.refcount e →
        ∃ k slot m, d.ht e = some k ∧ 0 < k ∧ u.slots[k - 1]? = some slot ∧
          u.heap.walk 0 p = some m ∧ u.heap.deref slot = u.heap.deref m) := by
  have hroot : Piece H l l := ⟨l, .root, rfl⟩
  have hheight : H.height l < H.next + 1 := Nat.lt_succ_of_le (hwf.height_le .root)
  have hv : ∀ x, H.Part l x → HasValue H x := hwf.value
  obtain ⟨t, d, hser, -⟩ := writes_intern hwf (H.next + 1) hroot hheight Pair.start.d
  refine ⟨t, d, hser, fun hn => ?_⟩
  have hread : Reads H other Pair.start 0 l t d :=
    roundTrip_piece hwf hnum (H.next + 1) l hroot hheight Pair.start 0 corr_start
      ⟨Nat.one_pos, rfl, rfl⟩ (fun c k hk => absurd hk (by simp [Pair.start])) (fun _ _ _ _ => rfl)
      (fun c k _ hk => absurd hk (by simp [Pair.start])) t d hser hn
  obtain ⟨s', rfl, hunser, hcorr, -, hsource⟩ := hread [] (t.length + 1) (Nat.lt_succ_self _)
  rw [append_nil] at hunser
  refine ⟨s'.u, hunser, view_eq hcorr hsource hv, samePlace_iff_samePlace hcorr hsource hv, ?_⟩
  intro p y e hy he hshared
  obtain ⟨b, hp⟩ := exists_at hy
  obtain ⟨m, c, hm⟩ := (exists_at_other hcorr hsource hv p).mpr ⟨y, b, hp⟩
  obtain ⟨k, slot, hk, h0, hslot, hderef⟩ := slot_of_ref hcorr hsource hv hp he hshared hm
  exact ⟨k, slot, m, hk, h0, hslot, hm.1, hderef⟩

/-! ## Two values -/

/-- A scalar of ordinary size. -/
def IsScalar : Zval → Prop
  | .undef => False
  | .arr _ => False
  | .ref _ => False
  | .str s => s.length < 2 ^ 64
  | _ => True

theorem part_of_flat (hl : H.zval (H.deref l) = .arr a)
    (hleaf : ∀ e ∈ H.table a, IsScalar (H.zval (H.deref e.2))) (hx : H.Part l x) :
    x = l ∨ IsScalar (H.zval (H.deref x)) := by
  induction hx with
  | root => exact .inl rfl
  | element _ ha hy ih =>
    rcases ih with rfl | hscalar
    · obtain rfl := Zval.arr.inj (hl.symm.trans ha)
      exact .inr (hleaf _ hy)
    · rw [ha] at hscalar
      exact hscalar.elim

/-- An array of scalars. -/
theorem wellFormed_of_flat (hl : H.zval (H.deref l) = .arr a) (hbound : a < H.next)
    (hleaf : ∀ e ∈ H.table a, IsScalar (H.zval (H.deref e.2)))
    (hkey : ∀ t y, (.str t, y) ∈ H.table a → t.length < 2 ^ 64)
    (hnodup : ((H.table a).map Prod.fst).Nodup) (hcount : (H.table a).length < 2 ^ 32)
    (hrefcount : ∀ c, 0 < H.refcount c) : H.WellFormed l := by
  have hcases : ∀ x b, H.Part l x → H.zval (H.deref x) = .arr b → b = a := by
    intro x b hx hb
    rcases part_of_flat hl hleaf hx with rfl | hscalar
    · exact Zval.arr.inj (hb.symm.trans hl)
    · rw [hb] at hscalar
      exact hscalar.elim
  refine ⟨fun x hx => ?_, fun x t hx ht => ?_, fun x b t y hx hb => ?_, fun x b hx hb => ?_,
    fun x b hx hb => ?_, fun x c _ _ => hrefcount c, fun x b hx hb => ?_, fun x b hx hb hin => ?_⟩
  · rcases part_of_flat hl hleaf hx with rfl | hscalar
    · rw [hl]
      simp
    · constructor
      · intro hundef
        rw [hundef] at hscalar
        exact hscalar
      · intro c hc
        rw [hc] at hscalar
        exact hscalar
  · rcases part_of_flat hl hleaf hx with rfl | hscalar
    · exact absurd (hl.symm.trans ht) (by simp)
    · rw [ht] at hscalar
      exact hscalar
  · rw [hcases x b hx hb]
    exact hkey t y
  · rw [hcases x b hx hb]
    exact hnodup
  · rw [hcases x b hx hb]
    exact hcount
  · rw [hcases x b hx hb]
    exact hbound
  · rw [hcases x b hx hb] at hin
    obtain ⟨c, ⟨e, he, hc⟩, -⟩ := Relation.TransGen.head'_iff.mp hin
    have hscalar := hleaf e he
    rw [hc] at hscalar
    exact hscalar

/-- Two elements that share a reference to an integer. -/
def sharedElements : Heap where
  zval
    | 0 => .arr 1
    | 2 => .ref 4
    | 3 => .ref 4
    | 4 => .long 7
    | _ => .undef
  table
    | 1 => [(.int 0, 2), (.int 1, 3)]
    | _ => []
  refcount _ := 2
  applyProtection _ := true
  next := 5

theorem wellFormed_sharedElements : sharedElements.WellFormed 0 := by
  apply wellFormed_of_flat (a := 1) rfl (by decide)
  · simp [sharedElements, IsScalar, Heap.deref]
  · simp [sharedElements]
  · decide
  · decide
  · exact fun _ => Nat.two_pos

/-- Two elements that share a reference share it again. -/
theorem unserialize_sharedElements : ∃ t d, varSerialize sharedElements 0 = some (t, d) ∧
    (d.n < 2 ^ 32 → ∃ u, varUnserialize (fun _ _ _ => none) t = some ([], u) ∧
      (∀ p, u.heap.view 0 p = sharedElements.view 0 p) ∧
      (∀ p q, sharedElements.SamePlace 0 p q ↔ u.heap.SamePlace 0 p q) ∧
      ∀ p y e, sharedElements.walk 0 p = some y → sharedElements.zval y = .ref e →
        1 < sharedElements.refcount e →
        ∃ k slot m, d.ht e = some k ∧ 0 < k ∧ u.slots[k - 1]? = some slot ∧
          u.heap.walk 0 p = some m ∧ u.heap.deref slot = u.heap.deref m) :=
  unserialize_serialize (fun _ _ _ => none) wellFormed_sharedElements (by
    intro x a t y hx ha hy
    rcases part_of_flat (a := 1) rfl (by simp [sharedElements, IsScalar, Heap.deref]) hx
      with rfl | hscalar
    · obtain rfl := Zval.arr.inj ha
      simp [sharedElements] at hy
    · rw [ha] at hscalar
      exact hscalar.elim)

/-- An element under a string key that is a number. -/
def numericKey : Heap where
  zval
    | 0 => .arr 1
    | 2 => .null
    | _ => .undef
  table
    | 1 => [(.str (text ['5']), 2)]
    | _ => []
  refcount _ := 1
  applyProtection _ := true
  next := 3

/-- The string key `"5"` is read back as the integer 5. -/
theorem unserialize_numericKey : numericKey.WellFormed 0 ∧ ∃ t d u,
    varSerialize numericKey 0 = some (t, d) ∧ d.n < 2 ^ 32 ∧
    varUnserialize (fun _ _ _ => none) t = some ([], u) ∧ u.heap.view 0 [] = some (.arr [.int 5]) ∧
    numericKey.view 0 [] = some (.arr [.str (text ['5'])]) ∧
    u.heap.view 0 [] ≠ numericKey.view 0 [] := by
  refine ⟨?_, text ['a', ':', '1', ':', '{', 's', ':', '1', ':', '"', '5', '"', ';', 'N', ';', '}'],
    _, _, rfl, ?_, rfl, rfl, rfl, ?_⟩
  · apply wellFormed_of_flat (a := 1) rfl (by decide)
    · simp [numericKey, IsScalar, Heap.deref]
    · simp [numericKey]
    · decide
    · decide
    · exact fun _ => Nat.one_pos
  · decide
  · intro hview
    have hkeys : (some (.arr [.int 5]) : Option Heap.View) = some (.arr [.str (text ['5'])]) :=
      hview
    simp at hkeys

end PhpVar
