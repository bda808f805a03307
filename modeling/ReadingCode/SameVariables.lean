/-
# Paths and the variables they lead to

A path leads to a zval and to the variable that it stands for.  The variable determines
the zval; where every zval has one owner, the zval determines the variable.
-/
import ReadingCode.SlotNumbers

namespace PhpVar

open List Option

variable {H : Heap} {l : ℕ} {p q : List ℕ} {x y : ℕ} {b : Heap.Place}

theorem deref_of_ne_ref (h : ∀ c, H.zval x ≠ .ref c) : H.deref x = x := by
  rw [Heap.deref]
  split
  · rename_i c hc
    exact absurd hc (h c)
  · rfl

variable {c : ℕ}

theorem deref_of_ref (h : H.zval x = .ref c) : H.deref x = c := by
  rw [Heap.deref, h]

/-- Elements are looked up behind a reference. -/
theorem element_congr (h : H.deref x = H.deref y) (i : ℕ) : H.element x i = H.element y i := by
  rw [Heap.element, Heap.element, h]

theorem element_eq_some {i : ℕ} (h : H.element x i = some y) :
    ∃ a k, H.zval (H.deref x) = .arr a ∧ (H.table a)[i]? = some (k, y) := by
  rw [Heap.element] at h
  split at h
  · rename_i a ha
    obtain ⟨⟨k, z⟩, hi, hz⟩ := map_eq_some_iff.mp h
    exact ⟨a, k, ha, hz ▸ hi⟩
  · exact absurd h (by simp)

theorem enter_ref (hc : H.zval x = .ref c) (hshared : 1 < H.refcount c) :
    H.enter b x = (some c, []) := by
  rw [Heap.enter, hc]
  exact if_pos hshared

theorem enter_cases (b : Heap.Place) (x : ℕ) :
    (∃ c, H.zval x = .ref c ∧ 1 < H.refcount c ∧ H.enter b x = (some c, [])) ∨ H.enter b x = b := by
  rw [Heap.enter]
  split
  · rename_i c hc
    split
    · rename_i hshared
      exact .inl ⟨c, hc, hshared, rfl⟩
    · exact .inr rfl
  · exact .inr rfl

/-! ## Paths -/

variable (H l) in
/-- The path `p` leads to the zval `x`, which is the variable `b`. -/
def At (p : List ℕ) (x : ℕ) (b : Heap.Place) : Prop :=
  H.walk l p = some x ∧ H.placeFrom (none, []) l p = some b

theorem At.nil (h : At H l [] x b) : x = l ∧ b = H.enter (none, []) l :=
  ⟨(Option.some.inj h.1).symm, (Option.some.inj h.2).symm⟩

theorem At.snoc {i : ℕ} (h : At H l (p ++ [i]) x b) : ∃ x0 b0, At H l p x0 b0 ∧
    H.element x0 i = some x ∧ b = H.enter (b0.1, b0.2 ++ [i]) x := by
  obtain ⟨hx, hb⟩ := h
  rw [Heap.walk_snoc] at hx
  rw [Heap.placeFrom_snoc] at hb
  obtain ⟨x0, hx0, hxi⟩ := bind_eq_some_iff.mp hx
  obtain ⟨b0, hb0, hbi⟩ := bind_eq_some_iff.mp hb
  rw [hx0, bind_some, hxi, map_some, Option.some.injEq] at hbi
  exact ⟨x0, b0, ⟨hx0, hb0⟩, hxi, hbi.symm⟩

/-- A path that leads to a zval leads to a variable. -/
theorem exists_at (h : H.walk l p = some x) : ∃ b, At H l p x b := by
  suffices hplace : ∀ b, ∃ b', H.placeFrom b l p = some b' by
    obtain ⟨b, hb⟩ := hplace (none, [])
    exact ⟨b, h, hb⟩
  induction p generalizing l with
  | nil => exact fun b => ⟨_, rfl⟩
  | cons i p ih =>
    intro b
    obtain ⟨y, hy, hx⟩ := bind_eq_some_iff.mp h
    obtain ⟨b', hb'⟩ := ih hx ((H.enter b l).1, (H.enter b l).2 ++ [i])
    refine ⟨b', ?_⟩
    rw [Heap.placeFrom, hy, bind_some, hb']

theorem walk_of_placeFrom {b0 : Heap.Place} (h : H.placeFrom b0 l p = some b) :
    ∃ x, H.walk l p = some x := by
  induction p generalizing l b0 with
  | nil => exact ⟨l, rfl⟩
  | cons i p ih =>
    obtain ⟨y, hy, hb⟩ := bind_eq_some_iff.mp h
    obtain ⟨x, hx⟩ := ih hb
    exact ⟨x, by rw [Heap.walk, hy, bind_some, hx]⟩

theorem samePlace_iff : H.SamePlace l p q ↔ ∃ x y b, At H l p x b ∧ At H l q y b := by
  constructor
  · rintro ⟨b, hp, hq⟩
    obtain ⟨x, hx⟩ := walk_of_placeFrom hp
    obtain ⟨y, hy⟩ := walk_of_placeFrom hq
    exact ⟨x, y, b, ⟨hx, hp⟩, ⟨hy, hq⟩⟩
  · rintro ⟨x, y, b, hp, hq⟩
    exact ⟨b, hp.2, hq.2⟩

/-- An element is part of the value. -/
theorem At.part (h : At H l p x b) : H.Part l x := by
  induction p using reverseRecOn generalizing x b with
  | nil => exact h.nil.1 ▸ .root
  | append_singleton p i ih =>
    obtain ⟨x0, b0, h0, hx, -⟩ := h.snoc
    obtain ⟨a, k, ha, hi⟩ := element_eq_some hx
    exact .element (ih h0) ha (mem_of_getElem? hi)

/-- At a shared reference a variable starts. -/
theorem At.eq_of_ref (h : At H l p x b) (hc : H.zval x = .ref c)
    (hshared : 1 < H.refcount c) : b = (some c, []) := by
  rcases eq_nil_or_concat p with rfl | ⟨p, i, rfl⟩
  · obtain ⟨rfl, rfl⟩ := h.nil
    exact enter_ref hc hshared
  · rw [concat_eq_append] at h
    obtain ⟨x0, b0, -, -, rfl⟩ := h.snoc
    exact enter_ref hc hshared

/-- A variable that starts at a reference with nothing after it is that reference. -/
theorem At.ref_of_nil (h : At H l p x (some c, [])) : H.zval x = .ref c ∧ 1 < H.refcount c := by
  have hcases : ∃ b0 : Heap.Place, (b0.1 = none ∨ b0.2 ≠ []) ∧ (some c, []) = H.enter b0 x := by
    rcases eq_nil_or_concat p with rfl | ⟨p, i, rfl⟩
    · obtain ⟨rfl, hb⟩ := h.nil
      exact ⟨_, .inl rfl, hb⟩
    · rw [concat_eq_append] at h
      obtain ⟨x0, b0, -, -, hb⟩ := h.snoc
      exact ⟨_, .inr (by simp), hb⟩
  obtain ⟨b0, hb0, henter⟩ := hcases
  rcases enter_cases (H := H) b0 x with ⟨e, he, hshared, hee⟩ | hsame
  · rw [hee, Prod.mk.injEq, Option.some.injEq] at henter
    rw [henter.1]
    exact ⟨he, hshared⟩
  · rw [hsame] at henter
    rw [← henter] at hb0
    rcases hb0 with hb0 | hb0 <;> simp at hb0

/-- The variable leads to the zval. -/
theorem At.leads (hflat : ∀ x, H.Part l x → H.deref (H.deref x) = H.deref x)
    (h : At H l p x b) : ∃ y, H.walk (b.1.getD l) b.2 = some y ∧ H.deref y = H.deref x := by
  have hshared : ∀ c, H.zval x = .ref c → H.walk c [] = some c ∧ H.deref c = H.deref x := by
    intro c hc
    refine ⟨rfl, ?_⟩
    rw [← deref_of_ref hc]
    exact hflat x h.part
  induction p using reverseRecOn generalizing x b with
  | nil =>
    obtain ⟨rfl, rfl⟩ := h.nil
    rcases enter_cases (H := H) (none, []) x with ⟨c, hc, -, hb⟩ | hb
    · rw [hb]
      exact ⟨c, hshared c hc⟩
    · rw [hb]
      exact ⟨x, rfl, rfl⟩
  | append_singleton p i ih =>
    obtain ⟨x0, b0, h0, hx, rfl⟩ := h.snoc
    rcases enter_cases (H := H) (b0.1, b0.2 ++ [i]) x with ⟨c, hc, -, hb⟩ | hb
    · rw [hb]
      exact ⟨c, hshared c hc⟩
    · obtain ⟨y, hy, hyx⟩ := ih h0 fun c hc => ⟨rfl, by
        rw [← deref_of_ref hc]
        exact hflat x0 h0.part⟩
      refine ⟨x, ?_, rfl⟩
      rw [hb, Heap.walk_snoc, hy, bind_some, element_congr hyx, hx]

/-- Zvals of one variable have one value. -/
theorem At.deref_eq (hflat : ∀ x, H.Part l x → H.deref (H.deref x) = H.deref x)
    (hp : At H l p x b) (hq : At H l q y b) : H.deref x = H.deref y := by
  obtain ⟨z, hz, hzx⟩ := hp.leads hflat
  obtain ⟨z', hz', hzy⟩ := hq.leads hflat
  obtain rfl := Option.some.inj (hz.symm.trans hz')
  exact hzx.symm.trans hzy

end PhpVar

/-!
# The text of a value

Every value gets a text, which is longer than what it numbers needs, and whose last byte
is one that may stand between two elements.
-/

namespace PhpVar

open List Option Function

variable {H : Heap} {l : ℕ}

/-! ## Pieces of a value -/

/-- What `x` leads to is part of the value at `l`. -/
def Piece (H : Heap) (l x : ℕ) : Prop := ∃ y, H.Part l y ∧ H.deref x = H.deref y

theorem height_congr {x y : ℕ} (h : H.deref x = H.deref y) : H.height x = H.height y := by
  rw [Heap.height, Heap.height, h]

theorem Piece.value {x : ℕ} (hx : Piece H l x) (hwf : H.WellFormed l) : HasValue H x := by
  obtain ⟨y, hy, hxy⟩ := hx
  rw [HasValue, hxy]
  exact hwf.value y hy

/-- What a reference holds stands for itself. -/
theorem HasValue.deref_deref {x : ℕ} (h : HasValue H x) : H.deref (H.deref x) = H.deref x :=
  deref_of_ne_ref h.2

/-- An element without its reference, if nothing else refers to it. -/
theorem deref_unwrap {x : ℕ} (h : HasValue H x) : H.deref (H.unwrap x) = H.deref x := by
  rw [Heap.unwrap]
  split
  · rename_i c hc
    split
    · rw [← deref_of_ref hc, h.deref_deref]
    · rfl
  · rfl

variable (H) in
/-- If `x` is a reference, more than one zval refers to it. -/
def Counted (x : ℕ) : Prop := ∀ c, H.zval x = .ref c → 1 < H.refcount c

theorem Piece.counted {x a y : ℕ} {k : Key} (hx : Piece H l x) (hwf : H.WellFormed l)
    (ha : H.zval (H.deref x) = .arr a) (hy : (k, y) ∈ H.table a) : Counted H (H.unwrap y) := by
  obtain ⟨z, hz, hxz⟩ := hx
  have hpart : H.Part l y := .element hz (hxz ▸ ha) hy
  intro c hc
  rw [Heap.unwrap] at hc
  split at hc
  · rename_i e he
    split at hc
    · have hv := hwf.value y hpart
      rw [deref_of_ref he] at hv
      exact absurd hc (hv.2 c)
    · obtain rfl : e = c := Zval.ref.inj (he.symm.trans hc)
      have := hwf.refcount y e hpart he
      omega
  · rename_i hno
    exact absurd hc (hno c)

/-- The elements of a piece. -/
theorem Piece.element {x a y : ℕ} {k : Key} (hx : Piece H l x) (hwf : H.WellFormed l)
    (ha : H.zval (H.deref x) = .arr a) (he : (k, y) ∈ H.table a) :
    Piece H l (H.unwrap y) ∧ H.height (H.unwrap y) < H.height x ∧
      H.deref (H.unwrap y) = H.deref y := by
  obtain ⟨z, hz, hxz⟩ := hx
  have ha' : H.zval (H.deref z) = .arr a := hxz ▸ ha
  have hy : H.Part l y := .element hz ha' he
  have hd : H.deref (H.unwrap y) = H.deref y := deref_unwrap (hwf.value y hy)
  refine ⟨⟨y, hy, hd⟩, ?_, hd⟩
  rw [height_congr hd, height_congr hxz]
  exact hwf.height_element hz ha' he

/-! ## Numbering -/

variable {d d' : SerializeData} {x : ℕ}

/-- A reference met before. -/
theorem addVarHash_found {c k : ℕ} (hx : H.zval x = .ref c) (hk : d.ht c = some k) :
    d.addVarHash H x = (k, d) := by
  simp only [SerializeData.addVarHash, hx, hk]
  rfl

/-- Any other value gets the next number, and a reference is entered under it. -/
theorem addVarHash_new (hx : ∀ c, H.zval x = .ref c → d.ht c = none) :
    ∃ d', d.addVarHash H x = (0, d') ∧ d'.n = d.n + 1 ∧ d'.applyCount = d.applyCount ∧
      (∀ c k, d.ht c = some k → d'.ht c = some k) ∧
      (∀ c k, d'.ht c = some k → d.ht c = some k ∨ (H.zval x = .ref c ∧ k = (d.n + 1) % 2 ^ 32)) ∧
      ∀ c, H.zval x = .ref c → d'.ht c = some ((d.n + 1) % 2 ^ 32) := by
  cases hz : H.zval x with
  | ref c =>
    have hnone := hx c hz
    refine ⟨{ d with n := d.n + 1, ht := update d.ht c (some ((d.n + 1) % 2 ^ 32)) }, ?_,
      rfl, rfl, ?_, ?_, ?_⟩
    · simp only [SerializeData.addVarHash, hz, hnone]
    · intro e k hk
      refine (update_of_ne ?_ ..).trans hk
      rintro rfl
      exact some_ne_none k (hk.symm.trans hnone)
    · intro e k hk
      by_cases he : e = c
      · subst he
        have hself : update d.ht e (some ((d.n + 1) % 2 ^ 32)) e = some k := hk
        rw [update_self] at hself
        exact .inr ⟨rfl, (Option.some.inj hself).symm⟩
      · exact .inl ((update_of_ne he ..).symm.trans hk)
    · intro e he
      rw [Zval.ref.injEq] at he
      subst he
      exact update_self ..
  | _ =>
    refine ⟨{ d with n := d.n + 1 }, ?_, rfl, rfl, fun _ _ h => h, fun _ _ h => .inl h, ?_⟩
    · simp only [SerializeData.addVarHash, hz]
    · intro e he
      exact absurd he (by simp)

/-! ## Texts -/

/-- The text of a value and what the serializer notes meanwhile. -/
structure Written (d : SerializeData) (t : Bytes) (d' : SerializeData) : Prop where
  applyCount : d'.applyCount = d.applyCount
  n_le : d.n ≤ d'.n
  length : 2 * d'.n ≤ 2 * d.n + t.length
  last : t.getLast? = some ';'.toUInt8 ∨ t.getLast? = some '}'.toUInt8

/-- Whatever number a value gets, at most one more is in use. -/
theorem addVarHash_le (d : SerializeData) (x : ℕ) : ∃ k d', d.addVarHash H x = (k, d') ∧
    d'.applyCount = d.applyCount ∧ d.n ≤ d'.n ∧ d'.n ≤ d.n + 1 := by
  by_cases hnew : ∀ c, H.zval x = .ref c → d.ht c = none
  · obtain ⟨d', hadd, hn, happ, -⟩ := addVarHash_new hnew
    exact ⟨0, d', hadd, happ, hn ▸ Nat.le_succ _, hn.le⟩
  · push Not at hnew
    obtain ⟨c, hc, hsome⟩ := hnew
    obtain ⟨k, hk⟩ := ne_none_iff_exists'.mp hsome
    exact ⟨k, d, addVarHash_found hc hk, rfl, le_rfl, Nat.le_succ _⟩

/-- A text of one token. -/
theorem Written.token {t : Bytes} (happ : d'.applyCount = d.applyCount)
    (hle : d.n ≤ d'.n) (hn : d'.n ≤ d.n + 1) (hlen : 2 ≤ t.length)
    (hlast : t.getLast? = some ';'.toUInt8) : Written d t d' where
  applyCount := happ
  n_le := hle
  length := by omega
  last := .inl hlast

/-- A text that ends with a semicolon. -/
theorem getLast?_semicolon (t : Bytes) : (t ++ text [';']).getLast? = some ';'.toUInt8 := by
  rw [getLast?_append]
  rfl

theorem unprotect_protect (b : ℕ) (h : d'.applyCount = (d.protect H b).applyCount) :
    (d'.unprotect H b).applyCount = d.applyCount := by
  rw [SerializeData.protect] at h
  rw [SerializeData.unprotect]
  split
  · rename_i hb
    have hone : d'.applyCount = update d.applyCount b (d.applyCount b + 1) := by
      rw [h, if_pos hb]
    rw [hone, update_self, Nat.add_sub_cancel, update_idem, update_eq_self]
  · rename_i hb
    rw [h, if_neg hb]

theorem unprotect_n (d : SerializeData) (b : ℕ) :
    (d.unprotect H b).n = d.n ∧ (d.unprotect H b).ht = d.ht := by
  rw [SerializeData.unprotect]
  split <;> exact ⟨rfl, rfl⟩

theorem protect_n (d : SerializeData) (b : ℕ) :
    (d.protect H b).n = d.n ∧ (d.protect H b).ht = d.ht := by
  rw [SerializeData.protect]
  split <;> exact ⟨rfl, rfl⟩

variable (H) in
/-- A way to serialize that gives a text. -/
def Writes (serialize : SerializeData → ℕ → Option (Bytes × SerializeData)) (x : ℕ) : Prop :=
  ∀ d, ∃ t d', serialize d x = some (t, d') ∧ Written d t d'

variable {serialize : SerializeData → ℕ → Option (Bytes × SerializeData)}

theorem writes_data (a : ℕ) (h : Writes serialize x) : Writes (serializeData H serialize a) x := by
  intro d
  cases hz : H.zval x with
  | arr b =>
    by_cases hb : b = a ∨ 1 < d.applyCount b
    · refine ⟨text ['N', ';'], d, ?_, .token rfl le_rfl (Nat.le_succ _) le_rfl rfl⟩
      simp only [serializeData, hz, if_pos hb]
    · obtain ⟨t, d', hser, hw⟩ := h (d.protect H b)
      refine ⟨t, d'.unprotect H b, ?_, unprotect_protect b hw.applyCount, ?_, ?_, hw.last⟩
      · simp only [serializeData, hz, if_neg hb, hser, map_some]
      · rw [(unprotect_n d' b).1, ← (protect_n (H := H) d b).1]
        exact hw.n_le
      · rw [(unprotect_n d' b).1, ← (protect_n (H := H) d b).1]
        exact hw.length
  | _ =>
    obtain ⟨t, d', hser, hw⟩ := h d
    refine ⟨t, d', ?_, hw⟩
    simp only [serializeData, hz, hser]

/-- What the elements of an array add. -/
theorem writes_elements (serialize) (a : ℕ) (es : List (Key × ℕ))
    (h : ∀ e ∈ es, Writes serialize (H.unwrap e.2)) (d : SerializeData) :
    ∃ t d', serializeElements H serialize a d es = some (t, d') ∧ d'.applyCount = d.applyCount ∧
      d.n ≤ d'.n ∧ 2 * d'.n ≤ 2 * d.n + t.length := by
  induction es generalizing d with
  | nil => exact ⟨[], d, rfl, rfl, le_rfl, Nat.le_add_right _ _⟩
  | cons e es ih =>
    obtain ⟨t, d1, hser, hw⟩ := writes_data (H := H) a (h e mem_cons_self) d
    obtain ⟨t', d', hsers, happ, hle, hlen⟩ := ih (fun e' he => h e' (mem_cons_of_mem _ he)) d1
    refine ⟨serializeKey e.1 ++ t ++ t', d', ?_, happ.trans hw.applyCount, hw.n_le.trans hle, ?_⟩
    · simp only [serializeElements, serializeElement, hser, hsers, map_some, bind_some]
    · have := hw.length
      rw [length_append, length_append]
      omega

/-- Every piece of a value has a text. -/
theorem writes_intern (hwf : H.WellFormed l) (fuel : ℕ) (hx : Piece H l x)
    (hfuel : H.height x < fuel) : Writes (serializeIntern H fuel) x := by
  induction fuel generalizing x with
  | zero => exact absurd hfuel (Nat.not_lt_zero _)
  | succ fuel ih =>
    intro d
    obtain ⟨k, d1, hadd, happ, hle, hn⟩ := addVarHash_le (H := H) d x
    cases k with
    | succ k =>
      refine ⟨_, d1, by rw [serializeIntern, hadd], .token happ hle hn ?_ (getLast?_semicolon _)⟩
      simp only [length_append, length_map, length_cons]
      omega
    | zero =>
      cases hz : H.zval (H.deref x) with
      | arr a =>
        obtain ⟨t, d', hser, happ', hle', hlen⟩ := writes_elements (H := H)
          (serializeIntern H fuel) a (H.table a) (fun e he => by
            obtain ⟨hpiece, hheight, -⟩ := hx.element hwf hz he
            exact ih hpiece (by omega)) d1
        refine ⟨_, d', by simp only [serializeIntern, hadd, hz, hser, map_some]; rfl,
          happ'.trans happ, hle.trans hle', ?_, .inr ?_⟩
        · simp only [length_append, length_map, length_cons]
          omega
        · rw [getLast?_append]
          rfl
      | bool b =>
        have hlen : ∀ c, 2 ≤ (text ['b', ':', c, ';']).length := fun c => by
          simp only [length_map, length_cons]
          omega
        cases b with
        | false =>
          exact ⟨text ['b', ':', '0', ';'], d1, by simp only [serializeIntern, hadd, hz],
            .token happ hle hn (hlen _) rfl⟩
        | true =>
          exact ⟨text ['b', ':', '1', ';'], d1, by simp only [serializeIntern, hadd, hz],
            .token happ hle hn (hlen _) rfl⟩
      | null =>
        exact ⟨text ['N', ';'], d1, by simp only [serializeIntern, hadd, hz],
          .token happ hle hn le_rfl rfl⟩
      | long v =>
        refine ⟨serializeLong v, d1, by simp only [serializeIntern, hadd, hz],
          .token happ hle hn ?_ (getLast?_semicolon _)⟩
        simp only [serializeLong, length_append, length_map, length_cons]
        omega
      | str s =>
        refine ⟨serializeString s, d1, by simp only [serializeIntern, hadd, hz],
          .token happ hle hn ?_ ?_⟩
        · simp only [serializeString, length_append, length_map, length_cons]
          omega
        · rw [serializeString, getLast?_append]
          rfl
      | _ =>
        refine ⟨text ['i', ':', '0', ';'], d1, by simp only [serializeIntern, hadd, hz],
          .token happ hle hn ?_ rfl⟩
        decide

/-! # The value read back -/

variable {H : Heap} {l : ℕ} {s : Pair} {m m' x y : ℕ} {p q : List ℕ} {b b' c c' : Heap.Place}

/-! ## Zvals and their copies -/

variable (H) in
/-- The location `m` is a copy of the zval `y`, which may have lost a reference that
nothing else refers to. -/
def Stands (s : Pair) (m y : ℕ) : Prop :=
  ∃ x, s.source m = some x ∧ (x = y ∨ x = H.unwrap y)

theorem Stands.source (h : Stands H s m y) (hv : HasValue H y) :
    ∃ x, s.source m = some x ∧ H.deref x = H.deref y := by
  obtain ⟨x, hx, rfl | rfl⟩ := h
  · exact ⟨x, hx, rfl⟩
  · exact ⟨_, hx, deref_unwrap hv⟩

/-- What a copy of a reference stands for is the reference. -/
theorem Stands.of_ref (h : Stands H s m y) (hv : HasValue H y) {e : ℕ} (hx : s.source m = some x)
    (he : H.zval x = .ref e) : H.zval y = .ref e := by
  obtain ⟨z, hz, hzy⟩ := h
  obtain rfl := Option.some.inj (hx.symm.trans hz)
  rcases hzy with rfl | rfl
  · exact he
  · rw [Heap.unwrap] at he
    split at he
    · rename_i e' he'
      split at he
      · have hne := hv.2 e
        rw [deref_of_ref he'] at hne
        exact absurd he hne
      · exact he
    · exact he

/-- A reference that more than one zval refers to is kept. -/
theorem Stands.ref (h : Stands H s m y) {e : ℕ} (he : H.zval y = .ref e)
    (hshared : 1 < H.refcount e) : s.source m = some y := by
  obtain ⟨x, hx, rfl | rfl⟩ := h
  · exact hx
  · have hkeep : H.unwrap y = y := by
      rw [Heap.unwrap, he]
      exact if_neg hshared.ne'
    exact hkeep ▸ hx

namespace Corr

/-- A reference in the new value comes from one in the old value. -/
theorem source_ref (h : Corr H s) (hx : s.source m = some x) {e' : ℕ}
    (hm : s.u.heap.zval m = .ref e') : ∃ e, H.zval x = .ref e ∧ s.cell e = some e' := by
  have hs := h.shown m x hx
  have hv := h.value m x hx
  cases hz : H.zval x with
  | ref e =>
    rw [Shown, hz] at hs
    have hve := hv.2
    rw [deref_of_ref hz] at hve
    rcases hs with ⟨e1, he1, hm1⟩ | ⟨-, hp, -⟩
    · rw [hm, Zval.ref.injEq] at hm1
      exact ⟨e, rfl, hm1 ▸ he1⟩
    · exact absurd hm (hp.ne_ref hve e')
  | _ =>
    rw [Shown, hz] at hs
    have hp : Plain H s m x := hs
    exact absurd hm (hp.ne_ref (by simp [hz]) e')

/-- The copies of one reference are one variable. -/
theorem deref_eq (h : Corr H s) {e : ℕ} (hx : s.source m = some x) (hy : s.source m' = some y)
    (hxe : H.zval x = .ref e) (hye : H.zval y = .ref e) : s.u.heap.deref m = s.u.heap.deref m' := by
  have hsx := h.shown m x hx
  have hsy := h.shown m' y hy
  rw [Shown, hxe] at hsx
  rw [Shown, hye] at hsy
  rcases hsx with ⟨e1, he1, hm1⟩ | ⟨hnone, -, k, hk, hslot⟩
  · rcases hsy with ⟨e2, he2, hm2⟩ | ⟨hnone', -⟩
    · obtain rfl := Option.some.inj (he1.symm.trans he2)
      rw [deref_of_ref hm1, deref_of_ref hm2]
    · exact absurd (he1.symm.trans hnone') (by simp)
  · rcases hsy with ⟨e2, he2, -⟩ | ⟨-, -, k', hk', hslot'⟩
    · exact absurd (he2.symm.trans hnone) (by simp)
    · obtain rfl := Option.some.inj (hk.symm.trans hk')
      rw [Option.some.inj (hslot.symm.trans hslot')]

/-- Behind its references a location holds a copy of the value. -/
theorem plain_deref (h : Corr H s) (hx : s.source m = some x) :
    Plain H s (s.u.heap.deref m) (H.deref x) := by
  have hs := h.shown m x hx
  have hv := h.value m x hx
  have hnoref : Plain H s m (H.deref x) → Plain H s (s.u.heap.deref m) (H.deref x) := by
    intro hp
    rwa [deref_of_ne_ref fun e => hp.ne_ref hv.2 e]
  cases hz : H.zval x with
  | ref e =>
    rw [deref_of_ref hz] at hnoref ⊢
    rw [Shown, hz] at hs
    rcases hs with ⟨e', he', hm⟩ | ⟨-, hp, -⟩
    · rw [deref_of_ref hm]
      obtain ⟨hsource, hve, -⟩ := h.cell e e' he'
      have hshown := h.shown e' e hsource
      rw [Shown] at hshown
      split at hshown
      · rename_i e1 he1
        exact absurd he1 (hve e1)
      · exact hshown
    · exact hnoref hp
  | _ =>
    have hself : H.deref x = x := deref_of_ne_ref (by simp [hz])
    rw [hself] at hnoref ⊢
    rw [Shown, hz] at hs
    exact hnoref hs

variable (h : Corr H s)

include h

/-- A copy looks like the zval. -/
theorem look_eq (hm : Stands H s m y) (hv : HasValue H y) : s.u.heap.look m = H.look y := by
  obtain ⟨x, hx, hxy⟩ := hm.source hv
  have hp := h.plain_deref hx
  rw [hxy, Plain] at hp
  rw [Heap.look, Heap.look]
  cases hz : H.zval (H.deref y) with
  | arr a =>
    rw [hz] at hp
    obtain ⟨b, hb, hall⟩ := hp
    rw [hb]
    simp only [copied_keys hall]
  | _ =>
    rw [hz] at hp
    rw [show s.u.heap.zval _ = _ from hp]

/-- The elements of a copy are copies of the elements. -/
theorem element_rel (hm : Stands H s m y) (hv : HasValue H y) (i : ℕ) :
    Option.Rel (Stands H s) (s.u.heap.element m i) (H.element y i) := by
  obtain ⟨x, hx, hxy⟩ := hm.source hv
  have hp := h.plain_deref hx
  rw [hxy, Plain] at hp
  rw [Heap.element, Heap.element]
  cases hz : H.zval (H.deref y) with
  | arr a =>
    rw [hz] at hp
    obtain ⟨b, hb, hall⟩ := hp
    rw [hb]
    simp only
    generalize H.table a = es, s.u.heap.table b = es' at hall
    induction hall generalizing i with
    | nil => exact .none
    | cons he _ ih =>
      cases i with
      | zero => exact .some ⟨_, he.2, .inr rfl⟩
      | succ i => exact ih i
  | ref e => exact absurd hz (hv.2 e)
  | _ =>
    rw [hz] at hp
    rw [show s.u.heap.zval _ = _ from hp]
    exact .none

end Corr

/-! ## Paths -/

section Paths

variable (h : Corr H s) (hroot : s.source 0 = some l) (hv : ∀ x, H.Part l x → HasValue H x)

include h hroot hv

/-- The same paths exist on both sides. -/
theorem walk_rel (p : List ℕ) : Option.Rel (Stands H s) (s.u.heap.walk 0 p) (H.walk l p) := by
  induction p using List.reverseRecOn with
  | nil => exact .some ⟨l, hroot, .inl rfl⟩
  | append_singleton p i ih =>
    rw [Heap.walk_snoc, Heap.walk_snoc]
    generalize hm : s.u.heap.walk 0 p = om, hy : H.walk l p = oy at ih
    cases ih with
    | none => exact .none
    | some hstands =>
      obtain ⟨b, hb⟩ := exists_at hy
      exact h.element_rel hstands (hv _ hb.part) i

/-- Both values look the same along every path. -/
theorem view_eq (p : List ℕ) : s.u.heap.view 0 p = H.view l p := by
  have hrel := walk_rel h hroot hv p
  rw [Heap.view, Heap.view]
  generalize hm : s.u.heap.walk 0 p = om, hy : H.walk l p = oy at hrel
  cases hrel with
  | none => rfl
  | some hstands =>
    obtain ⟨b, hb⟩ := exists_at hy
    exact congrArg some (h.look_eq hstands (hv _ hb.part))

/-- A location on a path stands for the zval on the path. -/
theorem stands_of_at (hm : At s.u.heap 0 p m c) (hy : At H l p y b) : Stands H s m y := by
  have hrel := walk_rel h hroot hv p
  rw [hm.1, hy.1] at hrel
  cases hrel with
  | some hstands => exact hstands

omit hroot hv in
/-- Where the location is a reference, paths to one value come from one reference. -/
theorem same_of_ref (hp : At H l p x b) (hq : At H l q y b') (hx : Stands H s m x)
    (hy : Stands H s m' y) (hvx : HasValue H x) (hvy : HasValue H y) {e' : ℕ}
    (hm : s.u.heap.zval m = .ref e') (hm' : s.u.heap.zval m' = .ref e') : b = b' := by
  obtain ⟨x1, hx1, -⟩ := id hx
  obtain ⟨y1, hy1, -⟩ := id hy
  obtain ⟨e, he, hcell⟩ := h.source_ref hx1 hm
  obtain ⟨e1, he1, hcell1⟩ := h.source_ref hy1 hm'
  -- one new reference has one source
  obtain rfl : e = e1 :=
    Option.some.inj ((h.cell e e' hcell).1.symm.trans (h.cell e1 e' hcell1).1)
  have hshared := h.shared e e' hcell
  rw [hp.eq_of_ref (hx.of_ref hvx hx1 he) hshared, hq.eq_of_ref (hy.of_ref hvy hy1 he1) hshared]

variable {e : ℕ}

omit hroot hv in
/-- A location on a path is the root or an element, not what a reference holds. -/
theorem ne_of_at (hm : At s.u.heap 0 p m c) (hx : s.u.heap.zval x = .ref e) : m ≠ e := by
  rintro rfl
  rcases List.eq_nil_or_concat p with rfl | ⟨p, i, rfl⟩
  · obtain ⟨rfl, -⟩ := hm.nil
    exact absurd (h.heap.ref_lt x _ hx).1 (lt_irrefl _)
  · rw [List.concat_eq_append] at hm
    obtain ⟨m0, c0, -, hmi, -⟩ := hm.snoc
    obtain ⟨a, k, -, hi⟩ := element_eq_some hmi
    exact h.heap.ref_elem x m a k hx (List.mem_of_getElem? hi)

/-- A shared reference is read back as one value. -/
theorem deref_eq_of_ref (hp : At H l p x (some e, [])) (hq : At H l q y (some e, []))
    (hm : At s.u.heap 0 p m c) (hm' : At s.u.heap 0 q m' c') :
    s.u.heap.deref m = s.u.heap.deref m' := by
  obtain ⟨hxe, hshared⟩ := hp.ref_of_nil
  obtain ⟨hye, -⟩ := hq.ref_of_nil
  exact h.deref_eq ((stands_of_at h hroot hv hm hp).ref hxe hshared)
    ((stands_of_at h hroot hv hm' hq).ref hye hshared) hxe hye

omit hroot hv in
/-- Paths to one value of the new heap end in one location or in one reference. -/
theorem eq_or_ref (hm : At s.u.heap 0 p m c) (hm' : At s.u.heap 0 q m' c')
    (hmm : s.u.heap.deref m = s.u.heap.deref m') :
    (∃ e, s.u.heap.zval m = .ref e ∧ s.u.heap.zval m' = .ref e) ∨ m = m' := by
  by_cases href : ∃ e, s.u.heap.zval m = .ref e
  · obtain ⟨e, he⟩ := href
    rw [deref_of_ref he] at hmm
    by_cases href' : ∃ e', s.u.heap.zval m' = .ref e'
    · obtain ⟨e', he'⟩ := href'
      rw [deref_of_ref he'] at hmm
      exact .inl ⟨e, he, hmm ▸ he'⟩
    · rw [deref_of_ne_ref (not_exists.mp href')] at hmm
      exact absurd hmm.symm (ne_of_at h hm' he)
  · rw [deref_of_ne_ref (not_exists.mp href)] at hmm
    by_cases href' : ∃ e', s.u.heap.zval m' = .ref e'
    · obtain ⟨e', he'⟩ := href'
      rw [deref_of_ref he'] at hmm
      exact absurd hmm (ne_of_at h hm he')
    · rw [deref_of_ne_ref (not_exists.mp href')] at hmm
      exact .inr hmm

omit hroot hv in
/-- The root is not an element. -/
theorem root_ne_element {m0 i : ℕ} : s.u.heap.element m0 i ≠ some 0 := by
  intro he
  obtain ⟨a, k, -, hi⟩ := element_eq_some he
  exact absurd (h.heap.elem a k 0 (List.mem_of_getElem? hi)).1 (lt_irrefl _)

omit hroot hv in
/-- An element has one position in one array, and the array one owner. -/
theorem parent_unique {m0 m1 i j : ℕ} (hi : s.u.heap.element m0 i = some m)
    (hj : s.u.heap.element m1 j = some m) : s.u.heap.deref m0 = s.u.heap.deref m1 ∧ i = j := by
  obtain ⟨a, k, ha, hai⟩ := element_eq_some hi
  obtain ⟨a', k', ha', haj⟩ := element_eq_some hj
  obtain ⟨rfl, hij⟩ := h.heap.elem_inj a a' i j k k' m hai haj
  exact ⟨h.heap.arr_inj _ _ a ha ha', hij⟩

/-- Paths to one variable are read back as paths to one value. -/
theorem deref_eq_of_same (hp : At H l p x b) (hq : At H l q y b) (hm : At s.u.heap 0 p m c)
    (hm' : At s.u.heap 0 q m' c') : s.u.heap.deref m = s.u.heap.deref m' := by
  -- a shared reference on the way starts the variable anew
  have href : ∀ {p q : List ℕ} {x y m m' : ℕ} {b c c' : Heap.Place}, At H l p x b → At H l q y b →
      At s.u.heap 0 p m c → At s.u.heap 0 q m' c' → ∀ e, b = (some e, []) →
      s.u.heap.deref m = s.u.heap.deref m' := by
    rintro p q x y m m' b c c' hp hq hm hm' e rfl
    exact deref_eq_of_ref h hroot hv hp hq hm hm'
  induction p using List.reverseRecOn generalizing x y b q m m' c c' with
  | nil =>
    obtain ⟨rfl, hb⟩ := hp.nil
    rcases enter_cases (H := H) (none, []) x with ⟨e, -, -, he⟩ | he
    · exact href hp hq hm hm' e (hb.trans he)
    · rw [he] at hb
      rcases List.eq_nil_or_concat q with rfl | ⟨q, i, rfl⟩
      · rw [hm.nil.1, hm'.nil.1]
      · rw [List.concat_eq_append] at hq hm'
        obtain ⟨y0, b0, -, -, hbi⟩ := hq.snoc
        rcases enter_cases (H := H) (b0.1, b0.2 ++ [i]) y with ⟨e, -, -, he'⟩ | he'
        · exact href hp hq hm hm' e (hbi.trans he')
        · rw [he', hb, Prod.mk.injEq] at hbi
          exact absurd hbi.2 (by simp)
  | append_singleton p i ih =>
    obtain ⟨x0, b0, hp0, hxi, hb⟩ := hp.snoc
    obtain ⟨m0, c0, hm0, hmi, -⟩ := hm.snoc
    rcases enter_cases (H := H) (b0.1, b0.2 ++ [i]) x with ⟨e, -, -, he⟩ | he
    · exact href hp hq hm hm' e (hb.trans he)
    · rw [he] at hb
      rcases List.eq_nil_or_concat q with rfl | ⟨q, j, rfl⟩
      · obtain ⟨-, hbq⟩ := hq.nil
        rcases enter_cases (H := H) (none, []) l with ⟨e, -, -, he'⟩ | he'
        · exact href hp hq hm hm' e (hbq.trans he')
        · rw [he', hb, Prod.mk.injEq] at hbq
          exact absurd hbq.2 (by simp)
      · rw [List.concat_eq_append] at hq hm'
        obtain ⟨y0, b1, hq0, -, hbq⟩ := hq.snoc
        obtain ⟨m1, c1, hm1, hmj, -⟩ := hm'.snoc
        rcases enter_cases (H := H) (b1.1, b1.2 ++ [j]) y with ⟨e, -, -, he'⟩ | he'
        · exact href hp hq hm hm' e (hbq.trans he')
        · rw [he', hb, Prod.mk.injEq] at hbq
          obtain ⟨hpath, hij⟩ := List.append_inj' hbq.2 rfl
          obtain rfl : i = j := List.singleton_inj.mp hij
          obtain rfl : b0 = b1 := Prod.ext hbq.1 hpath
          have hparents : s.u.heap.deref m0 = s.u.heap.deref m1 := ih hp0 hq0 hm0 hm1
          rw [element_congr hparents, hmj] at hmi
          rw [Option.some.inj hmi]

omit hroot hv in
/-- Paths to one value of the new heap are paths to one variable of any value in which
paths to one new reference are. -/
theorem same_of_deref_eq {K : Heap} {r : ℕ}
    (hflat : ∀ x, K.Part r x → K.deref (K.deref x) = K.deref x)
    (href : ∀ {p q x y b b' m m' c c' e}, At K r p x b → At K r q y b' → At s.u.heap 0 p m c →
      At s.u.heap 0 q m' c' → s.u.heap.zval m = .ref e → s.u.heap.zval m' = .ref e → b = b')
    (hp : At K r p x b) (hq : At K r q y b') (hm : At s.u.heap 0 p m c)
    (hm' : At s.u.heap 0 q m' c') (hmm : s.u.heap.deref m = s.u.heap.deref m') : b = b' := by
  induction p using List.reverseRecOn generalizing x y b b' q m m' c c' with
  | nil =>
    rcases eq_or_ref h hm hm' hmm with ⟨e, he, he'⟩ | rfl
    · exact href hp hq hm hm' he he'
    · rcases List.eq_nil_or_concat q with rfl | ⟨q, j, rfl⟩
      · rw [hp.nil.2, hq.nil.2]
      · rw [List.concat_eq_append] at hm'
        obtain ⟨m1, c1, -, hmj, -⟩ := hm'.snoc
        rw [hm.nil.1] at hmj
        exact absurd hmj (root_ne_element h)
  | append_singleton p i ih =>
    rcases eq_or_ref h hm hm' hmm with ⟨e, he, he'⟩ | rfl
    · exact href hp hq hm hm' he he'
    · obtain ⟨x0, b0, hp0, hxi, rfl⟩ := hp.snoc
      obtain ⟨m0, c0, hm0, hmi, -⟩ := hm.snoc
      rcases List.eq_nil_or_concat q with rfl | ⟨q, j, rfl⟩
      · rw [hm'.nil.1] at hmi
        exact absurd hmi (root_ne_element h)
      · rw [List.concat_eq_append] at hq hm'
        obtain ⟨y0, b1, hq0, hyj, rfl⟩ := hq.snoc
        obtain ⟨m1, c1, hm1, hmj, -⟩ := hm'.snoc
        obtain ⟨hparents, rfl⟩ := parent_unique h hmi hmj
        obtain rfl : b0 = b1 := ih hp0 hq0 hm0 hm1 hparents
        -- one variable has one element at a position
        rw [element_congr (hp0.deref_eq hflat hq0), hyj] at hxi
        rw [Option.some.inj hxi]

/-- The zval of the other side on a path. -/
theorem exists_at_other (p : List ℕ) : (∃ m c, At s.u.heap 0 p m c) ↔ ∃ x b, At H l p x b := by
  have hrel := walk_rel h hroot hv p
  constructor
  · rintro ⟨m, c, hm⟩
    rw [hm.1] at hrel
    generalize hx : H.walk l p = o at hrel
    cases hrel with
    | some _ => exact ⟨_, exists_at hx⟩
  · rintro ⟨x, b, hx⟩
    rw [hx.1] at hrel
    generalize hm : s.u.heap.walk 0 p = o at hrel
    cases hrel with
    | some _ => exact ⟨_, exists_at hm⟩

omit hroot hv in
/-- A reference of the new heap holds no reference. -/
theorem deref_deref_new (m : ℕ) : s.u.heap.deref (s.u.heap.deref m) = s.u.heap.deref m := by
  by_cases href : ∃ e, s.u.heap.zval m = .ref e
  · obtain ⟨e, he⟩ := href
    rw [deref_of_ref he]
    exact deref_of_ne_ref (h.heap.ref_val m e he).2
  · rw [deref_of_ne_ref (not_exists.mp href), deref_of_ne_ref (not_exists.mp href)]

/-- Two paths lead to one variable in the new value just when they do in the old one. -/
theorem samePlace_iff_samePlace (p q : List ℕ) : H.SamePlace l p q ↔ s.u.heap.SamePlace 0 p q := by
  rw [samePlace_iff, samePlace_iff]
  constructor
  · rintro ⟨x, y, b, hp, hq⟩
    obtain ⟨m, c, hm⟩ := (exists_at_other h hroot hv p).mpr ⟨x, b, hp⟩
    obtain ⟨m', c', hm'⟩ := (exists_at_other h hroot hv q).mpr ⟨y, b, hq⟩
    have hmm := deref_eq_of_same h hroot hv hp hq hm hm'
    have hcc : c = c' := by
      refine same_of_deref_eq h (fun m _ => deref_deref_new h m) ?_ hm hm' hm hm' hmm
      intro p q x y b b' m m' c c' e hx hy hm hm' he he'
      obtain rfl := Option.some.inj (hx.1.symm.trans hm.1)
      obtain rfl := Option.some.inj (hy.1.symm.trans hm'.1)
      rw [hx.eq_of_ref he (h.heap.ref_lt _ _ he).2.2, hy.eq_of_ref he' (h.heap.ref_lt _ _ he').2.2]
    exact ⟨m, m', c, hm, hcc ▸ hm'⟩
  · rintro ⟨m, m', c, hm, hm'⟩
    obtain ⟨x, b, hp⟩ := (exists_at_other h hroot hv p).mp ⟨m, c, hm⟩
    obtain ⟨y, b', hq⟩ := (exists_at_other h hroot hv q).mp ⟨m', c, hm'⟩
    have hmm := hm.deref_eq (fun m _ => deref_deref_new h m) hm'
    have hbb : b = b' := by
      refine same_of_deref_eq h (fun x hx => (hv x hx).deref_deref) ?_ hp hq hm hm' hmm
      intro p q x y b b' m m' c c' e hx hy hm hm' he he'
      exact same_of_ref h hx hy (stands_of_at h hroot hv hm hx) (stands_of_at h hroot hv hm' hy)
        (hv x hx.part) (hv y hy.part) he he'
    exact ⟨x, y, b, hp, hbb ▸ hq⟩

/-- The number of a reference leads to the slot of what is read for it. -/
theorem slot_of_ref (hp : At H l p y b) (hy : H.zval y = .ref e)
    (hshared : 1 < H.refcount e) (hm : At s.u.heap 0 p m c) :
    ∃ k m', s.d.ht e = some k ∧ 0 < k ∧ s.u.slots[k - 1]? = some m' ∧
      s.u.heap.deref m' = s.u.heap.deref m := by
  have hsource := (stands_of_at h hroot hv hm hp).ref hy hshared
  have hs := h.shown m y hsource
  rw [Shown, hy] at hs
  rcases hs with ⟨e', he', -⟩ | ⟨-, -, k, hk, hslot⟩
  · obtain ⟨-, -, k, hk, m', z, hslot, hz, hze⟩ := h.cell e e' he'
    exact ⟨k, m', hk, (h.ht_pos e k hk).1, hslot, h.deref_eq hz hsource hze hy⟩
  · exact ⟨k, m, hk, (h.ht_pos e k hk).1, hslot, rfl⟩

end Paths

end PhpVar
