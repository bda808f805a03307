/-
# The names of a wildcard hash

What `ngx_hash_add_key` makes of the names that it accepts.  A name is an exact one, or has a
wildcard at its head or its tail; the keys of wildcard names are those of rules for labels, of
the labels turned around where the wildcard is at the head.
-/
import ReadingCode.WildcardSearch

namespace HashTable

open List Option Function

open LabelRules

variable {V : Type}

/-! ## Kinds of names -/

/-- A name: exact, "*.x" or ".x", which also matches x, or "x.*". -/
inductive Name where
  | exact (x : Bytes)
  | head (x : Bytes) (only : Bool)
  | tail (x : Bytes)
  deriving DecidableEq, Repr

/-- The kind of a name in lower case. -/
def nameOf (key : Bytes) : Name :=
  if 1 < key.length ∧ key.take 1 = [DOT] then .head (key.drop 1) false
  else if 2 < key.length ∧ key.take 2 = [STAR, DOT] then .head (key.drop 2) true
  else if 2 < key.length ∧ key.drop (key.length - 2) = [DOT, STAR] then
    .tail (key.take (key.length - 2))
  else .exact key

/-! ## Labels -/

theorem labels_cons (c : UInt8) (s : Bytes) :
    labels (c :: s) = if c = DOT then [] :: labels s else (labels s).modifyHead (c :: ·) := by
  rw [labels, splitOn_cons_eq_if_modifyHead]
  simp only [beq_iff_eq]
  rfl

theorem labels_ne_nil (s : Bytes) : labels s ≠ [] := splitOn_ne_nil DOT s

variable {path : List Bytes} {s : Bytes}

theorem mem_of_mem_labels {l : Bytes} {c : UInt8} (hl : l ∈ labels s) (hc : c ∈ l) :
    c ∈ s ∧ c ≠ DOT := by
  induction s generalizing l with
  | nil =>
    rw [labels, splitOn_nil, mem_singleton] at hl
    rw [hl] at hc
    exact absurd hc not_mem_nil
  | cons d s ih =>
    rw [labels_cons] at hl
    split_ifs at hl with hd
    · rcases mem_cons.1 hl with rfl | hl
      · exact absurd hc not_mem_nil
      · exact ⟨mem_cons_of_mem d (ih hl hc).1, (ih hl hc).2⟩
    · obtain ⟨h, t, ht⟩ := exists_cons_of_ne_nil (labels_ne_nil s)
      rw [ht] at hl
      rw [ht] at ih
      rcases mem_cons.1 hl with rfl | hl
      · rcases mem_cons.1 hc with rfl | hc
        · exact ⟨mem_cons_self, hd⟩
        · exact ⟨mem_cons_of_mem d (ih mem_cons_self hc).1, (ih mem_cons_self hc).2⟩
      · have h := ih (mem_cons_of_mem _ hl) hc
        exact ⟨mem_cons_of_mem d h.1, h.2⟩

/-- The first label is empty only before a dot. -/
theorem head_labels_ne_nil {l : Bytes} {t : List Bytes} (h : labels s = l :: t)
    (hs : s ≠ []) (hdot : s.head? ≠ some DOT) : l ≠ [] := by
  obtain ⟨c, s, rfl⟩ := exists_cons_of_ne_nil hs
  have hc : c ≠ DOT := fun he => hdot (by rw [he]; rfl)
  obtain ⟨x, u, hu⟩ := exists_cons_of_ne_nil (labels_ne_nil s)
  rw [labels_cons, if_neg hc, hu, modifyHead_cons, List.cons.injEq] at h
  rw [← h.1]
  exact cons_ne_nil c x

/-- Where no two dots follow each other, no label within is empty. -/
theorem inner_labels_ne_nil (hdots : ¬ [DOT, DOT] <:+: s) :
    ∀ l ∈ (labels s).tail.dropLast, l ≠ [] := by
  induction s with
  | nil => simp [labels]
  | cons c s ih =>
    have ih' := ih fun h => hdots (h.trans (suffix_cons c s).isInfix)
    rw [labels_cons]
    split_ifs with hc
    · subst hc
      obtain ⟨x, u, hu⟩ := exists_cons_of_ne_nil (labels_ne_nil s)
      rw [hu] at ih' ⊢
      rcases u with _ | ⟨y, u⟩
      · simp
      · intro l hl
        rcases mem_cons.1 hl with rfl | hl
        · refine head_labels_ne_nil hu ?_ fun hhead => hdots ?_
          · rintro rfl
            simp [labels] at hu
          · obtain ⟨s', rfl⟩ := head?_eq_some_iff.1 hhead
            exact List.IsPrefix.isInfix ⟨s', rfl⟩
        · exact ih' l hl
    · obtain ⟨x, u, hu⟩ := exists_cons_of_ne_nil (labels_ne_nil s)
      rw [hu] at ih' ⊢
      exact ih'

/-- The last label is empty only after a dot. -/
theorem last_labels_ne_nil (hs : s ≠ []) (hdot : s.getLast? ≠ some DOT) :
    ∀ l ∈ (labels s).getLast?, l ≠ [] := by
  have hlabel : (s.reverse.takeWhile (· ≠ DOT)).reverse ≠ [] := by
    rw [← head?_reverse] at hdot
    obtain ⟨c, t, ht⟩ := exists_cons_of_ne_nil (reverse_ne_nil_iff.2 hs)
    rw [ht] at hdot
    rw [ht, takeWhile_cons_of_pos (by simpa using hdot)]
    simp
  intro l hl
  rcases last_label s with ⟨-, h⟩ | ⟨y, -, h⟩
  · rw [h, getLast?_singleton, mem_some_iff] at hl
    exact hl ▸ hlabel
  · rw [h, getLast?_concat, mem_some_iff] at hl
    exact hl ▸ hlabel

theorem dotted_labels (s : Bytes) : dotted (labels s) = s := intercalate_splitOn DOT

theorem dotted_append {rest : List Bytes} (hpath : path ≠ []) (hrest : rest ≠ []) :
    dotted (path ++ rest) = dotted path ++ DOT :: dotted rest := by
  induction path with
  | nil => exact absurd rfl hpath
  | cons h t ih =>
    by_cases ht : t = []
    · rw [ht, singleton_append, dotted_cons h hrest, dotted_singleton]
    · rw [cons_append, dotted_cons h (by simp [hrest]), dotted_cons h ht, ih ht,
        append_assoc, cons_append]

/-- Labels without dots are read again. -/
theorem labels_dotted (hpath : path ≠ []) (hdot : ∀ l ∈ path, DOT ∉ l) :
    labels (dotted path) = path := splitOn_intercalate DOT hdot hpath

/-! ## Turning labels around -/

/-- The loop writes the labels from the last to the first. -/
theorem reverseLabels_eq (before label p : Bytes) (hdot : DOT ∉ label) :
    reverseLabels before label p = p ++ dotted (labels (before.reverse ++ label)).reverse := by
  induction before generalizing label p with
  | nil =>
    rw [reverse_nil, nil_append, labels_of_notMem hdot, reverse_singleton, dotted_singleton]
    rfl
  | cons c before ih =>
    rw [reverseLabels, reverse_cons, append_assoc before.reverse, singleton_append]
    split_ifs with hc
    · rw [ih [] _ not_mem_nil, hc, labels_append, labels_of_notMem hdot, reverse_append,
        reverse_singleton, singleton_append, dotted_cons label (by simp [labels_ne_nil]),
        append_nil, append_assoc, append_assoc]
      rfl
    · refine ih (c :: label) p fun hmem => ?_
      rcases mem_cons.1 hmem with he | hmem
      · exact hc he.symm
      · exact hdot hmem

theorem length_reverseLabels (before label p : Bytes) :
    (reverseLabels before label p).length = p.length + (before.length + label.length) := by
  induction before generalizing label p with
  | nil => simp [reverseLabels]
  | cons c before ih =>
    rw [reverseLabels]
    split_ifs
    · simp only [ih, length_append, length_cons, length_nil]
      omega
    · simp only [ih, length_cons]
      omega

/-! ## Rules of names -/

/-- What `ngx_hash_add_key` takes, in lower case. -/
structure Allowed (x : Bytes) : Prop where
  ne_nil : x ≠ []
  lower : ngxStrlow x = x
  nulFree : NUL ∉ x
  dots : ¬ [DOT, DOT] <:+: x

/-- The names that are accepted. -/
def Name.Valid : Name → Prop
  | .exact x => ngxStrlow x = x
  | .head x _ => Allowed x ∧ x.head? ≠ some DOT
  | .tail x => Allowed x ∧ x.head? ≠ some DOT ∧ x.getLast? ≠ some DOT

/-- The rule of a name with a wildcard at its head. -/
def headRule (x : Bytes) (only : Bool) (v : V) : Rule Bytes V :=
  ⟨(labels x).reverse, only, v⟩

/-- The rule of a name with a wildcard at its tail. -/
def tailRule (x : Bytes) (v : V) : Rule Bytes V := ⟨labels x, false, v⟩

section

variable {x l : Bytes}

theorem Allowed.nul_notMem (h : Allowed x) (hl : l ∈ labels x) : NUL ∉ l := fun hmem =>
  h.nulFree (mem_of_mem_labels hl hmem).1

theorem Allowed.strlow_label (h : Allowed x) (hl : l ∈ labels x) : ngxStrlow l = l := by
  refine (map_congr_left fun c hc => ?_).trans (map_id l)
  exact map_inj_left.1 (h.lower.trans (map_id x).symm) c (mem_of_mem_labels hl hc).1

theorem Allowed.dropLast_ne_nil (h : Allowed x) (hdot : x.head? ≠ some DOT)
    (hl : l ∈ (labels x).dropLast) : l ≠ [] := by
  have hinner := inner_labels_ne_nil h.dots
  obtain ⟨y, t, ht⟩ := exists_cons_of_ne_nil (labels_ne_nil x)
  rw [ht] at hinner hl
  rcases t with _ | ⟨z, t⟩
  · exact absurd hl not_mem_nil
  · rcases mem_cons.1 hl with rfl | hl
    · exact head_labels_ne_nil ht h.ne_nil hdot
    · exact hinner l hl

theorem Allowed.label_ne_nil (h : Allowed x) (hdot : x.head? ≠ some DOT)
    (hdot' : x.getLast? ≠ some DOT) (hl : l ∈ labels x) : l ≠ [] := by
  have hlast := dropLast_append_getLast? (l := labels x)
  rcases hl' : (labels x).getLast? with _ | y
  · rw [getLast?_eq_none_iff] at hl'
    exact absurd hl' (labels_ne_nil x)
  · rw [← hlast y hl', mem_append, mem_singleton] at hl
    rcases hl with hl | rfl
    · exact h.dropLast_ne_nil hdot hl
    · exact last_labels_ne_nil h.ne_nil hdot' l hl'

theorem readable_headRule (h : Allowed x) (hdot : x.head? ≠ some DOT) (only : Bool) (v : V) :
    Readable (headRule x only v) where
  path_ne := reverse_ne_nil_iff.2 (labels_ne_nil x)
  dotFree := fun _ hl hmem => (mem_of_mem_labels (mem_reverse.1 hl) hmem).2 rfl
  nulFree := fun _ hl => h.nul_notMem (mem_reverse.1 hl)
  lower := fun _ hl => h.strlow_label (mem_reverse.1 hl)
  inner := fun _ hl => h.dropLast_ne_nil hdot (by
    rwa [headRule, tail_reverse, mem_reverse] at hl)

theorem readable_tailRule (h : Allowed x) (hdot : x.head? ≠ some DOT)
    (hdot' : x.getLast? ≠ some DOT) (v : V) : Readable (tailRule x v) where
  path_ne := labels_ne_nil x
  dotFree := fun _ hl hmem => (mem_of_mem_labels hl hmem).2 rfl
  nulFree := fun _ hl => h.nul_notMem hl
  lower := fun _ hl => h.strlow_label hl
  inner := fun _ hl => h.label_ne_nil hdot hdot' (mem_of_mem_tail hl)

end

/-! ## Lower case -/

/-- Lower case leaves dots, asterisks and the null byte alone, and makes none. -/
theorem ngxTolower_spec (c : UInt8) : (ngxTolower c = DOT ↔ c = DOT)
    ∧ (ngxTolower c = STAR ↔ c = STAR) ∧ (ngxTolower c = NUL ↔ c = NUL)
    ∧ ngxTolower (ngxTolower c) = ngxTolower c := by
  have h : ∀ n < 256, (ngxTolower (UInt8.ofNat n) = DOT ↔ UInt8.ofNat n = DOT)
      ∧ (ngxTolower (UInt8.ofNat n) = STAR ↔ UInt8.ofNat n = STAR)
      ∧ (ngxTolower (UInt8.ofNat n) = NUL ↔ UInt8.ofNat n = NUL)
      ∧ ngxTolower (ngxTolower (UInt8.ofNat n)) = ngxTolower (UInt8.ofNat n) := by
    decide +kernel
  have hc := h c.toNat c.toNat_lt
  rwa [UInt8.ofNat_toNat] at hc

theorem ngxStrlow_cons (c : UInt8) (s : Bytes) :
    ngxStrlow (c :: s) = ngxTolower c :: ngxStrlow s := rfl

theorem ngxStrlow_append (s t : Bytes) : ngxStrlow (s ++ t) = ngxStrlow s ++ ngxStrlow t :=
  map_append

theorem length_ngxStrlow (s : Bytes) : (ngxStrlow s).length = s.length := length_map _

theorem ngxStrlow_ngxStrlow (s : Bytes) : ngxStrlow (ngxStrlow s) = ngxStrlow s := by
  rw [ngxStrlow, ngxStrlow, List.map_map]
  exact map_congr_left fun c _ => (ngxTolower_spec c).2.2.2

/-- Keys that pass have no null byte and no two dots in a row. -/
theorem scanKey_spec {n m : ℕ} {key : Bytes} (h : scanKey n key = some m) :
    NUL ∉ ngxStrlow key ∧ ¬ [DOT, DOT] <:+: ngxStrlow key := by
  induction key generalizing n with
  | nil => simp [ngxStrlow]
  | cons c rest ih =>
    simp only [scanKey] at h
    rw [ite_none_left_eq_some, ite_none_left_eq_some, ite_none_left_eq_some] at h
    obtain ⟨-, hdots, hnul, hrest⟩ := h
    obtain ⟨hnul', hdots'⟩ := ih hrest
    obtain ⟨hdot, -, hnulc, -⟩ := ngxTolower_spec c
    rw [ngxStrlow_cons, mem_cons, infix_cons_iff]
    constructor
    · rintro (he | hmem)
      · exact hnul (hnulc.1 he.symm)
      · exact hnul' hmem
    · rintro (hpre | hin)
      · rw [cons_prefix_cons] at hpre
        rcases rest with _ | ⟨d, rest⟩
        · exact absurd (prefix_nil.1 hpre.2) (cons_ne_nil _ _)
        · rw [ngxStrlow_cons, cons_prefix_cons] at hpre
          exact hdots ⟨hdot.1 hpre.1.symm, (ngxTolower_spec d).1.1 hpre.2.1.symm⟩
      · exact hdots' hin

/-! ## Shapes of keys -/

theorem exists_append_two {s : Bytes} (h : 2 ≤ s.length) : ∃ t a b, s = t ++ [a, b] := by
  refine ⟨s.take (s.length - 2), s[s.length - 2], s[s.length - 1], ?_⟩
  conv_lhs => rw [← take_append_drop (s.length - 2) s]
  congr 1
  refine ext_getElem (by simp; omega) fun i h1 h2 => ?_
  have hi : i = 0 ∨ i = 1 := by
    rw [length_cons, length_singleton] at h2
    omega
  rcases hi with rfl | rfl
  · simp
  · simp only [getElem_drop, getElem_cons_succ, getElem_cons_zero]
    congr 1
    omega

section

variable (key : Bytes)

theorem head_shape : 1 < (ngxStrlow key).length ∧ (ngxStrlow key).take 1 = [DOT]
    ↔ key.length > 1 ∧ key.headD NUL = DOT := by
  rw [length_ngxStrlow]
  refine and_congr_right fun hlen => ?_
  rcases key with _ | ⟨c, s⟩
  · exact absurd hlen (by decide)
  · simp [ngxStrlow, (ngxTolower_spec c).1]

theorem only_shape : 2 < (ngxStrlow key).length ∧ (ngxStrlow key).take 2 = [STAR, DOT]
    ↔ key.length > 2 ∧ key.headD NUL = STAR ∧ key.getD 1 NUL = DOT := by
  rw [length_ngxStrlow]
  refine and_congr_right fun hlen => ?_
  rcases key with _ | ⟨c, _ | ⟨d, s⟩⟩
  · exact absurd hlen (by decide)
  · exact absurd hlen (by simp)
  · simp [ngxStrlow, (ngxTolower_spec c).2.1, (ngxTolower_spec d).1]

theorem tail_shape : 2 < (ngxStrlow key).length
      ∧ (ngxStrlow key).drop ((ngxStrlow key).length - 2) = [DOT, STAR]
    ↔ key.length > 2 ∧ key.getD (key.length - 2) NUL = DOT
      ∧ key.getD (key.length - 1) NUL = STAR := by
  rw [length_ngxStrlow]
  refine and_congr_right fun hlen => ?_
  obtain ⟨t, a, b, rfl⟩ := exists_append_two (le_of_lt hlen)
  simp [ngxStrlow, (ngxTolower_spec a).1, (ngxTolower_spec b).2.1]

end

/-! ## Adding a name -/

/-- The exact names. -/
def exactKeys (names : List (Name × V)) : List (HashKey V) :=
  names.filterMap fun n =>
    match n.1 with
    | .exact x => some ⟨x, false, ngxHashKey x, some n.2⟩
    | _ => none

/-- The rules of names with a wildcard at their head. -/
def headRules (names : List (Name × V)) : List (Rule Bytes V) :=
  names.filterMap fun n =>
    match n.1 with
    | .head x only => some (headRule x only n.2)
    | _ => none

/-- The rules of names with a wildcard at their tail. -/
def tailRules (names : List (Name × V)) : List (Rule Bytes V) :=
  names.filterMap fun n =>
    match n.1 with
    | .tail x => some (tailRule x n.2)
    | _ => none

/-- Whether the conflicts of a name will be seen. -/
def Taken (ha : KeysArrays V) : Name → Prop
  | .exact x => x ∈ ha.keysHash (ngxHashKey x % ha.hsize)
  | .head x _ => x ∈ ha.dnsWcHeadHash (ngxHashKey x % ha.hsize)
  | .tail x => x ++ [DOT] ∈ ha.dnsWcTailHash (ngxHashKey x % ha.hsize)

/-- What it means that a name was added. -/
structure AddStep (ha : KeysArrays V) (name : Name) (v : V) (ha' : KeysArrays V) : Prop where
  valid : name.Valid
  fresh : ¬ Taken ha name
  taken : Taken ha' name
  mono : ∀ n, Taken ha n → Taken ha' n
  keys : ha'.keys = ha.keys ++ exactKeys [(name, v)]
  heads : ha'.dnsWcHead = ha.dnsWcHead ++ (headRules [(name, v)]).map keyOf
  tails : ha'.dnsWcTail = ha.dnsWcTail ++ (tailRules [(name, v)]).map keyOf

/-- A name that is not busy is new. -/
theorem notMem_of_not_isBusy {names : List Bytes} {data : Bytes} {len : ℕ}
    (h : isBusy names data len ≠ true) (hlen : len ≤ data.length) (hnul : NUL ∉ data) :
    data.take len ∉ names := by
  intro hmem
  refine h (any_eq_true.2 ⟨_, hmem, ?_⟩)
  rw [Bool.and_eq_true, decide_eq_true_iff, beq_iff_eq, ngxStrncmp_eq_zero hlen hnul,
    length_take, min_eq_left hlen, take_take, min_self]
  exact ⟨rfl, rfl⟩

section

variable {ha ha' : KeysArrays V} {v : V}

variable {f : ℕ → List Bytes} {x : Bytes}

theorem mem_update_append {i j : ℕ} {y : Bytes} (h : y ∈ f j) : y ∈ update f i (f i ++ [x]) j := by
  by_cases hij : j = i
  · rw [hij, update_self]
    exact mem_append_left _ (hij ▸ h)
  · rwa [update_of_ne hij]

theorem mem_update_append_self {i : ℕ} : x ∈ update f i (f i ++ [x]) i := by
  rw [update_self]
  exact mem_append_right _ mem_cons_self

theorem addExact_spec {key : Bytes} (hnul : NUL ∉ ngxStrlow key)
    (h : addExact ha key v false = .ok ha') : AddStep ha (.exact (ngxStrlow key)) v ha' := by
  simp only [addExact, Bool.false_eq_true, if_false] at h
  split at h
  · cases h
  next hbusy =>
    cases h
    have hnew := notMem_of_not_isBusy hbusy le_rfl hnul
    rw [take_length] at hnew
    refine ⟨ngxStrlow_ngxStrlow key, hnew, mem_update_append_self, fun n hn => ?_, rfl,
      (append_nil _).symm, (append_nil _).symm⟩
    cases n with
    | exact x => exact mem_update_append hn
    | head x only => exact hn
    | tail x => exact hn

/-- What is before x in a name with a wildcard at its head. -/
def headMark (only : Bool) : Bytes := if only then [STAR, DOT] else [DOT]

/-- "*.example.com" becomes "com.example." and ".example.com" becomes "com.example". -/
theorem reverseLabels_headMark (x : Bytes) (only : Bool) (v : V) :
    reverseLabels (headMark only ++ x).tail.reverse [] [] = (keyOf (headRule x only v)).key := by
  rw [reverseLabels_eq _ _ _ not_mem_nil, reverse_reverse, append_nil]
  cases only with
  | false => exact (append_nil _).symm
  | true =>
    have hlabels : labels (DOT :: x) = [[]] ++ labels x := by
      rfl
    show dotted (labels (DOT :: x)).reverse = dotted (labels x).reverse ++ [DOT]
    rw [hlabels, reverse_append, reverse_singleton, dotted_append
      (reverse_ne_nil_iff.2 (labels_ne_nil x)) (cons_ne_nil _ _), dotted_singleton]

theorem addWildcard_head {only : Bool} (hallowed : Allowed (ngxStrlow x))
    (hdot : (ngxStrlow x).head? ≠ some DOT)
    (h : addWildcard ha (headMark only ++ x) (headMark only).length
      (headMark only ++ x).length v = .ok ha') : AddStep ha (.head (ngxStrlow x) only) v ha' := by
  have hlen : (headMark only ++ x).length = (headMark only ++ ngxStrlow x).length := by
    simp [length_ngxStrlow]
  have hskip : (headMark only ++ ngxStrlow x).length - (headMark only).length
      = (ngxStrlow x).length := by
    rw [length_append, Nat.add_sub_cancel_left]
  have hmark : (headMark only).length ≠ 0 := by cases only <;> decide
  have hp : (reverseLabels (headMark only ++ ngxStrlow x).tail.reverse [] []).take
      ((headMark only ++ ngxStrlow x).length - 1) =
      (keyOf (headRule (ngxStrlow x) only v)).key := by
    rw [take_of_length_le, reverseLabels_headMark]
    rw [length_reverseLabels]
    simp
  simp only [addWildcard, take_length, drop_left, drop_length, take_left, append_nil] at h
  simp only [hlen, hskip, take_length, hp, if_pos hmark] at h
  split at h
  · cases h
  · split at h
    · cases h
    next hbusy =>
      cases h
      have hnew := notMem_of_not_isBusy hbusy le_rfl hallowed.nulFree
      rw [take_length] at hnew
      refine ⟨⟨hallowed, hdot⟩, hnew, mem_update_append_self, fun n hn => ?_,
        (append_nil _).symm, rfl, (append_nil _).symm⟩
      cases n with
      | exact y =>
        split
        · exact mem_update_append hn
        · exact hn
      | head y only' => exact mem_update_append hn
      | tail y => exact hn

theorem addWildcard_tail (hvalid : (Name.tail (ngxStrlow x)).Valid)
    (h : addWildcard ha (x ++ [DOT, STAR]) 0 ((x ++ [DOT, STAR]).length - 2) v = .ok ha') :
    AddStep ha (.tail (ngxStrlow x)) v ha' := by
  have hlast : (x ++ [DOT, STAR]).length - 2 = x.length := by simp
  have htake : (ngxStrlow x ++ [DOT, STAR]).take (x.length + 1) = ngxStrlow x ++ [DOT] := by
    rw [← length_ngxStrlow x, take_length_add_append]
    rfl
  have hp : ((ngxStrlow x ++ [DOT, STAR]).take (x.length + 1 - 1)).take (x.length + 1 - 1)
      = (keyOf (tailRule (ngxStrlow x) v)).key := by
    rw [Nat.add_sub_cancel, take_take, Nat.min_self, ← length_ngxStrlow x, take_left]
    show _ = dotted (labels (ngxStrlow x)) ++ []
    rw [dotted_labels, append_nil]
  simp only [addWildcard, hlast, take_left, drop_zero, drop_left, take_zero,
    nil_append, ne_eq, not_true_eq_false, if_false, Nat.zero_ne_one, false_and,
    Nat.sub_zero, htake, hp] at h
  split at h
  · cases h
  next hbusy =>
    cases h
    have hnul : NUL ∉ ngxStrlow x ++ [DOT, STAR] := by
      rw [mem_append]
      rintro (hmem | hmem)
      · exact hvalid.1.nulFree hmem
      · exact absurd hmem (by decide)
    have hnew := notMem_of_not_isBusy hbusy (by simp [length_ngxStrlow]) hnul
    rw [htake] at hnew
    refine ⟨hvalid, hnew, mem_update_append_self, fun n hn => ?_, (append_nil _).symm,
      (append_nil _).symm, rfl⟩
    cases n with
    | exact y => exact hn
    | head y only => exact hn
    | tail y => exact mem_update_append hn

/-- What is after the mark of a key that passed. -/
theorem allowed_of_head {only : Bool} (hne : x ≠ []) (hnul : NUL ∉ ngxStrlow (headMark only ++ x))
    (hdots : ¬ [DOT, DOT] <:+: ngxStrlow (headMark only ++ x)) :
    Allowed (ngxStrlow x) ∧ (ngxStrlow x).head? ≠ some DOT := by
  have hmark : ∃ m, ngxStrlow (headMark only) = m ++ [DOT] := by
    cases only
    · exact ⟨[], by decide⟩
    · exact ⟨[STAR], by decide⟩
  obtain ⟨m, hm⟩ := hmark
  rw [ngxStrlow_append, hm] at hnul hdots
  refine ⟨⟨fun he => hne (map_eq_nil_iff.1 he), ngxStrlow_ngxStrlow x,
    fun hmem => hnul (mem_append_right _ hmem),
    fun hin => hdots (hin.trans (suffix_append _ _).isInfix)⟩, fun hhead => hdots ?_⟩
  obtain ⟨t, ht⟩ := head?_eq_some_iff.1 hhead
  exact ⟨m, t, by rw [ht]; simp⟩

/-- What is before ".*" in a key that passed. -/
theorem allowed_of_tail (hne : x ≠ []) (hhead : x.head? ≠ some DOT)
    (hnul : NUL ∉ ngxStrlow (x ++ [DOT, STAR]))
    (hdots : ¬ [DOT, DOT] <:+: ngxStrlow (x ++ [DOT, STAR])) : (Name.tail (ngxStrlow x)).Valid := by
  rw [ngxStrlow_append, show ngxStrlow [DOT, STAR] = [DOT, STAR] by decide] at hnul hdots
  refine ⟨⟨fun he => hne (map_eq_nil_iff.1 he), ngxStrlow_ngxStrlow x,
    fun hmem => hnul (mem_append_left _ hmem),
    fun hin => hdots (hin.trans (prefix_append _ _).isInfix)⟩, fun hdot => ?_, fun hlast => ?_⟩
  · obtain ⟨c, t, rfl⟩ := exists_cons_of_ne_nil hne
    rw [ngxStrlow_cons, head?_cons, Option.some.injEq, (ngxTolower_spec c).1] at hdot
    exact hhead (by rw [hdot]; rfl)
  · obtain ⟨t, ht⟩ := getLast?_eq_some_iff.1 hlast
    exact hdots ⟨t, [STAR], by rw [ht]; simp⟩

/-- **What is added is the name that the key is.** -/
theorem ngxHashAddKey_spec {key : Bytes} (h : ngxHashAddKey ha key v true false = .ok ha') :
    AddStep ha (nameOf (ngxStrlow key)) v ha' := by
  rw [ngxHashAddKey, if_pos rfl] at h
  rcases hscan : scanKey 0 key with _ | n
  · rw [hscan] at h
    cases h
  rw [hscan] at h
  dsimp only at h
  obtain ⟨hnul, hdots⟩ := scanKey_spec hscan
  rw [nameOf]
  split_ifs at h with h1 h2 h3
  · -- ".example.com"
    rw [if_pos ((head_shape key).2 h1)]
    obtain ⟨x, rfl, hne⟩ : ∃ x, key = headMark false ++ x ∧ x ≠ [] := by
      rcases key with _ | ⟨c, x⟩
      · exact absurd h1.1 (by decide)
      · obtain rfl : c = DOT := h1.2
        exact ⟨x, rfl, by rintro rfl; exact absurd h1.1 (by decide)⟩
    obtain ⟨hallowed, hdot⟩ := allowed_of_head hne hnul hdots
    exact addWildcard_head hallowed hdot h
  · -- "*.example.com"
    rw [if_pos ((only_shape key).2 h2)]
    obtain ⟨x, rfl, hne⟩ : ∃ x, key = headMark true ++ x ∧ x ≠ [] := by
      rcases key with _ | ⟨c, _ | ⟨d, x⟩⟩
      · exact absurd h2.1 (by decide)
      · exact absurd h2.1 (by simp)
      · obtain rfl : c = STAR := h2.2.1
        obtain rfl : d = DOT := h2.2.2
        exact ⟨x, rfl, by rintro rfl; exact absurd h2.1 (by decide)⟩
    obtain ⟨hallowed, hdot⟩ := allowed_of_head hne hnul hdots
    exact addWildcard_head hallowed hdot h
  · -- "www.example.*"
    rw [if_neg (fun hc => h1 ((head_shape key).1 hc)),
      if_neg (fun hc => h2 ((only_shape key).1 hc)), if_pos ((tail_shape key).2 h3)]
    obtain ⟨x, rfl, hne⟩ : ∃ x, key = x ++ [DOT, STAR] ∧ x ≠ [] := by
      obtain ⟨t, a, b, rfl⟩ := exists_append_two (le_of_lt h3.1)
      obtain ⟨hlen, ha, hb⟩ := h3
      have ha' : a = DOT := by simpa using ha
      have hb' : b = STAR := by simpa using hb
      refine ⟨t, by rw [ha', hb'], ?_⟩
      rintro rfl
      exact absurd hlen (by simp)
    have hhead : x.head? ≠ some DOT := by
      intro hdot
      obtain ⟨t, rfl⟩ := head?_eq_some_iff.1 hdot
      exact h1 ⟨by simp, rfl⟩
    have hx : (ngxStrlow (x ++ [DOT, STAR])).take ((ngxStrlow (x ++ [DOT, STAR])).length - 2)
        = ngxStrlow x := by
      rw [length_ngxStrlow, length_append,
        show x.length + [DOT, STAR].length - 2 = (ngxStrlow x).length by
          rw [length_ngxStrlow]; rfl, ngxStrlow_append, take_left]
    rw [hx]
    exact addWildcard_tail (allowed_of_tail hne hhead hnul hdots) h
  · rw [if_neg (fun hc => h1 ((head_shape key).1 hc)),
      if_neg (fun hc => h2 ((only_shape key).1 hc)),
      if_neg (fun hc => h3 ((tail_shape key).1 hc))]
    exact addExact_spec hnul h

end

/-! ## Adding all names -/

/-- The names that keys are. -/
def namesOf (keys : List (Bytes × V)) : List (Name × V) :=
  keys.map fun n => (nameOf (ngxStrlow n.1), n.2)

/-- Names that are in conflict with each other, "*.x" with ".x", are those that look alike. -/
def Name.face : Name → Name
  | .head x _ => .head x false
  | n => n

/-- Arrays that hold names. -/
structure Added (ha : KeysArrays V) (names : List (Name × V)) : Prop where
  valid : ∀ n ∈ names, n.1.Valid
  nodup : (names.map fun n => n.1.face).Nodup
  taken : ∀ n ∈ names, Taken ha n.1
  keys : ha.keys = exactKeys names
  heads : ha.dnsWcHead = (headRules names).map keyOf
  tails : ha.dnsWcTail = (tailRules names).map keyOf

section

variable {ha ha' : KeysArrays V} {names : List (Name × V)} {name : Name} {v : V}

theorem taken_congr {n n' : Name} (h : n.face = n'.face) : Taken ha n ↔ Taken ha n' := by
  cases n <;> cases n' <;> cases h <;> rfl

theorem added_nil (hsize : ℕ) : Added (ngxHashKeysArrayInit hsize : KeysArrays V) [] :=
  ⟨by simp, by simp, by simp, rfl, rfl, rfl⟩

theorem Added.step (h : Added ha names) (hstep : AddStep ha name v ha') :
    Added ha' (names ++ [(name, v)]) where
  valid := fun n hn => by
    rcases mem_append.1 hn with hn | hn
    · exact h.valid n hn
    · rw [mem_singleton.1 hn]
      exact hstep.valid
  nodup := by
    rw [map_append, nodup_append]
    refine ⟨h.nodup, nodup_singleton _, fun a hmem b hb he => ?_⟩
    obtain ⟨n, hn, rfl⟩ := mem_map.1 hmem
    rw [map_singleton, mem_singleton] at hb
    exact hstep.fresh ((taken_congr (he.trans hb)).1 (h.taken n hn))
  taken := fun n hn => by
    rcases mem_append.1 hn with hn | hn
    · exact hstep.mono _ (h.taken n hn)
    · rw [mem_singleton.1 hn]
      exact hstep.taken
  keys := by rw [hstep.keys, h.keys, exactKeys, exactKeys, exactKeys, filterMap_append]
  heads := by
    rw [hstep.heads, h.heads, ← map_append, headRules, headRules, headRules, filterMap_append]
  tails := by
    rw [hstep.tails, h.tails, ← map_append, tailRules, tailRules, tailRules, filterMap_append]

variable {keys : List (Bytes × V)}

/-- Keys that are added one after the other. -/
theorem Added.run (h : Added ha names)
    (hadd : addKeys ha keys = .ok ha') : Added ha' (names ++ namesOf keys) := by
  induction keys generalizing ha names with
  | nil =>
    cases hadd
    rwa [namesOf, map_nil, append_nil]
  | cons key keys ih =>
    obtain ⟨key, v⟩ := key
    rw [addKeys] at hadd
    rcases hkey : ngxHashAddKey ha key v true false with e | ha''
    · rw [hkey] at hadd
      cases hadd
    · rw [hkey] at hadd
      have hrun := ih (h.step (ngxHashAddKey_spec hkey)) hadd
      rwa [append_assoc] at hrun

/-- **The arrays hold the names of the keys that were accepted.** -/
theorem added_of_addKeys {hsize : ℕ}
    (hadd : addKeys (ngxHashKeysArrayInit hsize) keys = .ok ha) : Added ha (namesOf keys) :=
  (added_nil hsize).run hadd

end

/-!
# The order of wildcard names

Keys that begin with the same labels stand together if no byte of them is below the space, for which
a dot is taken; otherwise they may not.
-/

variable {V : Type}

/-- What comes of sorting names in the order of `ngx_http_cmp_dns_wildcards`.  A sort puts every
pair in order if comparing is transitive, which it is for names without a space: a space is equal to
a dot, whatever follows. -/
structure IsSorted (names sorted : List (DnsKey V)) : Prop where
  perm : sorted.Perm names
  order : sorted.Pairwise fun a b => ngxDnsStrcmp a.key b.key ≤ 0

/-- Between keys that begin with the same labels are only keys that begin so too. -/
def Together (keys : List Bytes) : Prop :=
  ∀ a b c, [a, b, c].Sublist keys → ∀ path, path <+: labels a → path <+: labels c →
    path <+: labels b

/-! ## Comparing -/

/-- The place of a byte in the order. -/
def dnsRank (c : UInt8) : ℕ := if c = DOT then 0x20 else c.toNat

theorem dnsDiff_eq (c1 c2 : UInt8) : dnsDiff c1 c2 = (dnsRank c1 : ℤ) - dnsRank c2 := by
  simp only [dnsDiff, dnsRank]
  split_ifs <;> rfl

theorem dnsRank_pos {c : UInt8} (hc : c ≠ NUL) : 0 < dnsRank c := by
  rw [dnsRank]
  split_ifs
  · decide
  · exact Nat.pos_of_ne_zero fun h => hc (UInt8.toNat_inj.1 h)

/-- Bytes after the space are told apart. -/
theorem dnsRank_inj {c d : UInt8} (hc : 0x20 < c) (hd : 0x20 < d) (h : dnsRank c = dnsRank d) :
    c = d := by
  have hc' := UInt8.lt_iff_toNat_lt.1 hc
  have hd' := UInt8.lt_iff_toNat_lt.1 hd
  change 0x20 < c.toNat at hc'
  change 0x20 < d.toNat at hd'
  rw [dnsRank, dnsRank] at h
  split_ifs at h with h1 h2 h2
  · rw [h1, h2]
  · omega
  · omega
  · exact UInt8.toNat_inj.1 h

theorem ngxDnsStrcmp_cons (c d : UInt8) (s t : Bytes) :
    ngxDnsStrcmp (c :: s) (d :: t) = if ngxTolower c = ngxTolower d then
      if ngxTolower c ≠ NUL then ngxDnsStrcmp s t else 0
      else dnsDiff (ngxTolower c) (ngxTolower d) := rfl

/-- A string is after what it begins with. -/
theorem ngxDnsStrcmp_append_pos {s m : Bytes} (hs : NUL ∉ s) (hm : m ≠ []) (hnul : NUL ∉ m) :
    0 < ngxDnsStrcmp (s ++ m) s := by
  induction s with
  | nil =>
    obtain ⟨c, m, rfl⟩ := exists_cons_of_ne_nil hm
    have hc : ngxTolower c ≠ NUL := fun he =>
      hnul (by rw [← (ngxTolower_spec c).2.2.1.1 he]; exact mem_cons_self)
    have hpos := dnsRank_pos hc
    show 0 < if ngxTolower c = NUL then _ else dnsDiff (ngxTolower c) NUL
    rw [if_neg hc, dnsDiff_eq, show dnsRank NUL = 0 from rfl]
    omega
  | cons c s ih =>
    have hc : ngxTolower c ≠ NUL := fun he =>
      hs (by rw [← (ngxTolower_spec c).2.2.1.1 he]; exact mem_cons_self)
    rw [cons_append, ngxDnsStrcmp_cons, if_pos rfl, if_pos hc]
    exact ih fun hmem => hs (mem_cons_of_mem c hmem)

/-! ## Prefixes come first -/

section

variable {rules : List (Rule Bytes V)} {a b : Rule Bytes V}

/-- The key of a longer path begins with that of a shorter one. -/
theorem exists_keyOf_append (ha : Readable a) (hb : b.path ≠ []) (hpre : b.path <+: a.path)
    (hne : a.path ≠ b.path) : ∃ m, m ≠ [] ∧ (keyOf a).key = (keyOf b).key ++ m := by
  obtain ⟨rest, hrest⟩ := hpre
  have hrest' : rest ≠ [] := by
    rintro rfl
    exact hne (by rw [← hrest, append_nil])
  have hkey : (keyOf a).key = dotted b.path ++ DOT :: (dotted rest ++ if a.only then [DOT] else [])
      := by
    rw [keyOf, ← hrest, dotted_append hb hrest', append_assoc]
    rfl
  rw [hkey, keyOf]
  cases b.only with
  | false =>
    exact ⟨DOT :: (dotted rest ++ if a.only then [DOT] else []), cons_ne_nil DOT _, by simp⟩
  | true =>
    refine ⟨dotted rest ++ if a.only then [DOT] else [], ?_, by simp⟩
    -- the next label is not empty
    obtain ⟨l, t, rfl⟩ := exists_cons_of_ne_nil hrest'
    obtain ⟨h, u, hu⟩ := exists_cons_of_ne_nil hb
    have hl : l ≠ [] := ha.inner l (by rw [← hrest, hu]; simp)
    refine append_ne_nil_of_left_ne_nil ?_ _
    by_cases ht : t = []
    · rwa [ht, dotted_singleton]
    · rw [dotted_cons l ht]
      exact append_ne_nil_of_left_ne_nil hl _

/-- In sorted arrays no name is the beginning of an earlier one. -/
theorem prefixesFirst_of_order (hread : ∀ r ∈ rules, Readable r)
    (hnodup : (rules.map Rule.path).Nodup)
    (horder : (rules.map keyOf).Pairwise fun a b => ngxDnsStrcmp a.key b.key ≤ 0) :
    PrefixesFirst rules := by
  have hboth := (pairwise_map.1 hnodup).and (pairwise_map.1 horder)
  refine hboth.imp_of_mem fun {a b} ha hb h hpre => ?_
  obtain ⟨m, hm, hkey⟩ := exists_keyOf_append (hread a ha) (hread b hb).path_ne hpre h.1
  have hnul := nul_notMem_keyOf (hread a ha)
  rw [hkey, mem_append, not_or] at hnul
  have hpos := ngxDnsStrcmp_append_pos hnul.1 hm hnul.2
  have hle := h.2
  rw [hkey] at hle
  omega

/-! ## Standing together -/

theorem labels_keyOf (hread : Readable a) :
    labels (keyOf a).key = a.path ++ if a.only then [[]] else [] := by
  have hdotted := labels_dotted hread.path_ne hread.dotFree
  rw [keyOf]
  cases a.only with
  | false => simpa using hdotted
  | true =>
    show labels (dotted a.path ++ DOT :: []) = a.path ++ [[]]
    rw [labels_append, hdotted]
    rfl

/-- What the labels of a key begin with. -/
theorem pre_labels_keyOf (hread : Readable a) {path : List Bytes} :
    path <+: labels (keyOf a).key ↔ path <+: a.path ∨ (a.only = true ∧ path = a.path ++ [[]]) := by
  rw [labels_keyOf hread]
  cases a.only with
  | false => simp
  | true =>
    simp only [if_true, true_and]
    rw [prefix_concat_iff, or_comm]

/-- No path goes on after another with an empty label. -/
theorem not_concat_nil_pre (hread : Readable a) (hb : b.path ≠ []) :
    ¬ b.path ++ [[]] <+: a.path := by
  rintro ⟨rest, hrest⟩
  obtain ⟨h, t, ht⟩ := exists_cons_of_ne_nil hb
  exact hread.inner [] (by rw [← hrest, ht]; simp) rfl

/-- Keys stand together exactly if their rules do. -/
theorem together_iff (hread : ∀ r ∈ rules, Readable r) (hnodup : (rules.map Rule.path).Nodup) :
    Together (rules.map fun r => (keyOf r).key) ↔ Adjacent rules := by
  constructor
  · intro h a b c habc path ha hc
    have hmem : ∀ r ∈ [a, b, c], Readable r := fun r hr => hread r (habc.subset hr)
    have hreada := hmem a (by simp)
    have hreadb := hmem b (by simp)
    have hb := h _ _ _ (habc.map fun r => (keyOf r).key) path
      ((pre_labels_keyOf hreada).2 (.inl ha)) ((pre_labels_keyOf (hmem c (by simp))).2 (.inl hc))
    rcases (pre_labels_keyOf hreadb).1 hb with hb | ⟨-, rfl⟩
    · exact hb
    · exact absurd ha (not_concat_nil_pre hreada hreadb.path_ne)
  · intro h a' b' c' habc path ha hc
    obtain ⟨s, hs, hmap⟩ := sublist_map_iff.1 habc
    obtain ⟨a, s1, rfl, rfl, h1⟩ := map_eq_cons_iff.1 hmap.symm
    obtain ⟨b, s2, rfl, rfl, h2⟩ := map_eq_cons_iff.1 h1
    obtain ⟨c, s3, rfl, rfl, h3⟩ := map_eq_cons_iff.1 h2
    rw [map_eq_nil_iff] at h3
    subst h3
    have hmem : ∀ r ∈ [a, b, c], Readable r := fun r hr => hread r (hs.subset hr)
    have hreada := hmem a (by simp)
    have hreadc := hmem c (by simp)
    have hne : a.path ≠ c.path := by
      have hdistinct := hnodup.sublist (hs.map Rule.path)
      simp only [map_cons, map_nil, nodup_cons, mem_cons, not_or] at hdistinct
      exact hdistinct.1.2.1
    rw [pre_labels_keyOf hreada] at ha
    rw [pre_labels_keyOf hreadc] at hc
    rw [pre_labels_keyOf (hmem b (by simp))]
    rcases ha with ha | ⟨-, rfl⟩
    · rcases hc with hc | ⟨-, rfl⟩
      · exact .inl (h a b c hs path ha hc)
      · exact absurd ha (not_concat_nil_pre hreada hreadc.path_ne)
    · rcases hc with hc | ⟨-, hc⟩
      · exact absurd hc (not_concat_nil_pre hreadc hreada.path_ne)
      · exact absurd (append_left_inj _ |>.1 hc) hne

end

/-! ## Ordinary names -/

/-- What begins with some labels. -/
theorem pre_labels_iff {path : List Bytes} {s : Bytes} (hne : path ≠ [])
    (hdot : ∀ l ∈ path, DOT ∉ l) :
    path <+: labels s ↔ ∃ m, s = dotted path ++ m ∧ ∀ c ∈ m.head?, c = DOT := by
  constructor
  · rintro ⟨rest, hrest⟩
    have hs := dotted_labels s
    rw [← hrest] at hs
    by_cases hnil : rest = []
    · rw [hnil, append_nil] at hs
      exact ⟨[], by rw [hs, append_nil], by simp⟩
    · rw [dotted_append hne hnil] at hs
      exact ⟨_, hs.symm, by simp⟩
  · rintro ⟨m, rfl, hm⟩
    rcases m with _ | ⟨c, m⟩
    · rw [append_nil, labels_dotted hne hdot]
    · rw [hm c rfl, labels_append, labels_dotted hne hdot]
      exact prefix_append path _

/-- Bytes that stand after the space, in lower case. -/
def Ordinary (s : Bytes) : Prop := ∀ c ∈ s, 0x20 < c ∧ ngxTolower c = c

theorem dnsDiff_nul_pos {c : UInt8} (hc : 0x20 < c) : 0 < dnsDiff c NUL := by
  have hpos := dnsRank_pos (c := c) (by rintro rfl; exact absurd hc (by decide))
  rw [dnsDiff_eq, show dnsRank NUL = 0 from rfl]
  omega

/-- The first bytes of ordinary strings that are in order. -/
theorem head_of_order {c : UInt8} {s b : Bytes} (hs : Ordinary (c :: s)) (hb : Ordinary b)
    (h : ngxDnsStrcmp (c :: s) b ≤ 0) :
    ∃ d t, b = d :: t ∧ dnsRank c ≤ dnsRank d ∧ (c = d → ngxDnsStrcmp s t ≤ 0) := by
  obtain ⟨hc, hlow⟩ := hs c mem_cons_self
  have hnul : c ≠ NUL := by
    rintro rfl
    exact absurd hc (by decide)
  rcases b with _ | ⟨d, t⟩
  · have hpos := dnsDiff_nul_pos hc
    have hstep : ngxDnsStrcmp (c :: s) [] = dnsDiff c NUL := by
      show (if ngxTolower c = NUL then _ else dnsDiff (ngxTolower c) NUL) = _
      rw [hlow, if_neg hnul]
    omega
  · obtain ⟨hd, hlow'⟩ := hb d mem_cons_self
    rw [ngxDnsStrcmp_cons, hlow, hlow'] at h
    refine ⟨d, t, rfl, ?_, ?_⟩
    · by_cases hcd : c = d
      · rw [hcd]
      · rw [if_neg hcd, dnsDiff_eq] at h
        omega
    · intro hcd
      rwa [if_pos hcd, if_pos hnul] at h

/-- What is between ordinary strings that begin alike begins so too. -/
theorem between {p a b c : Bytes} (ha : Ordinary (p ++ a)) (hb : Ordinary b)
    (hc : Ordinary (p ++ c)) (hab : ngxDnsStrcmp (p ++ a) b ≤ 0) (hbc : ngxDnsStrcmp b (p ++ c) ≤ 0)
    : ∃ m, b = p ++ m ∧ ngxDnsStrcmp m c ≤ 0 := by
  induction p generalizing b with
  | nil => exact ⟨b, rfl, hbc⟩
  | cons d p ih =>
    obtain ⟨e, t, rfl, hle, htail⟩ := head_of_order ha hb hab
    obtain ⟨d', t', heq, hle', htail'⟩ := head_of_order hb hc hbc
    obtain ⟨rfl, rfl⟩ := heq
    obtain rfl := dnsRank_inj (ha d mem_cons_self).1 (hb e mem_cons_self).1 (by omega)
    obtain ⟨m, rfl, hm⟩ := ih (fun x hx => ha x (mem_cons_of_mem _ hx))
      (fun x hx => hb x (mem_cons_of_mem _ hx)) (fun x hx => hc x (mem_cons_of_mem _ hx))
      (htail rfl) (htail' rfl)
    exact ⟨m, rfl, hm⟩

/-- **Ordinary keys that are sorted stand together.** -/
theorem together_of_order {keys : List Bytes}
    (horder : keys.Pairwise fun a b => ngxDnsStrcmp a b ≤ 0) (hord : ∀ s ∈ keys, Ordinary s) :
    Together keys := by
  intro a b c habc path ha hc
  by_cases hne : path = []
  · rw [hne]
    exact nil_prefix
  have hdot : ∀ l ∈ path, DOT ∉ l := fun l hl hmem =>
    (mem_of_mem_labels (ha.subset hl) hmem).2 rfl
  have hmem : ∀ s ∈ [a, b, c], Ordinary s := fun s hs => hord s (habc.subset hs)
  have hab := rel_of_pairwise_cons (horder.sublist habc) (by simp : b ∈ [b, c])
  have hbc := rel_of_pairwise_cons (pairwise_cons.1 (horder.sublist habc)).2
    (by simp : c ∈ [c])
  obtain ⟨ma, rfl, -⟩ := (pre_labels_iff hne hdot).1 ha
  obtain ⟨mc, rfl, hhead⟩ := (pre_labels_iff hne hdot).1 hc
  have hordb := hmem b (by simp)
  obtain ⟨m, rfl, hle⟩ := between (hmem _ (by simp)) hordb (hmem _ (by simp)) hab hbc
  refine (pre_labels_iff hne hdot).2 ⟨m, rfl, fun e he => ?_⟩
  -- nothing but a dot is between the end and what begins with a dot
  obtain ⟨t, rfl⟩ := head?_eq_some_iff.1 he
  have horde : Ordinary (e :: t) := fun x hx => hordb x (mem_append_right _ hx)
  have hordc : Ordinary mc := fun x hx =>
    hmem _ (by simp : dotted path ++ mc ∈ _) x (mem_append_right _ hx)
  obtain ⟨d, t', rfl, hrank, -⟩ := head_of_order horde hordc hle
  obtain rfl := hhead d rfl
  by_contra hne'
  have hgt := UInt8.lt_iff_toNat_lt.1 (horde e mem_cons_self).1
  change 0x20 < e.toNat at hgt
  rw [dnsRank, if_neg hne', show dnsRank DOT = 0x20 from rfl] at hrank
  omega

end HashTable
