/-
# The tree of static locations

How the locations of one level are put in order and searched: `ngx_http_cmp_locations`,
`ngx_http_join_exact_locations`, `ngx_http_create_locations_list` and
`ngx_http_create_locations_tree` of `ngx_http.c` and `ngx_http_core_find_static_location` of
`ngx_http_core_module.c`.  The locations are those with a name of their own: regular
expressions, named locations and those without a name are sorted behind them and split off.

A queue is the list of its entries.  Names are C strings, compared with their `'\0'`, on a
file system that tells upper from lower case.
-/
import ReadingCode.Bytes
import ReadingCode.PrefixOrder

namespace LocationTree

/-! ## Locations -/

/-- `ngx_http_core_loc_conf_t`.  A location redirects only if its name ends with a slash. -/
structure Location where
  name : Bytes
  exactMatch : Bool
  autoRedirect : Bool
  nulFree : NUL ∉ name
  slash : autoRedirect = true → name.getLast? = some SLASH
  deriving DecidableEq

/-- `ngx_http_location_queue_t` before its list is made. -/
structure Entry where
  exact : Option Location
  inclusive : Option Location
  name : Bytes
  deriving DecidableEq

/-- What `ngx_http_add_location` makes of a location. -/
def Entry.ofLocation (l : Location) : Entry :=
  if l.exactMatch then ⟨some l, none, l.name⟩ else ⟨none, some l, l.name⟩

/-! ## The order of the locations -/

/-- `ngx_filename_cmp(s1, s2, n)`; after its last byte a string has its `'\\0'`. -/
def ngxFilenameCmp : Bytes → Bytes → ℕ → ℤ
  | _, _, 0 => 0
  | s1, s2, n + 1 =>
    let c1 := s1.headD NUL
    let c2 := s2.headD NUL
    if c1 = c2 then
      if c1 ≠ NUL then ngxFilenameCmp s1.tail s2.tail n else 0
    else if c1 = NUL ∨ c2 = NUL then (c1.toNat : ℤ) - c2.toNat
    else
      -- '/' is the lowest character
      let c1 := if c1 = SLASH then NUL else c1
      let c2 := if c2 = SLASH then NUL else c2
      (c1.toNat : ℤ) - c2.toNat

/-- `ngx_http_cmp_locations(one, two)` -/
def ngxHttpCmpLocations (first second : Location) : ℤ :=
  let rc := ngxFilenameCmp first.name second.name (min first.name.length second.name.length + 1)
  if rc = 0 ∧ !first.exactMatch ∧ second.exactMatch then
    -- an exact match must be before the same inclusive one
    1
  else rc

section

variable {A : Type} (cmp : A → A → ℤ)

/-- The loop back from `q` to its place, over the sorted part from its end. -/
def insertBack (q : A) : List A → List A
  | [] => [q]
  | prev :: before => if cmp prev q ≤ 0 then q :: prev :: before else prev :: insertBack q before

/-- `ngx_queue_sort(queue, cmp)` -/
def ngxQueueSort (queue : List A) : List A :=
  (queue.foldl (fun sorted q => insertBack cmp q sorted) []).reverse

end

/-- `ngx_http_join_exact_locations(cf, locations)`, none when it reports a duplicate. -/
def ngxHttpJoinExactLocations : List Entry → Option (List Entry)
  | [] => some []
  | [lq] => some [lq]
  | lq :: lx :: rest =>
    if lq.name.length = lx.name.length ∧ ngxFilenameCmp lq.name lx.name lx.name.length = 0 then
      if (lq.exact.isSome ∧ lx.exact.isSome) ∨ (lq.inclusive.isSome ∧ lx.inclusive.isSome) then
        none
      else ngxHttpJoinExactLocations ({ lq with inclusive := lx.inclusive } :: rest)
    else (ngxHttpJoinExactLocations (lx :: rest)).map (lq :: ·)
  termination_by entries => entries.length

/-! ## The list -/

/-- `ngx_http_location_queue_t` with its list. -/
inductive Queued where
  | mk (exact inclusive : Option Location) (name : Bytes) (list : List Queued)

/-- An entry with a list. -/
def Entry.queued (e : Entry) (list : List Queued) : Queued := .mk e.exact e.inclusive e.name list

/-- Whether `lx` goes to the list of `lq`. -/
def isUnder (lq lx : Entry) : Bool :=
  !(decide (lq.name.length > lx.name.length)
    || ngxFilenameCmp lq.name lx.name lq.name.length != 0)

/-- `ngx_http_create_locations_list(locations, q)` on the entries from `q` on, with no more
than `fuel` calls within each other. -/
def ngxHttpCreateLocationsList : ℕ → List Entry → List Queued
  | 0, _ => []
  | _, [] => []
  | _ + 1, [lq] => [lq.queued []]
  | fuel + 1, lq :: rest =>
    if lq.inclusive.isNone then lq.queued [] :: ngxHttpCreateLocationsList fuel rest
    else
      let under := rest.takeWhile (isUnder lq)
      let after := rest.dropWhile (isUnder lq)
      if under = [] then lq.queued [] :: ngxHttpCreateLocationsList fuel after
      else if after = [] then [lq.queued (ngxHttpCreateLocationsList fuel under)]
      else
        lq.queued (ngxHttpCreateLocationsList fuel under) :: ngxHttpCreateLocationsList fuel after

/-! ## The tree -/

/-- `ngx_http_location_tree_node_t` -/
inductive Tree where
  | null
  | node (left right tree : Tree) (exact inclusive : Option Location) (autoRedirect : Bool)
      (len : ℕ) (name : Bytes)

/-- `(u_char)` -/
def uchar (n : ℕ) : ℕ := n % 2 ^ 8

/-- `exact && exact->auto_redirect || inclusive && inclusive->auto_redirect` -/
def redirects (exact inclusive : Option Location) : Bool :=
  exact.any (·.autoRedirect) || inclusive.any (·.autoRedirect)

/-- `ngx_http_create_locations_tree(cf, locations, prefix)`, with no more than `fuel` calls
within each other.  The entry in the middle is the node; where nothing lies before it nothing
lies after it. -/
def ngxHttpCreateLocationsTree : ℕ → List Queued → ℕ → Tree
  | 0, _, _ => .null
  | fuel + 1, locations, prefixLen =>
    match locations.drop (locations.length / 2) with
    | [] => .null
    | .mk exact inclusive name list :: tail =>
      let len := name.length - prefixLen
      let before := locations.take (locations.length / 2)
      let left := if before.isEmpty then .null
        else ngxHttpCreateLocationsTree fuel before prefixLen
      let right := if before.isEmpty || tail.isEmpty then .null
        else ngxHttpCreateLocationsTree fuel tail prefixLen
      let tree := if list.isEmpty then .null
        else ngxHttpCreateLocationsTree fuel list (prefixLen + len)
      .node left right tree exact inclusive (redirects exact inclusive) (uchar len)
        ((name.drop prefixLen).take len)

/-- The tree of the locations of a level, none when there is a duplicate among them. -/
def staticLocations (locations : List Location) : Option Tree :=
  (ngxHttpJoinExactLocations ((ngxQueueSort ngxHttpCmpLocations locations).map
    Entry.ofLocation)).map fun entries =>
      ngxHttpCreateLocationsTree entries.length
        (ngxHttpCreateLocationsList entries.length entries) 0

/-! ## The search -/

/-- `NGX_OK`, `NGX_DONE`, `NGX_AGAIN` and `NGX_DECLINED`. -/
inductive Rc where
  | ok
  | done
  | again
  | declined
  deriving DecidableEq, Repr

/-- What the search returns, and the location whose configuration is now that of the request. -/
structure Found where
  rv : Rc
  location : Option Location
  deriving DecidableEq

/-- The loop of `ngx_http_core_find_static_location`, `uri` being what is left of the URI. -/
def findLoop : Tree → Bytes → Found → Found
  | .null, _, found => found
  | .node left right tree exact inclusive autoRedirect len name, uri, found =>
    let n := if uri.length ≤ len then uri.length else len
    let rc := ngxFilenameCmp uri name n
    if rc ≠ 0 then
      if rc < 0 then findLoop left uri found else findLoop right uri found
    else if uri.length > len then
      match inclusive with
      | some l => findLoop tree (uri.drop n) ⟨.again, some l⟩
      | none => findLoop right uri found
    else if uri.length = len then
      match exact with
      | some l => ⟨.ok, some l⟩
      | none => ⟨.again, inclusive⟩
    else
      let found := if uri.length + 1 = len ∧ autoRedirect then
          ⟨.done, if exact.isSome then exact else inclusive⟩
        else found
      findLoop left uri found

/-- `ngx_http_core_find_static_location(r, node)` -/
def ngxHttpCoreFindStaticLocation (node : Tree) (uri : Bytes) : Found :=
  findLoop node uri ⟨.declined, none⟩

/-!
# The forest of locations

The entries of a level in the order of their names, each inclusive one with those under it in its
list: `Forest` says so of a queue, and `Built` of what a tree is made from.
-/

open List Option

open PrefixOrder

/-! ## The order of bytes -/

/-- The place of a byte in the order of `ngx_filename_cmp`. -/
def rank (c : UInt8) : ℕ := if c = NUL then 0 else if c = SLASH then 1 else c.toNat + 1

theorem toNat_pos {c : UInt8} (h : c ≠ NUL) : 0 < c.toNat := by
  rcases Nat.eq_zero_or_pos c.toNat with h0 | h0
  · exact absurd (UInt8.toNat_inj.1 h0) h
  · exact h0

theorem rank_injective : Function.Injective rank := by
  intro c d h
  have hc : c ≠ NUL → 0 < c.toNat := toNat_pos
  have hd : d ≠ NUL → 0 < d.toNat := toNat_pos
  unfold rank at h
  by_cases h1 : c = NUL <;> by_cases h2 : d = NUL
  · exact h1.trans h2.symm
  · split_ifs at h
  · split_ifs at h
  · rw [if_neg h1, if_neg h2] at h
    have := hc h1
    have := hd h2
    by_cases h3 : c = SLASH <;> by_cases h4 : d = SLASH
    · exact h3.trans h4.symm
    · rw [if_pos h3, if_neg h4] at h
      omega
    · rw [if_neg h3, if_pos h4] at h
      omega
    · rw [if_neg h3, if_neg h4] at h
      exact UInt8.toNat_inj.1 (Nat.succ.inj h)

/-- Two bytes that differ are told apart by their ranks. -/
theorem sign_of_ne (s1 s2 : Bytes) (n : ℕ) (h : s1.headD NUL ≠ s2.headD NUL) :
    (ngxFilenameCmp s1 s2 (n + 1) < 0 ∧ rank (s1.headD NUL) < rank (s2.headD NUL))
      ∨ (0 < ngxFilenameCmp s1 s2 (n + 1) ∧ rank (s2.headD NUL) < rank (s1.headD NUL)) := by
  rw [ngxFilenameCmp]
  generalize s1.headD NUL = c1 at h
  generalize s2.headD NUL = c2 at h
  have h1 : c1 ≠ NUL → 0 < c1.toNat := toNat_pos
  have h2 : c2 ≠ NUL → 0 < c2.toNat := toNat_pos
  have hne : c1.toNat ≠ c2.toNat := fun he => h (UInt8.toNat_inj.1 he)
  have hnul : NUL.toNat = 0 := rfl
  dsimp only
  rw [if_neg h]
  unfold rank
  by_cases hc1 : c1 = NUL
  · have hc2 : c2 ≠ NUL := fun he => h (hc1.trans he.symm)
    rw [if_pos (.inl hc1), if_pos hc1, if_neg hc2, hc1]
    have := h2 hc2
    left
    constructor
    · omega
    · split_ifs <;> omega
  · by_cases hc2 : c2 = NUL
    · rw [if_pos (.inr hc2), if_pos hc2, hc2]
      have := h1 hc1
      right
      constructor
      · omega
      · split_ifs <;> omega
    · rw [if_neg (by simp [hc1, hc2]), if_neg hc1, if_neg hc2]
      have := h1 hc1
      have := h2 hc2
      by_cases hs1 : c1 = SLASH
      · have hs2 : c2 ≠ SLASH := fun he => h (hs1.trans he.symm)
        rw [if_pos hs1, if_pos hs1, if_neg hs2, if_neg hs2]
        omega
      · by_cases hs2 : c2 = SLASH
        · rw [if_neg hs1, if_neg hs1, if_pos hs2, if_pos hs2]
          omega
        · rw [if_neg hs1, if_neg hs1, if_neg hs2, if_neg hs2]
          omega

theorem ngxFilenameCmp_cons {c : UInt8} (hc : c ≠ NUL) (s1 s2 : Bytes) (n : ℕ) :
    ngxFilenameCmp (c :: s1) (c :: s2) (n + 1) = ngxFilenameCmp s1 s2 n := by
  simp [ngxFilenameCmp, hc]

/-! ## Comparing names -/

/-- Within both strings the comparison is that of the words. -/
theorem ngxFilenameCmp_take (n : ℕ) : ∀ s1 s2 : Bytes, n ≤ s1.length → n ≤ s2.length → NUL ∉ s2 →
      (ngxFilenameCmp s1 s2 n = 0 ∧ s1.take n = s2.take n)
        ∨ (ngxFilenameCmp s1 s2 n < 0 ∧ Branches rank (s1.take n) (s2.take n))
        ∨ (0 < ngxFilenameCmp s1 s2 n ∧ Branches rank (s2.take n) (s1.take n)) := by
  induction n with
  | zero => exact fun _ _ _ _ _ => .inl ⟨rfl, rfl⟩
  | succ n ih =>
    intro s1 s2 h1 h2 hnul
    rcases s1 with _ | ⟨c1, s1⟩
    · exact absurd h1 (Nat.not_succ_le_zero n)
    rcases s2 with _ | ⟨c2, s2⟩
    · exact absurd h2 (Nat.not_succ_le_zero n)
    rw [take_succ_cons, take_succ_cons]
    by_cases h : c1 = c2
    · have hc : c2 ≠ NUL := fun he => hnul (he ▸ mem_cons_self)
      rw [h, ngxFilenameCmp_cons hc]
      rcases ih s1 s2 (Nat.le_of_succ_le_succ h1) (Nat.le_of_succ_le_succ h2)
        (fun hmem => hnul (mem_cons_of_mem _ hmem)) with ⟨h3, h4⟩ | ⟨h3, h4⟩ | ⟨h3, h4⟩
      · exact .inl ⟨h3, by rw [h4]⟩
      · exact .inr (.inl ⟨h3, .cons c2 h4⟩)
      · exact .inr (.inr ⟨h3, .cons c2 h4⟩)
    · rcases sign_of_ne (c1 :: s1) (c2 :: s2) n h with ⟨h3, h4⟩ | ⟨h3, h4⟩
      · exact .inr (.inl ⟨h3, .here _ _ h4⟩)
      · exact .inr (.inr ⟨h3, .here _ _ h4⟩)

/-- With the ends of the names the comparison is the order of the words. -/
theorem ngxFilenameCmp_names (s1 : Bytes) : ∀ s2 : Bytes, NUL ∉ s1 → NUL ∉ s2 →
      (ngxFilenameCmp s1 s2 (min s1.length s2.length + 1) = 0 ∧ s1 = s2)
        ∨ (ngxFilenameCmp s1 s2 (min s1.length s2.length + 1) < 0 ∧ Precedes rank s1 s2)
        ∨ (0 < ngxFilenameCmp s1 s2 (min s1.length s2.length + 1) ∧ Precedes rank s2 s1) := by
  induction s1 with
  | nil =>
    intro s2 _ h2
    rcases s2 with _ | ⟨c2, s2⟩
    · exact Or.inl ⟨rfl, rfl⟩
    · have hc : c2 ≠ NUL := fun h => h2 (h ▸ mem_cons_self)
      rcases sign_of_ne [] (c2 :: s2) 0 (fun h => hc h.symm) with
        ⟨h3, -⟩ | ⟨-, h4⟩
      · exact Or.inr (Or.inl ⟨h3, Or.inl ⟨⟨_, rfl⟩, by simp⟩⟩)
      · exact absurd h4 (Nat.not_lt_zero _)
  | cons c1 s1 ih =>
    intro s2 h1 h2
    have hc1 : c1 ≠ NUL := fun h => h1 (h ▸ mem_cons_self)
    rcases s2 with _ | ⟨c2, s2⟩
    · rcases sign_of_ne (c1 :: s1) [] 0 hc1 with ⟨-, h4⟩ | ⟨h3, -⟩
      · exact absurd h4 (Nat.not_lt_zero _)
      · exact Or.inr (Or.inr ⟨h3, Or.inl ⟨⟨_, rfl⟩, by simp⟩⟩)
    · rw [length_cons, length_cons, Nat.succ_min_succ]
      by_cases h : c1 = c2
      · rw [← h, ngxFilenameCmp_cons hc1]
        rcases ih s2 (fun hmem => h1 (mem_cons_of_mem _ hmem))
          (fun hmem => h2 (mem_cons_of_mem _ hmem)) with ⟨h3, h4⟩ | ⟨h3, h4⟩ | ⟨h3, h4⟩
        · exact Or.inl ⟨h3, by rw [h4]⟩
        · exact Or.inr (Or.inl ⟨h3, h4.cons c1⟩)
        · exact Or.inr (Or.inr ⟨h3, h4.cons c1⟩)
      · rcases sign_of_ne (c1 :: s1) (c2 :: s2) (min s1.length s2.length + 1) h with
          ⟨h3, h4⟩ | ⟨h3, h4⟩
        · exact Or.inr (Or.inl ⟨h3, Or.inr (.here _ _ h4)⟩)
        · exact Or.inr (Or.inr ⟨h3, Or.inr (.here _ _ h4)⟩)

/-- A name within another is a prefix of it. -/
theorem isUnder_iff {lq lx : Entry} (h : NUL ∉ lx.name) :
    isUnder lq lx = true ↔ lq.name <+: lx.name := by
  simp only [isUnder, Bool.not_eq_true', Bool.or_eq_false_iff, decide_eq_false_iff_not,
    bne_eq_false_iff_eq, not_lt]
  constructor
  · rintro ⟨hlen, hcmp⟩
    rcases ngxFilenameCmp_take lq.name.length lq.name lx.name le_rfl hlen h with
      ⟨-, h3⟩ | ⟨h3, -⟩ | ⟨h3, -⟩
    · rw [take_length] at h3
      exact prefix_iff_eq_take.2 h3
    · omega
    · omega
  · intro hp
    refine ⟨hp.length_le, ?_⟩
    rcases ngxFilenameCmp_take lq.name.length lq.name lx.name le_rfl hp.length_le h with
      ⟨h3, -⟩ | ⟨-, h3⟩ | ⟨-, h3⟩
    · exact h3
    · rw [take_length, ← prefix_iff_eq_take.1 hp] at h3
      exact absurd (prefix_refl _) h3.not_pre
    · rw [take_length, ← prefix_iff_eq_take.1 hp] at h3
      exact absurd (prefix_refl _) h3.not_pre

/-! ## Sorting -/

section

variable {A : Type} {cmp : A → A → ℤ}

theorem insertBack_perm (q : A) (sorted : List A) :
    (insertBack cmp q sorted).Perm (q :: sorted) := by
  induction sorted with
  | nil => exact List.Perm.refl _
  | cons prev before ih =>
    rw [insertBack]
    split_ifs
    · exact List.Perm.refl _
    · exact (ih.cons prev).trans (List.Perm.swap q prev before)

theorem insertBack_pairwise (htotal : ∀ a b, 0 < cmp a b → cmp b a ≤ 0)
    (htrans : ∀ a b c, cmp a b ≤ 0 → cmp b c ≤ 0 → cmp a c ≤ 0) (q : A) {sorted : List A}
    (h : sorted.Pairwise fun a b => cmp b a ≤ 0) :
    (insertBack cmp q sorted).Pairwise fun a b => cmp b a ≤ 0 := by
  induction sorted with
  | nil => exact pairwise_singleton _ _
  | cons prev before ih =>
    obtain ⟨hprev, hbefore⟩ := pairwise_cons.1 h
    rw [insertBack]
    split_ifs with hle
    · refine pairwise_cons.2 ⟨fun a ha => ?_, h⟩
      rcases mem_cons.1 ha with rfl | ha
      · exact hle
      · exact htrans _ _ _ (hprev a ha) hle
    · refine pairwise_cons.2 ⟨fun a ha => ?_, ih hbefore⟩
      rcases mem_cons.1 ((insertBack_perm q before).mem_iff.1 ha) with rfl | ha
      · exact htotal _ _ (Int.not_le.1 hle)
      · exact hprev a ha

theorem ngxQueueSort_spec (htotal : ∀ a b, 0 < cmp a b → cmp b a ≤ 0)
    (htrans : ∀ a b c, cmp a b ≤ 0 → cmp b c ≤ 0 → cmp a c ≤ 0) (queue : List A) :
    (ngxQueueSort cmp queue).Perm queue
      ∧ (ngxQueueSort cmp queue).Pairwise fun a b => cmp a b ≤ 0 := by
  have hfold : ∀ (queue sorted : List A), (sorted.Pairwise fun a b => cmp b a ≤ 0) →
      (queue.foldl (fun sorted q => insertBack cmp q sorted) sorted).Perm (queue ++ sorted)
        ∧ (queue.foldl (fun sorted q => insertBack cmp q sorted) sorted).Pairwise
          fun a b => cmp b a ≤ 0 := by
    intro queue
    induction queue with
    | nil => exact fun _ h => ⟨List.Perm.refl _, h⟩
    | cons q queue ih =>
      intro sorted h
      obtain ⟨h1, h2⟩ := ih _ (insertBack_pairwise htotal htrans q h)
      refine ⟨h1.trans ?_, h2⟩
      exact ((insertBack_perm q sorted).append_left queue).trans perm_middle
  obtain ⟨h1, h2⟩ := hfold queue [] List.Pairwise.nil
  rw [append_nil] at h1
  exact ⟨(reverse_perm _).trans h1, pairwise_reverse.2 h2⟩

end

/-- The order of locations: by their names, and an exact one before the inclusive one of the
same name. -/
theorem ngxHttpCmpLocations_le {a b : Location} :
    ngxHttpCmpLocations a b ≤ 0 ↔ Precedes rank a.name b.name
      ∨ (a.name = b.name ∧ (a.exactMatch = true ∨ b.exactMatch = false)) := by
  unfold ngxHttpCmpLocations
  dsimp only
  rcases ngxFilenameCmp_names a.name b.name a.nulFree b.nulFree with ⟨h1, h2⟩ | ⟨h1, h2⟩ | ⟨h1, h2⟩
  · rw [h1, h2]
    cases a.exactMatch <;> cases b.exactMatch <;> simp [Precedes.irrefl]
  · exact ⟨fun _ => .inl h2, fun _ => by omega⟩
  · refine ⟨fun h => by omega, ?_⟩
    rintro (h | ⟨h, -⟩)
    · exact absurd h h2.asymm
    · rw [h] at h2
      exact absurd h2 (Precedes.irrefl _)

theorem ngxHttpCmpLocations_total (a b : Location) (h : 0 < ngxHttpCmpLocations a b) :
    ngxHttpCmpLocations b a ≤ 0 := by
  rw [ngxHttpCmpLocations_le]
  have hnot : ¬ ngxHttpCmpLocations a b ≤ 0 := Int.not_le.2 h
  rw [ngxHttpCmpLocations_le, not_or] at hnot
  obtain ⟨h1, h2⟩ := hnot
  rcases precedes_trichotomy rank_injective a.name b.name with h3 | h3 | h3
  · refine .inr ⟨h3.symm, ?_⟩
    cases ha : a.exactMatch
    · exact .inr rfl
    · exact absurd ⟨h3, .inl ha⟩ h2
  · exact absurd h3 h1
  · exact .inl h3

theorem ngxHttpCmpLocations_trans (a b c : Location) (h : ngxHttpCmpLocations a b ≤ 0)
    (h' : ngxHttpCmpLocations b c ≤ 0) : ngxHttpCmpLocations a c ≤ 0 := by
  rw [ngxHttpCmpLocations_le] at *
  rcases h with h | ⟨h, hab⟩ <;> rcases h' with h' | ⟨h', hbc⟩
  · exact .inl (h.trans h')
  · exact .inl (h' ▸ h)
  · exact .inl (h ▸ h')
  · refine .inr ⟨h.trans h', ?_⟩
    cases hb : b.exactMatch
    · rw [hb] at hbc
      exact .inr (hbc.resolve_left Bool.false_ne_true)
    · rw [hb] at hab
      exact .inl (hab.resolve_right (by decide))

/-! ## Joining -/

/-- The locations of an entry. -/
def Entry.locations (e : Entry) : List Location := e.exact.toList ++ e.inclusive.toList

/-- An entry holds locations of its name, in their places, and one at least. -/
structure Entry.Good (e : Entry) : Prop where
  exact : ∀ l, e.exact = some l → l.exactMatch = true ∧ l.name = e.name
  inclusive : ∀ l, e.inclusive = some l → l.exactMatch = false ∧ l.name = e.name
  nonempty : e.exact ≠ none ∨ e.inclusive ≠ none

theorem Entry.Good.nulFree {e : Entry} (h : e.Good) : NUL ∉ e.name := by
  rcases h.nonempty with h1 | h1
  · obtain ⟨l, hl⟩ := ne_none_iff_exists'.1 h1
    exact (h.exact l hl).2 ▸ l.nulFree
  · obtain ⟨l, hl⟩ := ne_none_iff_exists'.1 h1
    exact (h.inclusive l hl).2 ▸ l.nulFree

/-- Every entry stands for a location. -/
theorem Entry.Good.exists_location {e : Entry} (h : e.Good) :
    ∃ l ∈ e.locations, l.name = e.name := by
  rcases h.nonempty with h1 | h1
  · obtain ⟨l, hl⟩ := ne_none_iff_exists'.1 h1
    exact ⟨l, by simp [Entry.locations, hl], (h.exact l hl).2⟩
  · obtain ⟨l, hl⟩ := ne_none_iff_exists'.1 h1
    exact ⟨l, by simp [Entry.locations, hl], (h.inclusive l hl).2⟩

theorem good_exact {l : Location} (h : l.exactMatch = true) {m : Option Location}
    (hm : ∀ n, m = some n → n.exactMatch = false ∧ n.name = l.name) :
    (Entry.mk (some l) m l.name).Good := by
  refine ⟨fun n hn => ?_, hm, .inl (some_ne_none l)⟩
  cases hn
  exact ⟨h, rfl⟩

theorem good_ofLocation (l : Location) : (Entry.ofLocation l).Good := by
  unfold Entry.ofLocation
  split_ifs with h
  · exact good_exact h fun n hn => by cases hn
  · refine ⟨fun n hn => (by cases hn), fun n hn => ?_, .inr (some_ne_none l)⟩
    cases hn
    exact ⟨by simpa using h, rfl⟩

theorem name_ofLocation (l : Location) : (Entry.ofLocation l).name = l.name := by
  unfold Entry.ofLocation
  split_ifs <;> rfl

theorem locations_ofLocation (l : Location) : (Entry.ofLocation l).locations = [l] := by
  unfold Entry.ofLocation
  split_ifs <;> rfl

theorem sameName_iff {lq lx : Entry} (h : NUL ∉ lx.name) :
    (lq.name.length = lx.name.length ∧ ngxFilenameCmp lq.name lx.name lx.name.length = 0)
      ↔ lq.name = lx.name := by
  constructor
  · rintro ⟨hlen, hcmp⟩
    rcases ngxFilenameCmp_take lx.name.length lq.name lx.name hlen.ge le_rfl h with
      ⟨-, h3⟩ | ⟨h3, -⟩ | ⟨h3, -⟩
    · rwa [take_length, ← hlen, take_length] at h3
    · omega
    · omega
  · intro he
    rcases ngxFilenameCmp_take lx.name.length lq.name lx.name (by rw [he]) le_rfl h with
      ⟨h3, -⟩ | ⟨-, h3⟩ | ⟨-, h3⟩
    · exact ⟨by rw [he], h3⟩
    · rw [he] at h3
      exact absurd (prefix_refl _) h3.not_pre
    · rw [he] at h3
      exact absurd (prefix_refl _) h3.not_pre

/-- An entry whose name the next does not have stays as it is. -/
theorem join_cons {lq : Entry} {rest : List Entry}
    (h : ∀ lx ∈ rest.head?, NUL ∉ lx.name ∧ lq.name ≠ lx.name) :
    ngxHttpJoinExactLocations (lq :: rest) = (ngxHttpJoinExactLocations rest).map (lq :: ·) := by
  rcases rest with _ | ⟨lx, rest⟩
  · simp [ngxHttpJoinExactLocations]
  · obtain ⟨hnul, hne⟩ := h lx rfl
    rw [ngxHttpJoinExactLocations, if_neg (mt (sameName_iff hnul).1 hne)]

/-- The strict order of the locations. -/
def Before (a b : Location) : Prop :=
  Precedes rank a.name b.name ∨ (a.name = b.name ∧ a.exactMatch = true ∧ b.exactMatch = false)

theorem join_spec : ∀ ls : List Location, ls.Pairwise Before →
    ∃ es, ngxHttpJoinExactLocations (ls.map Entry.ofLocation) = some es
      ∧ es.flatMap Entry.locations = ls ∧ (es.Pairwise fun a b => Precedes rank a.name b.name)
      ∧ ∀ e ∈ es, e.Good
  | [], _ =>
    ⟨[], by simp [ngxHttpJoinExactLocations], rfl, List.Pairwise.nil,
      fun e he => absurd he not_mem_nil⟩
  | [a], _ => by
    refine ⟨[Entry.ofLocation a], by simp [ngxHttpJoinExactLocations], ?_,
      pairwise_singleton _ _, fun e he => ?_⟩
    · rw [flatMap_singleton, locations_ofLocation]
    · rw [mem_singleton.1 he]
      exact good_ofLocation a
  | a :: b :: rest, h => by
    obtain ⟨ha, hrest⟩ := pairwise_cons.1 h
    obtain ⟨hb, hrest'⟩ := pairwise_cons.1 hrest
    rcases ha b mem_cons_self with hab | ⟨hname, hexact, hincl⟩
    · -- the next has another name
      obtain ⟨es, hjoin, hflat, hsorted, hgood⟩ := join_spec (b :: rest) hrest
      refine ⟨Entry.ofLocation a :: es, ?_, ?_, ?_, ?_⟩
      · rw [map_cons, join_cons, hjoin]
        · rfl
        · intro lx hlx
          rw [map_cons, head?_cons, mem_some_iff] at hlx
          rw [← hlx, name_ofLocation, name_ofLocation]
          refine ⟨b.nulFree, fun he => ?_⟩
          rw [he] at hab
          exact Precedes.irrefl _ hab
      · rw [flatMap_cons, hflat, locations_ofLocation]
        rfl
      · refine pairwise_cons.2 ⟨fun e he => ?_, hsorted⟩
        obtain ⟨l, hl, hlname⟩ := (hgood e he).exists_location
        have hmem : l ∈ b :: rest := hflat ▸ mem_flatMap.2 ⟨e, he, hl⟩
        rw [name_ofLocation, ← hlname]
        rcases mem_cons.1 hmem with rfl | hmem
        · exact hab
        · rcases hb l hmem with hbl | ⟨hbl, -⟩
          · exact hab.trans hbl
          · exact hbl ▸ hab
      · intro e he
        rcases mem_cons.1 he with rfl | he
        · exact good_ofLocation a
        · exact hgood e he
    · -- the next is the inclusive location of the same name
      obtain ⟨es, hjoin, hflat, hsorted, hgood⟩ := join_spec rest hrest'
      have hafter : ∀ l ∈ rest, Precedes rank a.name l.name := by
        intro l hl
        rcases hb l hl with hbl | ⟨-, hbexact, -⟩
        · rwa [hname]
        · rw [hincl] at hbexact
          cases hbexact
      have ha' : Entry.ofLocation a = ⟨some a, none, a.name⟩ := if_pos hexact
      have hb' : Entry.ofLocation b = ⟨none, some b, b.name⟩ := if_neg (by simp [hincl])
      refine ⟨⟨some a, some b, a.name⟩ :: es, ?_, ?_, ?_, ?_⟩
      · rw [map_cons, map_cons, ngxHttpJoinExactLocations, ha', hb',
          if_pos ((sameName_iff (show NUL ∉ b.name from b.nulFree)).2 hname), join_cons, hjoin]
        · rfl
        · intro lx hlx
          rcases rest with _ | ⟨c, rest⟩
          · cases hlx
          · rw [map_cons, head?_cons, mem_some_iff] at hlx
            rw [← hlx, name_ofLocation]
            refine ⟨c.nulFree, fun he => ?_⟩
            have hc := hafter c mem_cons_self
            rw [show a.name = c.name from he] at hc
            exact Precedes.irrefl _ hc
      · rw [flatMap_cons, hflat]
        rfl
      · refine pairwise_cons.2 ⟨fun e he => ?_, hsorted⟩
        obtain ⟨l, hl, hlname⟩ := (hgood e he).exists_location
        rw [← hlname]
        exact hafter l (hflat ▸ mem_flatMap.2 ⟨e, he, hl⟩)
      · intro e he
        rcases mem_cons.1 he with rfl | he
        · refine good_exact hexact fun n hn => ?_
          cases hn
          exact ⟨hincl, hname.symm⟩
        · exact hgood e he

/-! ## The lists -/

mutual

/-- The entry of a queued location, followed by those in its list. -/
def Queued.entries : Queued → List Entry
  | .mk exact inclusive name list => ⟨exact, inclusive, name⟩ :: entriesOf list

/-- All entries of a queue, in their order. -/
def entriesOf : List Queued → List Entry
  | [] => []
  | q :: qs => q.entries ++ entriesOf qs

end

theorem entriesOf_append (ls rs : List Queued) :
    entriesOf (ls ++ rs) = entriesOf ls ++ entriesOf rs := by
  induction ls with
  | nil => rfl
  | cons q ls ih => rw [cons_append, entriesOf, entriesOf, ih, append_assoc]

def Queued.name : Queued → Bytes
  | .mk _ _ name _ => name

def Queued.inclusive : Queued → Option Location
  | .mk _ inclusive _ _ => inclusive

/-- A queue whose names begin with `p` and go up, an inclusive entry having all those that
begin with its name in its list. -/
inductive Forest : Bytes → List Queued → Prop
  | nil (p : Bytes) : Forest p []
  | cons {p : Bytes} {exact inclusive : Option Location} {name : Bytes}
      {list rest : List Queued} (hp : p <+: name) (hlist : Forest name list)
      (hunder : ∀ m ∈ list, Precedes rank name m.name) (hexact : inclusive = none → list = [])
      (hlt : ∀ m ∈ rest, Precedes rank name m.name)
      (hincl : inclusive ≠ none → ∀ m ∈ rest, ¬ name <+: m.name) (hrest : Forest p rest) :
      Forest p (.mk exact inclusive name list :: rest)

/-- What a forest says of one of its entries and those before and after it. -/
structure NodeOf (p : Bytes) (ls : List Queued) (inclusive : Option Location)
    (name : Bytes) (list rs : List Queued) : Prop where
  left : Forest p ls
  right : Forest p rs
  nested : Forest name list
  pre : p <+: name
  under : ∀ m ∈ list, Precedes rank name m.name
  exact : inclusive = none → list = []
  before : ∀ m ∈ ls, Precedes rank m.name name ∧ (m.inclusive ≠ none → ¬ m.name <+: name)
  after : ∀ m ∈ rs, Precedes rank name m.name ∧ (inclusive ≠ none → ¬ name <+: m.name)

theorem Forest.node {p name : Bytes} {ls list rs : List Queued}
    {exact inclusive : Option Location} (h : Forest p (ls ++ .mk exact inclusive name list :: rs)) :
    NodeOf p ls inclusive name list rs := by
  induction ls with
  | nil =>
    cases h with
    | cons hp hlist hunder hexact hlt hincl hrest =>
      exact ⟨.nil p, hrest, hlist, hp, hunder, hexact, fun m hm => absurd hm not_mem_nil,
        fun m hm => ⟨hlt m hm, fun h => hincl h m hm⟩⟩
  | cons q ls ih =>
    cases h with
    | cons hp hlist hunder hexact hlt hincl hrest =>
      have hq := ih hrest
      refine ⟨.cons hp hlist hunder hexact (fun m hm => hlt m (mem_append_left _ hm))
        (fun h m hm => hincl h m (mem_append_left _ hm)) hq.left, hq.right, hq.nested, hq.pre,
        hq.under, hq.exact, fun m hm => ?_, hq.after⟩
      rcases mem_cons.1 hm with rfl | hm
      · exact ⟨hlt _ (mem_append_right _ mem_cons_self),
          fun h => hincl h _ (mem_append_right _ mem_cons_self)⟩
      · exact hq.before m hm

/-- Once an entry is not under `lq`, none after it is. -/
theorem not_pre_dropWhile {lq : Entry} {rest : List Entry} (hgood : ∀ e ∈ rest, e.Good)
    (hlq : ∀ e ∈ rest, Precedes rank lq.name e.name)
    (hsorted : rest.Pairwise fun a b => Precedes rank a.name b.name) :
    ∀ e ∈ rest.dropWhile (isUnder lq), ¬ lq.name <+: e.name := by
  intro e he hpre
  rcases hafter : rest.dropWhile (isUnder lq) with _ | ⟨x, after⟩
  · rw [hafter] at he
    exact absurd he not_mem_nil
  · have hsub : (x :: after).Sublist rest := hafter ▸ dropWhile_sublist _
    have hx : x ∈ rest := hsub.subset mem_cons_self
    have hnot : isUnder lq x = false := by
      have := List.head?_dropWhile_not (isUnder lq) rest
      rw [hafter] at this
      simpa using this
    have hxpre : ¬ lq.name <+: x.name := by
      rw [← isUnder_iff (hgood x hx).nulFree, hnot]
      exact Bool.false_ne_true
    rw [hafter] at he
    rcases mem_cons.1 he with rfl | he
    · exact hxpre hpre
    · have hxe := (pairwise_cons.1 (hsorted.sublist hsub)).1 e he
      exact hxpre ((hlq x hx).prefix_between hxe hpre)

/-- The lists are a forest of the same entries. -/
theorem ngxHttpCreateLocationsList_spec (fuel : ℕ) :
    ∀ (p : Bytes) (es : List Entry), es.length ≤ fuel → (∀ e ∈ es, e.Good) →
      (es.Pairwise fun a b => Precedes rank a.name b.name) → (∀ e ∈ es, p <+: e.name) →
      Forest p (ngxHttpCreateLocationsList fuel es)
        ∧ entriesOf (ngxHttpCreateLocationsList fuel es) = es
        ∧ ∀ m ∈ ngxHttpCreateLocationsList fuel es, ∃ e ∈ es, m.name = e.name := by
  induction fuel with
  | zero =>
    intro p es hlen _ _ _
    rw [eq_nil_of_length_eq_zero (Nat.le_zero.1 hlen)]
    exact ⟨.nil p, rfl, fun m hm => absurd hm not_mem_nil⟩
  | succ fuel ih =>
    intro p es hlen hgood hsorted hp
    rcases es with _ | ⟨lq, es⟩
    · exact ⟨.nil p, rfl, fun m hm => absurd hm not_mem_nil⟩
    have hplq := hp lq mem_cons_self
    -- an entry with the lists of `under` and `after`, which are what comes after it
    have hnode : ∀ under after : List Entry, es = under ++ after →
        (∀ e ∈ under, lq.name <+: e.name) →
        (lq.inclusive = none → under = []) →
        (lq.inclusive ≠ none → ∀ e ∈ after, ¬ lq.name <+: e.name) →
        let r := lq.queued (ngxHttpCreateLocationsList fuel under)
          :: ngxHttpCreateLocationsList fuel after
        Forest p r ∧ entriesOf r = lq :: es ∧ ∀ m ∈ r, ∃ e ∈ lq :: es, m.name = e.name := by
      intro under after hes hunder hexact hincl
      obtain ⟨hlt, hsorted'⟩ := pairwise_cons.1 hsorted
      rw [length_cons, hes, length_append] at hlen
      rw [hes] at hsorted' hlt
      have hmem : ∀ e ∈ under ++ after, e ∈ lq :: es := fun e he =>
        mem_cons_of_mem _ (hes ▸ he)
      obtain ⟨hsu, hsa, -⟩ := pairwise_append.1 hsorted'
      obtain ⟨hf1, he1, hn1⟩ := ih lq.name under (by omega)
        (fun e he => hgood e (hmem e (mem_append_left _ he))) hsu hunder
      obtain ⟨hf2, he2, hn2⟩ := ih p after (by omega)
        (fun e he => hgood e (hmem e (mem_append_right _ he))) hsa
        (fun e he => hp e (hmem e (mem_append_right _ he)))
      refine ⟨.cons hplq hf1 (fun m hm => ?_) (fun h => ?_) (fun m hm => ?_) (fun h m hm => ?_) hf2,
        ?_, fun m hm => ?_⟩
      · obtain ⟨e, he, hname⟩ := hn1 m hm
        exact hname ▸ hlt e (mem_append_left _ he)
      · have hnil : entriesOf (ngxHttpCreateLocationsList fuel under) = [] := by
          rw [he1, hexact h]
        rcases hl : ngxHttpCreateLocationsList fuel under with _ | ⟨⟨e, i, n, l⟩, qs⟩
        · rfl
        · rw [hl] at hnil
          cases hnil
      · obtain ⟨e, he, hname⟩ := hn2 m hm
        exact hname ▸ hlt e (mem_append_right _ he)
      · obtain ⟨e, he, hname⟩ := hn2 m hm
        exact hname ▸ hincl h e he
      · rw [entriesOf, Entry.queued, Queued.entries, he1, he2, hes]
        rfl
      · rcases mem_cons.1 hm with rfl | hm
        · exact ⟨lq, mem_cons_self, rfl⟩
        · obtain ⟨e, he, hname⟩ := hn2 m hm
          exact ⟨e, hmem e (mem_append_right _ he), hname⟩
    have hnil : ngxHttpCreateLocationsList fuel [] = [] := by
      rcases fuel with _ | fuel <;> rfl
    rcases es with _ | ⟨lx, rest⟩
    · have h := hnode [] [] rfl (fun e he => absurd he not_mem_nil) (fun _ => rfl)
        (fun _ e he => absurd he not_mem_nil)
      rw [hnil] at h
      exact h
    · simp only [ngxHttpCreateLocationsList]
      obtain ⟨hlt, hsorted'⟩ := pairwise_cons.1 hsorted
      have hgood' : ∀ e ∈ lx :: rest, e.Good := fun e he => hgood e (mem_cons_of_mem _ he)
      have hwhile := (takeWhile_append_dropWhile (p := isUnder lq) (l := lx :: rest)).symm
      have hunder : ∀ e ∈ (lx :: rest).takeWhile (isUnder lq), lq.name <+: e.name := by
        intro e he
        have hes : e ∈ lx :: rest := (takeWhile_sublist _).subset he
        exact (isUnder_iff (hgood' e hes).nulFree).1 (mem_takeWhile_imp he)
      have hafter := not_pre_dropWhile hgood' hlt hsorted'
      by_cases hnone : lq.inclusive.isNone = true
      · rw [if_pos hnone]
        have h := hnode [] (lx :: rest) rfl (fun e he => absurd he not_mem_nil)
          (fun _ => rfl) (fun h => absurd (isNone_iff_eq_none.1 hnone) h)
        rw [hnil] at h
        exact h
      · have hsome : lq.inclusive ≠ none := fun h => hnone (isNone_iff_eq_none.2 h)
        have h := hnode _ _ hwhile hunder (fun h => absurd h hsome) (fun _ => hafter)
        split_ifs with h1 h2
        · rw [h1, hnil] at h
          exact h
        · rw [h2, hnil] at h
          exact h
        · exact h

/-! ## Trees -/

/-- A tree of a queue whose names begin with `plen` bytes that are left out: any entry may be
the node. -/
inductive Built : ℕ → List Queued → Tree → Prop
  | null (plen : ℕ) : Built plen [] .null
  | node {plen : ℕ} {ls rs list : List Queued} {left right tree : Tree}
      (exact inclusive : Option Location) (name : Bytes) (hleft : Built plen ls left)
      (hright : Built plen rs right) (htree : Built name.length list tree) :
      Built plen (ls ++ .mk exact inclusive name list :: rs)
        (.node left right tree exact inclusive (redirects exact inclusive)
          (uchar (name.length - plen)) (name.drop plen))

theorem length_le_entriesOf (qs : List Queued) : qs.length ≤ (entriesOf qs).length := by
  induction qs with
  | nil => exact le_rfl
  | cons q qs ih =>
    obtain ⟨e, i, n, l⟩ := q
    rw [entriesOf, Queued.entries, length_append, length_cons, length_cons]
    omega

theorem ngxHttpCreateLocationsTree_spec (fuel : ℕ) :
    ∀ (p : Bytes) (qs : List Queued), (entriesOf qs).length ≤ fuel → Forest p qs →
      Built p.length qs (ngxHttpCreateLocationsTree fuel qs p.length) := by
  induction fuel with
  | zero =>
    intro p qs hlen _
    have hqs := length_le_entriesOf qs
    rw [eq_nil_of_length_eq_zero (by omega : qs.length = 0)]
    exact .null _
  | succ fuel ih =>
    intro p qs hlen hforest
    rw [ngxHttpCreateLocationsTree]
    have hqs := (take_append_drop (qs.length / 2) qs).symm
    cases hdrop : qs.drop (qs.length / 2) with
    | nil =>
      have h := congrArg List.length hdrop
      rw [length_drop, length_nil] at h
      rw [eq_nil_of_length_eq_zero (by omega : qs.length = 0)]
      exact .null _
    | cons q tail =>
      obtain ⟨exact, inclusive, name, list⟩ := q
      have hdroplen := congrArg List.length hdrop
      rw [length_drop, length_cons] at hdroplen
      rw [hdrop] at hqs
      generalize hbefore : qs.take (qs.length / 2) = before at hqs
      have htakelen := congrArg List.length hbefore
      rw [length_take] at htakelen
      have hnode := (hqs ▸ hforest : Forest p
        (before ++ .mk exact inclusive name list :: tail)).node
      have hcount : (entriesOf before).length + (entriesOf list).length + (entriesOf tail).length
          ≤ fuel := by
        rw [hqs, entriesOf_append, entriesOf, Queued.entries] at hlen
        simp only [length_append, length_cons] at hlen
        omega
      have hpre := hnode.pre.length_le
      have hlist := ih name list (by omega) hnode.nested
      have hleft := ih p before (by omega) hnode.left
      have hright := ih p tail (by omega) hnode.right
      dsimp only
      rw [Nat.add_sub_cancel' hpre, take_of_length_le (by rw [length_drop])]
      nth_rewrite 1 [hqs]
      refine .node exact inclusive name ?_ ?_ ?_
      · split_ifs with h
        · rw [List.isEmpty_iff.1 h]
          exact .null _
        · exact hleft
      · split_ifs with h
        · have htail : tail = [] := by
            rw [Bool.or_eq_true, List.isEmpty_iff, List.isEmpty_iff] at h
            rcases h with h | h
            · rw [h, length_nil] at htakelen
              exact eq_nil_of_length_eq_zero (by omega)
            · exact h
          rw [htail]
          exact .null _
        · exact hright
      · split_ifs with h
        · rw [List.isEmpty_iff.1 h]
          exact .null _
        · exact hlist

end LocationTree
