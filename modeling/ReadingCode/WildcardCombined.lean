/-
# What wildcard names match

`ngx_hash_find_combined` should return the value of the name that is the host, or of the longest
name with a wildcard at its head that matches it, or of the longest with one at its tail.  It
does so for all hosts if the hashes are sized right and keys that begin with the same labels
stand together when they are sorted; and no less is enough where values tell names apart.
-/
import ReadingCode.WildcardNames

namespace HashTable

open List Option

open LabelRules

variable {V : Type}

/-! ## The best name -/

/-- Names are asked for in the order of their kinds. -/
def Name.kind : Name → ℕ
  | .exact _ => 0
  | .head _ _ => 1
  | .tail _ => 2

/-- A name without its wildcard. -/
def Name.text : Name → Bytes
  | .exact x => x
  | .head x _ => x
  | .tail x => x

/-- Whether a name matches a host. -/
def Name.MatchesHost (host : Bytes) : Name → Prop
  | .exact x => host = x
  | .head x only => (∃ y, host = y ++ DOT :: x) ∨ (only = false ∧ host = x)
  | .tail x => ∃ y, host = x ++ DOT :: y

/-- A name is preferred to those of later kinds, and to those of its kind that are not longer. -/
def Name.Preferred (n n' : Name) : Prop :=
  n.kind < n'.kind ∨ (n.kind = n'.kind ∧ n'.text.length ≤ n.text.length)

/-- The value of the name that is preferred to all that match the host. -/
def Answer (names : List (Name × V)) (host : Bytes) (v : Option V) : Prop :=
  (∃ n ∈ names, n.1.MatchesHost host
      ∧ (∀ n' ∈ names, n'.1.MatchesHost host → n.1.Preferred n'.1) ∧ v = some n.2)
    ∨ ((∀ n ∈ names, ¬ n.1.MatchesHost host) ∧ v = none)

/-- What the combined hash of names should do: no hash is written beyond its space, and every
host gets its answer. -/
structure Finds (hash : Combined V) (names : List (Name × V)) : Prop where
  exactIn : ∀ h ∈ hash.hash, h.inBounds = true
  headIn : ∀ h ∈ hash.wcHead, h.inBounds = true
  tailIn : ∀ h ∈ hash.wcTail, h.inBounds = true
  find : ∀ host, ngxStrlow host = host →
    ∃ v, ngxHashFindCombined hash (ngxHashKey host) host = some v ∧ Answer names host v

/-- All hashes are sized right, and sorted keys that begin with the same labels stand together. -/
structure Favourable (cacheline maxSize bucketSize : ℕ) (keys : List (HashKey V))
    (heads tails : List (DnsKey V)) : Prop where
  exactSized : Sized cacheline (sizeOf keys maxSize bucketSize) keys
  headsSized : LevelsSized cacheline maxSize bucketSize heads
  tailsSized : LevelsSized cacheline maxSize bucketSize tails
  headsTogether : Together (heads.map DnsKey.key)
  tailsTogether : Together (tails.map DnsKey.key)

/-! ## Matching by labels -/

variable {host x y : Bytes}

theorem labels_injective (h : labels x = labels y) : x = y := by
  rw [← dotted_labels x, h, dotted_labels]

theorem suffix_labels_iff : labels x <:+ labels host ↔ host = x ∨ ∃ y, host = y ++ DOT :: x := by
  constructor
  · rintro ⟨t, ht⟩
    have hhost := dotted_labels host
    by_cases hnil : t = []
    · rw [hnil] at ht
      exact .inl (labels_injective ht.symm)
    · rw [← ht, dotted_append hnil (labels_ne_nil x), dotted_labels] at hhost
      exact .inr ⟨_, hhost.symm⟩
  · rintro (rfl | ⟨y, rfl⟩)
    · exact suffix_refl _
    · rw [labels_append]
      exact suffix_append _ _

theorem pre_labels_text_iff : labels x <+: labels host ↔ host = x ∨ ∃ y, host = x ++ DOT :: y := by
  constructor
  · rintro ⟨t, ht⟩
    have hhost := dotted_labels host
    by_cases hnil : t = []
    · rw [hnil, append_nil] at ht
      exact .inl (labels_injective ht.symm)
    · rw [← ht, dotted_append (labels_ne_nil x) hnil, dotted_labels] at hhost
      exact .inr ⟨_, hhost.symm⟩
  · rintro (rfl | ⟨y, rfl⟩)
    · exact prefix_refl _
    · rw [labels_append]
      exact prefix_append _ _

theorem ne_of_append_right : x ≠ y ++ DOT :: x := by
  intro h
  have hlen := congrArg List.length h
  rw [length_append, length_cons] at hlen
  omega

theorem ne_of_append_left : x ≠ x ++ DOT :: y := by
  intro h
  have hlen := congrArg List.length h
  rw [length_append, length_cons] at hlen
  omega

/-- Names with a wildcard at their head are matched as their rules are. -/
theorem matches_headRule {only : Bool} (v : V) :
    Matches (fun only => !only) (headRule x only v) (labels host).reverse
      ↔ (Name.head x only).MatchesHost host := by
  rw [Matches, headRule, reverse_prefix, suffix_labels_iff, reverse_inj]
  constructor
  · rintro ⟨rfl | h, honly⟩
    · exact .inr ⟨by simpa using honly rfl, rfl⟩
    · exact .inl h
  · rintro (⟨y, rfl⟩ | ⟨honly, rfl⟩)
    · exact ⟨.inr ⟨y, rfl⟩, fun he => absurd (labels_injective he) ne_of_append_right⟩
    · exact ⟨.inl rfl, fun _ => by simp [honly]⟩

/-- Names with a wildcard at their tail are matched as their rules are. -/
theorem matches_tailRule (v : V) : Matches (fun _ => false) (tailRule x v) (labels host)
      ↔ (Name.tail x).MatchesHost host := by
  rw [Matches, tailRule, pre_labels_text_iff]
  constructor
  · rintro ⟨rfl | h, hno⟩
    · exact absurd (hno rfl) Bool.false_ne_true
    · exact h
  · rintro ⟨y, rfl⟩
    exact ⟨.inr ⟨y, rfl⟩, fun he => absurd (labels_injective he) ne_of_append_left⟩

/-- Of two ends of a host the one with more labels is longer. -/
theorem length_le_of_suffix {x' : Bytes} (hx : labels x <:+ labels host)
    (hx' : labels x' <:+ labels host) (hle : (labels x').length ≤ (labels x).length) :
    x'.length ≤ x.length := by
  rcases suffix_labels_iff.1 (suffix_of_suffix_length_le hx' hx hle) with rfl | ⟨y, rfl⟩
  · exact le_rfl
  · rw [length_append, length_cons]
    omega

/-- Of two beginnings of a host the one with more labels is longer. -/
theorem length_le_of_pre {x' : Bytes} (hx : labels x <+: labels host)
    (hx' : labels x' <+: labels host) (hle : (labels x').length ≤ (labels x).length) :
    x'.length ≤ x.length := by
  rcases pre_labels_text_iff.1 (prefix_of_prefix_length_le hx' hx hle) with rfl | ⟨y, rfl⟩
  · exact le_rfl
  · rw [length_append]
    omega

/-! ## The rules of names that were added -/

section

variable {ha : KeysArrays V} {names : List (Name × V)}

variable {r : Rule Bytes V}

theorem mem_headRules :
    r ∈ headRules names ↔ ∃ x only v, (Name.head x only, v) ∈ names ∧ r = headRule x only v := by
  rw [headRules, mem_filterMap]
  constructor
  · rintro ⟨⟨n, v⟩, hn, hr⟩
    cases n with
    | head x only => exact ⟨x, only, v, hn, (Option.some.inj hr).symm⟩
    | exact x => cases hr
    | tail x => cases hr
  · rintro ⟨x, only, v, hn, rfl⟩
    exact ⟨_, hn, rfl⟩

theorem mem_tailRules :
    r ∈ tailRules names ↔ ∃ x v, (Name.tail x, v) ∈ names ∧ r = tailRule x v := by
  rw [tailRules, mem_filterMap]
  constructor
  · rintro ⟨⟨n, v⟩, hn, hr⟩
    cases n with
    | tail x => exact ⟨x, v, hn, (Option.some.inj hr).symm⟩
    | exact x => cases hr
    | head x only => cases hr
  · rintro ⟨x, v, hn, rfl⟩
    exact ⟨_, hn, rfl⟩

theorem mem_exactKeys {k : HashKey V} : k ∈ exactKeys names
      ↔ ∃ x v, (Name.exact x, v) ∈ names ∧ k = ⟨x, false, ngxHashKey x, some v⟩ := by
  rw [exactKeys, mem_filterMap]
  constructor
  · rintro ⟨⟨n, v⟩, hn, hr⟩
    cases n with
    | exact x => exact ⟨x, v, hn, (Option.some.inj hr).symm⟩
    | tail x => cases hr
    | head x only => cases hr
  · rintro ⟨x, v, hn, rfl⟩
    exact ⟨_, hn, rfl⟩

/-- Names with the same face are the same. -/
theorem Added.eq_of_face (h : Added ha names) {n n' : Name × V} (hn : n ∈ names) (hn' : n' ∈ names)
    (hface : n.1.face = n'.1.face) : n = n' :=
  inj_on_of_nodup_map h.nodup hn hn' hface

theorem Added.nodup_heads (h : Added ha names) : ((headRules names).map Rule.path).Nodup := by
  refine pairwise_map.2 (pairwise_filterMap.2 ((pairwise_map.1 h.nodup).imp ?_))
  rintro ⟨n, v⟩ ⟨n', v'⟩ hne r hr r' hr' he
  cases n <;> cases hr
  cases n' <;> cases hr'
  rw [headRule, headRule, reverse_inj] at he
  exact hne (by rw [labels_injective he]; rfl)

theorem Added.nodup_tails (h : Added ha names) : ((tailRules names).map Rule.path).Nodup := by
  refine pairwise_map.2 (pairwise_filterMap.2 ((pairwise_map.1 h.nodup).imp ?_))
  rintro ⟨n, v⟩ ⟨n', v'⟩ hne r hr r' hr' he
  cases n <;> cases hr
  cases n' <;> cases hr'
  exact hne (by rw [labels_injective he])

theorem Added.readable_heads (h : Added ha names) : ∀ r ∈ headRules names, Readable r := by
  intro r hr
  obtain ⟨x, only, v, hn, rfl⟩ := mem_headRules.1 hr
  have hvalid := h.valid _ hn
  exact readable_headRule hvalid.1 hvalid.2 only v

theorem Added.readable_tails (h : Added ha names) : ∀ r ∈ tailRules names, Readable r := by
  intro r hr
  obtain ⟨x, v, hn, rfl⟩ := mem_tailRules.1 hr
  have hvalid := h.valid _ hn
  exact readable_tailRule hvalid.1 hvalid.2.1 hvalid.2.2 v

/-- Sorted keys are those of rules in another order. -/
theorem exists_sorted_rules {rules : List (Rule Bytes V)} {sorted : List (DnsKey V)}
    (hread : ∀ r ∈ rules, Readable r) (hnodup : (rules.map Rule.path).Nodup)
    (hsorted : IsSorted (rules.map keyOf) sorted) :
    ∃ rules' : List (Rule Bytes V), sorted = rules'.map keyOf ∧ rules'.Perm rules
      ∧ Level rules' := by
  have hcomp : Relation.Comp (fun a b => a = List.map keyOf b) List.Perm sorted rules := by
    rw [eq_map_comp_perm]
    exact hsorted.perm
  obtain ⟨rules', hmap, hperm⟩ := hcomp
  refine ⟨rules', hmap, hperm, fun r hr => hread r (hperm.subset hr), ?_⟩
  have horder := hsorted.order
  rw [hmap] at horder
  exact prefixesFirst_of_order (fun r hr => hread r (hperm.subset hr))
    ((hperm.map Rule.path).nodup_iff.2 hnodup) horder

end

/-! ## What is found -/

section

variable {cacheline maxSize bucketSize : ℕ} {junk : ℕ → Elt V}
  {wcJunk : List (DnsKey V) → ℕ → Elt (Word V)} {ha : KeysArrays V} {names : List (Name × V)}
  {heads tails : List (DnsKey V)} {hash : Combined V}

theorem ifAny_eq_some {A B : Type} {names : List A} {hash : Option B} {made : Option B}
    (h : ifAny names hash = some made) :
    (names = [] ∧ made = none) ∨ ∃ x, made = some x ∧ hash = some x := by
  rw [ifAny] at h
  split_ifs at h with hnil
  · exact .inl ⟨isEmpty_iff.1 hnil, (Option.some.inj h).symm⟩
  · obtain ⟨x, hx, rfl⟩ := map_eq_some_iff.1 h
    exact .inr ⟨x, rfl, hx⟩

/-- The parts of the combined hash. -/
theorem buildCombined_spec
    (hbuild : buildCombined cacheline maxSize bucketSize junk wcJunk ha.keys heads tails
      = some hash) : ((ha.keys = [] ∧ hash.hash = none)
        ∨ ∃ h, hash.hash = some h ∧ ngxHashInit cacheline maxSize bucketSize junk ha.keys = some h)
      ∧ ((heads = [] ∧ hash.wcHead = none) ∨ ∃ h, hash.wcHead = some h
        ∧ ngxHashWildcardInit cacheline maxSize bucketSize wcJunk (depth heads) heads = some h)
      ∧ ((tails = [] ∧ hash.wcTail = none) ∨ ∃ h, hash.wcTail = some h
        ∧ ngxHashWildcardInit cacheline maxSize bucketSize wcJunk (depth tails) tails =
          some h) := by
  obtain ⟨e, he, hbuild⟩ := bind_eq_some_iff.1 hbuild
  obtain ⟨h, hh, hbuild⟩ := bind_eq_some_iff.1 hbuild
  obtain ⟨t, ht, hbuild⟩ := bind_eq_some_iff.1 hbuild
  cases hbuild
  exact ⟨ifAny_eq_some he, ifAny_eq_some hh, ifAny_eq_some ht⟩

/-- The exact name that is a host. -/
def ExactAnswer (names : List (Name × V)) (host : Bytes) (v : Option V) : Prop :=
  (∃ w, (Name.exact host, w) ∈ names ∧ v = some w) ∨
  ((∀ w, (Name.exact host, w) ∉ names) ∧ v = none)

/-- A hash of exact names. -/
theorem exact_find (hline : IsCacheline cacheline) (hadded : Added ha names) {h : Hash V}
    (hinit : ngxHashInit cacheline maxSize bucketSize junk ha.keys = some h)
    (hin : h.inBounds = true) (host : Bytes) :
    ∃ v, ngxHashFind h (ngxHashKey host) host = some v ∧ ExactAnswer names host v := by
  obtain ⟨-, hpos, hsized, hbuilt⟩ := ngxHashInit_spec hline hinit
  have hplain : ∀ k ∈ ha.keys, Plain k := by
    intro k hk
    rw [hadded.keys] at hk
    obtain ⟨x, v, hn, rfl⟩ := mem_exactKeys.1 hk
    have hlower : ngxStrlow x = x := hadded.valid _ hn
    exact ⟨rfl, by rw [ngxHashKeyLc, hlower], hlower, some_ne_none v⟩
  refine ⟨(ha.keys.find? fun k => k.key = host).bind HashKey.value, ?_, ?_⟩
  · rw [ngxHashFind_spec hline hpos (hsized.1 hin) (hbuilt hin), chainFind_bucket hplain]
  · rw [hadded.keys]
    rcases hfind : (exactKeys names).find? fun k => k.key = host with _ | k
    · refine .inr ⟨fun w hw => ?_, by rw [hfind]; rfl⟩
      have hnot := find?_eq_none.1 hfind _ (mem_exactKeys.2 ⟨host, w, hw, rfl⟩)
      exact hnot (decide_eq_true rfl)
    · obtain ⟨x, w, hw, rfl⟩ := mem_exactKeys.1 (mem_of_find?_eq_some hfind)
      have hkey := find?_some hfind
      obtain rfl : x = host := by simpa using hkey
      exact .inl ⟨w, hw, by rw [hfind]; rfl⟩

/-- The combined hash asks one after the other. -/
theorem ngxHashFindCombined_eq {key : ℕ} {host : Bytes} {e h t : Option V}
    (he : findIn (ngxHashFind · key host) hash.hash = some e)
    (hh : findIn (ngxHashFindWcHead (host.length + 1) · none host) hash.wcHead = some h)
    (ht : findIn (ngxHashFindWcTail (host.length + 1) · none host) hash.wcTail = some t) :
    ngxHashFindCombined hash key host = some (e.or (if host.length = 0 then none else h.or t)) := by
  rw [ngxHashFindCombined, he]
  cases e with
  | some e => rfl
  | none =>
    split_ifs with hlen
    · rfl
    · rw [hh]
      cases h with
      | some h => rfl
      | none => exact ht

/-- What is made of added names that were sorted. -/
structure Made (cacheline maxSize bucketSize : ℕ) (names : List (Name × V))
    (heads tails : List (DnsKey V)) (hash : Combined V)
    (headRules' tailRules' : List (Rule Bytes V)) : Prop where
  heads_eq : heads = headRules'.map keyOf
  tails_eq : tails = tailRules'.map keyOf
  heads_perm : headRules'.Perm (headRules names)
  tails_perm : tailRules'.Perm (tailRules names)
  heads_level : Level headRules'
  tails_level : Level tailRules'
  headsIn : (∀ h ∈ hash.wcHead, h.inBounds = true)
    ↔ LevelsSized cacheline maxSize bucketSize heads
  tailsIn : (∀ h ∈ hash.wcTail, h.inBounds = true)
    ↔ LevelsSized cacheline maxSize bucketSize tails
  exactFind : (∀ h ∈ hash.hash, h.inBounds = true) → ∀ host,
    ∃ v, findIn (ngxHashFind · (ngxHashKey host) host) hash.hash = some v
      ∧ ExactAnswer names host v
  headFind : (∀ h ∈ hash.wcHead, h.inBounds = true) → ∀ host : Bytes,
    findIn (ngxHashFindWcHead (host.length + 1) · none host) hash.wcHead
      = some (search (fun only => !only) (labels host).reverse headRules')
  tailFind : (∀ h ∈ hash.wcTail, h.inBounds = true) → ∀ host : Bytes,
    findIn (ngxHashFindWcTail (host.length + 1) · none host) hash.wcTail
      = some (search (fun _ => false) (labels host) tailRules')

theorem levelsSized_nil : LevelsSized cacheline maxSize bucketSize ([] : List (DnsKey V)) :=
  .mk (fun _ _ hne => absurd rfl hne) fun _ hg => absurd hg not_mem_nil

theorem made_of_build (hline : IsCacheline cacheline) (hadded : Added ha names)
    (hheads : IsSorted ha.dnsWcHead heads) (htails : IsSorted ha.dnsWcTail tails)
    (hbuild : buildCombined cacheline maxSize bucketSize junk wcJunk ha.keys heads tails
      = some hash) : ((∀ h ∈ hash.hash, h.inBounds = true)
        ↔ Sized cacheline (sizeOf ha.keys maxSize bucketSize) ha.keys) ∧ ∃ headRules' tailRules',
        Made cacheline maxSize bucketSize names heads tails hash headRules' tailRules' := by
  rw [hadded.heads] at hheads
  rw [hadded.tails] at htails
  obtain ⟨headRules', rfl, hpermH, hlevelH⟩ :=
    exists_sorted_rules hadded.readable_heads hadded.nodup_heads hheads
  obtain ⟨tailRules', rfl, hpermT, hlevelT⟩ :=
    exists_sorted_rules hadded.readable_tails hadded.nodup_tails htails
  obtain ⟨hexact, hhead, htail⟩ := buildCombined_spec hbuild
  refine ⟨?_, headRules', tailRules', rfl, rfl, hpermH, hpermT, hlevelH, hlevelT, ?_, ?_, ?_, ?_,
    ?_⟩
  · rcases hexact with ⟨hnil, hnone⟩ | ⟨h, hh, hinit⟩
    · rw [hnone, hnil]
      simp [Sized, bucket]
    · rw [hh]
      simp only [mem_some_iff, forall_eq']
      rw [(ngxHashInit_spec hline hinit).2.2.1, (ngxHashInit_spec hline hinit).1]
  · rcases hhead with ⟨hnil, hnone⟩ | ⟨h, hh, hinit⟩
    · rw [hnone, hnil]
      simp [levelsSized_nil]
    · rw [hh]
      simp only [mem_some_iff, forall_eq']
      exact inBounds_iff hline _ hlevelH hinit
  · rcases htail with ⟨hnil, hnone⟩ | ⟨h, hh, hinit⟩
    · rw [hnone, hnil]
      simp [levelsSized_nil]
    · rw [hh]
      simp only [mem_some_iff, forall_eq']
      exact inBounds_iff hline _ hlevelT hinit
  · intro hin host
    rcases hexact with ⟨hnil, hnone⟩ | ⟨h, hh, hinit⟩
    · refine ⟨none, by rw [hnone]; rfl, .inr ⟨fun w hw => ?_, rfl⟩⟩
      have hmem := mem_exactKeys.2 ⟨host, w, hw, rfl⟩
      rw [← hadded.keys, hnil] at hmem
      exact absurd hmem not_mem_nil
    · rw [hh]
      exact exact_find hline hadded hinit (hin h hh) host
  · intro hin host
    rcases hhead with ⟨hnil, hnone⟩ | ⟨h, hh, hinit⟩
    · rw [hnone, map_eq_nil_iff.1 hnil, search_nil]
      rfl
    · rw [hh]
      obtain ⟨v, hv, hor⟩ := (searches hline _ hlevelH hinit (hin h hh)).head (host.length + 1) host
        none (Nat.lt_succ_self _)
      rw [or_none, or_none] at hor
      rw [← hor]
      exact hv
  · intro hin host
    rcases htail with ⟨hnil, hnone⟩ | ⟨h, hh, hinit⟩
    · rw [hnone, map_eq_nil_iff.1 hnil, search_nil]
      rfl
    · rw [hh]
      have honly : ∀ r ∈ tailRules', r.only = false := by
        intro r hr
        obtain ⟨x, v, -, rfl⟩ := mem_tailRules.1 (hpermT.subset hr)
        rfl
      obtain ⟨v, hv, hor⟩ := (searches hline _ hlevelT hinit (hin h hh)).tail honly
        (host.length + 1) host none (Nat.lt_succ_self _)
      rw [or_none, or_none] at hor
      rw [← hor]
      exact hv

/-- What the combined hash finds, if no hash was written beyond its space. -/
theorem Made.find {hr tr : List (Rule Bytes V)}
    (hmade : Made cacheline maxSize bucketSize names heads tails hash hr tr)
    (hexact : ∀ h ∈ hash.hash, h.inBounds = true) (hhead : ∀ h ∈ hash.wcHead, h.inBounds = true)
    (htail : ∀ h ∈ hash.wcTail, h.inBounds = true) (host : Bytes) :
    ∃ e, ExactAnswer names host e ∧ ngxHashFindCombined hash (ngxHashKey host) host
      = some (e.or (if host.length = 0 then none
        else (search (fun only => !only) (labels host).reverse hr).or
          (search (fun _ => false) (labels host) tr))) := by
  obtain ⟨e, he, hans⟩ := hmade.exactFind hexact host
  exact ⟨e, hans, ngxHashFindCombined_eq he (hmade.headFind hhead host) (hmade.tailFind htail host)⟩

end

/-! ## The answer -/

section

variable {ha : KeysArrays V} {names : List (Name × V)} {host : Bytes}
  {rules : List (Rule Bytes V)}

/-- The longest name with a wildcard at its head. -/
theorem head_best (host : Bytes) (hadj : Adjacent rules) (hlevel : Level rules)
    (hperm : rules.Perm (headRules names)) :
    let v := search (fun only => !only) (labels host).reverse rules
    (∃ x only w, (Name.head x only, w) ∈ names ∧ (Name.head x only).MatchesHost host
        ∧ (∀ x' only' w', (Name.head x' only', w') ∈ names →
          (Name.head x' only').MatchesHost host → x'.length ≤ x.length) ∧ v = some w)
      ∨ ((∀ x only w, (Name.head x only, w) ∈ names → ¬ (Name.head x only).MatchesHost host)
        ∧ v = none) := by
  have hbest := search_best (fun only => !only) hadj hlevel.pre.nodup
    (fun r hr => (hlevel.readable r hr).path_ne) (labels host).reverse
  have hmem : ∀ x only w, (Name.head x only, w) ∈ names → headRule x only w ∈ rules :=
    fun x only w hn => hperm.symm.subset (mem_headRules.2 ⟨x, only, w, hn, rfl⟩)
  rcases hbest with ⟨r, hr, hm, hmax, hv⟩ | ⟨hno, hv⟩
  · obtain ⟨x, only, w, hn, rfl⟩ := mem_headRules.1 (hperm.subset hr)
    refine .inl ⟨x, only, w, hn, (matches_headRule w).1 hm, fun x' only' w' hn' hm' => ?_, hv⟩
    have hmatch' := (matches_headRule w').2 hm'
    have hle := hmax _ (hmem x' only' w' hn') hmatch'
    rw [headRule, headRule, length_reverse, length_reverse] at hle
    exact length_le_of_suffix ( reverse_prefix.1 hm.1) ( reverse_prefix.1 hmatch'.1) hle
  · exact .inr ⟨fun x only w hn hm => hno _ (hmem x only w hn) ((matches_headRule w).2 hm), hv⟩

/-- The longest name with a wildcard at its tail. -/
theorem tail_best (host : Bytes) (hadj : Adjacent rules) (hlevel : Level rules)
    (hperm : rules.Perm (tailRules names)) :
    let v := search (fun _ => false) (labels host) rules
    (∃ x w, (Name.tail x, w) ∈ names ∧ (Name.tail x).MatchesHost host
        ∧ (∀ x' w', (Name.tail x', w') ∈ names → (Name.tail x').MatchesHost host →
          x'.length ≤ x.length) ∧ v = some w)
      ∨ ((∀ x w, (Name.tail x, w) ∈ names → ¬ (Name.tail x).MatchesHost host) ∧ v = none) := by
  have hbest := search_best (fun _ => false) hadj hlevel.pre.nodup
    (fun r hr => (hlevel.readable r hr).path_ne) (labels host)
  have hmem : ∀ x w, (Name.tail x, w) ∈ names → tailRule x w ∈ rules :=
    fun x w hn => hperm.symm.subset (mem_tailRules.2 ⟨x, w, hn, rfl⟩)
  rcases hbest with ⟨r, hr, hm, hmax, hv⟩ | ⟨hno, hv⟩
  · obtain ⟨x, w, hn, rfl⟩ := mem_tailRules.1 (hperm.subset hr)
    refine .inl ⟨x, w, hn, (matches_tailRule w).1 hm, fun x' w' hn' hm' => ?_, hv⟩
    have hmatch' := (matches_tailRule w').2 hm'
    exact length_le_of_pre hm.1 hmatch'.1 (hmax _ (hmem x' w' hn') hmatch')
  · exact .inr ⟨fun x w hn hm => hno _ (hmem x w hn) ((matches_tailRule w).2 hm), hv⟩

/-- Nothing but an exact name matches the empty host. -/
theorem Added.not_matchesHost_nil (h : Added ha names) {n : Name × V} (hn : n ∈ names)
    (hkind : n.1.kind ≠ 0) : ¬ n.1.MatchesHost [] := by
  have hvalid := h.valid n hn
  obtain ⟨n, v⟩ := n
  cases n with
  | exact x => exact absurd rfl hkind
  | head x only =>
    rintro (⟨y, hy⟩ | ⟨-, hx⟩)
    · exact absurd hy.symm (by simp)
    · exact hvalid.1.ne_nil hx.symm
  | tail x =>
    rintro ⟨y, hy⟩
    exact absurd hy.symm (by simp)

/-- The exact name, or else the longest with a wildcard, is preferred to all that match. -/
theorem answer_of_best (hadded : Added ha names) {e : Option V} (he : ExactAnswer names host e)
    {hr tr : List (Rule Bytes V)} (hadjH : Adjacent hr) (hlevelH : Level hr)
    (hpermH : hr.Perm (headRules names)) (hadjT : Adjacent tr) (hlevelT : Level tr)
    (hpermT : tr.Perm (tailRules names)) : Answer names host (e.or (if host.length = 0 then none
      else (search (fun only => !only) (labels host).reverse hr).or
        (search (fun _ => false) (labels host) tr))) := by
  rcases he with ⟨w, hw, rfl⟩ | ⟨hno, rfl⟩
  · refine .inl ⟨_, hw, rfl, fun n' hn' hm' => ?_, rfl⟩
    obtain ⟨n', v'⟩ := n'
    cases n' with
    | exact x => exact .inr ⟨rfl, le_of_eq (congrArg List.length hm').symm⟩
    | head x only => exact .inl Nat.zero_lt_one
    | tail x => exact .inl Nat.two_pos
  have hkind : ∀ n ∈ names, n.1.MatchesHost host → n.1.kind ≠ 0 := by
    rintro ⟨n, v⟩ hn hm
    cases n with
    | exact x =>
      obtain rfl : host = x := hm
      exact absurd hn (hno v)
    | head x only => exact Nat.one_ne_zero
    | tail x => exact Nat.succ_ne_zero 1
  rw [none_or]
  by_cases hlen : host.length = 0
  · rw [if_pos hlen]
    refine .inr ⟨fun n hn hm => ?_, rfl⟩
    have hnil := eq_nil_of_length_eq_zero hlen
    exact hadded.not_matchesHost_nil hn (hkind n hn hm) (hnil ▸ hm)
  rw [if_neg hlen]
  rcases head_best host hadjH hlevelH hpermH with
    ⟨x, only, w, hn, hm, hmax, hv⟩ | ⟨hnoH, hv⟩
  · refine .inl ⟨_, hn, hm, fun n' hn' hm' => ?_, by rw [hv, some_or]⟩
    have hk := hkind n' hn' hm'
    obtain ⟨n', v'⟩ := n'
    cases n' with
    | exact x => exact absurd rfl hk
    | head x' only' => exact .inr ⟨rfl, hmax x' only' v' hn' hm'⟩
    | tail x => exact .inl Nat.one_lt_two
  · rw [hv]
    rcases tail_best host hadjT hlevelT hpermT with
      ⟨x, w, hn, hm, hmax, hv⟩ | ⟨hnoT, hv⟩
    · refine .inl ⟨_, hn, hm, fun n' hn' hm' => ?_, hv⟩
      have hk := hkind n' hn' hm'
      obtain ⟨n', v'⟩ := n'
      cases n' with
      | exact x => exact absurd rfl hk
      | head x' only' => exact absurd hm' (hnoH x' only' v' hn')
      | tail x' => exact .inr ⟨rfl, hmax x' v' hn' hm'⟩
    · refine .inr ⟨fun n' hn' hm' => ?_, hv⟩
      have hk := hkind n' hn' hm'
      obtain ⟨n', v'⟩ := n'
      cases n' with
      | exact x => exact absurd rfl hk
      | head x' only' => exact hnoH x' only' v' hn' hm'
      | tail x' => exact hnoT x' v' hn' hm'

/-! ## Names that are lost -/

theorem length_le_of_mem_labels {s l : Bytes} (hl : l ∈ labels s) : l.length ≤ s.length := by
  induction s generalizing l with
  | nil =>
    rw [labels, splitOn_nil, mem_singleton] at hl
    rw [hl]
  | cons c s ih =>
    rw [labels_cons] at hl
    split_ifs at hl
    · rcases mem_cons.1 hl with rfl | hl
      · exact Nat.zero_le _
      · exact Nat.le_succ_of_le (ih hl)
    · obtain ⟨h, t, ht⟩ := exists_cons_of_ne_nil (labels_ne_nil s)
      rw [ht] at hl
      rw [ht] at ih
      rcases mem_cons.1 hl with rfl | hl
      · exact Nat.succ_le_succ (ih mem_cons_self)
      · exact Nat.le_succ_of_le (ih (mem_cons_of_mem _ hl))

/-- A label that is longer than all names. -/
theorem exists_longLabel (names : List (Name × V)) : ∃ z : Bytes, DOT ∉ z ∧ ngxStrlow z = z
    ∧ ∀ n ∈ names, n.1.text.length < z.length := by
  obtain ⟨len, hlen⟩ : ∃ len, ∀ n ∈ names, n.1.text.length < len := by
    induction names with
    | nil => exact ⟨0, by simp⟩
    | cons n names ih =>
      obtain ⟨len, hlen⟩ := ih
      refine ⟨max len (n.1.text.length + 1), fun m hm => ?_⟩
      rcases mem_cons.1 hm with rfl | hm
      · omega
      · have := hlen m hm
        omega
  refine ⟨replicate len 0x61, fun hmem => ?_, ?_, fun n hn => ?_⟩
  · exact absurd (eq_of_mem_replicate hmem) (by decide)
  · rw [ngxStrlow, map_replicate]
    rfl
  · rw [length_replicate]
    exact hlen n hn

/-- A host that begins with a label longer than all names is answered with the longest end. -/
theorem head_answer_unique (hadded : Added ha names) {x z : Bytes} {only : Bool} {w : V}
    {v : Option V} (hdot : DOT ∉ z) (hz : ∀ n ∈ names, n.1.text.length < z.length)
    (hn : (Name.head x only, w) ∈ names) (h : Answer names (z ++ DOT :: x) v) : v = some w := by
  have hm : (Name.head x only).MatchesHost (z ++ DOT :: x) := .inl ⟨z, rfl⟩
  rcases h with ⟨n, hn', hm', hpref, rfl⟩ | ⟨hno, -⟩
  · have hpref := hpref _ hn hm
    have hshort := hz n hn'
    have hface := hadded.eq_of_face hn' hn
    obtain ⟨n, w'⟩ := n
    cases n with
    | exact x' =>
      have hlen := congrArg List.length hm'
      rw [length_append] at hlen
      change x'.length < _ at hshort
      omega
    | head x' only' =>
      have hle : x.length ≤ x'.length := by
        rcases hpref with hlt | ⟨-, hle⟩
        · exact absurd hlt (lt_irrefl _)
        · exact hle
      have hx' := ( reverse_prefix.1 ((matches_headRule w').2 hm').1)
      rw [labels_append, labels_of_notMem hdot, singleton_append, suffix_cons_iff] at hx'
      rcases hx' with hx' | hx'
      · have hlong := length_le_of_mem_labels (s := x') (l := z) (by rw [hx']; simp)
        exact absurd hshort (not_lt.2 hlong)
      · rcases suffix_labels_iff.1 hx' with rfl | ⟨y, rfl⟩
        · exact congrArg (fun n => some n.2) (hface rfl)
        · rw [length_append, length_cons] at hle
          omega
    | tail x' =>
      rcases hpref with hlt | ⟨heq, -⟩
      · exact absurd hlt (lt_asymm Nat.one_lt_two)
      · exact absurd heq (Nat.succ_ne_self 1)
  · exact absurd hm (hno _ hn)

/-- A host that ends with a label longer than all names is answered with the longest beginning. -/
theorem tail_answer_unique (hadded : Added ha names) {x z : Bytes} {w : V} {v : Option V}
    (hdot : DOT ∉ z) (hz : ∀ n ∈ names, n.1.text.length < z.length)
    (hn : (Name.tail x, w) ∈ names) (h : Answer names (x ++ DOT :: z) v) : v = some w := by
  have hm : (Name.tail x).MatchesHost (x ++ DOT :: z) := ⟨z, rfl⟩
  have hlabels : labels (x ++ DOT :: z) = labels x ++ [z] := by
    rw [labels_append, labels_of_notMem hdot]
  rcases h with ⟨n, hn', hm', hpref, rfl⟩ | ⟨hno, -⟩
  · have hpref := hpref _ hn hm
    have hshort := hz n hn'
    have hface := hadded.eq_of_face hn' hn
    obtain ⟨n, w'⟩ := n
    cases n with
    | exact x' =>
      have hlen := congrArg List.length hm'
      rw [length_append, length_cons] at hlen
      change x'.length < _ at hshort
      omega
    | head x' only' =>
      have hx' := ( reverse_prefix.1 ((matches_headRule w').2 hm').1)
      rw [hlabels] at hx'
      have hlast := hx'.getLast (labels_ne_nil x')
      rw [getLast_concat] at hlast
      have hlong := length_le_of_mem_labels (s := x') (l := z)
        (hlast ▸ getLast_mem (labels_ne_nil x'))
      exact absurd hshort (not_lt.2 hlong)
    | tail x' =>
      have hle : x.length ≤ x'.length := by
        rcases hpref with hlt | ⟨-, hle⟩
        · exact absurd hlt (lt_irrefl _)
        · exact hle
      have hx' := ((matches_tailRule w').2 hm').1
      rw [hlabels, prefix_concat_iff] at hx'
      change labels x' = labels x ++ [z] ∨ labels x' <+: labels x at hx'
      rcases hx' with hx' | hx'
      · have hlong := length_le_of_mem_labels (s := x') (l := z) (by rw [hx']; simp)
        exact absurd hshort (not_lt.2 hlong)
      · rcases pre_labels_text_iff.1 hx' with rfl | ⟨y, rfl⟩
        · exact congrArg (fun n => some n.2) (hface rfl)
        · rw [length_append, length_cons] at hle
          omega
  · exact absurd hm (hno _ hn)

end

/-! ## The combined hash -/

section

variable {cacheline maxSize bucketSize hsize : ℕ} {junk : ℕ → Elt V}
  {wcJunk : List (DnsKey V) → ℕ → Elt (Word V)} {ha : KeysArrays V} {names : List (Name × V)}
  {heads tails : List (DnsKey V)} {hash : Combined V} {hr tr : List (Rule Bytes V)}

/-- Rules have the values of their names. -/
theorem nodup_ruleValues (hvalues : (names.map Prod.snd).Nodup) :
    ((headRules names).map Rule.value).Nodup ∧ ((tailRules names).map Rule.value).Nodup := by
  constructor
  all_goals
    refine pairwise_map.2 (pairwise_filterMap.2 ((pairwise_map.1 hvalues).imp ?_))
    rintro ⟨n, v⟩ ⟨n', v'⟩ hne r hr r' hr' he
    cases n <;> cases hr
    cases n' <;> cases hr'
    exact hne he

/-- No exact name is a host with a label longer than all names. -/
theorem exactAnswer_none {host z : Bytes} {e : Option V}
    (hz : ∀ n ∈ names, n.1.text.length < z.length) (hlen : z.length ≤ host.length)
    (he : ExactAnswer names host e) : e = none := by
  rcases he with ⟨w, hw, -⟩ | ⟨-, he⟩
  · have hshort := hz _ hw
    change host.length < z.length at hshort
    omega
  · exact he

/-- Names with a wildcard at their head are all found only if they stand together. -/
theorem adjacent_heads (hadded : Added ha names)
    (hmade : Made cacheline maxSize bucketSize names heads tails hash hr tr)
    (hfinds : Finds hash names) (hvalues : (names.map Prod.snd).Nodup) : Adjacent hr := by
  by_contra hnot
  obtain ⟨r, hr', hlost⟩ := exists_lost (fun only => !only) hnot hmade.heads_level.pre
    ((hmade.heads_perm.map Rule.value).nodup_iff.2 (nodup_ruleValues hvalues).1)
  obtain ⟨x, only, w, hn, rfl⟩ := mem_headRules.1 (hmade.heads_perm.subset hr')
  obtain ⟨z, hdot, hlow, hz⟩ := exists_longLabel names
  have hlower : ngxStrlow (z ++ DOT :: x) = z ++ DOT :: x := by
    rw [ngxStrlow_append, ngxStrlow_cons, hlow, (hadded.valid _ hn).1.lower,
      (ngxTolower_spec DOT).1.2 rfl]
  obtain ⟨v, hv, hans⟩ := hfinds.find _ hlower
  rw [head_answer_unique hadded hdot hz hn hans] at hv
  obtain ⟨e, he, hfind⟩ := hmade.find hfinds.exactIn hfinds.headIn hfinds.tailIn (z ++ DOT :: x)
  have hlen : (z ++ DOT :: x).length ≠ 0 := by simp
  rw [exactAnswer_none hz (by simp) he, none_or, if_neg hlen, hv, Option.some.injEq,
    eq_comm, or_eq_some_iff] at hfind
  have hlabels : (labels (z ++ DOT :: x)).reverse = (labels x).reverse ++ [z] := by
    rw [labels_append, labels_of_notMem hdot, reverse_append]
    rfl
  rcases hfind with hfind | ⟨-, hfind⟩
  · rw [hlabels] at hfind
    exact hlost z hfind
  · -- a name with a wildcard at its tail has another value
    rw [labels_append, labels_of_notMem hdot] at hfind
    obtain ⟨r, hrun, hrw⟩ := exists_of_search hfind
    obtain ⟨x', w', hn', rfl⟩ :=
      mem_tailRules.1 (hmade.tails_perm.subset ((firstRun_sublist _ _).subset hrun))
    have hsame := inj_on_of_nodup_map hvalues hn' hn hrw
    cases congrArg Prod.fst hsame

/-- Names with a wildcard at their tail are all found only if they stand together. -/
theorem adjacent_tails (hadded : Added ha names)
    (hmade : Made cacheline maxSize bucketSize names heads tails hash hr tr)
    (hfinds : Finds hash names) (hvalues : (names.map Prod.snd).Nodup) : Adjacent tr := by
  by_contra hnot
  obtain ⟨r, hr', hlost⟩ := exists_lost (fun _ => false) hnot hmade.tails_level.pre
    ((hmade.tails_perm.map Rule.value).nodup_iff.2 (nodup_ruleValues hvalues).2)
  obtain ⟨x, w, hn, rfl⟩ := mem_tailRules.1 (hmade.tails_perm.subset hr')
  obtain ⟨z, hdot, hlow, hz⟩ := exists_longLabel names
  have hlower : ngxStrlow (x ++ DOT :: z) = x ++ DOT :: z := by
    rw [ngxStrlow_append, ngxStrlow_cons, hlow, (hadded.valid _ hn).1.lower,
      (ngxTolower_spec DOT).1.2 rfl]
  obtain ⟨v, hv, hans⟩ := hfinds.find _ hlower
  rw [tail_answer_unique hadded hdot hz hn hans] at hv
  obtain ⟨e, he, hfind⟩ := hmade.find hfinds.exactIn hfinds.headIn hfinds.tailIn (x ++ DOT :: z)
  have hlen : (x ++ DOT :: z).length ≠ 0 := by simp
  rw [exactAnswer_none hz (by simp only [length_append, length_cons]; omega) he,
    none_or, if_neg hlen, hv, Option.some.injEq, eq_comm, or_eq_some_iff] at hfind
  have hlabels : labels (x ++ DOT :: z) = labels x ++ [z] := by
    rw [labels_append, labels_of_notMem hdot]
  rcases hfind with hfind | ⟨-, hfind⟩
  · -- no name with a wildcard at its head has the last label
    rw [hlabels, reverse_append] at hfind
    obtain ⟨r, hrun, -⟩ := exists_of_search hfind
    obtain ⟨x', only, w', hn', rfl⟩ :=
      mem_headRules.1 (hmade.heads_perm.subset ((firstRun_sublist _ _).subset hrun))
    have hpath := headIs_iff.1 (headIs_of_firstRun hrun)
    have hmem : z ∈ labels x' := by
      rw [← mem_reverse, show (labels x').reverse = (headRule x' only w').path from rfl, hpath]
      exact mem_cons_self
    exact absurd (hz _ hn') (not_lt.2 (length_le_of_mem_labels hmem))
  · rw [hlabels] at hfind
    exact hlost z hfind

/-- **The combined hash.**  If all hashes are sized right and sorted keys that begin with the same
labels stand together, every host is answered with the exact name, or else the longest name with
a wildcard at its head, or else the longest with one at its tail; and no less is enough if no two
names have the same value. -/
theorem finds_iff_favourable (hline : IsCacheline cacheline) {keys : List (Bytes × V)}
    (hadd : addKeys (ngxHashKeysArrayInit hsize) keys = .ok ha)
    (hheads : IsSorted ha.dnsWcHead heads) (htails : IsSorted ha.dnsWcTail tails)
    (hbuild : buildCombined cacheline maxSize bucketSize junk wcJunk ha.keys heads tails
      = some hash) :
    (Favourable cacheline maxSize bucketSize ha.keys heads tails → Finds hash (namesOf keys))
      ∧ ((keys.map Prod.snd).Nodup → Finds hash (namesOf keys) →
        Favourable cacheline maxSize bucketSize ha.keys heads tails) := by
  have hadded := added_of_addKeys hadd
  obtain ⟨hexact, hr, tr, hmade⟩ := made_of_build hline hadded hheads htails hbuild
  have htogetherH : Together (heads.map DnsKey.key) ↔ Adjacent hr := by
    rw [hmade.heads_eq, List.map_map]
    exact together_iff hmade.heads_level.readable hmade.heads_level.pre.nodup
  have htogetherT : Together (tails.map DnsKey.key) ↔ Adjacent tr := by
    rw [hmade.tails_eq, List.map_map]
    exact together_iff hmade.tails_level.readable hmade.tails_level.pre.nodup
  constructor
  · intro h
    have hin := hexact.2 h.exactSized
    have hinH := hmade.headsIn.2 h.headsSized
    have hinT := hmade.tailsIn.2 h.tailsSized
    refine ⟨hin, hinH, hinT, fun host _ => ?_⟩
    obtain ⟨e, he, hfind⟩ := hmade.find hin hinH hinT host
    exact ⟨_, hfind, answer_of_best hadded he (htogetherH.1 h.headsTogether) hmade.heads_level
      hmade.heads_perm (htogetherT.1 h.tailsTogether) hmade.tails_level hmade.tails_perm⟩
  · intro hvalues h
    have hvalues' : ((namesOf keys).map Prod.snd).Nodup := by
      rwa [namesOf, List.map_map]
    exact ⟨hexact.1 h.exactIn, hmade.headsIn.1 h.headIn, hmade.tailsIn.1 h.tailIn,
      htogetherH.2 (adjacent_heads hadded hmade h hvalues'),
      htogetherT.2 (adjacent_tails hadded hmade h hvalues')⟩

end

/-- ".com", "*.a.com", "a.com" and "www.*". -/
def fourNames : List (Bytes × ℕ) :=
  [([0x2e, 0x63, 0x6f, 0x6d], 1), ([0x2a, 0x2e, 0x61, 0x2e, 0x63, 0x6f, 0x6d], 2),
    ([0x61, 0x2e, 0x63, 0x6f, 0x6d], 3), ([0x77, 0x77, 0x77, 0x2e, 0x2a], 4)]

/-- "com" and "com.a." -/
def fourHeads : List (DnsKey ℕ) :=
  [⟨[0x63, 0x6f, 0x6d], 1⟩, ⟨[0x63, 0x6f, 0x6d, 0x2e, 0x61, 0x2e], 2⟩]

/-- "www" -/
def fourTails : List (DnsKey ℕ) := [⟨[0x77, 0x77, 0x77], 4⟩]

theorem finds_fourNames : ∃ ha hash, addKeys (ngxHashKeysArrayInit 107) fourNames = .ok ha
      ∧ IsSorted ha.dnsWcHead fourHeads ∧ IsSorted ha.dnsWcTail fourTails
      ∧ buildCombined 64 512 64 (fun _ => ⟨none, 0, []⟩) (fun _ _ => ⟨none, 0, []⟩) ha.keys
        fourHeads fourTails = some hash ∧ Finds hash (namesOf fourNames) := by
  have hparts : (addKeys (ngxHashKeysArrayInit 107) fourNames).toOption.map
      (fun ha => (ha.keys, ha.dnsWcHead, ha.dnsWcTail))
      = some ([⟨[0x61, 0x2e, 0x63, 0x6f, 0x6d], false, ngxHashKey [0x61, 0x2e, 0x63, 0x6f, 0x6d],
        some 3⟩], fourHeads, fourTails) := by
    decide
  rcases hadd : addKeys (ngxHashKeysArrayInit 107) fourNames with e | ha
  · rw [hadd] at hparts
    cases hparts
  rw [hadd, Except.toOption, map_some, Option.some.injEq, Prod.mk.injEq, Prod.mk.injEq] at hparts
  obtain ⟨hkeys, hheads, htails⟩ := hparts
  have hsortedH : IsSorted ha.dnsWcHead fourHeads :=
    ⟨by rw [hheads], by decide⟩
  have hsortedT : IsSorted ha.dnsWcTail fourTails := ⟨by rw [htails], by decide⟩
  have hbuilt : (buildCombined 64 512 64 (fun _ => ⟨none, 0, []⟩) (fun _ _ => ⟨none, 0, []⟩)
      ha.keys fourHeads fourTails).map (fun hash =>
        (hash.hash.map Hash.inBounds, hash.wcHead.map Hash.inBounds, hash.wcTail.map Hash.inBounds))
      = some (some true, some true, some true) := by
    rw [hkeys]
    decide
  obtain ⟨hash, hbuild, hin⟩ := map_eq_some_iff.1 hbuilt
  rw [Prod.mk.injEq, Prod.mk.injEq] at hin
  have hline : IsCacheline 64 := ⟨by decide, by decide⟩
  have hin' : ∀ {A : Type} {o : Option (Hash A)}, o.map Hash.inBounds = some true →
      ∀ h ∈ o, h.inBounds = true := by
    rintro A o ho h rfl
    exact Option.some.inj ho
  obtain ⟨hexact, hr, tr, hmade⟩ := made_of_build hline (added_of_addKeys hadd) hsortedH hsortedT
    hbuild
  refine ⟨ha, hash, rfl, hsortedH, hsortedT, hbuild, (finds_iff_favourable hline hadd hsortedH
    hsortedT hbuild).1 ⟨hexact.1 (hin' hin.1), hmade.headsIn.1 (hin' hin.2.1), hmade.tailsIn.1 (hin'
    hin.2.2), together_of_order ?_ ?_, together_of_order ?_ ?_⟩⟩
  · decide
  · show ∀ s ∈ _, ∀ c ∈ s, _
    decide +kernel
  · decide
  · show ∀ s ∈ _, ∀ c ∈ s, _
    decide +kernel

/-- ".com", "*.a.com" and ".com" with a control character behind it. -/
def controlNames : List (Bytes × ℕ) :=
  [([0x2e, 0x63, 0x6f, 0x6d], 1), ([0x2a, 0x2e, 0x61, 0x2e, 0x63, 0x6f, 0x6d], 2),
    ([0x2e, 0x63, 0x6f, 0x6d, 0x01], 3)]

/-- "com", "com\x01" and "com.a." -/
def controlHeads : List (DnsKey ℕ) :=
  [⟨[0x63, 0x6f, 0x6d], 1⟩, ⟨[0x63, 0x6f, 0x6d, 0x01], 3⟩,
    ⟨[0x63, 0x6f, 0x6d, 0x2e, 0x61, 0x2e], 2⟩]

/-- The control character is before the dot, so that "com" and "com.a." do not stand together, and
"b.a.com" is answered with ".com". -/
theorem not_finds_controlNames : ∃ ha hash, addKeys (ngxHashKeysArrayInit 107) controlNames = .ok ha
      ∧ IsSorted ha.dnsWcHead controlHeads ∧ IsSorted ha.dnsWcTail []
      ∧ buildCombined 64 512 64 (fun _ => ⟨none, 0, []⟩) (fun _ _ => ⟨none, 0, []⟩) ha.keys
        controlHeads [] = some hash
      ∧ ngxHashFindCombined hash (ngxHashKey [0x62, 0x2e, 0x61, 0x2e, 0x63, 0x6f, 0x6d])
        [0x62, 0x2e, 0x61, 0x2e, 0x63, 0x6f, 0x6d] = some (some 1)
      ∧ ¬ Finds hash (namesOf controlNames) := by
  have hparts : (addKeys (ngxHashKeysArrayInit 107) controlNames).toOption.map
      (fun ha => (ha.keys, ha.dnsWcHead, ha.dnsWcTail))
      = some ([], [⟨[0x63, 0x6f, 0x6d], 1⟩, ⟨[0x63, 0x6f, 0x6d, 0x2e, 0x61, 0x2e], 2⟩,
        ⟨[0x63, 0x6f, 0x6d, 0x01], 3⟩], []) := by
    decide
  rcases hadd : addKeys (ngxHashKeysArrayInit 107) controlNames with e | ha
  · rw [hadd] at hparts
    cases hparts
  rw [hadd, Except.toOption, map_some, Option.some.injEq, Prod.mk.injEq, Prod.mk.injEq] at hparts
  obtain ⟨hkeys, hheads, htails⟩ := hparts
  have hbuilt : (buildCombined 64 512 64 (fun _ => ⟨none, 0, []⟩) (fun _ _ => ⟨none, 0, []⟩)
      ha.keys controlHeads []).map (fun hash => ngxHashFindCombined hash
        (ngxHashKey [0x62, 0x2e, 0x61, 0x2e, 0x63, 0x6f, 0x6d])
        [0x62, 0x2e, 0x61, 0x2e, 0x63, 0x6f, 0x6d]) = some (some (some 1)) := by
    rw [hkeys]
    decide +kernel
  obtain ⟨hash, hbuild, hfind⟩ := map_eq_some_iff.1 hbuilt
  refine ⟨ha, hash, rfl, ⟨?_, by decide⟩, ⟨by rw [htails], .nil⟩, hbuild, hfind,
    fun h => ?_⟩
  · rw [hheads]
    decide
  obtain ⟨v, hv, hans⟩ := h.find [0x62, 0x2e, 0x61, 0x2e, 0x63, 0x6f, 0x6d] (by decide)
  rw [hfind] at hv
  cases hv
  have hnames : namesOf controlNames = [(.head [0x63, 0x6f, 0x6d] false, 1),
      (.head [0x61, 0x2e, 0x63, 0x6f, 0x6d] true, 2),
      (.head [0x63, 0x6f, 0x6d, 0x01] false, 3)] := by
    decide
  rw [hnames] at hans
  -- "*.a.com" is longer than ".com"
  rcases hans with ⟨n, hn, -, hpref, hval⟩ | ⟨-, hnone⟩
  · have hlonger := hpref (.head [0x61, 0x2e, 0x63, 0x6f, 0x6d] true, 2) (by simp)
      (.inl ⟨[0x62], rfl⟩)
    simp only [mem_cons, not_mem_nil, or_false] at hn
    rcases hn with rfl | rfl | rfl
    · rcases hlonger with hlt | ⟨-, hle⟩
      · exact absurd hlt (lt_irrefl _)
      · exact absurd hle (by decide)
    · cases hval
    · cases hval
  · cases hnone

end HashTable
