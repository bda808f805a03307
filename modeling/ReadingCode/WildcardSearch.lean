/-
# Searching wildcard hashes

Where the buckets of all hashes are sized right, the hashes that are made of wildcard names are
searched as their rules are: label by label, from the right for names with a wildcard at their
head and from the left for those with one at their tail.
-/
import ReadingCode.WildcardHash

namespace HashTable

open List Option

open LabelRules

variable {V : Type}

/-! ## Sizes without values -/

/-- A name without its value. -/
def shape (name : HashKey V) : HashKey Unit := ⟨name.key, name.removed, name.keyHash, none⟩

section

variable (names : List (HashKey V))

theorem bucket_shape (size i : ℕ) :
    bucket size (names.map shape) i = (bucket size names i).map shape := by
  rw [bucket, List.filter_map]
  rfl

theorem load_shape (size i : ℕ) : load size (names.map shape) i = load size names i := by
  rw [load, bucket_shape, RecordArea.room, List.map_map]
  rfl

theorem fits_shape (size bucketSize : ℕ) (test : ℕ → ℕ) :
    fits size bucketSize test (names.map shape) = fits size bucketSize test names := by
  induction names generalizing test with
  | nil => rfl
  | cons name names ih =>
    simp only [map_cons, fits, ih]
    rfl

theorem sizeOf_shape (maxSize bucketSize : ℕ) :
    sizeOf (names.map shape) maxSize bucketSize = sizeOf names maxSize bucketSize := by
  rw [sizeOf, chooseSize, length_map]
  simp only [fits_shape]
  rfl

theorem sized_shape (cacheline size : ℕ) :
    Sized cacheline size (names.map shape) ↔ Sized cacheline size names := by
  simp only [Sized, load_shape, bucket_shape, ne_eq, map_eq_nil_iff]

end

/-- The labels that a hash of wildcard names holds. -/
def labelKeys (names : List (DnsKey V)) : List (HashKey Unit) :=
  (groups names.length names).map fun g => ⟨g.label, false, ngxHashKeyLc g.label, none⟩

/-- The hash of first labels is sized right, and those of what comes after each label. -/
inductive LevelsSized (cacheline maxSize bucketSize : ℕ) : List (DnsKey V) → Prop
  | mk {names : List (DnsKey V)}
      (sized : Sized cacheline (sizeOf (labelKeys names) maxSize bucketSize) (labelKeys names))
      (below : ∀ g ∈ groups names.length names, g.nextNames ≠ [] →
        LevelsSized cacheline maxSize bucketSize g.nextNames) :
      LevelsSized cacheline maxSize bucketSize names

/-! ## One hash -/

/-- Names that are found as they are: in lower case and with a value. -/
structure Plain (name : HashKey V) : Prop where
  live : name.removed = false
  hash : name.keyHash = ngxHashKeyLc name.key
  lower : ngxStrlow name.key = name.key
  value : name.value ≠ none

/-- A search finds the first name. -/
theorem chainFind_bucket {names : List (HashKey V)} (hplain : ∀ n ∈ names, Plain n) (size : ℕ)
    (s : Bytes) : chainFind (bucket size names (ngxHashKey s % size)) s
      = (names.find? fun n => n.key = s).bind HashKey.value := by
  induction names with
  | nil => rfl
  | cons n names ih =>
    have ih' := ih fun m hm => hplain m (mem_cons_of_mem _ hm)
    have hn := hplain n mem_cons_self
    obtain ⟨v, hv⟩ := ne_none_iff_exists'.1 hn.value
    by_cases hs : n.key = s
    · have hhash : n.keyHash = ngxHashKey s := by
        rw [hn.hash, ngxHashKeyLc, hn.lower, hs]
      have hlower : ngxStrlow s = s := hs ▸ hn.lower
      rw [bucket, filter_cons_of_pos (by simp [hn.live, hhash]), chainFind,
        find?_cons_of_pos (by simp [hs])]
      simp only [hs, hlower, if_true, bind_some, hv]
    · rw [find?_cons_of_neg (by simp [hs]), ← ih', bucket, bucket, filter_cons]
      split_ifs
      · rw [chainFind, hv]
        simp only [hn.lower, if_neg hs]
      · rfl

variable {A B : Type*}

variable {R : A → B → Prop} {l : List A} {ys : List B}

theorem forall₂_of_mapM {f : A → Option B}
    (h : l.mapM f = some ys) : List.Forall₂ (fun x y => f x = some y) l ys := by
  induction l generalizing ys with
  | nil =>
    cases h
    exact .nil
  | cons x l ih =>
    rw [mapM_cons] at h
    obtain ⟨y, hy, h⟩ := bind_eq_some_iff.1 h
    obtain ⟨ys', hys, h⟩ := bind_eq_some_iff.1 h
    cases h
    exact .cons hy (ih hys)

theorem exists_of_forall₂
    (h : List.Forall₂ R l ys) : (∀ x ∈ l, ∃ y ∈ ys, R x y) ∧ ∀ y ∈ ys, ∃ x ∈ l, R x y := by
  induction h with
  | nil => simp
  | @cons x y l ys hxy _ ih =>
    refine ⟨fun x' hx' => ?_, fun y' hy' => ?_⟩
    · rcases mem_cons.1 hx' with rfl | hx'
      · exact ⟨y, mem_cons_self, hxy⟩
      · obtain ⟨y', hy', h⟩ := ih.1 x' hx'
        exact ⟨y', mem_cons_of_mem _ hy', h⟩
    · rcases mem_cons.1 hy' with rfl | hy'
      · exact ⟨x, mem_cons_self, hxy⟩
      · obtain ⟨x', hx', h⟩ := ih.2 y' hy'
        exact ⟨x', mem_cons_of_mem _ hx', h⟩

/-- What is found in related lists is related. -/
theorem find_of_forall₂ {p : A → Bool} {q : B → Bool}
    (h : List.Forall₂ R l ys) (hpq : ∀ x ∈ l, ∀ y, R x y → p x = q y) :
    (l.find? p = none ∧ ys.find? q = none)
      ∨ ∃ x y, l.find? p = some x ∧ ys.find? q = some y ∧ R x y := by
  induction h with
  | nil => exact .inl ⟨rfl, rfl⟩
  | @cons x y l ys hxy _ ih =>
    have hp := hpq x mem_cons_self y hxy
    rw [find?_cons, find?_cons, ← hp]
    rcases p x with _ | _
    · exact ih fun x hx => hpq x (mem_cons_of_mem _ hx)
    · exact .inr ⟨x, y, rfl, rfl, hxy⟩

/-! ## One level -/

section

variable {cacheline maxSize bucketSize fuel : ℕ} {junk : List (DnsKey V) → ℕ → Elt (Word V)}

/-- What a group becomes in the hash, and whether what is below it is in bounds. -/
inductive IsEntry (init : List (DnsKey V) → Option (Hash (Word V))) (g : Group V) :
    HashKey (Word V) × Bool → Prop
  | leaf (hnil : g.nextNames = []) : IsEntry init g (⟨g.label, false, ngxHashKeyLc g.label,
      some (.data g.value (if g.dot then 1 else 0))⟩, true)
  | hash {wdc : Hash (Word V)} (hne : g.nextNames ≠ []) (hinit : init g.nextNames = some wdc) :
      IsEntry init g (⟨g.label, false, ngxHashKeyLc g.label,
        some (.hwc wdc (if g.ends then some g.value else none) (if g.dot then 3 else 2))⟩,
        wdc.inBounds)

variable {hash : Hash (Word V)}

/-- A hash of wildcard names holds the entries of their groups. -/
theorem ngxHashWildcardInit_succ {names : List (DnsKey V)}
    (h : ngxHashWildcardInit cacheline maxSize bucketSize junk (fuel + 1) names = some hash) :
    ∃ (entries : List (HashKey (Word V) × Bool)) (hash0 : Hash (Word V)),
      List.Forall₂ (IsEntry (ngxHashWildcardInit cacheline maxSize bucketSize junk fuel))
        (groups names.length names) entries
      ∧ ngxHashInit cacheline maxSize bucketSize (junk names) (entries.map Prod.fst) = some hash0
      ∧ hash = { hash0 with inBounds := hash0.inBounds && entries.all Prod.snd } := by
  obtain ⟨entries, hentries, h⟩ := bind_eq_some_iff.1 h
  obtain ⟨hash0, hhash0, h⟩ := bind_eq_some_iff.1 h
  refine ⟨entries, hash0, (forall₂_of_mapM hentries).imp fun g y hy => ?_, hhash0,
    (Option.some.inj h).symm⟩
  by_cases hne : g.nextNames ≠ []
  · rw [if_pos hne] at hy
    obtain ⟨wdc, hwdc, rfl⟩ := map_eq_some_iff.1 hy
    exact .hash hne hwdc
  · rw [if_neg hne] at hy
    cases hy
    exact .leaf (not_not.1 hne)

variable {init : List (DnsKey V) → Option (Hash (Word V))} {g : Group V}

theorem IsEntry.key {y : HashKey (Word V) × Bool} (h : IsEntry init g y) :
    shape y.1 = ⟨g.label, false, ngxHashKeyLc g.label, none⟩ := by
  cases h <;> rfl

theorem map_shape {gs : List (Group V)}
    {entries : List (HashKey (Word V) × Bool)} (h : List.Forall₂ (IsEntry init) gs entries) :
    entries.map (shape ∘ Prod.fst)
      = gs.map fun g => ⟨g.label, false, ngxHashKeyLc g.label, none⟩ := by
  induction h with
  | nil => rfl
  | cons hy _ ih => rw [map_cons, map_cons, ih, Function.comp_apply, hy.key]

theorem IsEntry.plain {y : HashKey (Word V) × Bool} (h : IsEntry init g y)
    (hlower : ngxStrlow g.label = g.label) : Plain y.1 := by
  cases h <;> exact ⟨rfl, rfl, hlower, some_ne_none _⟩

variable {rules run : List (Rule Bytes V)}

/-- The label of a group is that of all rules of its run. -/
theorem IsGroup.any_headIs (h : IsGroup run g) (hrun : run ∈ runs fuel rules)
    (x : Bytes) : run.any (·.headIs x) = decide (g.label = x) := by
  obtain ⟨-, r, others, rfl, hothers⟩ := mem_runs hrun
  cases h with
  | @mk _ h t _ hr =>
    rw [Bool.eq_iff_iff, List.any_eq_true, decide_eq_true_iff]
    constructor
    · rintro ⟨r', hr', hx⟩
      rw [Rule.headIs, decide_eq_true_iff] at hx
      rcases mem_cons.1 hr' with rfl | hr'
      · rw [hr] at hx
        exact Option.some.inj hx
      · have hsame := hothers r' hr'
        rw [sameHead, decide_eq_true_iff, hr, hx] at hsame
        exact (Option.some.inj hsame).symm
    · rintro rfl
      exact ⟨r, mem_cons_self, by simp [Rule.headIs, hr]⟩

theorem IsGroup.lower (h : IsGroup run g)
    (hlevel : Level rules) (hsub : run.Sublist rules) : ngxStrlow g.label = g.label := by
  cases h with
  | mk others hr =>
    exact (hlevel.readable _ (hsub.subset mem_cons_self)).lower _ (by simp [hr])

/-- What a hash of wildcard names holds for each label. -/
inductive Holds (init : List (DnsKey V) → Option (Hash (Word V)))
    (rules : List (Rule Bytes V)) (hash : Hash (Word V)) (x : Bytes) : Prop
  | absent (hrun : firstRun x rules = [])
      (hfind : ngxHashFind hash (ngxHashKey x) x = some none)
  | entry {g : Group V} {y : HashKey (Word V) × Bool} (hg : IsGroup (firstRun x rules) g)
      (hlabel : g.label = x) (hy : IsEntry init g y) (hin : y.2 = true)
      (hfind : ngxHashFind hash (ngxHashKey x) x = some y.1.value)

/-- Whether a hash of wildcard names is in bounds, and what it holds then. -/
theorem level_spec (hline : IsCacheline cacheline) (hlevel : Level rules)
    (h : ngxHashWildcardInit cacheline maxSize bucketSize junk (fuel + 1) (rules.map keyOf)
      = some hash) : (hash.inBounds = true
      ↔ Sized cacheline (sizeOf (labelKeys (rules.map keyOf)) maxSize bucketSize)
          (labelKeys (rules.map keyOf))
        ∧ ∀ g ∈ groups (rules.map keyOf).length (rules.map keyOf), g.nextNames ≠ [] →
          ∃ wdc, ngxHashWildcardInit cacheline maxSize bucketSize junk fuel g.nextNames = some wdc
            ∧ wdc.inBounds = true) ∧ (hash.inBounds = true →
        ∀ x, Holds (ngxHashWildcardInit cacheline maxSize bucketSize junk fuel) rules hash x) := by
  obtain ⟨entries, hash0, hentries, hinit, rfl⟩ := ngxHashWildcardInit_succ h
  obtain ⟨hsize, hpos, hin, hbuilt⟩ := ngxHashInit_spec hline hinit
  have hshape : (entries.map Prod.fst).map shape = labelKeys (rules.map keyOf) := by
    rw [labelKeys, List.map_map, map_shape hentries]
  have hsized : hash0.inBounds = true ↔ Sized cacheline
    (sizeOf (labelKeys (rules.map keyOf)) maxSize
      bucketSize) (labelKeys (rules.map keyOf)) := by
    rw [hin, hsize, ← hshape, sizeOf_shape, sized_shape]
  have hall : entries.all Prod.snd = true
      ↔ ∀ g ∈ groups (rules.map keyOf).length (rules.map keyOf), g.nextNames ≠ [] →
        ∃ wdc, ngxHashWildcardInit cacheline maxSize bucketSize junk fuel g.nextNames = some wdc
          ∧ wdc.inBounds = true := by
    rw [List.all_eq_true]
    constructor
    · intro hin g hg hne
      obtain ⟨y, hy, hgy⟩ := (exists_of_forall₂ hentries).1 g hg
      cases hgy with
      | leaf hnil => exact absurd hnil hne
      | hash _ hwdc => exact ⟨_, hwdc, hin _ hy⟩
    · intro hin y hy
      obtain ⟨g, hg, hgy⟩ := (exists_of_forall₂ hentries).2 y hy
      cases hgy with
      | leaf => rfl
      | hash hne hwdc =>
        obtain ⟨wdc', hwdc', hbounds⟩ := hin g hg hne
        rw [hwdc] at hwdc'
        cases hwdc'
        exact hbounds
  refine ⟨by rw [Bool.and_eq_true, hsized, hall], fun hbounds x => ?_⟩
  rw [Bool.and_eq_true] at hbounds
  have hgroups := groups_keyOf (rules.map keyOf).length hlevel
  have hplain : ∀ n ∈ entries.map Prod.fst, Plain n := by
    intro n hn
    obtain ⟨y, hy, rfl⟩ := mem_map.1 hn
    obtain ⟨g, hg, hgy⟩ := (exists_of_forall₂ hentries).2 y hy
    obtain ⟨run, hrun, hrg⟩ := (exists_of_forall₂ hgroups).2 g hg
    exact hgy.plain (hrg.lower hlevel (mem_runs hrun).1)
  have hfind : ngxHashFind hash0 (ngxHashKey x) x
      = some ((entries.find? fun y => y.1.key = x).bind fun y => y.1.value) := by
    rw [ngxHashFind_spec hline hpos (hin.1 hbounds.1) (hbuilt hbounds.1),
      chainFind_bucket hplain, find?_map, Option.bind_map]
    rfl
  have hruns := find_runs (rules.map keyOf).length x rules (by rw [length_map])
  have hkey : ∀ g ∈ groups (rules.map keyOf).length (rules.map keyOf),
      ∀ y : HashKey (Word V) × Bool,
        IsEntry (ngxHashWildcardInit cacheline maxSize bucketSize junk fuel) g y →
        decide (g.label = x) = decide (y.1.key = x) := by
    intro g _ y hy
    have := congrArg HashKey.key hy.key
    rw [show y.1.key = g.label from this]
  rcases find_of_forall₂ hgroups fun run hrun g hg => hg.any_headIs hrun x with
    ⟨hnone, hnone'⟩ | ⟨run, g, hrun, hg, hrg⟩
  · refine .absent ?_ ?_
    · rw [hruns] at hnone
      split_ifs at hnone with hempty
      exact isEmpty_iff.1 hempty
    · rcases find_of_forall₂ hentries hkey with ⟨-, hnone2⟩ | ⟨g, y, hg, -⟩
      · show ngxHashFind hash0 (ngxHashKey x) x = _
        rw [hfind, hnone2]
        rfl
      · rw [hnone'] at hg
        cases hg
  · have hrun' : run = firstRun x rules := by
      rw [hruns] at hrun
      split_ifs at hrun
      exact (Option.some.inj hrun).symm
    rcases find_of_forall₂ hentries hkey with ⟨hnone, -⟩ | ⟨g', y, hg', hy, hgy⟩
    · rw [hg] at hnone
      cases hnone
    · rw [hg] at hg'
      cases hg'
      refine .entry (hrun' ▸ hrg) (by simpa using find?_some hg) hgy
        (List.all_eq_true.1 hbounds.2 y (mem_of_find?_eq_some hy)) ?_
      show ngxHashFind hash0 (ngxHashKey x) x = _
      rw [hfind, hy]
      rfl

/-! ## All levels -/

/-- What is below a group is a level. -/
theorem IsGroup.level {n : ℕ}
    (hg : IsGroup run g) (hlevel : Level rules) (hrun : run ∈ runs n rules) :
    g.nextNames = (below run).map keyOf ∧ Level (below run)
      ∧ ∀ r ∈ run, r.headIs g.label = true := by
  obtain ⟨hsub, r, others, rfl, hothers⟩ := mem_runs hrun
  cases hg with
  | @mk _ h t _ hr =>
    have hhead : r.headIs h = true := by simp [Rule.headIs, hr]
    have hrun' : ∀ o ∈ r :: others, o.headIs h = true := by
      intro o ho
      rcases mem_cons.1 ho with rfl | ho
      · exact hhead
      · have hsame := hothers o ho
        rwa [sameHead_eq hhead] at hsame
    exact ⟨rfl, (hlevel.sublist hsub).below hrun', hrun'⟩

/-- The hashes are in bounds exactly if all are sized right. -/
theorem inBounds_iff (hline : IsCacheline cacheline) (fuel : ℕ) :
    ∀ {rules : List (Rule Bytes V)}, Level rules → ∀ {hash : Hash (Word V)},
      ngxHashWildcardInit cacheline maxSize bucketSize junk fuel (rules.map keyOf) = some hash →
      (hash.inBounds = true ↔ LevelsSized cacheline maxSize bucketSize (rules.map keyOf)) := by
  induction fuel with
  | zero =>
    intro rules _ hash h
    cases h
  | succ fuel ih =>
    intro rules hlevel hash h
    rw [(level_spec hline hlevel h).1]
    have hgroups := exists_of_forall₂ (groups_keyOf (rules.map keyOf).length hlevel)
    constructor
    · rintro ⟨hsized, hbelow⟩
      refine .mk hsized fun g hg hne => ?_
      obtain ⟨wdc, hwdc, hin⟩ := hbelow g hg hne
      obtain ⟨run, hrun, hrg⟩ := hgroups.2 g hg
      obtain ⟨hnext, hlevel', -⟩ := hrg.level hlevel hrun
      rw [hnext] at hwdc ⊢
      exact (ih hlevel' hwdc).1 hin
    · rintro ⟨hsized, hbelow⟩
      refine ⟨hsized, fun g hg hne => ?_⟩
      obtain ⟨run, hrun, hrg⟩ := hgroups.2 g hg
      obtain ⟨hnext, hlevel', -⟩ := hrg.level hlevel hrun
      obtain ⟨entries, hash0, hentries, -⟩ := ngxHashWildcardInit_succ h
      obtain ⟨y, -, hgy⟩ := (exists_of_forall₂ hentries).1 g hg
      cases hgy with
      | leaf hnil => exact absurd hnil hne
      | hash _ hwdc =>
        have hin := hbelow g hg hne
        have hwdc' := hwdc
        rw [hnext] at hwdc' hin
        exact ⟨_, hwdc, (ih hlevel' hwdc').2 hin⟩

/-! ## Labels of names -/

/-- The labels of a name. -/
def labels (name : Bytes) : List Bytes := name.splitOn DOT

theorem labels_of_notMem {name : Bytes} (h : DOT ∉ name) : labels name = [name] :=
  splitOn_eq_singleton h

theorem labels_append (x y : Bytes) : labels (x ++ DOT :: y) = labels x ++ labels y :=
  splitOn_append_cons_self x y

/-- A name has no dot, or it is what is before the first one, the dot and what is after it. -/
theorem split_first (name : Bytes) : (name.takeWhile (· ≠ DOT) = name ∧ DOT ∉ name)
      ∨ ∃ y, name = name.takeWhile (· ≠ DOT) ++ DOT :: y := by
  have happend := takeWhile_append_dropWhile (p := (· ≠ DOT)) (l := name)
  rcases hdrop : name.dropWhile (· ≠ DOT) with _ | ⟨c, y⟩
  · rw [hdrop, append_nil] at happend
    refine .inl ⟨happend, fun hmem => ?_⟩
    rw [← happend] at hmem
    have := mem_takeWhile_imp hmem
    simp at this
  · have hc := head?_dropWhile_not (· ≠ DOT) name
    rw [hdrop] at hc happend
    obtain rfl : c = DOT := by simpa using hc
    exact .inr ⟨y, happend.symm⟩

theorem dot_notMem_takeWhile (name : Bytes) : DOT ∉ name.takeWhile (· ≠ DOT) := by
  intro hmem
  have := mem_takeWhile_imp hmem
  simp at this

/-- A name is its first label, or goes on after it. -/
theorem first_label (name : Bytes) :
    let label := name.takeWhile (· ≠ DOT)
    (label.length = name.length ∧ labels name = [label])
      ∨ ∃ y, name = label ++ DOT :: y ∧ labels name = label :: labels y := by
  rcases split_first name with ⟨heq, hdot⟩ | ⟨y, hy⟩
  · refine .inl ⟨by rw [heq], ?_⟩
    rw [heq, labels_of_notMem hdot]
  · refine .inr ⟨y, hy, ?_⟩
    conv_lhs => rw [hy]
    rw [labels_append, labels_of_notMem (dot_notMem_takeWhile name), singleton_append]

/-- A name is its last label, or has something before it. -/
theorem last_label (name : Bytes) :
    let label := (name.reverse.takeWhile (· ≠ DOT)).reverse
    (label.length = name.length ∧ labels name = [label])
      ∨ ∃ y, name = y ++ DOT :: label ∧ labels name = labels y ++ [label] := by
  have hdot := dot_notMem_takeWhile name.reverse
  rcases split_first name.reverse with ⟨heq, hnot⟩ | ⟨y, hy⟩
  · rw [mem_reverse] at hnot
    refine .inl ⟨by rw [heq, reverse_reverse], ?_⟩
    rw [heq, reverse_reverse, labels_of_notMem hnot]
  · generalize name.reverse.takeWhile (· ≠ DOT) = label at hy hdot
    have hname : name = y.reverse ++ DOT :: label.reverse := by
      have hrev := congrArg reverse hy
      simpa using hrev
    refine .inr ⟨y.reverse, hname, ?_⟩
    have hlabel := labels_of_notMem (show DOT ∉ label.reverse by rwa [mem_reverse])
    rw [hname, labels_append, hlabel]

/-! ## Searching -/

theorem search_nil (last : Bool → Bool) (t : List Bytes) :
    search last t ([] : List (Rule Bytes V)) = none := by
  induction t with
  | nil => rfl
  | cons h t ih =>
    show (search last t []).or none = none
    rw [ih]
    rfl

/-- Hashes that are searched as rules are. -/
structure Searches (rules : List (Rule Bytes V)) (hash : Hash (Word V)) : Prop where
  head : ∀ (n : ℕ) (name : Bytes) (value : Option V), name.length < n →
    ∃ v, ngxHashFindWcHead n hash value name = some v
      ∧ v.or value = (search (fun only => !only) (labels name).reverse rules).or value
  tail : (∀ r ∈ rules, r.only = false) → ∀ (n : ℕ) (name : Bytes) (value : Option V),
    name.length < n → ∃ v, ngxHashFindWcTail n hash value name = some v
      ∧ v.or value = (search (fun _ => false) (labels name) rules).or value

/-- What the search of a level comes to, if there is a group with the label. -/
theorem search_group {others : List (Rule Bytes V)} {r : Rule Bytes V}
    {h : Bytes} {t : List Bytes} (hlevel : Level rules)
    (hrun : firstRun h rules = r :: others) (hr : r.path = h :: t) (last : Bool → Bool)
    (rest : List Bytes) : search last (h :: rest) rules
      = (search last rest (below (r :: others))).or
        (if t = [] ∧ (rest ≠ [] ∨ last r.only = true) then some r.value else none) := by
  have hsub := firstRun_sublist h rules
  rw [hrun] at hsub
  have hheads : ∀ o ∈ firstRun h rules, o.headIs h = true := fun o ho => headIs_of_firstRun ho
  rw [hrun] at hheads
  have hothers : ∀ o ∈ others, o.headIs h = true := fun o ho =>
    hheads o (mem_cons_of_mem r ho)
  rw [search, hrun]
  rw [own_run hr (hlevel.pre.sublist hsub) hothers]
  by_cases ht : t = []
  · simp [ht]
  · simp [ht]

end

/-- A rule that has nothing below its run ends with its first label. -/
theorem path_of_leaf {r : Rule Bytes V} {others : List (Rule Bytes V)}
    {h : Bytes} {t : List Bytes} (hr : r.path = h :: t)
    (hnil : (below (r :: others)).map keyOf = []) : t = [] := by
  by_contra ht
  have htail : r.tail.path = t := by rw [Rule.tail, hr, tail_cons]
  have hmem : r.tail ∈ below (r :: others) := mem_below.2 ⟨htail ▸ ht, r, mem_cons_self, rfl⟩
  rw [map_eq_nil_iff.1 hnil] at hmem
  exact absurd hmem not_mem_nil

/-- The low bits of a pointer to a hash. -/
theorem hwc_low (dot : Bool) : ¬ ((if dot then 3 else 2 : BitVec 2) &&& 2 = 0)
    ∧ ((if dot then 3 else 2 : BitVec 2) &&& 1 = 0 ↔ dot = false) := by
  cases dot <;> decide

section

variable {cacheline maxSize bucketSize : ℕ} {junk : List (DnsKey V) → ℕ → Elt (Word V)}

/-- **Hashes in bounds are searched as their rules are.** -/
theorem searches (hline : IsCacheline cacheline) (fuel : ℕ) :
    ∀ {rules : List (Rule Bytes V)}, Level rules → ∀ {hash : Hash (Word V)},
      ngxHashWildcardInit cacheline maxSize bucketSize junk fuel (rules.map keyOf) = some hash →
      hash.inBounds = true → Searches rules hash := by
  induction fuel with
  | zero =>
    intro rules _ hash h
    cases h
  | succ fuel ih =>
    intro rules hlevel hash h hin
    have hholds := (level_spec hline hlevel h).2 hin
    -- what is below the group of a label
    have hbelow : ∀ x r others g wdc, firstRun x rules = r :: others →
        IsGroup (r :: others) g → g.label = x →
        ngxHashWildcardInit cacheline maxSize bucketSize junk fuel g.nextNames = some wdc →
        wdc.inBounds = true → Searches (below (r :: others)) wdc := by
      intro x r others g wdc hrun hg hlabel hwdc hbounds
      have hsub := firstRun_sublist x rules
      rw [hrun] at hsub
      have hheads : ∀ o ∈ firstRun x rules, o.headIs x = true := fun o ho => headIs_of_firstRun ho
      rw [hrun] at hheads
      have hlevel' := (hlevel.sublist hsub).below hheads
      have hnext : g.nextNames = (below (r :: others)).map keyOf := by cases hg; rfl
      exact ih hlevel' (hnext ▸ hwdc) hbounds
    constructor
    · intro n name value hn
      rcases n with _ | n
      · exact absurd hn (Nat.not_lt_zero _)
      have hlabels := last_label name
      rw [ngxHashFindWcHead]
      generalize (name.reverse.takeWhile (· ≠ DOT)).reverse = label at hlabels ⊢
      dsimp only at hlabels ⊢
      -- the label is all of the name, or has something before it
      obtain ⟨rest, hrest, hcase⟩ : ∃ rest, (labels name).reverse = label :: rest
          ∧ ((rest = [] ∧ name.length - label.length = 0)
            ∨ (rest ≠ [] ∧ name.length - label.length ≠ 0 ∧ ∃ y : Bytes, y.length < n
                ∧ rest = (labels y).reverse ∧ name.take (name.length - label.length - 1) = y)) := by
        rcases hlabels with ⟨hlen, hl⟩ | ⟨y, hy, hl⟩
        · exact ⟨[], by rw [hl]; rfl, Or.inl ⟨rfl, by omega⟩⟩
        · have hlen := congrArg List.length hy
          rw [length_append, length_cons] at hlen
          refine ⟨(labels y).reverse, by rw [hl, reverse_append]; rfl, Or.inr ⟨?_, by omega, y,
            by omega, rfl, ?_⟩⟩
          · simp [labels]
          · rw [show name.length - label.length - 1 = y.length by omega, hy, take_left]
      rw [hrest]
      cases hholds label with
      | absent hrun hfind =>
        refine ⟨value, by rw [hfind], ?_⟩
        rw [search, hrun]
        show _ = ((search _ rest []).or none).or value
        rw [search_nil, none_or, none_or, Option.or_self]
      | @entry g y hg hlabel hy hbounds hfind =>
        generalize hrun : firstRun label rules = run at hg
        rw [hfind]
        cases hg with
        | @mk r h t others hr =>
          obtain rfl : h = label := hlabel
          rw [search_group hlevel hrun hr]
          cases hy with
          | leaf hnil =>
            have ht := path_of_leaf hr hnil
            rw [map_eq_nil_iff.1 hnil, search_nil, ht]
            rcases hcase with ⟨rfl, hn0⟩ | ⟨hne, hn0, -⟩
            · refine ⟨if r.only then none else some r.value, ?_, ?_⟩
              · cases r.only <;> simp [hn0]
              · cases r.only <;> simp
            · refine ⟨some r.value, ?_, by simp [hne]⟩
              cases r.only <;> simp [hn0]
          | @hash wdc hne hwdc =>
            have hsearches := hbelow h r others _ wdc hrun (.mk others hr) rfl hwdc hbounds
            simp only [(hwc_low _).1, (hwc_low _).2, if_false, ne_eq]
            rcases hcase with ⟨rfl, hn0⟩ | ⟨hgoes, hn0, y, hyn, rfl, hy⟩
            · refine ⟨if t = [] ∧ r.only = false then some r.value else none, ?_, ?_⟩
              · rcases t with _ | ⟨x, t⟩ <;> cases r.only <;> simp [hn0]
              · rcases t with _ | ⟨x, t⟩ <;> cases r.only <;> simp [search]
            · obtain ⟨v, hv, hor⟩ := hsearches.head n y
                (if t.isEmpty then some r.value else none) hyn
              refine ⟨v.or (if t.isEmpty then some r.value else none), ?_, ?_⟩
              · simp only [if_neg hn0, hy, hv]
                cases v <;> rfl
              · rw [hor]
                rcases t with _ | ⟨x, t⟩
                · simp [hgoes]
                · simp
    · intro honly n name value hn
      rcases n with _ | n
      · exact absurd hn (Nat.not_lt_zero _)
      have hlabels := first_label name
      rw [ngxHashFindWcTail]
      generalize name.takeWhile (· ≠ DOT) = label at hlabels ⊢
      rcases hlabels with ⟨hlen, hl⟩ | ⟨y, hy, hl⟩
      · -- a name is not matched by all of its labels
        refine ⟨none, if_pos hlen, ?_⟩
        rw [hl, search, search]
        rcases own (firstRun label rules) with _ | r <;> simp
      · have hylen := congrArg List.length hy
        rw [length_append, length_cons] at hylen
        have hdrop : name.drop (label.length + 1) = y := by
          rw [hy, drop_length_add_append]
          rfl
        have hgoes : labels y ≠ [] := splitOn_ne_nil DOT y
        rw [if_neg (by omega), hl, hdrop]
        cases hholds label with
        | absent hrun hfind =>
          refine ⟨value, by rw [hfind], ?_⟩
          rw [search, hrun]
          show _ = ((search _ (labels y) []).or none).or value
          rw [search_nil, none_or, none_or, Option.or_self]
        | @entry g e hg hlabel he hbounds hfind =>
          generalize hrun : firstRun label rules = run at hg
          rw [hfind]
          cases hg with
          | @mk r h t others hr =>
            obtain rfl : h = label := hlabel
            have hsub := firstRun_sublist h rules
            rw [hrun] at hsub
            have hr' := honly r (hsub.subset mem_cons_self)
            rw [search_group hlevel hrun hr]
            cases he with
            | leaf hnil =>
              have ht := path_of_leaf hr hnil
              rw [map_eq_nil_iff.1 hnil, search_nil, ht]
              exact ⟨some r.value, by simp [hr'], by simp [hgoes]⟩
            | @hash wdc hne hwdc =>
              have hsearches := hbelow h r others _ wdc hrun (.mk others hr) rfl hwdc hbounds
              have honly' : ∀ r' ∈ below (r :: others), r'.only = false := by
                intro o ho
                obtain ⟨-, o, hmem, rfl⟩ := mem_below.1 ho
                exact honly o (hsub.subset hmem)
              obtain ⟨v, hv, hor⟩ := hsearches.tail honly' n y
                (if t.isEmpty then some r.value else none) (by omega)
              refine ⟨v.or (if t.isEmpty then some r.value else none), ?_, ?_⟩
              · simp only [(hwc_low _).1, if_false, hv]
                cases v <;> rfl
              · rw [hor]
                rcases t with _ | ⟨x, t⟩
                · simp [hgoes]
                · simp

end

end HashTable
