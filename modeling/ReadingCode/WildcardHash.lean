/-
# Hashes of wildcard names

`ngx_hash_add_key`, `ngx_hash_wildcard_init`, `ngx_hash_find_wc_head`, `ngx_hash_find_wc_tail`
and `ngx_hash_find_combined` of `ngx_hash.c`, and `ngx_dns_strcmp` of `ngx_string.c`, after
which the names are sorted.  Wildcard names are taken apart label by label: a hash holds first
labels, and its values are pointers whose two low bits tell data from the hash of what comes
after the label.

A key is followed by a `'\0'`, as tokens of the configuration are, and a value is not null.
-/
import ReadingCode.HashTable
import ReadingCode.LabelRules

namespace HashTable

/-- `'*'` -/
abbrev STAR : UInt8 := 0x2a

/-! ## Comparing -/

/-- `ngx_strncmp(s1, s2, n)` -/
def ngxStrncmp : Bytes → Bytes → ℕ → ℤ
  | _, _, 0 => 0
  | s1, s2, n + 1 =>
    let c1 := s1.headD NUL
    let c2 := s2.headD NUL
    if c1 = c2 then
      if c1 = NUL then 0 else ngxStrncmp s1.tail s2.tail n
    else (c1.toNat : ℤ) - c2.toNat

/-- The difference of bytes: in ASCII '.' > '-', but we need '.' to be the lowest character. -/
def dnsDiff (c1 c2 : UInt8) : ℤ :=
  let c1 : UInt8 := if c1 = DOT then 0x20 else c1
  let c2 : UInt8 := if c2 = DOT then 0x20 else c2
  (c1.toNat : ℤ) - c2.toNat

/-- `ngx_dns_strcmp(s1, s2)` -/
def ngxDnsStrcmp : Bytes → Bytes → ℤ
  | [], s2 => dnsDiff NUL (ngxTolower (s2.headD NUL))
  | c :: s1, s2 =>
    let c1 := ngxTolower c
    let c2 := ngxTolower (s2.headD NUL)
    if c1 = c2 then
      if c1 ≠ NUL then ngxDnsStrcmp s1 s2.tail else 0
    else dnsDiff c1 c2

/-! ## Adding names -/

/-- `ngx_hash_key_t` of a wildcard name, whose `key_hash` is 0. -/
structure DnsKey (V : Type) where
  key : Bytes
  value : V
  deriving DecidableEq, Repr

/-- `ngx_hash_keys_arrays_t`, its hash arrays by number. -/
structure KeysArrays (V : Type) where
  hsize : ℕ
  keys : List (HashKey V)
  keysHash : ℕ → List Bytes
  dnsWcHead : List (DnsKey V)
  dnsWcHeadHash : ℕ → List Bytes
  dnsWcTail : List (DnsKey V)
  dnsWcTailHash : ℕ → List Bytes

/-- `NGX_BUSY` and `NGX_DECLINED`. -/
inductive AddError where
  | busy
  | declined
  deriving DecidableEq, Repr

/-- The loop over the bytes of a key: the number of its asterisks, if it is allowed. -/
def scanKey : ℕ → Bytes → Option ℕ
  | n, [] => some n
  | n, c :: rest =>
    let n := if c = STAR then n + 1 else n
    if c = STAR ∧ n > 1 then none
    else if c = DOT ∧ rest.headD NUL = DOT then none
    else if c = NUL then none
    else scanKey n rest

/-- Whether a name is there already. -/
def isBusy (names : List Bytes) (data : Bytes) (len : ℕ) : Bool :=
  names.any fun name => decide (len = name.length) && ngxStrncmp data name len == 0

/-- The loop from the last byte down that turns the labels around, `label` being what was read
since the last dot. -/
def reverseLabels : Bytes → Bytes → Bytes → Bytes
  | [], label, p => p ++ label
  | c :: before, label, p =>
    if c = DOT then reverseLabels before [] (p ++ label ++ [DOT])
    else reverseLabels before (c :: label) p

section

variable {V : Type}

/-- The exact part of `ngx_hash_add_key`. -/
def addExact (ha : KeysArrays V) (key : Bytes) (value : V) (readonlyKey : Bool) :
    Except AddError (KeysArrays V) :=
  let key := if readonlyKey then key else ngxStrlow key
  let k := ngxHashKey key % ha.hsize
  if isBusy (ha.keysHash k) key key.length then .error .busy
  else .ok
    { ha with
      keysHash := Function.update ha.keysHash k (ha.keysHash k ++ [key])
      keys := ha.keys ++ [⟨key, false, ngxHashKey key, some value⟩] }

/-- The wildcard part, `data` being the key from `skip` up to `last`, in lower case. -/
def addWildcard (ha : KeysArrays V) (key : Bytes) (skip last : ℕ) (value : V) :
    Except AddError (KeysArrays V) :=
  let data := ngxStrlow ((key.take last).drop skip)
  let key := key.take skip ++ data ++ key.drop last
  let k := ngxHashKey data % ha.hsize
  -- conflicts in exact hash for ".example.com"
  if skip = 1 ∧ isBusy (ha.keysHash k) (key.drop 1) (last - skip) then .error .busy
  else
    let keysHash :=
      if skip = 1 then
        Function.update ha.keysHash k (ha.keysHash k ++ [(key.drop 1).take (last - 1)])
      else ha.keysHash
    if skip ≠ 0 then
      let p := reverseLabels (key.take last).tail.reverse [] []
      if isBusy (ha.dnsWcHeadHash k) (key.drop skip) (last - skip) then .error .busy
      else .ok
        { ha with
          keysHash := keysHash
          dnsWcHeadHash := Function.update ha.dnsWcHeadHash k
            (ha.dnsWcHeadHash k ++ [(key.drop skip).take (last - skip)])
          dnsWcHead := ha.dnsWcHead ++ [⟨p.take (last - 1), value⟩] }
    else
      let last := last + 1
      let p := key.take (last - 1)
      if isBusy (ha.dnsWcTailHash k) (key.drop skip) (last - skip) then .error .busy
      else .ok
        { ha with
          keysHash := keysHash
          dnsWcTailHash := Function.update ha.dnsWcTailHash k
            (ha.dnsWcTailHash k ++ [(key.drop skip).take (last - skip)])
          dnsWcTail := ha.dnsWcTail ++ [⟨p.take (last - 1), value⟩] }

/-- `ngx_hash_add_key(ha, key, value, flags)`, as far as memory is there. -/
def ngxHashAddKey (ha : KeysArrays V) (key : Bytes) (value : V)
    (wildcardKey readonlyKey : Bool) : Except AddError (KeysArrays V) :=
  if wildcardKey then
    match scanKey 0 key with
    | none => .error .declined
    | some n =>
      if key.length > 1 ∧ key.headD NUL = DOT then addWildcard ha key 1 key.length value
      else if key.length > 2 ∧ key.headD NUL = STAR ∧ key.getD 1 NUL = DOT then
        addWildcard ha key 2 key.length value
      else if key.length > 2 ∧ key.getD (key.length - 2) NUL = DOT
          ∧ key.getD (key.length - 1) NUL = STAR then
        addWildcard ha key 0 (key.length - 2) value
      else if n ≠ 0 then .error .declined
      else addExact ha key value readonlyKey
  else addExact ha key value readonlyKey

/-- `ngx_hash_keys_array_init(ha, type)` -/
def ngxHashKeysArrayInit (hsize : ℕ) : KeysArrays V :=
  ⟨hsize, [], fun _ => [], [], fun _ => [], [], fun _ => []⟩

/-- Names that are all added as wildcard keys. -/
def addKeys (ha : KeysArrays V) : List (Bytes × V) → Except AddError (KeysArrays V)
  | [] => .ok ha
  | (key, value) :: names =>
    match ngxHashAddKey ha key value true false with
    | .error e => .error e
    | .ok ha => addKeys ha names

/-! ## Building -/

/-- A pointer that is the value of a wildcard hash: to data, or to an `ngx_hash_wildcard_t` with
its hash and its value, and its two low bits. -/
inductive Word (V : Type) where
  | data (value : V) (low : BitVec 2)
  | hwc (hash : Hash (Word V)) (value : Option V) (low : BitVec 2)

/-- What the loop of `ngx_hash_wildcard_init` makes of names from `n` on: the label of
`names[n]`, whether there is a dot after it, its value, whether `names[n].key.len == len`, and
`next_names`. -/
structure Group (V : Type) where
  label : Bytes
  dot : Bool
  value : V
  ends : Bool
  nextNames : List (DnsKey V)

/-- The length of the first label. -/
def labelLen (key : Bytes) : ℕ := (key.takeWhile (· ≠ DOT)).length

/-- Whether `names[i]` is in the group of `names[n]`. -/
def inGroup (first name : DnsKey V) : Bool :=
  let dot := decide (labelLen first.key < first.key.length)
  let len := if dot then labelLen first.key + 1 else labelLen first.key
  !(ngxStrncmp first.key name.key len != 0)
    && !(!dot && decide (name.key.length > len) && name.key.getD len NUL != DOT)

/-- The group of `names[n]` and the names after it that are in it.  None of these is shorter
than `dot_len`, the names being different. -/
def group (first : DnsKey V) (others : List (DnsKey V)) : Group V :=
  let dot := decide (labelLen first.key < first.key.length)
  let dotLen := labelLen first.key + 1
  let len := if dot then labelLen first.key + 1 else labelLen first.key
  { label := first.key.take (labelLen first.key)
    dot := dot
    value := first.value
    ends := decide (first.key.length = len)
    nextNames := (if first.key.length ≠ len then [⟨first.key.drop len, first.value⟩] else [])
      ++ others.map fun name => ⟨name.key.drop dotLen, name.value⟩ }

/-- The groups of names, of which there are no more than `fuel`. -/
def groups : ℕ → List (DnsKey V) → List (Group V)
  | 0, _ => []
  | _, [] => []
  | fuel + 1, first :: names =>
    group first (names.takeWhile (inGroup first)) :: groups fuel (names.dropWhile (inGroup first))

/-- `ngx_hash_wildcard_init(hinit, names, nelts)`, with the key function `ngx_hash_key_lc` and
no more than `fuel` calls within each other; `junk` is what memory held when a hash of names was
made.  The hash is in bounds if those below it are. -/
def ngxHashWildcardInit (cacheline maxSize bucketSize : ℕ)
    (junk : List (DnsKey V) → ℕ → Elt (Word V)) : ℕ → List (DnsKey V) → Option (Hash (Word V))
  | 0, _ => none
  | fuel + 1, names => do
    let currNames ← (groups names.length names).mapM fun g =>
      if g.nextNames ≠ [] then
        (ngxHashWildcardInit cacheline maxSize bucketSize junk fuel g.nextNames).map fun wdc =>
          ((⟨g.label, false, ngxHashKeyLc g.label,
            some (.hwc wdc (if g.ends then some g.value else none) (if g.dot then 3 else 2))⟩ :
            HashKey (Word V)), wdc.inBounds)
      else
        some (⟨g.label, false, ngxHashKeyLc g.label,
          some (.data g.value (if g.dot then 1 else 0))⟩, true)
    let hash ← ngxHashInit cacheline maxSize bucketSize (junk names) (currNames.map Prod.fst)
    some { hash with inBounds := hash.inBounds && currNames.all Prod.snd }

/-- As many calls within each other as the longest name has bytes are enough. -/
def depth (names : List (DnsKey V)) : ℕ := (names.map (·.key.length)).foldr max 0 + 1

/-! ## Searching -/

/-- `ngx_hash_find_wc_head(hwc, name, len)`, `value` being `hwc->value`, with no more than `fuel`
calls within each other, unless it leaves the memory of a hash. -/
def ngxHashFindWcHead : ℕ → Hash (Word V) → Option V → Bytes → Option (Option V)
  | 0, _, _, _ => none
  | fuel + 1, hash, value, name =>
    let label := (name.reverse.takeWhile (· ≠ DOT)).reverse
    let n := name.length - label.length
    match ngxHashFind hash (ngxHashKey label) label with
    | none => none
    | some none => some value
    | some (some (.hwc sub subValue low)) =>
      if low &&& 2 = 0 then none
      else if n = 0 then
        -- "example.com"
        if low &&& 1 ≠ 0 then some none else some subValue
      else
        match ngxHashFindWcHead fuel sub subValue (name.take (n - 1)) with
        | none => none
        | some (some v) => some (some v)
        | some none => some subValue
    | some (some (.data v low)) =>
      if low &&& 2 ≠ 0 then none
      else if low &&& 1 ≠ 0 then
        if n = 0 then some none else some (some v)
      else some (some v)

/-- `ngx_hash_find_wc_tail(hwc, name, len)` likewise; data is returned with its low bits. -/
def ngxHashFindWcTail : ℕ → Hash (Word V) → Option V → Bytes → Option (Option V)
  | 0, _, _, _ => none
  | fuel + 1, hash, value, name =>
    let label := name.takeWhile (· ≠ DOT)
    let i := label.length
    if i = name.length then some none
    else
      match ngxHashFind hash (ngxHashKey label) label with
      | none => none
      | some none => some value
      | some (some (.hwc sub subValue low)) =>
        if low &&& 2 = 0 then none
        else
          match ngxHashFindWcTail fuel sub subValue (name.drop (i + 1)) with
          | none => none
          | some (some v) => some (some v)
          | some none => some subValue
      | some (some (.data v low)) => if low ≠ 0 then none else some (some v)

/-- `ngx_hash_combined_t`; a hash that was not made has no buckets. -/
structure Combined (V : Type) where
  hash : Option (Hash V)
  wcHead : Option (Hash (Word V))
  wcTail : Option (Hash (Word V))

/-- What a hash finds if it has buckets. -/
def findIn {A B : Type} (find : A → Option (Option B)) : Option A → Option (Option B)
  | none => some none
  | some hash => find hash

/-- `ngx_hash_find_combined(hash, key, name, len)` -/
def ngxHashFindCombined (hash : Combined V) (key : ℕ) (name : Bytes) : Option (Option V) :=
  match findIn (ngxHashFind · key name) hash.hash with
  | none => none
  | some (some v) => some (some v)
  | some none =>
    if name.length = 0 then some none
    else
      match findIn (ngxHashFindWcHead (name.length + 1) · none name) hash.wcHead with
      | none => none
      | some (some v) => some (some v)
      | some none => findIn (ngxHashFindWcTail (name.length + 1) · none name) hash.wcTail

/-- A hash is made only if there are names for it. -/
def ifAny {A B : Type} (names : List A) (hash : Option B) : Option (Option B) :=
  if names.isEmpty then some none else hash.map some

/-- The hashes of names that were added, `heads` and `tails` being the wildcard names sorted, as
`ngx_http_server_names` makes them. -/
def buildCombined (cacheline maxSize bucketSize : ℕ) (junk : ℕ → Elt V)
    (wcJunk : List (DnsKey V) → ℕ → Elt (Word V)) (keys : List (HashKey V))
    (heads tails : List (DnsKey V)) : Option (Combined V) := do
  let hash ← ifAny keys (ngxHashInit cacheline maxSize bucketSize junk keys)
  let wcHead ← ifAny heads
    (ngxHashWildcardInit cacheline maxSize bucketSize wcJunk (depth heads) heads)
  let wcTail ← ifAny tails
    (ngxHashWildcardInit cacheline maxSize bucketSize wcJunk (depth tails) tails)
  some ⟨hash, wcHead, wcTail⟩

end

/-!
# Wildcard names as rules

A wildcard name is a rule for paths of labels, and its key is the labels with dots between
them, and one behind them if only names with more labels are matched.  The groups that
`ngx_hash_wildcard_init` makes of such keys are the runs of the rules.
-/

open LabelRules List

variable {V : Type}

/-! ## Keys -/

/-- Labels with dots between them. -/
def dotted (path : List Bytes) : Bytes := [DOT].intercalate path

/-- The key of a rule. -/
def keyOf (r : Rule Bytes V) : DnsKey V :=
  ⟨dotted r.path ++ if r.only then [DOT] else [], r.value⟩

/-- A rule whose key can be read again: labels without dots, none empty but the first. -/
structure Readable (r : Rule Bytes V) : Prop where
  path_ne : r.path ≠ []
  dotFree : ∀ l ∈ r.path, DOT ∉ l
  nulFree : ∀ l ∈ r.path, NUL ∉ l
  lower : ∀ l ∈ r.path, ngxStrlow l = l
  inner : ∀ l ∈ r.path.tail, l ≠ []

theorem dotted_cons (h : Bytes) {t : List Bytes} (ht : t ≠ []) :
    dotted (h :: t) = h ++ DOT :: dotted t := by
  rw [dotted, intercalate_cons_of_ne_nil ht, append_assoc]
  rfl

theorem dotted_singleton (h : Bytes) : dotted [h] = h := intercalate_singleton

section

variable {r r' : Rule Bytes V} {h : Bytes} {t : List Bytes}

theorem keyOf_ends (hr : r.path = [h]) : (keyOf r).key = h ++ if r.only then [DOT] else [] := by
  rw [keyOf, hr, dotted_singleton]

theorem keyOf_goes (hr : r.path = h :: t) (ht : t ≠ []) :
    (keyOf r).key = h ++ DOT :: (keyOf r.tail).key := by
  simp only [keyOf, Rule.tail, hr, tail_cons]
  rw [dotted_cons h ht, append_assoc, cons_append]

/-- A key is its first label, and a dot if there is more. -/
theorem keyOf_eq (hr : r.path = h :: t) :
    ∃ m, (keyOf r).key = h ++ m ∧ (m = [] ↔ t = [] ∧ r.only = false) ∧ ∀ c ∈ m.head?, c = DOT := by
  by_cases ht : t = []
  · subst ht
    refine ⟨_, keyOf_ends hr, ?_, ?_⟩
    · cases r.only <;> simp
    · cases r.only <;> simp
  · exact ⟨_, keyOf_goes hr ht, by simp [ht], by simp⟩

theorem Readable.tail (h : Readable r) (hne : r.tail.path ≠ []) : Readable r.tail where
  path_ne := hne
  dotFree := fun l hl => h.dotFree l (mem_of_mem_tail hl)
  nulFree := fun l hl => h.nulFree l (mem_of_mem_tail hl)
  lower := fun l hl => h.lower l (mem_of_mem_tail hl)
  inner := fun l hl => h.inner l (mem_of_mem_tail hl)

end

/-- What comes before the first dot. -/
theorem takeWhile_label {h m : Bytes} (hdot : DOT ∉ h) (hm : ∀ c ∈ m.head?, c = DOT) :
    (h ++ m).takeWhile (· ≠ DOT) = h := by
  rw [takeWhile_append_of_pos]
  · rcases m with _ | ⟨c, m⟩
    · simp
    · rw [hm c rfl, takeWhile_cons_of_neg (by simp), append_nil]
  · intro c hc
    simpa using fun he : c = DOT => hdot (he ▸ hc)

/-! ## Comparing the beginnings of keys -/

/-- Within a string the comparison is equality. -/
theorem ngxStrncmp_eq_zero {n : ℕ} {s1 s2 : Bytes} (hlen : n ≤ s1.length) (hnul : NUL ∉ s1) :
    ngxStrncmp s1 s2 n = 0 ↔ s2.take n = s1.take n := by
  induction n generalizing s1 s2 with
  | zero => simp [ngxStrncmp]
  | succ n ih =>
    rcases s1 with _ | ⟨c, s1⟩
    · exact absurd hlen (Nat.not_succ_le_zero n)
    have hc : c ≠ NUL := fun he => hnul (he ▸ mem_cons_self)
    have hne : ∀ d : UInt8, c ≠ d → (c.toNat : ℤ) - d.toNat ≠ 0 := by
      intro d hd he
      exact hd (UInt8.toNat_inj.1 (by omega))
    rcases s2 with _ | ⟨d, s2⟩
    · have hpos : c.toNat ≠ 0 := fun he => hc (UInt8.toNat_inj.1 he)
      simp [ngxStrncmp, hc, hpos]
    · by_cases hcd : c = d
      · subst hcd
        have hstep : ngxStrncmp (c :: s1) (c :: s2) (n + 1) = ngxStrncmp s1 s2 n := by
          simp [ngxStrncmp, hc]
        rw [hstep, take_succ_cons, take_succ_cons, List.cons.injEq, and_iff_right rfl]
        exact ih (Nat.le_of_succ_le_succ hlen) fun hmem => hnul (mem_cons_of_mem _ hmem)
      · simp [ngxStrncmp, hcd, hne d hcd, Ne.symm hcd]

/-! ## Groups -/

section

variable {r r' : Rule Bytes V} {h : Bytes} {t : List Bytes}

theorem notMem_dotted {c : UInt8} (hc : c ≠ DOT) :
    ∀ {path : List Bytes}, (∀ l ∈ path, c ∉ l) → c ∉ dotted path
  | [], _ => not_mem_nil
  | [h], hpath => by
    rw [dotted_singleton]
    exact hpath h mem_cons_self
  | h :: x :: t, hpath => by
    rw [dotted_cons h (by simp), mem_append, mem_cons]
    rintro (hmem | hmem | hmem)
    · exact hpath h mem_cons_self hmem
    · exact hc hmem
    · exact notMem_dotted hc (fun l hl => hpath l (mem_cons_of_mem _ hl)) hmem

theorem nul_notMem_keyOf (hr : Readable r) : NUL ∉ (keyOf r).key := by
  rw [keyOf, mem_append]
  rintro (hmem | hmem)
  · exact notMem_dotted (by decide) hr.nulFree hmem
  · rw [mem_ite_nil_right] at hmem
    exact absurd hmem.2 (by decide)

theorem labelLen_keyOf (hread : Readable r) (hr : r.path = h :: t) :
    labelLen (keyOf r).key = h.length := by
  obtain ⟨m, hm, -, hhead⟩ := keyOf_eq hr
  rw [labelLen, hm, takeWhile_label (hread.dotFree h (by simp [hr])) hhead]

variable {first name : DnsKey V}

/-- The loop goes on while keys begin with the label, and a dot or nothing after it. -/
theorem inGroup_label (hkey : first.key = h)
    (hdot : DOT ∉ h) (hnul : NUL ∉ h) : inGroup first name = true
      ↔ name.key.take h.length = h ∧ ∀ c ∈ (name.key.drop h.length).head?, c = DOT := by
  have hlabel : labelLen h = h.length := by
    have hm := takeWhile_label (m := []) hdot (by simp)
    rw [append_nil] at hm
    rw [labelLen, hm]
  have hcmp : ngxStrncmp h name.key h.length = 0 ↔ name.key.take h.length = h := by
    rw [ngxStrncmp_eq_zero le_rfl hnul, take_length]
  simp only [inGroup, hlabel, hkey, lt_irrefl, decide_false, Bool.false_eq_true, if_false,
    Bool.not_false, Bool.true_and, Bool.and_eq_true, Bool.not_eq_true', bne_eq_false_iff_eq, hcmp,
    Bool.and_eq_false_iff, decide_eq_false_iff_not]
  rcases lt_or_ge h.length name.key.length with hlt | hge
  · simp [hlt]
  · simp [hge]

/-- After a label with a dot it goes on while keys begin with both. -/
theorem inGroup_dot {m : Bytes} (hkey : first.key = h ++ DOT :: m)
    (hdot : DOT ∉ h) (hnul : NUL ∉ first.key) :
    inGroup first name = true ↔ name.key.take (h.length + 1) = h ++ [DOT] := by
  have hlabel : labelLen first.key = h.length := by
    rw [labelLen, hkey, takeWhile_label hdot (by simp)]
  have hlen : h.length + 1 ≤ first.key.length := by
    rw [hkey, length_append, length_cons]
    omega
  have htake : first.key.take (h.length + 1) = h ++ [DOT] := by
    rw [hkey, take_length_add_append]
    rfl
  simp only [inGroup, hlabel, decide_eq_true (Nat.lt_of_succ_le hlen), if_true, Bool.not_true,
    Bool.false_and, Bool.not_false, Bool.and_true, Bool.not_eq_true', bne_eq_false_iff_eq,
    ngxStrncmp_eq_zero hlen hnul, htake]

/-- A key that is not a beginning of another is in its group if its first label is the same. -/
theorem inGroup_keyOf (hread : Readable r) (hread' : Readable r') (hr : r.path = h :: t)
    (hpre : ¬ r'.path <+: r.path) : inGroup (keyOf r) (keyOf r') = r'.headIs h := by
  obtain ⟨h', t', hr'⟩ := exists_cons_of_ne_nil hread'.path_ne
  obtain ⟨m, hm, hnil, hhead⟩ := keyOf_eq hr
  obtain ⟨m', hm', hnil', hhead'⟩ := keyOf_eq hr'
  have hdot := hread.dotFree h (by simp [hr])
  have hlabel' := takeWhile_label (hread'.dotFree h' (by simp [hr'])) hhead'
  have hheadIs : r'.headIs h = true ↔ h' = h := by
    rw [headIs_iff_pre, hr', cons_prefix_cons]
    exact ⟨fun he => he.1.symm, fun he => ⟨he.symm, nil_prefix⟩⟩
  have hnul := nul_notMem_keyOf hread
  rw [Bool.eq_iff_iff, hheadIs]
  rcases m with _ | ⟨c, m⟩
  · rw [append_nil] at hm
    rw [inGroup_label hm hdot (hm ▸ hnul), hm']
    constructor
    · rintro ⟨htake, hdrop⟩
      have happend := take_append_drop h.length (h' ++ m')
      rw [htake] at happend
      rw [← hlabel', ← happend, takeWhile_label hdot hdrop]
    · rintro rfl
      rw [take_left, drop_left]
      exact ⟨rfl, hhead'⟩
  · obtain rfl := hhead c rfl
    rw [inGroup_dot hm hdot hnul, hm']
    constructor
    · intro htake
      have happend := take_append_drop (h.length + 1) (h' ++ m')
      rw [htake, append_assoc] at happend
      rw [← hlabel', ← happend, takeWhile_label hdot (by simp)]
    · rintro rfl
      -- it goes on, or it would be a beginning of the other
      rcases m' with _ | ⟨c', m'⟩
      · rw [hr', (hnil'.1 rfl).1, hr, cons_prefix_cons] at hpre
        exact absurd ⟨rfl, nil_prefix⟩ hpre
      · rw [hhead' c' rfl, take_length_add_append]
        rfl

end

/-! ## Groups and runs -/

/-- A group is that of a run: its label, whether a dot is after it in the first name, whether that
ends with it, and what is below. -/
inductive IsGroup : List (Rule Bytes V) → Group V → Prop
  | mk {r : Rule Bytes V} {h : Bytes} {t : List Bytes}
      (others : List (Rule Bytes V)) (hr : r.path = h :: t) :
      IsGroup (r :: others) ⟨h, !(t.isEmpty && !r.only), r.value, t.isEmpty,
        (below (r :: others)).map keyOf⟩

section

variable {r : Rule Bytes V} {others rules : List (Rule Bytes V)} {h : Bytes}
  {t : List Bytes}

/-- Rules after the first one of a run go on after its label. -/
theorem tail_ne_nil (hr : r.path = h :: t) (hpre : PrefixesFirst (r :: others))
    (hothers : ∀ o ∈ others, o.headIs h = true) : ∀ o ∈ others, o.tail.path ≠ [] := by
  intro o ho hnil
  have hnot := (pairwise_cons.1 hpre).1 o ho
  rw [headIs_iff.1 (hothers o ho), hnil, hr, cons_prefix_cons] at hnot
  exact hnot ⟨rfl, nil_prefix⟩

/-- Only the first rule of a run may end with its label. -/
theorem own_run (hr : r.path = h :: t) (hpre : PrefixesFirst (r :: others))
    (hothers : ∀ o ∈ others, o.headIs h = true) :
    own (r :: others) = if t = [] then some r else none := by
  rw [own, find?_cons, hr]
  rcases t with _ | ⟨x, t⟩
  · rfl
  · refine find?_eq_none.2 fun o ho hnil => ?_
    exact tail_ne_nil hr hpre hothers o ho (isEmpty_iff.1 hnil)

theorem keyOf_ne_nil (hr : r.path = h :: t) (hh : h ≠ []) : (keyOf r).key ≠ [] := by
  obtain ⟨m, hm, -⟩ := keyOf_eq hr
  rw [hm]
  exact append_ne_nil_of_left_ne_nil hh m

theorem below_run (hr : r.path = h :: t) (hpre : PrefixesFirst (r :: others))
    (hothers : ∀ o ∈ others, o.headIs h = true) :
    below (r :: others) = (if t = [] then [] else [r.tail]) ++ others.map Rule.tail := by
  have hfilter : (others.map Rule.tail).filter (fun o => !o.path.isEmpty)
      = others.map Rule.tail := by
    rw [filter_eq_self]
    intro o ho
    obtain ⟨o, hmem, rfl⟩ := mem_map.1 ho
    simpa using tail_ne_nil hr hpre hothers o hmem
  have htail : r.tail.path = t := by rw [Rule.tail, hr, tail_cons]
  rw [below, map_cons]
  rcases t with _ | ⟨x, t⟩
  · rw [filter_cons_of_neg (by simp [htail]), hfilter, if_pos rfl, nil_append]
  · rw [filter_cons_of_pos (by simp [htail]), hfilter]
    rfl

/-- The group of keys whose rules begin with the same label. -/
theorem isGroup_group (hread : Readable r) (hr : r.path = h :: t)
    (hpre : PrefixesFirst (r :: others)) (hothers : ∀ o ∈ others, o.headIs h = true) :
    IsGroup (r :: others) (group (keyOf r) (others.map keyOf)) := by
  have hlabel := labelLen_keyOf hread hr
  have hdrop : (others.map keyOf).map (fun name => (⟨name.key.drop (h.length + 1), name.value⟩ :
      DnsKey V)) = (others.map Rule.tail).map keyOf := by
    rw [map_map, map_map]
    refine map_congr_left fun o ho => ?_
    have hne := tail_ne_nil hr hpre hothers o ho
    rw [Function.comp_apply, keyOf_goes (headIs_iff.1 (hothers o ho)) hne, drop_length_add_append]
    rfl
  have hgroup : group (keyOf r) (others.map keyOf) = ⟨h, !(t.isEmpty && !r.only), r.value,
      t.isEmpty, (below (r :: others)).map keyOf⟩ := by
    rw [group, hlabel, hdrop, below_run hr hpre hothers]
    by_cases ht : t = []
    · have hkey := keyOf_ends (ht ▸ hr)
      rw [ht, hkey]
      cases r.only <;> simp [keyOf]
    · have hkey := keyOf_goes hr ht
      have hlt : h.length < (keyOf r).key.length := by
        rw [hkey, length_append, length_cons]
        omega
      have hne : (keyOf r.tail).key ≠ [] := by
        obtain ⟨x, s, rfl⟩ := exists_cons_of_ne_nil ht
        refine keyOf_ne_nil (h := x) (t := s) (by rw [Rule.tail, hr, tail_cons]) ?_
        exact hread.inner x (by simp [hr])
      have hends : (keyOf r).key.length ≠ h.length + 1 := by
        rw [hkey, length_append, length_cons]
        have := length_pos_of_ne_nil hne
        omega
      have hempty : t.isEmpty = false := by simp [ht]
      rw [if_neg ht]
      simp only [decide_eq_true hlt, if_true, hempty, decide_eq_false hends, if_pos hends,
        Bool.false_and, Bool.not_false]
      rw [hkey, take_left, drop_length_add_append]
      rfl
  rw [hgroup]
  exact .mk others hr

end

/-- Rules that make up the names of one hash. -/
structure Level (rules : List (Rule Bytes V)) : Prop where
  readable : ∀ r ∈ rules, Readable r
  pre : PrefixesFirst rules

section

variable {rules : List (Rule Bytes V)}

theorem Level.sublist {rules' : List (Rule Bytes V)} (h : Level rules)
    (hsub : rules'.Sublist rules) : Level rules' :=
  ⟨fun r hr => h.readable r (hsub.subset hr), h.pre.sublist hsub⟩

/-- What is below a run makes up the names of a hash too. -/
theorem Level.below {run : List (Rule Bytes V)} (h : Level run) {x : Bytes}
    (hrun : ∀ r ∈ run, r.headIs x = true) : Level (below run) where
  readable := fun r hr => by
    obtain ⟨hne, r, hmem, rfl⟩ := mem_below.1 hr
    exact (h.readable r hmem).tail hne
  pre := h.pre.below hrun

/-- The groups of keys are those of the runs of their rules. -/
theorem groups_keyOf (fuel : ℕ) (hlevel : Level rules) :
    List.Forall₂ IsGroup (runs fuel rules) (groups fuel (rules.map keyOf)) := by
  induction fuel generalizing rules with
  | zero => exact .nil
  | succ fuel ih =>
    rcases rules with _ | ⟨r, rules⟩
    · exact .nil
    · have hread := hlevel.readable r mem_cons_self
      obtain ⟨h, t, hr⟩ := exists_cons_of_ne_nil hread.path_ne
      have hhead : r.headIs h = true := by simp [Rule.headIs, hr]
      have hin : ∀ r' ∈ rules, (inGroup (keyOf r) ∘ keyOf) r' = sameHead r r' := by
        intro r' hr'
        rw [sameHead_eq hhead]
        exact inGroup_keyOf hread (hlevel.readable r' (mem_cons_of_mem _ hr')) hr
          ((pairwise_cons.1 hlevel.pre).1 r' hr')
      obtain ⟨htake, hdrop⟩ := takeWhile_congr hin
      rw [map_cons, groups, takeWhile_map, dropWhile_map, htake, hdrop]
      have hsub := (takeWhile_sublist (sameHead r) (l := rules)).cons_cons r
      refine .cons ?_ (ih (hlevel.sublist ((dropWhile_sublist _).cons r)))
      refine isGroup_group hread hr (hlevel.pre.sublist hsub) fun o ho => ?_
      have hsame := mem_takeWhile_imp ho
      rwa [sameHead_eq hhead] at hsame

end

end HashTable
