/-
# Replacement of a string

`php_str_to_str_ex` and `php_str_to_str_i_ex` count the places of the needle, allocate what the
result needs and write it from the left; `php_char_to_str_ex` does so for a byte.  The result is
compared with the replacement of a rule from the left.
-/
import ReadingCode.Strtr
import ReadingCode.ZendMemnstr

open PhpStrtr PhpVar Rewriting Substring ZendMemnstr

namespace PhpString

open List Option

/-! ## The source -/

/-- `ZEND_MM_ALIGNED_SIZE(_ZSTR_STRUCT_SIZE(len))` -/
def structSize (len : ℕ) : ℕ := (len + 25 + 7) / 8 * 8

/-- The length of what `zend_string_safe_alloc(n, m, l)` gives, if it does not overflow. -/
def safeAlloc (n m l : ℕ) : Option ℕ :=
  if n * m + structSize l < 2 ^ 64 then some (n * m + l) else none

/-- A difference of two lengths, as a `size_t`. -/
def sizeSub (a b : ℕ) : ℕ := (a + 2 ^ 64 - b) % 2 ^ 64

/-- What a replacement ends with: the fatal error of an allocation that overflows, or a string and
the count.  A new string has the length that was allocated for it, and what was written to it. -/
inductive Outcome where
  | fatal
  | copy (text : Bytes) (replaceCount : Option ℤ)
  | new (alloc : ℕ) (written : Bytes) (replaceCount : Option ℤ)

/-- `memcpy` to an offset of a string. -/
def copyTo (s : Bytes) (offset : ℕ) (bytes : Bytes) : Bytes :=
  s.take offset ++ bytes ++ s.drop (offset + bytes.length)

/-- The loop that puts a replacement of the same length over each place, with `fuel` for
`php_memnstr`. -/
def overwriteLoop (fuel : ℕ) (haystack searched needle str : Bytes) :
    ℕ → ℕ → Option Bytes → ℤ → Option (Option Bytes × ℤ)
  | 0, _, _, _ => none
  | rounds + 1, p, newStr, replaceCount =>
    match memnstr fuel (searched.drop p) needle with
    | some (.found r) =>
      let r := p + r.toNat
      overwriteLoop fuel haystack searched needle str rounds (r + needle.length)
        (some (copyTo (newStr.getD haystack) r str)) (replaceCount + 1)
    | some .null => some (newStr, replaceCount)
    | _ => none

/-- The loop that counts the places. -/
def countLoop (fuel : ℕ) (needle : Bytes) : ℕ → Bytes → ℕ → Option ℕ
  | 0, _, _ => none
  | rounds + 1, o, count =>
    match memnstr fuel o needle with
    | some (.found r) =>
      countLoop fuel needle rounds (o.drop (r.toNat + needle.length)) (count + 1)
    | some .null => some count
    | _ => none

/-- The loop that writes what is in front of each place, and the replacement.  `p` is searched, and
what is written is taken from `s` at the same place.  It ends with what is written, the rest and
the count. -/
def copyLoop (fuel : ℕ) (needle str : Bytes) :
    ℕ → Bytes → Bytes → Bytes → ℤ → Option (Bytes × Bytes × ℤ)
  | 0, _, _, _, _ => none
  | rounds + 1, p, s, e, replaceCount =>
    match memnstr fuel p needle with
    | some (.found r) =>
      copyLoop fuel needle str rounds (p.drop (r.toNat + needle.length))
        (s.drop (r.toNat + needle.length)) (e ++ s.take r.toNat ++ str) (replaceCount + 1)
    | some .null => some (e, s, replaceCount)
    | _ => none

/-- What the two functions for strings have in common: the haystack is searched in the form
`searched`. -/
def replaceIn (fuel : ℕ) (haystack searched needle str : Bytes) (replaceCount : ℤ) :
    Option Outcome :=
  if needle.length < haystack.length then
    if needle.length = str.length then
      (overwriteLoop fuel haystack searched needle str fuel 0 none replaceCount).map
        fun (newStr, replaceCount) =>
          match newStr with
          | none => .copy haystack replaceCount
          | some written => .new haystack.length written replaceCount
    else
      (countLoop fuel needle fuel searched 0).bind fun count =>
        if count = 0 then some (.copy haystack replaceCount)
        else
          let alloc :=
            if str.length > needle.length then
              safeAlloc count (str.length - needle.length) haystack.length
            else some ((count * sizeSub str.length needle.length + haystack.length) % 2 ^ 64)
          match alloc with
          | none => some .fatal
          | some alloc =>
            (copyLoop fuel needle str fuel searched haystack [] replaceCount).map
              fun (e, rest, replaceCount) => .new alloc (e ++ rest) replaceCount
  else if needle.length > haystack.length ∨ searched ≠ needle then
    some (.copy haystack replaceCount)
  else some (.new str.length str (replaceCount + 1 : ℤ))

/-- `php_str_to_str_ex` -/
def strToStrEx (fuel : ℕ) (haystack needle str : Bytes) (replaceCount : ℤ) : Option Outcome :=
  replaceIn fuel haystack haystack needle str replaceCount

/-- `tolower` of an `unsigned char`, as `php_strtolower` stores it. -/
def lowerByte (tolower : ℤ → ℤ) (c : UInt8) : UInt8 := .ofNat (tolower c.toNat % 256).toNat

/-- The `char` that an `int` becomes: it is signed. -/
def toChar (n : ℤ) : ℤ := n.bmod 256

/-- `php_str_to_str_i_ex`, to which the haystack is given in lower case, too. -/
def strToStrIEx (tolower : ℤ → ℤ) (fuel : ℕ) (haystack lcHaystack needle str : Bytes)
    (replaceCount : ℤ) : Option Outcome :=
  replaceIn fuel haystack lcHaystack (needle.map (lowerByte tolower)) str replaceCount

/-- The loop of `php_char_to_str_ex` for both cases. -/
def charLoop (tolower : ℤ → ℤ) (lcFrom : ℤ) (to' : Bytes) :
    Bytes → Bytes → Option ℤ → Bytes × Option ℤ
  | [], target, replaceCount => (target, replaceCount)
  | c :: source, target, replaceCount =>
    if tolower (toChar c.toNat) = lcFrom then
      charLoop tolower lcFrom to' source (target ++ to') (replaceCount.map (· + 1))
    else charLoop tolower lcFrom to' source (target ++ [c]) replaceCount

/-- `php_char_to_str_ex`.  `memchr` is the search of `php_memnstr` for a needle of one byte. -/
def charToStrEx (tolower : ℤ → ℤ) (fuel : ℕ) (str : Bytes) (from' : UInt8)
    (to' : Bytes) (caseSensitivity : Bool) (replaceCount : Option ℤ) : Option Outcome :=
  let lcFrom := toChar (tolower (toChar from'.toNat))
  let charCount :=
    if caseSensitivity then countLoop fuel [from'] fuel str 0
    else some (str.countP fun c => tolower (toChar c.toNat) = lcFrom)
  charCount.bind fun charCount =>
    if charCount = 0 then some (.copy str replaceCount)
    else
      let alloc :=
        if to'.length > 0 then safeAlloc charCount (to'.length - 1) str.length
        else some (sizeSub str.length charCount)
      match alloc with
      | none => some .fatal
      | some alloc =>
        if caseSensitivity then
          (copyLoop fuel [from'] to' fuel str str [] 0).map fun (e, rest, count) =>
            .new alloc (e ++ rest) (replaceCount.map (· + count))
        else
          let (target, replaceCount) := charLoop tolower lcFrom to' str [] replaceCount
          some (.new alloc target replaceCount)

/-! ## What is to be replaced -/

/-- The needle is replaced where it is at the beginning of what is searched. -/
def needleRule (tolower : UInt8 → UInt8) (needle str : Bytes) (s : Bytes) :
    Option (Bytes × ℕ) :=
  if needle <+: s.map tolower then some (str, needle.length) else none

/-- The outcome is the text in which everything is replaced from the left, the count is raised by
how often that was, and what is written has the length that is allocated.  A fatal error comes only
where the size does not fit. -/
def Replaces (tolower : UInt8 → UInt8) (needle str haystack : Bytes) (count : Option ℤ) :
    Outcome → Prop
  | .fatal =>
    2 ^ 64 ≤ hits (needleRule tolower needle str) 0 haystack * (str.length - needle.length) +
      structSize haystack.length
  | .copy text count' =>
    text = rewrite (needleRule tolower needle str) 0 haystack ∧
      count' = count.map (· + (hits (needleRule tolower needle str) 0 haystack : ℤ))
  | .new alloc written count' =>
    written = rewrite (needleRule tolower needle str) 0 haystack ∧ written.length = alloc ∧
      count' = count.map (· + (hits (needleRule tolower needle str) 0 haystack : ℤ))

/-- With enough fuel there is an outcome that is right. -/
def Ends (call : ℕ → Option Outcome) (right : Outcome → Prop) : Prop :=
  ∃ fuel0 res, (∀ fuel, fuel0 ≤ fuel → call fuel = some res) ∧ right res

/-! ## Searches -/

variable {f : UInt8 → UInt8} {needle str haystack s : Bytes} {q : ℕ}

theorem rule_of_occurs (h : Occurs needle (s.map f) q) :
    needleRule f needle str (s.drop q) = some (str, needle.length) := by
  rw [needleRule, map_drop]
  exact if_pos h

theorem rule_of_not_occurs (h : ¬ Occurs needle (s.map f) q) :
    needleRule f needle str (s.drop q) = none := by
  rw [needleRule, map_drop]
  exact if_neg h

/-- No byte of a text lets the search for the needle stand still. -/
def Searchable (f : UInt8 → UInt8) (needle s : Bytes) : Prop :=
  ∀ b ∈ s.map f, shift needle b % 2 ^ 32 ≠ 0

theorem Searchable.drop (h : Searchable f needle s) (n : ℕ) : Searchable f needle (s.drop n) := by
  intro b hb
  rw [map_drop] at hb
  exact h b (mem_of_mem_drop hb)

/-- The search finds nothing, and then nothing is to be replaced. -/
structure Misses (f : UInt8 → UInt8) (needle str s : Bytes) (fuel0 : ℕ) : Prop where
  search : ∀ fuel, fuel0 ≤ fuel → memnstr fuel (s.map f) needle = some .null
  rewrite_eq : rewrite (needleRule f needle str) 0 s = s
  hits_eq : hits (needleRule f needle str) 0 s = 0

/-- The search finds the first place that is to be replaced. -/
structure Finds (f : UInt8 → UInt8) (needle str s : Bytes) (fuel0 q : ℕ) : Prop where
  search : ∀ fuel, fuel0 ≤ fuel → memnstr fuel (s.map f) needle = some (.found q)
  le : q + needle.length ≤ s.length
  rewrite_eq : rewrite (needleRule f needle str) 0 s =
    s.take q ++ str ++ rewrite (needleRule f needle str) 0 (s.drop (q + needle.length))
  hits_eq : hits (needleRule f needle str) 0 s =
    hits (needleRule f needle str) 0 (s.drop (q + needle.length)) + 1

theorem misses_or_finds (str : Bytes) (hne : needle ≠ []) (hs : Searchable f needle s) :
    (∃ fuel0, Misses f needle str s fuel0) ∨ ∃ fuel0 q, Finds f needle str s fuel0 q := by
  obtain ⟨fuel0, a, hsearch, ha⟩ := memnstr_first hne (s.map f) hs
  match a, ha with
  | .null, ha =>
    have hnone : ∀ i < s.length, needleRule f needle str (s.drop i) = none :=
      fun i _ => rule_of_not_occurs (ha i)
    exact .inl ⟨fuel0, hsearch, rewrite_none hnone, hits_none hnone⟩
  | .found _, ⟨q, rfl, hocc, hbefore⟩ =>
    have hle := hocc.add_length_le hne
    have hpos := length_pos_iff.mpr hne
    rw [length_map] at hle
    have hrule : needleRule f needle str (s.drop q) = some (str, needle.length) :=
      rule_of_occurs hocc
    have hmiss : ∀ i < q, needleRule f needle str (s.drop i) = none :=
      fun i hi => rule_of_not_occurs (hbefore i hi)
    have hdrop : s.drop q ≠ [] := ne_nil_of_length_pos (by rw [length_drop]; omega)
    refine .inr ⟨fuel0, q, hsearch, hle, ?_, ?_⟩
    · rw [rewrite_miss hmiss (by omega), rewrite_hit hdrop hrule hpos, drop_drop, append_assoc]
    · rw [hits_miss hmiss (by omega), hits_hit hdrop hrule hpos, drop_drop]

/-- What holds of a text in which nothing is found, and of one in which something is if it does of
what is behind it, holds of every text. -/
@[elab_as_elim]
theorem search_induction {P : Bytes → Prop} (str : Bytes) (hne : needle ≠ [])
    (miss : ∀ s fuel0, Misses f needle str s fuel0 → P s)
    (find : ∀ s fuel0 q, Finds f needle str s fuel0 q → P (s.drop (q + needle.length)) → P s)
    (hs : Searchable f needle s) : P s := by
  induction hk : s.length using Nat.strongRecOn generalizing s with
  | ind k ih =>
    rcases misses_or_finds str hne hs with ⟨fuel0, h⟩ | ⟨fuel0, q, h⟩
    · exact miss s fuel0 h
    · have hle := h.le
      have hpos := length_pos_iff.mpr hne
      have hlen : (s.drop (q + needle.length)).length < k := by
        rw [length_drop]
        omega
      exact find s fuel0 q h (ih _ hlen (hs.drop _) rfl)

/-! ## The loops -/

theorem countLoop_spec (str : Bytes) (hne : needle ≠ []) (hs : Searchable f needle s) :
    ∃ fuel0, ∀ fuel, fuel0 ≤ fuel → ∀ rounds, s.length < rounds → ∀ count,
      countLoop fuel needle rounds (s.map f) count =
        some (count + hits (needleRule f needle str) 0 s) := by
  refine search_induction str hne (fun s fuel0 h => ?_) (fun s fuel0 q h ih => ?_) hs
  · refine ⟨fuel0, fun fuel hfuel rounds hrounds count => ?_⟩
    obtain ⟨rounds, rfl⟩ := Nat.exists_eq_add_one.2 hrounds.pos
    rw [countLoop, h.search fuel hfuel, h.hits_eq]
    rfl
  · obtain ⟨fuel1, ih⟩ := ih
    refine ⟨max fuel0 fuel1, fun fuel hfuel rounds hrounds count => ?_⟩
    obtain ⟨rounds, rfl⟩ := Nat.exists_eq_add_one.2 hrounds.pos
    have hle := h.le
    have hpos := length_pos_iff.mpr hne
    rw [countLoop, h.search fuel (by omega)]
    dsimp only
    rw [Int.toNat_natCast, ← map_drop, ih fuel (by omega) rounds (by
      rw [length_drop]; omega), h.hits_eq, add_assoc, add_comm 1]

theorem copyLoop_spec (str : Bytes) (hne : needle ≠ []) (hs : Searchable f needle s) :
    ∃ fuel0, ∀ fuel, fuel0 ≤ fuel → ∀ rounds, s.length < rounds → ∀ e count,
      ∃ e' rest, copyLoop fuel needle str rounds (s.map f) s e count =
          some (e', rest, count + (hits (needleRule f needle str) 0 s : ℤ)) ∧
        e' ++ rest = e ++ rewrite (needleRule f needle str) 0 s := by
  refine search_induction str hne (fun s fuel0 h => ?_) (fun s fuel0 q h ih => ?_) hs
  · refine ⟨fuel0, fun fuel hfuel rounds hrounds e count => ⟨e, s, ?_, by rw [h.rewrite_eq]⟩⟩
    obtain ⟨rounds, rfl⟩ := Nat.exists_eq_add_one.2 hrounds.pos
    rw [copyLoop, h.search fuel hfuel, h.hits_eq]
    rw [Nat.cast_zero, add_zero]
  · obtain ⟨fuel1, ih⟩ := ih
    refine ⟨max fuel0 fuel1, fun fuel hfuel rounds hrounds e count => ?_⟩
    obtain ⟨rounds, rfl⟩ := Nat.exists_eq_add_one.2 hrounds.pos
    have hle := h.le
    have hpos := length_pos_iff.mpr hne
    obtain ⟨e', rest, hloop, htext⟩ := ih fuel (by omega) rounds (by
      rw [length_drop]; omega) (e ++ s.take q ++ str) (count + 1)
    refine ⟨e', rest, ?_, ?_⟩
    · rw [copyLoop, h.search fuel (by omega)]
      dsimp only
      rw [Int.toNat_natCast, ← map_drop, hloop, h.hits_eq, Nat.cast_add, Nat.cast_one,
        add_assoc, add_comm 1]
    · rw [htext, h.rewrite_eq]
      simp only [append_assoc]

theorem copyTo_eq {t : Bytes} {r : ℕ} (hr : r + str.length ≤ t.length) :
    (copyTo t r str).length = t.length ∧ (copyTo t r str).take (r + str.length) = t.take r ++ str ∧
      (copyTo t r str).drop (r + str.length) = t.drop (r + str.length) := by
  have hlen : (t.take r ++ str).length = r + str.length := by
    rw [length_append, length_take, min_eq_left (by omega)]
  refine ⟨?_, take_left' hlen, drop_left' hlen⟩
  rw [copyTo, length_append, length_drop]
  omega

theorem overwriteLoop_spec (hne : needle ≠ []) (hstr : needle.length = str.length)
    (haystack : Bytes) (hs : Searchable f needle s) :
    ∃ fuel0, ∀ fuel, fuel0 ≤ fuel → ∀ rounds, s.length < rounds → ∀ p newStr count,
      haystack.drop p = s → p ≤ haystack.length →
      (newStr.getD haystack).length = haystack.length → (newStr.getD haystack).drop p = s →
      ∃ newStr', overwriteLoop fuel haystack (haystack.map f) needle str rounds p newStr count =
          some (newStr', count + (hits (needleRule f needle str) 0 s : ℤ)) ∧ newStr'.getD haystack =
          (newStr.getD haystack).take p ++ rewrite (needleRule f needle str) 0 s ∧
        (newStr' = none ↔ newStr = none ∧ hits (needleRule f needle str) 0 s = 0) := by
  refine search_induction str hne (fun s fuel0 h => ?_) (fun s fuel0 q h ih => ?_) hs
  · refine ⟨fuel0, fun fuel hfuel rounds hrounds p newStr count hdrop _ _ hnew =>
      ⟨newStr, ?_, ?_, (and_iff_left h.hits_eq).symm⟩⟩
    · obtain ⟨rounds, rfl⟩ := Nat.exists_eq_add_one.2 hrounds.pos
      rw [overwriteLoop, ← map_drop, hdrop, h.search fuel hfuel, h.hits_eq]
      rw [Nat.cast_zero, add_zero]
    · rw [h.rewrite_eq]
      conv_rhs => rw [← hnew]
      rw [take_append_drop]
  · obtain ⟨fuel1, ih⟩ := ih
    refine ⟨max fuel0 fuel1, fun fuel hfuel rounds hrounds p newStr count hdrop hp hlen hnew => ?_⟩
    obtain ⟨rounds, rfl⟩ := Nat.exists_eq_add_one.2 hrounds.pos
    have hle := h.le
    have hpos := length_pos_iff.mpr hne
    have hslen : s.length = haystack.length - p := by rw [← hdrop, length_drop]
    obtain ⟨hclen, hctake, hcdrop⟩ :=
      copyTo_eq (show p + q + str.length ≤ (newStr.getD haystack).length by omega)
    rw [← hstr] at hctake hcdrop
    obtain ⟨newStr', hloop, htext, hnone⟩ := ih fuel (by omega) rounds
      (by rw [length_drop]; omega)
      (p + q + needle.length) (some (copyTo (newStr.getD haystack) (p + q) str)) (count + 1)
      (by rw [← hdrop, drop_drop, add_assoc]) (by omega) (hclen.trans hlen)
      (by rw [getD_some, hcdrop, ← hnew, drop_drop, add_assoc])
    refine ⟨newStr', ?_, ?_, hnone.trans (iff_of_false (fun h => nomatch h.1) fun h0 => ?_)⟩
    · rw [overwriteLoop, ← map_drop, hdrop, h.search fuel (by omega)]
      dsimp only
      rw [Int.toNat_natCast, hloop, h.hits_eq, Nat.cast_add, Nat.cast_one, add_assoc, add_comm 1]
    · rw [htext, getD_some, hctake, h.rewrite_eq, take_add, hnew]
      simp only [append_assoc]
    · rw [h.hits_eq] at h0
      exact Nat.succ_ne_zero _ h0.2

/-! ## The functions for strings -/

variable {from' : UInt8} {len : ℕ}

theorem needleRule_eq {out : Bytes} (h : needleRule f needle str s = some (out, len))
    : out.length = str.length ∧ len = needle.length ∧ needle.length ≤ s.length := by
  unfold needleRule at h
  split at h
  · have hle := List.IsPrefix.length_le ‹needle <+: s.map f›
    rw [length_map] at hle
    cases h
    exact ⟨rfl, rfl, hle⟩
  · cases h

/-- The length of the result. -/
theorem length_replaced (f : UInt8 → UInt8) (str : Bytes) (hne : needle ≠ []) (s : Bytes) :
    (rewrite (needleRule f needle str) 0 s).length +
        hits (needleRule f needle str) 0 s * needle.length =
      s.length + hits (needleRule f needle str) 0 s * str.length :=
  length_rewrite (fun _ _ _ h => needleRule_eq h) (length_pos_iff.mpr hne) s

theorem rewrite_of_no_hits {rule : Bytes → Option (Bytes × ℕ)}
    (h : hits rule 0 s = 0) : rewrite rule 0 s = s := by
  induction s with
  | nil => rfl
  | cons c s ih =>
    rw [hits] at h
    rw [rewrite]
    cases hrule : rule (c :: s) with
    | some x =>
      rw [hrule] at h
      cases h
    | none =>
      rw [hrule] at h
      exact congrArg (c :: ·) (ih h)

/-- A shorter replacement: the product of the count and the wrapped difference gives the length. -/
theorem alloc_shorter {n m k total : ℕ} (hmk : m < k) (hk : k < 2 ^ 64) (hlen : len < 2 ^ 64)
    (htotal : total + n * k = len + n * m) : (n * sizeSub m k + len) % 2 ^ 64 = total := by
  obtain ⟨d, rfl⟩ : ∃ d, k = m + d := ⟨k - m, by omega⟩
  have hsub : sizeSub m (m + d) = 2 ^ 64 - d := by
    rw [sizeSub]
    omega
  have hprod : total + n * d = len := by
    rw [mul_add] at htotal
    omega
  have hsum : n * (2 ^ 64 - d) + len = total + 2 ^ 64 * n := by
    have hle : n * d ≤ n * 2 ^ 64 := Nat.mul_le_mul_left n (by omega)
    rw [Nat.mul_sub]
    omega
  rw [hsub, hsum, Nat.add_mul_mod_self_left]
  exact Nat.mod_eq_of_lt (by omega)

/-- A longer replacement. -/
theorem alloc_longer {n m k total : ℕ} (hkm : k < m)
    (htotal : total + n * k = len + n * m) : n * (m - k) + len = total := by
  have hle : n * k ≤ n * m := Nat.mul_le_mul_left n hkm.le
  rw [Nat.mul_sub]
  omega

/-- The part of `replaceIn` for a needle that is shorter than the haystack and has another length
than the replacement. -/
theorem allocated_ends (hne : needle ≠ []) (hlt : needle.length < haystack.length)
    (hsize : haystack.length < 2 ^ 64) (hstr : needle.length ≠ str.length)
    (hs : Searchable f needle haystack) (count : ℤ) :
    Ends (fun fuel => replaceIn fuel haystack (haystack.map f) needle str count)
      (Replaces f needle str haystack count) := by
  obtain ⟨fuel0, hcount⟩ := countLoop_spec str hne hs
  obtain ⟨fuel1, hcopy⟩ := copyLoop_spec str hne hs
  have htotal := length_replaced f str hne haystack
  have hcall : ∀ fuel, max (max fuel0 fuel1) (haystack.length + 1) ≤ fuel →
      countLoop fuel needle fuel (haystack.map f) 0 =
        some (hits (needleRule f needle str) 0 haystack) := by
    intro fuel hfuel
    rw [hcount fuel (by omega) fuel (by omega), zero_add]
  by_cases hzero : hits (needleRule f needle str) 0 haystack = 0
  · refine ⟨max (max fuel0 fuel1) (haystack.length + 1), .copy haystack count,
      fun fuel hfuel => ?_, (rewrite_of_no_hits hzero).symm, ?_⟩
    · show replaceIn fuel haystack (haystack.map f) needle str count = _
      rw [replaceIn, if_pos hlt, if_neg hstr, hcall fuel hfuel]
      exact if_pos hzero
    · rw [hzero]
      exact congrArg some (add_zero count).symm
  -- every way to allocate what is needed gives the length of the result
  have hnew : ∀ alloc, (rewrite (needleRule f needle str) 0 haystack).length = alloc →
      (if str.length > needle.length then
          safeAlloc (hits (needleRule f needle str) 0 haystack) (str.length - needle.length)
            haystack.length
        else some ((hits (needleRule f needle str) 0 haystack *
          sizeSub str.length needle.length + haystack.length) % 2 ^ 64)) = some alloc →
      Ends (fun fuel => replaceIn fuel haystack (haystack.map f) needle str count)
        (Replaces f needle str haystack count) := by
    intro alloc hlen halloc
    refine ⟨max (max fuel0 fuel1) (haystack.length + 1), .new alloc (rewrite (needleRule f needle
      str) 0 haystack) (count + (hits (needleRule f needle str) 0 haystack : ℤ) : ℤ), fun fuel hfuel
      => ?_, rfl, hlen, rfl⟩
    obtain ⟨e, rest, hloop, htext⟩ := hcopy fuel (by omega) fuel (by omega) [] count
    show replaceIn fuel haystack (haystack.map f) needle str count = _
    rw [replaceIn, if_pos hlt, if_neg hstr, hcall fuel hfuel, bind_some, if_neg hzero]
    rw [halloc]
    dsimp only
    rw [hloop, map_some, htext, nil_append]
  rcases Nat.lt_or_gt_of_ne hstr with hlonger | hshorter
  · by_cases hfits : hits (needleRule f needle str) 0 haystack * (str.length - needle.length) +
        structSize haystack.length < 2 ^ 64
    · refine hnew _ rfl ?_
      rw [if_pos hlonger, safeAlloc, if_pos hfits, alloc_longer hlonger htotal]
    · refine ⟨max (max fuel0 fuel1) (haystack.length + 1), .fatal, fun fuel hfuel => ?_,
        le_of_not_gt hfits⟩
      show replaceIn fuel haystack (haystack.map f) needle str count = _
      rw [replaceIn, if_pos hlt, if_neg hstr, hcall fuel hfuel, bind_some, if_neg hzero]
      rw [if_pos hlonger, safeAlloc, if_neg hfits]
  · refine hnew _ rfl ?_
    rw [if_neg (not_lt.mpr hshorter.le), alloc_shorter hshorter (hlt.trans hsize) hsize htotal]

/-- The part of `replaceIn` for a replacement that has the length of the needle. -/
theorem overwritten_ends (hne : needle ≠ []) (hlt : needle.length < haystack.length)
    (hstr : needle.length = str.length) (hs : Searchable f needle haystack) (count : ℤ) :
    Ends (fun fuel => replaceIn fuel haystack (haystack.map f) needle str count)
      (Replaces f needle str haystack count) := by
  obtain ⟨fuel0, hloop⟩ := overwriteLoop_spec hne hstr haystack hs
  have htotal := length_replaced f str hne haystack
  have hcall : ∀ fuel, max fuel0 (haystack.length + 1) ≤ fuel → ∃ newStr : Option Bytes,
      overwriteLoop fuel haystack (haystack.map f) needle str fuel 0 none count =
          some (newStr, count + (hits (needleRule f needle str) 0 haystack : ℤ)) ∧
        newStr.getD haystack = rewrite (needleRule f needle str) 0 haystack ∧
        (newStr = none ↔ hits (needleRule f needle str) 0 haystack = 0) := by
    intro fuel hfuel
    obtain ⟨newStr, h, htext, hnone⟩ := hloop fuel (by omega) fuel (by omega) 0 none count rfl
      (Nat.zero_le _) rfl rfl
    exact ⟨newStr, h, htext, hnone.trans (and_iff_right rfl)⟩
  by_cases hzero : hits (needleRule f needle str) 0 haystack = 0
  · refine ⟨max fuel0 (haystack.length + 1), .copy haystack count, fun fuel hfuel => ?_,
      (rewrite_of_no_hits hzero).symm, ?_⟩
    · obtain ⟨newStr, h, -, hnone⟩ := hcall fuel hfuel
      show replaceIn fuel haystack (haystack.map f) needle str count = _
      rw [replaceIn, if_pos hlt, if_pos hstr, h, hnone.mpr hzero, hzero, Nat.cast_zero, add_zero]
      rfl
    · rw [hzero]
      exact congrArg some (add_zero count).symm
  · refine ⟨max fuel0 (haystack.length + 1), .new haystack.length (rewrite (needleRule f needle str)
      0 haystack) (count + (hits (needleRule f needle str) 0 haystack : ℤ) : ℤ), fun fuel hfuel =>
      ?_, rfl, ?_, rfl⟩
    · obtain ⟨newStr, h, htext, hnone⟩ := hcall fuel hfuel
      show replaceIn fuel haystack (haystack.map f) needle str count = _
      match newStr, hnone, htext with
      | none, hnone, _ => exact absurd (hnone.mp rfl) hzero
      | some written, _, htext =>
        rw [replaceIn, if_pos hlt, if_pos hstr, h, ← htext]
        rfl
    · rw [hstr] at htotal
      exact Nat.add_right_cancel htotal

theorem not_prefix_of_lt {t : Bytes} (h : t.length < needle.length) :
    needleRule f needle str t = none := by
  refine if_neg fun hpre => ?_
  have hle := List.IsPrefix.length_le hpre
  rw [length_map] at hle
  omega

/-- The part of `replaceIn` for a needle that is not shorter than the haystack. -/
theorem whole_ends (hne : needle ≠ []) (hge : haystack.length ≤ needle.length) (count : ℤ) :
    Ends (fun fuel => replaceIn fuel haystack (haystack.map f) needle str count)
      (Replaces f needle str haystack count) := by
  have hpos := length_pos_iff.mpr hne
  by_cases hcopy : needle.length > haystack.length ∨ haystack.map f ≠ needle
  · have hnone : ∀ i < haystack.length, needleRule f needle str (haystack.drop i) = none := by
      intro i hi
      rcases lt_or_ge (haystack.drop i).length needle.length with hlt | hge'
      · exact not_prefix_of_lt hlt
      · rw [length_drop] at hge'
        obtain rfl : i = 0 := by omega
        refine if_neg fun hpre => ?_
        rcases hcopy with hlong | hdiff
        · omega
        · rw [drop_zero] at hpre
          exact hdiff (hpre.eq_of_length_le (by rw [length_map]; omega)).symm
    refine ⟨0, .copy haystack count, fun fuel _ => ?_, (rewrite_none hnone).symm, ?_⟩
    · show replaceIn fuel haystack (haystack.map f) needle str count = _
      rw [replaceIn, if_neg (by omega), if_pos hcopy]
    · rw [hits_none hnone]
      exact congrArg some (add_zero count).symm
  · obtain ⟨hlen, heq⟩ := not_or.mp hcopy
    have heq := not_not.mp heq
    have hrule : needleRule f needle str haystack = some (str, needle.length) :=
      if_pos (by rw [heq])
    have hhay : haystack ≠ [] := ne_nil_of_length_pos (by omega)
    have hdrop : haystack.drop needle.length = [] := drop_eq_nil_of_le (by omega)
    have htext : rewrite (needleRule f needle str) 0 haystack = str := by
      rw [rewrite_hit hhay hrule hpos, hdrop, rewrite, append_nil]
    have hone : hits (needleRule f needle str) 0 haystack = 1 := by
      rw [hits_hit hhay hrule hpos, hdrop, hits]
    refine ⟨0, .new str.length str (count + 1 : ℤ), fun fuel _ => ?_, htext.symm, rfl, ?_⟩
    · show replaceIn fuel haystack (haystack.map f) needle str count = _
      rw [replaceIn, if_neg (by omega), if_neg hcopy]
    · rw [hone]
      rfl

/-- The replacement is right where the search is. -/
theorem replaceIn_ends (hne : needle ≠ []) (hsize : haystack.length < 2 ^ 64)
    (hs : Searchable f needle haystack) (str : Bytes) (count : ℤ) :
    Ends (fun fuel => replaceIn fuel haystack (haystack.map f) needle str count)
      (Replaces f needle str haystack count) := by
  rcases lt_or_ge needle.length haystack.length with hlt | hge
  · by_cases hstr : needle.length = str.length
    · exact overwritten_ends hne hlt hstr hs count
    · exact allocated_ends hne hlt hsize hstr hs count
  · exact whole_ends hne hge count

/-- A search that stands still never ends, nor does the replacement. -/
theorem not_replaceIn_ends {b : UInt8} (hb : shift needle (f b) % 2 ^ 32 = 0) (str : Bytes)
    (count : ℤ) (right : Outcome → Prop) :
    ¬ Ends (fun fuel => replaceIn fuel (replicate (needle.length + 1) b)
      ((replicate (needle.length + 1) b).map f) needle str count) right := by
  rintro ⟨fuel0, res, hcall, -⟩
  have hnone : replaceIn fuel0 (replicate (needle.length + 1) b)
      ((replicate (needle.length + 1) b).map f) needle str count = none := by
    have hsearch := memnstr_stays hb fuel0
    rw [map_replicate, replaceIn, if_pos (by rw [length_replicate]; omega)]
    split
    · cases fuel0 with
      | zero => rfl
      | succ fuel => rw [overwriteLoop, drop_zero, hsearch]; rfl
    · cases fuel0 with
      | zero => rfl
      | succ fuel => rw [countLoop, hsearch]; rfl
  cases hnone.symm.trans (hcall fuel0 le_rfl)

/-! ## The function for bytes -/

variable {x c : UInt8} {new : Bytes}

theorem byteRule_pos (h : f c = x) (s : Bytes) : needleRule f [x] new (c :: s) = some (new, 1) := by
  refine if_pos ?_
  rw [map_cons, h]
  exact ⟨s.map f, rfl⟩

theorem byteRule_neg (h : f c ≠ x) (s : Bytes) : needleRule f [x] new (c :: s) = none := by
  refine if_neg fun hpre => h ?_
  rw [map_cons, cons_prefix_cons] at hpre
  exact hpre.1.symm

theorem hits_byte (s : Bytes) : hits (needleRule f [x] new) 0 s = s.countP fun c => f c = x := by
  induction s with
  | nil => rfl
  | cons c s ih =>
    rw [hits, countP_cons]
    by_cases h : f c = x
    · rw [byteRule_pos h, if_pos (decide_eq_true h)]
      exact congrArg (· + 1) ih
    · rw [byteRule_neg h, if_neg (by rwa [decide_eq_true_iff])]
      exact ih

variable {tolower : ℤ → ℤ}

/-- The comparison of the source with `lc_from` tells which bytes have the same lower case. -/
def Matches (tolower : ℤ → ℤ) (from' : UInt8) : Prop :=
  ∀ c : UInt8, tolower (toChar c.toNat) = toChar (tolower (toChar from'.toNat)) ↔
    lowerByte tolower c = lowerByte tolower from'

theorem charLoop_eq {lcFrom : ℤ} (hx : ∀ c : UInt8, tolower (toChar c.toNat) = lcFrom ↔ f c = x)
    (s target : Bytes) (count : Option ℤ) : charLoop tolower lcFrom new s target count =
      (target ++ rewrite (needleRule f [x] new) 0 s,
        count.map (· + (hits (needleRule f [x] new) 0 s : ℤ))) := by
  induction s generalizing target count with
  | nil =>
    rw [rewrite, append_nil]
    cases count with
    | none => rfl
    | some n => exact congrArg (fun m => (target, some m)) (add_zero n).symm
  | cons c s ih =>
    rw [charLoop, rewrite, hits]
    by_cases h : f c = x
    · rw [if_pos ((hx c).2 h), ih, byteRule_pos h]
      rw [append_assoc, Option.map_map]
      congr 2
      funext n
      exact (add_assoc n 1 _).trans (congrArg (n + ·) (add_comm 1 _))
    · rw [if_neg (mt (hx c).1 h), ih, byteRule_neg h, append_assoc]
      rfl

/-- With a needle of one byte the search never stands still. -/
theorem searchable_byte (s : Bytes) : Searchable f [x] s := by
  intro b _
  have hle := shift_le [x] b
  have hpos : 0 < shift [x] b := Nat.succ_pos _
  rw [length_singleton] at hle
  omega

/-- What is allocated for the replacement of a byte is what it needs. -/
theorem alloc_byte (f : UInt8 → UInt8) (x : UInt8) (new : Bytes)
    (hsize : haystack.length < 2 ^ 64) : match (if new.length > 0 then
        safeAlloc (hits (needleRule f [x] new) 0 haystack) (new.length - 1) haystack.length
      else some (sizeSub haystack.length (hits (needleRule f [x] new) 0 haystack))) with
    | none =>
      2 ^ 64 ≤ hits (needleRule f [x] new) 0 haystack * (new.length - 1) +
        structSize haystack.length
    | some alloc => (rewrite (needleRule f [x] new) 0 haystack).length = alloc := by
  have htotal := length_replaced f new (cons_ne_nil x []) haystack
  rw [length_singleton] at htotal
  by_cases hnew : new.length > 0
  · rw [if_pos hnew, safeAlloc]
    by_cases hfits : hits (needleRule f [x] new) 0 haystack * (new.length - 1) +
        structSize haystack.length < 2 ^ 64
    · rw [if_pos hfits]
      rw [Nat.mul_sub]
      have hle : hits (needleRule f [x] new) 0 haystack * 1 ≤
          hits (needleRule f [x] new) 0 haystack * new.length := Nat.mul_le_mul_left _ hnew
      omega
    · rw [if_neg hfits]
      exact le_of_not_gt hfits
  · obtain rfl := length_eq_zero_iff.mp (Nat.eq_zero_of_not_pos hnew)
    rw [length_nil] at htotal
    rw [if_neg hnew]
    rw [sizeSub]
    omega

/-- What a byte is compared as. -/
def foldCase (tolower : ℤ → ℤ) (caseSensitivity : Bool) : UInt8 → UInt8 :=
  if caseSensitivity then id else lowerByte tolower

/-- The count of the places for both cases, and then the text. -/
theorem charToStrEx_eq (hm : Matches tolower from') (str new : Bytes)
    (caseSensitivity : Bool) (count : Option ℤ) : ∃ fuel0, ∀ fuel, fuel0 ≤ fuel →
      charToStrEx tolower fuel str from' new caseSensitivity count =
        let f := foldCase tolower caseSensitivity
        let rule := needleRule f [f from'] new
        if hits rule 0 str = 0 then some (.copy str count)
        else
          match (if new.length > 0 then safeAlloc (hits rule 0 str) (new.length - 1) str.length
            else some (sizeSub str.length (hits rule 0 str))) with
          | none => some .fatal
          | some alloc =>
            some (.new alloc (rewrite rule 0 str) (count.map (· + (hits rule 0 str : ℤ)))) := by
  cases caseSensitivity with
  | true =>
    have hs : Searchable id [from'] str := searchable_byte str
    obtain ⟨fuel0, hcount⟩ := countLoop_spec new (cons_ne_nil from' []) hs
    obtain ⟨fuel1, hcopy⟩ := copyLoop_spec new (cons_ne_nil from' []) hs
    rw [List.map_id] at hcount hcopy
    refine ⟨max (max fuel0 fuel1) (str.length + 1), fun fuel hfuel => ?_⟩
    obtain ⟨e, rest, hloop, htext⟩ := hcopy fuel (by omega) fuel (by omega) [] 0
    rw [charToStrEx]
    dsimp only [foldCase]
    rw [if_pos rfl, hcount fuel (by omega) fuel (by omega), bind_some, hloop]
    simp only [reduceIte, map_some, htext, nil_append, zero_add, id]
  | false =>
    refine ⟨0, fun fuel _ => ?_⟩
    rw [charToStrEx]
    dsimp only [foldCase]
    simp only [hm _]
    rw [if_neg Bool.false_ne_true, if_neg Bool.false_ne_true, charLoop_eq hm, hits_byte]
    rfl

theorem charToStrEx_ends (hm : Matches tolower from') (new : Bytes)
    (caseSensitivity : Bool) (count : Option ℤ) (hsize : str.length < 2 ^ 64) :
    Ends (fun fuel => charToStrEx tolower fuel str from' new caseSensitivity count)
      (Replaces (foldCase tolower caseSensitivity) [foldCase tolower caseSensitivity from'] new str
        count) := by
  obtain ⟨fuel0, hcall⟩ := charToStrEx_eq hm str new caseSensitivity count
  generalize foldCase tolower caseSensitivity = f at hcall ⊢
  by_cases hzero : hits (needleRule f [f from'] new) 0 str = 0
  · refine ⟨fuel0, .copy str count, fun fuel hfuel => (hcall fuel hfuel).trans (if_pos hzero),
      (rewrite_of_no_hits hzero).symm, ?_⟩
    rw [hzero]
    cases count with
    | none => rfl
    | some n => exact congrArg some (add_zero n).symm
  · have halloc := alloc_byte f (f from') new hsize
    rw [if_neg hzero] at hcall
    match (if new.length > 0 then
        safeAlloc (hits (needleRule f [f from'] new) 0 str) (new.length - 1) str.length
      else some (sizeSub str.length (hits (needleRule f [f from'] new) 0 str))), halloc, hcall with
    | none, hover, hcall => exact ⟨fuel0, .fatal, hcall, hover⟩
    | some alloc, hlen, hcall => exact ⟨fuel0, _, hcall, rfl, hlen, rfl⟩

/-- What the function makes of a text of one byte tells how it compares this byte. -/
theorem matches_of_ends
    (h : ∀ c, Ends (fun fuel => charToStrEx tolower fuel [c] from' [] false (some 0))
      (Replaces (lowerByte tolower) [lowerByte tolower from'] [] [c] (some 0))) :
    Matches tolower from' := by
  intro c
  obtain ⟨fuel, res, hcall, hright⟩ := h c
  have hres := hcall fuel le_rfl
  have hhits : hits (needleRule (lowerByte tolower) [lowerByte tolower from'] []) 0 [c] = _ :=
    hits_byte [c]
  by_cases hc : tolower (toChar c.toNat) = toChar (tolower (toChar from'.toNat))
  · obtain rfl : Outcome.new (sizeSub 1 1) [] (some 1) = res := by
      simpa [charToStrEx, charLoop, hc] using hres
    obtain ⟨-, -, hcount⟩ := hright
    refine iff_of_true hc ?_
    by_contra hno
    rw [countP_singleton, if_neg (by simpa using hno)] at hhits
    rw [hhits] at hcount
    exact absurd hcount (by decide)
  · obtain rfl : Outcome.copy [c] (some 0) = res := by
      simpa [charToStrEx, hc] using hres
    refine iff_of_false hc fun hyes => ?_
    obtain ⟨-, hcount⟩ := hright
    rw [countP_singleton, if_pos (by simpa using hyes)] at hhits
    rw [hhits] at hcount
    exact absurd hcount (by decide)

/-! ## All replacements -/

/-- `php_strtr_array` replaces the longest pattern at each place, and the other functions replace
the needle, whatever the text and the replacement are. -/
structure ReplacesRight (tolower : ℤ → ℤ) (needle : Bytes) (from' : UInt8) : Prop where
  strtr : ∀ (input : Bytes) (pats : List (Key × Bytes)),
    (∀ s entry, (Key.str s, entry) ∈ pats → s ≠ []) →
    strtrArray input pats = some (some (rewrite (patternRule pats) 0 input))
  strToStr : ∀ (haystack str : Bytes) (count : ℤ), haystack.length < 2 ^ 64 →
    Ends (fun fuel => strToStrEx fuel haystack needle str count)
      (Replaces id needle str haystack (some count))
  strToStrI : ∀ (haystack str : Bytes) (count : ℤ), haystack.length < 2 ^ 64 →
    Ends (fun fuel => strToStrIEx tolower fuel haystack (haystack.map (lowerByte tolower)) needle
        str count)
      (Replaces (lowerByte tolower) (needle.map (lowerByte tolower)) str haystack (some count))
  charToStr : ∀ (str new : Bytes) (caseSensitivity : Bool) (count : Option ℤ),
    str.length < 2 ^ 64 →
    Ends (fun fuel => charToStrEx tolower fuel str from' new caseSensitivity count)
      (Replaces (foldCase tolower caseSensitivity) [foldCase tolower caseSensitivity from'] new str
        count)

/-- The functions replace what they should if and only if no byte has an entry in the table of the
search that is zero as an `unsigned int`, as the needle is written and in lower case, and the
comparison of a `char` with an `int` tells which bytes have the same lower case. -/
theorem replacesRight_iff (tolower : ℤ → ℤ) {needle : Bytes} (from' : UInt8) (hne : needle ≠ [])
    (hsize : needle.length + 1 < 2 ^ 64) : ReplacesRight tolower needle from' ↔
      (∀ b, shift needle b % 2 ^ 32 ≠ 0) ∧
        (∀ b, shift (needle.map (lowerByte tolower)) (lowerByte tolower b) % 2 ^ 32 ≠ 0) ∧
        Matches tolower from' := by
  constructor
  · rintro ⟨-, hplain, hlower, hchar⟩
    refine ⟨fun b hb => ?_, fun b hb => ?_, matches_of_ends fun c => hchar [c] [] false _ (by simp)⟩
    · have hends := hplain (replicate (needle.length + 1) b) [] 0
        (by rwa [length_replicate])
      refine not_replaceIn_ends (f := id) hb [] 0
        (Replaces id needle [] (replicate (needle.length + 1) b) (some 0)) ?_
      rw [List.map_id]
      exact hends
    · have hends := hlower (replicate (needle.length + 1) b) [] 0
        (by rwa [length_replicate])
      refine not_replaceIn_ends hb [] 0
        (Replaces (lowerByte tolower) (needle.map (lowerByte tolower)) []
        (replicate (needle.length + 1) b) (some 0))
        ?_
      rw [length_map]
      exact hends
  · rintro ⟨hplain, hlower, hm⟩
    refine ⟨strtrArray_eq, fun haystack str count hhay => ?_, fun haystack str count hhay => ?_,
      fun str new cs count hstr => charToStrEx_ends hm new cs count hstr⟩
    · have hends := replaceIn_ends hne hhay (show Searchable id needle haystack from
        fun b _ => hplain b) str count
      rw [List.map_id] at hends
      exact hends
    · refine replaceIn_ends (fun h => hne (map_eq_nil_iff.mp h)) hhay (fun b hb => ?_) str
        count
      obtain ⟨c, -, rfl⟩ := mem_map.mp hb
      exact hlower c

/-- `tolower` of the C library in the locale `C`; a negative `char` gives the lower case of the byte
it stands for. -/
def tolowerC (n : ℤ) : ℤ :=
  if 65 ≤ n ∧ n ≤ 90 then n + 32 else if -128 ≤ n ∧ n < -1 then n + 256 else n

/-- A letter is replaced in both cases. -/
theorem replacesRight_byte : ReplacesRight tolowerC [97] 97 := by
  refine (replacesRight_iff tolowerC 97 (cons_ne_nil _ _) (by decide)).mpr ⟨fun b hb => ?_,
    fun b hb => ?_, ?_⟩
  · have hle := shift_le [97] b
    have hpos : 0 < shift [97] b := Nat.succ_pos _
    rw [length_singleton] at hle
    omega
  · have hle := shift_le ([97].map (lowerByte tolowerC)) (lowerByte tolowerC b)
    have hpos : 0 < shift ([97].map (lowerByte tolowerC)) (lowerByte tolowerC b) := Nat.succ_pos _
    rw [length_map, length_singleton] at hle
    omega
  · rintro ⟨⟨n⟩⟩
    revert n
    decide +kernel

/-- A byte from 128 on is not found again without regard to case, but for 255. -/
theorem not_matches_byte : ¬ Matches tolowerC 0xe9 := fun h => absurd ((h 0xe9).2 rfl) (by decide)

/-- In a text of `b` the search for a needle of `2 ^ 32 - 1` times `a` stands still. -/
theorem replace_stays : ¬ Ends (fun fuel => strToStrEx fuel (replicate (2 ^ 32) 98)
        (replicate (2 ^ 32 - 1) 97) [] 0)
      (Replaces id (replicate (2 ^ 32 - 1) 97) [] (replicate (2 ^ 32) 98) (some 0)) := by
  have hlen : (replicate (2 ^ 32 - 1) (97 : UInt8)).length = 2 ^ 32 - 1 :=
    length_replicate
  have hnot : (98 : UInt8) ∉ (replicate (2 ^ 32 - 1) (97 : UInt8)).reverse := fun h =>
    absurd (eq_of_mem_replicate (mem_reverse.mp h)) (by decide)
  have hb : shift (replicate (2 ^ 32 - 1) 97) (id (98 : UInt8)) % 2 ^ 32 = 0 := by
    rw [id, shift, idxOf_eq_length hnot, length_reverse, hlen,
      Nat.sub_add_cancel (Nat.one_le_two_pow), Nat.mod_self]
  have hstays := not_replaceIn_ends (f := id) hb [] 0
    (Replaces id (replicate (2 ^ 32 - 1) 97) [] (replicate (2 ^ 32) 98) (some 0))
  rw [hlen, List.map_id] at hstays
  exact hstays

end PhpString
