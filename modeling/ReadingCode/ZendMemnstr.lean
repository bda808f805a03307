/-
# Search in strings

`zend_memnstr` and `zend_memnrstr` look for the first and the last place of a needle in a haystack.
A short haystack or needle is gone through with `memchr` and `memrchr`, others with
`zend_memnstr_ex` and `zend_memnrstr_ex`, which move a window by a table of shifts.

Pointers are offsets from the haystack, which may leave it on both sides; what is read there is
outside.  A window is read whole where the source stops at its first difference.  `size_t` holds
every length, while `int` and the entries of the table have 32 bits.
-/
import Mathlib
import ReadingCode.Substring
import ReadingCode.Bytes

namespace ZendMemnstr

/-- The pointer that is returned, or that a byte outside the haystack was read. -/
inductive Answer where
  | outside
  | null
  | found (p : ℤ)
  deriving DecidableEq, Repr

/-- The byte at an offset. -/
def byteAt (haystack : Bytes) (p : ℤ) : Option UInt8 :=
  if 0 ≤ p then haystack[p.toNat]? else none

/-- The bytes from an offset on. -/
def window (haystack : Bytes) (p : ℤ) (len : ℕ) : Option Bytes :=
  if 0 ≤ p ∧ p + len ≤ haystack.length then some ((haystack.drop p.toNat).take len) else none

/-! ## The table of shifts -/

/-- `td[needle[i]] = (int)needle_len - i` from `i` on, as an `unsigned int` -/
def fillForward (needleLen : ℕ) : ℕ → Bytes → (UInt8 → ℕ) → UInt8 → ℕ
  | _, [], td => td
  | i, b :: rest, td =>
    fillForward needleLen (i + 1) rest (Function.update td b ((needleLen - i) % 2 ^ 32))

/-- `td[needle[i]] = i + 1` from `i` down to 0; the argument is `i + 1`. -/
def fillReverse (needle : Bytes) : ℕ → (UInt8 → ℕ) → UInt8 → ℕ
  | 0, td => td
  | i + 1, td => fillReverse needle i (Function.update td (needle.getD i 0) (i + 1))

/-- `zend_memnstr_ex_pre`; the `int` counter of the reverse loop begins at `needle_len - 1`. -/
def memnstrExPre (needle : Bytes) (reverse : Bool) : UInt8 → ℕ :=
  let td : UInt8 → ℕ := fun _ => (needle.length + 1) % 2 ^ 32
  if reverse then
    let i := Int.bmod ((needle.length : ℤ) - 1) (2 ^ 32)
    fillReverse needle (i + 1).toNat td
  else fillForward needle.length 0 needle td

/-! ## With the table -/

/-- The loop of `zend_memnstr_ex`. -/
def memnstrExLoop (td : UInt8 → ℕ) (haystack needle : Bytes) (last : ℤ) :
    ℕ → ℤ → Option Answer
  | 0, _ => none
  | fuel + 1, p =>
    if p ≤ last then
      match window haystack p needle.length with
      | none => some .outside
      | some bytes =>
        if bytes = needle then some (.found p)
        else if p = last then some .null
        else
          match byteAt haystack (p + needle.length) with
          | none => some .outside
          | some b => memnstrExLoop td haystack needle last fuel (p + td b)
    else some .null

/-- `zend_memnstr_ex` -/
def memnstrEx (fuel : ℕ) (haystack needle : Bytes) : Option Answer :=
  if needle.length = 0 ∨ haystack.length = 0 then some .null
  else memnstrExLoop (memnstrExPre needle false) haystack needle
    ((haystack.length : ℤ) - needle.length) fuel 0

/-- The loop of `zend_memnrstr_ex`. -/
def memnrstrExLoop (td : UInt8 → ℕ) (haystack needle : Bytes) : ℕ → ℤ → Option Answer
  | 0, _ => none
  | fuel + 1, p =>
    if p ≥ 0 then
      match window haystack p needle.length with
      | none => some .outside
      | some bytes =>
        if bytes = needle then some (.found p)
        else if p = 0 then some .null
        else
          match byteAt haystack (p - 1) with
          | none => some .outside
          | some b => memnrstrExLoop td haystack needle fuel (p - td b)
    else some .null

/-- `zend_memnrstr_ex` -/
def memnrstrEx (fuel : ℕ) (haystack needle : Bytes) : Option Answer :=
  if needle.length = 0 ∨ haystack.length = 0 then some .null
  else memnrstrExLoop (memnstrExPre needle true) haystack needle fuel
    ((haystack.length : ℤ) - needle.length)

/-! ## With `memchr` -/

/-- `memchr(p, c, n)` -/
def memchr (haystack : Bytes) (p : ℤ) (c : UInt8) (n : ℕ) : Answer :=
  match window haystack p n with
  | none => .outside
  | some bytes =>
    match bytes.idxOf? c with
    | none => .null
    | some k => .found (p + k)

/-- `zend_memrchr(haystack, c, n)` -/
def memrchr (haystack : Bytes) (c : UInt8) : ℕ → Answer
  | 0 => .null
  | n + 1 =>
    match byteAt haystack n with
    | none => .outside
    | some b => if b = c then .found n else memrchr haystack c n

/-- `ne == p[needle_len-1]` and then `!memcmp(needle, p, needle_len-1)`, if both can be read. -/
def isNeedle (haystack needle : Bytes) (p : ℤ) : Option Bool :=
  match byteAt haystack (p + needle.length - 1) with
  | none => none
  | some b =>
    if needle.getD (needle.length - 1) 0 = b then
      (window haystack p (needle.length - 1)).map
        fun bytes => decide (bytes = needle.take (needle.length - 1))
    else some false

/-- The loop of `zend_memnstr`. -/
def memnstrLoop (haystack needle : Bytes) (last : ℤ) : ℕ → ℤ → Option Answer
  | 0, _ => none
  | fuel + 1, p =>
    if p ≤ last then
      match memchr haystack p (needle.getD 0 0) (last - p + 1).toNat with
      | .outside => some .outside
      | .null => some .null
      | .found p =>
        match isNeedle haystack needle p with
        | none => some .outside
        | some true => some (.found p)
        | some false => memnstrLoop haystack needle last fuel (p + 1)
    else some .null

/-- `zend_memnstr` -/
def memnstr (fuel : ℕ) (haystack needle : Bytes) : Option Answer :=
  if needle.length = 1 then some (memchr haystack 0 (needle.getD 0 0) haystack.length)
  else if needle.length > haystack.length then some .null
  else if haystack.length < 1024 ∨ needle.length < 9 then
    memnstrLoop haystack needle ((haystack.length : ℤ) - needle.length) fuel 0
  else memnstrEx fuel haystack needle

/-- The loop of `zend_memnrstr`; a null pointer from `zend_memrchr` ends it. -/
def memnrstrLoop (haystack needle : Bytes) : ℕ → ℤ → Option Answer
  | 0, _ => none
  | fuel + 1, p =>
    match memrchr haystack (needle.getD 0 0) (p + 1).toNat with
    | .outside => some .outside
    | .null => some .null
    | .found p =>
      match isNeedle haystack needle p with
      | none => some .outside
      | some true => some (.found p)
      | some false => if p ≥ 0 then memnrstrLoop haystack needle fuel (p - 1) else some .null

/-- `zend_memnrstr` -/
def memnrstr (fuel : ℕ) (haystack needle : Bytes) : Option Answer :=
  if needle.length = 1 then some (memrchr haystack (needle.getD 0 0) haystack.length)
  else if needle.length > haystack.length then some .null
  else if haystack.length < 1024 ∨ needle.length < 3 then
    memnrstrLoop haystack needle fuel ((haystack.length : ℤ) - needle.length)
  else memnrstrEx fuel haystack needle

/-!
# The first place of a needle

An entry of the table is the shift of the Sunday algorithm with its upper bits cut off, which is
never too far.  With a zero the window stays where it is.
-/

open Substring

open List

variable {haystack needle bytes bs : Bytes} {td : UInt8 → ℕ} {p q last m n k : ℕ} {b c : UInt8}

/-- An answer that is the first place of the needle. -/
def FirstOf (needle haystack : Bytes) : Answer → Prop
  | .outside => False
  | .null => ∀ q, ¬ Occurs needle haystack q
  | .found p => ∃ q : ℕ, p = q ∧ IsFirst needle haystack q

/-- An answer that is the last place of the needle. -/
def LastOf (needle haystack : Bytes) : Answer → Prop
  | .outside => False
  | .null => ∀ q, ¬ Occurs needle haystack q
  | .found p => ∃ q : ℕ, p = q ∧ IsLast needle haystack q

/-- A search that returns, with an answer that is right. -/
def Returns (search : ℕ → Option Answer) (right : Answer → Prop) : Prop :=
  ∃ fuel0 a, (∀ fuel, fuel0 ≤ fuel → search fuel = some a) ∧ right a

namespace Returns

variable {search search' : ℕ → Option Answer} {right : Answer → Prop}

/-- The same with more rounds than `n`. -/
def After (n : ℕ) (search : ℕ → Option Answer) (right : Answer → Prop) : Prop :=
  ∃ a, (∀ fuel, n < fuel → search fuel = some a) ∧ right a

/-- A round that answers. -/
theorem After.here {a : Answer} (h : ∀ fuel, search (fuel + 1) = some a) (ha : right a) :
    After n search right := by
  refine ⟨a, fun fuel hfuel => ?_, ha⟩
  obtain ⟨fuel, rfl⟩ := Nat.exists_eq_add_one.2 hfuel.pos
  exact h fuel

/-- A round that goes on. -/
theorem After.next (h' : After k search' right) (hk : k < n)
    (h : ∀ fuel, search (fuel + 1) = search' fuel) : After n search right := by
  obtain ⟨a, hloop, ha⟩ := h'
  refine ⟨a, fun fuel hfuel => ?_, ha⟩
  obtain ⟨fuel, rfl⟩ := Nat.exists_eq_add_one.2 hfuel.pos
  exact (h fuel).trans (hloop fuel (by omega))

/-- A function that only calls the search. -/
theorem After.called (h' : After n search' right) (h : ∀ fuel, search fuel = search' fuel) :
    Returns search right := by
  obtain ⟨a, hloop, ha⟩ := h'
  exact ⟨n + 1, a, fun fuel hfuel => (h fuel).trans (hloop fuel hfuel), ha⟩

end Returns

/-! ## Reading -/

theorem byteAt_natCast (haystack : Bytes) (p : ℕ) : byteAt haystack p = haystack[p]? := by
  rw [byteAt, if_pos (Int.natCast_nonneg p), Int.toNat_natCast]

theorem window_natCast {len : ℕ} (h : p + len ≤ haystack.length) :
    window haystack p len = some ((haystack.drop p).take len) := by
  rw [window, if_pos ⟨Int.natCast_nonneg p, by omega⟩, Int.toNat_natCast]

/-- Two lists of one length are equal when all but their last elements are, and these are. -/
theorem eq_iff_take_getElem? {x y : Bytes} (hx : x.length = m + 1) (hy : y.length = m + 1) :
    x = y ↔ x.take m = y.take m ∧ x[m]? = y[m]? := by
  constructor
  · rintro rfl
    exact ⟨rfl, rfl⟩
  · rintro ⟨htake, hget⟩
    have hsplit : ∀ z : Bytes, z.length = m + 1 → z = z.take m ++ z[m]?.toList := by
      intro z hz
      rw [← take_add_one, take_of_length_le (le_of_eq hz)]
    rw [hsplit x hx, hsplit y hy, htake, hget]

/-- The test of a window is whether the needle begins there. -/
theorem isNeedle_eq (hm : needle.length = m + 1) (hq : q + needle.length ≤ haystack.length) :
    ∃ t, isNeedle haystack needle q = some t ∧ (t = true ↔ Occurs needle haystack q) := by
  have hlen : ((haystack.drop q).take (m + 1)).length = m + 1 := by
    rw [length_take, length_drop]
    omega
  have hlast : q + m < haystack.length := by omega
  have hocc : Occurs needle haystack q ↔ (haystack.drop q).take m = needle.take m ∧
      haystack[q + m]? = needle[m]? := by
    rw [occurs_iff_take, hm, eq_iff_take_getElem? hlen hm, take_take,
      min_eq_left m.le_succ, getElem?_take_of_lt m.lt_succ_self, getElem?_drop]
  have hcast : ((q : ℤ) + ((m + 1 : ℕ) : ℤ) - 1) = ((q + m : ℕ) : ℤ) := by omega
  rw [isNeedle, hm, Nat.add_sub_cancel, hcast, byteAt_natCast,
    getElem?_eq_getElem hlast, window_natCast (by omega), getD_eq_getElem?_getD,
    getElem?_eq_getElem (by omega)]
  rw [getElem?_eq_getElem hlast, getElem?_eq_getElem (by omega)] at hocc
  dsimp only [Option.getD_some]
  by_cases hne : needle[m] = haystack[q + m]
  · rw [if_pos hne]
    refine ⟨_, rfl, ?_⟩
    rw [decide_eq_true_iff, hocc, hne, and_iff_left rfl]
  · rw [if_neg hne]
    refine ⟨_, rfl, fun h => absurd h Bool.false_ne_true, fun h => ?_⟩
    exact absurd (Option.some.inj (hocc.mp h).2).symm hne

/-! ## The table -/

theorem fillForward_apply {needleLen i : ℕ} (h : i + bs.length = needleLen) (td : UInt8 → ℕ)
    (b : UInt8) :
    fillForward needleLen i bs td b = if b ∈ bs then shift bs b % 2 ^ 32 else td b := by
  induction bs generalizing i td with
  | nil =>
    rfl
  | cons c bs ih =>
    rw [length_cons] at h
    rw [fillForward, ih (by omega), shift_cons]
    by_cases hmem : b ∈ bs
    · rw [if_pos hmem, if_pos (mem_cons_of_mem c hmem), if_pos hmem]
    · rw [if_neg hmem, if_neg hmem]
      by_cases hbc : b = c
      · rw [hbc, Function.update_self, if_pos mem_cons_self, if_pos rfl]
        omega
      · rw [Function.update_of_ne hbc, if_neg fun h => (mem_cons.mp h).elim hbc hmem]

/-- The entries of the table for the search from the front. -/
theorem memnstrExPre_false (needle : Bytes) (b : UInt8) :
    memnstrExPre needle false b = shift needle b % 2 ^ 32 := by
  unfold memnstrExPre
  rw [if_neg Bool.false_ne_true, fillForward_apply (zero_add _)]
  by_cases hmem : b ∈ needle
  · rw [if_pos hmem]
  · rw [if_neg hmem, shift_of_notMem hmem]

/-! ## With the table -/

theorem window_eq_iff (h : p + needle.length ≤ haystack.length) :
    ∃ bytes, window haystack p needle.length = some bytes ∧
      (bytes = needle ↔ Occurs needle haystack p) :=
  ⟨_, window_natCast h, occurs_iff_take.symm⟩

theorem no_room (hne : needle ≠ []) (hlast : last + needle.length = haystack.length)
    (hq : last < q) : ¬ Occurs needle haystack q := by
  intro h
  have hle := h.add_length_le hne
  omega

theorem no_place (hne : needle ≠ []) (hlong : haystack.length < needle.length) (q : ℕ) :
    ¬ Occurs needle haystack q := by
  intro h
  have hle := h.add_length_le hne
  omega

theorem firstOf_null (hne : needle ≠ []) (hlast : last + needle.length = haystack.length)
    (hp : last < p) (hbefore : ∀ q < p, ¬ Occurs needle haystack q) :
    FirstOf needle haystack .null := by
  intro q
  rcases lt_or_ge q p with hq | hq
  · exact hbefore q hq
  · exact no_room hne hlast (by omega)

/-- **The loop with the table** finds the first place from `p` on, when no entry is zero and none is
too far. -/
theorem memnstrExLoop_spec (td : UInt8 → ℕ) (hne : needle ≠ [])
    (htd : ∀ b ∈ haystack, td b ≠ 0 ∧ td b ≤ shift needle b)
    (hlast : last + needle.length = haystack.length)
    (hbefore : ∀ q < p, ¬ Occurs needle haystack q) : Returns.After (last + 1 - p)
      (memnstrExLoop td haystack needle last · p) (FirstOf needle haystack) := by
  induction hk : last + 1 - p using Nat.strongRecOn generalizing p with
  | ind k ih =>
    by_cases hp : p ≤ last
    · have hp' : (p : ℤ) ≤ last := Int.ofNat_le.mpr hp
      obtain ⟨bytes, hwindow, hbytes⟩ := window_eq_iff
        (show p + needle.length ≤ haystack.length by omega)
      by_cases heq : bytes = needle
      · refine .here (a := .found p) (fun fuel => ?_) ⟨p, rfl, hbytes.mp heq, hbefore⟩
        rw [memnstrExLoop, if_pos hp', hwindow]
        exact if_pos heq
      · have hhere : ¬ Occurs needle haystack p := fun h => heq (hbytes.mpr h)
        have hskip : ∀ q < p + 1, ¬ Occurs needle haystack q := by
          intro q hq
          rcases Nat.lt_succ_iff_lt_or_eq.mp hq with hq | rfl
          · exact hbefore q hq
          · exact hhere
        by_cases hend : p = last
        · refine .here (fun fuel => ?_) (firstOf_null hne hlast (by omega) hskip)
          rw [memnstrExLoop, if_pos hp', hwindow]
          dsimp only
          rw [if_neg heq, if_pos (by omega)]
        · -- the byte behind the window says how far it moves
          have hlt : p + needle.length < haystack.length := by omega
          obtain ⟨hzero, hshift⟩ := htd haystack[p + needle.length] (getElem_mem hlt)
          refine .next (ih (last + 1 - (p + td haystack[p + needle.length])) (by omega)
            (p := p + td haystack[p + needle.length]) (fun q hq h => ?_) rfl) (by omega)
            fun fuel => ?_
          · rcases lt_or_ge q (p + 1) with hqp | hqp
            · exact hskip q hqp h
            · have hle := h.add_shift_le hqp (getElem?_eq_getElem hlt)
              omega
          have hbyte : byteAt haystack ((p : ℤ) + (needle.length : ℤ))
              = some haystack[p + needle.length] := by
            rw [← Int.natCast_add, byteAt_natCast, getElem?_eq_getElem hlt]
          rw [memnstrExLoop, if_pos hp', hwindow]
          dsimp only
          rw [if_neg heq, if_neg (by omega), hbyte]
          rfl
    · refine .here (fun fuel => ?_) (firstOf_null hne hlast (by omega) hbefore)
      rw [memnstrExLoop, if_neg (by omega)]

/-- `zend_memnstr_ex` is right on a haystack when no byte of it has a zero in the table. -/
theorem memnstrEx_first (hne : needle ≠ []) (haystack : Bytes)
    (hok : ∀ b ∈ haystack, shift needle b % 2 ^ 32 ≠ 0) :
    Returns (fun fuel => memnstrEx fuel haystack needle) (FirstOf needle haystack) := by
  have hpos := length_pos_iff.mpr hne
  rcases lt_or_ge haystack.length needle.length with hlong | hroom
  · refine (Returns.After.here (n := 0) (a := .null) (fun fuel => ?_)
      (no_place hne hlong)).called fun _ => rfl
    rw [memnstrEx, memnstrExLoop, ite_eq_left_iff]
    exact fun _ => if_neg (by omega)
  · obtain ⟨last, hlast⟩ : ∃ last, last + needle.length = haystack.length :=
      ⟨haystack.length - needle.length, by omega⟩
    refine (memnstrExLoop_spec (memnstrExPre needle false) (p := 0) hne
      (fun b hb => by rw [memnstrExPre_false]; exact ⟨hok b hb, Nat.mod_le _ _⟩) hlast
      fun q hq => absurd hq (Nat.not_lt_zero q)).called fun fuel => ?_
    rw [memnstrEx, if_neg (by omega), show (haystack.length : ℤ) - needle.length = last by omega]
    rfl

/-! ## With `memchr` -/

/-- `memchr` within the haystack. -/
theorem memchr_spec {n : ℕ} (h : p + n ≤ haystack.length) (c : UInt8) :
    (memchr haystack p c n = .null ∧ ∀ q, p ≤ q → q < p + n → haystack[q]? ≠ some c) ∨
    ∃ q : ℕ, memchr haystack p c n = .found q ∧ p ≤ q ∧ q < p + n ∧ haystack[q]? = some c ∧
      ∀ r, p ≤ r → r < q → haystack[r]? ≠ some c := by
  have hget : ∀ i < n, ((haystack.drop p).take n)[i]? = haystack[p + i]? := fun i hi => by
    rw [getElem?_take_of_lt hi, getElem?_drop]
  have hlen : ((haystack.drop p).take n).length = n := by
    rw [length_take, length_drop]
    omega
  unfold memchr
  rw [window_natCast h]
  dsimp only
  cases hidx : ((haystack.drop p).take n).idxOf? c with
  | none =>
    refine .inl ⟨rfl, fun q hpq hq hqc => ?_⟩
    rw [idxOf?_eq_none_iff] at hidx
    obtain ⟨i, rfl⟩ := Nat.exists_eq_add_of_le hpq
    rw [← hget i (by omega)] at hqc
    exact hidx (mem_of_getElem? hqc)
  | some k =>
    rw [idxOf?_eq_some_iff] at hidx
    obtain ⟨hk, hkc, hbefore⟩ := hidx
    rw [hlen] at hk
    refine .inr ⟨p + k, rfl, by omega, by omega, ?_, fun r hpr hr hrc => ?_⟩
    · rw [← hget k hk, List.getElem?_eq_some_iff]
      exact ⟨_, hkc⟩
    · obtain ⟨i, rfl⟩ := Nat.exists_eq_add_of_le hpr
      rw [← hget i (by omega), List.getElem?_eq_some_iff] at hrc
      obtain ⟨hi, hic⟩ := hrc
      exact hbefore i (by omega) hic

/-- A needle begins with its first byte. -/
theorem getElem?_of_occurs (hne : needle ≠ []) (h : Occurs needle haystack q) :
    haystack[q]? = some (needle.getD 0 0) := by
  have hpos := length_pos_iff.mpr hne
  rw [← add_zero q, h.getElem? hpos, getD_eq_getElem?_getD,
    getElem?_eq_getElem hpos, Option.getD_some]

/-- **The loop with `memchr`** finds the first place from `p` on. -/
theorem memnstrLoop_spec (hm : needle.length = m + 1)
    (hlast : last + needle.length = haystack.length)
    (hbefore : ∀ q < p, ¬ Occurs needle haystack q) : Returns.After (last + 1 - p)
      (memnstrLoop haystack needle last · p) (FirstOf needle haystack) := by
  have hne : needle ≠ [] := ne_nil_of_length_eq_add_one hm
  induction hk : last + 1 - p using Nat.strongRecOn generalizing p with
  | ind k ih =>
    by_cases hp : p ≤ last
    · have hp' : (p : ℤ) ≤ last := Int.ofNat_le.mpr hp
      have hn : ((last : ℤ) - p + 1).toNat = last + 1 - p := by omega
      rcases memchr_spec (show p + (last + 1 - p) ≤ haystack.length by omega)
        (needle.getD 0 0) with ⟨hchr, hno⟩ | ⟨q, hchr, hpq, hq, hqc, hno⟩
      · refine .here (a := .null) (fun fuel => ?_) fun q h => ?_
        · rw [memnstrLoop, if_pos hp', hn, hchr]
        · rcases lt_or_ge q p with hq | hq
          · exact hbefore q hq h
          · have hroom : ¬ last < q := fun hlt => no_room hne hlast hlt h
            exact hno q hq (by omega) (getElem?_of_occurs hne h)
      · obtain ⟨t, htest, hocc⟩ := isNeedle_eq hm
          (show q + needle.length ≤ haystack.length by omega)
        have hskip : ∀ r < q, ¬ Occurs needle haystack r := by
          intro r hr h
          rcases lt_or_ge r p with hrp | hrp
          · exact hbefore r hrp h
          · exact hno r hrp hr (getElem?_of_occurs hne h)
        cases t with
        | true =>
          refine .here (a := .found q) (fun fuel => ?_) ⟨q, rfl, hocc.mp rfl, hskip⟩
          rw [memnstrLoop, if_pos hp', hn, hchr]
          dsimp only
          rw [htest]
        | false =>
          refine .next (ih (last + 1 - (q + 1)) (by omega) (p := q + 1) (fun r hr => ?_) rfl)
            (by omega) fun fuel => ?_
          · rcases Nat.lt_succ_iff_lt_or_eq.mp hr with hr | rfl
            · exact hskip r hr
            · exact fun h => Bool.false_ne_true (hocc.mpr h)
          rw [memnstrLoop, if_pos hp', hn, hchr]
          dsimp only
          rw [htest]
          rfl
    · refine .here (fun fuel => ?_) (firstOf_null hne hlast (by omega) hbefore)
      rw [memnstrLoop, if_neg (by omega)]

/-- A needle of one byte begins where that byte is. -/
theorem occurs_of_getElem? (hlen : needle.length = 1)
    (h : haystack[q]? = some (needle.getD 0 0)) : Occurs needle haystack q := by
  obtain ⟨c, rfl⟩ := length_eq_one_iff.mp hlen
  obtain ⟨hq, hget⟩ := List.getElem?_eq_some_iff.mp h
  refine ⟨haystack.drop (q + 1), ?_⟩
  rw [drop_eq_getElem_cons hq, hget]
  rfl

/-- `zend_memnstr` is right on a haystack when no byte of it has a zero in the table. -/
theorem memnstr_first (hne : needle ≠ []) (haystack : Bytes)
    (hok : ∀ b ∈ haystack, shift needle b % 2 ^ 32 ≠ 0) :
    Returns (fun fuel => memnstr fuel haystack needle) (FirstOf needle haystack) := by
  have hpos := length_pos_iff.mpr hne
  by_cases hone : needle.length = 1
  · refine ⟨0, memchr haystack 0 (needle.getD 0 0) haystack.length, fun fuel _ => if_pos hone, ?_⟩
    rcases memchr_spec (p := 0) (n := haystack.length) (Nat.le_of_eq (Nat.zero_add _))
      (needle.getD 0 0) with ⟨hchr, hno⟩ | ⟨q, hchr, -, -, hqc, hno⟩
    · rw [Int.natCast_zero] at hchr
      rw [hchr]
      intro q h
      have hle := h.add_length_le hne
      exact hno q (Nat.zero_le q) (by omega) (getElem?_of_occurs hne h)
    · rw [Int.natCast_zero] at hchr
      rw [hchr]
      refine ⟨q, rfl, occurs_of_getElem? hone hqc, fun r hr h => ?_⟩
      exact hno r (Nat.zero_le r) hr (getElem?_of_occurs hne h)
  · rcases Nat.lt_or_ge haystack.length needle.length with hlong | hroom
    · refine ⟨0, .null, fun fuel _ => ?_, no_place hne hlong⟩
      show memnstr fuel haystack needle = some .null
      rw [memnstr, if_neg hone, if_pos hlong]
    · by_cases hshort : haystack.length < 1024 ∨ needle.length < 9
      · obtain ⟨last, hlast⟩ : ∃ last, last + needle.length = haystack.length :=
          ⟨haystack.length - needle.length, by omega⟩
        refine (memnstrLoop_spec (p := 0) (m := needle.length - 1) (by omega) hlast
          fun q hq => absurd hq (Nat.not_lt_zero q)).called fun fuel => ?_
        rw [memnstr, if_neg hone, if_neg (Nat.not_lt.mpr hroom), if_pos hshort,
          show (haystack.length : ℤ) - needle.length = last by omega]
        rfl
      · obtain ⟨fuel0, a, hsearch, ha⟩ := memnstrEx_first hne haystack hok
        refine ⟨fuel0, a, fun fuel hfuel => ?_, ha⟩
        show memnstr fuel haystack needle = some a
        rw [memnstr, if_neg hone, if_neg (Nat.not_lt.mpr hroom), if_neg hshort]
        exact hsearch fuel hfuel

/-! ## A table with a zero -/

/-- Only a needle that is very long has a zero in its table. -/
theorem length_of_shift (hb : shift needle b % 2 ^ 32 = 0) : 2 ^ 32 ≤ needle.length + 1 := by
  have hle := shift_le needle b
  have hpos : 0 < shift needle b := Nat.succ_pos _
  omega

theorem ne_replicate (hb : shift needle b % 2 ^ 32 = 0) (m : ℕ) : replicate m b ≠ needle := by
  rintro rfl
  have hlen := length_of_shift hb
  rw [length_replicate] at hlen
  obtain ⟨m, rfl⟩ := Nat.exists_eq_succ_of_ne_zero (show m ≠ 0 by omega)
  rw [shift, reverse_replicate, replicate_succ, idxOf_cons_self] at hb
  exact absurd hb (by decide)

/-- With a zero for a byte, the window stays where it is before that byte. -/
theorem memnstrExLoop_stays (hb : shift needle b % 2 ^ 32 = 0) (fuel : ℕ) :
    memnstrExLoop (memnstrExPre needle false) (replicate (needle.length + 1) b) needle 1
      fuel 0 = none := by
  induction fuel with
  | zero => rfl
  | succ fuel ih =>
    have hlen : (replicate (needle.length + 1) b).length = needle.length + 1 :=
      length_replicate
    have hwindow := window_natCast
      (show 0 + needle.length ≤ (replicate (needle.length + 1) b).length by omega)
    have hbyte := byteAt_natCast (replicate (needle.length + 1) b) needle.length
    rw [getElem?_replicate, if_pos (Nat.lt_succ_self _)] at hbyte
    rw [drop_zero, take_replicate, Int.natCast_zero] at hwindow
    rw [memnstrExLoop, hwindow]
    dsimp only
    rw [if_neg (ne_replicate hb _), Int.zero_add, hbyte]
    dsimp only
    rw [memnstrExPre_false, hb]
    exact ih

theorem memnstrEx_stays (hb : shift needle b % 2 ^ 32 = 0) (fuel : ℕ) :
    memnstrEx fuel (replicate (needle.length + 1) b) needle = none := by
  have hlen := length_of_shift hb
  rw [memnstrEx, length_replicate, if_neg (by omega),
    show ((needle.length + 1 : ℕ) : ℤ) - needle.length = 1 by omega]
  exact memnstrExLoop_stays hb fuel

theorem memnstr_stays (hb : shift needle b % 2 ^ 32 = 0) (fuel : ℕ) :
    memnstr fuel (replicate (needle.length + 1) b) needle = none := by
  have hlen := length_of_shift hb
  rw [memnstr, length_replicate, if_neg (by omega), if_neg (by omega), if_neg (by omega)]
  exact memnstrEx_stays hb fuel

variable {search : ℕ → Option Answer}

/-- A search that never answers is not right. -/
theorem not_returns {right : Answer → Prop}
    (h : ∀ fuel, search fuel = none) : ¬ Returns search right := by
  rintro ⟨fuel0, a, hsearch, -⟩
  have hsome := hsearch fuel0 le_rfl
  rw [h] at hsome
  cases hsome

/-!
# The last place of a needle

Where the length of the needle less one is a negative `int`, nothing is filled, and every entry is
the length plus one, cut off.
-/

variable {haystack needle : Bytes} {td : UInt8 → ℕ} {p q last m n : ℕ} {b c : UInt8}

/-! ## The table -/

/-- The length of a needle that the loop with the `int` counter can do with. -/
def IntCounts (len : ℕ) : Prop := (len - 1) % 2 ^ 32 < 2 ^ 31 ∨ len % 2 ^ 32 = 0

instance (len : ℕ) : Decidable (IntCounts len) := inferInstanceAs (Decidable (_ ∨ _))

theorem fillReverse_apply (hk : k ≤ needle.length) (td : UInt8 → ℕ) (b : UInt8) :
    fillReverse needle k td b = if needle.idxOf b < k then shiftBack needle b else td b := by
  induction k generalizing td with
  | zero => rfl
  | succ k ih =>
    have hget : needle.getD k 0 = needle[k] := by
      rw [getD_eq_getElem?_getD, getElem?_eq_getElem hk, Option.getD_some]
    rw [fillReverse, ih (Nat.le_of_succ_le hk), hget]
    rcases Nat.lt_trichotomy (needle.idxOf b) k with hlt | heq | hgt
    · rw [if_pos hlt, if_pos (Nat.lt_succ_of_lt hlt)]
    · have hb : needle[k] = b := by
        have hidx : needle.idxOf b < needle.length := by omega
        have := getElem_idxOf hidx
        rw [← this]
        congr 1
        exact heq.symm
      rw [if_neg (by omega), if_pos (by omega), hb, Function.update_self, shiftBack, heq]
    · have hb : b ≠ needle[k] := by
        intro hb
        have hle := idxOf_le_of_getElem? (l := needle) (i := k) (a := b)
          (by rw [getElem?_eq_getElem hk, hb])
        omega
      rw [if_neg (by omega), if_neg (by omega), Function.update_of_ne hb]

/-- The first value of the counter. -/
theorem counter_eq (hm : 0 < m) : Int.bmod ((m : ℤ) - 1) (2 ^ 32)
    = if (m - 1) % 2 ^ 32 < 2 ^ 31 then (((m - 1) % 2 ^ 32 : ℕ) : ℤ)
      else (((m - 1) % 2 ^ 32 : ℕ) : ℤ) - 2 ^ 32 := by
  rw [Int.bmod_def]
  split_ifs <;> omega

/-- When the counter counts, no entry is zero and none is too far. -/
theorem memnstrExPre_true (hne : needle ≠ []) (h : IntCounts needle.length) (b : UInt8) :
    memnstrExPre needle true b ≠ 0 ∧ memnstrExPre needle true b ≤ shiftBack needle b := by
  have hpos := length_pos_iff.mpr hne
  have hcounter := counter_eq hpos
  have hshift : shiftBack needle b = needle.idxOf b + 1 := rfl
  unfold memnstrExPre
  unfold IntCounts at h
  rw [if_pos rfl, fillReverse_apply (by split_ifs at hcounter <;> omega)]
  by_cases hcounts : (needle.length - 1) % 2 ^ 32 < 2 ^ 31
  · -- the bytes that are first met behind the last value of the counter have its successor
    split_ifs <;> omega
  · split_ifs <;> omega

/-- When it does not, the entries are all the same. -/
theorem memnstrExPre_true_of_not (h : ¬ IntCounts needle.length) (b : UInt8) :
    memnstrExPre needle true b = (needle.length + 1) % 2 ^ 32 := by
  obtain ⟨hcounts, -⟩ := not_or.mp h
  have hpos : 0 < needle.length := Nat.pos_of_ne_zero fun hzero => by
    rw [hzero] at hcounts
    exact hcounts (by decide)
  have hcounter := counter_eq hpos
  have hnone : (Int.bmod ((needle.length : ℤ) - 1) (2 ^ 32) + 1).toNat = 0 := by omega
  unfold memnstrExPre
  dsimp only
  rw [hnone]
  rfl

/-! ## With the table -/

theorem lastOf_null (hbehind : ∀ q, p ≤ q → ¬ Occurs needle haystack q)
    (hbefore : ∀ q < p, ¬ Occurs needle haystack q) : LastOf needle haystack .null := by
  intro q
  rcases lt_or_ge q p with hq | hq
  · exact hbefore q hq
  · exact hbehind q hq

/-- **The loop with the table** finds the last place up to `p`, when no entry is zero and none is
too far. -/
theorem memnrstrExLoop_spec (td : UInt8 → ℕ)
    (htd : ∀ b, td b ≠ 0 ∧ td b ≤ shiftBack needle b) (hp : p + needle.length ≤ haystack.length)
    (hbehind : ∀ q, p < q → ¬ Occurs needle haystack q) : Returns.After (p + 1)
      (memnrstrExLoop td haystack needle · p) (LastOf needle haystack) := by
  induction p using Nat.strongRecOn with
  | ind p ih =>
    obtain ⟨bytes, hwindow, hbytes⟩ := window_eq_iff hp
    by_cases heq : bytes = needle
    · refine .here (a := .found p) (fun fuel => ?_) ⟨p, rfl, hbytes.mp heq, hbehind⟩
      rw [memnrstrExLoop, hwindow]
      exact if_pos heq
    · have hskip : ∀ q, p ≤ q → ¬ Occurs needle haystack q := by
        intro q hq h
        rcases eq_or_lt_of_le hq with rfl | hq
        · exact heq (hbytes.mpr h)
        · exact hbehind q hq h
      by_cases hstart : p = 0
      · refine .here (a := .null) (fun fuel => ?_) fun q => hskip q (by omega)
        rw [memnrstrExLoop, if_pos (Int.natCast_nonneg p), hwindow]
        dsimp only
        rw [if_neg heq, if_pos (by omega)]
      · -- the byte before the window says how far it moves
        have hlt : p - 1 < haystack.length := by omega
        obtain ⟨hzero, hshift⟩ := htd haystack[p - 1]
        have hbyte : byteAt haystack ((p : ℤ) - 1) = some haystack[p - 1] := by
          rw [show (p : ℤ) - 1 = ((p - 1 : ℕ) : ℤ) by omega, byteAt_natCast,
            getElem?_eq_getElem hlt]
        have hstep : ∀ fuel, memnrstrExLoop td haystack needle (fuel + 1) p
            = memnrstrExLoop td haystack needle fuel ((p : ℤ) - td haystack[p - 1]) := by
          intro fuel
          rw [memnrstrExLoop, if_pos (Int.natCast_nonneg p), hwindow]
          dsimp only
          rw [if_neg heq, if_neg (by omega), hbyte]
        have hover : ∀ q < p, Occurs needle haystack q → q + td haystack[p - 1] ≤ p := by
          intro q hq h
          have hle := h.add_shiftBack_le hq (getElem?_eq_getElem hlt)
          omega
        by_cases hleft : td haystack[p - 1] ≤ p
        · refine .next (ih (p - td haystack[p - 1]) (by omega) (by omega) fun q hq h => ?_)
            (by omega) fun fuel => ?_
          · rcases lt_or_ge q p with hqp | hqp
            · have hle := hover q hqp h
              omega
            · exact hskip q hqp h
          · rw [hstep, ← Int.ofNat_sub hleft]
        · refine .next (k := p) (.here (a := .null) (fun fuel => ?_)
            (lastOf_null hskip fun q hq h => ?_)) (Nat.lt_succ_self p) hstep
          · rw [memnrstrExLoop, if_neg (by omega)]
          · have hle := hover q hq h
            omega

/-- `zend_memnrstr_ex` is right on every haystack when the counter counts. -/
theorem memnrstrEx_last (hne : needle ≠ []) (hok : IntCounts needle.length) (haystack : Bytes) :
    Returns (fun fuel => memnrstrEx fuel haystack needle) (LastOf needle haystack) := by
  have hpos := length_pos_iff.mpr hne
  rcases lt_or_ge haystack.length needle.length with hlong | hroom
  · refine (Returns.After.here (n := 0) (a := .null) (fun fuel => ?_)
      (no_place hne hlong)).called fun _ => rfl
    rw [memnrstrEx, memnrstrExLoop, ite_eq_left_iff]
    exact fun _ => if_neg (by omega)
  · obtain ⟨last, hlast⟩ : ∃ last, last + needle.length = haystack.length :=
      ⟨haystack.length - needle.length, by omega⟩
    refine (memnrstrExLoop_spec (memnstrExPre needle true) (memnstrExPre_true hne hok)
      (le_of_eq hlast) fun q hq => no_room hne hlast hq).called fun fuel => ?_
    rw [memnrstrEx, if_neg (by omega), show (haystack.length : ℤ) - needle.length = last by omega]

/-! ## With `memrchr` -/

/-- `memrchr` within the haystack. -/
theorem memrchr_spec (h : n ≤ haystack.length) (c : UInt8) :
    (memrchr haystack c n = .null ∧ ∀ q < n, haystack[q]? ≠ some c) ∨
    ∃ q : ℕ, memrchr haystack c n = .found q ∧ q < n ∧ haystack[q]? = some c ∧
      ∀ r, q < r → r < n → haystack[r]? ≠ some c := by
  induction n with
  | zero => exact Or.inl ⟨rfl, fun q hq => absurd hq (Nat.not_lt_zero q)⟩
  | succ n ih =>
    have hget : haystack[n]? = some haystack[n] := getElem?_eq_getElem h
    rw [memrchr, byteAt_natCast, hget]
    dsimp only
    by_cases hc : haystack[n] = c
    · rw [if_pos hc]
      exact Or.inr ⟨n, rfl, Nat.lt_succ_self n, by rw [hget, hc], fun r hr hrn => by omega⟩
    · have hne : haystack[n]? ≠ some c := by
        rw [hget]
        exact fun h => hc (Option.some.inj h)
      rw [if_neg hc]
      rcases ih (Nat.le_of_succ_le h) with ⟨hnull, hno⟩ | ⟨q, hfound, hq, hqc, hno⟩
      · refine Or.inl ⟨hnull, fun q hq => ?_⟩
        rcases Nat.lt_succ_iff_lt_or_eq.mp hq with hq | rfl
        · exact hno q hq
        · exact hne
      · refine Or.inr ⟨q, hfound, Nat.lt_succ_of_lt hq, hqc, fun r hqr hr => ?_⟩
        rcases Nat.lt_succ_iff_lt_or_eq.mp hr with hr | rfl
        · exact hno r hqr hr
        · exact hne

/-- **The loop with `memrchr`** finds the last place before `n`. -/
theorem memnrstrLoop_spec (hm : needle.length = m + 1) (hn : n + m ≤ haystack.length)
    (hbehind : ∀ q, n ≤ q → ¬ Occurs needle haystack q) :
    Returns.After n (memnrstrLoop haystack needle · ((n : ℤ) - 1)) (LastOf needle haystack) := by
  have hne : needle ≠ [] := ne_nil_of_length_eq_add_one hm
  induction n using Nat.strongRecOn with
  | ind n ih =>
    have hcount : ((n : ℤ) - 1 + 1).toNat = n := by omega
    rcases memrchr_spec (show n ≤ haystack.length by omega) (needle.getD 0 0) with
      ⟨hchr, hno⟩ | ⟨q, hchr, hq, hqc, hno⟩
    · refine .here (fun fuel => ?_) (lastOf_null hbehind fun q hq h => ?_)
      · rw [memnrstrLoop, hcount, hchr]
      · exact hno q hq (getElem?_of_occurs hne h)
    · obtain ⟨t, htest, hocc⟩ := isNeedle_eq hm
        (show q + needle.length ≤ haystack.length by omega)
      have hskip : ∀ r, q < r → ¬ Occurs needle haystack r := by
        intro r hr h
        rcases lt_or_ge r n with hrn | hrn
        · exact hno r hr hrn (getElem?_of_occurs hne h)
        · exact hbehind r hrn h
      cases t with
      | true =>
        refine .here (a := .found q) (fun fuel => ?_) ⟨q, rfl, hocc.mp rfl, hskip⟩
        rw [memnrstrLoop, hcount, hchr]
        dsimp only
        rw [htest]
      | false =>
        refine .next (ih q hq (by omega) fun r hr => ?_) hq fun fuel => ?_
        · rcases eq_or_lt_of_le hr with rfl | hr
          · exact fun h => Bool.false_ne_true (hocc.mpr h)
          · exact hskip r hr
        rw [memnrstrLoop, hcount, hchr]
        dsimp only
        rw [htest]
        exact if_pos (Int.natCast_nonneg q)

/-- `zend_memnrstr` is right on every haystack when the counter counts. -/
theorem memnrstr_last (hne : needle ≠ []) (hok : IntCounts needle.length) (haystack : Bytes) :
    Returns (fun fuel => memnrstr fuel haystack needle) (LastOf needle haystack) := by
  have hpos := length_pos_iff.mpr hne
  by_cases hone : needle.length = 1
  · refine ⟨0, memrchr haystack (needle.getD 0 0) haystack.length, fun fuel _ => if_pos hone, ?_⟩
    rcases memrchr_spec (Nat.le_refl haystack.length) (needle.getD 0 0) with
      ⟨hchr, hno⟩ | ⟨q, hchr, -, hqc, hno⟩
    · rw [hchr]
      intro q h
      have hle := h.add_length_le hne
      exact hno q (by omega) (getElem?_of_occurs hne h)
    · rw [hchr]
      refine ⟨q, rfl, occurs_of_getElem? hone hqc, fun r hr h => ?_⟩
      have hle := h.add_length_le hne
      exact hno r hr (by omega) (getElem?_of_occurs hne h)
  · rcases lt_or_ge haystack.length needle.length with hlong | hroom
    · refine ⟨0, .null, fun fuel _ => ?_, no_place hne hlong⟩
      show memnrstr fuel haystack needle = some .null
      rw [memnrstr, if_neg hone, if_pos hlong]
    · by_cases hshort : haystack.length < 1024 ∨ needle.length < 3
      · obtain ⟨last, hlast⟩ : ∃ last, last + needle.length = haystack.length :=
          ⟨haystack.length - needle.length, by omega⟩
        refine (memnrstrLoop_spec (n := last + 1) (m := needle.length - 1) (by omega) (by omega)
          fun q hq => no_room hne hlast hq).called fun fuel => ?_
        rw [memnrstr, if_neg hone, if_neg (not_lt.mpr hroom), if_pos hshort,
          show (haystack.length : ℤ) - needle.length = ((last + 1 : ℕ) : ℤ) - 1 by omega]
      · obtain ⟨fuel0, a, hsearch, ha⟩ := memnrstrEx_last hne hok haystack
        refine ⟨fuel0, a, fun fuel hfuel => ?_, ha⟩
        show memnrstr fuel haystack needle = some a
        rw [memnrstr, if_neg hone, if_neg (not_lt.mpr hroom), if_neg hshort]
        exact hsearch fuel hfuel

/-! ## A table that is not filled -/

/-- A byte that is not the last one of the needle. -/
def otherByte (needle : Bytes) : UInt8 := if needle.getLast? = some 0 then 1 else 0

/-- The needle, and a byte behind it with which it does not end. -/
def longer (needle : Bytes) : Bytes := needle ++ [otherByte needle]

theorem getLast?_ne_otherByte (needle : Bytes) : needle.getLast? ≠ some (otherByte needle) := by
  intro h
  unfold otherByte at h
  split_ifs at h with hzero
  · rw [hzero] at h
    exact absurd h (by decide)
  · exact hzero h

theorem length_longer (needle : Bytes) : (longer needle).length = needle.length + 1 := by
  rw [longer, length_append, length_singleton]

theorem occurs_longer (needle : Bytes) : Occurs needle (longer needle) 0 := by
  exact prefix_append needle [otherByte needle]

theorem not_occurs_longer (hne : needle ≠ []) : ¬ Occurs needle (longer needle) 1 := by
  intro h
  have hpos := length_pos_iff.mpr hne
  have hget := h.getElem? (show needle.length - 1 < needle.length by omega)
  rw [show 1 + (needle.length - 1) = needle.length by omega, longer,
    getElem?_append_right (Nat.le_refl _), Nat.sub_self, ← getLast?_eq_getElem?] at hget
  exact getLast?_ne_otherByte needle hget.symm

/-- The search steps over the needle in front of the last window, or stays at that window. -/
theorem memnrstrExLoop_longer (h : ¬ IntCounts needle.length) (hne : needle ≠ []) (fuel : ℕ) :
    memnrstrExLoop (memnstrExPre needle true) (longer needle) needle fuel 1 = none ∨
      memnrstrExLoop (memnstrExPre needle true) (longer needle) needle fuel 1 = some .null := by
  induction fuel with
  | zero => exact .inl rfl
  | succ fuel ih =>
    have hlen := length_longer needle
    obtain ⟨bytes, hwindow, hbytes⟩ := window_eq_iff
      (show 1 + needle.length ≤ (longer needle).length by omega)
    have hbyte := byteAt_natCast (longer needle) 0
    rw [getElem?_eq_getElem (by omega)] at hbyte
    rw [Int.natCast_one] at hwindow
    have hstep : memnrstrExLoop (memnstrExPre needle true) (longer needle) needle (fuel + 1) 1
        = memnrstrExLoop (memnstrExPre needle true) (longer needle) needle fuel
          (1 - ((needle.length + 1) % 2 ^ 32 : ℕ)) := by
      rw [memnrstrExLoop, if_pos (by decide), hwindow]
      dsimp only
      rw [if_neg fun heq => not_occurs_longer hne (hbytes.mp heq), if_neg (by decide),
        Int.sub_self, ← Int.natCast_zero, hbyte]
      dsimp only
      rw [memnstrExPre_true_of_not h]
    rw [hstep]
    by_cases hzero : (needle.length + 1) % 2 ^ 32 = 0
    · rw [hzero]
      exact ih
    · obtain ⟨-, hmod⟩ := not_or.mp h
      cases fuel with
      | zero => exact .inl rfl
      | succ fuel =>
        refine .inr ?_
        rw [memnrstrExLoop, if_neg (by omega)]

theorem not_returns_longer (h : ∀ fuel, search fuel = none ∨ search fuel = some .null) :
    ¬ Returns search (LastOf needle (longer needle)) := by
  rintro ⟨fuel0, a, hsearch, ha⟩
  have hsome := hsearch fuel0 le_rfl
  rcases h fuel0 with hnone | hnull
  · rw [hnone] at hsome
    cases hsome
  · rw [hnull, Option.some.injEq] at hsome
    rw [← hsome] at ha
    exact ha 0 (occurs_longer needle)

theorem memnrstrEx_longer (h : ¬ IntCounts needle.length) (hne : needle ≠ []) (fuel : ℕ) :
    memnrstrEx fuel (longer needle) needle = none ∨
      memnrstrEx fuel (longer needle) needle = some .null := by
  have hpos := length_pos_iff.mpr hne
  rw [memnrstrEx, length_longer, if_neg (by omega),
    show ((needle.length + 1 : ℕ) : ℤ) - needle.length = 1 by omega]
  exact memnrstrExLoop_longer h hne fuel

theorem memnrstr_longer (h : ¬ IntCounts needle.length) (hne : needle ≠ []) (fuel : ℕ) :
    memnrstr fuel (longer needle) needle = none ∨
      memnrstr fuel (longer needle) needle = some .null := by
  obtain ⟨hcounts, -⟩ := not_or.mp h
  rw [memnrstr, length_longer, if_neg (by omega), if_neg (by omega), if_neg (by omega)]
  exact memnrstrEx_longer h hne fuel

/-! ## Both searches -/

/-- **When the searches are right.**  For a needle that is not empty, the search from the front
finds the first place in every haystack exactly when no shift is a multiple of `2 ^ 32`, and the
search from the back the last place exactly when the `int` counter counts. -/
theorem searches_right (needle : Bytes) (hne : needle ≠ []) :
    ((∀ haystack, Returns (fun fuel => memnstr fuel haystack needle) (FirstOf needle haystack)) ↔
      ∀ b, shift needle b % 2 ^ 32 ≠ 0) ∧
    ((∀ haystack, Returns (fun fuel => memnstrEx fuel haystack needle) (FirstOf needle haystack)) ↔
      ∀ b, shift needle b % 2 ^ 32 ≠ 0) ∧
    ((∀ haystack, Returns (fun fuel => memnrstr fuel haystack needle) (LastOf needle haystack)) ↔
      IntCounts needle.length) ∧
    ((∀ haystack, Returns (fun fuel => memnrstrEx fuel haystack needle) (LastOf needle haystack)) ↔
      IntCounts needle.length) := by
  refine ⟨⟨fun h b hb => ?_, fun h haystack => memnstr_first hne haystack fun b _ => h b⟩,
    ⟨fun h b hb => ?_, fun h haystack => memnstrEx_first hne haystack fun b _ => h b⟩,
    ⟨fun h => ?_, memnrstr_last hne⟩, ⟨fun h => ?_, memnrstrEx_last hne⟩⟩
  · exact not_returns (memnstr_stays hb) (h _)
  · exact not_returns (memnstrEx_stays hb) (h _)
  · by_contra hno
    exact not_returns_longer (memnrstr_longer hno hne) (h _)
  · by_contra hno
    exact not_returns_longer (memnrstrEx_longer hno hne) (h _)

/-- A needle of three bytes is found in every haystack. -/
theorem searches_right_aba :
    (∀ haystack, Returns (fun fuel => memnstr fuel haystack [97, 98, 97])
      (FirstOf [97, 98, 97] haystack)) ∧
    (∀ haystack, Returns (fun fuel => memnstrEx fuel haystack [97, 98, 97])
      (FirstOf [97, 98, 97] haystack)) ∧
    (∀ haystack, Returns (fun fuel => memnrstr fuel haystack [97, 98, 97])
      (LastOf [97, 98, 97] haystack)) ∧
    ∀ haystack, Returns (fun fuel => memnrstrEx fuel haystack [97, 98, 97])
      (LastOf [97, 98, 97] haystack) := by
  obtain ⟨h1, h2, h3, h4⟩ := searches_right [97, 98, 97] (by decide)
  have hshift : ∀ b : UInt8, shift [97, 98, 97] b % 2 ^ 32 ≠ 0 := by
    intro b hb
    have hlen : 2 ^ 32 ≤ [(97 : UInt8), 98, 97].length + 1 := length_of_shift hb
    exact absurd hlen (by decide)
  exact ⟨h1.mpr hshift, h2.mpr hshift, h3.mpr (by decide), h4.mpr (by decide)⟩

/-- A needle of `2 ^ 31 + 1` bytes, in front of one more byte, is not found from the back. -/
theorem memnrstr_overlooks :
    ¬ Returns (fun fuel => memnrstr fuel (longer (replicate (2 ^ 31 + 1) 97))
        (replicate (2 ^ 31 + 1) 97))
      (LastOf (replicate (2 ^ 31 + 1) 97) (longer (replicate (2 ^ 31 + 1) 97))) := by
  have hlen : (replicate (2 ^ 31 + 1) (97 : UInt8)).length = 2 ^ 31 + 1 :=
    length_replicate
  have hcounts : ¬ IntCounts (replicate (2 ^ 31 + 1) (97 : UInt8)).length := by
    rw [hlen]
    decide
  exact not_returns_longer (memnrstr_longer hcounts (ne_nil_of_length_eq_add_one hlen))

end ZendMemnstr
