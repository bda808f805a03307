/-
# Comparison of strings

`zend_binary_strcmp` and `zend_binary_strcasecmp_l` compare two strings with their lengths,
`string_compare_function_ex`, `string_compare_function` and `string_case_compare_function` two
values, which become strings first.  With the result comes how many bytes were read of each string.

The memory is the one behind the conversions, and `tolower` is any function, as the locale has it.
-/
import Mathlib

namespace StringCompare

open List

/-- The memory, and the lengths of the strings in it. -/
structure Heap where
  mem : ℕ → UInt8
  /-- `ZSTR_LEN` of the string at an address. -/
  len : ℕ → ℕ

/-- `ZSTR_VAL` of the string at an address. -/
def zstrVal (str : ℕ) : ℕ := str + 24

/-- A value: a string at an address, or one of another type. -/
inductive Zval (V : Type) where
  | string (str : ℕ)
  | other (v : V)
  deriving DecidableEq

variable {V : Type} (H : Heap) (lower : UInt8 → ℤ) (toStr : V → ℕ)

/-- `zval_get_string`; `toStr` has the addresses of the strings that other values become. -/
def zvalGetString : Zval V → ℕ
  | .string str => str
  | .other v => toStr v

/-- The loop of the comparison: the difference of the first characters that differ, and how many
characters of each string were looked at. -/
def compareLoop (char : UInt8 → ℤ) (mem : ℕ → UInt8) : ℕ → ℕ → ℕ → Option ℤ × ℕ
  | 0, _, _ => (none, 0)
  | len + 1, s1, s2 =>
    let c1 := char (mem s1)
    let c2 := char (mem s2)
    if c1 ≠ c2 then (some (c1 - c2), 1)
    else
      let (diff, n) := compareLoop char mem len (s1 + 1) (s2 + 1)
      (diff, n + 1)

/-- `(int)(len1 - len2)` -/
def lenDiff (len1 len2 : ℕ) : ℤ := Int.bmod ((len1 : ℤ) - len2) (2 ^ 32)

/-- `zend_binary_strcmp`, and `zend_binary_strcasecmp_l`, with the characters that they compare. -/
def compareStrings (char : UInt8 → ℤ) (mem : ℕ → UInt8) (s1 len1 s2 len2 : ℕ) : ℤ × ℕ :=
  if s1 = s2 then (0, 0)
  else
    match compareLoop char mem (min len1 len2) s1 s2 with
    | (some diff, n) => (diff, n)
    | (none, n) => (lenDiff len1 len2, n)

/-- `memcmp` has unsigned characters. -/
def byteChar (b : UInt8) : ℤ := b.toNat

/-- `zend_binary_strcmp` -/
def zendBinaryStrcmp (mem : ℕ → UInt8) (s1 len1 s2 len2 : ℕ) : ℤ × ℕ :=
  compareStrings byteChar mem s1 len1 s2 len2

/-- `zend_binary_strcasecmp_l` -/
def zendBinaryStrcasecmpL (mem : ℕ → UInt8) (s1 len1 s2 len2 : ℕ) : ℤ × ℕ :=
  compareStrings lower mem s1 len1 s2 len2

/-- `string_compare_function_ex` -/
def stringCompareFunctionEx (op1 op2 : Zval V) (caseInsensitive : Bool) : ℤ × ℕ :=
  let str1 := zvalGetString toStr op1
  let str2 := zvalGetString toStr op2
  if caseInsensitive then
    zendBinaryStrcasecmpL lower H.mem (zstrVal str1) (H.len str1) (zstrVal str2) (H.len str1)
  else
    zendBinaryStrcmp H.mem (zstrVal str1) (H.len str1) (zstrVal str2) (H.len str2)

/-- `string_compare_function` -/
def stringCompareFunction : Zval V → Zval V → ℤ × ℕ
  | .string str1, .string str2 =>
    if str1 = str2 then (0, 0)
    else zendBinaryStrcmp H.mem (zstrVal str1) (H.len str1) (zstrVal str2) (H.len str2)
  | op1, op2 =>
    let str1 := zvalGetString toStr op1
    let str2 := zvalGetString toStr op2
    zendBinaryStrcmp H.mem (zstrVal str1) (H.len str1) (zstrVal str2) (H.len str2)

/-- `string_case_compare_function` -/
def stringCaseCompareFunction : Zval V → Zval V → ℤ × ℕ
  | .string str1, .string str2 =>
    if str1 = str2 then (0, 0)
    else
      zendBinaryStrcasecmpL lower H.mem (zstrVal str1) (H.len str1) (zstrVal str2) (H.len str2)
  | op1, op2 =>
    let str1 := zvalGetString toStr op1
    let str2 := zvalGetString toStr op2
    zendBinaryStrcasecmpL lower H.mem (zstrVal str1) (H.len str1) (zstrVal str2) (H.len str1)

/-! ## What a comparison is for -/

/-- The first characters of a memory. -/
def listOf (c : ℕ → ℤ) (n : ℕ) : List ℤ := (List.range n).map c

/-- The characters of a string. -/
def chars (char : UInt8 → ℤ) (str : ℕ) : List ℤ :=
  listOf (fun i => char (H.mem (zstrVal str + i))) (H.len str)

/-- The sign of a result is the order of two lists of characters. -/
def Orders (ret : ℤ) (x y : List ℤ) : Prop :=
  (ret < 0 ↔ x < y) ∧ (ret = 0 ↔ x = y) ∧ (0 < ret ↔ y < x)

/-- `Z_TYPE_P(op) == IS_STRING` -/
def Zval.isString : Zval V → Bool
  | .string _ => true
  | .other _ => false

/-- A comparison says how two strings are ordered, and reads no character behind their ends. -/
def Meets (r : ℤ × ℕ) (x y : List ℤ) : Prop :=
  Orders r.1 x y ∧ r.2 ≤ x.length ∧ r.2 ≤ y.length

/-- One string is the beginning of the other. -/
def Nested (x y : List ℤ) : Prop := x <+: y ∨ y <+: x

/-- The difference of the lengths keeps its sign as an `int`, if only the lengths differ. -/
def LengthsTell (x y : List ℤ) : Prop :=
  Nested x y → (lenDiff x.length y.length).sign = ((x.length : ℤ) - y.length).sign

/-! ## Orders -/

variable {ret ret' : ℤ} {x y z : List ℤ}

/-- Three implications are enough, since one of the cases holds. -/
theorem orders_of (hlt : ret < 0 → x < y) (heq : ret = 0 → x = y) (hgt : 0 < ret → y < x) :
    Orders ret x y := by
  refine ⟨⟨hlt, fun h => ?_⟩, ⟨heq, fun h => ?_⟩, ⟨hgt, fun h => ?_⟩⟩
  · rcases lt_trichotomy ret 0 with hr | hr | hr
    · exact hr
    · exact absurd (heq hr) h.ne
    · exact absurd (hgt hr) (lt_asymm h)
  · rcases lt_trichotomy ret 0 with hr | hr | hr
    · exact absurd h (hlt hr).ne
    · exact hr
    · exact absurd h (hgt hr).ne'
  · rcases lt_trichotomy ret 0 with hr | hr | hr
    · exact absurd (hlt hr) (lt_asymm h)
    · exact absurd (heq hr) h.ne'
    · exact hr

/-- The order fixes the sign. -/
theorem Orders.iff_sign (h : Orders ret x y) : Orders ret' x y ↔ ret'.sign = ret.sign := by
  obtain ⟨hlt, heq, hgt⟩ := h
  constructor
  · rintro ⟨hlt', heq', hgt'⟩
    rcases lt_trichotomy x y with hxy | hxy | hxy
    · rw [Int.sign_eq_neg_one_of_neg (hlt.mpr hxy), Int.sign_eq_neg_one_of_neg (hlt'.mpr hxy)]
    · rw [heq.mpr hxy, heq'.mpr hxy]
    · rw [Int.sign_eq_one_of_pos (hgt.mpr hxy), Int.sign_eq_one_of_pos (hgt'.mpr hxy)]
  · intro hs
    have hneg : ret' < 0 ↔ ret < 0 := by
      rw [← Int.sign_eq_neg_one_iff_neg, hs, Int.sign_eq_neg_one_iff_neg]
    have hzero : ret' = 0 ↔ ret = 0 := by
      rw [← Int.sign_eq_zero_iff_zero, hs, Int.sign_eq_zero_iff_zero]
    have hpos : 0 < ret' ↔ 0 < ret := by
      rw [← Int.sign_eq_one_iff_pos, hs, Int.sign_eq_one_iff_pos]
    exact ⟨hneg.trans hlt, hzero.trans heq, hpos.trans hgt⟩

/-! ## Lists of characters -/

variable {c1 c2 : ℕ → ℤ} {n1 n2 k : ℕ}

theorem length_listOf (c : ℕ → ℤ) (n : ℕ) : (listOf c n).length = n := by
  rw [listOf, length_map, length_range]

theorem getElem_listOf (c : ℕ → ℤ) {n i : ℕ} (hi : i < (listOf c n).length) :
    (listOf c n)[i] = c i :=
  (getElem_map c).trans (congrArg c (getElem_range _))

theorem listOf_lt (h1 : k < n1) (h2 : k < n2) (hk : ∀ i < k, c1 i = c2 i) (hlt : c1 k < c2 k) :
    listOf c1 n1 < listOf c2 n2 := by
  refine List.lt_iff_exists.mpr (.inr ⟨k, ?_, ?_, fun i hi => ?_, ?_⟩)
  · rwa [length_listOf]
  · rwa [length_listOf]
  · rw [getElem_listOf, getElem_listOf, hk i hi]
  · rw [getElem_listOf, getElem_listOf]
    exact hlt

theorem listOf_eq_take (hle : n1 ≤ n2) (h : ∀ i < n1, c1 i = c2 i) :
    listOf c1 n1 = (listOf c2 n2).take (listOf c1 n1).length := by
  rw [length_listOf, listOf, listOf, ← map_take, take_range, min_eq_left hle]
  apply map_congr_left
  intro i hi
  exact h i (mem_range.mp hi)

/-- The lists differ first at `k`. -/
theorem orders_of_diff (h1 : k < n1) (h2 : k < n2) (hk : ∀ i < k, c1 i = c2 i)
    (hne : c1 k ≠ c2 k) : Orders (c1 k - c2 k) (listOf c1 n1) (listOf c2 n2) := by
  apply orders_of
  · intro hlt
    exact listOf_lt h1 h2 hk (by omega)
  · intro heq
    exact absurd (Int.sub_eq_zero.mp heq) hne
  · intro hgt
    exact listOf_lt h2 h1 (fun i hi => (hk i hi).symm) (by omega)

theorem listOf_lt_of_agree (hlt : n1 < n2) (h : ∀ i < n1, c1 i = c2 i) :
    listOf c1 n1 < listOf c2 n2 := by
  refine List.lt_iff_exists.mpr (.inl ⟨listOf_eq_take hlt.le h, ?_⟩)
  rwa [length_listOf, length_listOf]

/-- The lists do not differ before the end of one of them. -/
theorem orders_of_agree (h : ∀ i < min n1 n2, c1 i = c2 i) :
    Orders ((n1 : ℤ) - n2) (listOf c1 n1) (listOf c2 n2) := by
  apply orders_of
  · intro hlt
    exact listOf_lt_of_agree (by omega) fun i hi => h i (by omega)
  · intro heq
    obtain rfl : n1 = n2 := by omega
    exact map_congr_left fun i hi => h i (by rw [min_self]; exact mem_range.mp hi)
  · intro hgt
    exact listOf_lt_of_agree (by omega) fun i hi => (h i (by omega)).symm

theorem agree_of_isPrefix (h : listOf c1 n1 <+: listOf c2 n2) : ∀ i < n1, c1 i = c2 i := by
  intro i hi
  have hi1 : i < (listOf c1 n1).length := by rwa [length_listOf]
  have hget := h.getElem hi1
  rwa [getElem_listOf, getElem_listOf] at hget

theorem nested_iff : Nested (listOf c1 n1) (listOf c2 n2) ↔ ∀ i < min n1 n2, c1 i = c2 i := by
  constructor
  · rintro (h | h) i hi
    · exact agree_of_isPrefix h i (lt_of_lt_of_le hi (min_le_left n1 n2))
    · exact (agree_of_isPrefix h i (lt_of_lt_of_le hi (min_le_right n1 n2))).symm
  · intro h
    rcases le_total n1 n2 with hle | hle
    · rw [min_eq_left hle] at h
      exact .inl (prefix_iff_eq_take.mpr (listOf_eq_take hle h))
    · rw [min_eq_right hle] at h
      exact .inr (prefix_iff_eq_take.mpr (listOf_eq_take hle fun i hi => (h i hi).symm))

/-- Two lists agree up to a bound, or there is a first difference. -/
theorem agree_or_diff (c1 c2 : ℕ → ℤ) (n : ℕ) :
    (∀ i < n, c1 i = c2 i) ∨ ∃ k < n, (∀ i < k, c1 i = c2 i) ∧ c1 k ≠ c2 k := by
  induction n with
  | zero => exact Or.inl fun i hi => absurd hi (Nat.not_lt_zero i)
  | succ n ih =>
    rcases ih with h | ⟨k, hk, hbefore, hne⟩
    · by_cases hn : c1 n = c2 n
      · refine Or.inl fun i hi => ?_
        rcases Nat.lt_succ_iff_lt_or_eq.mp hi with hi | rfl
        · exact h i hi
        · exact hn
      · exact Or.inr ⟨n, Nat.lt_succ_self n, h, hn⟩
    · exact Or.inr ⟨k, Nat.lt_succ_of_lt hk, hbefore, hne⟩

/-! ## The loop -/

variable {char : UInt8 → ℤ} {mem : ℕ → UInt8} {s1 s2 len : ℕ}

theorem compareLoop_agree (h : ∀ i < len, char (mem (s1 + i)) = char (mem (s2 + i))) :
    compareLoop char mem len s1 s2 = (none, len) := by
  induction len generalizing s1 s2 with
  | zero => rfl
  | succ len ih =>
    have h0 : char (mem s1) = char (mem s2) := h 0 (Nat.succ_pos len)
    rw [compareLoop]
    rw [if_neg (not_not_intro h0), ih]
    intro i hi
    rw [add_assoc, add_assoc, add_comm 1 i]
    exact h (i + 1) (Nat.succ_lt_succ hi)

theorem compareLoop_diff (hk : k < len) (h : ∀ i < k, char (mem (s1 + i)) = char (mem (s2 + i)))
    (hne : char (mem (s1 + k)) ≠ char (mem (s2 + k))) :
    compareLoop char mem len s1 s2 = (some (char (mem (s1 + k)) - char (mem (s2 + k))), k + 1) := by
  induction k generalizing len s1 s2 with
  | zero =>
    obtain ⟨len, rfl⟩ := Nat.exists_eq_add_one.2 hk.pos
    exact if_pos hne
  | succ k ih =>
    obtain ⟨len, rfl⟩ := Nat.exists_eq_add_one.2 hk.pos
    have h0 : char (mem s1) = char (mem s2) := h 0 (Nat.succ_pos k)
    have hshift : ∀ s i, s + 1 + i = s + (i + 1) := fun s i => by omega
    rw [compareLoop]
    rw [if_neg (not_not_intro h0), ih (Nat.lt_of_succ_lt_succ hk), hshift, hshift]
    · intro i hi
      rw [hshift, hshift]
      exact h (i + 1) (Nat.succ_lt_succ hi)
    · rw [hshift, hshift]
      exact hne

/-! ## The comparisons -/

theorem compareStrings_agree (hs : s1 ≠ s2)
    (h : ∀ i < min n1 n2, char (mem (s1 + i)) = char (mem (s2 + i))) :
    compareStrings char mem s1 n1 s2 n2 = (lenDiff n1 n2, min n1 n2) := by
  rw [compareStrings, if_neg hs, compareLoop_agree h]

theorem compareStrings_diff (hs : s1 ≠ s2) (hk : k < min n1 n2)
    (h : ∀ i < k, char (mem (s1 + i)) = char (mem (s2 + i)))
    (hne : char (mem (s1 + k)) ≠ char (mem (s2 + k))) :
    compareStrings char mem s1 n1 s2 n2 = (char (mem (s1 + k)) - char (mem (s2 + k)), k + 1) := by
  rw [compareStrings, if_neg hs, compareLoop_diff hk h hne]

/-- A string compared with itself. -/
theorem compareStrings_self (char : UInt8 → ℤ) (mem : ℕ → UInt8) (s n n' : ℕ) (x : List ℤ) :
    Meets (compareStrings char mem s n s n') x x := by
  rw [compareStrings, if_pos rfl]
  refine ⟨orders_of ?_ (fun _ => rfl) ?_, Nat.zero_le _, Nat.zero_le _⟩
  · exact fun h => absurd h (lt_irrefl 0)
  · exact fun h => absurd h (lt_irrefl 0)

theorem lenDiff_self (n : ℕ) : lenDiff n n = 0 := by
  rw [lenDiff, Int.sub_self]
  decide

/-- **With both lengths**, the comparison is right when the lengths tell. -/
theorem compareStrings_meets (hs : s1 = s2 → n1 = n2) : Meets (compareStrings char mem s1 n1 s2 n2)
        (listOf (fun i => char (mem (s1 + i))) n1) (listOf (fun i => char (mem (s2 + i))) n2) ↔
      LengthsTell (listOf (fun i => char (mem (s1 + i))) n1)
        (listOf (fun i => char (mem (s2 + i))) n2) := by
  by_cases heq : s1 = s2
  · obtain rfl := hs heq
    subst heq
    refine ⟨fun _ _ => ?_, fun _ => compareStrings_self char mem s1 n1 n1 _⟩
    rw [lenDiff_self, Int.sub_self]
  · rcases agree_or_diff (fun i => char (mem (s1 + i))) (fun i => char (mem (s2 + i)))
        (min n1 n2) with hagree | ⟨k, hk, hbefore, hne⟩
    · rw [compareStrings_agree heq hagree, Meets, LengthsTell, (orders_of_agree hagree).iff_sign,
        length_listOf, length_listOf]
      constructor
      · rintro ⟨hsign, -⟩ -
        exact hsign
      · intro htell
        exact ⟨htell (nested_iff.mpr hagree), min_le_left n1 n2, min_le_right n1 n2⟩
    · have h1 := lt_of_lt_of_le hk (min_le_left n1 n2)
      have h2 := lt_of_lt_of_le hk (min_le_right n1 n2)
      rw [compareStrings_diff heq hk hbefore hne, Meets, length_listOf, length_listOf]
      refine ⟨fun _ hnested => ?_, fun _ => ⟨orders_of_diff h1 h2 hbefore hne, h1, h2⟩⟩
      exact absurd (nested_iff.mp hnested k hk) hne

/-- **With the first length twice**, it is right when the lengths are equal or the strings differ
before the end of each. -/
theorem compareStrings_meets_twice (hs : s1 = s2 → n1 = n2) :
    Meets (compareStrings char mem s1 n1 s2 n1)
        (listOf (fun i => char (mem (s1 + i))) n1) (listOf (fun i => char (mem (s2 + i))) n2) ↔
      (n1 = n2 ∨ ¬ Nested (listOf (fun i => char (mem (s1 + i))) n1)
        (listOf (fun i => char (mem (s2 + i))) n2)) := by
  by_cases heq : s1 = s2
  · obtain rfl := hs heq
    subst heq
    exact ⟨fun _ => .inl rfl, fun _ => compareStrings_self char mem s1 n1 n1 _⟩
  · rw [nested_iff]
    rcases agree_or_diff (fun i => char (mem (s1 + i))) (fun i => char (mem (s2 + i))) n1
      with hagree | ⟨k, hk, hbefore, hne⟩
    · have hmin : ∀ i < min n1 n2, char (mem (s1 + i)) = char (mem (s2 + i)) :=
        fun i hi => hagree i (lt_of_lt_of_le hi (min_le_left n1 n2))
      rw [compareStrings_agree heq (by rwa [min_self]), min_self, lenDiff_self, Meets,
        (orders_of_agree hmin).iff_sign, length_listOf, length_listOf]
      constructor
      · rintro ⟨hsign, -, hle⟩
        rw [Int.sign_zero, eq_comm, Int.sign_eq_zero_iff_zero] at hsign
        exact .inl (by omega)
      · rintro (rfl | hnot)
        · rw [Int.sub_self]
          exact ⟨rfl, le_refl _, le_refl _⟩
        · exact absurd hmin hnot
    · rw [compareStrings_diff heq (by rwa [min_self]) hbefore hne, Meets, length_listOf,
        length_listOf]
      by_cases h2 : k < n2
      · refine ⟨fun _ => .inr fun h => hne (h k (lt_min hk h2)), fun _ => ?_⟩
        exact ⟨orders_of_diff hk h2 hbefore hne, hk, h2⟩
      · constructor
        · rintro ⟨-, -, hle⟩
          exact absurd hle h2
        · rintro (rfl | hnot)
          · exact absurd hk h2
          · exact absurd (fun i hi => hbefore i (by omega)) hnot

/-! ## The comparisons of values -/

theorem zstrVal_inj {str1 str2 : ℕ} (h : zstrVal str1 = zstrVal str2) : str1 = str2 :=
  add_right_cancel h

/-- A string is compared with another as with its length. -/
theorem compare_meets (H : Heap) (char : UInt8 → ℤ) (str1 str2 : ℕ) :
    Meets (compareStrings char H.mem (zstrVal str1) (H.len str1) (zstrVal str2) (H.len str2))
        (chars H char str1) (chars H char str2) ↔
      LengthsTell (chars H char str1) (chars H char str2) :=
  compareStrings_meets fun h => congrArg H.len (zstrVal_inj h)

theorem compare_meets_twice (H : Heap) (char : UInt8 → ℤ) (str1 str2 : ℕ) :
    Meets (compareStrings char H.mem (zstrVal str1) (H.len str1) (zstrVal str2) (H.len str1))
        (chars H char str1) (chars H char str2) ↔
      (H.len str1 = H.len str2 ∨ ¬ Nested (chars H char str1) (chars H char str2)) :=
  compareStrings_meets_twice fun h => congrArg H.len (zstrVal_inj h)

/-- The test for the same string does not change the result. -/
theorem compareStrings_same (char : UInt8 → ℤ) (str1 str2 : ℕ) :
    (if str1 = str2 then ((0, 0) : ℤ × ℕ)
      else compareStrings char H.mem (zstrVal str1) (H.len str1) (zstrVal str2) (H.len str2))
      = compareStrings char H.mem (zstrVal str1) (H.len str1) (zstrVal str2) (H.len str2) := by
  by_cases h : str1 = str2
  · rw [if_pos h, compareStrings, if_pos (congrArg zstrVal h)]
  · rw [if_neg h]

/-- **When the comparisons are right.**  A comparison of bytes is when the lengths tell, and so is
one without case of two strings by `string_case_compare_function`.  One without case that has the
first length twice is when the lengths are equal or the strings differ before the end of each. -/
theorem compareFunctions_meet (op1 op2 : Zval V) :
    let str1 := zvalGetString toStr op1
    let str2 := zvalGetString toStr op2
    (Meets (stringCompareFunctionEx H lower toStr op1 op2 false)
        (chars H byteChar str1) (chars H byteChar str2) ↔
      LengthsTell (chars H byteChar str1) (chars H byteChar str2)) ∧
    (Meets (stringCompareFunctionEx H lower toStr op1 op2 true)
        (chars H lower str1) (chars H lower str2) ↔
      (H.len str1 = H.len str2 ∨ ¬ Nested (chars H lower str1) (chars H lower str2))) ∧
    (Meets (stringCompareFunction H toStr op1 op2)
        (chars H byteChar str1) (chars H byteChar str2) ↔
      LengthsTell (chars H byteChar str1) (chars H byteChar str2)) ∧
    (Meets (stringCaseCompareFunction H lower toStr op1 op2)
        (chars H lower str1) (chars H lower str2) ↔
      if op1.isString ∧ op2.isString then LengthsTell (chars H lower str1) (chars H lower str2)
      else H.len str1 = H.len str2 ∨ ¬ Nested (chars H lower str1) (chars H lower str2)) := by
  intro str1 str2
  refine ⟨compare_meets H byteChar str1 str2, compare_meets_twice H lower str1 str2, ?_, ?_⟩
  · have hcompare : stringCompareFunction H toStr op1 op2
        = compareStrings byteChar H.mem (zstrVal str1) (H.len str1) (zstrVal str2)
        (H.len str2) := by
      cases op1 with
      | string str1 =>
        cases op2 with
        | string str2 => exact compareStrings_same H byteChar str1 str2
        | other v => rfl
      | other v => rfl
    rw [hcompare]
    exact compare_meets H byteChar str1 str2
  · cases op1 with
    | string s1 =>
      cases op2 with
      | string s2 =>
        have hcompare : stringCaseCompareFunction H lower toStr (.string s1) (.string s2)
            = compareStrings lower H.mem (zstrVal s1) (H.len s1) (zstrVal s2) (H.len s2) :=
          compareStrings_same H lower s1 s2
        rw [hcompare]
        exact compare_meets H lower s1 s2
      | other v =>
        exact compare_meets_twice H lower s1 (toStr v)
    | other v =>
      exact compare_meets_twice H lower (toStr v) str2

/-- The strings `1` and `12`. -/
def oneAndTwelve : Heap where
  mem a := if a = 124 then 49 else if a = 224 then 49 else if a = 225 then 50 else 0
  len str := if str = 100 then 1 else 2

/-- The integer `1` is equal to the string `12`, without case. -/
theorem caseCompare_one_twelve :
    ¬ Meets (stringCaseCompareFunction oneAndTwelve byteChar (fun _ => 100) (.other ())
        (.string 200)) (chars oneAndTwelve byteChar 100) (chars oneAndTwelve byteChar 200) := by
  rintro ⟨⟨-, hzero, -⟩, -⟩
  have heq : chars oneAndTwelve byteChar 100 = chars oneAndTwelve byteChar 200 :=
    hzero.mp (by decide)
  exact absurd heq (by decide)

end StringCompare
