/-
# Numbers in a base

Of the digits of a string those of the base are taken, and everything else is passed over.
`_php_math_basetozval` tests for an overflow before it multiplies.  `_php_math_basetolong`
multiplies first and compares with the number before, so a zero at the beginning ends it.
-/
import Mathlib.Data.Nat.Digits.Lemmas
import ReadingCode.ZendLong
import ReadingCode.Bytes

open ZendLong

namespace PhpMath

open List

/-- What the source does with doubles. -/
structure Doubles (D : Type) where
  /-- `(double)` -/
  ofLong : ℤ → D
  mul : D → D → D
  add : D → D → D

/-- A value, as far as it matters here. -/
inductive Zval (D : Type) where
  | string (s : Bytes)
  | long (n : ℤ)
  | double (d : D)

/-- What a `zend_long` has of a number. -/
def wrap (w : LongSize) (n : ℤ) : ℤ := Int.bmod n (2 ^ w.bits)

/-- The digit that a byte is. -/
def digitOf (c : UInt8) : Option ℕ :=
  if 48 ≤ c ∧ c ≤ 57 then some (c.toNat - 48)
  else if 65 ≤ c ∧ c ≤ 90 then some (c.toNat - 65 + 10)
  else if 97 ≤ c ∧ c ≤ 122 then some (c.toNat - 97 + 10)
  else none

/-- The loop of `_php_math_basetolong`, with the text that the warning shows. -/
def basetolongLoop (w : LongSize) (base : ℕ) : Bytes → ℤ → ℤ × Option Bytes
  | [], num => (num, none)
  | c :: s, num =>
    let digit := (digitOf c).getD base
    if digit ≥ base then basetolongLoop w base s num
    else
      let onum := num
      let num := wrap w (num * base + digit)
      if num > onum then basetolongLoop w base s num else (ZEND_LONG_MAX w, some s)

variable {D : Type} (doubles : Doubles D)

/-- `_php_math_basetolong` -/
def basetolong (w : LongSize) (base : ℕ) : Zval D → ℤ × Option Bytes
  | .string s => if base < 2 ∨ base > 36 then (0, none) else basetolongLoop w base s 0
  | _ => (0, none)

/-- A digit in `_php_math_basetozval`.  The mode is 0 for a long, and 1 for a double. -/
def addDigit (w : LongSize) (base : ℕ) : Zval D → ℕ → Zval D
  | .long num, c =>
    let cutoff := ZEND_LONG_MAX w / base
    let cutlim := ZEND_LONG_MAX w % base
    if num < cutoff ∨ (num = cutoff ∧ (c : ℤ) ≤ cutlim) then .long (wrap w (num * base + c))
    else .double (doubles.add (doubles.mul (doubles.ofLong num) (doubles.ofLong base))
      (doubles.ofLong c))
  | .double fnum, c =>
    .double (doubles.add (doubles.mul fnum (doubles.ofLong base)) (doubles.ofLong c))
  | .string s, _ => .string s

/-- The loop of `_php_math_basetozval`. -/
def basetozvalLoop (w : LongSize) (base : ℕ) : Bytes → Zval D → Zval D
  | [], num => num
  | c :: s, num =>
    match digitOf c with
    | none => basetozvalLoop w base s num
    | some c =>
      if c ≥ base then basetozvalLoop w base s num
      else basetozvalLoop w base s (addDigit doubles w base num c)

/-- `_php_math_basetozval`, where `none` is `FAILURE`. -/
def basetozval (w : LongSize) (base : ℕ) : Zval D → Option (Zval D)
  | .string s =>
    if base < 2 ∨ base > 36 then none else some (basetozvalLoop doubles w base s (.long 0))
  | _ => none

/-- `digits` -/
def digits : Bytes :=
  "0123456789abcdefghijklmnopqrstuvwxyz".toList.map fun c => UInt8.ofNat c.toNat

/-- The loop of `_php_math_longtobase`, with the room in front of `ptr`. -/
def longtobaseLoop (base : ℕ) : ℕ → ℕ → Bytes → Bytes
  | 0, _, ptr => ptr
  | room + 1, value, ptr =>
    let ptr := digits.getD (value % base) 0 :: ptr
    let value := value / base
    if 0 < room ∧ value ≠ 0 then longtobaseLoop base room value ptr else ptr

/-- `_php_math_longtobase` -/
def longtobase (w : LongSize) (base : ℕ) : Zval D → Bytes
  | .long n =>
    if base < 2 ∨ base > 36 then []
    else longtobaseLoop base w.bits (n % 2 ^ w.bits).toNat []
  | _ => []

/-! ## The value of digits -/

/-- The digits of a string that are digits of the base. -/
def validDigits (base : ℕ) (s : Bytes) : List ℕ := (s.filterMap digitOf).filter (· < base)

/-- The value of digits, the first of which has the most weight. -/
def value (base : ℕ) (ds : List ℕ) : ℕ := Nat.ofDigits base ds.reverse

variable {w : LongSize} {base d : ℕ} {ds p : List ℕ} {c : UInt8} {s : Bytes}

@[simp] theorem value_nil : value base [] = 0 := rfl

theorem value_concat (ds : List ℕ) (d : ℕ) : value base (ds ++ [d]) = value base ds * base + d := by
  rw [value, reverse_append, reverse_singleton, singleton_append,
    Nat.ofDigits_cons, value, mul_comm, add_comm]

theorem value_singleton (d : ℕ) : value base [d] = d := Nat.ofDigits_singleton

theorem value_le_append (hbase : 0 < base) (ds rest : List ℕ) :
    value base ds ≤ value base (ds ++ rest) := by
  induction rest using reverseRecOn with
  | nil => rw [append_nil]
  | append_singleton rest d ih =>
    rw [← append_assoc, value_concat]
    exact (ih.trans (Nat.le_mul_of_pos_right _ hbase)).trans (Nat.le_add_right _ _)

theorem validDigits_nil : validDigits base [] = [] := rfl

theorem validDigits_skip (h : (digitOf c).getD base ≥ base) (s : Bytes) :
    validDigits base (c :: s) = validDigits base s := by
  unfold validDigits
  rw [filterMap_cons]
  cases hc : digitOf c with
  | none => rfl
  | some d =>
    rw [hc] at h
    exact filter_cons_of_neg (by simpa using h)

theorem validDigits_digit (hc : digitOf c = some d) (hd : d < base) (s : Bytes) :
    validDigits base (c :: s) = d :: validDigits base s := by
  unfold validDigits
  rw [filterMap_cons, hc]
  exact filter_cons_of_pos (by simpa using hd)

theorem validDigits_lt (s : Bytes) : ∀ d ∈ validDigits base s, d < base := by
  intro d hd
  have h := (mem_filter.mp hd).2
  simpa using h

/-! ## What fits -/

variable {n : ℤ} {v : ℕ}

theorem wrap_of_fits (h : Fits w n) : wrap w n = n := by
  have hmax := max_eq w
  obtain ⟨hlow, hhigh⟩ := h
  rw [min_eq] at hlow
  have hcast : ((2 ^ w.bits : ℕ) : ℤ) = 2 ^ w.bits := by norm_cast
  refine Int.bmod_eq_of_le_mul_two ?_ ?_ <;> omega

/-- The number that is multiplied may be wrapped before. -/
theorem wrap_wrap_mul_add (n base d : ℤ) :
    wrap w (wrap w n * base + d) = wrap w (n * base + d) := by
  unfold wrap
  rw [← Int.bmod_add_bmod, Int.bmod_mul_bmod, Int.bmod_add_bmod]

/-- The test in front of the multiplication. -/
theorem below_cutoff_iff (num max base c : ℤ) (hbase : 0 < base) (hc0 : 0 ≤ c) (hc : c < base) :
    (num < max / base ∨ (num = max / base ∧ c ≤ max % base)) ↔ num * base + c ≤ max := by
  have hmax := Int.mul_ediv_add_emod max base
  have hmod := Int.emod_nonneg max hbase.ne'
  have hlt := Int.emod_lt_of_pos max hbase
  constructor
  · rintro (hnum | ⟨rfl, hle⟩)
    · have hmul : (num + 1) * base ≤ max / base * base :=
        Int.mul_le_mul_of_nonneg_right hnum hbase.le
      rw [add_mul] at hmul
      rw [Int.mul_comm base] at hmax
      omega
    · rw [Int.mul_comm base] at hmax
      omega
  · intro hle
    rcases lt_trichotomy num (max / base) with hnum | hnum | hnum
    · exact .inl hnum
    · subst hnum
      rw [Int.mul_comm base] at hmax
      exact .inr ⟨rfl, by omega⟩
    · have hmul : (max / base + 1) * base ≤ num * base :=
        Int.mul_le_mul_of_nonneg_right hnum hbase.le
      rw [add_mul] at hmul
      rw [Int.mul_comm base] at hmax
      omega

/-! ## `_php_math_basetozval` -/

/-- What `_php_math_basetozval` has of digits: their value, or a double if it does not fit. -/
def IsValue (w : LongSize) (v : ℕ) (r : Zval D) : Prop :=
  (v ≤ ZEND_LONG_MAX w → r = .long v) ∧ (ZEND_LONG_MAX w < v → ∃ f, r = .double f)

theorem isValue_addDigit {r : Zval D} (hbase : 2 ≤ base) (hd : d < base)
    (h : IsValue w v r) : IsValue w (v * base + d) (addDigit doubles w base r d) := by
  by_cases hv : v ≤ ZEND_LONG_MAX w
  · rw [h.1 hv]
    have hcutoff := below_cutoff_iff v (ZEND_LONG_MAX w) base d (by omega) (by omega)
      (by omega)
    by_cases hle : (v : ℤ) * base + d ≤ ZEND_LONG_MAX w
    · have hmin := min_eq w
      have hpos : 0 ≤ (v : ℤ) * base + d := by positivity
      have hwrap : wrap w ((v : ℤ) * base + d) = (v : ℤ) * base + d := wrap_of_fits ⟨by omega, hle⟩
      refine ⟨fun _ => (if_pos (hcutoff.mpr hle)).trans ?_, fun hlt => ?_⟩
      · rw [hwrap, Nat.cast_add, Nat.cast_mul]
      · exact absurd hle (by omega)
    · refine ⟨fun hle' => ?_, fun _ => ⟨_, if_neg fun hlt => hle (hcutoff.mp hlt)⟩⟩
      exact absurd hle' hle
  · obtain ⟨f, rfl⟩ := h.2 (by omega)
    have hmul : v ≤ v * base := Nat.le_mul_of_pos_right v (by omega)
    refine ⟨fun hle => absurd hle ?_, fun _ => ⟨_, rfl⟩⟩
    omega

theorem basetozvalLoop_eq (s : Bytes) (num : Zval D) : basetozvalLoop doubles w base s num =
      (validDigits base s).foldl (addDigit doubles w base) num := by
  induction s generalizing num with
  | nil => rfl
  | cons c s ih =>
    rw [basetozvalLoop]
    cases hc : digitOf c with
    | none =>
      rw [validDigits_skip (by rw [hc]; exact le_rfl)]
      exact ih num
    | some d =>
      by_cases hd : d ≥ base
      · rw [validDigits_skip (by rw [hc]; exact hd)]
        exact (if_pos hd).trans (ih num)
      · rw [validDigits_digit hc (lt_of_not_ge hd), foldl_cons, ← ih]
        exact if_neg hd

theorem isValue_foldl (hbase : 2 ≤ base) (hds : ∀ d ∈ ds, d < base) :
    IsValue w (value base ds) (ds.foldl (addDigit doubles w base) (.long 0)) := by
  induction ds using reverseRecOn with
  | nil => exact ⟨fun _ => rfl, fun hlt => absurd hlt (by simpa using (max_pos w).le)⟩
  | append_singleton ds d ih =>
    rw [forall_mem_append, forall_mem_singleton] at hds
    rw [foldl_append, value_concat]
    exact isValue_addDigit doubles hbase hds.2 (ih hds.1)

/-! ## `_php_math_basetolong` -/

/-- With every digit the number that is left of the value is above the one before. -/
def Rises (w : LongSize) (base : ℕ) (p ds : List ℕ) : Prop :=
  ∀ k < ds.length, wrap w (value base (p ++ ds.take k)) < wrap w (value base (p ++ ds.take (k + 1)))

theorem rises_nil : Rises w base p [] := nofun

theorem rises_cons : Rises w base p (d :: ds) ↔
      wrap w (value base p) < wrap w (value base (p ++ [d])) ∧ Rises w base (p ++ [d]) ds := by
  constructor
  · intro h
    refine ⟨by simpa using h 0 (Nat.succ_pos _), fun k hk => ?_⟩
    simpa using h (k + 1) (Nat.succ_lt_succ hk)
  · rintro ⟨hfirst, h⟩ k hk
    cases k with
    | zero => simpa using hfirst
    | succ k => simpa using h k (Nat.lt_of_succ_lt_succ hk)

open Classical in
/-- The number goes on while it rises. -/
theorem basetolongLoop_eq (s : Bytes) (p : List ℕ) :
    (basetolongLoop w base s (wrap w (value base p))).1 =
      if Rises w base p (validDigits base s) then wrap w (value base (p ++ validDigits base s))
      else ZEND_LONG_MAX w := by
  induction s generalizing p with
  | nil => rw [validDigits_nil, if_pos rises_nil, append_nil, basetolongLoop]
  | cons c s ih =>
    rw [basetolongLoop]
    dsimp only
    by_cases hskip : (digitOf c).getD base ≥ base
    · rw [if_pos hskip, validDigits_skip hskip, ih]
    obtain ⟨d, hc⟩ : ∃ d, digitOf c = some d := by
      cases hc : digitOf c with
      | none => exact absurd (by rw [hc]; exact le_rfl) hskip
      | some d => exact ⟨d, rfl⟩
    rw [hc, Option.getD_some] at hskip ⊢
    have hnext : wrap w (wrap w (value base p) * base + d) = wrap w (value base (p ++ [d])) := by
      rw [wrap_wrap_mul_add, value_concat, Nat.cast_add, Nat.cast_mul]
    rw [if_neg hskip, hnext, validDigits_digit hc (lt_of_not_ge hskip), rises_cons]
    by_cases hgt : wrap w (value base (p ++ [d])) > wrap w (value base p)
    · rw [if_pos hgt, ih, append_assoc, singleton_append]
      simp only [hgt, true_and]
    · rw [if_neg hgt, if_neg fun h => hgt h.1]

/-- Below the maximum the values of digits that do not begin with zero rise. -/
theorem rises_of_head (hbase : 2 ≤ base) (hhead : ds.head? ≠ some 0)
    (hle : value base ds ≤ ZEND_LONG_MAX w) : Rises w base [] ds := by
  intro k hk
  have hwrap : ∀ k, wrap w (value base (ds.take k)) = value base (ds.take k) := by
    intro k
    have hpart := value_le_append (by omega : 0 < base) (ds.take k) (ds.drop k)
    rw [take_append_drop] at hpart
    have hmin := min_eq w
    exact wrap_of_fits ⟨by omega, by omega⟩
  rw [nil_append, nil_append, hwrap, hwrap, take_succ_eq_append_getElem hk, value_concat]
  cases k with
  | zero =>
    match ds, hk with
    | d :: ds, hk =>
      have hd : d ≠ 0 := fun h => hhead (by rw [h]; rfl)
      simpa using Nat.pos_of_ne_zero hd
  | succ k =>
    have hpos : 0 < value base (ds.take (k + 1)) := by
      match ds, hk with
      | d :: ds, hk =>
        have hd : d ≠ 0 := fun h => hhead (by rw [h]; rfl)
        have hone := value_le_append (by omega : 0 < base) [d] (ds.take k)
        rw [take_succ_cons]
        rw [value_singleton, singleton_append] at hone
        omega
    have hmul : value base (ds.take (k + 1)) * 2 ≤ value base (ds.take (k + 1)) * base :=
      Nat.mul_le_mul_left _ hbase
    omega

theorem head_of_rises (h : Rises w base [] ds) : ds.head? ≠ some 0 := by
  intro hhead
  match ds, hhead with
  | 0 :: ds, _ =>
    have hfirst := (rises_cons.mp h).1
    exact lt_irrefl _ hfirst

/-! ## `_php_math_longtobase` -/

/-- The digits that a number is written with. -/
def printed (base v : ℕ) : List ℕ := if v = 0 then [0] else (Nat.digits base v).reverse

/-- `digits[d]` -/
abbrev digitChar (d : ℕ) : UInt8 := digits.getD d 0

theorem digitOf_digitChar (h : d < 36) : digitOf (digitChar d) = some d := by
  have hall : ∀ d < 36, digitOf (digitChar d) = some d := by decide
  exact hall d h

theorem printed_of_lt (h : v < base) : printed base v = [v] := by
  unfold printed
  split
  · subst v
    rfl
  · rw [Nat.digits_of_lt base v ‹_› h, reverse_singleton]

theorem printed_of_div (hbase : 2 ≤ base) (h : v / base ≠ 0) :
    printed base v = printed base (v / base) ++ [v % base] := by
  have hv : v ≠ 0 := by
    rintro rfl
    exact h (Nat.zero_div base)
  rw [printed, if_neg hv, printed, if_neg h,
    Nat.digits_def' hbase (Nat.pos_of_ne_zero hv), reverse_cons]

theorem longtobaseLoop_eq (hbase : 2 ≤ base) (room v : ℕ) (ptr : Bytes)
    (hv : v < base ^ (room + 1)) :
    longtobaseLoop base (room + 1) v ptr = (printed base v).map digitChar ++ ptr := by
  induction room generalizing v ptr with
  | zero =>
    rw [pow_one] at hv
    rw [longtobaseLoop, Nat.mod_eq_of_lt hv, printed_of_lt hv]
    rfl
  | succ room ih =>
    rw [longtobaseLoop]
    by_cases hdiv : v / base = 0
    · have hlt : v < base := (Nat.div_eq_zero_iff_lt (by omega)).mp hdiv
      rw [if_neg fun h => h.2 hdiv, Nat.mod_eq_of_lt hlt, printed_of_lt hlt]
      rfl
    · have hsmall : v / base < base ^ (room + 1) := by
        exact Nat.div_lt_of_lt_mul (by rwa [mul_comm])
      rw [if_pos ⟨Nat.succ_pos room, hdiv⟩, ih _ _ hsmall, printed_of_div hbase hdiv,
        map_append, append_assoc]
      rfl

theorem longtobase_eq (hbase : 2 ≤ base) (hbase' : base ≤ 36) (hn : 0 ≤ n)
    (hmax : n ≤ ZEND_LONG_MAX w) :
    longtobase w base (.long n : Zval D) = (printed base n.toNat).map digitChar := by
  have htwo := max_eq w
  have hmod : n % 2 ^ w.bits = n := Int.emod_eq_of_lt hn (by omega)
  obtain ⟨room, hroom⟩ : ∃ room, w.bits = room + 1 := by
    cases w
    · exact ⟨31, rfl⟩
    · exact ⟨63, rfl⟩
  have hlt : n.toNat < base ^ (room + 1) := by
    have hle : 2 ^ (room + 1) ≤ base ^ (room + 1) := Nat.pow_le_pow_left hbase _
    have hcast : ((2 ^ w.bits : ℕ) : ℤ) = 2 ^ w.bits := by norm_cast
    rw [hroom] at hcast htwo
    omega
  rw [longtobase, if_neg (by omega), hmod, hroom, longtobaseLoop_eq hbase room _ _ hlt, append_nil]

theorem validDigits_map (hbase : base ≤ 36) (hds : ∀ d ∈ ds, d < base) :
    validDigits base (ds.map digitChar) = ds := by
  induction ds with
  | nil => rfl
  | cons d ds ih =>
    rw [forall_mem_cons] at hds
    rw [map_cons, validDigits_digit (digitOf_digitChar (by omega)) hds.1, ih hds.2]

theorem printed_lt (hbase : 2 ≤ base) (v : ℕ) : ∀ d ∈ printed base v, d < base := by
  intro d hd
  unfold printed at hd
  split at hd
  · rw [mem_singleton] at hd
    omega
  · exact Nat.digits_lt_base hbase (mem_reverse.mp hd)

theorem value_printed (v : ℕ) : value base (printed base v) = v := by
  unfold printed
  split
  · subst v
    exact value_singleton 0
  · rw [value, reverse_reverse, Nat.ofDigits_digits]

theorem head_printed (hv : v ≠ 0) : (printed base v).head? ≠ some 0 := by
  have hne := Nat.digits_ne_nil_iff_ne_zero (b := base).mpr hv
  rw [printed, if_neg hv, head?_reverse, getLast?_eq_some_getLast hne]
  exact fun h => Nat.getLast_digit_ne_zero base hv (Option.some.inj h)

/-! ## The conversions together -/

/-- Both functions read the value of the digits, as far as it fits, and what
`_php_math_longtobase` writes is read back. -/
def ConvertsRight (w : LongSize) (base : ℕ) (s : Bytes) (n : ℤ) : Prop :=
  let v := value base (validDigits base s)
  let written := Zval.string (longtobase w base (.long n : Zval D))
  ((∃ l, basetozval doubles w base (.string s) = some (.long l)) ↔ v ≤ ZEND_LONG_MAX w) ∧
    (∀ l, basetozval doubles w base (.string s) = some (.long l) → l = v) ∧
    (basetolong w base (.string s : Zval D)).1 = min (v : ℤ) (ZEND_LONG_MAX w) ∧
    basetozval doubles w base written = some (.long n) ∧ (basetolong w base written).1 = n

/-- A value below the maximum has no zero in front.  With a value above it, the numbers that are
left of the values of the beginnings do not rise up to the end, or they end with the maximum. -/
def Convertible (w : LongSize) (base : ℕ) (s : Bytes) : Prop :=
  let ds := validDigits base s
  (value base ds < ZEND_LONG_MAX w → ds.head? ≠ some 0) ∧
    (ZEND_LONG_MAX w < value base ds →
      ¬ Rises w base [] ds ∨ wrap w (value base ds) = ZEND_LONG_MAX w)

theorem isValue_basetozval (hbase : 2 ≤ base) (s : Bytes) :
    IsValue w (value base (validDigits base s)) (basetozvalLoop doubles w base s (.long 0)) := by
  rw [basetozvalLoop_eq]
  exact isValue_foldl doubles hbase (validDigits_lt s)

theorem basetozval_right (hbase : 2 ≤ base) (hbase' : base ≤ 36) (s : Bytes) :
    ((∃ l, basetozval doubles w base (.string s) = some (.long l)) ↔
      value base (validDigits base s) ≤ ZEND_LONG_MAX w) ∧
    ∀ l, basetozval doubles w base (.string s) = some (.long l) →
      l = value base (validDigits base s) := by
  have h := isValue_basetozval (w := w) doubles hbase s
  rw [basetozval, if_neg (by omega)]
  by_cases hle : (value base (validDigits base s) : ℤ) ≤ ZEND_LONG_MAX w
  · rw [h.1 hle]
    refine ⟨⟨fun _ => hle, fun _ => ⟨_, rfl⟩⟩, ?_⟩
    rintro l ⟨⟩
    rfl
  · obtain ⟨f, hf⟩ := h.2 (by omega)
    rw [hf]
    refine ⟨⟨?_, fun h => absurd h hle⟩, ?_⟩
    · rintro ⟨l, ⟨⟩⟩
    · rintro l ⟨⟩

/-- `_php_math_basetolong` is right exactly when the condition holds. -/
theorem basetolong_right_iff (hbase : 2 ≤ base) (hbase' : base ≤ 36) (s : Bytes) :
    (basetolong w base (.string s : Zval D)).1 =
      min (value base (validDigits base s) : ℤ) (ZEND_LONG_MAX w) ↔ Convertible w base s := by
  have hloop : (basetolongLoop w base s (wrap w (value base []))).1 = _ := basetolongLoop_eq s []
  rw [nil_append, value_nil, Nat.cast_zero, wrap_of_fits (fits_zero w)] at hloop
  rw [basetolong, if_neg (by omega), hloop]
  have hmin := min_eq w
  by_cases hrises : Rises w base [] (validDigits base s)
  · rw [if_pos hrises]
    rcases le_or_gt (value base (validDigits base s) : ℤ) (ZEND_LONG_MAX w) with hle | hgt
    · rw [wrap_of_fits ⟨by omega, hle⟩, min_eq_left hle]
      exact iff_of_true rfl ⟨fun _ => head_of_rises hrises, fun hlt => absurd hle (not_le.mpr hlt)⟩
    · rw [min_eq_right hgt.le]
      exact ⟨fun h => ⟨fun hlt => absurd hgt hlt.asymm, fun _ => .inr h⟩,
        fun h => (h.2 hgt).resolve_left (not_not.mpr hrises)⟩
  · rw [if_neg hrises, eq_comm, min_eq_right_iff]
    constructor
    · intro hle
      exact ⟨fun hlt => absurd hle (not_le.mpr hlt), fun _ => .inl hrises⟩
    · intro h
      by_contra hlt
      rw [not_le] at hlt
      exact hrises (rises_of_head hbase (h.1 hlt) hlt.le)

/-- What is written for a number is read back by `_php_math_basetozval`, and by
`_php_math_basetolong` unless it is zero. -/
theorem longtobase_read (hbase : 2 ≤ base) (hbase' : base ≤ 36) (hn : 0 ≤ n)
    (hmax : n ≤ ZEND_LONG_MAX w) :
    basetozval doubles w base (.string (longtobase w base (.long n : Zval D))) = some (.long n) ∧
      ((basetolong w base (.string (longtobase w base (.long n : Zval D)) : Zval D)).1 = n ↔
        n ≠ 0) := by
  have hdigits :
      validDigits base (longtobase w base (.long n : Zval D)) = printed base n.toNat := by
    rw [longtobase_eq hbase hbase' hn hmax, validDigits_map hbase' (printed_lt hbase _)]
  have hvalue : (value base (validDigits base (longtobase w base (.long n : Zval D))) : ℤ) = n := by
    rw [hdigits, value_printed, Int.toNat_of_nonneg hn]
  constructor
  · have h := isValue_basetozval (w := w) doubles hbase (longtobase w base (.long n : Zval D))
    rw [basetozval, if_neg (by omega), h.1 (hvalue.trans_le hmax), hvalue]
  · have hright := basetolong_right_iff (w := w) (D := D) hbase hbase'
      (longtobase w base (.long n : Zval D))
    rw [hvalue, min_eq_left hmax] at hright
    rw [hright]
    unfold Convertible
    dsimp only
    rw [hvalue, hdigits]
    constructor
    · rintro ⟨hhead, -⟩ rfl
      exact hhead (max_pos w) rfl
    · intro hne
      exact ⟨fun _ => head_printed (by omega), fun hlt => absurd hmax (not_le.mpr hlt)⟩

/-- The conversions are right for the strings of the condition and the numbers other than zero. -/
theorem convertsRight_iff (hbase : 2 ≤ base) (hbase' : base ≤ 36) (s : Bytes) {n : ℤ}
    (hn : 0 ≤ n) (hmax : n ≤ ZEND_LONG_MAX w) :
    ConvertsRight doubles w base s n ↔ Convertible w base s ∧ n ≠ 0 := by
  obtain ⟨hlong, hval⟩ := basetozval_right (w := w) doubles hbase hbase' s
  obtain ⟨hback, hzero⟩ := longtobase_read (w := w) doubles hbase hbase' hn hmax
  rw [← basetolong_right_iff (D := D) hbase hbase' s, ← hzero]
  exact ⟨fun h => ⟨h.2.2.1, h.2.2.2.2⟩, fun h => ⟨hlong, hval, h.1, hback, h.2⟩⟩

/-- Doubles that nothing is known of. -/
def noDoubles : Doubles Unit := ⟨fun _ => (), fun _ _ => (), fun _ _ => ()⟩

/-- The string "7f" in base 16, and the number 255. -/
theorem convertsRight_hex : ConvertsRight noDoubles .eight 16 [55, 102] 255 :=
  (convertsRight_iff noDoubles (by decide) (by decide) [55, 102] (by decide) (by decide)).mpr
    ⟨⟨by decide, fun h => absurd h (by decide)⟩, by decide⟩

/-- The string "0" has the value zero, and `_php_math_basetolong` returns the maximum. -/
theorem zero_converts_wrong : ¬ ConvertsRight noDoubles .eight 10 [48] 1 := by
  rintro ⟨-, -, hlong, -⟩
  revert hlong
  decide

end PhpMath
