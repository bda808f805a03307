/-
# Numeric keys

A string key of a symbol table that is the text of an integer stands for that integer.
`_zend_handle_numeric_str` looks at the first characters, `_zend_handle_numeric_str_ex` at the rest.
A key is its bytes, with the terminating null behind them; `char` may be signed or not, since the
bytes from 128 on are answered with no in either case.
-/
import Mathlib
import ReadingCode.Decimal
import ReadingCode.ZendLong

open ZendLong Decimal

namespace NumericKeys

variable {w : LongSize} {key s t : Bytes} {neg : Bool} {m : ℕ}

/-- `zend_ulong`, and `zend_long` with the same bits -/
abbrev Word (w : LongSize) : Type := BitVec w.bits

/-- The byte a pointer points to: one into the string, or at the null behind it. -/
def peek (tmp : Bytes) : UInt8 := tmp.headD 0

/-- What the function says of a key; `outside` is for a pointer that has left the string. -/
inductive Answer (w : LongSize) where
  | outside
  | no
  | yes (idx : Word w)
  deriving DecidableEq

/-- The end of the loop, when `tmp == end`. -/
def finish (neg : Bool) (idx : Word w) : Answer w :=
  if neg then
    if ((idx - 1).toNat : ℤ) > ZEND_LONG_MAX w then .no else .yes (0 - idx)
  else if (idx.toNat : ℤ) > ZEND_LONG_MAX w then .no
  else .yes idx

/-- The loop of `_zend_handle_numeric_str_ex`, from `++tmp` on. -/
def scan (neg : Bool) : Bytes → Word w → Answer w
  | [], idx => finish neg idx
  | b :: tmp, idx => if b ≤ 57 ∧ b ≥ 48 then scan neg tmp (addDigit idx b) else .no

/-- `_zend_handle_numeric_str_ex` -/
def handleNumericStrEx (w : LongSize) (key : Bytes) : Answer w :=
  let neg := peek key = 45
  let tmp := if neg then key.tail else key
  if (peek tmp = 48 ∧ key.length > 1) ∨ tmp.length > MAX_LENGTH_OF_LONG w - 1 ∨
      (w = .four ∧ tmp.length = MAX_LENGTH_OF_LONG w - 1 ∧ peek tmp > 50) then .no
  else
    match tmp with
    | [] => .outside
    | b :: tmp => scan neg tmp (BitVec.ofNat w.bits (b.toNat - 48))

/-- `_zend_handle_numeric_str` -/
def handleNumericStr (w : LongSize) (key : Bytes) : Answer w :=
  if peek key > 57 then .no
  else if peek key < 48 then
    if peek key ≠ 45 then .no
    else if peek key.tail > 57 ∨ peek key.tail < 48 then .no
    else handleNumericStrEx w key
  else handleNumericStrEx w key

/-- `zend_print_long_to_buf`, and `zend_long_to_str` -/
def longToStr (num : Word w) : Bytes :=
  if num.toInt < 0 then 45 :: print (~~~num + 1).toNat else print num.toNat

/-- `zend_symtable_update` and the functions beside it: what the table is asked for. -/
def symtableKey (w : LongSize) (key : Bytes) : Word w ⊕ Bytes :=
  match handleNumericStr w key with
  | .yes idx => .inl idx
  | _ => .inr key

/-! ## Lengths and values -/

/-- The digits pass the tests of the length. -/
def Short (w : LongSize) (ds : Bytes) : Prop :=
  ds.length ≤ MAX_LENGTH_OF_LONG w - 1 ∧
    (w = .four → ds.length = MAX_LENGTH_OF_LONG w - 1 → peek ds ≤ 50)

instance (ds : Bytes) : Decidable (Short w ds) := inferInstanceAs (Decidable (_ ∧ _))

variable {b : UInt8} {n : ℕ}

theorem le_two_of_le (hb : b ≤ 50) : b.toNat - 48 ≤ 2 := by
  have hle := UInt8.le_iff_toNat_le.mp hb
  have h50 : (50 : UInt8).toNat = 50 := rfl
  omega

/-- Digits that are not too many have a value that a word can hold. -/
theorem Short.value_lt {ds : Bytes} (hs : Short w ds) (hd : ∀ b ∈ ds, IsDigit b) :
    value ds < 2 ^ w.bits := by
  obtain ⟨hlen, hfour⟩ := hs
  have hlt := Decimal.value_lt hd
  cases w with
  | eight =>
    calc value ds < 10 ^ ds.length := hlt
      _ ≤ 10 ^ 19 := Nat.pow_le_pow_right (by decide) hlen
      _ < 2 ^ 64 := by decide
  | four =>
    by_cases hten : ds.length = 10
    · cases ds with
      | nil => exact absurd hten (by decide)
      | cons b ds =>
        have hb := le_two_of_le (hfour rfl hten)
        have hrest := Decimal.value_lt fun c hc => hd c (List.mem_cons_of_mem b hc)
        rw [List.length_cons, Nat.add_right_cancel_iff (n := 1) (k := 9)] at hten
        rw [hten] at hrest
        rw [value_cons, hten]
        calc (b.toNat - 48) * 10 ^ 9 + value ds
            ≤ 2 * 10 ^ 9 + value ds := Nat.add_le_add_right (Nat.mul_le_mul_right _ hb) _
          _ < 2 * 10 ^ 9 + 10 ^ 9 := Nat.add_lt_add_left hrest _
          _ < 2 ^ 32 := by decide
    · have hnine : ds.length ≤ 9 := by
        have : ds.length ≤ 10 := hlen
        omega
      calc value ds < 10 ^ ds.length := hlt
        _ ≤ 10 ^ 9 := Nat.pow_le_pow_right (by decide) hnine
        _ < 2 ^ 32 := by decide

/-- What is printed for a number within the bounds is not too long. -/
theorem short_of_value_le {ds : Bytes} (hc : Canonical ds)
    (hv : (value ds : ℤ) ≤ ZEND_LONG_MAX w + 1) : Short w ds := by
  cases ds with
  | nil => exact absurd rfl hc.ne_nil
  | cons b ds =>
    by_cases hds : ds = []
    · subst hds
      cases w with
      | four => exact ⟨show 1 ≤ 10 by decide, fun _ h => absurd h (show ¬ 1 = 10 by decide)⟩
      | eight => exact ⟨show 1 ≤ 19 by decide, fun h => by cases h⟩
    · have hpow := hc.pow_le hds
      have hlen : (b :: ds).length = ds.length + 1 := rfl
      cases w with
      | eight =>
        refine ⟨?_, fun h => by cases h⟩
        by_contra hlong
        have h19 : 19 ≤ ds.length := by
          have : ¬ (b :: ds).length ≤ 19 := hlong
          omega
        have := Nat.pow_le_pow_right (show 0 < 10 by decide) h19
        have : (value (b :: ds) : ℤ) ≤ 9223372036854775808 := hv
        omega
      | four =>
        have hv : (value (b :: ds) : ℤ) ≤ 2147483648 := hv
        constructor
        · by_contra hlong
          have h10 : 10 ≤ ds.length := by
            have : ¬ (b :: ds).length ≤ 10 := hlong
            omega
          have := Nat.pow_le_pow_right (show 0 < 10 by decide) h10
          omega
        · intro _ hten
          have h9 : ds.length = 9 := by
            have : (b :: ds).length = 10 := hten
            omega
          by_contra hgt
          have hlt := UInt8.lt_iff_toNat_lt.mp (UInt8.not_le.mp hgt)
          have h50 : (50 : UInt8).toNat = 50 := rfl
          have hpeek : peek (b :: ds) = b := rfl
          rw [hpeek] at hlt
          rw [value_cons, h9] at hv
          omega

/-! ## The loop -/

/-- The digits are read in words as in numbers. -/
theorem addDigit_ofNat (n : ℕ) (b : UInt8) :
    addDigit (BitVec.ofNat w.bits n) b = BitVec.ofNat w.bits (addDigit n b) := by
  unfold addDigit
  rw [BitVec.ofNat_add, BitVec.ofNat_mul]
  rfl

theorem scan_eq (neg : Bool) (ds : Bytes) (n : ℕ) :
    scan neg ds (BitVec.ofNat w.bits n) = if ∀ b ∈ ds, IsDigit b
      then finish neg (BitVec.ofNat w.bits (ds.foldl addDigit n)) else .no := by
  induction ds generalizing n with
  | nil =>
    rw [if_pos (fun b hb => absurd hb List.not_mem_nil)]
    rfl
  | cons b ds ih =>
    rw [scan, addDigit_ofNat, ih, List.foldl_cons]
    by_cases hb : b ≤ 57 ∧ b ≥ 48
    · rw [if_pos hb]
      by_cases hds : ∀ c ∈ ds, IsDigit c
      · rw [if_pos hds, if_pos (List.forall_mem_cons.mpr ⟨⟨hb.2, hb.1⟩, hds⟩)]
      · rw [if_neg hds, if_neg fun h => hds (List.forall_mem_cons.mp h).2]
    · rw [if_neg hb, if_neg]
      exact fun h => hb (And.symm (List.forall_mem_cons.mp h).1)

/-- The tests of the length and the loop, for digits with or without a sign before them. -/
theorem scan_digit (b : UInt8) (ds : Bytes) (hb : IsDigit b) :
    scan neg ds (BitVec.ofNat w.bits (b.toNat - 48)) = if ∀ c ∈ b :: ds, IsDigit c
      then finish neg (BitVec.ofNat w.bits (value (b :: ds))) else .no := by
  have hval : ds.foldl addDigit (b.toNat - 48) = value (b :: ds) := by
    rw [value, List.foldl_cons]
    rw [addDigit, zero_mul, zero_add, Nat.cast_id]
  rw [scan_eq, hval]
  by_cases hds : ∀ c ∈ ds, IsDigit c
  · rw [if_pos hds, if_pos (List.forall_mem_cons.mpr ⟨hb, hds⟩)]
  · rw [if_neg hds, if_neg fun h => hds (List.forall_mem_cons.mp h).2]

theorem toNat_ofNat (hn : n < 2 ^ w.bits) : (BitVec.ofNat w.bits n).toNat = n := by
  rw [BitVec.toNat_ofNat, Nat.mod_eq_of_lt hn]

theorem toNat_one (w : LongSize) : (1 : Word w).toNat = 1 := by
  cases w <;> rfl

theorem not_add_one (x : Word w) : ~~~x + 1 = -x := by
  cases w <;> exact (BitVec.neg_eq_not_add x).symm

theorem finish_false (hn : n < 2 ^ w.bits) :
    finish false (BitVec.ofNat w.bits n) = if (n : ℤ) > ZEND_LONG_MAX w then .no
      else .yes (BitVec.ofNat w.bits n) := by
  unfold finish
  rw [if_neg Bool.false_ne_true, toNat_ofNat hn]

theorem finish_true (hn : n < 2 ^ w.bits) (hpos : 0 < n) :
    finish true (BitVec.ofNat w.bits n) = if (n : ℤ) > ZEND_LONG_MAX w + 1 then .no
      else .yes (0 - BitVec.ofNat w.bits n) := by
  have hsub : (BitVec.ofNat w.bits n - 1).toNat = n - 1 := by
    rw [BitVec.toNat_sub_of_le, toNat_ofNat hn, toNat_one]
    rw [BitVec.le_def, toNat_ofNat hn, toNat_one]
    exact hpos
  unfold finish
  rw [if_pos rfl]
  by_cases hgt : (n : ℤ) > ZEND_LONG_MAX w + 1
  · rw [if_pos hgt, if_pos (by omega)]
  · rw [if_neg hgt, if_neg (by omega)]

/-! ## Numbers -/

/-- The number a negative word is the opposite of. -/
theorem toInt_ofNat_neg (hpos : 0 < n) (hn : (n : ℤ) ≤ ZEND_LONG_MAX w + 1) :
    (0 - BitVec.ofNat w.bits n).toInt < 0 ∧ (~~~(0 - BitVec.ofNat w.bits n) + 1).toNat = n := by
  have hmax := max_eq w
  have hbits : (2 : ℤ) ^ w.bits = ((2 ^ w.bits : ℕ) : ℤ) := by rfl
  have hlt : n < 2 ^ w.bits := by omega
  rw [zero_sub, not_add_one, neg_neg, toNat_ofNat hlt]
  rw [BitVec.toInt_neg_iff, BitVec.toNat_neg, toNat_ofNat hlt, Nat.mod_eq_of_lt (by omega)]
  omega

theorem ofNat_toNat (idx : Word w) : BitVec.ofNat w.bits idx.toNat = idx := by
  rw [BitVec.ofNat_toNat, BitVec.setWidth_eq]

/-- A word is the opposite of what is printed behind its sign. -/
theorem toNat_of_neg {idx : Word w} (h : idx.toInt < 0) :
    0 < (~~~idx + 1).toNat ∧ ((~~~idx + 1).toNat : ℤ) ≤ ZEND_LONG_MAX w + 1 ∧
      idx = 0 - BitVec.ofNat w.bits (~~~idx + 1).toNat := by
  have hmax := max_eq w
  have hbits : (2 : ℤ) ^ w.bits = ((2 ^ w.bits : ℕ) : ℤ) := by rfl
  rw [BitVec.toInt_neg_iff] at h
  rw [ofNat_toNat, zero_sub, not_add_one, neg_neg, BitVec.toNat_neg, Nat.mod_eq_of_lt (by omega)]
  exact ⟨by omega, by omega, rfl⟩

/-- The tests of the length, as one. -/
theorem short_iff (ds : Bytes) : Short w ds ↔ ¬ (ds.length > MAX_LENGTH_OF_LONG w - 1 ∨
      (w = .four ∧ ds.length = MAX_LENGTH_OF_LONG w - 1 ∧ peek ds > 50)) := by
  rw [Short, not_or, not_lt, not_and, not_and, UInt8.not_lt]

theorem isDigit_ne_sign (hb : IsDigit b) : b ≠ 45 := by
  rintro rfl
  exact absurd hb (by decide)

theorem finish_ne_outside (neg : Bool) (idx : Word w) : finish neg idx ≠ .outside := by
  unfold finish
  split_ifs <;> rintro ⟨⟩

theorem scan_ne_outside (neg : Bool) (ds : Bytes) (idx : Word w) : scan neg ds idx ≠ .outside := by
  induction ds generalizing idx with
  | nil => exact finish_ne_outside neg idx
  | cons b ds ih =>
    rw [scan]
    split_ifs
    · exact ih _
    · rintro ⟨⟩

/-- Behind the tests of `_zend_handle_numeric_str`, on a key without a sign. -/
theorem handleEx_digits (hb : IsDigit b) (ds : Bytes) :
    handleNumericStrEx w (b :: ds) = if (b = 48 ∧ ds ≠ []) ∨ ¬ Short w (b :: ds) then .no
      else scan false ds (BitVec.ofNat w.bits (b.toNat - 48)) := by
  have hneg : ¬ peek (b :: ds) = 45 := isDigit_ne_sign hb
  have hlen : (b :: ds).length > 1 ↔ ds ≠ [] := by
    rw [List.length_cons, gt_iff_lt, Nat.lt_add_left_iff_pos, List.length_pos_iff]
  unfold handleNumericStrEx
  dsimp only
  rw [if_neg hneg, decide_eq_false hneg]
  apply if_congr _ rfl rfl
  rw [short_iff, not_not, hlen]
  exact Iff.rfl

/-- Behind the tests of `_zend_handle_numeric_str`, on a key with a sign. -/
theorem handleEx_sign (b : UInt8) (ds : Bytes) :
    handleNumericStrEx w (45 :: b :: ds) = if b = 48 ∨ ¬ Short w (b :: ds) then .no
      else scan true ds (BitVec.ofNat w.bits (b.toNat - 48)) := by
  have hlen : (45 :: b :: ds).length > 1 := Nat.succ_lt_succ (Nat.succ_pos _)
  apply if_congr _ rfl rfl
  rw [short_iff, not_not, and_iff_left hlen]
  exact Iff.rfl

theorem not_digit_iff (b : UInt8) : (b > 57 ∨ b < 48) ↔ ¬ IsDigit b := by
  rw [not_and_or, UInt8.not_le, UInt8.not_le]
  exact or_comm

/-- A key without a sign goes to the loop when it begins with a digit. -/
theorem handle_of_ne_sign (hs : peek s ≠ 45) :
    handleNumericStr w s = if IsDigit (peek s) then handleNumericStrEx w s else .no := by
  unfold handleNumericStr
  by_cases hhigh : peek s > 57
  · rw [if_pos hhigh, if_neg ((not_digit_iff _).mp (.inl hhigh))]
  · by_cases hlow : peek s < 48
    · rw [if_neg hhigh, if_pos hlow, if_pos hs, if_neg ((not_digit_iff _).mp (.inr hlow))]
    · rw [if_neg hhigh, if_neg hlow, if_pos ⟨UInt8.not_lt.mp hlow, UInt8.not_lt.mp hhigh⟩]

/-- A key with a sign does when a digit is behind the sign. -/
theorem handle_of_sign (s : Bytes) : handleNumericStr w (45 :: s)
      = if IsDigit (peek s) then handleNumericStrEx w (45 :: s) else .no := by
  have hpeek : peek (45 :: s) = 45 := rfl
  unfold handleNumericStr
  rw [hpeek, if_neg (by decide), if_pos (by decide), if_neg (by decide), List.tail_cons]
  by_cases hb : IsDigit (peek s)
  · rw [if_pos hb, if_neg fun h => (not_digit_iff _).mp h hb]
  · rw [if_neg hb, if_pos ((not_digit_iff _).mpr hb)]

theorem exists_cons_of_digit (hs : IsDigit (peek s)) : ∃ b ds, s = b :: ds ∧ IsDigit b := by
  cases s with
  | nil => exact absurd hs (by decide)
  | cons b ds => exact ⟨b, ds, rfl, hs⟩

/-- **No pointer leaves the key.** -/
theorem handle_ne_outside (s : Bytes) : handleNumericStr w s ≠ .outside := by
  by_cases hs : peek s = 45
  · obtain ⟨t, rfl⟩ : ∃ t, s = 45 :: t := by
      cases s with
      | nil => exact absurd hs (by decide)
      | cons b t => exact ⟨t, congrArg (· :: t) hs⟩
    rw [handle_of_sign]
    split_ifs with ht
    · obtain ⟨b, ds, rfl, -⟩ := exists_cons_of_digit ht
      rw [handleEx_sign]
      split_ifs
      · rintro ⟨⟩
      · exact scan_ne_outside true ds _
    · rintro ⟨⟩
  · rw [handle_of_ne_sign hs]
    split_ifs with ht
    · obtain ⟨b, ds, rfl, hb⟩ := exists_cons_of_digit ht
      rw [handleEx_digits hb]
      split_ifs
      · rintro ⟨⟩
      · exact scan_ne_outside false ds _
    · rintro ⟨⟩

/-! ## Keys and numbers -/

/-- A key without a sign. -/
theorem handle_digits (hs : peek s ≠ 45) (idx : Word w) : handleNumericStr w s = .yes idx ↔
      Canonical s ∧ (value s : ℤ) ≤ ZEND_LONG_MAX w ∧ idx = BitVec.ofNat w.bits (value s) := by
  rw [handle_of_ne_sign hs]
  constructor
  · intro h
    by_cases hd : IsDigit (peek s)
    · obtain ⟨b, ds, rfl, hb⟩ := exists_cons_of_digit hd
      rw [if_pos hd, handleEx_digits hb] at h
      by_cases hno : (b = 48 ∧ ds ≠ []) ∨ ¬ Short w (b :: ds)
      · rw [if_pos hno] at h
        cases h
      · rw [if_neg hno, scan_digit b ds hb] at h
        rw [not_or, not_not, not_and, not_not] at hno
        by_cases hall : ∀ c ∈ b :: ds, IsDigit c
        · rw [if_pos hall, finish_false (hno.2.value_lt hall)] at h
          by_cases hgt : (value (b :: ds) : ℤ) > ZEND_LONG_MAX w
          · rw [if_pos hgt] at h
            cases h
          · rw [if_neg hgt, Answer.yes.injEq] at h
            refine ⟨⟨List.cons_ne_nil b ds, hall, fun h48 => ?_⟩, not_lt.mp hgt, h.symm⟩
            rw [hno.1 (Option.some.inj h48)]
            rfl
        · rw [if_neg hall] at h
          cases h
    · rw [if_neg hd] at h
      cases h
  · rintro ⟨hc, hle, rfl⟩
    cases s with
    | nil => exact absurd rfl hc.ne_nil
    | cons b ds =>
      have hb := hc.digits b List.mem_cons_self
      have hshort : Short w (b :: ds) := short_of_value_le hc (by omega)
      have hno : ¬ ((b = 48 ∧ ds ≠ []) ∨ ¬ Short w (b :: ds)) := by
        rintro (⟨rfl, hds⟩ | hlong)
        · exact hds (List.eq_nil_of_length_eq_zero (Nat.succ_injective (hc.head rfl)))
        · exact hlong hshort
      have hpeek : IsDigit (peek (b :: ds)) := hb
      rw [if_pos hpeek, handleEx_digits hb, if_neg hno, scan_digit b ds hb, if_pos hc.digits,
        finish_false (hshort.value_lt hc.digits), if_neg (by omega)]

/-- A key with a sign. -/
theorem handle_sign (s : Bytes) (idx : Word w) :
    handleNumericStr w (45 :: s) = .yes idx ↔ Canonical s ∧ 0 < value s ∧
      (value s : ℤ) ≤ ZEND_LONG_MAX w + 1 ∧ idx = 0 - BitVec.ofNat w.bits (value s) := by
  rw [handle_of_sign]
  constructor
  · intro h
    by_cases hd : IsDigit (peek s)
    · obtain ⟨b, ds, rfl, hb⟩ := exists_cons_of_digit hd
      rw [if_pos hd, handleEx_sign] at h
      by_cases hno : b = 48 ∨ ¬ Short w (b :: ds)
      · rw [if_pos hno] at h
        cases h
      · rw [if_neg hno, scan_digit b ds hb] at h
        rw [not_or, not_not] at hno
        by_cases hall : ∀ c ∈ b :: ds, IsDigit c
        · have hne : (b :: ds).head? ≠ some 48 := fun h48 => hno.1 (Option.some.inj h48)
          have hc : Canonical (b :: ds) :=
            ⟨List.cons_ne_nil b ds, hall, fun h48 => absurd h48 hne⟩
          have hpos := hc.value_pos hne
          rw [if_pos hall, finish_true (hno.2.value_lt hall) hpos] at h
          by_cases hgt : (value (b :: ds) : ℤ) > ZEND_LONG_MAX w + 1
          · rw [if_pos hgt] at h
            cases h
          · rw [if_neg hgt, Answer.yes.injEq] at h
            exact ⟨hc, hpos, not_lt.mp hgt, h.symm⟩
        · rw [if_neg hall] at h
          cases h
    · rw [if_neg hd] at h
      cases h
  · rintro ⟨hc, hpos, hle, rfl⟩
    cases s with
    | nil => exact absurd rfl hc.ne_nil
    | cons b ds =>
      have hb := hc.digits b List.mem_cons_self
      have hshort : Short w (b :: ds) := short_of_value_le hc hle
      have hno : ¬ (b = 48 ∨ ¬ Short w (b :: ds)) := by
        rintro (rfl | hlong)
        · have hds := List.eq_nil_of_length_eq_zero (Nat.succ_injective (hc.head rfl))
          rw [hds] at hpos
          exact absurd hpos (by decide)
        · exact hlong hshort
      have hpeek : IsDigit (peek (b :: ds)) := hb
      rw [if_pos hpeek, handleEx_sign, if_neg hno, scan_digit b ds hb, if_pos hc.digits,
        finish_true (hshort.value_lt hc.digits) hpos, if_neg (by omega)]

/-- **A key is numeric** exactly when it is the text of the number it is taken for. -/
theorem handle_iff (s : Bytes) (idx : Word w) :
    handleNumericStr w s = .yes idx ↔ s = longToStr idx := by
  by_cases hs : peek s = 45
  · obtain ⟨ds, rfl⟩ : ∃ ds, s = 45 :: ds := by
      cases s with
      | nil => exact absurd hs (by decide)
      | cons b ds => exact ⟨ds, congrArg (· :: ds) hs⟩
    rw [handle_sign, longToStr]
    constructor
    · rintro ⟨hc, hpos, hle, rfl⟩
      obtain ⟨hneg, hnat⟩ := toInt_ofNat_neg hpos hle
      rw [if_pos hneg, hnat, hc.print_value]
    · intro h
      by_cases hneg : idx.toInt < 0
      · rw [if_pos hneg, List.cons.injEq] at h
        obtain ⟨hpos, hle, hidx⟩ := toNat_of_neg hneg
        rw [h.2, value_print]
        exact ⟨canonical_print _, hpos, hle, hidx⟩
      · rw [if_neg hneg] at h
        have hdigit := isDigit_of_mem_print (h ▸ List.mem_cons_self)
        exact absurd hdigit (by decide)
  · rw [handle_digits hs, longToStr]
    constructor
    · rintro ⟨hc, hle, rfl⟩
      have hmax := max_eq w
      have hbits : (2 : ℤ) ^ w.bits = ((2 ^ w.bits : ℕ) : ℤ) := by rfl
      have hlt : value s < 2 ^ w.bits := by omega
      have hneg : ¬ (BitVec.ofNat w.bits (value s)).toInt < 0 := by
        rw [BitVec.toInt_neg_iff, toNat_ofNat hlt]
        omega
      rw [if_neg hneg, toNat_ofNat hlt, hc.print_value]
    · intro h
      by_cases hneg : idx.toInt < 0
      · rw [if_pos hneg] at h
        exact absurd (by rw [h]; rfl) hs
      · rw [if_neg hneg] at h
        have hmax := max_eq w
        have hbits : (2 : ℤ) ^ w.bits = ((2 ^ w.bits : ℕ) : ℤ) := by rfl
        rw [BitVec.toInt_neg_iff] at hneg
        rw [h, value_print, ofNat_toNat]
        exact ⟨canonical_print _, by omega, rfl⟩

theorem symtableKey_yes {idx : Word w} (h : handleNumericStr w s = .yes idx) :
    symtableKey w s = .inl idx := by
  rw [symtableKey, h]

theorem symtableKey_of_ne (h : ∀ idx, handleNumericStr w s ≠ .yes idx) :
    symtableKey w s = .inr s := by
  unfold symtableKey
  split
  · rename_i idx heq
    exact absurd heq (h idx)
  · rfl

/-- What a table is asked for says which key it was. -/
theorem symtableKey_injective (w : LongSize) : Function.Injective (symtableKey w) := by
  intro s t h
  by_cases hs : ∃ idx, handleNumericStr w s = .yes idx
  · obtain ⟨idx, hs⟩ := hs
    rw [symtableKey_yes hs] at h
    by_cases ht : ∃ idx, handleNumericStr w t = .yes idx
    · obtain ⟨idx', ht⟩ := ht
      rw [symtableKey_yes ht, Sum.inl.injEq] at h
      rw [(handle_iff s idx).mp hs, (handle_iff t idx').mp ht, h]
    · rw [symtableKey_of_ne fun idx hidx => ht ⟨idx, hidx⟩] at h
      cases h
  · rw [symtableKey_of_ne fun idx hidx => hs ⟨idx, hidx⟩] at h
    by_cases ht : ∃ idx, handleNumericStr w t = .yes idx
    · obtain ⟨idx', ht⟩ := ht
      rw [symtableKey_yes ht] at h
      cases h
    · rw [symtableKey_of_ne fun idx hidx => ht ⟨idx, hidx⟩] at h
      exact Sum.inr.inj h

/-- **Numeric keys are canonical.**  A key is taken for an integer exactly when it is the text of
that integer, no key is read past its end, and no two keys become one. -/
theorem numericKeys_canonical (w : LongSize) : (∀ s : Bytes, handleNumericStr w s ≠ .outside ∧
      ∀ idx, handleNumericStr w s = .yes idx ↔ s = longToStr idx) ∧
    Function.Injective (symtableKey w) :=
  ⟨fun s => ⟨handle_ne_outside s, handle_iff s⟩, symtableKey_injective w⟩

end NumericKeys
