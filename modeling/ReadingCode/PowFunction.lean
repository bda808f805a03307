/-
# Powers of integers

`pow_function` squares the base and halves the exponent, or multiplies the result by the base, until
the exponent is zero.  A product that overflows ends the loop with a double.  Doubles are of any
type, with the functions that the source uses on them; operands that are no numbers are converted
before they come here.
-/
import ReadingCode.ZendLong

open ZendLong

namespace PowFunction

/-- What the source does with doubles. -/
structure Doubles (D : Type) where
  /-- `(double)` -/
  ofLong : ℤ → D
  mul : D → D → D
  pow : D → D → D

/-- A number. -/
inductive Zval (w : LongSize) (D : Type) where
  | long (n : Long w)
  | double (d : D)
  deriving DecidableEq

variable {w : LongSize} {D : Type} (doubles : Doubles D)

/-- `ZEND_SIGNED_MULTIPLY_LONG`, either the product or what goes to `dval`. -/
def multiplyLong (a b : Long w) : Long w ⊕ D :=
  if h : Fits w (a.1 * b.1) then .inl ⟨a.1 * b.1, h⟩
  else .inr (doubles.mul (doubles.ofLong a.1) (doubles.ofLong b.1))

/-- The loop of `pow_function`, with at most `fuel` checks of its condition. -/
def powLoop : ℕ → Long w → Long w → ℤ → Option (Zval w D)
  | 0, _, _, _ => none
  | fuel + 1, l1, l2, i =>
    if i ≥ 1 then
      if i % 2 ≠ 0 then
        match multiplyLong doubles l1 l2 with
        | .inl l1 => powLoop fuel l1 l2 (i - 1)
        | .inr dval =>
          some (.double (doubles.mul dval
            (doubles.pow (doubles.ofLong l2.1) (doubles.ofLong (i - 1)))))
      else
        match multiplyLong doubles l2 l2 with
        | .inl l2 => powLoop fuel l1 l2 (i / 2)
        | .inr dval =>
          some (.double (doubles.mul (doubles.ofLong l1.1)
            (doubles.pow dval (doubles.ofLong (i / 2)))))
    else some (.long l1)

/-- `pow_function` -/
def powFunction (fuel : ℕ) : Zval w D → Zval w D → Option (Zval w D)
  | .long op1, .long op2 =>
    if op2.1 ≥ 0 then
      if op2.1 = 0 then some (.long ⟨1, fits_one w⟩)
      else if op1.1 = 0 then some (.long ⟨0, fits_zero w⟩)
      else powLoop doubles fuel ⟨1, fits_one w⟩ op1 op2.1
    else some (.double (doubles.pow (doubles.ofLong op1.1) (doubles.ofLong op2.1)))
  | .long op1, .double op2 => some (.double (doubles.pow (doubles.ofLong op1.1) op2))
  | .double op1, .long op2 => some (.double (doubles.pow op1 (doubles.ofLong op2.1)))
  | .double op1, .double op2 => some (.double (doubles.pow op1 op2))

/-! ## The loop -/

/-- The result is the integer if it fits, and no integer otherwise. -/
def IsInteger (n : ℤ) (r : Zval w D) : Prop :=
  ((∃ l, r = .long l) ↔ Fits w n) ∧ ∀ l, r = .long l → l.1 = n

theorem isInteger_long (l : Long w) : IsInteger l.1 (.long l : Zval w D) := by
  constructor
  · exact ⟨fun _ => l.2, fun _ => ⟨l, rfl⟩⟩
  · rintro l' ⟨⟩
    rfl

theorem isInteger_double {n : ℤ} (h : ¬ Fits w n) (d : D) : IsInteger n (.double d : Zval w D) := by
  constructor
  · exact ⟨fun hl => by rcases hl with ⟨l, ⟨⟩⟩, fun hfits => absurd hfits h⟩
  · rintro l ⟨⟩

/-- What the factors of the loop are: none is zero, and the result is only multiplied by what is not
one or minus one. -/
def Growing (l1 l2 : ℤ) : Prop := l1 ≠ 0 ∧ l2 ≠ 0 ∧ (|l2| = 1 → |l1| = 1)

variable {l1 l2 : ℤ}

theorem Growing.mul_left (h : Growing l1 l2) : Growing (l1 * l2) l2 := by
  obtain ⟨h1, h2, hone⟩ := h
  refine ⟨mul_ne_zero h1 h2, h2, fun h => ?_⟩
  rw [abs_mul, hone h, h, mul_one]

theorem Growing.mul_self (h : Growing l1 l2) : Growing l1 (l2 * l2) := by
  obtain ⟨h1, h2, hone⟩ := h
  refine ⟨h1, mul_ne_zero h2 h2, fun h => hone ?_⟩
  have hpos := Int.one_le_abs h2
  rw [abs_mul] at h
  nlinarith

/-- A factor that is not zero does not bring a number nearer to zero. -/
theorem le_abs_mul {a b : ℤ} (hb : b ≠ 0) : |a| ≤ |a * b| := by
  rw [abs_mul]
  exact le_mul_of_one_le_right (abs_nonneg a) (Int.one_le_abs hb)

/-- When the product overflows, the power that is left to multiply with does not make it fit. -/
theorem Growing.not_fits_mul (h : Growing l1 l2) (ho : ¬ Fits w (l1 * l2)) (k : ℕ) :
    ¬ Fits w (l1 * l2 * l2 ^ k) := by
  obtain ⟨h1, h2, hone⟩ := h
  cases k with
  | zero => rwa [pow_zero, mul_one]
  | succ k =>
    have hpos := max_pos w
    have hle := le_abs_of_not_fits ho
    -- one and minus one as the base do not overflow
    have htwo : 2 ≤ |l2| := by
      by_contra hlt
      have hl2 : |l2| = 1 := by
        have := Int.one_le_abs h2
        omega
      refine ho (fits_of_abs_eq_one ?_)
      rw [abs_mul, hone hl2, hl2, mul_one]
    apply not_fits_of_lt_abs
    calc ZEND_LONG_MAX w + 1 < (ZEND_LONG_MAX w + 1) * 2 := by omega
      _ ≤ |l1 * l2| * |l2| := mul_le_mul hle htwo (by decide) (abs_nonneg _)
      _ = |l1 * l2 * l2| := (abs_mul _ _).symm
      _ ≤ |l1 * l2 * l2 * l2 ^ k| := le_abs_mul (pow_ne_zero k h2)
      _ = |l1 * l2 * l2 ^ (k + 1)| := by rw [pow_succ', ← mul_assoc]

/-- When the square overflows, every result that has a power of it as a factor does. -/
theorem Growing.not_fits_mul_self (h : Growing l1 l2) (ho : ¬ Fits w (l2 * l2)) (k : ℕ) :
    ¬ Fits w (l1 * (l2 * l2) ^ (k + 1)) := by
  obtain ⟨h1, h2, -⟩ := h
  have hsq := mul_ne_zero h2 h2
  apply not_fits_of_lt_abs
  calc ZEND_LONG_MAX w + 1 < |l2 * l2| := lt_mul_self_of_not_fits ho
    _ ≤ |l2 * l2 * (l1 * (l2 * l2) ^ k)| := le_abs_mul (mul_ne_zero h1 (pow_ne_zero k hsq))
    _ = |l1 * (l2 * l2) ^ (k + 1)| := by rw [pow_succ', mul_left_comm]

/-- What the loop does when the exponent is odd. -/
theorem powLoop_odd {k : ℕ} (hk : k % 2 = 0) (fuel : ℕ) (l1 l2 : Long w) :
    powLoop doubles (fuel + 1) l1 l2 ((k + 1 : ℕ) : ℤ) = match multiplyLong doubles l1 l2 with
      | .inl l1 => powLoop doubles fuel l1 l2 k
      | .inr dval => some (.double (doubles.mul dval
          (doubles.pow (doubles.ofLong l2.1) (doubles.ofLong k)))) := by
  rw [powLoop, if_pos (by omega), if_pos (by omega), Nat.cast_succ, add_sub_cancel_right]

/-- What the loop does when the exponent is even, and not zero. -/
theorem powLoop_even (fuel k : ℕ) (l1 l2 : Long w) :
    powLoop doubles (fuel + 1) l1 l2 ((2 * (k + 1) : ℕ) : ℤ) = match multiplyLong doubles l2 l2 with
        | .inl l2 => powLoop doubles fuel l1 l2 ((k + 1 : ℕ) : ℤ)
        | .inr dval => some (.double (doubles.mul (doubles.ofLong l1.1)
            (doubles.pow dval (doubles.ofLong ((k + 1 : ℕ) : ℤ))))) := by
  have hhalf : ((2 * (k + 1) : ℕ) : ℤ) / 2 = ((k + 1 : ℕ) : ℤ) := by omega
  rw [powLoop, if_pos (by omega), if_neg (by omega), hhalf]

/-- **The loop** returns, and its result is the product with the power if that fits. -/
theorem powLoop_spec (k : ℕ) (l1 l2 : Long w) (h : Growing l1.1 l2.1) :
    ∃ r, (∀ fuel, k < fuel → powLoop doubles fuel l1 l2 k = some r) ∧
      IsInteger (l1.1 * l2.1 ^ k) r := by
  induction k using Nat.strongRecOn generalizing l1 l2 with
  | ind k ih =>
    obtain hzero | ⟨j, hodd, rfl⟩ | ⟨j, rfl⟩ :
        k = 0 ∨ (∃ j, j % 2 = 0 ∧ k = j + 1) ∨ ∃ j, k = 2 * (j + 1) := by
      rcases Nat.mod_two_eq_zero_or_one k with heven | hodd
      · by_cases hzero : k = 0
        · exact .inl hzero
        · exact .inr (.inr ⟨k / 2 - 1, by omega⟩)
      · exact .inr (.inl ⟨k - 1, by omega, by omega⟩)
    · rw [hzero, pow_zero, mul_one]
      refine ⟨.long l1, fun fuel hfuel => ?_, isInteger_long l1⟩
      obtain ⟨fuel, rfl⟩ := Nat.exists_eq_succ_of_ne_zero (ne_of_gt hfuel)
      rw [powLoop, if_neg (by decide)]
    · rw [pow_succ', ← mul_assoc]
      by_cases hfits : Fits w (l1.1 * l2.1)
      · obtain ⟨r, hloop, hr⟩ := ih j (by omega) ⟨l1.1 * l2.1, hfits⟩ l2 h.mul_left
        refine ⟨r, fun fuel hfuel => ?_, hr⟩
        obtain ⟨fuel, rfl⟩ := Nat.exists_eq_add_one.2 hfuel.pos
        rw [powLoop_odd doubles hodd, multiplyLong, dif_pos hfits]
        exact hloop fuel (by omega)
      · let dval := doubles.mul (doubles.ofLong l1.1) (doubles.ofLong l2.1)
        refine ⟨.double (doubles.mul dval (doubles.pow (doubles.ofLong l2.1) (doubles.ofLong j))),
          fun fuel hfuel => ?_, isInteger_double (h.not_fits_mul hfits j) _⟩
        obtain ⟨fuel, rfl⟩ := Nat.exists_eq_add_one.2 hfuel.pos
        rw [powLoop_odd doubles hodd, multiplyLong, dif_neg hfits]
    · rw [pow_mul, pow_two]
      by_cases hfits : Fits w (l2.1 * l2.1)
      · obtain ⟨r, hloop, hr⟩ := ih (j + 1) (by omega) l1 ⟨l2.1 * l2.1, hfits⟩ h.mul_self
        refine ⟨r, fun fuel hfuel => ?_, hr⟩
        obtain ⟨fuel, rfl⟩ := Nat.exists_eq_add_one.2 hfuel.pos
        rw [powLoop_even, multiplyLong, dif_pos hfits]
        exact hloop fuel (by omega)
      · let dval := doubles.mul (doubles.ofLong l2.1) (doubles.ofLong l2.1)
        refine ⟨.double (doubles.mul (doubles.ofLong l1.1) (doubles.pow dval (doubles.ofLong ((j + 1
          : ℕ) : ℤ)))), fun fuel hfuel => ?_, isInteger_double (h.not_fits_mul_self hfits j) _⟩
        obtain ⟨fuel, rfl⟩ := Nat.exists_eq_add_one.2 hfuel.pos
        rw [powLoop_even, multiplyLong, dif_neg hfits]

/-! ## The power -/

/-- **A power of integers** with an exponent that is not negative: the function returns, an integer
exactly when the power fits, and then the power. -/
theorem powFunction_long (base exponent : Long w) (h : 0 ≤ exponent.1) :
    ∃ r fuel0, (∀ fuel, fuel0 ≤ fuel →
        powFunction doubles fuel (.long base) (.long exponent) = some r) ∧
      ((∃ l, r = .long l) ↔ Fits w (base.1 ^ exponent.1.toNat)) ∧
      ∀ l, r = .long l → l.1 = base.1 ^ exponent.1.toNat := by
  obtain ⟨k, hk⟩ := Int.eq_ofNat_of_zero_le h
  rw [hk, Int.toNat_natCast]
  by_cases hzero : k = 0
  · rw [hzero, pow_zero]
    refine ⟨_, 0, fun fuel _ => ?_, isInteger_long (⟨1, fits_one w⟩ : Long w)⟩
    rw [powFunction, if_pos h, if_pos (by omega)]
  · by_cases hbase : base.1 = 0
    · rw [hbase, zero_pow hzero]
      refine ⟨_, 0, fun fuel _ => ?_, isInteger_long (⟨0, fits_zero w⟩ : Long w)⟩
      rw [powFunction, if_pos h, if_neg (by omega), if_pos hbase]
    · obtain ⟨r, hloop, hr⟩ := powLoop_spec doubles k ⟨1, fits_one w⟩ base
        ⟨one_ne_zero, hbase, fun _ => abs_one⟩
      rw [one_mul] at hr
      refine ⟨r, k + 1, fun fuel hfuel => ?_, hr⟩
      rw [powFunction, if_pos h, if_neg (by omega), if_neg hbase, hk]
      exact hloop fuel hfuel

/-- The doubles of the machine. -/
def floats : Doubles Float where
  ofLong := Float.ofInt
  mul a b := a * b
  pow := Float.pow

/-- The smallest of the four byte integers as a power of minus two. -/
theorem powFunction_min : ∃ r fuel0, (∀ fuel, fuel0 ≤ fuel →
        powFunction floats fuel (.long (⟨-2, by decide⟩ : Long .four)) (.long ⟨31, by decide⟩)
          = some r) ∧
      ((∃ l, r = .long l) ↔ Fits .four ((-2) ^ 31)) ∧ ∀ l, r = .long l → l.1 = (-2) ^ 31 :=
  powFunction_long floats ⟨-2, by decide⟩ ⟨31, by decide⟩ (by decide)

end PowFunction
