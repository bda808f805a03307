/-
# The integers of the engine

`zend_long` has four or eight bytes.  Its bounds, the digits of its minimum and what is stored when
a result does not fit are given for both sizes.
-/
import Mathlib.Algebra.Order.Ring.Abs
import Mathlib.Tactic.Linarith

namespace ZendLong

/-- `SIZEOF_ZEND_LONG` -/
inductive LongSize where
  | four
  | eight
  deriving DecidableEq, Repr

variable {w : LongSize} {m n : ℤ}

/-- The bits of a `zend_long`. -/
def LongSize.bits : LongSize → ℕ
  | .four => 32
  | .eight => 64

/-- `MAX_LENGTH_OF_LONG` -/
def MAX_LENGTH_OF_LONG : LongSize → ℕ
  | .four => 11
  | .eight => 20

/-- `ZEND_LONG_MAX` -/
def ZEND_LONG_MAX : LongSize → ℤ
  | .four => 2147483647
  | .eight => 9223372036854775807

/-- `ZEND_LONG_MIN` -/
def ZEND_LONG_MIN : LongSize → ℤ
  | .four => -2147483648
  | .eight => -9223372036854775808

/-- A number that a `zend_long` can have. -/
def Fits (w : LongSize) (n : ℤ) : Prop := ZEND_LONG_MIN w ≤ n ∧ n ≤ ZEND_LONG_MAX w

instance : Decidable (Fits w n) := inferInstanceAs (Decidable (_ ∧ _))

/-- `zend_long` -/
abbrev Long (w : LongSize) : Type := { n : ℤ // Fits w n }

theorem min_eq (w : LongSize) : ZEND_LONG_MIN w = -(ZEND_LONG_MAX w + 1) := by
  cases w <;> decide

theorem max_eq (w : LongSize) : 2 * (ZEND_LONG_MAX w + 1) = 2 ^ w.bits := by
  cases w <;> rfl

theorem max_pos (w : LongSize) : 0 < ZEND_LONG_MAX w := by
  cases w <;> decide

theorem fits_zero (w : LongSize) : Fits w 0 := by
  cases w <;> decide

theorem fits_one (w : LongSize) : Fits w 1 := by
  cases w <;> decide

/-- What is further from zero than the minimum does not fit. -/
theorem not_fits_of_lt_abs (h : ZEND_LONG_MAX w + 1 < |n|) : ¬ Fits w n := by
  rintro ⟨hmin, hmax⟩
  rw [min_eq] at hmin
  rcases abs_cases n with ⟨habs, -⟩ | ⟨habs, -⟩ <;> omega

/-- What does not fit is at least as far from zero as the minimum. -/
theorem le_abs_of_not_fits (h : ¬ Fits w n) : ZEND_LONG_MAX w + 1 ≤ |n| := by
  by_contra hlt
  apply h
  have hle := le_abs_self n
  have hge := neg_abs_le n
  rw [Fits, min_eq]
  constructor <;> omega

/-- What is one from zero fits. -/
theorem fits_of_abs_eq_one (h : |n| = 1) : Fits w n := by
  have hpos := max_pos w
  rw [Fits, min_eq]
  rcases abs_cases n with ⟨habs, -⟩ | ⟨habs, -⟩ <;> omega

/-- A number between two squares that follow each other is no square. -/
theorem mul_self_ne_of_lt {a b : ℤ} (ha : a * a < b) (hb : b < (a + 1) * (a + 1)) (h0 : 0 ≤ a) :
    n * n ≠ b := by
  rintro rfl
  have hlow : |a| < |n| := abs_lt_iff_mul_self_lt.mpr ha
  have hhigh : |n| < |a + 1| := abs_lt_iff_mul_self_lt.mpr hb
  rw [abs_of_nonneg h0] at hlow
  rw [abs_of_nonneg (show 0 ≤ a + 1 by omega)] at hhigh
  omega

/-- The distance of the minimum from zero is no square. -/
theorem mul_self_ne (w : LongSize) (n : ℤ) : n * n ≠ ZEND_LONG_MAX w + 1 := by
  cases w with
  | four => exact mul_self_ne_of_lt (a := 46340) (by decide) (by decide) (by decide)
  | eight => exact mul_self_ne_of_lt (a := 3037000499) (by decide) (by decide) (by decide)

/-- A square that does not fit is further from zero than the minimum. -/
theorem lt_mul_self_of_not_fits (h : ¬ Fits w (n * n)) : ZEND_LONG_MAX w + 1 < |n * n| := by
  refine lt_of_le_of_ne (le_abs_of_not_fits h) fun heq => ?_
  rw [abs_mul_self] at heq
  exact mul_self_ne w n heq.symm

end ZendLong
