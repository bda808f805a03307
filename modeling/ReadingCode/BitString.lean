/-
# Bit strings of numbers

The binary expansion of a number to a given length, most significant bit first, and the
few facts about it that bit packing needs: shifting a number up to make room for another
is concatenation (`bits_mul_add`), equal expansions come from equal numbers
(`bits_inj`), and prefixes are right shifts (`bits_prefix_iff`).
-/
import Mathlib

/-! ## The expansion -/

/-- The `n` low bits of `v`, most significant first. -/
def bits : ℕ → ℕ → List Bool
  | 0, _ => []
  | n + 1, v => v.testBit n :: bits n v

@[simp] theorem bits_zero (v : ℕ) : bits 0 v = [] := rfl

@[simp] theorem length_bits (n v : ℕ) : (bits n v).length = n := by
  induction n with
  | zero => rfl
  | succ n ih => rw [bits, List.length_cons, ih]

variable {n v w : ℕ}

theorem bits_congr (h : ∀ i, i < n → v.testBit i = w.testBit i) : bits n v = bits n w := by
  induction n with
  | zero => rfl
  | succ n ih =>
    rw [bits, bits, h n (Nat.lt_succ_self n), ih fun i hi => h i (Nat.lt_succ_of_lt hi)]

@[simp] theorem bits_mod (n v : ℕ) : bits n (v % 2 ^ n) = bits n v :=
  bits_congr fun i hi => by rw [Nat.testBit_mod_two_pow, decide_eq_true hi, Bool.true_and]

/-- The high bits of a number and the low ones. -/
theorem bits_add (n m v : ℕ) : bits (n + m) v = bits n (v / 2 ^ m) ++ bits m v := by
  induction n with
  | zero => rw [zero_add, bits_zero, List.nil_append]
  | succ n ih =>
    rw [add_right_comm, bits, bits, ih, List.cons_append, Nat.testBit_div_two_pow]

/-- A number below another is appended to it. -/
theorem bits_mul_add {m : ℕ} (hw : w < 2 ^ m) (n v : ℕ) :
    bits (n + m) (v * 2 ^ m + w) = bits n v ++ bits m w := by
  have hpos : 0 < 2 ^ m := Nat.two_pow_pos m
  have hdiv : (v * 2 ^ m + w) / 2 ^ m = v := by
    rw [add_comm, Nat.add_mul_div_right w v hpos, Nat.div_eq_of_lt hw, zero_add]
  have hmod : (v * 2 ^ m + w) % 2 ^ m = w % 2 ^ m := Nat.mul_add_mod_self_right v (2 ^ m) w
  rw [bits_add, hdiv, ← bits_mod m (v * 2 ^ m + w), hmod, bits_mod]

theorem testBit_of_bits_eq (h : bits n v = bits n w) {i : ℕ} (hi : i < n) :
    v.testBit i = w.testBit i := by
  induction n with
  | zero => exact absurd hi (Nat.not_lt_zero i)
  | succ n ih =>
    obtain ⟨htop, hrest⟩ := List.cons.inj h
    rcases Nat.lt_succ_iff_lt_or_eq.mp hi with hlt | rfl
    · exact ih hrest hlt
    · exact htop

theorem bits_inj (hv : v < 2 ^ n) (hw : w < 2 ^ n) (h : bits n v = bits n w) : v = w := by
  apply Nat.eq_of_testBit_eq
  intro i
  by_cases hi : i < n
  · exact testBit_of_bits_eq h hi
  · have hpow : 2 ^ n ≤ 2 ^ i := Nat.pow_le_pow_right Nat.two_pos (le_of_not_gt hi)
    rw [Nat.testBit_lt_two_pow (lt_of_lt_of_le hv hpow),
      Nat.testBit_lt_two_pow (lt_of_lt_of_le hw hpow)]

/-- Prefixes of an expansion are right shifts of the number. -/
theorem bits_prefix_iff {m : ℕ} (hv : v < 2 ^ n) (hw : w < 2 ^ m) :
    bits n v <+: bits m w ↔ n ≤ m ∧ w / 2 ^ (m - n) = v := by
  constructor
  · intro h
    have hle : n ≤ m := by simpa using h.length_le
    obtain ⟨k, rfl⟩ := Nat.exists_eq_add_of_le hle
    rw [bits_add n k w] at h
    have hpre : bits n v <+: bits n (w / 2 ^ k) :=
      List.prefix_of_prefix_length_le h (List.prefix_append _ _) (by simp)
    have hquot : w / 2 ^ k < 2 ^ n := Nat.div_lt_of_lt_mul (by rwa [← pow_add, add_comm])
    refine ⟨hle, ?_⟩
    rw [Nat.add_sub_cancel_left]
    exact bits_inj hquot hv (hpre.eq_of_length (by simp)).symm
  · rintro ⟨hle, rfl⟩
    obtain ⟨k, rfl⟩ := Nat.exists_eq_add_of_le hle
    rw [Nat.add_sub_cancel_left, bits_add]
    exact List.prefix_append _ _

/-- `n` one-bits. -/
theorem bits_ones (n : ℕ) : bits n (2 ^ n - 1) = List.replicate n true := by
  have hall : ∀ m, m ≤ n → bits m (2 ^ n - 1) = List.replicate m true := by
    intro m
    induction m with
    | zero => intro _; rfl
    | succ m ih =>
      intro hm
      rw [bits, ih (Nat.le_of_succ_le hm), Nat.testBit_two_pow_sub_one,
        decide_eq_true (Nat.lt_of_succ_le hm)]
      rfl
  exact hall n le_rfl
