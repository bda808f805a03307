/-
# The order of bit vectors

Of two vectors the one is less that has a zero where the other has a one in the highest bit in which
they differ.  A loop over the bits, from the highest one on, ends at the first bit where its body
gives a result.
-/
import Mathlib.Data.Nat.Bitwise

namespace BitOrder

open BitVec

variable {w : ℕ} {β : Type*}

/-! ## The highest bit that differs -/

theorem lt_iff_bit (x y : BitVec w) : x < y ↔ ∃ i, x.getLsbD i = false ∧ y.getLsbD i = true ∧
      ∀ j, i < j → x.getLsbD j = y.getLsbD j := by
  constructor
  · intro h
    have hne : x.toNat ^^^ y.toNat ≠ 0 := by
      rw [Ne, Nat.xor_eq_zero_iff]
      exact ne_of_lt (lt_def.mp h)
    obtain ⟨i, hi, habove⟩ := Nat.exists_most_significant_bit hne
    have hagree : ∀ j, i < j → x.getLsbD j = y.getLsbD j := by
      intro j hj
      have hj := habove j hj
      rw [Nat.testBit_xor, testBit_toNat, testBit_toNat] at hj
      simpa using hj
    rw [Nat.testBit_xor, testBit_toNat, testBit_toNat] at hi
    cases hx : x.getLsbD i with
    | false => exact ⟨i, hx, by simpa [hx] using hi, hagree⟩
    | true =>
      have hy : y.getLsbD i = false := by simpa [hx] using hi
      refine absurd (lt_def.mp h) (not_lt.mpr (le_of_lt ?_))
      refine Nat.lt_of_testBit i ?_ ?_ fun j hj => ?_
      · rw [testBit_toNat, hy]
      · rw [testBit_toNat, hx]
      · rw [testBit_toNat, testBit_toNat, hagree j hj]
  · rintro ⟨i, hx, hy, hagree⟩
    refine lt_def.mpr (Nat.lt_of_testBit i ?_ ?_ fun j hj => ?_)
    · rw [testBit_toNat, hx]
    · rw [testBit_toNat, hy]
    · rw [testBit_toNat, testBit_toNat, hagree j hj]

variable {x y : BitVec w}

theorem lt_of_le_of_lt {z : BitVec w} (h : x ≤ y) (h' : y < z) : x < z :=
  lt_def.mpr (Nat.lt_of_le_of_lt (le_def.mp h) (lt_def.mp h'))

/-- A vector is not less when it has every one of another that agrees with it above these. -/
theorem le_of_bits
    (h : ∀ i, x.getLsbD i = true → y.getLsbD i = false → ∃ j, i < j ∧ x.getLsbD j ≠ y.getLsbD j) :
    x ≤ y := by
  rw [← BitVec.not_lt, lt_iff_bit]
  rintro ⟨i, hy, hx, hagree⟩
  obtain ⟨j, hj, hne⟩ := h i hx hy
  exact hne (hagree j hj).symm

variable {i : ℕ}

/-- Where a vector that is not less has a zero for a one, there is a bit above where it has a one
for a zero, and agrees above that. -/
theorem exists_bit_of_le (h : x ≤ y) (hx : x.getLsbD i = true) (hy : y.getLsbD i = false) :
    ∃ j, i < j ∧ x.getLsbD j = false ∧ y.getLsbD j = true ∧
      ∀ k, j < k → x.getLsbD k = y.getLsbD k := by
  have hne : x ≠ y := by
    rintro rfl
    rw [hx] at hy
    cases hy
  have hlt : x < y := lt_def.mpr
    (lt_of_le_of_ne (le_def.mp h) fun e => hne (eq_of_toNat_eq e))
  obtain ⟨j, hxj, hyj, hagree⟩ := (lt_iff_bit x y).mp hlt
  refine ⟨j, ?_, hxj, hyj, hagree⟩
  rcases Nat.lt_trichotomy i j with hij | rfl | hji
  · exact hij
  · rw [hx] at hxj
    cases hxj
  · rw [hagree i hji, hy] at hx
    cases hx

/-! ## A bit that is set and the bits below it cleared -/

/-- `a` with the bit of `m`, and without the bits below it. -/
def raise (a m : BitVec w) : BitVec w := (a ||| m) &&& -m

theorem getLsbD_neg_twoPow {j : ℕ} (hi : i < w) :
    (-twoPow w i).getLsbD j = (decide (j < w) && decide (i ≤ j)) := by
  have hbelow : (∃ k < j, (twoPow w i).getLsbD k = true) ↔ i < j := by
    simp [getLsbD_twoPow, hi]
  rw [getLsbD_neg]
  simp only [hbelow]
  rcases Nat.lt_trichotomy i j with hij | rfl | hji
  · simp [hij, le_of_lt hij, ne_of_lt hij]
  · simp [hi]
  · simp [not_le.mpr hji, lt_asymm hji, ne_of_gt hji]

theorem getLsbD_raise (a : BitVec w) (hi : i < w) (j : ℕ) : (raise a (twoPow w i)).getLsbD j =
      (decide (i ≤ j) && (a.getLsbD j || decide (i = j))) := by
  rw [raise, getLsbD_and, getLsbD_or, getLsbD_twoPow, getLsbD_neg_twoPow hi,
    decide_eq_true hi, Bool.true_and]
  by_cases hj : j < w
  · rw [decide_eq_true hj, Bool.true_and, Bool.and_comm]
  · have hne : i ≠ j := by omega
    simp [getLsbD_of_ge a j (le_of_not_gt hj), hne]

/-- It is above `a`, where `a` has not this bit. -/
theorem lt_raise {a : BitVec w} (hi : i < w) (ha : a.getLsbD i = false) :
    a < raise a (twoPow w i) := by
  refine (lt_iff_bit _ _).mpr ⟨i, ha, ?_, fun j hj => ?_⟩
  · simp [getLsbD_raise a hi]
  · simp [getLsbD_raise a hi, le_of_lt hj, ne_of_lt hj]

/-- What is not below `a` and below it agrees with `a` in this bit and above. -/
theorem agree_of_lt_raise {a : BitVec w} (hi : i < w) (ha : a.getLsbD i = false) (hax : a ≤ x)
    (hx : x < raise a (twoPow w i)) {j : ℕ} (hj : i ≤ j) : x.getLsbD j = a.getLsbD j := by
  obtain ⟨k, hxk, hrk, habove⟩ := (lt_iff_bit x _).mp hx
  simp only [getLsbD_raise a hi, Bool.and_eq_true, Bool.or_eq_true, decide_eq_true_eq] at hrk habove
  have hagree : ∀ l, k < l → x.getLsbD l = a.getLsbD l := by
    intro l hl
    rw [habove l hl]
    simp [Nat.le_of_lt (Nat.lt_of_le_of_lt hrk.1 hl), Nat.ne_of_lt (Nat.lt_of_le_of_lt hrk.1 hl)]
  rcases Nat.lt_or_eq_of_le hrk.1 with hik | rfl
  · have hak : a.getLsbD k = true := by
      rcases hrk.2 with hak | he
      · exact hak
      · exact absurd he (Nat.ne_of_lt hik)
    exact absurd ((lt_iff_bit x a).mpr ⟨k, hxk, hak, hagree⟩) (BitVec.not_lt.mpr hax)
  · rcases Nat.lt_or_eq_of_le hj with hij | rfl
    · exact hagree j hij
    · rw [hxk, ha]

theorem not_le_not_iff (x y : BitVec w) : ~~~x ≤ ~~~y ↔ y ≤ x := by
  rw [le_def, le_def, toNat_not, toNat_not]
  omega

/-- `(b - m) | (m - 1)`, where `b` has the bit of `m`: it is cleared, and the bits below are set. -/
theorem sub_or_eq {b : BitVec w} (hb : b.getLsbD i = true) :
    (b - twoPow w i) ||| (twoPow w i - 1) = ~~~raise (~~~b) (twoPow w i) := by
  have hand : (b &&& ~~~twoPow w i) &&& twoPow w i = 0 := by
    rw [BitVec.and_assoc, BitVec.not_and_self]
    exact and_zero
  have hor : (b &&& ~~~twoPow w i) ||| twoPow w i = b := by
    apply eq_of_getLsbD_eq
    intro j hj
    by_cases hij : i = j
    · subst hij
      simp [hj, hb]
    · simp [hj, Ne.symm hij]
  have hsub : b - twoPow w i = b &&& ~~~twoPow w i := by
    have hadd := add_eq_or_of_and_eq_zero _ _ hand
    rw [hor] at hadd
    rw [BitVec.sub_eq_iff_eq_add, hadd]
  have hone : twoPow w i - 1 = ~~~(-twoPow w i) :=
    (not_neg (twoPow w i)).symm
  rw [hsub, hone, raise, BitVec.not_and, BitVec.not_or, BitVec.not_not]

/-! ## Loops over the bits -/

/-- `for (; m != 0; m >>= 1)`, where the body ends the loop with a result or goes on; `r` is the
result when it never does. -/
def bitLoop (body : BitVec w → Option β) (r : β) (m : BitVec w) : β :=
  if _h : m = 0 then r
  else
    match body m with
    | some r => r
    | none => bitLoop body r (m >>> 1)
termination_by m.toNat
decreasing_by
  have hpos : m.toNat ≠ 0 := fun e => _h (eq_of_toNat_eq e)
  rw [toNat_ushiftRight, Nat.shiftRight_eq_div_pow]
  omega

theorem twoPow_ne_zero (hi : i < w) : twoPow w i ≠ 0 := by
  intro h
  have hbit := congrArg (fun x => x.getLsbD i) h
  simp [hi] at hbit

theorem twoPow_succ_shift (hi : i + 1 < w) : twoPow w (i + 1) >>> 1 = twoPow w i := by
  apply eq_of_getLsbD_eq
  intro j hj
  simp [getLsbD_ushiftRight, getLsbD_twoPow, hi, Nat.lt_of_succ_lt hi, add_comm]

theorem twoPow_zero_shift : twoPow w 0 >>> 1 = 0 := by
  apply eq_of_getLsbD_eq
  intro j hj
  have hne : ¬ 0 = 1 + j := by omega
  simp [getLsbD_ushiftRight, getLsbD_twoPow, hne]

theorem bitLoop_zero (body : BitVec w → Option β) (r : β) : bitLoop body r 0 = r := by
  rw [bitLoop, dif_pos rfl]

/-- The loop ends at the first bit where the body gives a result. -/
theorem bitLoop_cases (body : BitVec w → Option β) (r : β) {n : ℕ} (hn : n < w) :
    (∃ i ≤ n, body (twoPow w i) = some (bitLoop body r (twoPow w n)) ∧
      ∀ j, i < j → j ≤ n → body (twoPow w j) = none) ∨
    (bitLoop body r (twoPow w n) = r ∧ ∀ j ≤ n, body (twoPow w j) = none) := by
  induction n with
  | zero =>
    rw [bitLoop, dif_neg (twoPow_ne_zero hn), twoPow_zero_shift, bitLoop_zero]
    cases hbody : body (twoPow w 0) with
    | some r' => exact .inl ⟨0, Nat.le_refl 0, hbody, fun j hj hle => by omega⟩
    | none =>
      refine .inr ⟨rfl, fun j hj => ?_⟩
      rw [Nat.le_zero.mp hj, hbody]
  | succ n ih =>
    rw [bitLoop, dif_neg (twoPow_ne_zero hn), twoPow_succ_shift hn]
    cases hbody : body (twoPow w (n + 1)) with
    | some r' => exact .inl ⟨n + 1, le_rfl, hbody, fun j hj hle => by omega⟩
    | none =>
      have hstep : ∀ j, (j ≤ n → body (twoPow w j) = none) → j ≤ n + 1 →
          body (twoPow w j) = none := by
        intro j hj hle
        rcases lt_or_eq_of_le hle with hlt | rfl
        · exact hj (Nat.le_of_lt_succ hlt)
        · exact hbody
      rcases ih (Nat.lt_of_succ_lt hn) with ⟨i, hi, hresult, hnone⟩ | ⟨hresult, hnone⟩
      · exact .inl ⟨i, Nat.le_succ_of_le hi, hresult, fun j hj => hstep j (hnone j hj)⟩
      · exact .inr ⟨hresult, fun j => hstep j (hnone j)⟩

/-- A loop whose results are those of another under a map. -/
theorem bitLoop_map {γ : Type*} (f : β → γ) {body : BitVec w → Option β}
    {body' : BitVec w → Option γ} (h : ∀ i < w, body' (twoPow w i) = (body (twoPow w i)).map f)
    (r : β) {n : ℕ} (hn : n < w) :
    bitLoop body' (f r) (twoPow w n) = f (bitLoop body r (twoPow w n)) := by
  induction n with
  | zero =>
    unfold bitLoop
    rw [dif_neg (twoPow_ne_zero hn), dif_neg (twoPow_ne_zero hn), h 0 hn, twoPow_zero_shift]
    cases body (twoPow w 0) with
    | none => simp only [Option.map_none, bitLoop_zero]
    | some r => rfl
  | succ n ih =>
    unfold bitLoop
    rw [dif_neg (twoPow_ne_zero hn), dif_neg (twoPow_ne_zero hn), h _ hn, twoPow_succ_shift hn]
    cases body (twoPow w (n + 1)) with
    | none => exact ih (Nat.lt_of_succ_lt hn)
    | some r => rfl

end BitOrder
