/-
# Sequences of draws

How many sequences of `n` draws have a property, counted by the first draw; and how many numbers of
an interval leave a remainder.
-/
import Mathlib.Algebra.BigOperators.Fin
import Mathlib.Algebra.BigOperators.Intervals
import Mathlib.Data.BitVec
import Mathlib.Data.FinEnum
import Mathlib.Data.Int.CardIntervalMod
import Mathlib.SetTheory.Cardinal.Finite

open Finset

namespace Draws

variable {α : Type*}

/-! ## Counting by the first draw -/

/-- The number of sequences of `n` draws that have a property. -/
noncomputable def count (p : List α → Prop) (n : ℕ) : ℕ :=
  Nat.card {f : Fin n → α // p (List.ofFn f)}

theorem count_congr {p q : List α → Prop} {n : ℕ} (h : ∀ l, p l ↔ q l) : count p n = count q n :=
  Nat.card_congr (.subtypeEquivRight fun f => h (List.ofFn f))

theorem count_of_forall_not {p : List α → Prop} {n : ℕ} (h : ∀ l, l.length = n → ¬ p l) :
    count p n = 0 := by
  have hempty : IsEmpty {f : Fin n → α // p (List.ofFn f)} :=
    ⟨fun f => h _ List.length_ofFn f.2⟩
  exact Nat.card_of_isEmpty

theorem count_zero (p : List α → Prop) [Decidable (p [])] : count p 0 = if p [] then 1 else 0 := by
  split_ifs with h
  · have hone : Unique {f : Fin 0 → α // p (List.ofFn f)} :=
      ⟨⟨⟨Fin.elim0, h⟩⟩, fun f => Subtype.ext (Subsingleton.elim _ _)⟩
    exact Nat.card_unique
  · exact count_of_forall_not fun l hl => by rwa [List.eq_nil_of_length_eq_zero hl]

/-- The sequences by their first draw. -/
theorem count_succ [Fintype α] (p : List α → Prop) (n : ℕ) :
    count p (n + 1) = ∑ a, count (fun l => p (a :: l)) n := by
  have e : {f : Fin (n + 1) → α // p (List.ofFn f)} ≃
      Σ a, {f : Fin n → α // p (a :: List.ofFn f)} := {
    toFun := fun f => ⟨f.1 0, fun i => f.1 i.succ, by
      have hp := f.2
      rwa [List.ofFn_succ] at hp⟩
    invFun := fun g => ⟨Fin.cons g.1 g.2.1, by
      rw [List.ofFn_succ]
      exact g.2.2⟩
    left_inv := fun f => Subtype.ext (Fin.cons_self_tail f.1)
    right_inv := fun g => rfl }
  rw [count, Nat.card_congr e, Nat.card_sigma]
  rfl

/-- A sum over the words of `w` bits. -/
theorem sum_bitVec {w : ℕ} (f : ℕ → ℕ) : ∑ d : BitVec w, f d.toNat = ∑ d ∈ range (2 ^ w), f d := by
  rw [sum_range]
  exact Fintype.sum_equiv BitVec.equivFin.toEquiv _ _ fun d => rfl

/-! ## Remainders -/

/-- The numbers below `x` with a remainder. -/
theorem sum_range_mod {W v : ℕ} (hv : v < W) (x : ℕ) :
    (∑ r ∈ range x, if r % W = v then 1 else 0) = x / W + if v < x % W then 1 else 0 := by
  have hmod := Nat.count_modEq_card x (Nat.zero_lt_of_lt hv) v
  rw [Nat.mod_eq_of_lt hv, Nat.count_eq_card_filter_range, card_filter] at hmod
  rw [← hmod]
  simp only [Nat.ModEq, Nat.mod_eq_of_lt hv]

/-- The remainders are equally frequent below a multiple, and only there. -/
theorem sum_range_mod_eq_iff {W : ℕ} (hW : 0 < W) (x : ℕ) :
    (∀ u v, u < W → v < W → (∑ r ∈ range x, if r % W = u then 1 else 0) =
      ∑ r ∈ range x, if r % W = v then 1 else 0) ↔ W ∣ x := by
  constructor
  · intro h
    have hends := h 0 (W - 1) hW (by omega)
    rw [sum_range_mod hW, sum_range_mod (by omega)] at hends
    have hlt := Nat.mod_lt x hW
    split_ifs at hends <;> omega
  · intro h u v hu hv
    rw [sum_range_mod hu, sum_range_mod hv, Nat.mod_eq_zero_of_dvd h]
    simp

/-! ## Pairs of digits -/

/-- A sum over the numbers with two digits, of which the high one is in an interval. -/
theorem sum_Ico_mul (B : ℕ) (f : ℕ → ℕ) {k l : ℕ} (hkl : k ≤ l) :
    ∑ r ∈ Ico (k * B) (l * B), f r = ∑ h ∈ Ico k l, ∑ d ∈ range B, f (h * B + d) := by
  induction l, hkl using Nat.le_induction with
  | base => simp
  | succ l hkl ih =>
    have hlow : k * B ≤ l * B := Nat.mul_le_mul_right B hkl
    rw [add_mul, one_mul, ← sum_Ico_consecutive f hlow (Nat.le_add_right _ B), ih,
      sum_Ico_succ_top hkl, sum_Ico_eq_sum_range f (l * B), Nat.add_sub_cancel_left]

/-- A sum over the low digits. -/
theorem sum_Ico_mod (B : ℕ) (f : ℕ → ℕ) {k l : ℕ} (hkl : k ≤ l) :
    ∑ r ∈ Ico (k * B) (l * B), f (r % B) = (l - k) * ∑ d ∈ range B, f d := by
  have hdigit : ∀ h, ∑ d ∈ range B, f ((h * B + d) % B) = ∑ d ∈ range B, f d := by
    intro h
    refine sum_congr rfl fun d hd => ?_
    rw [mul_comm, Nat.mul_add_mod, Nat.mod_eq_of_lt (mem_range.mp hd)]
  rw [sum_Ico_mul B (fun r => f (r % B)) hkl, sum_congr rfl fun h _ => hdigit h,
    sum_const, Nat.card_Ico, smul_eq_mul]

end Draws
