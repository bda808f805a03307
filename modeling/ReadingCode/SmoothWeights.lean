/-
# Smooth weighted selection

A finite family of candidates with weights `w` keeps a credit for each of them.  In one
selection every candidate gains its weight, one whose credit is then greatest is picked,
and it pays the sum of all weights.  Which of several greatest ones is picked is up to a
`rule`.

From credits that sum to zero no credit ever falls to minus the sum of the weights; so
after as many selections as that sum, started with all credits zero, nobody has been
picked more often than its weight, and therefore everybody exactly that often.  Under a
rule that leaves no choice the same holds of any lot of so many selections on the way.
-/
import Mathlib.Algebra.BigOperators.Fin
import Mathlib.Algebra.Order.BigOperators.Group.Finset
import Mathlib.NumberTheory.Harmonic.Defs
import Mathlib.Tactic.Linarith
import Mathlib.Tactic.LinearCombination
import Mathlib.Tactic.Ring

namespace SmoothWeights

open List Finset

variable {ι : Type*} [Fintype ι] [DecidableEq ι]

/-! ## Selections -/

/-- The sum of all weights. -/
def total (w : ι → ℤ) : ℤ := ∑ j, w j

/-- The credits after a selection that picks `i`. -/
def pay (w d : ι → ℤ) (i : ι) : ι → ℤ :=
  fun j => d j + w j - if j = i then total w else 0

/-- Picking `i` is a selection: nobody has more credit after gaining its weight. -/
def IsPick (w d : ι → ℤ) (i : ι) : Prop := ∀ j, d j + w j ≤ d i + w i

/-- From credits `d` the selections in the list, made by the rule, lead to credits `d'`. -/
inductive Selects (w : ι → ℤ) (rule : (ι → ℤ) → ι → Prop) :
    (ι → ℤ) → List ι → (ι → ℤ) → Prop
  | nil (d : ι → ℤ) : Selects w rule d [] d
  | cons {d d' : ι → ℤ} {i : ι} {is : List ι} (pick : IsPick w d i) (hrule : rule d i)
      (rest : Selects w rule (pay w d i) is d') : Selects w rule d (i :: is) d'

variable {w d d' d'' : ι → ℤ} {rule : (ι → ℤ) → ι → Prop} {is js : List ι}

/-- Selections may be made one lot after the other. -/
theorem Selects.append (h : Selects w rule d is d') (h' : Selects w rule d' js d'') :
    Selects w rule d (is ++ js) d'' := by
  induction h with
  | nil => exact h'
  | cons pick hrule _ ih => exact .cons pick hrule (ih h')

/-- Two lots of selections made together may be told apart. -/
theorem Selects.of_append (h : Selects w rule d (is ++ js) d'') :
    ∃ d', Selects w rule d is d' ∧ Selects w rule d' js d'' := by
  induction is generalizing d with
  | nil => exact ⟨d, .nil d, h⟩
  | cons i is ih =>
    cases h with
    | cons pick hrule rest =>
      obtain ⟨d', h1, h2⟩ := ih rest
      exact ⟨d', .cons pick hrule h1, h2⟩

/-- The rule leaves no choice. -/
def Decides (w : ι → ℤ) (rule : (ι → ℤ) → ι → Prop) : Prop :=
  ∀ d i j, IsPick w d i → rule d i → IsPick w d j → rule d j → i = j

/-- Equally many selections from the same credits are the same ones. -/
theorem Selects.unique (hrule : Decides w rule) (h : Selects w rule d is d')
    (h' : Selects w rule d js d'') (hlen : is.length = js.length) : is = js ∧ d' = d'' := by
  induction h generalizing js d'' with
  | nil d =>
    cases js with
    | nil =>
      cases h'
      exact ⟨rfl, rfl⟩
    | cons j js => simp at hlen
  | @cons d d' i is pick hi _ ih =>
    cases h' with
    | nil => simp at hlen
    | @cons _ _ j js pick' hj rest' =>
      obtain rfl := hrule d i j pick hi pick' hj
      obtain ⟨rfl, rfl⟩ := ih rest' (by simpa using hlen)
      exact ⟨rfl, rfl⟩

/-! ## What selections preserve -/

/-- A selection takes as much credit as it gives. -/
theorem sum_pay (w d : ι → ℤ) (i : ι) : ∑ j, pay w d i j = ∑ j, d j := by
  simp only [pay, sum_sub_distrib, sum_add_distrib, sum_ite_eq', mem_univ, if_true, total]
  ring

/-- The credits after a number of selections, told from who was picked how often. -/
theorem Selects.credit (h : Selects w rule d is d') (j : ι) :
    d' j = d j + is.length * w j - is.count j * total w := by
  induction h with
  | nil => simp
  | @cons d d' i is _ _ _ ih =>
    rw [ih, pay, length_cons, count_cons]
    by_cases hij : j = i
    · subst hij
      rw [if_pos rfl, if_pos (beq_self_eq_true j)]
      push_cast
      ring
    · rw [if_neg hij, if_neg (by simpa using fun h => hij h.symm)]
      push_cast
      ring

variable {i : ι}

omit [DecidableEq ι] in
/-- Who is picked has gained positive credit, when the weights are positive and the credits
sum to zero. -/
theorem IsPick.pos (hw : ∀ j, 0 < w j) (hd : ∑ j, d j = 0) (h : IsPick w d i) : 0 < d i + w i := by
  by_contra hneg
  have hle : ∑ j, (d j + w j) ≤ ∑ _j : ι, (0 : ℤ) :=
    sum_le_sum fun j _ => (h j).trans (by omega)
  rw [sum_add_distrib, hd, sum_const_zero] at hle
  have hpos : 0 < ∑ j, w j := sum_pos (fun j _ => hw j) ⟨i, mem_univ i⟩
  omega

/-- The credits sum to zero, and none has fallen to minus the sum of the weights. -/
structure Balanced (w d : ι → ℤ) : Prop where
  sum : ∑ j, d j = 0
  lower : ∀ j, -total w < d j

/-- A selection keeps the credits balanced. -/
theorem IsPick.balanced (h : IsPick w d i) (hw : ∀ j, 0 < w j) (hd : Balanced w d) :
    Balanced w (pay w d i) := by
  refine ⟨by rw [sum_pay, hd.sum], fun j => ?_⟩
  have hpos := h.pos hw hd.sum
  have := hw j
  have := hd.lower j
  simp only [pay]
  split
  · rename_i hij
    subst hij
    omega
  · omega

/-- So do any number of them. -/
theorem Selects.balanced (h : Selects w rule d is d') (hw : ∀ j, 0 < w j)
    (hd : Balanced w d) : Balanced w d' := by
  induction h with
  | nil => exact hd
  | cons pick _ _ ih => exact ih (pick.balanced hw hd)

/-- The candidates of a set have no more credit on average than the sum of the weights times
a stretch of the harmonic series. -/
def Bounded (w d : ι → ℤ) : Prop :=
  ∀ s : Finset ι, (∑ j ∈ s, d j : ℤ) ≤ #s * total w * (harmonic (Fintype.card ι) - harmonic #s)

/-- A selection keeps that bound: who pays it pays more than the set has gained, and if it is
not of the set, it had at least as much as each of those who are. -/
theorem IsPick.bounded (h : IsPick w d i) (hw : ∀ j, 0 < w j) (hd : Bounded w d) :
    Bounded w (pay w d i) := by
  have hgain : ∀ s : Finset ι, ∑ j ∈ s, (d j + w j) ≤ ∑ j ∈ s, d j + total w := by
    intro s
    rw [sum_add_distrib]
    have := sum_le_sum_of_subset_of_nonneg (subset_univ s) fun j _ _ => (hw j).le
    exact Int.add_le_add_left this _
  intro s
  by_cases hi : i ∈ s
  · have hle : ∑ j ∈ s, pay w d i j ≤ ∑ j ∈ s, d j := by
      simp only [pay, sum_sub_distrib, sum_ite_eq', if_pos hi]
      linarith [hgain s]
    exact (Int.cast_le.2 hle).trans (hd s)
  · have hkept : ∀ j ∈ s, pay w d i j = d j + w j := fun j hj => by
      rw [pay, if_neg (ne_of_mem_of_not_mem hj hi), sub_zero]
    -- the set together with the candidate that is picked
    have hset := hd (insert i s)
    have hmax : ∑ j ∈ s, (d j + w j) ≤ #s * (d i + w i) := by
      rw [← nsmul_eq_mul]
      exact sum_le_card_nsmul s _ _ fun j _ => h j
    have hall := hgain (insert i s)
    rw [card_insert_of_notMem hi, harmonic_succ] at hset
    rw [sum_insert hi] at hall
    rw [sum_congr rfl hkept]
    set x : ℤ := ∑ j ∈ s, (d j + w j)
    have hx : (x : ℚ) ≤ #s * (d i + w i : ℤ) := by exact_mod_cast hmax
    have hy : ((d i + w i : ℤ) : ℚ) + x ≤ (∑ j ∈ insert i s, d j : ℤ) + total w := by
      exact_mod_cast hall
    have hk : (0 : ℚ) < #s + 1 := Nat.cast_add_one_pos #s
    have hinv : ((#s : ℚ) + 1) * ((#s + 1 : ℕ) : ℚ)⁻¹ = 1 := by
      push_cast
      exact mul_inv_cancel₀ hk.ne'
    have hbound : (#s + 1) * (x : ℚ) ≤ #s * ((∑ j ∈ insert i s, d j : ℤ) + total w) := by
      have := mul_le_mul_of_nonneg_left hy (Nat.cast_nonneg (α := ℚ) #s)
      linarith
    have hscaled := mul_le_mul_of_nonneg_left hset (Nat.cast_nonneg (α := ℚ) #s)
    refine le_of_mul_le_mul_left (hbound.trans ?_) hk
    calc (#s : ℚ) * ((∑ j ∈ insert i s, d j : ℤ) + total w)
        ≤ #s * (((#s + 1 : ℕ) : ℚ) * total w * (harmonic (Fintype.card ι)
            - (harmonic #s + ((#s + 1 : ℕ) : ℚ)⁻¹))) + #s * total w := by linarith
      _ = (#s + 1) * (#s * total w * (harmonic (Fintype.card ι) - harmonic #s)) := by
          push_cast at hinv ⊢
          linear_combination (-(#s : ℚ) * total w) * hinv

/-- The harmonic numbers grow. -/
theorem harmonic_mono : Monotone harmonic :=
  monotone_nat_of_le_succ fun n => by
    rw [harmonic_succ]
    exact le_add_of_nonneg_right (inv_nonneg.2 (Nat.cast_nonneg _))

omit [DecidableEq ι] in
/-- Credits of zero are within the bound. -/
theorem bounded_zero (hw : ∀ j, 0 < w j) : Bounded w 0 := by
  intro s
  have htotal : (0 : ℚ) ≤ total w := Int.cast_nonneg (sum_nonneg fun j _ => (hw j).le)
  have hmono := harmonic_mono (card_le_univ s)
  simp only [Pi.zero_apply, sum_const_zero, Int.cast_zero]
  exact mul_nonneg (mul_nonneg (Nat.cast_nonneg _) htotal) (sub_nonneg.2 hmono)

omit [DecidableEq ι] in
/-- No credit gains more than the sum of the weights times the harmonic number. -/
theorem Bounded.gained (hd : Bounded w d) (hw : ∀ j, 0 < w j) (j : ι) :
    ((d j + w j : ℤ) : ℚ) ≤ total w * harmonic (Fintype.card ι) := by
  have hone := hd {j}
  have hle : w j ≤ total w := single_le_sum (fun k _ => (hw k).le) (mem_univ j)
  have hle' : (w j : ℚ) ≤ total w := by exact_mod_cast hle
  rw [Finset.sum_singleton, card_singleton, harmonic_succ, harmonic_zero] at hone
  push_cast at hone ⊢
  linarith

/-! ## A full round -/

/-- The number of selections is the sum of the counts. -/
theorem sum_count (is : List ι) : ∑ j, (is.count j : ℤ) = is.length := by
  induction is with
  | nil => simp
  | cons i is ih =>
    simp only [count_cons, Nat.cast_add, sum_add_distrib, ih, length_cons]
    simp

/-- **A round is fair.**  As many selections as the weights sum to, started with all credits
zero, pick everybody as often as its weight says and bring all credits back to zero. -/
theorem Selects.round (h : Selects w rule 0 is d') (hw : ∀ j, 0 < w j)
    (hlen : (is.length : ℤ) = total w) : (∀ j, (is.count j : ℤ) = w j) ∧ d' = 0 := by
  by_cases hemp : IsEmpty ι
  · exact ⟨fun j => hemp.elim j, funext fun j => hemp.elim j⟩
  rw [not_isEmpty_iff] at hemp
  have htotal : 0 < total w := sum_pos (fun j _ => hw j) univ_nonempty
  have hcredit : ∀ j, d' j = total w * (w j - is.count j) := by
    intro j
    rw [h.credit j, hlen]
    simp only [Pi.zero_apply]
    ring
  have hle : ∀ j, (is.count j : ℤ) ≤ w j := by
    intro j
    have hlow := (h.balanced hw ⟨by simp, by simpa using htotal⟩).lower j
    rw [hcredit j] at hlow
    by_contra hlt
    have : total w * (w j - is.count j) ≤ total w * (-1) :=
      mul_le_mul_of_nonneg_left (by omega) htotal.le
    linarith
  have heq : ∀ j, (is.count j : ℤ) = w j := by
    have hsum : ∑ j, (is.count j : ℤ) = ∑ j, w j := by rw [sum_count, hlen, total]
    intro j
    exact (sum_eq_sum_iff_of_le fun j _ => hle j).1 hsum j (mem_univ j)
  refine ⟨heq, funext fun j => ?_⟩
  rw [hcredit j, heq j, sub_self, mul_zero]
  rfl

/-- After a round has been played any number of times the credits are back at zero. -/
theorem Selects.rounds (h : Selects w rule 0 is d') (hw : ∀ j, 0 < w j)
    (hdvd : total w ∣ is.length) : d' = 0 := by
  obtain ⟨n, hn⟩ := hdvd
  induction hk : is.length using Nat.strong_induction_on generalizing is n with
  | _ k ih =>
    by_cases hzero : is = []
    · subst hzero
      cases h
      rfl
    have hpos : 0 < is.length := length_pos_iff.2 hzero
    have htotal : 0 ≤ total w := sum_nonneg fun j _ => (hw j).le
    have hn1 : 1 ≤ n := by
      by_contra hlt
      have : total w * n ≤ 0 := mul_nonpos_of_nonneg_of_nonpos htotal (by omega)
      omega
    have htpos : 0 < total w := by
      rcases htotal.lt_or_eq with hlt | heq
      · exact hlt
      · rw [← heq] at hn
        omega
    have hle : total w ≤ is.length := by
      nlinarith
    rw [← take_append_drop (total w).toNat is] at h
    obtain ⟨d1, h1, h2⟩ := h.of_append
    have hround := (h1.round hw (by rw [length_take]; omega)).2
    subst hround
    refine ih (is.drop (total w).toNat).length (by rw [length_drop]; omega) h2 (n - 1) ?_ rfl
    rw [length_drop, Nat.cast_sub (by omega), Int.toNat_of_nonneg htotal, hn]
    ring

/-- **Every stretch of that length is fair**, wherever it begins, if the rule leaves no
choice: everybody is picked as often as its weight says, and the credits are then what
they were. -/
theorem Selects.window (hrule : Decides w rule) (h : Selects w rule 0 is d')
    (h' : Selects w rule d' js d'') (hw : ∀ j, 0 < w j) (hlen : (js.length : ℤ) = total w) :
    (∀ j, (js.count j : ℤ) = w j) ∧ d'' = d' := by
  by_cases hemp : IsEmpty ι
  · exact ⟨fun j => hemp.elim j, funext fun j => hemp.elim j⟩
  rw [not_isEmpty_iff] at hemp
  have htotal : 0 < total w := sum_pos (fun j _ => hw j) univ_nonempty
  -- the same selections told from their beginning: one round, and then as many as `is`
  have hall := h.append h'
  rw [← take_append_drop js.length (is ++ js)] at hall
  obtain ⟨d1, h1, h2⟩ := hall.of_append
  have hround := (h1.round hw (by rw [length_take, length_append]; omega)).2
  subst hround
  have hback : d'' = d' := (h2.unique hrule h (by simp)).2
  refine ⟨fun j => ?_, hback⟩
  have hcredit := h'.credit j
  rw [hback, hlen] at hcredit
  have : total w * (js.count j : ℤ) = total w * w j := by linarith
  exact mul_left_cancel₀ htotal.ne' this

end SmoothWeights
