/-
# Random numbers of a range

`php_mt_rand_range` draws a number and takes its remainder by the width of the range.  A number for
which the remainders would not be equally frequent is discarded.
-/
import Mathlib.Data.Nat.Prime.Basic
import ReadingCode.Draws

open Finset Draws

namespace PhpMtRand

open List Option BitVec

/-! ## The function -/

/-- `ZEND_ULONG_MAX` -/
def ulongMax : BitVec 64 := allOnes 64

/-- `UINT32_MAX` -/
def uint32Max : BitVec 64 := 0xFFFFFFFF

/-- `php_mt_rand`: the next of the draws. -/
def phpMtRand : List (BitVec 32) → Option (BitVec 32 × List (BitVec 32))
  | [] => none
  | d :: draws => some (d, draws)

/-- `(result << 32) | php_mt_rand()` -/
def combine (result : BitVec 64) (d : BitVec 32) : BitVec 64 := (result <<< 32) ||| d.zeroExtend 64

/-- `limit` -/
def limitOf (umax : BitVec 64) : BitVec 64 := ulongMax - ulongMax % umax - 1

/-- `while (result > limit)` -/
def discard (umax limit : BitVec 64) :
    BitVec 64 → List (BitVec 32) → Option (BitVec 64 × List (BitVec 32))
  | result, [] => if result > limit then none else some (result, [])
  | result, d :: draws =>
    if result > limit then
      discard umax limit (if umax > uint32Max then combine result d else d.zeroExtend 64) draws
    else some (result, d :: draws)

/-- `php_mt_rand_range`, which has no result when the draws do not suffice. -/
def phpMtRandRange (min max : BitVec 64) (draws : List (BitVec 32)) :
    Option (BitVec 64 × List (BitVec 32)) := do
  let umax := max - min
  let (d, draws) ← phpMtRand draws
  let result := d.zeroExtend 64
  let (result, draws) ←
    if umax > uint32Max then do
      let (d, draws) ← phpMtRand draws
      pure (combine result d, draws)
    else pure (result, draws)
  if umax = ulongMax then pure (result, draws)
  else
    let umax := umax + 1
    let (result, draws) ←
      if umax &&& (umax - 1) ≠ 0 then discard umax (limitOf umax) result draws
      else pure (result, draws)
    pure (result % umax + min, draws)

/-! ## Rejection with half of the rejected number -/

/-- In how many ways `n` more draws of a digit below `B` lead from `r` to a number below `L` with
the remainder `v`: as long as a number is not below `L` its low digit becomes the high one. -/
def ways (B L W v : ℕ) : ℕ → ℕ → ℕ
  | 0, r => if r < L ∧ r % W = v then 1 else 0
  | n + 1, r => if r < L then 0 else ∑ d ∈ range B, ways B L W v n (r % B * B + d)

variable {B L W a t v : ℕ}

/-- The ways from a high digit. -/
def waysFrom (B L W v n h : ℕ) : ℕ := ∑ d ∈ range B, ways B L W v n (h * B + d)

/-- The ways from all numbers with two digits. -/
def allWays (B L W v n : ℕ) : ℕ := ∑ r ∈ range (B * B), ways B L W v n r

/-- The ways from the numbers that have at least the high digit `t`. -/
def waysAbove (B L W v t n : ℕ) : ℕ := ∑ h ∈ Ico t B, waysFrom B L W v n h

theorem allWays_eq (n : ℕ) : allWays B L W v n = ∑ h ∈ range B, waysFrom B L W v n h := by
  have h := sum_Ico_mul B (ways B L W v n) (Nat.zero_le B)
  rwa [Nat.zero_mul, Nat.Ico_zero_eq_range, Nat.Ico_zero_eq_range] at h

theorem waysAbove_eq (ht : t ≤ B) (n : ℕ) :
    waysAbove B L W v t n = ∑ r ∈ Ico (t * B) (B * B), ways B L W v n r :=
  (sum_Ico_mul B (ways B L W v n) ht).symm

/-- Numbers that are rejected. -/
theorem sum_ways_succ {s e : ℕ} (hs : L ≤ s) (n : ℕ) :
    ∑ r ∈ Ico s e, ways B L W v (n + 1) r = ∑ r ∈ Ico s e, waysFrom B L W v n (r % B) := by
  refine sum_congr rfl fun r hr => ?_
  have hle := le_trans hs (mem_Ico.mp hr).1
  rw [ways, if_neg (not_lt.mpr hle)]
  rfl

/-- Numbers that are not. -/
theorem sum_ways_succ_of_lt {s e : ℕ} (he : e ≤ L) (n : ℕ) :
    ∑ r ∈ Ico s e, ways B L W v (n + 1) r = 0 := by
  refine Finset.sum_eq_zero fun r hr => ?_
  rw [ways, if_pos (lt_of_lt_of_le (mem_Ico.mp hr).2 he)]

/-- With one more draw: the high digits above `a` are rejected with any low one, and `a` with a low
one from `t` on. -/
theorem allWays_succ (hL : L = a * B + t) (ha : a < B) (ht : t < B) (n : ℕ) :
    allWays B L W v (n + 1) = (B - (a + 1)) * allWays B L W v n + waysAbove B L W v t n := by
  have hend : (a + 1) * B ≤ B * B := Nat.mul_le_mul_right B ha
  have hmid : L ≤ (a + 1) * B := by
    rw [Nat.add_mul]
    omega
  have hdigit : ∑ r ∈ Ico L ((a + 1) * B), waysFrom B L W v n (r % B) =
      waysAbove B L W v t n := by
    rw [waysAbove, sum_Ico_eq_sum_range, sum_Ico_eq_sum_range]
    have hlen : (a + 1) * B - L = B - t := by
      rw [Nat.add_mul]
      omega
    rw [hlen]
    refine sum_congr rfl fun d hd => ?_
    have hd := Finset.mem_range.mp hd
    rw [hL, Nat.add_assoc, Nat.mul_comm, Nat.mul_add_mod, Nat.mod_eq_of_lt (by omega)]
  rw [allWays, ← Nat.Ico_zero_eq_range, ← sum_Ico_consecutive _ (Nat.zero_le L) (Nat.le_trans
    hmid hend), sum_ways_succ_of_lt (Nat.le_refl L), Nat.zero_add, sum_ways_succ (Nat.le_refl L), ←
    sum_Ico_consecutive _ hmid hend, hdigit, sum_Ico_mod B _ ha, allWays_eq, Nat.add_comm]

/-- With one more draw from a high digit `t` that is not above `a`. -/
theorem waysAbove_succ_of_le (hL : L = a * B + t) (hta : t ≤ a) (ht : t < B) (n : ℕ) :
    waysAbove B L W v t (n + 1) = allWays B L W v (n + 1) := by
  have hlow : t * B ≤ L := by
    rw [hL]
    exact Nat.le_add_right_of_le (Nat.mul_le_mul_right B hta)
  have hzero : ∑ r ∈ Ico 0 (t * B), ways B L W v (n + 1) r = 0 := sum_ways_succ_of_lt hlow n
  rw [waysAbove_eq (Nat.le_of_lt ht), allWays, ← Nat.Ico_zero_eq_range, ← sum_Ico_consecutive
    _ (Nat.zero_le (t * B)) (Nat.mul_le_mul_right B (Nat.le_of_lt ht)), hzero, Nat.zero_add]

/-- With one more draw from a high digit above `a`. -/
theorem waysAbove_succ_of_lt (hL : L = a * B + t) (hta : a < t) (ht : t < B) (n : ℕ) :
    waysAbove B L W v t (n + 1) = (B - t) * allWays B L W v n := by
  have hlow : L ≤ t * B := by
    have hle : (a + 1) * B ≤ t * B := Nat.mul_le_mul_right B hta
    rw [Nat.add_mul] at hle
    omega
  rw [waysAbove_eq (Nat.le_of_lt ht), sum_ways_succ hlow, sum_Ico_mod B _ (Nat.le_of_lt ht),
    allWays_eq]

/-! ### Equal frequencies -/

theorem allWays_zero (hL : L ≤ B * B) :
    allWays B L W v 0 = ∑ r ∈ range L, if r % W = v then 1 else 0 := by
  have hrest : ∑ r ∈ Ico L (B * B), ways B L W v 0 r = 0 := by
    refine Finset.sum_eq_zero fun r hr => ?_
    rw [ways, if_neg fun h => Nat.not_lt.mpr (mem_Ico.mp hr).1 h.1]
  rw [allWays, ← Nat.Ico_zero_eq_range, ← sum_Ico_consecutive _ (Nat.zero_le L) hL, hrest,
    Nat.add_zero, Nat.Ico_zero_eq_range]
  refine sum_congr rfl fun r hr => ?_
  simp only [ways, Finset.mem_range.mp hr, true_and]

theorem waysAbove_zero_of_le (hL : L = a * B + t) (hta : t ≤ a) (ht : t < B) :
    (∑ r ∈ range (t * B), if r % W = v then 1 else 0) + waysAbove B L W v t 0 =
      allWays B L W v 0 := by
  have hlow : t * B ≤ L := by
    rw [hL]
    exact Nat.le_add_right_of_le (Nat.mul_le_mul_right B hta)
  have hbelow : ∑ r ∈ Ico 0 (t * B), ways B L W v 0 r =
      ∑ r ∈ range (t * B), if r % W = v then 1 else 0 := by
    rw [Nat.Ico_zero_eq_range]
    refine sum_congr rfl fun r hr => ?_
    have hrL : r < L := Nat.lt_of_lt_of_le (Finset.mem_range.mp hr) hlow
    simp only [ways, hrL, true_and]
  rw [← hbelow, waysAbove_eq (Nat.le_of_lt ht), allWays, ← Nat.Ico_zero_eq_range]
  exact sum_Ico_consecutive _ (Nat.zero_le _) (Nat.mul_le_mul_right B (Nat.le_of_lt ht))

theorem waysAbove_zero_of_lt (hL : L = a * B + t) (hta : a < t) (ht : t < B) :
    waysAbove B L W v t 0 = 0 := by
  have hlow : L ≤ t * B := by
    have hle : (a + 1) * B ≤ t * B := Nat.mul_le_mul_right B hta
    rw [Nat.add_mul] at hle
    omega
  rw [waysAbove_eq (Nat.le_of_lt ht)]
  refine Finset.sum_eq_zero fun r hr => ?_
  have hle := Nat.le_trans hlow (mem_Ico.mp hr).1
  exact if_neg fun h => Nat.not_lt.mpr hle h.1

/-- The remainders are equally frequent after any number of draws when they are among the numbers
whose half is drawn again. -/
theorem allWays_eq_iff (hL : L = a * B + t) (ha : a < B) (ht : t < B) (hW : 0 < W) (hWL : W ∣ L) :
    (∀ n u v, u < W → v < W → allWays B L W u n = allWays B L W v n) ↔ a < t ∨ W ∣ t * B := by
  have hLB : L ≤ B * B := by
    have hle : (a + 1) * B ≤ B * B := Nat.mul_le_mul_right B ha
    rw [Nat.add_mul] at hle
    omega
  have hzero : ∀ u v, u < W → v < W → allWays B L W u 0 = allWays B L W v 0 := by
    intro u v hu hv
    rw [allWays_zero hLB, allWays_zero hLB]
    exact (sum_range_mod_eq_iff hW L).mpr hWL u v hu hv
  constructor
  · intro h
    by_contra hcon
    obtain ⟨hta, hdvd⟩ := not_or.mp hcon
    have hta := Nat.le_of_not_lt hta
    refine hdvd ((sum_range_mod_eq_iff hW _).mp fun u v hu hv => ?_)
    have hone := h 1 u v hu hv
    have hu0 := waysAbove_zero_of_le (W := W) (v := u) hL hta ht
    have hv0 := waysAbove_zero_of_le (W := W) (v := v) hL hta ht
    have h0 := hzero u v hu hv
    rw [allWays_succ hL ha ht, allWays_succ hL ha ht, h0] at hone
    omega
  · intro h n u v hu hv
    have habove : waysAbove B L W u t 0 = waysAbove B L W v t 0 := by
      rcases Nat.lt_or_ge a t with hat | hta
      · rw [waysAbove_zero_of_lt hL hat ht, waysAbove_zero_of_lt hL hat ht]
      · have hdvd : W ∣ t * B := h.resolve_left (Nat.not_lt.mpr hta)
        have hu0 := waysAbove_zero_of_le (W := W) (v := u) hL hta ht
        have hv0 := waysAbove_zero_of_le (W := W) (v := v) hL hta ht
        have h0 := hzero u v hu hv
        have hlow := (sum_range_mod_eq_iff hW (t * B)).mpr hdvd u v hu hv
        omega
    have hboth : ∀ n, allWays B L W u n = allWays B L W v n ∧
        waysAbove B L W u t n = waysAbove B L W v t n := by
      intro n
      induction n with
      | zero => exact ⟨hzero u v hu hv, habove⟩
      | succ n ih =>
        have hall : allWays B L W u (n + 1) = allWays B L W v (n + 1) := by
          rw [allWays_succ hL ha ht, allWays_succ hL ha ht, ih.1, ih.2]
        refine ⟨hall, ?_⟩
        rcases Nat.lt_or_ge a t with hat | hta
        · rw [waysAbove_succ_of_lt hL hat ht, waysAbove_succ_of_lt hL hat ht, ih.1]
        · rw [waysAbove_succ_of_le hL hta ht, waysAbove_succ_of_le hL hta ht, hall]
    exact (hboth n).1

/-! ## The machine's numbers -/

variable {min max : BitVec 64} {n : ℕ}

/-- The number of values of a range. -/
def width (min max : BitVec 64) : ℕ := (max - min).toNat + 1

theorem width_pos (min max : BitVec 64) : 0 < width min max := Nat.succ_pos _

theorem width_le (min max : BitVec 64) : width min max ≤ 2 ^ 64 := (max - min).isLt

theorem toNat_zeroExtend (d : BitVec 32) : (d.zeroExtend 64).toNat = d.toNat := by
  simp only [truncate_eq_setWidth, toNat_setWidth]
  omega

theorem toNat_combine (r : BitVec 64) (d : BitVec 32) :
    (combine r d).toNat = r.toNat % 2 ^ 32 * 2 ^ 32 + d.toNat := by
  have hd := d.isLt
  have hhigh : (r <<< 32).toNat = (r.toNat % 2 ^ 32) <<< 32 := by
    rw [toNat_shiftLeft]
    omega
  rw [combine, toNat_or, toNat_zeroExtend, hhigh, ← Nat.shiftLeft_add_eq_or_of_lt hd,
    Nat.shiftLeft_eq]

/-- The numbers of 32 bits suffice. -/
theorem uint32Max_lt_iff (min max : BitVec 64) :
    max - min > uint32Max ↔ 2 ^ 32 < width min max := by
  show 2 ^ 32 - 1 < _ ↔ _
  unfold width
  omega

theorem toNat_add_one (hW : width min max < 2 ^ 64) : (max - min + 1).toNat = width min max := by
  exact Nat.mod_eq_of_lt hW

theorem add_one_eq_zero (hW : width min max = 2 ^ 64) :
    max - min = ulongMax ∧ max - min + 1 = 0 := by
  have hall : max - min = ulongMax := eq_of_toNat_eq (Nat.succ.inj hW)
  rw [hall]
  exact ⟨rfl, rfl⟩

theorem width_lt_of_ne (h : max - min ≠ ulongMax) : width min max < 2 ^ 64 :=
  lt_of_le_of_ne (width_le min max) fun hW => h (add_one_eq_zero hW).1

theorem width_of_eq (h : max - min = ulongMax) : width min max = 2 ^ 64 := by
  rw [width, h]
  rfl

/-- The test for a power of two, and for all numbers. -/
theorem pow_two_iff (min max : BitVec 64) :
    (max - min + 1) &&& (max - min + 1 - 1) = 0 ↔ ∃ k, width min max = 2 ^ k := by
  by_cases hall : max - min = ulongMax
  · have hW := width_of_eq hall
    rw [(add_one_eq_zero hW).2]
    exact ⟨fun _ => ⟨64, hW⟩, fun _ => rfl⟩
  · have hW := toNat_add_one (width_lt_of_ne hall)
    have hne : width min max ≠ 0 := Nat.succ_ne_zero _
    have hpow := Nat.and_sub_one_eq_zero_iff_isPowerOfTwo hne
    rw [add_sub_cancel, ← toNat_inj, toNat_and, hW]
    exact hpow

/-- The numbers that are accepted are those below a multiple of the width. -/
theorem toNat_limitOf (hW : width min max < 2 ^ 64) :
    (limitOf (max - min + 1)).toNat + 1 = width min max * ((2 ^ 64 - 1) / width min max) := by
  have hpos : 0 < width min max := Nat.succ_pos _
  have hdiv := Nat.div_add_mod (2 ^ 64 - 1) (width min max)
  have hlt := Nat.mod_lt (2 ^ 64 - 1) hpos
  have hall : ulongMax.toNat = 2 ^ 64 - 1 := rfl
  have hone : (1 : BitVec 64).toNat = 1 := rfl
  have hmod : (ulongMax % (max - min + 1)).toNat = (2 ^ 64 - 1) % width min max := by
    rw [toNat_umod, toNat_add_one hW, hall]
  unfold limitOf
  rw [toNat_sub, toNat_sub]
  omega

/-! ## What the function does with its draws -/

/-- The first number. -/
def firstResult (umax : BitVec 64) : List (BitVec 32) → Option (BitVec 64 × List (BitVec 32))
  | [] => none
  | d :: draws =>
    if umax > uint32Max then
      match draws with
      | [] => none
      | d' :: draws => some (combine (d.zeroExtend 64) d', draws)
    else some (d.zeroExtend 64, draws)

variable {limit umax : BitVec 64}

theorem firstResult_narrow (h : ¬ umax > uint32Max) (d : BitVec 32)
    (l : List (BitVec 32)) : firstResult umax (d :: l) = some (d.zeroExtend 64, l) := by
  exact if_neg h

theorem firstResult_wide (h : umax > uint32Max) (d d' : BitVec 32) (l : List (BitVec 32)) :
    firstResult umax (d :: d' :: l) = some (combine (d.zeroExtend 64) d', l) := by
  exact if_pos h

/-- The number that is accepted. -/
def settle (umax result : BitVec 64) (draws : List (BitVec 32)) :
    Option (BitVec 64 × List (BitVec 32)) :=
  if (umax + 1) &&& (umax + 1 - 1) = 0 then some (result, draws)
  else discard (umax + 1) (limitOf (umax + 1)) result draws

/-- The value for a number that is accepted. -/
def valueOf (min max result : BitVec 64) : BitVec 64 :=
  if max - min = ulongMax then result else result % (max - min + 1) + min

theorem phpMtRandRange_eq (min max : BitVec 64) (draws : List (BitVec 32)) :
    phpMtRandRange min max draws =
      (firstResult (max - min) draws).bind fun r => (settle (max - min) r.1 r.2).map fun r =>
        (valueOf min max r.1, r.2) := by
  have hrest : ∀ (r : BitVec 64) (l : List (BitVec 32)),
      (if max - min = ulongMax then (pure (r, l) : Option _) else do
        let umax := max - min + 1
        let (result, draws) ←
          if umax &&& (umax - 1) ≠ 0 then discard umax (limitOf umax) r l else pure (r, l)
        pure (result % umax + min, draws)) =
      (settle (max - min) r l).map fun r => (valueOf min max r.1, r.2) := by
    intro r l
    unfold settle valueOf
    by_cases hall : max - min = ulongMax
    · have hpow := (pow_two_iff min max).mpr ⟨64, width_of_eq hall⟩
      rw [if_pos hpow]
      simp [hall]
    · simp only [hall, if_false]
      by_cases hpow : (max - min + 1) &&& (max - min + 1 - 1) = 0
      · simp only [ne_eq, hpow, not_true_eq_false, if_true, if_false]
        rfl
      · simp only [ne_eq, hpow, not_false_eq_true, if_true, if_false, bind_eq_bind, map_eq_bind]
        rfl
  unfold phpMtRandRange firstResult
  cases draws with
  | nil => rfl
  | cons d draws =>
    by_cases hwide : max - min > uint32Max
    · cases draws with
      | nil => simp [phpMtRand, hwide]
      | cons d' draws =>
        have h := hrest (combine (d.zeroExtend 64) d') draws
        simp only [phpMtRand, hwide, if_true, bind_eq_bind, bind_some, Option.pure_def] at h ⊢
        exact h
    · have h := hrest (d.zeroExtend 64) draws
      simp only [phpMtRand, hwide, if_false, bind_eq_bind, bind_some, Option.pure_def] at h ⊢
      exact h

/-! ## Values of the range -/

/-- A value of the range. -/
def InRange (min max v : BitVec 64) : Prop := min.toInt ≤ v.toInt ∧ v.toInt ≤ max.toInt

/-- The remainder that a value stands for. -/
def offset (min max v : BitVec 64) : ℕ :=
  if max - min = ulongMax then v.toNat else (v - min).toNat

theorem valueOf_eq_iff (min max r v : BitVec 64) :
    valueOf min max r = v ↔ r.toNat % width min max = offset min max v := by
  unfold valueOf offset
  by_cases hall : max - min = ulongMax
  · rw [if_pos hall, if_pos hall, width_of_eq hall, Nat.mod_eq_of_lt r.isLt, toNat_inj]
  · rw [if_neg hall, if_neg hall, ← toNat_add_one (width_lt_of_ne hall), ← toNat_umod, toNat_inj]
    constructor
    · intro h
      rw [← h, add_sub_cancel]
    · intro h
      rw [h, sub_add_cancel]

theorem inRange_iff (hmin : min.toInt ≤ max.toInt) (v : BitVec 64) :
    InRange min max v ↔ offset min max v < width min max := by
  have hall : max - min = ulongMax ↔ (max - min).toNat = 2 ^ 64 - 1 := by
    rw [← toNat_inj]
    rfl
  simp only [InRange, offset, width, hall, toNat_sub, toInt_eq_toNat_cond] at hmin ⊢
  split_ifs at hmin ⊢ <;> omega

/-- Every remainder is the one of a value. -/
theorem exists_offset {k : ℕ} (hk : k < width min max) : ∃ v, offset min max v = k := by
  refine ⟨valueOf min max (BitVec.ofNat 64 k), ?_⟩
  rw [← (valueOf_eq_iff min max (BitVec.ofNat 64 k) _).mp rfl, toNat_ofNat,
    Nat.mod_eq_of_lt (lt_of_lt_of_le hk (width_le min max)), Nat.mod_eq_of_lt hk]

/-- Only values of the range are returned. -/
theorem inRange_of_result (hmin : min.toInt ≤ max.toInt) {draws rest : List (BitVec 32)}
    {v : BitVec 64} (h : phpMtRandRange min max draws = some (v, rest)) : InRange min max v := by
  rw [phpMtRandRange_eq] at h
  obtain ⟨r, -, h⟩ := bind_eq_some_iff.mp h
  obtain ⟨r', -, h⟩ := map_eq_some_iff.mp h
  rw [inRange_iff hmin, ← (valueOf_eq_iff min max r'.1 v).mp (Prod.mk.inj h).1]
  exact Nat.mod_lt _ (Nat.succ_pos _)

/-! ## Counting -/

/-- The draws with which a function accepts a number with the remainder `k`, and no more. -/
noncomputable def accepted (W : ℕ) (f : List (BitVec 32) → Option (BitVec 64 × List (BitVec 32)))
    (k n : ℕ) : ℕ :=
  count (fun l => ∃ r, f l = some (r, []) ∧ r.toNat % W = k) n

/-- Every value of the range has as many sequences of draws as every other. -/
def Uniform (min max : BitVec 64) : Prop :=
  ∀ n u v, InRange min max u → InRange min max v →
    count (fun l => phpMtRandRange min max l = some (u, [])) n =
      count (fun l => phpMtRandRange min max l = some (v, [])) n

/-- The number that is accepted for some draws. -/
def acceptedResult (min max : BitVec 64) (draws : List (BitVec 32)) :
    Option (BitVec 64 × List (BitVec 32)) :=
  (firstResult (max - min) draws).bind fun r => settle (max - min) r.1 r.2

theorem count_eq_accepted (min max v : BitVec 64) (n : ℕ) :
    count (fun l => phpMtRandRange min max l = some (v, [])) n =
      accepted (width min max) (acceptedResult min max) (offset min max v) n := by
  refine count_congr fun l => ?_
  rw [phpMtRandRange_eq, acceptedResult]
  constructor
  · intro h
    obtain ⟨r, hr, h⟩ := bind_eq_some_iff.mp h
    obtain ⟨r', hr', h⟩ := map_eq_some_iff.mp h
    obtain ⟨hv, hrest⟩ := Prod.mk.inj h
    refine ⟨r'.1, ?_, (valueOf_eq_iff min max _ v).mp hv⟩
    rw [hr, bind_some, hr', ← hrest]
  · rintro ⟨r', h, hv⟩
    obtain ⟨r, hr, h⟩ := bind_eq_some_iff.mp h
    rw [hr, bind_some, h, map_some, (valueOf_eq_iff min max r' v).mpr hv]

theorem uniform_iff (hmin : min.toInt ≤ max.toInt) :
    Uniform min max ↔ ∀ n j k, j < width min max → k < width min max →
      accepted (width min max) (acceptedResult min max) j n =
        accepted (width min max) (acceptedResult min max) k n := by
  unfold Uniform
  simp only [count_eq_accepted, inRange_iff hmin]
  constructor
  · intro h n j k hj hk
    obtain ⟨u, rfl⟩ := exists_offset hj
    obtain ⟨v, rfl⟩ := exists_offset hk
    exact h n u v hj hk
  · exact fun h n u v hu hv => h n _ _ hu hv

/-- When a number is accepted at once. -/
theorem accepted_some (W k n : ℕ) (r : BitVec 64) :
    accepted W (fun l => some (r, l)) k n = if n = 0 ∧ r.toNat % W = k then 1 else 0 := by
  classical
  cases n with
  | zero =>
    rw [accepted, count_zero]
    exact if_congr (by simp) rfl rfl
  | succ n =>
    refine count_of_forall_not fun l hl h => ?_
    obtain ⟨r', h, -⟩ := h
    rw [(Prod.mk.inj (Option.some.inj h)).2] at hl
    cases hl

theorem accepted_succ (W k n : ℕ) (f : List (BitVec 32) → Option (BitVec 64 × List (BitVec 32))) :
    accepted W f k (n + 1) = ∑ d, accepted W (fun l => f (d :: l)) k n :=
  count_succ _ n

/-- The loop leads from a number to a remainder as the numbers with two digits do. -/
theorem accepted_discard (hwide : umax > uint32Max)
    (hL : limit.toNat + 1 = L) (W k n : ℕ) (r : BitVec 64) :
    accepted W (discard umax limit r) k n = ways (2 ^ 32) L W k n r.toNat := by
  have hgt : ∀ r : BitVec 64, r > limit ↔ ¬ r.toNat < L := by
    intro r
    rw [gt_iff_lt, lt_def]
    omega
  induction n generalizing r with
  | zero =>
    classical
    rw [accepted, count_zero]
    refine if_congr ?_ rfl rfl
    rw [discard]
    by_cases hr : r.toNat < L
    · rw [if_neg fun h => (hgt r).mp h hr]
      simp [hr]
    · rw [if_pos ((hgt r).mpr hr)]
      simp [hr]
  | succ n ih =>
    rw [accepted_succ, ways]
    by_cases hr : r.toNat < L
    · rw [if_pos hr]
      refine Finset.sum_eq_zero fun d _ => ?_
      refine count_of_forall_not fun l _ h => ?_
      obtain ⟨r', h, -⟩ := h
      have h : discard umax limit r (d :: l) = some (r', []) := h
      rw [discard, if_neg fun h => (hgt r).mp h hr] at h
      cases h
    · rw [if_neg hr, ← sum_bitVec fun d => ways (2 ^ 32) L W k n (r.toNat % 2 ^ 32 * 2 ^ 32 + d)]
      refine sum_congr rfl fun d _ => ?_
      rw [← toNat_combine, ← ih]
      refine count_congr fun l => ?_
      show (∃ r', discard umax limit r (d :: l) = some (r', []) ∧ _) ↔ _
      rw [discard, if_pos ((hgt r).mpr hr), if_pos hwide]

/-! ### Narrow ranges -/

/-- A number of 32 bits is not above the limit. -/
theorem settle_narrow (hnarrow : width min max ≤ 2 ^ 32) (d : BitVec 32) (l : List (BitVec 32)) :
    settle (max - min) (d.zeroExtend 64) l = some (d.zeroExtend 64, l) := by
  unfold settle
  by_cases hpow : (max - min + 1) &&& (max - min + 1 - 1) = 0
  · rw [if_pos hpow]
  · have hlim := @toNat_limitOf min max (by omega)
    have hpos : 0 < width min max := Nat.succ_pos _
    have hdiv := Nat.div_add_mod (2 ^ 64 - 1) (width min max)
    have hmod := Nat.mod_lt (2 ^ 64 - 1) hpos
    have hle : ¬ d.zeroExtend 64 > limitOf (max - min + 1) := by
      rw [gt_iff_lt, lt_def, toNat_zeroExtend]
      omega
    rw [if_neg hpow]
    cases l <;> rw [discard, if_neg hle]

theorem accepted_narrow (hnarrow : width min max ≤ 2 ^ 32) (k n : ℕ) :
    accepted (width min max) (acceptedResult min max) k n =
      if n = 1 then ∑ d ∈ range (2 ^ 32), if d % width min max = k then 1 else 0 else 0 := by
  have hwide : ¬ max - min > uint32Max := by
    rw [uint32Max_lt_iff]
    exact not_lt.mpr hnarrow
  have hcons : ∀ d, (fun l => acceptedResult min max (d :: l)) =
      fun l => some (d.zeroExtend 64, l) := by
    intro d
    funext l
    rw [acceptedResult, firstResult_narrow hwide, bind_some, settle_narrow hnarrow]
  cases n with
  | zero =>
    refine count_of_forall_not fun l hl h => ?_
    obtain ⟨r, h, -⟩ := h
    rw [eq_nil_of_length_eq_zero hl] at h
    cases h
  | succ n =>
    rw [accepted_succ]
    simp only [hcons, accepted_some, toNat_zeroExtend]
    cases n with
    | zero =>
      simp only [true_and, zero_add, if_true]
      exact sum_bitVec fun d => if d % width min max = k then 1 else 0
    | succ n => simp

/-! ### Wide ranges -/

theorem accepted_wide (hwide : 2 ^ 32 < width min max) (k n : ℕ) :
    accepted (width min max) (acceptedResult min max) k (n + 2) = ∑ d : BitVec 32, ∑ d' : BitVec 32,
        accepted (width min max) (settle (max - min) (combine (d.zeroExtend 64) d')) k n := by
  have hgt := (uint32Max_lt_iff min max).mpr hwide
  rw [accepted_succ]
  refine sum_congr rfl fun d _ => ?_
  rw [accepted_succ]
  refine sum_congr rfl fun d' _ => ?_
  refine count_congr fun l => ?_
  show (∃ r, acceptedResult min max (d :: d' :: l) = some (r, []) ∧ _) ↔ _
  rw [acceptedResult, firstResult_wide hgt, bind_some]

theorem accepted_wide_of_lt (hwide : 2 ^ 32 < width min max) (k : ℕ) (hn : n < 2) :
    accepted (width min max) (acceptedResult min max) k n = 0 := by
  have hgt := (uint32Max_lt_iff min max).mpr hwide
  refine count_of_forall_not fun l hl h => ?_
  obtain ⟨r, h, -⟩ := h
  cases l with
  | nil => cases h
  | cons d l =>
    cases l with
    | nil =>
      have hnone : firstResult (max - min) [d] = none := if_pos hgt
      rw [acceptedResult, hnone] at h
      cases h
    | cons d' l =>
      simp only [length_cons] at hl
      omega

/-- The first two draws make a number with two digits. -/
theorem sum_combine (f : ℕ → ℕ) :
    ∑ d : BitVec 32, ∑ d' : BitVec 32, f (combine (d.zeroExtend 64) d').toNat =
      ∑ r ∈ range (2 ^ 32 * 2 ^ 32), f r := by
  have hlow : ∀ d : BitVec 32, ∑ d' : BitVec 32, f (combine (d.zeroExtend 64) d').toNat =
      ∑ d' ∈ range (2 ^ 32), f (d.toNat * 2 ^ 32 + d') := by
    intro d
    rw [← sum_bitVec fun d' => f (d.toNat * 2 ^ 32 + d')]
    refine sum_congr rfl fun d' _ => ?_
    rw [toNat_combine, toNat_zeroExtend, Nat.mod_eq_of_lt d.isLt]
  have hmul := sum_Ico_mul (2 ^ 32) f (Nat.zero_le (2 ^ 32))
  rw [Nat.zero_mul, Nat.Ico_zero_eq_range, Nat.Ico_zero_eq_range] at hmul
  rw [hmul, sum_congr rfl fun d _ => hlow d]
  exact sum_bitVec fun d => ∑ d' ∈ range (2 ^ 32), f (d * 2 ^ 32 + d')

/-- Without a loop. -/
theorem accepted_wide_pow (hwide : 2 ^ 32 < width min max) (hpow : ∃ k, width min max = 2 ^ k)
    (k n : ℕ) : accepted (width min max) (acceptedResult min max) k (n + 2) =
      if n = 0 then ∑ r ∈ range (2 ^ 64), if r % width min max = k then 1 else 0 else 0 := by
  have hsettle : ∀ r, settle (max - min) r = fun l => some (r, l) := by
    intro r
    funext l
    exact if_pos ((pow_two_iff min max).mpr hpow)
  rw [accepted_wide hwide]
  simp only [hsettle, accepted_some]
  cases n with
  | zero =>
    simp only [true_and, if_true]
    exact sum_combine fun r => if r % width min max = k then 1 else 0
  | succ n => simp

/-- With the loop. -/
theorem accepted_wide_loop (hwide : 2 ^ 32 < width min max) (hpow : ¬ ∃ k, width min max = 2 ^ k)
    (k n : ℕ) : accepted (width min max) (acceptedResult min max) k (n + 2) =
      allWays (2 ^ 32) (width min max * ((2 ^ 64 - 1) / width min max)) (width min max) k n := by
  have hW : width min max < 2 ^ 64 :=
    lt_of_le_of_ne (width_le min max) fun h => hpow ⟨64, h⟩
  have hgt : max - min + 1 > uint32Max := by
    rw [gt_iff_lt, lt_def, toNat_add_one hW]
    exact lt_trans (by decide) hwide
  have hsettle : ∀ r, settle (max - min) r =
      discard (max - min + 1) (limitOf (max - min + 1)) r := by
    intro r
    funext l
    exact if_neg fun h => hpow ((pow_two_iff min max).mp h)
  rw [accepted_wide hwide]
  simp only [hsettle, accepted_discard hgt (toNat_limitOf hW)]
  exact sum_combine _

/-! ## Uniform ranges -/

/-- The high half of a number below which numbers are accepted is less than the low half, or the
remainders are equally frequent among the numbers with a lesser high half than this low half. -/
def RedrawsEvenly (W : ℕ) : Prop :=
  2 ^ 32 < W ∧ (W * ((2 ^ 64 - 1) / W) / 2 ^ 32 < W * ((2 ^ 64 - 1) / W) % 2 ^ 32 ∨
    W ∣ W * ((2 ^ 64 - 1) / W) % 2 ^ 32 * 2 ^ 32)

theorem dvd_pow_iff {k : ℕ} (hW : W ≤ 2 ^ k) : W ∣ 2 ^ k ↔ ∃ j, W = 2 ^ j := by
  rw [Nat.dvd_prime_pow Nat.prime_two]
  constructor
  · rintro ⟨j, -, hj⟩
    exact ⟨j, hj⟩
  · rintro ⟨j, rfl⟩
    exact ⟨j, (Nat.pow_le_pow_iff_right (by decide)).mp hW, rfl⟩

theorem uniform_narrow_iff (hmin : min.toInt ≤ max.toInt) (hnarrow : width min max ≤ 2 ^ 32) :
    Uniform min max ↔ ∃ k, width min max = 2 ^ k := by
  rw [uniform_iff hmin, ← dvd_pow_iff hnarrow, ← sum_range_mod_eq_iff (width_pos min max)]
  simp only [accepted_narrow hnarrow]
  constructor
  · intro h j k hj hk
    exact h 1 j k hj hk
  · intro h n j k hj hk
    split_ifs
    · exact h j k hj hk
    · rfl

theorem uniform_wide_iff (hmin : min.toInt ≤ max.toInt) (hwide : 2 ^ 32 < width min max) :
    Uniform min max ↔ (∃ k, width min max = 2 ^ k) ∨ RedrawsEvenly (width min max) := by
  rw [uniform_iff hmin]
  by_cases hpow : ∃ k, width min max = 2 ^ k
  · refine ⟨fun _ => .inl hpow, fun _ n j k hj hk => ?_⟩
    have hdvd := (dvd_pow_iff (width_le min max)).mpr hpow
    match n with
    | 0 | 1 =>
      rw [accepted_wide_of_lt hwide _ (by decide), accepted_wide_of_lt hwide _ (by decide)]
    | n + 2 =>
      rw [accepted_wide_pow hwide hpow, accepted_wide_pow hwide hpow]
      split_ifs
      · exact (sum_range_mod_eq_iff (width_pos min max) _).mpr hdvd j k hj hk
      · rfl
  · have hdiv := Nat.div_add_mod (2 ^ 64 - 1) (width min max)
    have hL := Nat.div_add_mod' (width min max * ((2 ^ 64 - 1) / width min max)) (2 ^ 32)
    have hways := allWays_eq_iff hL.symm (by omega) (Nat.mod_lt _ (by decide)) (width_pos min max)
      (Nat.dvd_mul_right _ _)
    rw [or_iff_right hpow, RedrawsEvenly, and_iff_right hwide, ← hways]
    constructor
    · intro h n j k hj hk
      rw [← accepted_wide_loop hwide hpow, ← accepted_wide_loop hwide hpow]
      exact h (n + 2) j k hj hk
    · intro h n j k hj hk
      match n with
      | 0 | 1 =>
        rw [accepted_wide_of_lt hwide _ (by decide), accepted_wide_of_lt hwide _ (by decide)]
      | n + 2 =>
        rw [accepted_wide_loop hwide hpow, accepted_wide_loop hwide hpow]
        exact h n j k hj hk

/-! ## The end of the loop -/

/-- The number that the draws from `k` on begin with. -/
def candidate (min max : BitVec 64) (s : ℕ → BitVec 32) (k : ℕ) : BitVec 64 :=
  if max - min > uint32Max then combine ((s k).zeroExtend 64) (s (k + 1))
  else (s k).zeroExtend 64

/-- A number that is not discarded. -/
def Acceptable (min max r : BitVec 64) : Prop :=
  (∃ k, width min max = 2 ^ k) ∨ r ≤ limitOf (max - min + 1)

theorem combine_combine (r : BitVec 64) (d d' : BitVec 32) :
    combine (combine r d) d' = combine (d.zeroExtend 64) d' := by
  apply eq_of_toNat_eq
  rw [toNat_combine, toNat_combine, toNat_combine, toNat_zeroExtend]
  omega

/-- The loop ends at the latest when the number from `m` draws on is acceptable. -/
theorem discard_ends (hwide : umax > uint32Max) (m : ℕ)
    (s : ℕ → BitVec 32) (hm : combine ((s m).zeroExtend 64) (s (m + 1)) ≤ limit) :
    ∃ n r, discard umax limit (combine ((s 0).zeroExtend 64) (s 1))
      ((List.range n).map fun i => s (i + 2)) = some (r, []) := by
  induction m generalizing s with
  | zero =>
    refine ⟨0, combine ((s 0).zeroExtend 64) (s 1), ?_⟩
    rw [List.range_zero, List.map_nil, discard, if_neg (BitVec.not_lt.mpr hm)]
  | succ m ih =>
    by_cases hgt : combine ((s 0).zeroExtend 64) (s 1) > limit
    · obtain ⟨n, r, hr⟩ := ih (fun i => s (i + 1)) hm
      refine ⟨n + 1, r, ?_⟩
      rw [range_succ_eq_map, List.map_cons, discard, if_pos hgt, if_pos hwide,
        combine_combine, List.map_map]
      exact hr
    · refine ⟨0, combine ((s 0).zeroExtend 64) (s 1), ?_⟩
      rw [List.range_zero, List.map_nil, discard, if_neg hgt]

/-- The function returns when some number from a later draw on is acceptable. -/
theorem phpMtRandRange_ends (min max : BitVec 64) (s : ℕ → BitVec 32)
    (h : ∃ k, Acceptable min max (candidate min max s k)) :
    ∃ n v, phpMtRandRange min max ((List.range n).map s) = some (v, []) := by
  obtain ⟨m, hm⟩ := h
  by_cases hwide : max - min > uint32Max
  · have hstart : ∀ n, firstResult (max - min) ((List.range (n + 2)).map s) =
        some (combine ((s 0).zeroExtend 64) (s 1), (List.range n).map fun i => s (i + 2)) := by
      intro n
      rw [range_succ_eq_map, range_succ_eq_map]
      simp only [List.map_cons, List.map_map]
      exact firstResult_wide hwide _ _ _
    have hsettle : ∃ n r, settle (max - min) (combine ((s 0).zeroExtend 64) (s 1))
        ((List.range n).map fun i => s (i + 2)) = some (r, []) := by
      by_cases hpow : ∃ k, width min max = 2 ^ k
      · exact ⟨0, _, if_pos ((pow_two_iff min max).mpr hpow)⟩
      · have hW : width min max < 2 ^ 64 :=
          lt_of_le_of_ne (width_le min max) fun h => hpow ⟨64, h⟩
        have hgt : max - min + 1 > uint32Max := by
          rw [uint32Max_lt_iff] at hwide
          rw [gt_iff_lt, lt_def, toNat_add_one hW]
          exact lt_trans (by decide) hwide
        have hle := hm.resolve_left hpow
        rw [candidate, if_pos hwide] at hle
        obtain ⟨n, r, hr⟩ := discard_ends hgt m s hle
        refine ⟨n, r, ?_⟩
        rw [settle, if_neg fun h => hpow ((pow_two_iff min max).mp h), hr]
    obtain ⟨n, r, hr⟩ := hsettle
    refine ⟨n + 2, valueOf min max r, ?_⟩
    rw [phpMtRandRange_eq, hstart, bind_some, hr]
    rfl
  · refine ⟨1, valueOf min max ((s 0).zeroExtend 64), ?_⟩
    have hnarrow : width min max ≤ 2 ^ 32 := not_lt.mp ((uint32Max_lt_iff min max).not.mp hwide)
    have hone : (List.range 1).map s = [s 0] := rfl
    rw [phpMtRandRange_eq, hone, firstResult_narrow hwide, bind_some, settle_narrow hnarrow]
    rfl

/-! ## Random ranges -/

/-- Only values of the range are returned, and the loop ends; and draws that are uniform give values
that are, exactly for ranges of a power of two and for those wide ones in which it makes no
difference that half of a rejected number is used again. -/
theorem phpMtRandRange_uniform_iff (hmin : min.toInt ≤ max.toInt) :
    (∀ draws v rest, phpMtRandRange min max draws = some (v, rest) → InRange min max v) ∧
      (∀ s : ℕ → BitVec 32, (∃ k, Acceptable min max (candidate min max s k)) →
        ∃ n v, phpMtRandRange min max ((List.range n).map s) = some (v, [])) ∧ Uniform min max ↔
    (∃ k, width min max = 2 ^ k) ∨ RedrawsEvenly (width min max) := by
  have hrest : ∀ P : Prop, (∀ draws v rest, phpMtRandRange min max draws = some (v, rest) →
      InRange min max v) ∧ (∀ s : ℕ → BitVec 32, (∃ k, Acceptable min max (candidate min max s k)) →
        ∃ n v, phpMtRandRange min max ((List.range n).map s) = some (v, [])) ∧ P ↔ P :=
    fun P => ⟨fun h => h.2.2, fun h => ⟨fun _ _ _ => inRange_of_result hmin,
      phpMtRandRange_ends min max, h⟩⟩
  rw [hrest]
  rcases lt_or_ge (2 ^ 32) (width min max) with hwide | hnarrow
  · exact uniform_wide_iff hmin hwide
  · rw [uniform_narrow_iff hmin hnarrow]
    exact ⟨.inl, fun h => h.resolve_right fun hw => not_lt.mpr hnarrow hw.1⟩

/-- From 0 to 1, and a range of three times `2 ^ 32` values, where the low half of a number that
is just not accepted is zero. -/
theorem uniform_two_widths : Uniform 0 1 ∧ Uniform 0 12884901887 := by
  have hwidth : width 0 12884901887 = 3 * 2 ^ 32 := rfl
  refine ⟨((phpMtRandRange_uniform_iff (by decide)).mpr (.inl ⟨1, rfl⟩)).2.2,
    ((phpMtRandRange_uniform_iff (by decide)).mpr (.inr ?_)).2.2⟩
  rw [hwidth]
  exact ⟨by decide, .inr (by decide)⟩

/-- From 0 to 2 no number is ever discarded. -/
theorem not_uniform_zero_two : ¬ Uniform 0 2 := by
  rw [uniform_narrow_iff (by decide) (by decide)]
  rintro ⟨k, hk⟩
  have hthree : width 0 2 = 3 := rfl
  match k with
  | 0 | 1 => cases hk
  | k + 2 =>
    rw [pow_add] at hk
    omega

end PhpMtRand
