/-
# Ranges of the bitwise operations

`minOR`, `maxOR`, `minAND` and `maxAND` are the bounds of `x | y` and `x & y` for `x` and `y` in
ranges of unsigned integers; `zend_ssa_range_or` and `zend_ssa_range_and` choose from them by the
signs of the bounds of signed ones.
-/
import ReadingCode.BitOrder

open BitOrder
open BitVec (twoPow getLsbD_or getLsbD_and getLsbD_not getLsbD_of_ge allOnes toInt_eq_toNat_cond)

namespace ZendInference

/-! ## The bounds -/

/-- `zend_ulong`, and `zend_long` where `toInt` is used. -/
abbrev ZendULong := BitVec 64

/-- `1L << (sizeof(zend_ulong) * 8 - 1)` -/
def topBit : ZendULong := twoPow 64 63

/-- A round of the loop of `minOR`; with a result the loop ends. -/
def minORRound (a b c d m : ZendULong) : Option (ZendULong × ZendULong) :=
  if ~~~a &&& c &&& m ≠ 0 then
    let temp := (a ||| m) &&& -m
    if temp ≤ b then some (temp, c) else none
  else if a &&& ~~~c &&& m ≠ 0 then
    let temp := (c ||| m) &&& -m
    if temp ≤ d then some (a, temp) else none
  else none

/-- `minOR` -/
def minOR (a b c d : ZendULong) : ZendULong :=
  let r := bitLoop (minORRound a b c d) (a, c) topBit
  r.1 ||| r.2

/-- A round of the loop of `maxOR`. -/
def maxORRound (a b c d m : ZendULong) : Option (ZendULong × ZendULong) :=
  if b &&& d &&& m ≠ 0 then
    let temp := (b - m) ||| (m - 1)
    if temp ≥ a then some (temp, d)
    else
      let temp := (d - m) ||| (m - 1)
      if temp ≥ c then some (b, temp) else none
  else none

/-- `maxOR` -/
def maxOR (a b c d : ZendULong) : ZendULong :=
  let r := bitLoop (maxORRound a b c d) (b, d) topBit
  r.1 ||| r.2

/-- A round of the loop of `minAND`. -/
def minANDRound (a b c d m : ZendULong) : Option (ZendULong × ZendULong) :=
  if ~~~a &&& ~~~c &&& m ≠ 0 then
    let temp := (a ||| m) &&& -m
    if temp ≤ b then some (temp, c)
    else
      let temp := (c ||| m) &&& -m
      if temp ≤ d then some (a, temp) else none
  else none

/-- `minAND` -/
def minAND (a b c d : ZendULong) : ZendULong :=
  let r := bitLoop (minANDRound a b c d) (a, c) topBit
  r.1 &&& r.2

/-- A round of the loop of `maxAND`. -/
def maxANDRound (a b c d m : ZendULong) : Option (ZendULong × ZendULong) :=
  if b &&& ~~~d &&& m ≠ 0 then
    let temp := (b ||| ~~~m) ||| (m - 1)
    if temp ≥ a then some (temp, d) else none
  else if ~~~b &&& d &&& m ≠ 0 then
    let temp := (d ||| ~~~m) ||| (m - 1)
    if temp ≥ c then some (b, temp) else none
  else none

/-- `maxAND` -/
def maxAND (a b c d : ZendULong) : ZendULong :=
  let r := bitLoop (maxANDRound a b c d) (b, d) topBit
  r.1 &&& r.2

/-- `zend_ssa_range` -/
structure ZendSsaRange where
  min : ZendULong
  max : ZendULong
  underflow : Bool
  overflow : Bool

/-- `x` in `zend_ssa_range_or` and `zend_ssa_range_and`: the signs of the bounds. -/
def signs (a b c d : ZendULong) : ℕ :=
  (if a.slt 0 then 8 else 0) ||| (if b.slt 0 then 4 else 0) ||| (if c.slt 0 then 2 else 0) |||
    (if d.slt 0 then 2 else 0)

/-- `MIN` -/
def minLong (a b : ZendULong) : ZendULong := if a.slt b then a else b

/-- `MAX` -/
def maxLong (a b : ZendULong) : ZendULong := if b.slt a then a else b

/-- `zend_ssa_range_or` -/
def zendSsaRangeOr (a b c d : ZendULong) (tmp : ZendSsaRange) : ZendSsaRange :=
  match signs a b c d with
  | 0x0 | 0x3 | 0xc | 0xf => { tmp with min := minOR a b c d, max := maxOR a b c d }
  | 0x2 => { tmp with min := minOR a b c (-1), max := maxOR a b 0 d }
  | 0x8 => { tmp with min := minOR a (-1) c d, max := maxOR 0 b c d }
  | 0xa => { tmp with min := minLong a c, max := maxOR 0 b 0 d }
  | 0xb => { tmp with min := c, max := -1 }
  | 0xe => { tmp with min := a, max := -1 }
  | _ => tmp

/-- `zend_ssa_range_and` -/
def zendSsaRangeAnd (a b c d : ZendULong) (tmp : ZendSsaRange) : ZendSsaRange :=
  match signs a b c d with
  | 0x0 | 0x3 | 0xc | 0xf => { tmp with min := minAND a b c d, max := maxAND a b c d }
  | 0x2 => { tmp with min := 0, max := b }
  | 0x8 => { tmp with min := 0, max := d }
  | 0xa => { tmp with min := minAND a (-1) c (-1), max := maxLong b d }
  | 0xb => { tmp with min := minAND a (-1) c d, max := maxAND 0 b c d }
  | 0xe => { tmp with min := minAND a b c (-1), max := maxAND a b 0 d }
  | _ => tmp

/-! ## Unsigned ranges -/

variable {a b c d x y : ZendULong} {i j : ℕ}

theorem and_topBit_ne_zero (hi : i < 64) (x : ZendULong) :
    x &&& twoPow 64 i ≠ 0 ↔ x.getLsbD i = true := by
  rw [BitVec.and_twoPow]
  cases x.getLsbD i with
  | false => simp
  | true => simpa using twoPow_ne_zero hi

/-! ### The least `x | y` -/

/-- Above bit `i`, where one of `a` and `c` has a one and the other a zero, `x` or `y` has the zero,
too. -/
def OrStuck (a c x y : ZendULong) (i : ℕ) : Prop := ∀ k, i < k →
  (a.getLsbD k = false → c.getLsbD k = true → x.getLsbD k = false) ∧
    (a.getLsbD k = true → c.getLsbD k = false → y.getLsbD k = false)

theorem OrStuck.symm (h : OrStuck a c x y i) : OrStuck c a y x i :=
  fun k hk => ⟨fun hc ha => (h k hk).2 ha hc, fun hc ha => (h k hk).1 ha hc⟩

/-- The highest bit in which `a | c` and `x | y` differ is not a zero of `x | y`. -/
theorem OrStuck.exists_ne_left (h : OrStuck a c x y i) (hax : a ≤ x) (hij : i ≤ j)
    (ha : a.getLsbD j = true) (hx : x.getLsbD j = false) :
    ∃ k, j < k ∧ (a ||| c).getLsbD k ≠ (x ||| y).getLsbD k := by
  obtain ⟨k, hk, hak, hxk, -⟩ := exists_bit_of_le hax ha hx
  refine ⟨k, hk, fun heq => ?_⟩
  rw [getLsbD_or, getLsbD_or, hak, hxk] at heq
  rw [(h k (lt_of_le_of_lt hij hk)).1 hak heq] at hxk
  cases hxk

theorem OrStuck.exists_ne (h : OrStuck a c x y i) (hax : a ≤ x) (hcy : c ≤ y) (hij : i ≤ j)
    (hor : (a ||| c).getLsbD j = true) (hxy : (x ||| y).getLsbD j = false) :
    ∃ k, j < k ∧ (a ||| c).getLsbD k ≠ (x ||| y).getLsbD k := by
  rw [getLsbD_or, Bool.or_eq_true] at hor
  rw [getLsbD_or, Bool.or_eq_false_iff] at hxy
  rcases hor with ha | hc
  · exact h.exists_ne_left hax hij ha hxy.1
  · obtain ⟨k, hk, hne⟩ := h.symm.exists_ne_left hcy hij hc hxy.2
    exact ⟨k, hk, by rwa [BitVec.or_comm a, BitVec.or_comm x]⟩

/-- Where `a` is raised in the bit `i`, which `c` has. -/
theorem OrStuck.raise_le (h : OrStuck a c x y i) (hax : a ≤ x) (hcy : c ≤ y) (hi : i < 64)
    (hc : c.getLsbD i = true) : raise a (twoPow 64 i) ||| c ≤ x ||| y := by
  have habove : ∀ k, i < k →
      (raise a (twoPow 64 i) ||| c).getLsbD k = (a ||| c).getLsbD k := by
    intro k hk
    simp [getLsbD_raise a hi, le_of_lt hk, ne_of_lt hk]
  refine le_of_bits fun j hj hxy => ?_
  rcases lt_or_ge j i with hji | hij
  · have hcj : c.getLsbD j = true := by
      simpa [getLsbD_raise a hi, not_le.mpr hji] using hj
    rw [getLsbD_or, Bool.or_eq_false_iff] at hxy
    obtain ⟨k, hk, hck, hyk, -⟩ := exists_bit_of_le hcy hcj hxy.2
    refine ⟨k, hk, fun heq => ?_⟩
    have hor : (a.getLsbD k || decide (i = k)) = true ∧ i ≤ k := by
      simpa [getLsbD_raise a hi, hck, hyk, and_comm] using heq
    rcases lt_or_eq_of_le hor.2 with hik | rfl
    · have hak : a.getLsbD k = true := by simpa [ne_of_lt hik] using hor.1
      rw [(h k hik).2 hak hck] at hyk
      cases hyk
    · rw [hc] at hck
      cases hck
  · have hor : (a ||| c).getLsbD j = true := by
      rcases lt_or_eq_of_le hij with hlt | rfl
      · rwa [habove j hlt] at hj
      · rw [getLsbD_or, hc, Bool.or_true]
    obtain ⟨k, hk, hne⟩ := h.exists_ne hax hcy hij hor hxy
    exact ⟨k, hk, by rwa [habove k (lt_of_le_of_lt hij hk)]⟩

/-- Where nothing is raised at all. -/
theorem OrStuck.le (h : OrStuck a c x y 0) (hax : a ≤ x) (hcy : c ≤ y) : a ||| c ≤ x ||| y :=
  le_of_bits fun j hj hxy => h.exists_ne hax hcy (Nat.zero_le j) hj hxy

/-! ### The least `x & y` -/

/-- Above bit `i`, where `a` and `c` have zeros, `x` and `y` have zeros, too. -/
def AndStuck (a c x y : ZendULong) (i : ℕ) : Prop := ∀ k, i < k →
  a.getLsbD k = false → c.getLsbD k = false → x.getLsbD k = false ∧ y.getLsbD k = false

theorem AndStuck.symm (h : AndStuck a c x y i) : AndStuck c a y x i :=
  fun k hk hc ha => (h k hk ha hc).symm

/-- The highest bit in which `a & c` and `x & y` differ is not a zero of `x & y`. -/
theorem AndStuck.exists_ne_left (h : AndStuck a c x y i) (hax : a ≤ x) (hcy : c ≤ y) (hij : i ≤ j)
    (ha : a.getLsbD j = true) (hx : x.getLsbD j = false) :
    ∃ k, j < k ∧ (a &&& c).getLsbD k ≠ (x &&& y).getLsbD k := by
  obtain ⟨k, hk, hak, hxk, hagree⟩ := exists_bit_of_le hax ha hx
  have hik : i < k := lt_of_le_of_lt hij hk
  by_cases hyk : y.getLsbD k = true
  · exact ⟨k, hk, by simp [hak, hxk, hyk]⟩
  rw [Bool.not_eq_true] at hyk
  have hck : c.getLsbD k = true := by
    by_contra hck
    rw [(h k hik hak (Bool.eq_false_iff.mpr hck)).1] at hxk
    cases hxk
  obtain ⟨l, hl, hcl, hyl, -⟩ := exists_bit_of_le hcy hck hyk
  have hal : a.getLsbD l = true := by
    by_contra hal
    rw [(h l (lt_trans hik hl) (Bool.eq_false_iff.mpr hal) hcl).2] at hyl
    cases hyl
  have hxl : x.getLsbD l = true := by rw [← hagree l hl, hal]
  exact ⟨l, lt_trans hk hl, by simp [hal, hcl, hxl, hyl]⟩

theorem AndStuck.exists_ne (h : AndStuck a c x y i) (hax : a ≤ x) (hcy : c ≤ y) (hij : i ≤ j)
    (hand : (a &&& c).getLsbD j = true) (hxy : (x &&& y).getLsbD j = false) :
    ∃ k, j < k ∧ (a &&& c).getLsbD k ≠ (x &&& y).getLsbD k := by
  rw [getLsbD_and, Bool.and_eq_true] at hand
  rw [getLsbD_and, Bool.and_eq_false_iff] at hxy
  rcases hxy with hx | hy
  · exact h.exists_ne_left hax hcy hij hand.1 hx
  · obtain ⟨k, hk, hne⟩ := h.symm.exists_ne_left hcy hax hij hand.2 hy
    exact ⟨k, hk, by rwa [BitVec.and_comm a, BitVec.and_comm x]⟩

/-- Where `a` is raised in the bit `i`, which `c` has not. -/
theorem AndStuck.raise_le (h : AndStuck a c x y i) (hax : a ≤ x) (hcy : c ≤ y) (hi : i < 64)
    (hc : c.getLsbD i = false) : raise a (twoPow 64 i) &&& c ≤ x &&& y := by
  have habove : ∀ k, i < k →
      (raise a (twoPow 64 i) &&& c).getLsbD k = (a &&& c).getLsbD k := by
    intro k hk
    simp [getLsbD_raise a hi, le_of_lt hk, ne_of_lt hk]
  refine le_of_bits fun j hj hxy => ?_
  have hboth : i ≤ j ∧ c.getLsbD j = true := by
    simp only [getLsbD_and, getLsbD_raise a hi, Bool.and_eq_true, decide_eq_true_eq] at hj
    exact ⟨hj.1.1, hj.2⟩
  have hij : i < j := by
    refine lt_of_le_of_ne hboth.1 ?_
    rintro rfl
    rw [hc] at hboth
    cases hboth.2
  rw [habove j hij] at hj
  obtain ⟨k, hk, hne⟩ := h.exists_ne hax hcy (le_of_lt hij) hj hxy
  exact ⟨k, hk, by rwa [habove k (lt_trans hij hk)]⟩

/-- Where nothing is raised at all. -/
theorem AndStuck.le (h : AndStuck a c x y 0) (hax : a ≤ x) (hcy : c ≤ y) : a &&& c ≤ x &&& y :=
  le_of_bits fun j hj hxy => h.exists_ne hax hcy (Nat.zero_le j) hj hxy

/-! ### The loops -/

/-- The bounds of an operation for ranges of its operands: they hold, and each is a value. -/
structure Least (op : ZendULong → ZendULong → ZendULong) (a b c d lo : ZendULong) : Prop where
  le : ∀ x y, a ≤ x → x ≤ b → c ≤ y → y ≤ d → lo ≤ op x y
  attained : ∃ x y, a ≤ x ∧ x ≤ b ∧ c ≤ y ∧ y ≤ d ∧ op x y = lo

/-- The same from above. -/
structure Greatest (op : ZendULong → ZendULong → ZendULong) (a b c d hi : ZendULong) : Prop where
  le : ∀ x y, a ≤ x → x ≤ b → c ≤ y → y ≤ d → op x y ≤ hi
  attained : ∃ x y, a ≤ x ∧ x ≤ b ∧ c ≤ y ∧ y ≤ d ∧ op x y = hi

theorem minORRound_twoPow (hi : i < 64) (a b c d : ZendULong) :
    minORRound a b c d (twoPow 64 i) = if a.getLsbD i = false ∧ c.getLsbD i = true then
        if raise a (twoPow 64 i) ≤ b then some (raise a (twoPow 64 i), c) else none
      else if a.getLsbD i = true ∧ c.getLsbD i = false then
        if raise c (twoPow 64 i) ≤ d then some (a, raise c (twoPow 64 i)) else none
      else none := by
  simp only [minORRound, and_topBit_ne_zero hi, getLsbD_and, getLsbD_not, hi,
    decide_true, Bool.true_and, Bool.and_eq_true, Bool.not_eq_true']
  rfl

theorem orStuck_of_none
    (hnone : ∀ j, i < j → j ≤ 63 → minORRound a b c d (twoPow 64 j) = none) (hax : a ≤ x)
    (hxb : x ≤ b) (hcy : c ≤ y) (hyd : y ≤ d) : OrStuck a c x y i := by
  intro k hk
  by_cases hk64 : k < 64
  · have hround := hnone k hk (Nat.le_of_lt_succ hk64)
    rw [minORRound_twoPow hk64] at hround
    constructor
    · intro ha hc
      rw [if_pos ⟨ha, hc⟩] at hround
      have hlt : x < raise a (twoPow 64 k) := by
        refine BitOrder.lt_of_le_of_lt hxb (BitVec.not_le.mp fun h => ?_)
        rw [if_pos h] at hround
        cases hround
      rw [agree_of_lt_raise hk64 ha hax hlt le_rfl, ha]
    · intro ha hc
      rw [if_neg (by simp [ha]), if_pos ⟨ha, hc⟩] at hround
      have hlt : y < raise c (twoPow 64 k) := by
        refine BitOrder.lt_of_le_of_lt hyd (BitVec.not_le.mp fun h => ?_)
        rw [if_pos h] at hround
        cases hround
      rw [agree_of_lt_raise hk64 hc hcy hlt le_rfl, hc]
  · have hge := le_of_not_gt hk64
    exact ⟨fun _ _ => getLsbD_of_ge x k hge, fun _ _ => getLsbD_of_ge y k hge⟩

theorem minOR_least (hab : a ≤ b) (hcd : c ≤ d) : Least (· ||| ·) a b c d (minOR a b c d) := by
  have hloop := bitLoop_cases (minORRound a b c d) (a, c) (show 63 < 64 by decide)
  rw [minOR, topBit]
  generalize bitLoop (minORRound a b c d) (a, c) (twoPow 64 63) = r at hloop ⊢
  rcases hloop with ⟨i, hi, hround, hnone⟩ | ⟨rfl, hnone⟩
  · have hi64 := Nat.lt_succ_of_le hi
    rw [minORRound_twoPow hi64] at hround
    split_ifs at hround with hbits hle hbits' hle
    · obtain rfl := Option.some.inj hround
      refine ⟨fun x y hax hxb hcy hyd => ?_, _, c, ?_, hle, BitVec.le_refl c, hcd, rfl⟩
      · exact (orStuck_of_none hnone hax hxb hcy hyd).raise_le hax hcy hi64 hbits.2
      · exact BitVec.le_of_lt (lt_raise hi64 hbits.1)
    · obtain rfl := Option.some.inj hround
      refine ⟨fun x y hax hxb hcy hyd => ?_, a, _, BitVec.le_refl a, hab, ?_, hle, rfl⟩
      · have hle := (orStuck_of_none hnone hax hxb hcy hyd).symm.raise_le hcy hax hi64 hbits'.1
        rwa [BitVec.or_comm, BitVec.or_comm y] at hle
      · exact BitVec.le_of_lt (lt_raise hi64 hbits'.2)
  · refine ⟨fun x y hax hxb hcy hyd => ?_, a, c, BitVec.le_refl a, hab, BitVec.le_refl c, hcd, rfl⟩
    exact (orStuck_of_none (fun j _ hj => hnone j hj) hax hxb hcy hyd).le hax hcy

theorem minANDRound_twoPow (hi : i < 64) (a b c d : ZendULong) :
    minANDRound a b c d (twoPow 64 i) = if a.getLsbD i = false ∧ c.getLsbD i = false then
        if raise a (twoPow 64 i) ≤ b then some (raise a (twoPow 64 i), c)
        else if raise c (twoPow 64 i) ≤ d then some (a, raise c (twoPow 64 i))
        else none else none := by
  simp only [minANDRound, and_topBit_ne_zero hi, getLsbD_and, getLsbD_not, hi,
    decide_true, Bool.true_and, Bool.and_eq_true, Bool.not_eq_true']
  rfl

theorem andStuck_of_none
    (hnone : ∀ j, i < j → j ≤ 63 → minANDRound a b c d (twoPow 64 j) = none) (hax : a ≤ x)
    (hxb : x ≤ b) (hcy : c ≤ y) (hyd : y ≤ d) : AndStuck a c x y i := by
  intro k hk ha hc
  by_cases hk64 : k < 64
  · have hround := hnone k hk (Nat.le_of_lt_succ hk64)
    rw [minANDRound_twoPow hk64, if_pos ⟨ha, hc⟩] at hround
    split_ifs at hround with hxle hyle
    have hxlt := BitOrder.lt_of_le_of_lt hxb (BitVec.not_le.mp hxle)
    have hylt := BitOrder.lt_of_le_of_lt hyd (BitVec.not_le.mp hyle)
    rw [agree_of_lt_raise hk64 ha hax hxlt le_rfl, agree_of_lt_raise hk64 hc hcy hylt le_rfl]
    exact ⟨ha, hc⟩
  · have hge := le_of_not_gt hk64
    exact ⟨getLsbD_of_ge x k hge, getLsbD_of_ge y k hge⟩

theorem minAND_least (hab : a ≤ b) (hcd : c ≤ d) : Least (· &&& ·) a b c d (minAND a b c d) := by
  have hloop := bitLoop_cases (minANDRound a b c d) (a, c) (show 63 < 64 by decide)
  rw [minAND, topBit]
  generalize bitLoop (minANDRound a b c d) (a, c) (twoPow 64 63) = r at hloop ⊢
  rcases hloop with ⟨i, hi, hround, hnone⟩ | ⟨rfl, hnone⟩
  · have hi64 := Nat.lt_succ_of_le hi
    rw [minANDRound_twoPow hi64] at hround
    split_ifs at hround with hbits hle hle'
    · obtain rfl := Option.some.inj hround
      refine ⟨fun x y hax hxb hcy hyd => ?_, _, c, ?_, hle, BitVec.le_refl c, hcd, rfl⟩
      · exact (andStuck_of_none hnone hax hxb hcy hyd).raise_le hax hcy hi64 hbits.2
      · exact BitVec.le_of_lt (lt_raise hi64 hbits.1)
    · obtain rfl := Option.some.inj hround
      refine ⟨fun x y hax hxb hcy hyd => ?_, a, _, BitVec.le_refl a, hab, ?_, hle', rfl⟩
      · have hle := (andStuck_of_none hnone hax hxb hcy hyd).symm.raise_le hcy hax hi64 hbits.1
        rwa [BitVec.and_comm, BitVec.and_comm y] at hle
      · exact BitVec.le_of_lt (lt_raise hi64 hbits.2)
  · refine ⟨fun x y hax hxb hcy hyd => ?_, a, c, BitVec.le_refl a, hab, BitVec.le_refl c, hcd, rfl⟩
    exact (andStuck_of_none (fun j _ hj => hnone j hj) hax hxb hcy hyd).le hax hcy

theorem maxORRound_twoPow (hi : i < 64) (a b c d : ZendULong) :
    maxORRound a b c d (twoPow 64 i) = if b.getLsbD i = true ∧ d.getLsbD i = true then
        if a ≤ ~~~raise (~~~b) (twoPow 64 i) then
          some (~~~raise (~~~b) (twoPow 64 i), d)
        else if c ≤ ~~~raise (~~~d) (twoPow 64 i) then
          some (b, ~~~raise (~~~d) (twoPow 64 i)) else none else none := by
  have hcond : b &&& d &&& twoPow 64 i ≠ 0 ↔
      b.getLsbD i = true ∧ d.getLsbD i = true := by
    rw [and_topBit_ne_zero hi, getLsbD_and, Bool.and_eq_true]
  unfold maxORRound
  by_cases hbits : b.getLsbD i = true ∧ d.getLsbD i = true
  · rw [if_pos (hcond.mpr hbits), if_pos hbits, sub_or_eq hbits.1, sub_or_eq hbits.2]
  · rw [if_neg (hcond.not.mpr hbits), if_neg hbits]

/-- The loop of `maxOR` is the one of `minAND` for the complements. -/
theorem maxOR_eq (a b c d : ZendULong) : maxOR a b c d = ~~~minAND (~~~b) (~~~a) (~~~d) (~~~c) := by
  have hround : ∀ i < 64, maxORRound a b c d (twoPow 64 i) =
      (minANDRound (~~~b) (~~~a) (~~~d) (~~~c) (twoPow 64 i)).map
        fun r => (~~~r.1, ~~~r.2) := by
    intro i hi
    have hbit : ∀ z : ZendULong, (~~~z).getLsbD i = false ↔ z.getLsbD i = true := by simp [hi]
    have hle : ∀ y z : ZendULong, y ≤ ~~~z ↔ z ≤ ~~~y := fun y z => by
      rw [← not_le_not_iff, BitVec.not_not]
    rw [maxORRound_twoPow hi, minANDRound_twoPow hi]
    simp only [hbit, hle _ a, hle _ c]
    split_ifs <;> simp
  have hloop := bitLoop_map (fun r => (~~~r.1, ~~~r.2)) hround (~~~b, ~~~d)
    (show 63 < 64 by decide)
  simp only [BitVec.not_not] at hloop
  rw [maxOR, topBit, hloop, minAND, BitVec.not_and]
  rfl

theorem maxOR_greatest (hab : a ≤ b) (hcd : c ≤ d) :
    Greatest (· ||| ·) a b c d (maxOR a b c d) := by
  have h := minAND_least ((not_le_not_iff b a).mpr hab) ((not_le_not_iff d c).mpr hcd)
  rw [maxOR_eq]
  constructor
  · intro x y hax hxb hcy hyd
    have hle := h.le _ _ ((not_le_not_iff b x).mpr hxb) ((not_le_not_iff x a).mpr hax)
      ((not_le_not_iff d y).mpr hyd) ((not_le_not_iff y c).mpr hcy)
    rwa [← not_le_not_iff, BitVec.not_not, BitVec.not_or]
  · obtain ⟨x, y, hbx, hxa, hdy, hyc, hxy⟩ := h.attained
    refine ⟨~~~x, ~~~y, ?_, ?_, ?_, ?_, by rw [← hxy, BitVec.not_and]⟩
    all_goals rwa [← not_le_not_iff, BitVec.not_not]

/-- `b | ~m | (m - 1)` has all bits when `b` has the bit of `m`. -/
theorem or_not_or_eq (hb : b.getLsbD i = true) (z : ZendULong) :
    (b ||| ~~~twoPow 64 i) ||| z = allOnes 64 := by
  apply BitVec.eq_of_getLsbD_eq
  intro j hj
  rw [getLsbD_or, getLsbD_or, getLsbD_not, BitVec.getLsbD_allOnes,
    decide_eq_true hj]
  by_cases hij : i = j
  · rw [← hij, hb, Bool.true_or, Bool.true_or]
  · simp [hij]

theorem le_allOnes (x : ZendULong) : x ≤ allOnes 64 := by
  rw [BitVec.le_def, BitVec.toNat_allOnes]
  omega

theorem zero_le_bits (x : ZendULong) : 0 ≤ x := by
  exact Nat.zero_le _

theorem maxANDRound_twoPow (hi : i < 64) (a b c d : ZendULong) :
    maxANDRound a b c d (twoPow 64 i) =
      if b.getLsbD i = true ∧ d.getLsbD i = false then some (allOnes 64, d)
      else if b.getLsbD i = false ∧ d.getLsbD i = true then some (b, allOnes 64)
      else none := by
  have hcond : ∀ b d : ZendULong, b &&& ~~~d &&& twoPow 64 i ≠ 0 ↔
      b.getLsbD i = true ∧ d.getLsbD i = false := by
    intro b d
    rw [and_topBit_ne_zero hi, getLsbD_and, getLsbD_not, decide_eq_true hi,
      Bool.true_and, Bool.and_eq_true, Bool.not_eq_true']
  unfold maxANDRound
  by_cases h1 : b.getLsbD i = true ∧ d.getLsbD i = false
  · rw [if_pos ((hcond b d).mpr h1), if_pos h1, or_not_or_eq h1.1]
    exact if_pos (le_allOnes a)
  rw [if_neg ((hcond b d).not.mpr h1), if_neg h1, BitVec.and_comm (~~~b) d]
  by_cases h2 : b.getLsbD i = false ∧ d.getLsbD i = true
  · rw [if_pos ((hcond d b).mpr h2.symm), if_pos h2, or_not_or_eq h2.2]
    exact if_pos (le_allOnes c)
  · rw [if_neg ((hcond d b).not.mpr fun h => h2 h.symm), if_neg h2]

theorem eq_of_maxANDRound (hi : i < 64)
    (hround : maxANDRound a b c d (twoPow 64 i) = none) : b.getLsbD i = d.getLsbD i := by
  rw [maxANDRound_twoPow hi] at hround
  split_ifs at hround with h1 h2
  cases hb : b.getLsbD i <;> cases hd : d.getLsbD i
  · rfl
  · exact absurd ⟨hb, hd⟩ h2
  · exact absurd ⟨hb, hd⟩ h1
  · rfl

/-- In the highest bit in which `b` and `d` differ the greater one gets all bits. -/
theorem maxAND_eq (a b c d : ZendULong) : maxAND a b c d = if b ≤ d then b else d := by
  have hloop := bitLoop_cases (maxANDRound a b c d) (b, d) (show 63 < 64 by decide)
  rw [maxAND, topBit]
  generalize bitLoop (maxANDRound a b c d) (b, d) (twoPow 64 63) = r at hloop ⊢
  rcases hloop with ⟨i, hi, hround, hnone⟩ | ⟨rfl, hnone⟩
  · have hagree : ∀ j, i < j → b.getLsbD j = d.getLsbD j := by
      intro j hj
      by_cases hj64 : j < 64
      · exact eq_of_maxANDRound hj64 (hnone j hj (Nat.le_of_lt_succ hj64))
      · have hge := le_of_not_gt hj64
        rw [getLsbD_of_ge b j hge, getLsbD_of_ge d j hge]
    rw [maxANDRound_twoPow (Nat.lt_succ_of_le hi)] at hround
    split_ifs at hround with hbits hbits'
    · have hlt : d < b :=
        (lt_iff_bit d b).mpr ⟨i, hbits.2, hbits.1, fun j hj => (hagree j hj).symm⟩
      obtain rfl := Option.some.inj hround
      rw [if_neg (BitVec.not_le.mpr hlt)]
      exact BitVec.allOnes_and
    · have hlt : b < d := (lt_iff_bit b d).mpr ⟨i, hbits'.1, hbits'.2, hagree⟩
      obtain rfl := Option.some.inj hround
      rw [if_pos (BitVec.le_of_lt hlt)]
      exact BitVec.and_allOnes
  · have heq : b = d := BitVec.eq_of_getLsbD_eq fun j hj =>
      eq_of_maxANDRound hj (hnone j (Nat.le_of_lt_succ hj))
    rw [heq, if_pos (BitVec.le_refl d)]
    exact BitVec.and_self

theorem and_le_left (x y : ZendULong) : x &&& y ≤ x := by
  exact Nat.and_le_left

theorem and_le_right (x y : ZendULong) : x &&& y ≤ y := by
  exact Nat.and_le_right

theorem le_or_left (x y : ZendULong) : x ≤ x ||| y := by
  exact Nat.left_le_or

theorem le_or_right (x y : ZendULong) : y ≤ x ||| y := by
  exact Nat.right_le_or

theorem and_le_maxAND (a c : ZendULong) (hxb : x ≤ b) (hyd : y ≤ d) : x &&& y ≤ maxAND a b c d := by
  rw [maxAND_eq]
  split_ifs
  · exact BitVec.le_trans (and_le_left x y) hxb
  · exact BitVec.le_trans (and_le_right x y) hyd

/-- A number in the range of the greater one of `b` and `d` has all bits of the other. -/
def Covers (a b c d : ZendULong) : Prop :=
  (b ≤ d ∧ ∃ y, c ≤ y ∧ y ≤ d ∧ b &&& y = b) ∨ (d < b ∧ ∃ x, a ≤ x ∧ x ≤ b ∧ x &&& d = d)

theorem maxAND_greatest_iff (hab : a ≤ b) (hcd : c ≤ d) :
    Greatest (· &&& ·) a b c d (maxAND a b c d) ↔ Covers a b c d := by
  constructor
  · rintro ⟨-, x, y, hax, hxb, hcy, hyd, hxy⟩
    simp only [maxAND_eq] at hxy
    split_ifs at hxy with hbd
    · refine .inl ⟨hbd, y, hcy, hyd, ?_⟩
      rw [← hxy, BitVec.and_assoc, BitVec.and_self]
    · refine .inr ⟨BitVec.not_le.mp hbd, x, hax, hxb, ?_⟩
      rw [← hxy, ← BitVec.and_assoc, BitVec.and_self]
  · intro h
    refine ⟨fun x y _ hxb _ hyd => and_le_maxAND a c hxb hyd, ?_⟩
    rw [maxAND_eq]
    rcases h with ⟨hbd, y, hcy, hyd, hy⟩ | ⟨hdb, x, hax, hxb, hx⟩
    · rw [if_pos hbd]
      exact ⟨b, y, hab, BitVec.le_refl b, hcy, hyd, hy⟩
    · rw [if_neg (BitVec.not_le.mpr hdb)]
      exact ⟨x, d, hax, hxb, hcd, BitVec.le_refl d, hx⟩

/-! ## Signed ranges -/

/-- A value is in a range. -/
def Contains (r : ZendSsaRange) (v : ZendULong) : Prop :=
  r.min.toInt ≤ v.toInt ∧ v.toInt ≤ r.max.toInt

theorem toInt_or_neg (x y : ZendULong) : (x ||| y).toInt < 0 ↔ x.toInt < 0 ∨ y.toInt < 0 := by
  have h := @BitVec.msb_or 64 x y
  simp only [BitVec.msb_eq_toInt, ← Bool.decide_or, decide_eq_decide] at h
  exact h

theorem toInt_and_neg (x y : ZendULong) : (x &&& y).toInt < 0 ↔ x.toInt < 0 ∧ y.toInt < 0 := by
  have h := @BitVec.msb_and 64 x y
  simp only [BitVec.msb_eq_toInt, ← Bool.decide_and, decide_eq_decide] at h
  exact h

/-- The orders agree on numbers of the same sign, and a negative number is greater than the others
without its sign. -/
theorem le_iff_toInt (x y : ZendULong) :
    x ≤ y ↔ (x.toInt ≤ y.toInt ∧ (x.toInt < 0 ↔ y.toInt < 0)) ∨ (0 ≤ x.toInt ∧ y.toInt < 0) := by
  rw [BitVec.le_def, toInt_eq_toNat_cond, toInt_eq_toNat_cond]
  split_ifs <;> omega

/-- The bounds of a range have the same sign. -/
def SameSign (a b : ZendULong) : Prop := a.toInt < 0 ↔ b.toInt < 0

/-- A signed range of numbers of one sign is an unsigned one. -/
theorem SameSign.le (h : SameSign a b) (hax : a.toInt ≤ x.toInt) (hxb : x.toInt ≤ b.toInt) :
    a ≤ x ∧ x ≤ b := by
  unfold SameSign at h
  constructor <;> rw [le_iff_toInt] <;> omega

theorem SameSign.neg_iff (h : SameSign a b) (hax : a ≤ x) (hxb : x ≤ b) :
    x.toInt < 0 ↔ a.toInt < 0 := by
  unfold SameSign at h
  rw [le_iff_toInt] at hax hxb
  omega

/-- Two ranges, each of numbers of one sign. -/
structure InRanges (a b c d x y : ZendULong) : Prop where
  ab : SameSign a b
  cd : SameSign c d
  ax : a.toInt ≤ x.toInt
  xb : x.toInt ≤ b.toInt
  cy : c.toInt ≤ y.toInt
  yd : y.toInt ≤ d.toInt

/-- As unsigned ranges; what their numbers give has the signs that the bounds give. -/
theorem InRanges.unsigned (h : InRanges a b c d x y) :
    (a ≤ x ∧ x ≤ b ∧ c ≤ y ∧ y ≤ d) ∧ a ≤ b ∧ c ≤ d ∧ ∀ u v, a ≤ u → u ≤ b → c ≤ v → v ≤ d →
        ((u ||| v).toInt < 0 ↔ a.toInt < 0 ∨ c.toInt < 0) ∧
          ((u &&& v).toInt < 0 ↔ a.toInt < 0 ∧ c.toInt < 0) := by
  obtain ⟨hax, hxb⟩ := h.ab.le h.ax h.xb
  obtain ⟨hcy, hyd⟩ := h.cd.le h.cy h.yd
  refine ⟨⟨hax, hxb, hcy, hyd⟩, BitVec.le_trans hax hxb, BitVec.le_trans hcy hyd,
    fun u v hau hub hcv hvd => ?_⟩
  rw [toInt_or_neg, toInt_and_neg, h.ab.neg_iff hau hub, h.cd.neg_iff hcv hvd]
  exact ⟨Iff.rfl, Iff.rfl⟩

theorem InRanges.minOR_le (h : InRanges a b c d x y) : (minOR a b c d).toInt ≤ (x ||| y).toInt ∧
      ((minOR a b c d).toInt < 0 ↔ a.toInt < 0 ∨ c.toInt < 0) := by
  obtain ⟨⟨hax, hxb, hcy, hyd⟩, hab, hcd, hsign⟩ := h.unsigned
  obtain ⟨hle, u, v, hau, hub, hcv, hvd, huv⟩ := minOR_least hab hcd
  have hle := hle x y hax hxb hcy hyd
  have hxy := (hsign x y hax hxb hcy hyd).1
  have hneg := (hsign u v hau hub hcv hvd).1
  rw [huv] at hneg
  simp only [le_iff_toInt] at hle
  omega

theorem InRanges.le_maxOR (h : InRanges a b c d x y) : (x ||| y).toInt ≤ (maxOR a b c d).toInt ∧
      ((maxOR a b c d).toInt < 0 ↔ a.toInt < 0 ∨ c.toInt < 0) := by
  obtain ⟨⟨hax, hxb, hcy, hyd⟩, hab, hcd, hsign⟩ := h.unsigned
  obtain ⟨hle, u, v, hau, hub, hcv, hvd, huv⟩ := maxOR_greatest hab hcd
  have hle := hle x y hax hxb hcy hyd
  have hxy := (hsign x y hax hxb hcy hyd).1
  have hneg := (hsign u v hau hub hcv hvd).1
  rw [huv] at hneg
  simp only [le_iff_toInt] at hle
  omega

theorem InRanges.minAND_le (h : InRanges a b c d x y) : (minAND a b c d).toInt ≤ (x &&& y).toInt ∧
      ((minAND a b c d).toInt < 0 ↔ a.toInt < 0 ∧ c.toInt < 0) := by
  obtain ⟨⟨hax, hxb, hcy, hyd⟩, hab, hcd, hsign⟩ := h.unsigned
  obtain ⟨hle, u, v, hau, hub, hcv, hvd, huv⟩ := minAND_least hab hcd
  have hle := hle x y hax hxb hcy hyd
  have hxy := (hsign x y hax hxb hcy hyd).2
  have hneg := (hsign u v hau hub hcv hvd).2
  rw [huv] at hneg
  simp only [le_iff_toInt] at hle
  omega

/-- The classes: both signs of the second range have the same weight, so that it is only seen
whether the range has a negative number. -/
theorem signs_cases (hab : a.toInt ≤ b.toInt) (hcd : c.toInt ≤ d.toInt) :
    (signs a b c d = 0x0 ∧ 0 ≤ a.toInt ∧ 0 ≤ c.toInt) ∨
    (signs a b c d = 0x2 ∧ 0 ≤ a.toInt ∧ c.toInt < 0) ∨
    (signs a b c d = 0x8 ∧ a.toInt < 0 ∧ 0 ≤ b.toInt ∧ 0 ≤ c.toInt) ∨
    (signs a b c d = 0xa ∧ a.toInt < 0 ∧ 0 ≤ b.toInt ∧ c.toInt < 0) ∨
    (signs a b c d = 0xc ∧ b.toInt < 0 ∧ 0 ≤ c.toInt) ∨
    (signs a b c d = 0xe ∧ b.toInt < 0 ∧ c.toInt < 0) := by
  have hzero : (0 : ZendULong).toInt = 0 := rfl
  simp only [signs, BitVec.slt, hzero, decide_eq_true_eq]
  split_ifs <;> simp only [Nat.reduceOr, Nat.reduceEqDiff, false_and, true_and, or_false,
    false_or] <;> omega

theorem or_facts (x y : ZendULong) : ((x ||| y).toInt < 0 ↔ x.toInt < 0 ∨ y.toInt < 0) ∧
      (x.toInt < 0 → x.toInt ≤ (x ||| y).toInt) ∧ (y.toInt < 0 → y.toInt ≤ (x ||| y).toInt) := by
  have hneg := toInt_or_neg x y
  have hx := (le_iff_toInt _ _).mp (le_or_left x y)
  have hy := (le_iff_toInt _ _).mp (le_or_right x y)
  omega

theorem and_facts (x y : ZendULong) : ((x &&& y).toInt < 0 ↔ x.toInt < 0 ∧ y.toInt < 0) ∧
      (0 ≤ x.toInt → (x &&& y).toInt ≤ x.toInt) ∧ (0 ≤ y.toInt → (x &&& y).toInt ≤ y.toInt) := by
  have hneg := toInt_and_neg x y
  have hx := (le_iff_toInt _ _).mp (and_le_left x y)
  have hy := (le_iff_toInt _ _).mp (and_le_right x y)
  omega

/-- The class of a range with both signs and a negative one, which is taken for the one of two
ranges with both signs, where no two numbers make up for each other's zeros. -/
def Mislabelled (a b d : ZendULong) : Prop :=
  a.toInt < 0 ∧ 0 ≤ b.toInt ∧ d.toInt < 0 ∧ b.toInt + d.toInt < -1

theorem toInt_zero : (0 : ZendULong).toInt = 0 := rfl

theorem toInt_neg_one : (-1 : ZendULong).toInt = -1 := rfl

/-- The bound of `x | y` for `x` from 0 to `b` and `y` from 0 to a negative `d`. -/
theorem maxOR_zero_eq (hb : 0 ≤ b.toInt) (hd : d.toInt < 0) (hbd : -1 ≤ b.toInt + d.toInt) :
    (maxOR 0 b 0 d).toInt = -1 := by
  have hnot : ~~~b ≤ d := by
    rw [toInt_eq_toNat_cond] at hb hd hbd
    rw [toInt_eq_toNat_cond] at hbd
    rw [BitVec.le_def, BitVec.toNat_not]
    split_ifs at hb hd hbd <;> omega
  have hle : b ||| ~~~b ≤ maxOR 0 b 0 d := (maxOR_greatest (zero_le_bits b) (zero_le_bits d)).le b
    (~~~b) (zero_le_bits b) (BitVec.le_refl b) (zero_le_bits _) hnot
  rw [BitVec.or_not_self] at hle
  rw [BitVec.le_antisymm (le_allOnes _) hle]
  rfl

/-- A negative value stays below the bound of unsigned ranges. -/
theorem toInt_le_maxOR (hax : a ≤ x) (hxb : x ≤ b) (hcy : c ≤ y) (hyd : y ≤ d)
    (hneg : (x ||| y).toInt < 0) : (x ||| y).toInt ≤ (maxOR a b c d).toInt := by
  have hle := (maxOR_greatest (BitVec.le_trans hax hxb) (BitVec.le_trans hcy hyd)).le x y hax hxb
    hcy hyd
  simp only [le_iff_toInt] at hle
  omega

theorem minLong_le (a b : ZendULong) :
    (minLong a b).toInt ≤ a.toInt ∧ (minLong a b).toInt ≤ b.toInt := by
  unfold minLong
  simp only [BitVec.slt, decide_eq_true_eq]
  split_ifs <;> omega

theorem le_maxLong (a b : ZendULong) :
    a.toInt ≤ (maxLong a b).toInt ∧ b.toInt ≤ (maxLong a b).toInt := by
  unfold maxLong
  simp only [BitVec.slt, decide_eq_true_eq]
  split_ifs <;> omega

theorem sameSign_of_nonneg (ha : 0 ≤ a.toInt) (hb : 0 ≤ b.toInt) : SameSign a b := by
  unfold SameSign
  omega

theorem sameSign_of_neg (ha : a.toInt < 0) (hb : b.toInt < 0) : SameSign a b := by
  unfold SameSign
  omega

theorem zendSsaRangeOr_contains (hab : a.toInt ≤ b.toInt) (hcd : c.toInt ≤ d.toInt)
    (hclass : ¬ Mislabelled a b d) (tmp : ZendSsaRange)
    (hax : a.toInt ≤ x.toInt) (hxb : x.toInt ≤ b.toInt) (hcy : c.toInt ≤ y.toInt)
    (hyd : y.toInt ≤ d.toInt) : Contains (zendSsaRangeOr a b c d tmp) (x ||| y) := by
  obtain ⟨hneg, hx, hy⟩ := or_facts x y
  have h0 := toInt_zero
  have h1 := toInt_neg_one
  unfold Contains zendSsaRangeOr
  rcases signs_cases hab hcd with ⟨hs, ha, hc⟩ | ⟨hs, ha, hc⟩ | ⟨hs, ha, hb, hc⟩ |
    ⟨hs, ha, hb, hc⟩ | ⟨hs, hb, hc⟩ | ⟨hs, hb, hc⟩
  · rw [hs]
    have hsab := sameSign_of_nonneg ha (by omega : 0 ≤ b.toInt)
    have hscd := sameSign_of_nonneg hc (by omega : 0 ≤ d.toInt)
    have h := InRanges.mk hsab hscd hax hxb hcy hyd
    exact ⟨h.minOR_le.1, h.le_maxOR.1⟩
  · rw [hs]
    show (minOR a b c (-1)).toInt ≤ (x ||| y).toInt ∧ (x ||| y).toInt ≤ (maxOR a b 0 d).toInt
    have hsab := sameSign_of_nonneg ha (by omega : 0 ≤ b.toInt)
    have hsc1 := sameSign_of_neg hc (by omega : (-1 : ZendULong).toInt < 0)
    constructor
    · by_cases hy0 : y.toInt < 0
      · exact (InRanges.mk hsab hsc1 hax hxb hcy (by omega)).minOR_le.1
      · have hmin := (InRanges.mk hsab hsc1 hax hxb (Int.le_refl _) (by omega)).minOR_le.2
        omega
    · by_cases hd : d.toInt < 0
      · have hscd := sameSign_of_neg hc hd
        exact toInt_le_maxOR (hsab.le hax hxb).1 (hsab.le hax hxb).2 (zero_le_bits y)
          (hscd.le hcy hyd).2 (by omega)
      · have hs0d := sameSign_of_nonneg (by omega : 0 ≤ (0 : ZendULong).toInt) (Int.not_lt.mp hd)
        by_cases hy0 : y.toInt < 0
        · have hmax := (InRanges.mk hsab hs0d hax hxb (Int.le_refl _) (by omega)).le_maxOR.2
          omega
        · exact (InRanges.mk hsab hs0d hax hxb (by omega) hyd).le_maxOR.1
  · rw [hs]
    show (minOR a (-1) c d).toInt ≤ (x ||| y).toInt ∧ (x ||| y).toInt ≤ (maxOR 0 b c d).toInt
    have hscd := sameSign_of_nonneg hc (by omega : 0 ≤ d.toInt)
    have hsa1 := sameSign_of_neg ha (by omega : (-1 : ZendULong).toInt < 0)
    have hs0b := sameSign_of_nonneg (by omega : 0 ≤ (0 : ZendULong).toInt) hb
    by_cases hx0 : x.toInt < 0
    · have hmin := (InRanges.mk hsa1 hscd hax (by omega) hcy hyd).minOR_le
      have hmax := (InRanges.mk hs0b hscd (Int.le_refl _) (by omega) hcy hyd).le_maxOR.2
      omega
    · have hmin := (InRanges.mk hsa1 hscd (Int.le_refl _) (by omega) hcy hyd).minOR_le.2
      have hmax := (InRanges.mk hs0b hscd (by omega) hxb hcy hyd).le_maxOR.1
      omega
  · rw [hs]
    show (minLong a c).toInt ≤ (x ||| y).toInt ∧ (x ||| y).toInt ≤ (maxOR 0 b 0 d).toInt
    have hmin := minLong_le a c
    refine ⟨by omega, ?_⟩
    by_cases hd : d.toInt < 0
    · have hbd : -1 ≤ b.toInt + d.toInt := by
        by_contra h
        exact hclass ⟨ha, hb, hd, Int.not_le.mp h⟩
      have hmax := maxOR_zero_eq hb hd hbd
      omega
    · have hs0b := sameSign_of_nonneg (by omega : 0 ≤ (0 : ZendULong).toInt) hb
      have hs0d := sameSign_of_nonneg (by omega : 0 ≤ (0 : ZendULong).toInt) (Int.not_lt.mp hd)
      by_cases hxy : x.toInt < 0 ∨ y.toInt < 0
      · have hmax := (InRanges.mk hs0b hs0d (Int.le_refl _) (by omega) (Int.le_refl _)
          (by omega)).le_maxOR.2
        omega
      · exact (InRanges.mk hs0b hs0d (by omega) hxb (by omega) hyd).le_maxOR.1
  · rw [hs]
    have hsab := sameSign_of_neg (by omega : a.toInt < 0) hb
    have hscd := sameSign_of_nonneg hc (by omega : 0 ≤ d.toInt)
    have h := InRanges.mk hsab hscd hax hxb hcy hyd
    exact ⟨h.minOR_le.1, h.le_maxOR.1⟩
  · rw [hs]
    show a.toInt ≤ (x ||| y).toInt ∧ (x ||| y).toInt ≤ (-1 : ZendULong).toInt
    omega

theorem zendSsaRangeAnd_contains (hab : a.toInt ≤ b.toInt) (hcd : c.toInt ≤ d.toInt)
    (tmp : ZendSsaRange) (hax : a.toInt ≤ x.toInt) (hxb : x.toInt ≤ b.toInt)
    (hcy : c.toInt ≤ y.toInt) (hyd : y.toInt ≤ d.toInt) :
    Contains (zendSsaRangeAnd a b c d tmp) (x &&& y) := by
  obtain ⟨hneg, hx, hy⟩ := and_facts x y
  have h0 := toInt_zero
  have h1 := toInt_neg_one
  unfold Contains zendSsaRangeAnd
  rcases signs_cases hab hcd with ⟨hs, ha, hc⟩ | ⟨hs, ha, hc⟩ | ⟨hs, ha, hb, hc⟩ |
    ⟨hs, ha, hb, hc⟩ | ⟨hs, hb, hc⟩ | ⟨hs, hb, hc⟩
  · rw [hs]
    show (minAND a b c d).toInt ≤ (x &&& y).toInt ∧ (x &&& y).toInt ≤ (maxAND a b c d).toInt
    have hsab := sameSign_of_nonneg ha (by omega : 0 ≤ b.toInt)
    have hscd := sameSign_of_nonneg hc (by omega : 0 ≤ d.toInt)
    refine ⟨(InRanges.mk hsab hscd hax hxb hcy hyd).minAND_le.1, ?_⟩
    rw [maxAND_eq]
    split_ifs <;> omega
  · rw [hs]
    show (0 : ZendULong).toInt ≤ (x &&& y).toInt ∧ (x &&& y).toInt ≤ b.toInt
    omega
  · rw [hs]
    show (0 : ZendULong).toInt ≤ (x &&& y).toInt ∧ (x &&& y).toInt ≤ d.toInt
    omega
  · rw [hs]
    show (minAND a (-1) c (-1)).toInt ≤ (x &&& y).toInt ∧ (x &&& y).toInt ≤ (maxLong b d).toInt
    have hmax := le_maxLong b d
    have hsa1 := sameSign_of_neg ha (by omega : (-1 : ZendULong).toInt < 0)
    have hsc1 := sameSign_of_neg hc (by omega : (-1 : ZendULong).toInt < 0)
    refine ⟨?_, by omega⟩
    by_cases hxy : x.toInt < 0 ∧ y.toInt < 0
    · exact (InRanges.mk hsa1 hsc1 hax (by omega) hcy (by omega)).minAND_le.1
    · have hmin := (InRanges.mk hsa1 hsc1 (Int.le_refl _) (by omega) (Int.le_refl _)
        (by omega)).minAND_le.2
      omega
  · rw [hs]
    have hsab := sameSign_of_neg (by omega : a.toInt < 0) hb
    have hscd := sameSign_of_nonneg hc (by omega : 0 ≤ d.toInt)
    refine ⟨(InRanges.mk hsab hscd hax hxb hcy hyd).minAND_le.1, ?_⟩
    simp only [maxAND_eq, le_iff_toInt]
    split_ifs <;> omega
  · rw [hs]
    show (minAND a b c (-1)).toInt ≤ (x &&& y).toInt ∧ (x &&& y).toInt ≤ (maxAND a b 0 d).toInt
    have hsab := sameSign_of_neg (by omega : a.toInt < 0) hb
    have hsc1 := sameSign_of_neg hc (by omega : (-1 : ZendULong).toInt < 0)
    constructor
    · by_cases hy0 : y.toInt < 0
      · exact (InRanges.mk hsab hsc1 hax hxb hcy (by omega)).minAND_le.1
      · have hmin := (InRanges.mk hsab hsc1 hax hxb (Int.le_refl _) (by omega)).minAND_le.2
        omega
    · have hxle := and_le_left x y
      have hyle := and_le_right x y
      rw [le_iff_toInt] at hxle hyle
      simp only [maxAND_eq, le_iff_toInt]
      split_ifs <;> omega

/-- Two numbers that have all bits between them make up for each other's zeros. -/
theorem not_le_of_or_eq (h : x ||| y = allOnes 64) : ~~~x ≤ y := by
  have hand : ~~~x &&& y = ~~~x := by
    apply BitVec.eq_of_getLsbD_eq
    intro i hi
    have hbit := congrArg (fun z => z.getLsbD i) h
    simp only [getLsbD_or, BitVec.getLsbD_allOnes, decide_eq_true hi] at hbit
    rw [getLsbD_and, getLsbD_not, decide_eq_true hi]
    cases hx : x.getLsbD i with
    | false => simpa [hx] using hbit
    | true => rfl
  rw [← hand]
  exact and_le_right _ y

/-- All ones are a value of the mislabelled class, and not in its range. -/
theorem not_contains_of_mislabelled (hcd : c.toInt ≤ d.toInt) (h : Mislabelled a b d)
    (tmp : ZendSsaRange) : ¬ Contains (zendSsaRangeOr a b c d tmp) (-1 ||| d) := by
  obtain ⟨ha, hb, hd, hbd⟩ := h
  have hs : signs a b c d = 0xa := by
    have hcases := signs_cases (a := a) (b := b) (by omega) hcd
    omega
  rintro ⟨-, hmax⟩
  unfold zendSsaRangeOr at hmax
  rw [hs] at hmax
  have hmax : ((-1 : ZendULong) ||| d).toInt ≤ (maxOR 0 b 0 d).toInt := hmax
  obtain ⟨hle, x, y, -, hxb, -, hyd, hxy⟩ :=
    maxOR_greatest (zero_le_bits b) (zero_le_bits d)
  have hdle : d ≤ maxOR 0 b 0 d :=
    BitVec.le_trans (le_or_right 0 d)
      (hle 0 d (BitVec.le_refl _) (zero_le_bits b) (zero_le_bits d) (BitVec.le_refl d))
  have hall : (-1 : ZendULong) ||| d = -1 := BitVec.allOnes_or
  have hones : maxOR 0 b 0 d = allOnes 64 := by
    refine BitVec.eq_of_toInt_eq ?_
    have h1 : (allOnes 64).toInt = -1 := rfl
    rw [hall, toInt_neg_one] at hmax
    rw [le_iff_toInt] at hdle
    omega
  have hnot := BitVec.le_trans (not_le_of_or_eq (hxy.trans hones)) hyd
  rw [toInt_eq_toNat_cond] at hb hd hbd
  rw [toInt_eq_toNat_cond] at hbd
  rw [BitVec.le_def, BitVec.toNat_not] at hnot
  rw [BitVec.le_def] at hxb
  split_ifs at hb hd hbd <;> omega

/-- The bounds are those of all values for unsigned ranges, but `maxAND` is a value only when one of
the ranges has a number with all bits of the end of the other; and the signed ranges have all
values, but for the class that is taken for another. -/
theorem range_bounds_iff {a b c d : ZendULong} (hab : a ≤ b) (hcd : c ≤ d) {sa sb sc sd : ZendULong}
    (hsab : sa.toInt ≤ sb.toInt) (hscd : sc.toInt ≤ sd.toInt) (tmp : ZendSsaRange) :
    ((Least (· ||| ·) a b c d (minOR a b c d) ∧ Greatest (· ||| ·) a b c d (maxOR a b c d) ∧
        Least (· &&& ·) a b c d (minAND a b c d) ∧ Greatest (· &&& ·) a b c d (maxAND a b c d)) ↔
      Covers a b c d) ∧
    ((∀ x y : ZendULong, sa.toInt ≤ x.toInt → x.toInt ≤ sb.toInt → sc.toInt ≤ y.toInt →
        y.toInt ≤ sd.toInt → Contains (zendSsaRangeOr sa sb sc sd tmp) (x ||| y) ∧
          Contains (zendSsaRangeAnd sa sb sc sd tmp) (x &&& y)) ↔ ¬ Mislabelled sa sb sd) := by
  constructor
  · rw [← maxAND_greatest_iff hab hcd]
    exact ⟨fun h => h.2.2.2,
      fun h => ⟨minOR_least hab hcd, maxOR_greatest hab hcd, minAND_least hab hcd, h⟩⟩
  · constructor
    · intro h hclass
      have ha := hclass.1
      have hb := hclass.2.1
      have h1 := toInt_neg_one
      exact not_contains_of_mislabelled hscd hclass tmp
        (h (-1) sd (by omega) (by omega) hscd (Int.le_refl _)).1
    · intro hclass x y hax hxb hcy hyd
      exact ⟨zendSsaRangeOr_contains hsab hscd hclass tmp hax hxb hcy hyd,
        zendSsaRangeAnd_contains hsab hscd tmp hax hxb hcy hyd⟩

/-- Ranges for which all bounds are right. -/
theorem range_bounds_four_seven :
    (Least (· ||| ·) 4 7 1 2 (minOR 4 7 1 2) ∧ Greatest (· ||| ·) 4 7 1 2 (maxOR 4 7 1 2) ∧
        Least (· &&& ·) 4 7 1 2 (minAND 4 7 1 2) ∧ Greatest (· &&& ·) 4 7 1 2 (maxAND 4 7 1 2)) ∧
      ∀ x y : ZendULong, (-3 : ZendULong).toInt ≤ x.toInt → x.toInt ≤ (5 : ZendULong).toInt →
        (-2 : ZendULong).toInt ≤ y.toInt → y.toInt ≤ (9 : ZendULong).toInt →
        Contains (zendSsaRangeOr (-3) 5 (-2) 9 ⟨0, 0, false, false⟩) (x ||| y) ∧
          Contains (zendSsaRangeAnd (-3) 5 (-2) 9 ⟨0, 0, false, false⟩) (x &&& y) :=
  have h := range_bounds_iff (a := 4) (b := 7) (c := 1) (d := 2) (by decide) (by decide)
    (show (-3 : ZendULong).toInt ≤ (5 : ZendULong).toInt by decide)
    (show (-2 : ZendULong).toInt ≤ (9 : ZendULong).toInt by decide) ⟨0, 0, false, false⟩
  ⟨h.1.mpr (.inr ⟨by decide, 6, by decide, by decide, by decide⟩),
    h.2.mpr fun hclass => absurd hclass.2.2.1 (by decide)⟩

/-- `maxAND(1, 1, 2, 2)` is 1, and the range for -1 | -8, with -1 to 0 on the left, ends at -8. -/
theorem range_bounds_one_two : ¬ Greatest (· &&& ·) 1 1 2 2 (maxAND 1 1 2 2) ∧
      ¬ Contains (zendSsaRangeOr (-1) 0 (-8) (-8) ⟨0, 0, false, false⟩) (-1 ||| -8) := by
  constructor
  · rw [maxAND_greatest_iff (by decide) (by decide)]
    rintro (⟨-, y, hy, hy', hbits⟩ | ⟨hlt, -⟩)
    · obtain rfl := BitVec.le_antisymm hy' hy
      exact absurd hbits (by decide)
    · exact absurd hlt (by decide)
  · exact not_contains_of_mislabelled (Int.le_refl _)
      ⟨by decide, by decide, by decide, by decide⟩ ⟨0, 0, false, false⟩

end ZendInference
