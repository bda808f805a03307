/-
# Decimal numbers

Printing a number from its last digit on, and reading digits from the first on with a
multiplication by ten for each.  The value is read in any ring, so that a machine word
that wraps is read as well.
-/
import Mathlib.Data.List.Basic
import Mathlib.Data.List.Induction
import Mathlib.Data.List.TakeWhile
import Mathlib.Tactic.Ring
import ReadingCode.Bytes

namespace Decimal

open List

/-- The byte of a digit. -/
def digit (d : ℕ) : UInt8 := UInt8.ofNat (48 + d)

/-- A byte from `'0'` to `'9'`. -/
abbrev IsDigit (b : UInt8) : Prop := 48 ≤ b ∧ b ≤ 57

/-- Prints `num` in front of `buf`, the last digit first. -/
def printFrom : ℕ → ℕ → Bytes → Bytes
  | 0, _, buf => buf
  | fuel + 1, num, buf =>
    if num / 10 = 0 then digit (num % 10) :: buf
    else printFrom fuel (num / 10) (digit (num % 10) :: buf)

/-- The digits of a number. -/
def print (num : ℕ) : Bytes := printFrom (num + 1) num []

variable {d : ℕ}

theorem toNat_digit (hd : d < 10) : (digit d).toNat = 48 + d := by
  rw [digit, UInt8.toNat_ofNat']
  omega

theorem isDigit_digit (hd : d < 10) : IsDigit (digit d) := by
  rw [IsDigit, UInt8.le_iff_toNat_le, UInt8.le_iff_toNat_le, toNat_digit hd]
  have h0 : (48 : UInt8).toNat = 48 := rfl
  have h9 : (57 : UInt8).toNat = 57 := rfl
  omega

/-- The printed part stands in front of the buffer, is not empty, and has digits only. -/
theorem printFrom_eq (fuel num : ℕ) (buf : Bytes) (hf : num < fuel) :
    ∃ ds, printFrom fuel num buf = ds ++ buf ∧ ds ≠ [] ∧ ∀ b ∈ ds, IsDigit b := by
  induction fuel generalizing num buf with
  | zero => omega
  | succ fuel ih =>
    have hd : IsDigit (digit (num % 10)) := isDigit_digit (Nat.mod_lt num (by decide))
    rw [printFrom]
    split
    · refine ⟨[digit (num % 10)], rfl, by simp, fun b hb => ?_⟩
      rw [mem_singleton.mp hb]
      exact hd
    · obtain ⟨ds, heq, -, hds⟩ := ih (num / 10) (digit (num % 10) :: buf) (by omega)
      refine ⟨ds ++ [digit (num % 10)], by simpa using heq, by simp, fun b hb => ?_⟩
      rcases mem_append.mp hb with hb | hb
      · exact hds b hb
      · rw [mem_singleton.mp hb]
        exact hd

theorem print_ne_nil (num : ℕ) : print num ≠ [] := by
  obtain ⟨ds, heq, hne, -⟩ := printFrom_eq (num + 1) num [] (Nat.lt_succ_self num)
  rw [print, heq, append_nil]
  exact hne

variable {num : ℕ} {b : UInt8}

theorem isDigit_of_mem_print (hb : b ∈ print num) : IsDigit b := by
  obtain ⟨ds, heq, -, hds⟩ := printFrom_eq (num + 1) num [] (Nat.lt_succ_self num)
  rw [print, heq, append_nil] at hb
  exact hds b hb

/-! ## Reading -/

variable {R : Type*} [CommSemiring R]

/-- One more digit. -/
def addDigit (acc : R) (b : UInt8) : R := acc * 10 + ((b.toNat - 48 : ℕ) : R)

theorem foldl_printFrom (fuel num : ℕ) (buf : Bytes) (hf : num < fuel) :
    (printFrom fuel num buf).foldl addDigit (0 : R) = buf.foldl addDigit (num : R) := by
  induction fuel generalizing num buf with
  | zero => omega
  | succ fuel ih =>
    have hd : (digit (num % 10)).toNat - 48 = num % 10 := by
      rw [toNat_digit (Nat.mod_lt num (by decide))]
      omega
    rw [printFrom]
    split
    · rw [foldl_cons, addDigit, hd, zero_mul, zero_add, Nat.mod_eq_of_lt (by omega)]
    · rw [ih _ _ (by omega), foldl_cons, addDigit, hd]
      congr 1
      calc ((num / 10 : ℕ) : R) * 10 + ((num % 10 : ℕ) : R)
          = ((num / 10 * 10 + num % 10 : ℕ) : R) := by push_cast; rfl
        _ = (num : R) := by rw [Nat.div_add_mod']

/-- What is printed is read back. -/
theorem foldl_print (num : ℕ) : (print num).foldl addDigit (0 : R) = num :=
  foldl_printFrom (num + 1) num [] (Nat.lt_succ_self num)

/-- Reading in another ring is reading natural numbers, and then the cast. -/
theorem foldl_addDigit_cast (ds : Bytes) (n : ℕ) :
    ds.foldl addDigit (n : R) = ((ds.foldl addDigit n : ℕ) : R) := by
  induction ds generalizing n with
  | nil => rfl
  | cons b ds ih =>
    have hcast : addDigit (n : R) b = ((addDigit n b : ℕ) : R) := by
      unfold addDigit
      push_cast
      rfl
    rw [foldl_cons, foldl_cons, hcast, ih]

/-- A byte that is no digit ends a run of digits. -/
theorem takeWhile_print (num : ℕ) {c : UInt8} (hc : ¬ IsDigit c) (rest : Bytes) :
    (print num ++ c :: rest).takeWhile (fun b => decide (IsDigit b)) = print num ∧
      (print num ++ c :: rest).dropWhile (fun b => decide (IsDigit b)) = c :: rest := by
  have hall : ∀ b ∈ print num, decide (IsDigit b) = true := by
    intro b hb
    exact decide_eq_true (isDigit_of_mem_print hb)
  rw [takeWhile_append_of_pos hall, dropWhile_append_of_pos hall,
    takeWhile_cons_of_neg (by simpa using hc), dropWhile_cons_of_neg (by simpa using hc),
    append_nil]
  exact ⟨rfl, rfl⟩

/-! ## Digits that are printed -/

/-- The value of digits. -/
def value (ds : Bytes) : ℕ := ds.foldl addDigit 0

/-- Digits as they are printed: one at least, and no zero in front of others. -/
structure Canonical (ds : Bytes) : Prop where
  ne_nil : ds ≠ []
  digits : ∀ b ∈ ds, IsDigit b
  head : ds.head? = some 48 → ds.length = 1

theorem digit_toNat_sub (hb : IsDigit b) : digit (b.toNat - 48) = b := by
  obtain ⟨hlow, -⟩ := hb
  rw [UInt8.le_iff_toNat_le] at hlow
  apply UInt8.toNat.inj
  rw [digit, UInt8.toNat_ofNat']
  have hlt := b.toNat_lt
  have h48 : (48 : UInt8).toNat = 48 := rfl
  omega

theorem toNat_sub_lt (hb : IsDigit b) : b.toNat - 48 < 10 := by
  have hhigh := UInt8.le_iff_toNat_le.mp hb.2
  have h57 : (57 : UInt8).toNat = 57 := rfl
  omega

theorem value_concat (ds : Bytes) (b : UInt8) :
    value (ds ++ [b]) = value ds * 10 + (b.toNat - 48) := by
  rw [value, foldl_append]
  rfl

/-- The buffer stays behind what is printed. -/
theorem printFrom_append (fuel num : ℕ) (buf : Bytes) :
    printFrom fuel num buf = printFrom fuel num [] ++ buf := by
  induction fuel generalizing num buf with
  | zero => rfl
  | succ fuel ih =>
    rw [printFrom, printFrom]
    split
    · rfl
    · rw [ih, ih _ [digit (num % 10)], append_assoc]
      rfl

/-- What is printed does not depend on the bound. -/
theorem printFrom_eq_print {fuel : ℕ} (hf : num < fuel) : printFrom fuel num [] = print num := by
  have key : ∀ num fuel fuel', num < fuel → num < fuel' → ∀ buf,
      printFrom fuel num buf = printFrom fuel' num buf := by
    intro num
    induction num using Nat.strongRecOn with
    | ind num ih =>
      intro fuel fuel' hf hf' buf
      obtain ⟨fuel, rfl⟩ := Nat.exists_eq_add_one.2 hf.pos
      obtain ⟨fuel', rfl⟩ := Nat.exists_eq_add_one.2 hf'.pos
      rw [printFrom, printFrom]
      split
      · rfl
      · exact ih (num / 10) (by omega) fuel fuel' (by omega) (by omega) _
  exact key num fuel (num + 1) hf (Nat.lt_succ_self num) []

theorem print_mul_add (hnum : 0 < num) (hd : d < 10) :
    print (num * 10 + d) = print num ++ [digit d] := by
  rw [print, printFrom, if_neg (by omega), show (num * 10 + d) / 10 = num by omega,
    show (num * 10 + d) % 10 = d by omega]
  rw [printFrom_append, printFrom_eq_print (by omega)]

theorem print_of_lt (hd : d < 10) : print d = [digit d] := by
  rw [print, printFrom, if_pos (by omega), Nat.mod_eq_of_lt hd]

variable {ds : Bytes}

/-- The front of digits as they are printed, if it is not empty, is such digits, and not zero. -/
theorem Canonical.init (h : Canonical (ds ++ [b])) (hds : ds ≠ []) :
    Canonical ds ∧ ds.head? ≠ some 48 := by
  have hne : ds.head? ≠ some 48 := by
    intro h48
    have hlen := h.head (by rw [head?_append_of_ne_nil ds hds, h48])
    rw [length_append, length_singleton] at hlen
    exact hds (eq_nil_of_length_eq_zero (by omega))
  exact ⟨⟨hds, fun b hb => h.digits b (mem_append_left _ hb), fun h48 => absurd h48 hne⟩, hne⟩

/-- The value of digits that do not begin with zero is not zero. -/
theorem Canonical.value_pos (h : Canonical ds) (h48 : ds.head? ≠ some 48) : 0 < value ds := by
  induction ds using reverseRecOn with
  | nil => exact absurd rfl h.ne_nil
  | append_singleton ds b ih =>
    rw [value_concat]
    by_cases hds : ds = []
    · subst hds
      have hb := h.digits b (by simp)
      have hne : b ≠ 48 := fun hb => h48 (by rw [hb]; rfl)
      have hlow := UInt8.le_iff_toNat_le.mp hb.1
      have hne' : b.toNat ≠ 48 := fun heq => hne (UInt8.toNat.inj heq)
      have h48 : (48 : UInt8).toNat = 48 := rfl
      omega
    · obtain ⟨hcan, hne⟩ := h.init hds
      have := ih hcan hne
      omega

/-- Digits as they are printed are what is printed for their value. -/
theorem Canonical.print_value (h : Canonical ds) : print (value ds) = ds := by
  induction ds using reverseRecOn with
  | nil => exact absurd rfl h.ne_nil
  | append_singleton ds b ih =>
    have hb := h.digits b (mem_append_right _ (mem_singleton_self b))
    rw [value_concat]
    by_cases hds : ds = []
    · subst hds
      rw [show value [] = 0 from rfl, Nat.zero_add, print_of_lt (toNat_sub_lt hb),
        digit_toNat_sub hb, nil_append]
    · obtain ⟨hcan, hne⟩ := h.init hds
      rw [print_mul_add (hcan.value_pos hne) (toNat_sub_lt hb), ih hcan, digit_toNat_sub hb]

theorem value_print (num : ℕ) : value (print num) = num := foldl_print num

/-- What is printed are such digits. -/
theorem canonical_print (num : ℕ) : Canonical (print num) := by
  refine ⟨print_ne_nil num, fun b hb => isDigit_of_mem_print hb, ?_⟩
  induction num using Nat.strongRecOn with
  | ind num ih =>
    by_cases hlt : num < 10
    · rw [print_of_lt hlt]
      exact fun _ => rfl
    · intro h48
      rw [show num = num / 10 * 10 + num % 10 by omega,
        print_mul_add (by omega) (Nat.mod_lt num (by decide)),
        head?_append_of_ne_nil _ (print_ne_nil _)] at h48
      have hlen := ih (num / 10) (by omega) h48
      obtain ⟨b, hb⟩ := length_eq_one_iff.mp hlen
      have hval := value_print (num / 10)
      rw [hb] at h48 hval
      rw [head?_cons, Option.some.injEq] at h48
      rw [h48] at hval
      have hzero : value [48] = 0 := rfl
      omega

/-- The value of digits, from the first of them. -/
theorem value_cons (b : UInt8) (ds : Bytes) :
    value (b :: ds) = (b.toNat - 48) * 10 ^ ds.length + value ds := by
  induction ds using reverseRecOn with
  | nil => simp [value, addDigit]
  | append_singleton ds c ih =>
    rw [← cons_append, value_concat, ih, value_concat, length_append, length_singleton]
    ring

theorem value_lt (h : ∀ b ∈ ds, IsDigit b) : value ds < 10 ^ ds.length := by
  induction ds with
  | nil => decide
  | cons b ds ih =>
    have hb := toNat_sub_lt (h b mem_cons_self)
    have hds := ih fun c hc => h c (mem_cons_of_mem b hc)
    rw [value_cons]
    calc (b.toNat - 48) * 10 ^ ds.length + value ds
        < (b.toNat - 48) * 10 ^ ds.length + 10 ^ ds.length := Nat.add_lt_add_left hds _
      _ = (b.toNat - 48 + 1) * 10 ^ ds.length := by rw [add_mul, one_mul]
      _ ≤ 10 * 10 ^ ds.length := Nat.mul_le_mul_right _ (by omega)
      _ = 10 ^ ds.length * 10 := mul_comm _ _

/-- The value of several digits that do not begin with zero has as many digits. -/
theorem Canonical.pow_le (h : Canonical (b :: ds)) (hds : ds ≠ []) :
    10 ^ ds.length ≤ value (b :: ds) := by
  have hb : b ≠ 48 := by
    intro hb
    have hlen := h.head (by rw [hb]; rfl)
    rw [length_cons] at hlen
    exact hds (eq_nil_of_length_eq_zero (by omega))
  have hlow := UInt8.le_iff_toNat_le.mp (h.digits b mem_cons_self).1
  have hne : b.toNat ≠ 48 := fun heq => hb (UInt8.toNat.inj heq)
  have h48 : (48 : UInt8).toNat = 48 := rfl
  rw [value_cons]
  exact le_trans (Nat.le_mul_of_pos_left _ (by omega)) (Nat.le_add_right _ _)

end Decimal
