/-
# Occurrences of a list in another

Where a list begins in another, what the first and the last such place are, and how far a window
may be moved without stepping over one, given the element behind it or before it.
-/
import Mathlib.Data.List.Basic

namespace Substring

open List

variable {α : Type*} {needle haystack l : List α} {p q i : ℕ} {a : α}

/-- The needle begins at a place of the haystack. -/
def Occurs (needle haystack : List α) (q : ℕ) : Prop := needle <+: haystack.drop q

/-- The needle begins at a place and at none before it. -/
def IsFirst (needle haystack : List α) (q : ℕ) : Prop :=
  Occurs needle haystack q ∧ ∀ p < q, ¬ Occurs needle haystack p

/-- The needle begins at a place and at none behind it. -/
def IsLast (needle haystack : List α) (q : ℕ) : Prop :=
  Occurs needle haystack q ∧ ∀ p, q < p → ¬ Occurs needle haystack p

theorem Occurs.getElem? (h : Occurs needle haystack q) (hi : i < needle.length) :
    haystack[q + i]? = needle[i]? := by
  obtain ⟨t, ht⟩ := h
  rw [← getElem?_drop, ← ht, getElem?_append_left hi]

/-- A needle that is not empty begins where it has its room. -/
theorem Occurs.add_length_le (h : Occurs needle haystack q) (hne : needle ≠ []) :
    q + needle.length ≤ haystack.length := by
  have hle := List.IsPrefix.length_le h
  have hpos := length_pos_iff.mpr hne
  rw [length_drop] at hle
  omega

/-- A window is the needle exactly where the needle begins. -/
theorem occurs_iff_take :
    Occurs needle haystack q ↔ (haystack.drop q).take needle.length = needle := by
  rw [Occurs, prefix_iff_eq_take]
  exact eq_comm

variable [DecidableEq α]

theorem idxOf_le_of_getElem? (h : l[i]? = some a) : l.idxOf a ≤ i := by
  by_contra hlt
  obtain ⟨hi, hget⟩ := List.getElem?_eq_some_iff.mp h
  have hfalse := not_of_lt_findIdx (Nat.lt_of_not_le hlt)
  exact Bool.false_ne_true (hfalse.symm.trans (beq_iff_eq.mpr hget))

/-! ## Shifts -/

/-- How far a window may be moved on when an element stands behind it. -/
def shift (needle : List α) (a : α) : ℕ := needle.reverse.idxOf a + 1

/-- How far a window may be moved back when an element stands before it. -/
def shiftBack (needle : List α) (a : α) : ℕ := needle.idxOf a + 1

theorem shift_le (needle : List α) (a : α) : shift needle a ≤ needle.length + 1 := by
  have hle : needle.reverse.idxOf a ≤ needle.reverse.length := idxOf_le_length
  rw [length_reverse] at hle
  exact Nat.succ_le_succ hle

theorem shiftBack_le (needle : List α) (a : α) : shiftBack needle a ≤ needle.length + 1 :=
  Nat.succ_le_succ idxOf_le_length

/-- **No occurrence is stepped over** by the shift. -/
theorem Occurs.add_shift_le (h : Occurs needle haystack q) (hlt : p < q)
    (hget : haystack[p + needle.length]? = some a) : p + shift needle a ≤ q := by
  by_cases hfar : p + needle.length < q
  · have hle := shift_le needle a
    omega
  · obtain ⟨i, hi⟩ : ∃ i, p + needle.length = q + i := ⟨p + needle.length - q, by omega⟩
    have hlen : i < needle.length := by omega
    rw [hi, h.getElem? hlen] at hget
    have hrev : needle.reverse[needle.length - 1 - i]? = some a := by
      rw [getElem?_reverse (by omega), ← hget]
      congr 1
      omega
    have hle := idxOf_le_of_getElem? hrev
    unfold shift
    omega

/-- **No occurrence is stepped over** by the shift backwards. -/
theorem Occurs.add_shiftBack_le (h : Occurs needle haystack q) (hlt : q < p)
    (hget : haystack[p - 1]? = some a) : q + shiftBack needle a ≤ p := by
  by_cases hfar : q + needle.length < p
  · have hle := shiftBack_le needle a
    omega
  · obtain ⟨i, hi⟩ : ∃ i, p - 1 = q + i := ⟨p - 1 - q, by omega⟩
    rw [hi, h.getElem? (by omega)] at hget
    have hle := idxOf_le_of_getElem? hget
    unfold shiftBack
    omega

/-- The shift of a needle that goes on to the front. -/
theorem shift_cons (c : α) (needle : List α) (a : α) :
    shift (c :: needle) a = if a ∈ needle then shift needle a
      else if a = c then needle.length + 1 else needle.length + 2 := by
  unfold shift
  rw [reverse_cons, idxOf_append, length_reverse]
  by_cases hmem : a ∈ needle
  · rw [if_pos (mem_reverse.mpr hmem), if_pos hmem]
  · rw [if_neg fun h => hmem (mem_reverse.mp h), if_neg hmem]
    by_cases hac : a = c
    · rw [if_pos hac, hac, idxOf_cons_self, Nat.zero_add]
    · rw [if_neg hac, idxOf_cons_ne _ (Ne.symm hac), idxOf_nil]
      omega

theorem shift_of_notMem (h : a ∉ needle) : shift needle a = needle.length + 1 := by
  unfold shift
  rw [idxOf_eq_length fun hmem => h (mem_reverse.mp hmem), length_reverse]

end Substring
