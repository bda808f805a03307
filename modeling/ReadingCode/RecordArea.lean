/-
# Records placed one after the other

Records of different sizes are written into memory without gaps, and read again by going
from one to the next.  Several areas of such records lie side by side, so that writing in
one leaves the others as they are.
-/
import Mathlib

namespace RecordArea

open List

variable {R E : Type*}

section

variable (size : R → ℕ)

/-- The room that records take. -/
def room (rs : List R) : ℕ := (rs.map size).sum

@[simp] theorem room_nil : room size ([] : List R) = 0 := rfl

@[simp] theorem room_cons (r : R) (rs : List R) : room size (r :: rs) = size r + room size rs := by
  simp [room]

@[simp] theorem room_append (rs rs' : List R) :
    room size (rs ++ rs') = room size rs + room size rs' := by
  simp [room]

/-- Records that all take some room are no more than it. -/
theorem length_le_room (rs : List R) (hsize : ∀ r ∈ rs, 0 < size r) : rs.length ≤ room size rs := by
  induction rs with
  | nil => exact le_rfl
  | cons r rs ih =>
    have h1 := hsize r mem_cons_self
    have h2 := ih fun x hx => hsize x (mem_cons_of_mem _ hx)
    rw [length_cons, room_cons]
    omega

variable {rs : List R}

theorem dvd_room {d : ℕ} (hsize : ∀ r ∈ rs, d ∣ size r) : d ∣ room size rs := by
  induction rs with
  | nil => exact Nat.dvd_zero d
  | cons r rs ih =>
    exact Nat.dvd_add (hsize r mem_cons_self) (ih fun x hx => hsize x (mem_cons_of_mem _ hx))

/-- A part of the records takes no more room. -/
theorem room_le_of_sublist {rs' : List R} (h : rs.Sublist rs') : room size rs ≤ room size rs' := by
  induction h with
  | slnil => exact le_rfl
  | cons r _ ih =>
    exact le_trans ih (Nat.le_add_left _ _)
  | cons_cons r _ ih =>
    exact Nat.add_le_add_left ih _

variable (enc : R → E)

/-- The records are found from `o` on. -/
def Placed (mem : ℕ → E) : ℕ → List R → Prop
  | _, [] => True
  | o, r :: rs => mem o = enc r ∧ Placed mem (o + size r) rs

variable {size enc}

variable {mem : ℕ → E} {o : ℕ}

theorem placed_append {rs' : List R} : Placed size enc mem o (rs ++ rs')
      ↔ Placed size enc mem o rs ∧ Placed size enc mem (o + room size rs) rs' := by
  induction rs generalizing o with
  | nil => simp [Placed]
  | cons r rs ih =>
    simp only [cons_append, Placed, ih, room_cons, and_assoc, add_assoc]

/-- What is in memory elsewhere does not matter. -/
theorem Placed.congr {mem' : ℕ → E} (h : Placed size enc mem o rs) (hsize : ∀ r ∈ rs, 0 < size r)
    (heq : ∀ x, o ≤ x → x < o + room size rs → mem' x = mem x) : Placed size enc mem' o rs := by
  induction rs generalizing o with
  | nil => trivial
  | cons r rs ih =>
    have hr := hsize r mem_cons_self
    rw [room_cons] at heq
    refine ⟨(heq o le_rfl (by omega)).trans h.1, ih h.2 (fun y hy => hsize y
      (mem_cons_of_mem _ hy)) fun x h1 h2 => heq x (by omega) (by omega)⟩

/-- What is written elsewhere does not matter. -/
theorem Placed.update {x : ℕ} {e : E} (h : Placed size enc mem o rs) (hsize : ∀ r ∈ rs, 0 < size r)
    (hx : x < o ∨ o + room size rs ≤ x) : Placed size enc (Function.update mem x e) o rs :=
  h.congr hsize fun y h1 h2 => Function.update_of_ne (by omega) ..

/-- One more record after the others. -/
theorem Placed.snoc {r : R} (h : Placed size enc mem o rs) (hsize : ∀ r ∈ rs, 0 < size r) :
    Placed size enc (Function.update mem (o + room size rs) (enc r)) o (rs ++ [r]) := by
  rw [placed_append]
  exact ⟨h.update hsize (.inr le_rfl), Function.update_self .., trivial⟩

end

/-! ## Areas side by side -/

/-- Where the area of number `b` begins. -/
def base (space : ℕ → ℕ) : ℕ → ℕ
  | 0 => 0
  | b + 1 => base space b + space b

theorem base_le_of_lt (space : ℕ → ℕ) {b c : ℕ} (h : b < c) :
    base space b + space b ≤ base space c := by
  induction c with
  | zero => exact absurd h (Nat.not_lt_zero b)
  | succ c ih =>
    rcases Nat.lt_succ_iff_lt_or_eq.1 h with h | rfl
    · exact Nat.le_trans (ih h) (Nat.le_add_right _ _)
    · exact (Nat.le_refl _)

/-- Places in different areas are different. -/
theorem ne_of_area_ne {space : ℕ → ℕ} {b c x y : ℕ} (h : b ≠ c) (hx : x < space b)
    (hy : y < space c) : base space b + x ≠ base space c + y := by
  rcases Nat.lt_or_gt_of_ne h with h | h
  · have := base_le_of_lt space h
    omega
  · have := base_le_of_lt space h
    omega

end RecordArea
