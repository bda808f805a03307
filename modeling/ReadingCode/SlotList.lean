/-
# Lists with holes

A list of slots, each with an element or empty.  A position is the index of an element, or an
index past the end; what it has still to visit are the elements from there on.  Elements are
added at the end, deleting one leaves a hole, and compaction takes the holes out: each of
these moves the positions in a way that leaves what they visit as it should be.
-/
import Mathlib.Data.List.ReduceOption

namespace SlotList

open List Option

variable {A : Type*} {l m : List (Option A)} {p i : ℕ} {a : A}

/-- The elements that a position has still to visit. -/
def visit (l : List (Option A)) (p : ℕ) : List A := (l.drop p).reduceOption

/-- The slot has an element. -/
def Occupied (l : List (Option A)) (p : ℕ) : Prop := ∃ a, l[p]? = some (some a)

theorem Occupied.lt (h : Occupied l p) : p < l.length := by
  obtain ⟨a, ha⟩ := h
  exact (List.getElem?_eq_some_iff.mp ha).1

@[simp] theorem visit_zero (l : List (Option A)) : visit l 0 = l.reduceOption := rfl

theorem visit_of_le (h : l.length ≤ p) : visit l p = [] := by
  rw [visit, drop_eq_nil_of_le h]
  rfl

theorem take_append_visit (l : List (Option A)) (p : ℕ) :
    (l.take p).reduceOption ++ visit l p = l.reduceOption := by
  rw [visit, ← reduceOption_append, take_append_drop]

/-- An element that a position is at is the first one it visits. -/
theorem visit_of_getElem? (h : l[p]? = some (some a)) : visit l p = a :: visit l (p + 1) := by
  obtain ⟨hp, ha⟩ := List.getElem?_eq_some_iff.mp h
  rw [visit, drop_eq_getElem_cons hp, ha]
  rfl

theorem visit_of_hole (h : l[p]? = some none) : visit l p = visit l (p + 1) := by
  obtain ⟨hp, ha⟩ := List.getElem?_eq_some_iff.mp h
  rw [visit, drop_eq_getElem_cons hp, ha]
  rfl

/-- Nothing is visited between two positions with holes only between them. -/
theorem visit_eq_of_holes {q : ℕ} (hpq : p ≤ q) (h : ∀ k, p ≤ k → k < q → ¬ Occupied l k) :
    visit l p = visit l q := by
  induction hpq with
  | refl => rfl
  | @step q hpq ih =>
    rw [ih fun k hk hkq => h k hk (Nat.lt_succ_of_lt hkq)]
    rcases hslot : l[q]? with _ | x
    · have hle := getElem?_eq_none_iff.mp hslot
      rw [visit_of_le hle, visit_of_le (Nat.le_succ_of_le hle)]
    · rcases x with _ | a
      · exact visit_of_hole hslot
      · exact absurd ⟨a, hslot⟩ (h q hpq (Nat.lt_succ_self q))

/-! ## Adding -/

theorem visit_append (h : p ≤ l.length) (m : List (Option A)) :
    visit (l ++ m) p = visit l p ++ m.reduceOption := by
  rw [visit, drop_append_of_le_length h, reduceOption_append]
  rfl

theorem visit_append_of_ge (h : l.length ≤ p) (m : List (Option A)) :
    visit (l ++ m) p = visit m (p - l.length) := by
  rw [visit, drop_append, drop_eq_nil_of_le h]
  rfl

/-- Holes at the end are not visited. -/
theorem visit_append_replicate (n p : ℕ) : visit (l ++ replicate n none) p = visit l p := by
  rcases Nat.le_total p l.length with h | h
  · rw [visit_append h, reduceOption_replicate_none, append_nil]
  · rw [visit_append_of_ge h, visit_of_le h, visit, drop_replicate, reduceOption_replicate_none]

/-- An element is added behind some holes: a position has it to visit as well. -/
theorem visit_append_holes (h : p ≤ l.length) (g : ℕ) (a : A) :
    visit (l ++ replicate g none ++ [some a]) p = visit l p ++ [a] := by
  rw [append_assoc, visit_append h, reduceOption_append, reduceOption_replicate_none]
  rfl

/-- The new element has the last position. -/
theorem getElem?_append_holes (l : List (Option A)) (g : ℕ) (a : A) :
    (l ++ replicate g none ++ [some a])[l.length + g]? = some (some a) := by
  simp

theorem Occupied.append (h : Occupied l p) (m : List (Option A)) : Occupied (l ++ m) p := by
  have hlt := h.lt
  obtain ⟨a, ha⟩ := h
  exact ⟨a, by rw [getElem?_append_left hlt, ha]⟩

theorem occupied_append_replicate {n : ℕ} : Occupied (l ++ replicate n none) p ↔ Occupied l p := by
  refine ⟨?_, fun h => h.append _⟩
  rintro ⟨a, ha⟩
  rcases Nat.lt_or_ge p l.length with h | h
  · rw [getElem?_append_left h] at ha
    exact ⟨a, ha⟩
  · rw [getElem?_append_right h, getElem?_replicate] at ha
    split_ifs at ha with hlt
    cases ha

/-! ## Replacing -/

variable {B : Type*}

theorem visit_map (f : A → B) (l : List (Option A)) (p : ℕ) :
    visit (l.map (Option.map f)) p = (visit l p).map f := by
  rw [visit, visit, ← map_drop]
  induction l.drop p with
  | nil => rfl
  | cons x l ih =>
    cases x with
    | none => exact ih
    | some a =>
      rw [map_cons, map_some, reduceOption_cons_of_some, ih, reduceOption_cons_of_some, map_cons]

theorem occupied_map (f : A → B) : Occupied (l.map (Option.map f)) p ↔ Occupied l p := by
  constructor
  · rintro ⟨b, hb⟩
    rw [getElem?_map, map_eq_some_iff] at hb
    obtain ⟨x, hx, hxb⟩ := hb
    obtain ⟨a, rfl, -⟩ := map_eq_some_iff.mp hxb
    exact ⟨a, hx⟩
  · rintro ⟨a, ha⟩
    exact ⟨f a, by rw [getElem?_map, ha]; rfl⟩

/-! Some elements are changed and the others taken out. -/

theorem visit_bind (f : A → Option B) (l : List (Option A)) (p : ℕ) :
    visit (l.map fun x => x.bind f) p = (visit l p).filterMap f := by
  rw [visit, visit, ← map_drop]
  induction l.drop p with
  | nil => rfl
  | cons x l ih =>
    cases x with
    | none => exact ih
    | some a =>
      rw [map_cons, reduceOption_cons_of_some, bind_some]
      cases hf : f a with
      | none => rw [reduceOption_cons_of_none, ih, filterMap_cons_none hf]
      | some b => rw [reduceOption_cons_of_some, ih, filterMap_cons_some hf]

theorem map_eq_self {g : A → A} (h : ∀ a ∈ l.reduceOption, g a = a) : l.map (Option.map g) = l := by
  conv_rhs => rw [← map_id l]
  apply map_congr_left
  rintro (_ | a) ha
  · rfl
  · rw [map_some, h a (reduceOption_mem_iff.mpr ha)]
    rfl

/-- The slots before an element, the element and the slots after it. -/
theorem split_of_getElem? (h : l[i]? = some (some a)) :
    l = l.take i ++ some a :: l.drop (i + 1) := by
  obtain ⟨hlt, ha⟩ := List.getElem?_eq_some_iff.mp h
  rw [← ha, ← drop_eq_getElem_cons hlt, take_append_drop]

theorem reduceOption_of_getElem? (h : l[i]? = some (some a)) :
    l.reduceOption = (l.take i).reduceOption ++ a :: visit l (i + 1) := by
  conv_lhs => rw [split_of_getElem? h]
  rw [reduceOption_append]
  rfl

/-- A change of all elements that leaves the others is a change in one slot. -/
theorem set_eq_map {g : A → A} (hi : l[i]? = some (some a))
    (h : ∀ b ∈ (l.take i).reduceOption ++ visit l (i + 1), g b = b) :
    l.set i (some (g a)) = l.map (Option.map g) := by
  have hlt := (List.getElem?_eq_some_iff.mp hi).1
  have hset : l.set i (some (g a)) = l.take i ++ some (g a) :: l.drop (i + 1) := by
    rw [set_eq_take_append_cons_drop, if_pos hlt]
  have hbefore : (l.take i).map (Option.map g) = l.take i :=
    map_eq_self fun b hb => h b (mem_append_left _ hb)
  have hafter : (l.drop (i + 1)).map (Option.map g) = l.drop (i + 1) :=
    map_eq_self fun b hb => h b (mem_append_right _ hb)
  rw [hset]
  conv_rhs => rw [split_of_getElem? hi]
  rw [map_append, map_cons, hbefore, hafter]
  rfl

/-! ## Deleting -/

theorem visit_set_of_lt (h : i < p) (x : Option A) : visit (l.set i x) p = visit l p := by
  rw [visit, drop_set_of_lt h]
  rfl

/-- The positions up to a deleted element visit the others. -/
theorem visit_set_none (hi : l[i]? = some (some a)) (h : p ≤ i) :
    ∃ u v, visit l p = u ++ a :: v ∧ visit (l.set i none) p = u ++ v := by
  obtain ⟨hlt, ha⟩ := List.getElem?_eq_some_iff.mp hi
  refine ⟨((l.drop p).take (i - p)).reduceOption, visit l (i + 1), ?_, ?_⟩
  · rw [← visit_of_getElem? hi, visit, visit, ← reduceOption_append]
    congr 1
    have hsplit := take_append_drop (i - p) (l.drop p)
    rw [drop_drop, show p + (i - p) = i by omega] at hsplit
    exact hsplit.symm
  · have hdrop : (l.set i none).drop p = (l.drop p).set (i - p) none := by
      rw [drop_set, if_neg (by omega)]
    have hlen : i - p < (l.drop p).length := by
      rw [length_drop]
      omega
    rw [visit, hdrop, set_eq_take_append_cons_drop, if_pos hlen, reduceOption_append,
      drop_drop, show p + (i - p + 1) = i + 1 by omega]
    rfl

/-! ## Compaction -/

/-- The number of elements before a position. -/
def rank (l : List (Option A)) (p : ℕ) : ℕ := (l.take p).reduceOption.length

/-- The list without its holes. -/
def compacted (l : List (Option A)) : List (Option A) := l.reduceOption.map some

theorem reduceOption_map_some (as : List A) : (as.map some).reduceOption = as := by
  induction as with
  | nil => rfl
  | cons a as ih => rw [map_cons, reduceOption_cons_of_some, ih]

theorem rank_map_some (as : List A) (p : ℕ) : rank (as.map some) p = min p as.length := by
  rw [rank, ← map_take, reduceOption_map_some, length_take]

theorem occupied_map_some {as : List A} : Occupied (as.map some) p ↔ p < as.length := by
  constructor
  · intro h
    have hlt := h.lt
    rwa [length_map] at hlt
  · intro h
    exact ⟨as[p], by rw [getElem?_map, getElem?_eq_getElem h]; rfl⟩

/-- **Compaction** keeps what a position visits. -/
theorem visit_compacted (l : List (Option A)) (p : ℕ) :
    visit (compacted l) (rank l p) = visit l p := by
  rw [visit, compacted, ← map_drop, reduceOption_map_some, ← take_append_visit l p, rank, drop_left]

theorem getElem?_compacted (h : l[p]? = some (some a)) :
    (compacted l)[rank l p]? = some (some a) := by
  have hvisit := visit_compacted l p
  rw [visit_of_getElem? h, visit, compacted, ← map_drop, reduceOption_map_some] at hvisit
  have hget : l.reduceOption[rank l p]? = some a := by
    rw [← head?_drop, hvisit]
    rfl
  rw [compacted, getElem?_map, hget]
  rfl

theorem rank_succ_of_getElem? (h : l[p]? = some (some a)) : rank l (p + 1) = rank l p + 1 := by
  rw [rank, take_add_one, h]
  simp [rank, reduceOption_append]

/-- Before the first hole the rank of a position is the position. -/
theorem rank_eq_self (h : ∀ k < p, Occupied l k) : rank l p = p := by
  induction p with
  | zero => rfl
  | succ p ih =>
    obtain ⟨a, ha⟩ := h p (Nat.lt_succ_self p)
    rw [rank_succ_of_getElem? ha, ih fun k hk => h k (Nat.lt_succ_of_lt hk)]

/-- A position has the elements in front of it and those that it visits. -/
theorem rank_add_visit (l : List (Option A)) (p : ℕ) :
    rank l p + (visit l p).length = l.reduceOption.length := by
  rw [← take_append_visit l p, length_append, rank]

theorem visit_eq_drop (l : List (Option A)) (p : ℕ) :
    visit l p = l.reduceOption.drop (rank l p) := by
  rw [← take_append_visit l p, rank, drop_left]

theorem rank_le (l : List (Option A)) (p : ℕ) : rank l p ≤ p := by
  have h := reduceOption_length_le (l.take p)
  rw [length_take] at h
  exact Nat.le_trans h (Nat.min_le_left ..)

theorem compacted_take_succ_of_getElem? (h : l[p]? = some (some a)) :
    compacted (l.take (p + 1)) = compacted (l.take p) ++ [some a] := by
  rw [take_add_one, h, compacted, reduceOption_append, map_append]
  rfl

theorem compacted_take_succ_of_hole (h : l[p]? = some none) :
    compacted (l.take (p + 1)) = compacted (l.take p) := by
  rw [take_add_one, h, compacted, compacted, reduceOption_append]
  simp

theorem length_compacted (l : List (Option A)) : (compacted l).length = l.reduceOption.length :=
  length_map ..

@[simp] theorem reduceOption_compacted (l : List (Option A)) :
    (compacted l).reduceOption = l.reduceOption := reduceOption_map_some _

theorem occupied_compacted (h : Occupied l p) : Occupied (compacted l) (rank l p) := by
  obtain ⟨a, ha⟩ := h
  exact ⟨a, getElem?_compacted ha⟩

/-- A list without elements is compacted to nothing. -/
theorem compacted_eq_nil (h : l.reduceOption = []) : compacted l = [] := by
  rw [compacted, h]
  rfl

/-! Compaction goes through the slots one by one; the positions before `i` have moved. -/

/-- A position, when compaction has come to the slot `i`. -/
def moved (l : List (Option A)) (i p : ℕ) : ℕ := if p < i then rank l p else p

theorem moved_of_lt (h : p < i) : moved l i p = rank l p := if_pos h

theorem moved_of_le (h : i ≤ p) : moved l i p = p := if_neg (Nat.not_lt.mpr h)

theorem moved_eq_iff : moved l i p = i ↔ p = i := by
  rcases Nat.lt_or_ge p i with h | h
  · rw [moved_of_lt h]
    have hle := rank_le l p
    omega
  · rw [moved_of_le h]

/-- The next slot: a position that is there moves. -/
theorem moved_succ (l : List (Option A)) (i p : ℕ) :
    moved l (i + 1) p = if moved l i p = i then rank l i else moved l i p := by
  rcases Nat.lt_trichotomy p i with h | h | h
  · rw [if_neg (mt moved_eq_iff.mp (Nat.ne_of_lt h)), moved_of_lt h,
      moved_of_lt (Nat.lt_succ_of_lt h)]
  · subst h
    rw [if_pos (moved_eq_iff.mpr rfl), moved_of_lt (Nat.lt_succ_self p)]
  · rw [if_neg (mt moved_eq_iff.mp (Nat.ne_of_gt h)), moved_of_le (Nat.le_of_lt h), moved_of_le h]

theorem moved_succ_of_ne (h : p ≠ i) : moved l (i + 1) p = moved l i p := by
  rw [moved_succ, if_neg (mt moved_eq_iff.mp h)]

/-- Positions before the first hole stay. -/
theorem moved_eq_self (h : ∀ k < p, Occupied l k) : moved l i p = p := by
  rw [moved]
  split_ifs
  · exact rank_eq_self h
  · rfl

end SlotList
