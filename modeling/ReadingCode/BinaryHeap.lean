/-
# Binary heaps in arrays

An array is a function on positions, of which the first `n` count; the parent of position `k` is
`(k - 1) / 2`.  Moving a hole with an element through the array is a chain of swaps, so that nothing
is lost whatever the order is; with a total preorder, what is out of order stays at the hole.
-/
import Mathlib.Algebra.Order.Group.Multiset
import Mathlib.Data.Multiset.Range

namespace BinaryHeap

open Multiset

open Function

variable {α : Type*} {le : α → α → Prop} {v v' : ℕ → α} {i j k n : ℕ} {x : α}

/-! ## Contents -/

/-- The elements at the first `n` positions. -/
def contents (v : ℕ → α) (n : ℕ) : Multiset α := (range n).map v

theorem contents_succ (v : ℕ → α) (n : ℕ) : contents v (n + 1) = v n ::ₘ contents v n := by
  unfold contents
  rw [range_succ, map_cons]

theorem card_contents (v : ℕ → α) (n : ℕ) : (contents v n).card = n := by
  unfold contents
  rw [card_map, card_range]

theorem contents_congr (h : ∀ k < n, v k = v' k) : contents v n = contents v' n :=
  map_congr rfl fun k hk => h k (mem_range.mp hk)

theorem mem_contents : x ∈ contents v n ↔ ∃ k < n, v k = x := by
  unfold contents
  rw [mem_map]
  exact ⟨fun ⟨k, hk, hx⟩ => ⟨k, mem_range.mp hk, hx⟩,
    fun ⟨k, hk, hx⟩ => ⟨k, mem_range.mpr hk, hx⟩⟩

/-- A position beyond the contents can be written. -/
theorem contents_update_of_le (h : n ≤ i) : contents (update v i x) n = contents v n :=
  contents_congr fun k hk => update_of_ne (by omega) x v

theorem contents_update_self (v : ℕ → α) (n : ℕ) (x : α) :
    contents (update v n x) (n + 1) = x ::ₘ contents v n := by
  rw [contents_succ, update_self, contents_update_of_le le_rfl]

/-- Swapping two positions keeps the contents. -/
theorem contents_swap (hi : i < n) (hj : j < n) :
    contents (v ∘ Equiv.swap i j) n = contents v n := by
  have hrange : (range n).map (Equiv.swap i j) = range n := by
    apply Multiset.Nodup.ext (Multiset.Nodup.map (Equiv.swap i j).injective
      (nodup_range n)) (nodup_range n) |>.mpr
    intro k
    have hswap : Equiv.swap i j k < n ↔ k < n := by
      rw [Equiv.swap_apply_def]
      split_ifs with h1 h2
      · exact ⟨fun _ => by omega, fun _ => hj⟩
      · exact ⟨fun _ => by omega, fun _ => hi⟩
      · rfl
    rw [mem_map, mem_range, ← hswap]
    constructor
    · rintro ⟨m, hm, rfl⟩
      rw [Equiv.swap_apply_self]
      exact mem_range.mp hm
    · intro hk
      exact ⟨Equiv.swap i j k, mem_range.mpr hk, Equiv.swap_apply_self i j k⟩
  unfold contents
  rw [← map_map, hrange]

/-- Copying another element into the hole and moving the hole there is a swap. -/
theorem update_move (hij : i ≠ j) :
    update (update v i (v j)) j x = update v i x ∘ Equiv.swap i j := by
  funext k
  rw [comp_apply, Equiv.swap_apply_def]
  by_cases hj : k = j
  · subst hj
    rw [update_self, if_neg fun h => hij h.symm, if_pos rfl, update_self]
  · rw [update_of_ne hj]
    by_cases hi : k = i
    · subst hi
      rw [update_self, if_pos rfl, update_of_ne fun h => hij h.symm]
    · rw [update_of_ne hi, if_neg hi, if_neg hj, update_of_ne hi]

theorem comp_swap_left (v : ℕ → α) (i j : ℕ) : (v ∘ Equiv.swap i j) i = v j :=
  congrArg v (Equiv.swap_apply_left i j)

theorem comp_swap_right (v : ℕ → α) (i j : ℕ) : (v ∘ Equiv.swap i j) j = v i :=
  congrArg v (Equiv.swap_apply_right i j)

theorem comp_swap_of_ne (v : ℕ → α) (hi : k ≠ i) (hj : k ≠ j) : (v ∘ Equiv.swap i j) k = v k :=
  congrArg v (Equiv.swap_apply_of_ne_of_ne hi hj)

/-- The last element in place of the first. -/
theorem contents_first (v : ℕ → α) (n : ℕ) :
    v 0 ::ₘ contents (update v 0 (v n)) n = contents v (n + 1) := by
  have hswap : ∀ k < n, (v ∘ Equiv.swap 0 n) k = update v 0 (v n) k := by
    intro k hk
    by_cases h0 : k = 0
    · subst h0
      rw [comp_swap_left, update_self]
    · rw [comp_swap_of_ne v h0 (by omega), update_of_ne h0]
  rw [← contents_swap (v := v) (show 0 < n + 1 by omega) (show n < n + 1 by omega), contents_succ,
    comp_swap_right, contents_congr hswap]

/-! ## Order -/

/-- The position above. -/
def parent (k : ℕ) : ℕ := (k - 1) / 2

theorem parent_lt (hk : 0 < k) : parent k < k := by
  unfold parent
  omega

/-- The positions below. -/
theorem parent_eq_iff (hk : 0 < k) : parent k = i ↔ k = 2 * i + 1 ∨ k = 2 * i + 2 := by
  unfold parent
  omega

/-- No element is above its parent. -/
def Ordered (le : α → α → Prop) (v : ℕ → α) (n : ℕ) : Prop :=
  ∀ k, 0 < k → k < n → le (v k) (v (parent k))

theorem ordered_congr (h : ∀ k < n, v k = v' k) (ho : Ordered le v n) : Ordered le v' n := by
  intro k hk hkn
  rw [← h k hkn, ← h (parent k) (lt_trans (parent_lt hk) hkn)]
  exact ho k hk hkn

theorem Ordered.mono {m : ℕ} (h : Ordered le v n) (hm : m ≤ n) : Ordered le v m :=
  fun k hk hkm => h k hk (lt_of_lt_of_le hkm hm)

/-- Elements that may pass the hole on its way keep the order. -/
def Bridged (le : α → α → Prop) (v : ℕ → α) (n i : ℕ) : Prop :=
  ∀ k, 0 < k → k < n → parent k = i → 0 < i → le (v k) (v (parent i))

/-- Out of order is at most the element at position `i` with its parent. -/
structure UpReady (le : α → α → Prop) (v : ℕ → α) (n i : ℕ) : Prop where
  except : ∀ k, 0 < k → k < n → k ≠ i → le (v k) (v (parent k))
  bridged : Bridged le v n i

/-- Out of order is at most the element at position `i` with its children. -/
structure DownReady (le : α → α → Prop) (v : ℕ → α) (n i : ℕ) : Prop where
  except : ∀ k, 0 < k → k < n → parent k ≠ i → le (v k) (v (parent k))
  bridged : Bridged le v n i

theorem UpReady.ordered (h : UpReady le v n i) (hi : 0 < i → i < n → le (v i) (v (parent i))) :
    Ordered le v n := by
  intro k hk hkn
  by_cases hki : k = i
  · subst hki
    exact hi hk hkn
  · exact h.except k hk hkn hki

theorem DownReady.ordered (h : DownReady le v n i)
    (hi : ∀ k, 0 < k → k < n → parent k = i → le (v k) (v i)) : Ordered le v n := by
  intro k hk hkn
  by_cases hki : parent k = i
  · rw [hki]
    exact hi k hk hkn hki
  · exact h.except k hk hkn hki

/-- In the second half of the positions nothing has children. -/
theorem DownReady.ordered_of_half (h : DownReady le v n i) (hi : n / 2 ≤ i) : Ordered le v n := by
  apply h.ordered
  intro k hk hkn hpar
  have hk' := (parent_eq_iff hk).mp hpar
  omega

/-- A new last position is ready for its element to go up. -/
theorem Ordered.upReady (h : Ordered le v n) (x : α) : UpReady le (update v n x) (n + 1) n where
  except := by
    intro k hk hkn hne
    have hlt := parent_lt hk
    rw [update_of_ne hne, update_of_ne (by omega)]
    exact h k hk (by omega)
  bridged := by
    intro k hk hkn hpar _
    have hlt := parent_lt hk
    omega

/-- The first position is ready for another element to go down. -/
theorem Ordered.downReady (h : Ordered le v n) (x : α) : DownReady le (update v 0 x) n 0 where
  except := by
    intro k hk hkn hne
    rw [update_of_ne (by omega), update_of_ne hne]
    exact h k hk hkn
  bridged := fun _ _ _ _ h0 => absurd h0 (lt_irrefl 0)

/-- Every element is below the first. -/
theorem Ordered.le_first [Std.Total le] [IsTrans α le] (h : Ordered le v n) (hk : k < n) :
    le (v k) (v 0) := by
  induction k using Nat.strongRecOn with
  | ind k ih =>
    rcases Nat.eq_zero_or_pos k with rfl | hpos
    · exact (Std.Total.total (r := le) (v 0) (v 0)).elim id id
    · have hlt := parent_lt hpos
      exact IsTrans.trans _ _ _ (h k hpos hk) (ih (parent k) hlt (by omega))

/-- Going up one step. -/
theorem UpReady.move [IsTrans α le] (h : UpReady le v n i) (hi : 0 < i) (hin : i < n)
    (hlt : le (v (parent i)) (v i)) : UpReady le (v ∘ Equiv.swap i (parent i)) n (parent i) := by
  have hpi := parent_lt hi
  constructor
  · intro k hk hkn hne
    by_cases hki : k = i
    · subst hki
      rw [comp_swap_left, comp_swap_right]
      exact hlt
    · rw [comp_swap_of_ne v hki hne]
      by_cases hpar : parent k = i
      · rw [hpar, comp_swap_left]
        exact h.bridged k hk hkn hpar hi
      · have hle := h.except k hk hkn hki
        by_cases hpar' : parent k = parent i
        · -- the other child of the parent
          rw [hpar'] at hle ⊢
          rw [comp_swap_right]
          exact IsTrans.trans _ _ _ hle hlt
        · rw [comp_swap_of_ne v hpar hpar']
          exact hle
  · intro k hk hkn hpar hpos
    have hpp := parent_lt hpos
    have hle := h.except (parent i) hpos (by omega) (by omega)
    rw [comp_swap_of_ne (k := parent (parent i)) v (by omega) (by omega)]
    by_cases hki : k = i
    · subst hki
      rw [comp_swap_left]
      exact hle
    · have hkp := parent_lt hk
      have hk' := h.except k hk hkn hki
      rw [hpar] at hk'
      rw [comp_swap_of_ne v hki (by omega)]
      exact IsTrans.trans _ _ _ hk' hle

/-- Going down one step, to the larger child. -/
theorem DownReady.move (h : DownReady le v n i) (hj : 0 < j) (hjn : j < n) (hji : parent j = i)
    (hlarge : ∀ k, 0 < k → k < n → parent k = i → le (v k) (v j)) (hlt : le (v i) (v j)) :
    DownReady le (v ∘ Equiv.swap i j) n j := by
  have hij := parent_lt hj
  constructor
  · intro k hk hkn hne
    have hkp := parent_lt hk
    by_cases hkj : k = j
    · subst hkj
      rw [hji, comp_swap_left, comp_swap_right]
      exact hlt
    · by_cases hki : k = i
      · subst hki
        rw [comp_swap_left, comp_swap_of_ne v (by omega) (by omega)]
        exact h.bridged j hj hjn hji hk
      · rw [comp_swap_of_ne v hki hkj]
        by_cases hpar : parent k = i
        · rw [hpar, comp_swap_left]
          exact hlarge k hk hkn hpar
        · rw [comp_swap_of_ne v hpar hne]
          exact h.except k hk hkn hpar
  · intro k hk hkn hpar _
    have hkp := parent_lt hk
    have hle := h.except k hk hkn (by omega)
    rw [hpar] at hle
    rw [hji, comp_swap_left, comp_swap_of_ne (k := k) v (by omega) (by omega)]
    exact hle

end BinaryHeap
