/-
# Cyclic buffers

A buffer of `N` cells that is written round and round.  A datum is addressed by its
*stream position* `v`, the number of elements written before it: it occupies the cells
`v % N`, `(v + 1) % N`, and so on, and stays there until the stream has gone once round.
The operations are those of C code, with one copy up to the end of the buffer and one
from its start.
-/
import Mathlib.Data.List.Nodup
import Mathlib.Data.Nat.ModEq

namespace Cyclic

open List

universe u

variable {α : Type u} {N : ℕ}

/-! ## Cells -/

/-- The cells of the `n` stream positions from `v` on. -/
def cells (N v n : ℕ) : List ℕ := (List.range n).map fun i => (v + i) % N

theorem cells_add (v a b : ℕ) : cells N v (a + b) = cells N v a ++ cells N (v + a) b := by
  simp [cells, range_add, add_assoc]

variable {p v : ℕ}

/-- The cells depend on the stream position modulo the size of the buffer only. -/
theorem cells_congr (h : p ≡ v [MOD N]) (n : ℕ) : cells N p n = cells N v n := by
  apply map_congr_left
  intro i _
  exact h.add_right i

/-- Stream positions less than `N` apart lie in different cells. -/
theorem mod_ne_mod {a b : ℕ} (h : a < b) (hb : b < a + N) : a % N ≠ b % N := by
  intro heq
  have hdvd : N ∣ b - a := (Nat.modEq_iff_dvd' (le_of_lt h)).1 heq
  have := Nat.le_of_dvd (by omega) hdvd
  omega

variable {n : ℕ}

theorem nodup_cells (hn : n ≤ N) (v : ℕ) : (cells N v n).Nodup := by
  apply List.Nodup.map_on _ nodup_range
  intro i hi j hj heq
  rw [mem_range] at hi hj
  rcases Nat.lt_trichotomy i j with hij | hij | hij
  · exact absurd heq (mod_ne_mod (by omega) (by omega))
  · exact hij
  · exact absurd heq.symm (mod_ne_mod (by omega) (by omega))

/-- Data that follow each other in the stream within one round share no cell. -/
theorem disjoint_cells {w k : ℕ} (h : w + k ≤ v) (hv : v + n ≤ w + N) :
    ∀ c ∈ cells N w k, c ∉ cells N v n := by
  intro c hc hc'
  simp only [cells, mem_map, mem_range] at hc hc'
  obtain ⟨i, hi, rfl⟩ := hc
  obtain ⟨j, hj, heq⟩ := hc'
  exact mod_ne_mod (by omega) (by omega) heq.symm

/-! ## What the buffer holds -/

/-- The buffer `m` holds `xs` at the stream position `v`. -/
def Holds (N : ℕ) (m : ℕ → α) (v : ℕ) (xs : List α) : Prop := (cells N v xs.length).map m = xs

variable {m : ℕ → α} {xs : List α}

variable {m' : ℕ → α}

theorem Holds.congr (h : Holds N m v xs)
    (hm : ∀ c ∈ cells N v xs.length, m' c = m c) : Holds N m' v xs := by
  unfold Holds
  rw [map_congr_left hm]
  exact h

theorem holds_iff : Holds N m v xs ↔ ∀ i (hi : i < xs.length), m ((v + i) % N) = xs[i] := by
  unfold Holds cells
  constructor
  · intro h i hi
    have := getElem_of_eq h (i := i) (by simpa using hi)
    simpa using this
  · intro h
    apply ext_getElem (by simp)
    intro i _ hi
    simpa using h i hi

/-! ## Reading -/

/-- `n` consecutive cells. -/
def slice (m : ℕ → α) (p n : ℕ) : List α := (List.range n).map fun i => m (p + i)

/-- Read `n` elements from the cell `p` on: to the end of the buffer, and the rest from
its start. -/
def wrapRead (N : ℕ) (m : ℕ → α) (p n : ℕ) : List α :=
  let rest := N - p
  if n > rest then
    slice m p rest ++ slice m 0 (n - rest)
  else
    slice m p n

theorem slice_eq_cells (h : p + n ≤ N) (m : ℕ → α) : slice m p n = (cells N p n).map m := by
  unfold slice cells
  rw [map_map]
  apply map_congr_left
  intro i hi
  rw [mem_range] at hi
  rw [Function.comp_apply, Nat.mod_eq_of_lt (by omega)]

theorem wrapRead_eq_cells (hp : p ≤ N) (hn : n ≤ N) (m : ℕ → α) :
    wrapRead N m p n = (cells N p n).map m := by
  unfold wrapRead
  dsimp only
  split_ifs with h
  · obtain ⟨k, rfl⟩ : ∃ k, n = (N - p) + k := ⟨n - (N - p), by omega⟩
    have hstart : p + (N - p) ≡ 0 [MOD N] := by
      rw [Nat.add_sub_cancel' hp]
      exact Nat.mod_self N
    have h1 : slice m p (N - p) = (cells N p (N - p)).map m := slice_eq_cells (by omega) m
    have h2 : slice m 0 k = (cells N 0 k).map m := slice_eq_cells (by omega) m
    rw [cells_add, map_append, Nat.add_sub_cancel_left, h1, h2, cells_congr hstart]
  · exact slice_eq_cells (by omega) m

/-- **Reading back**: what the buffer holds is what a wrapped read returns. -/
theorem Holds.wrapRead (h : Holds N m v xs) (hp : p ≤ N)
    (hv : p ≡ v [MOD N]) (hn : xs.length ≤ N) : wrapRead N m p xs.length = xs := by
  rw [wrapRead_eq_cells hp hn, cells_congr hv]
  exact h

/-! ## Writing -/

/-- Write `xs` to consecutive cells. -/
def blit (m : ℕ → α) (p : ℕ) (xs : List α) : ℕ → α :=
  fun c => if p ≤ c then (xs[c - p]?).getD (m c) else m c

/-- Write `xs` from the cell `p` on, with `avail` cells left to the end of the buffer, and
the rest from its start; returns the buffer, the cell after the last one written and
the number of cells that were left from the cell of the last copy. -/
def wrapWrite (N : ℕ) (m : ℕ → α) (p avail : ℕ) (xs : List α) : (ℕ → α) × ℕ × ℕ :=
  if avail ≥ xs.length then
    (blit m p xs, p + xs.length, avail)
  else
    (blit (blit m p (xs.take avail)) 0 (xs.drop avail), xs.length - avail, N)

variable {c : ℕ}

theorem blit_of_lt (xs : List α) (h : c < p) : blit m p xs c = m c := by
  rw [blit, if_neg (by omega)]

theorem blit_of_ge (h : p + xs.length ≤ c) : blit m p xs c = m c := by
  rw [blit, if_pos (by omega), getElem?_eq_none (by omega), Option.getD_none]

theorem blit_add {i : ℕ} (hi : i < xs.length) : blit m p xs (p + i) = xs[i] := by
  rw [blit, if_pos (by omega), Nat.add_sub_cancel_left, getElem?_eq_getElem hi, Option.getD_some]

/-- The number of cells that a write may take to be left: those up to the end of the
buffer, or fewer when they are enough for the data. -/
structure Room (N p avail : ℕ) (xs : List α) : Prop where
  le : p + avail ≤ N
  exact : xs.length ≤ avail ∨ p + avail = N

variable {avail : ℕ}

/-- **What is written is held**, at every stream position that lies in the first cell. -/
theorem holds_wrapWrite (hr : Room N p avail xs) (hv : p ≡ v [MOD N]) (hn : xs.length ≤ N)
    (m : ℕ → α) : Holds N (wrapWrite N m p avail xs).1 v xs := by
  rw [holds_iff]
  intro i hi
  have hle := hr.le
  rw [show (v + i) % N = (p + i) % N from (hv.add_right i).symm]
  unfold wrapWrite
  split_ifs with h
  · rw [Nat.mod_eq_of_lt (by omega)]
    exact blit_add hi
  · have hend : p + avail = N := by
      rcases hr.exact with h' | h' <;> omega
    dsimp only
    rcases lt_or_ge i avail with hia | hia
    · rw [Nat.mod_eq_of_lt (by omega), blit_of_ge (by simp only [length_drop]; omega),
        blit_add (by simp only [length_take]; omega), getElem_take]
    · obtain ⟨j, rfl⟩ : ∃ j, i = avail + j := ⟨i - avail, by omega⟩
      rw [show (p + (avail + j)) % N = 0 + j by
        rw [← add_assoc, hend, Nat.add_mod_left, Nat.mod_eq_of_lt (by omega), zero_add]]
      rw [blit_add (by simp only [length_drop]; omega), getElem_drop]

/-- A write changes no cell but its own. -/
theorem wrapWrite_of_not_mem (hr : Room N p avail xs)
    (hv : p ≡ v [MOD N]) (hc : c < N) (hnot : c ∉ cells N v xs.length) (m : ℕ → α) :
    (wrapWrite N m p avail xs).1 c = m c := by
  rw [← cells_congr hv] at hnot
  simp only [cells, mem_map, mem_range, not_exists, not_and] at hnot
  unfold wrapWrite
  split_ifs with h
  · rcases lt_or_ge c p with hcp | hcp
    · exact blit_of_lt xs hcp
    · apply blit_of_ge
      by_contra hlt
      apply hnot (c - p) (by omega)
      rw [Nat.add_sub_cancel' hcp, Nat.mod_eq_of_lt hc]
  · have hend : p + avail = N := by
      rcases hr.exact with h' | h' <;> omega
    have hcp : c < p := by
      by_contra hcp
      apply hnot (c - p) (by omega)
      rw [Nat.add_sub_cancel' (by omega), Nat.mod_eq_of_lt hc]
    have hcx : xs.length - avail ≤ c := by
      by_contra hcx
      apply hnot (avail + c) (by omega)
      rw [← add_assoc, hend, Nat.add_mod_left, Nat.mod_eq_of_lt hc]
    dsimp only
    rw [blit_of_ge (by simp only [length_drop]; omega), blit_of_lt _ hcp]

/-- Data written less than one round before stay. -/
theorem Holds.wrapWrite {w : ℕ} {ys : List α} (h : Holds N m w ys) (hr : Room N p avail xs)
    (hv : p ≡ v [MOD N]) (hw : w + ys.length ≤ v) (hround : v + xs.length ≤ w + N) :
    Holds N (wrapWrite N m p avail xs).1 w ys := by
  apply h.congr
  intro c hc
  have hcN : c < N := by
    simp only [cells, mem_map, mem_range] at hc
    obtain ⟨i, hi, rfl⟩ := hc
    exact Nat.mod_lt _ (by omega)
  exact wrapWrite_of_not_mem hr hv hcN (disjoint_cells hw hround c hc) m

/-- The cell after a write is that of the stream position after it. -/
theorem wrapWrite_pos (hr : Room N p avail xs) (hv : p ≡ v [MOD N]) (m : ℕ → α) :
    (wrapWrite N m p avail xs).2.1 ≡ v + xs.length [MOD N] := by
  unfold wrapWrite
  split_ifs with h
  · exact hv.add_right _
  · have hend : p + avail = N := by
      rcases hr.exact with h' | h' <;> omega
    have hx : p + xs.length = N + (xs.length - avail) := by omega
    calc xs.length - avail ≡ N + (xs.length - avail) [MOD N] := by
          simp [Nat.ModEq]
      _ = p + xs.length := hx.symm
      _ ≡ v + xs.length [MOD N] := hv.add_right _

/-- After a write there is room for the next datum, if the two fit into the buffer. -/
theorem room_wrapWrite (ys : List α) (hr : Room N p avail xs) (hn : xs.length + ys.length ≤ N)
    (hroom : ys.length ≤ avail - xs.length ∨ p + avail = N) (m : ℕ → α) :
    Room N (wrapWrite N m p avail xs).2.1 ((wrapWrite N m p avail xs).2.2 - xs.length) ys := by
  have hle := hr.le
  unfold wrapWrite
  split_ifs with h
  · refine ⟨by dsimp only; omega, ?_⟩
    dsimp only
    omega
  · refine ⟨by dsimp only; omega, .inl ?_⟩
    dsimp only
    omega

theorem wrapWrite_pos_le (hr : Room N p avail xs)
    (hn : xs.length ≤ N) (m : ℕ → α) : (wrapWrite N m p avail xs).2.1 ≤ N := by
  have hle := hr.le
  unfold wrapWrite
  split_ifs with h
  · dsimp only
    omega
  · dsimp only
    omega

/-! ## Slices of a buffer that is written from its start -/

@[simp] theorem length_slice (m : ℕ → α) (p n : ℕ) : (slice m p n).length = n := by
  simp [slice]

theorem slice_congr (h : ∀ i, p ≤ i → i < p + n → m i = m' i) : slice m p n = slice m' p n := by
  apply map_congr_left
  intro i hi
  rw [mem_range] at hi
  exact h (p + i) (by omega) (by omega)

theorem slice_add (m : ℕ → α) (p a b : ℕ) :
    slice m p (a + b) = slice m p a ++ slice m (p + a) b := by
  simp [slice, range_add, add_assoc]

theorem slice_blit_of_le {q : ℕ} (xs : List α) (h : q + n ≤ p) :
    slice (blit m p xs) q n = slice m q n := by
  apply slice_congr
  intro i _ hi
  exact blit_of_lt xs (by omega)

theorem slice_blit_of_ge {q : ℕ} (h : p + xs.length ≤ q) :
    slice (blit m p xs) q n = slice m q n := by
  apply slice_congr
  intro i hi _
  exact blit_of_ge (by omega)

theorem slice_blit_self (m : ℕ → α) (p : ℕ) (xs : List α) :
    slice (blit m p xs) p xs.length = xs := by
  apply ext_getElem (length_slice ..)
  intro i hi hi'
  simp only [slice, getElem_map, getElem_range]
  exact blit_add hi'

end Cyclic
