/-
# Chains of indices

A chain is a list of indices that is kept through one word beside each of them: the word of
an index is the next index, and a stop value ends the chain.  A chain is made longer at its
front, and an index is taken out by giving the one before it its word.
-/
import Mathlib.Data.List.Basic

namespace IndexChains

open Function

variable {stop i p q : ℕ} {l u v : List ℕ} {next next' : ℕ → ℕ}

/-- From the index `q` on the chain is `l`. -/
def Chain (next : ℕ → ℕ) (stop : ℕ) : ℕ → List ℕ → Prop
  | q, [] => q = stop
  | q, i :: l => q = i ∧ i ≠ stop ∧ Chain next stop (next i) l

/-- A chain depends on the words of its own indices only. -/
theorem chain_congr (h : ∀ i ∈ l, next i = next' i) :
    Chain next stop q l ↔ Chain next' stop q l := by
  induction l generalizing q with
  | nil => exact Iff.rfl
  | cons i l ih =>
    rw [Chain, Chain, h i List.mem_cons_self, ih fun k hk => h k (List.mem_cons_of_mem i hk)]

theorem chain_update (hp : p ∉ l) (x : ℕ) :
    Chain (update next p x) stop q l ↔ Chain next stop q l := by
  apply chain_congr
  intro i hi
  apply update_of_ne
  rintro rfl
  exact hp hi

/-- The first index is taken out. -/
theorem chain_tail (hc : Chain next stop q (i :: l)) : Chain next stop (next i) l := hc.2.2

/-- **An index is taken out** by giving the one before it its word. -/
theorem chain_remove (hc : Chain next stop q (u ++ p :: i :: v)) (hp : p ∉ u) (hpv : p ∉ v) :
    Chain (update next p (next i)) stop q (u ++ p :: v) := by
  induction u generalizing q with
  | nil =>
    obtain ⟨hq, hne, -, -, hv⟩ := hc
    refine ⟨hq, hne, ?_⟩
    rw [update_self, chain_update hpv]
    exact hv
  | cons k u ih =>
    obtain ⟨hq, hne, hrest⟩ := hc
    have hk : p ≠ k := fun h => hp (h ▸ List.mem_cons_self)
    refine ⟨hq, hne, ?_⟩
    rw [update_of_ne hk.symm]
    exact ih hrest fun h => hp (List.mem_cons_of_mem k h)

end IndexChains
