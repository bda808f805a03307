/-
# Replacing from the left

A rule says whether something at the beginning of a text is to be replaced, by what, and how much of
the text it is.  It is applied from the left, and what is put in is not looked at again.
-/
import Mathlib.Tactic.Ring

namespace Rewriting

open List

variable {α : Type} (rule : List α → Option (List α × ℕ))

/-- The text with everything replaced; the first symbols of it are passed over, as a part of what
has been replaced. -/
def rewrite : ℕ → List α → List α
  | _, [] => []
  | skip + 1, _ :: s => rewrite skip s
  | 0, c :: s =>
    match rule (c :: s) with
    | some (out, len) => out ++ rewrite (len - 1) s
    | none => c :: rewrite 0 s

/-- How often something is replaced. -/
def hits : ℕ → List α → ℕ
  | _, [] => 0
  | skip + 1, _ :: s => hits skip s
  | 0, c :: s =>
    match rule (c :: s) with
    | some (_, len) => hits (len - 1) s + 1
    | none => hits 0 s

variable {rule} {s out : List α} {len m n q : ℕ}

theorem rewrite_skip (n : ℕ) (s : List α) : rewrite rule n s = rewrite rule 0 (s.drop n) := by
  induction s generalizing n with
  | nil => rw [drop_nil, rewrite, rewrite]
  | cons c s ih =>
    cases n with
    | zero => rfl
    | succ n => rw [rewrite, drop_succ_cons, ih]

theorem hits_skip (n : ℕ) (s : List α) : hits rule n s = hits rule 0 (s.drop n) := by
  induction s generalizing n with
  | nil => rw [drop_nil, hits, hits]
  | cons c s ih =>
    cases n with
    | zero => rfl
    | succ n => rw [hits, drop_succ_cons, ih]

/-- What the rule applies to is replaced. -/
theorem rewrite_hit (hs : s ≠ []) (h : rule s = some (out, len)) (hlen : 0 < len) :
    rewrite rule 0 s = out ++ rewrite rule 0 (s.drop len) := by
  obtain ⟨c, s, rfl⟩ := exists_cons_of_ne_nil hs
  obtain ⟨len, rfl⟩ := Nat.exists_eq_succ_of_ne_zero hlen.ne'
  rw [rewrite, h, ← rewrite_skip]
  rfl

theorem hits_hit (hs : s ≠ []) (h : rule s = some (out, len)) (hlen : 0 < len) :
    hits rule 0 s = hits rule 0 (s.drop len) + 1 := by
  obtain ⟨c, s, rfl⟩ := exists_cons_of_ne_nil hs
  obtain ⟨len, rfl⟩ := Nat.exists_eq_succ_of_ne_zero hlen.ne'
  rw [hits, h, ← hits_skip]
  rfl

/-- Where the rule does not apply the text stays. -/
theorem rewrite_miss (h : ∀ i < q, rule (s.drop i) = none) (hq : q ≤ s.length) :
    rewrite rule 0 s = s.take q ++ rewrite rule 0 (s.drop q) := by
  induction q generalizing s with
  | zero => rfl
  | succ q ih =>
    match s, hq with
    | c :: s, hq =>
      have hfirst : rule (c :: s) = none := h 0 (Nat.succ_pos q)
      rw [rewrite, hfirst, take_succ_cons, drop_succ_cons, cons_append,
        ih (fun i hi => h (i + 1) (Nat.succ_lt_succ hi)) (Nat.le_of_succ_le_succ hq)]

theorem hits_miss (h : ∀ i < q, rule (s.drop i) = none) (hq : q ≤ s.length) :
    hits rule 0 s = hits rule 0 (s.drop q) := by
  induction q generalizing s with
  | zero => rfl
  | succ q ih =>
    match s, hq with
    | c :: s, hq =>
      have hfirst : rule (c :: s) = none := h 0 (Nat.succ_pos q)
      rw [hits, hfirst]
      exact ih (fun i hi => h (i + 1) (Nat.succ_lt_succ hi)) (Nat.le_of_succ_le_succ hq)

/-- A text to which the rule does not apply anywhere stays as it is. -/
theorem rewrite_none (h : ∀ i < s.length, rule (s.drop i) = none) : rewrite rule 0 s = s := by
  rw [rewrite_miss h le_rfl, take_length, drop_length, rewrite, append_nil]

theorem hits_none (h : ∀ i < s.length, rule (s.drop i) = none) : hits rule 0 s = 0 := by
  rw [hits_miss h le_rfl, drop_length, hits]

/-- When everything that is replaced has one length, and so has what it is replaced by, the length
of the result follows from how often it is. -/
theorem length_rewrite (h : ∀ s out len, rule s = some (out, len) →
      out.length = m ∧ len = n ∧ n ≤ s.length) (hn : 0 < n) (s : List α) :
    (rewrite rule 0 s).length + hits rule 0 s * n = s.length + hits rule 0 s * m := by
  induction hk : s.length using Nat.strongRecOn generalizing s with
  | ind k ih =>
    match s with
    | [] => rw [rewrite, hits, ← hk, zero_mul, zero_mul]
    | c :: s =>
      match hrule : rule (c :: s) with
      | some (out, len) =>
        obtain ⟨rfl, rfl, hle⟩ := h _ _ _ hrule
        have hdrop : ((c :: s).drop len).length = k - len := by rw [length_drop, hk]
        have hrest := ih (k - len) (by omega) _ hdrop
        rw [rewrite_hit (cons_ne_nil c s) hrule hn, hits_hit (cons_ne_nil c s) hrule hn,
          length_append, add_mul, add_mul]
        omega
      | none =>
        have hlen : k = s.length + 1 := by rw [← hk, length_cons]
        have hrest := ih s.length (by omega) s rfl
        rw [rewrite, hits, hrule, length_cons]
        dsimp only
        omega

end Rewriting
