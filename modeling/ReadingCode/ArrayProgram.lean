/-
# Programs that compare and swap

A program of this kind knows the elements of an array only through a comparison of two positions and
an exchange of two positions.  The comparison has a state of its own, so that it may answer
anything; a position outside of the array ends the program without a result.  Rules say what a
program does when its parts are known, also under the assumption that the answers are those of a
total preorder.
-/
import Mathlib.Data.Int.Interval

namespace ArrayProgram

/-- The state of the comparison, and the elements. -/
structure Memory (σ α : Type) where
  state : σ
  cells : ℤ → α

/-- A program, which may end without a result. -/
abbrev Prog (σ α β : Type) := StateT (Memory σ α) Option β

/-- A comparison function, and the number of elements of the array. -/
structure Setting (σ α : Type) where
  compare : σ → α → α → σ × ℤ
  size : ℕ

variable {σ α β γ : Type}

/-- A position of the array. -/
def Setting.Inside (S : Setting σ α) (i : ℤ) : Prop := 0 ≤ i ∧ i < S.size

instance (S : Setting σ α) (i : ℤ) : Decidable (S.Inside i) := inferInstanceAs (Decidable (_ ∧ _))

/-- Whether the comparison of two positions answers with a positive number. -/
def Setting.greater (S : Setting σ α) (i j : ℤ) : Prog σ α Bool := fun m =>
  if S.Inside i ∧ S.Inside j then
    let answer := S.compare m.state (m.cells i) (m.cells j)
    some (decide (answer.2 > 0), ⟨answer.1, m.cells⟩)
  else none

/-- The elements at two positions change places. -/
def Setting.swap (S : Setting σ α) (i j : ℤ) : Prog σ α Unit := fun m =>
  if S.Inside i ∧ S.Inside j then some ((), ⟨m.state, m.cells ∘ Equiv.swap i j⟩) else none

/-- A loop that has not ended. -/
def diverge : Prog σ α β := fun _ => none

/-! ## Rules -/

/-- The program ends, with a result of this kind. -/
def Runs (p : Prog σ α β) (m : Memory σ α) (Q : β → Memory σ α → Prop) : Prop :=
  ∃ r m', p m = some (r, m') ∧ Q r m'

variable {S : Setting σ α} {le : α → α → Prop} {m m' : Memory σ α} {i j k lo hi : ℤ}
  {p q : Prog σ α β} {f : β → Prog σ α γ} {Q : β → Memory σ α → Prop}

theorem Runs.pure {r : β} (h : Q r m) : Runs (pure r) m Q := ⟨r, m, rfl, h⟩

theorem Runs.mono {Q' : β → Memory σ α → Prop} (h : Runs p m Q) (hQ : ∀ r m', Q r m' → Q' r m') :
    Runs p m Q' := by
  obtain ⟨r, m', heq, hr⟩ := h
  exact ⟨r, m', heq, hQ r m' hr⟩

variable {Q' : γ → Memory σ α → Prop}

theorem Runs.bind (h : Runs p m fun r m' => Runs (f r) m' Q') : Runs (p >>= f) m Q' := by
  obtain ⟨r, m', heq, r', m'', heq', hr⟩ := h
  refine ⟨r', m'', ?_, hr⟩
  show (p m).bind (fun x => f x.1 x.2) = _
  rw [heq]
  exact heq'

/-- A part of a program, and what is behind it. -/
theorem Runs.seq (h : Runs p m Q) (hf : ∀ r m', Q r m' → Runs (f r) m' Q') : Runs (p >>= f) m Q' :=
  Runs.bind (h.mono hf)

/-- The answers are those of a transitive relation. -/
structure Setting.Obeys (S : Setting σ α) (le : α → α → Prop) : Prop where
  trans : ∀ {a b c}, le a b → le b c → le a c
  positive : ∀ s a b, (S.compare s a b).2 > 0 → le b a
  other : ∀ s a b, ¬ (S.compare s a b).2 > 0 → le a b

/-- A branch on a comparison. -/
theorem Runs.branch (le : α → α → Prop) {s : σ} {c : ℤ → α} (hi : S.Inside i) (hj : S.Inside j)
    (htrue : ∀ s, (S.Obeys le → le (c j) (c i)) → Runs p ⟨s, c⟩ Q)
    (hfalse : ∀ s, (S.Obeys le → le (c i) (c j)) → Runs q ⟨s, c⟩ Q) :
    Runs (S.greater i j >>= fun b => if b = true then p else q) ⟨s, c⟩ Q := by
  apply Runs.bind
  refine ⟨_, _, if_pos ⟨hi, hj⟩, ?_⟩
  show Runs (if decide ((S.compare s (c i) (c j)).2 > 0) = true then p else q) _ Q
  by_cases hpos : (S.compare s (c i) (c j)).2 > 0
  · rw [if_pos (decide_eq_true hpos)]
    exact htrue _ fun h => h.positive _ _ _ hpos
  · rw [decide_eq_false hpos]
    exact hfalse _ fun h => h.other _ _ _ hpos

theorem Runs.swap {s : σ} {c : ℤ → α} {Q : Unit → Memory σ α → Prop} (hi : S.Inside i)
    (hj : S.Inside j) (h : Q () ⟨s, c ∘ Equiv.swap i j⟩) : Runs (S.swap i j) ⟨s, c⟩ Q :=
  ⟨(), _, if_pos ⟨hi, hj⟩, h⟩

/-- A comparison by a total preorder obeys it. -/
theorem Setting.obeys (ht : Std.Total le) (htrans : IsTrans α le)
    (h : ∀ s a b, (S.compare s a b).2 > 0 ↔ ¬ le a b) : S.Obeys le where
  trans := fun hab hbc => htrans.trans _ _ _ hab hbc
  positive := fun s a b hpos => (ht.total a b).resolve_left ((h s a b).mp hpos)
  other := fun s a b hpos => not_not.mp fun hno => hpos ((h s a b).mpr hno)

/-! ## Permutations -/

/-- The elements have changed places within a set of positions. -/
def Permutes (P : Set ℤ) (c c' : ℤ → α) : Prop :=
  ∃ e : Equiv.Perm ℤ, (∀ k, e k ≠ k → k ∈ P) ∧ c' = c ∘ e

variable {P P' : Set ℤ} {c c' c'' : ℤ → α}

theorem Permutes.refl (P : Set ℤ) (c : ℤ → α) : Permutes P c c :=
  ⟨.refl ℤ, fun _ h => absurd rfl h, rfl⟩

theorem Permutes.trans (h : Permutes P c c') (h' : Permutes P c' c'') : Permutes P c c'' := by
  obtain ⟨e, he, rfl⟩ := h
  obtain ⟨e', he', rfl⟩ := h'
  refine ⟨e'.trans e, fun k hk => ?_, rfl⟩
  by_cases hmoved : e' k = k
  · apply he k
    intro hfixed
    apply hk
    show e (e' k) = k
    rw [hmoved, hfixed]
  · exact he' k hmoved

theorem Permutes.mono (h : Permutes P c c') (hP : P ⊆ P') : Permutes P' c c' := by
  obtain ⟨e, he, rfl⟩ := h
  exact ⟨e, fun k hk => hP (he k hk), rfl⟩

theorem Permutes.swap (hi : i ∈ P) (hj : j ∈ P) : Permutes P c (c ∘ Equiv.swap i j) := by
  refine ⟨.swap i j, fun k hk => ?_, rfl⟩
  rcases (Equiv.swap_apply_ne_self_iff.mp hk).2 with rfl | rfl
  · exact hi
  · exact hj

/-- Outside of the set nothing changes. -/
theorem Permutes.eq (h : Permutes P c c') (hk : k ∉ P) : c' k = c k := by
  obtain ⟨e, he, rfl⟩ := h
  have hfixed : e k = k := not_not.mp fun hmoved => hk (he k hmoved)
  exact congrArg c hfixed

/-- What holds of all elements in the set still does. -/
theorem Permutes.forall (h : Permutes P c c') {R : α → Prop} (hR : ∀ k ∈ P, R (c k)) :
    ∀ k ∈ P, R (c' k) := by
  obtain ⟨e, he, rfl⟩ := h
  intro k hk
  apply hR
  by_cases hmoved : e k = k
  · rw [hmoved]
    exact hk
  · exact he (e k) fun hfixed => hmoved (e.injective hfixed)

theorem comp_swap_left (c : ℤ → α) (i j : ℤ) : (c ∘ Equiv.swap i j) i = c j :=
  congrArg c (Equiv.swap_apply_left i j)

theorem comp_swap_right (c : ℤ → α) (i j : ℤ) : (c ∘ Equiv.swap i j) j = c i :=
  congrArg c (Equiv.swap_apply_right i j)

theorem comp_swap_of_ne (c : ℤ → α) (hi : k ≠ i) (hj : k ≠ j) : (c ∘ Equiv.swap i j) k = c k :=
  congrArg c (Equiv.swap_apply_of_ne_of_ne hi hj)

/-! ## Sorted parts -/

/-- The elements from `lo` on and before `hi` are in order. -/
def SortedOn (le : α → α → Prop) (c : ℤ → α) (lo hi : ℤ) : Prop :=
  ∀ a b, lo ≤ a → a < b → b < hi → le (c a) (c b)

theorem SortedOn.mono (h : SortedOn le c lo hi) {lo' hi' : ℤ} (hlo : lo ≤ lo') (hhi : hi' ≤ hi) :
    SortedOn le c lo' hi' :=
  fun a b ha hab hb => h a b (le_trans hlo ha) hab (lt_of_lt_of_le hb hhi)

theorem SortedOn.congr (h : SortedOn le c lo hi) (hc : ∀ k, lo ≤ k → k < hi → c' k = c k) :
    SortedOn le c' lo hi := by
  intro a b ha hab hb
  rw [hc a ha (lt_trans hab hb), hc b (le_trans ha (le_of_lt hab)) hb]
  exact h a b ha hab hb

/-- At most one element is in order. -/
theorem sortedOn_of_le (h : hi ≤ lo + 1) : SortedOn le c lo hi := by
  intro a b ha hab hb
  omega

/-- Two sorted parts with a middle element between them. -/
theorem SortedOn.glue (htrans : ∀ {a b c}, le a b → le b c → le a c) (hleft : SortedOn le c lo k)
    (hright : SortedOn le c (k + 1) hi) (hbelow : ∀ a, lo ≤ a → a < k → le (c a) (c k))
    (habove : ∀ b, k < b → b < hi → le (c k) (c b)) : SortedOn le c lo hi := by
  intro a b ha hab hb
  rcases lt_trichotomy b k with hbk | rfl | hbk
  · exact hleft a b ha hab hbk
  · exact hbelow a ha hab
  · rcases lt_trichotomy a k with hak | rfl | hak
    · exact htrans (hbelow a ha hak) (habove b hbk hb)
    · exact habove b hbk hb
    · exact hright a b hak hab hb

end ArrayProgram
