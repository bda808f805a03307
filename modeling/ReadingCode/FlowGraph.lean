/-
# Dominance and natural loops in a flow graph

A flow graph is an edge relation with an entry.  A node dominates another when no path
from the entry to the second avoids the first; the proofs run on the paths that avoid
a node.  A natural loop has a header that dominates the sources of its back edges.
-/
import Mathlib.Data.Fintype.Card
import Mathlib.Data.List.Chain
import Mathlib.Order.WellFounded

namespace FlowGraph

open Finset

variable {V : Type*} (E : V → V → Prop) (r : V)

/-! ## Dominance -/

/-- There is a path from the entry. -/
def Reach (x : V) : Prop := Relation.ReflTransGen E r x

/-- There is a path from the entry on which `v` does not lie. -/
def Avoids (v x : V) : Prop := r ≠ v ∧ Relation.ReflTransGen (fun a b => E a b ∧ b ≠ v) r x

/-- Every path from the entry to `x` goes through `v`. -/
def Dom (v x : V) : Prop := Reach E r x ∧ ¬ Avoids E r v x

/-- `v` dominates `x` and is another node. -/
def SDom (v x : V) : Prop := Dom E r v x ∧ v ≠ x

/-- The strict dominator that all strict dominators dominate. -/
def IDom (v x : V) : Prop := SDom E r v x ∧ ∀ w, SDom E r w x → Dom E r w v

variable {E r}

theorem Avoids.ne {v x : V} (h : Avoids E r v x) : x ≠ v := by
  obtain ⟨hr, hp⟩ := h
  induction hp with
  | refl => exact hr
  | tail _ hab _ => exact hab.2

theorem Avoids.step {v x y : V} (h : Avoids E r v x) (hxy : E x y) (hy : y ≠ v) : Avoids E r v y :=
  ⟨h.1, h.2.tail ⟨hxy, hy⟩⟩

/-- A path avoids `v` or splits at it. -/
theorem avoids_or_through (v : V) {x : V} (hx : Reach E r x) :
    Avoids E r v x ∨ (Reach E r v ∧ Relation.ReflTransGen E v x) := by
  induction hx with
  | refl =>
    by_cases hv : r = v
    · exact .inr (hv ▸ ⟨.refl, .refl⟩)
    · exact .inl ⟨hv, .refl⟩
  | @tail a b ha hab ih =>
    rcases ih with h | ⟨hv, hp⟩
    · by_cases hb : b = v
      · subst hb
        exact .inr ⟨ha.tail hab, .refl⟩
      · exact .inl (h.step hab hb)
    · exact .inr ⟨hv, hp.tail hab⟩

/-- A path that avoids `a` avoids `b` as well, or reaches it first. -/
theorem Avoids.split {a c : V} (b : V) (h : Avoids E r a c) : Avoids E r b c ∨ Avoids E r a b := by
  obtain ⟨hr, hp⟩ := h
  induction hp with
  | refl =>
    by_cases hb : r = b
    · exact .inr (hb ▸ ⟨hr, .refl⟩)
    · exact .inl ⟨hb, .refl⟩
  | @tail x y hx hxy ih =>
    rcases ih with h | h
    · by_cases hy : y = b
      · subst hy
        exact .inr ⟨hr, hx.tail hxy⟩
      · exact .inl (h.step hxy.1 hy)
    · exact .inr h

namespace Dom

variable {a b c v x y : V}

theorem refl (hx : Reach E r x) : Dom E r x x := ⟨hx, fun h => h.ne rfl⟩

theorem entry (hx : Reach E r x) : Dom E r r x := ⟨hx, fun h => h.1 rfl⟩

theorem reach_left (h : Dom E r v x) : Reach E r v := by
  rcases avoids_or_through v h.1 with ha | hv
  · exact absurd ha h.2
  · exact hv.1

theorem trans (h : Dom E r a b) (h' : Dom E r b c) : Dom E r a c := by
  refine ⟨h'.1, fun ha => ?_⟩
  rcases ha.split b with hb | hb
  · exact h'.2 hb
  · exact h.2 hb

/-- Only the entry dominates the entry. -/
theorem eq_entry (h : Dom E r v r) : v = r := by
  by_contra hv
  exact h.2 ⟨Ne.symm hv, .refl⟩

theorem antisymm (h : Dom E r a b) (h' : Dom E r b a) : a = b := by
  by_contra hab
  -- the first of the two on a path is reached without the other
  have key : ∀ x, Reach E r x →
      (Avoids E r a x ∧ Avoids E r b x) ∨ Avoids E r a b ∨ Avoids E r b a := by
    intro x hx
    induction hx with
    | refl =>
      by_cases ha : r = a
      · exact .inr (.inr ⟨fun hb => hab (ha.symm.trans hb), ha ▸ .refl⟩)
      · by_cases hb : r = b
        · exact .inr (.inl ⟨ha, hb ▸ .refl⟩)
        · exact .inl ⟨⟨ha, .refl⟩, ⟨hb, .refl⟩⟩
    | @tail x y _ hxy ih =>
      rcases ih with ⟨hxa, hxb⟩ | h
      · by_cases ha : y = a
        · subst ha
          exact .inr (.inr (hxb.step hxy hab))
        · by_cases hb : y = b
          · subst hb
            exact .inr (.inl (hxa.step hxy ha))
          · exact .inl ⟨hxa.step hxy ha, hxb.step hxy hb⟩
      · exact .inr h
  rcases key b h.1 with ⟨-, hb⟩ | hb | hb
  · exact hb.ne rfl
  · exact h.2 hb
  · exact h'.2 hb

/-- Two dominators of a node lie above one another. -/
theorem total (h : Dom E r a x) (h' : Dom E r b x) : Dom E r a b ∨ Dom E r b a := by
  by_contra hn
  rw [not_or] at hn
  have hab : Avoids E r a b := by
    by_contra hc
    exact hn.1 ⟨h'.reach_left, hc⟩
  have hba : Avoids E r b a := by
    by_contra hc
    exact hn.2 ⟨h.reach_left, hc⟩
  have hne : b ≠ a := hab.ne
  -- after the last of the two a path avoids the other
  have key : ∀ y, Reach E r y → Avoids E r a y ∨ Avoids E r b y := by
    intro y hy
    induction hy with
    | refl => exact .inl ⟨hab.1, .refl⟩
    | @tail p y _ hpy ih =>
      by_cases ha : y = a
      · exact .inr (ha ▸ hba)
      · by_cases hb : y = b
        · exact .inl (hb ▸ hab)
        · exact ih.imp (fun h => h.step hpy ha) fun h => h.step hpy hb
  rcases key x h.1 with hx | hx
  · exact h.2 hx
  · exact h'.2 hx

end Dom

variable {P : V → Prop} {h x y : V} {k : ℕ}

/-- A strict dominator dominates every predecessor. -/
theorem SDom.pred {v p : V} (h : SDom E r v x) (hp : Reach E r p) (hpx : E p x) : Dom E r v p :=
  ⟨hp, fun ha => h.1.2 (ha.step hpx h.2.symm)⟩

theorem SDom.ne_entry {v : V} (h : SDom E r v x) : x ≠ r := by
  rintro rfl
  exact h.2 h.1.eq_entry

theorem SDom.trans_dom {a b c : V} (h : SDom E r a b) (h' : Dom E r b c) : SDom E r a c := by
  refine ⟨h.1.trans h', ?_⟩
  rintro rfl
  exact h.2 (h.1.antisymm h')

theorem Dom.trans_sdom {a b c : V} (h : Dom E r a b) (h' : SDom E r b c) : SDom E r a c := by
  refine ⟨h.trans h'.1, ?_⟩
  rintro rfl
  exact h'.2 (h'.1.antisymm h)

theorem sdom_wellFounded [Finite V] : WellFounded (SDom E r) := by
  have htrans : IsTrans V (SDom E r) := ⟨fun _ _ _ hab hbc => hab.trans_dom hbc.1⟩
  have hirrefl : Std.Irrefl (SDom E r) := ⟨fun _ h => h.2 rfl⟩
  exact Finite.wellFounded_of_trans_of_irrefl (SDom E r)

theorem sdom_swap_wellFounded [Finite V] : WellFounded (fun a b => SDom E r b a) := by
  have htrans : IsTrans V (fun a b => SDom E r b a) := ⟨fun _ _ _ hab hbc => hbc.trans_dom hab.1⟩
  have hirrefl : Std.Irrefl (fun a b => SDom E r b a) := ⟨fun _ h => h.2 rfl⟩
  exact Finite.wellFounded_of_trans_of_irrefl (fun a b => SDom E r b a)

/-- What holds of a node when it holds of its strict dominators holds of all nodes. -/
theorem sdom_induction (E : V → V → Prop) (r : V) [Finite V]
    (step : ∀ x, (∀ d, SDom E r d x → P d) → P x) (x : V) : P x :=
  sdom_wellFounded.induction x step

theorem IDom.unique {v w : V} (h : IDom E r v x) (h' : IDom E r w x) : v = w :=
  (h'.2 v h.1).antisymm (h.2 w h'.1)

/-- From a dominator a path leads down through nodes it dominates. -/
theorem Dom.path (h : Dom E r x y) :
    Relation.ReflTransGen (fun a b => E a b ∧ Dom E r x a ∧ Dom E r x b) x y := by
  have hy : Reach E r y := h.1
  induction hy with
  | refl => rw [h.eq_entry]
  | @tail p y hp hpy ih =>
    by_cases hxy : x = y
    · rw [hxy]
    · have hd : Dom E r x p := SDom.pred ⟨h, hxy⟩ hp hpy
      exact (ih hd).tail ⟨hpy, hd, h⟩

/-! ## Natural loops -/

variable (E r)

/-- The source of a back edge to `h`. -/
def Latch (h t : V) : Prop := E t h ∧ Dom E r h t

/-- A node with a back edge. -/
def Header (h : V) : Prop := ∃ t, Latch E r h t

/-- The natural loop of `h`: the header, and what reaches a back edge without it. -/
def InLoop (h x : V) : Prop :=
  Reach E r x ∧ (x = h ∨ (x ≠ h ∧ ∃ t, Latch E r h t ∧
    Relation.ReflTransGen (fun a b => E a b ∧ b ≠ h) x t))

/-- `h` is the header of the innermost natural loop that contains `x` and has another
header. -/
def Innermost (x h : V) : Prop :=
  h ≠ x ∧ InLoop E r h x ∧
    ∀ h', h' ≠ x → InLoop E r h' x → ∀ y, InLoop E r h y → InLoop E r h' y

/-- A closed path that can be reached, as the list of its nodes. -/
def Cycle (c : List V) : Prop :=
  ∃ a l, c = a :: l ∧ List.IsChain E (a :: (l ++ [a])) ∧ Reach E r a

/-- Every closed path has a node that dominates all of it. -/
def Reducible : Prop := ∀ c, Cycle E r c → ∃ h ∈ c, ∀ x ∈ c, Dom E r h x

variable {E r}

/-- The header dominates its natural loop. -/
theorem InLoop.dom (hx : InLoop E r h x) : Dom E r h x := by
  obtain ⟨hr, rfl | ⟨hne, t, ht, hp⟩⟩ := hx
  · exact .refl hr
  · induction hp using Relation.ReflTransGen.head_induction_on with
    | refl => exact ht.2
    | head hab _ ih =>
      have hb := ih (hr.tail hab.1) hab.2
      exact SDom.pred ⟨hb, hab.2.symm⟩ hr hab.1

/-- Along a walk that stays off `h` and ends in its natural loop, every node is in
that loop. -/
theorem InLoop.of_walk (hx : Reach E r x) (hne : x ≠ h) (hy : InLoop E r h y)
    (hp : Relation.ReflTransGen (fun a b => E a b ∧ b ≠ h) x y) : InLoop E r h x := by
  obtain ⟨-, rfl | ⟨-, t, ht, hyt⟩⟩ := hy
  · rcases hp.cases_tail with h | ⟨c, -, hc⟩
    · exact absurd h.symm hne
    · exact absurd rfl hc.2
  · exact ⟨hx, .inr ⟨hne, t, ht, hp.trans hyt⟩⟩

/-- Of two natural loops with a common node the one whose header lies above contains
the other. -/
theorem InLoop.nested {h h' x : V} (hx : InLoop E r h x) (hx' : InLoop E r h' x)
    (hd : SDom E r h' h) {y : V} (hy : InLoop E r h y) : InLoop E r h' y := by
  -- what `h` dominates is not `h'`
  have hoff : ∀ z, Dom E r h z → z ≠ h' := by
    rintro z hz rfl
    exact hd.2 (hd.1.antisymm hz)
  have hdown : Relation.ReflTransGen (fun a b => E a b ∧ b ≠ h') h x := by
    refine .mono ?_ _ _ hx.dom.path
    intro a b hab
    exact ⟨hab.1, hoff b hab.2.2⟩
  have hhead : InLoop E r h' h := .of_walk hx.dom.reach_left hd.2.symm hx' hdown
  have hreach := hy.1
  obtain ⟨-, rfl | ⟨hne, t, ht, hp⟩⟩ := hy
  · exact hhead
  · have hup : Relation.ReflTransGen (fun a b => E a b ∧ b ≠ h') y h := by
      have hyh : InLoop E r h y := ⟨hreach, .inr ⟨hne, t, ht, hp⟩⟩
      induction hp using Relation.ReflTransGen.head_induction_on with
      | refl => exact .single ⟨ht.1, hd.2.symm⟩
      | @head a b hab hbt ih =>
        have hb : InLoop E r h b :=
          ⟨hreach.tail hab.1, .inr ⟨hab.2, t, ht, hbt⟩⟩
        exact (ih hb.1 hab.2 hb).head ⟨hab.1, hoff b hb.dom⟩
    exact .of_walk hreach (hoff y (InLoop.dom ⟨hreach, .inr ⟨hne, t, ht, hp⟩⟩)) hhead hup

/-- The innermost natural loop is the one whose header lies deepest. -/
theorem innermost_iff : Innermost E r x h ↔
    h ≠ x ∧ InLoop E r h x ∧ ∀ h', h' ≠ x → InLoop E r h' x → Dom E r h' h := by
  constructor
  · rintro ⟨hne, hx, hmin⟩
    refine ⟨hne, hx, fun h' hne' hx' => ?_⟩
    exact (hmin h' hne' hx' h ⟨hx.dom.reach_left, .inl rfl⟩).dom
  · rintro ⟨hne, hx, hmin⟩
    refine ⟨hne, hx, fun h' hne' hx' y hy => ?_⟩
    by_cases heq : h' = h
    · rw [heq]
      exact hy
    · exact hx.nested hx' ⟨hmin h' hne' hx', heq⟩ hy

theorem Innermost.unique {h' : V} (hh : Innermost E r x h) (hh' : Innermost E r x h') : h = h' := by
  rw [innermost_iff] at hh hh'
  exact (hh'.2.2 h hh.1 hh.2.1).antisymm (hh.2.2 h' hh'.1 hh'.2.1)

/-- A node in some natural loop with another header has an innermost one. -/
theorem exists_innermost [Finite V] (hne : h ≠ x) (hx : InLoop E r h x) :
    ∃ h', Innermost E r x h' := by
  obtain ⟨m, ⟨hmne, hm⟩, hmax⟩ := (sdom_swap_wellFounded (E := E) (r := r)).has_min
    {h | h ≠ x ∧ InLoop E r h x} ⟨h, hne, hx⟩
  refine ⟨m, innermost_iff.mpr ⟨hmne, hm, fun h' hne' hx' => ?_⟩⟩
  rcases hx'.dom.total hm.dom with hd | hd
  · exact hd
  · by_cases hmh : m = h'
    · rw [hmh]
      exact .refl hx'.dom.reach_left
    · exact absurd ⟨hd, hmh⟩ (hmax h' ⟨hne', hx'⟩)

/-! ## Closed paths -/

theorem isChain_within {l : List V} (h : List.IsChain E l) (hP : ∀ x ∈ l, P x) :
    List.IsChain (fun a b => E a b ∧ P a ∧ P b) l := by
  induction l with
  | nil => exact .nil
  | cons a l ih =>
    cases l with
    | nil => exact .singleton a
    | cons b l =>
      rw [List.isChain_cons_cons] at h ⊢
      refine ⟨⟨h.1, hP a (by simp), hP b (by simp)⟩, ih h.2 fun x hx => ?_⟩
      exact hP x (List.mem_cons_of_mem a hx)

/-- From any node of a closed path to any other along the path. -/
theorem Cycle.walk {c : List V} (h : Cycle E r c) (hx : x ∈ c) (hy : y ∈ c) :
    Relation.ReflTransGen (fun a b => E a b ∧ a ∈ c ∧ b ∈ c) x y := by
  obtain ⟨a, l, rfl, hl, -⟩ := h
  have hmem : ∀ z, z ∈ a :: (l ++ [a]) ↔ z ∈ a :: l := by
    intro z
    simp only [List.mem_cons, List.mem_append, List.not_mem_nil, or_false]
    tauto
  have hchain := isChain_within (P := (· ∈ a :: l)) hl fun z hz => (hmem z).mp hz
  have hto := hchain.backwards_induction
    (fun z => Relation.ReflTransGen (fun u v => E u v ∧ u ∈ a :: l ∧ v ∈ a :: l) z a) _
    (fun _ _ huv hv => hv.head huv) (fun _ => by simp [Relation.ReflTransGen.refl]) x
    ((hmem x).mpr hx)
  have hfrom := hchain.induction
    (fun z => Relation.ReflTransGen (fun u v => E u v ∧ u ∈ a :: l ∧ v ∈ a :: l) a z) _
    (fun _ _ huv hu => hu.tail huv) (fun _ => .refl) y ((hmem y).mpr hy)
  exact hto.trans hfrom

theorem Cycle.reach {c : List V} (h : Cycle E r c) (hx : x ∈ c) : Reach E r x := by
  have h' := h
  obtain ⟨a, l, rfl, -, ha⟩ := h'
  refine .trans ha ?_
  exact .mono (fun _ _ h => h.1) _ _ (h.walk List.mem_cons_self hx)

/-- A walk and an edge back close a path. -/
theorem exists_cycle (hx : Reach E r x) (hPx : P x)
    (hp : Relation.ReflTransGen (fun a b => E a b ∧ P b) x y) (hyx : E y x) :
    ∃ c, Cycle E r c ∧ x ∈ c ∧ y ∈ c ∧ ∀ z ∈ c, P z := by
  obtain ⟨l, hl, hlast⟩ := List.exists_isChain_cons_of_relationReflTransGen hp
  refine ⟨x :: l, ⟨x, l, rfl, ?_, hx⟩, List.mem_cons_self, ?_, ?_⟩
  · have hE : List.IsChain E (x :: l) := hl.imp fun _ _ h => h.1
    have hclose : List.IsChain E ((x :: l) ++ [x]) := by
      refine hE.append (.singleton x) ?_
      intro u hu v hv
      rw [List.getLast?_eq_getLast_of_ne_nil (List.cons_ne_nil _ _), Option.mem_def,
        Option.some.injEq] at hu
      rw [List.head?_cons, Option.mem_def, Option.some.injEq] at hv
      rw [← hu, ← hv, hlast]
      exact hyx
    simpa using hclose
  · rw [← hlast]
    exact List.getLast_mem _
  · exact hl.induction P _ (fun _ _ h _ => h.2) fun _ => hPx

/-! ## Walks of bounded length -/

variable (E r)

/-- `x` is reached from the entry in at most `k` steps over nodes with `Q`. -/
def Steps (Q : V → Prop) : ℕ → V → Prop
  | 0, x => x = r ∧ Q r
  | k + 1, x => Steps Q k x ∨ (Q x ∧ ∃ p, Steps Q k p ∧ E p x)

variable {E r} {Q : V → Prop}

theorem Steps.succ (h : Steps E r Q k x) : Steps E r Q (k + 1) x := .inl h

theorem Steps.mono {l : ℕ} (h : Steps E r Q k x) (hkl : k ≤ l) : Steps E r Q l x := by
  induction hkl with
  | refl => exact h
  | step _ ih => exact ih.succ

theorem Steps.prop (h : Steps E r Q k x) : Q x := by
  induction k with
  | zero => exact h.1 ▸ h.2
  | succ k ih => exact h.elim ih fun h => h.1

theorem Steps.reach (h : Steps E r Q k x) : Reach E r x := by
  induction k generalizing x with
  | zero => exact h.1 ▸ .refl
  | succ k ih =>
    rcases h with h | ⟨-, p, hp, hpx⟩
    · exact ih h
    · exact (ih hp).tail hpx

/-- All but the entry are reached by a last step. -/
theorem Steps.pred (h : Steps E r Q (k + 1) x) (hx : x ≠ r) : ∃ p, Steps E r Q k p ∧ E p x := by
  induction k with
  | zero =>
    rcases h with h | ⟨-, p, hp, hpx⟩
    · exact absurd h.1 hx
    · exact ⟨p, hp, hpx⟩
  | succ k ih =>
    rcases h with h | ⟨-, p, hp, hpx⟩
    · obtain ⟨p, hp, hpx⟩ := ih h
      exact ⟨p, hp.succ, hpx⟩
    · exact ⟨p, hp, hpx⟩

/-- A walk has a length. -/
theorem exists_steps (hr : Q r) (h : Relation.ReflTransGen (fun a b => E a b ∧ Q b) r x) :
    ∃ k, Steps E r Q k x := by
  induction h with
  | refl => exact ⟨0, rfl, hr⟩
  | @tail a b _ hab ih =>
    obtain ⟨k, hk⟩ := ih
    exact ⟨k + 1, .inr ⟨hab.2, a, hk, hab.1⟩⟩

/-- When one more step reaches nothing new, no number of steps does. -/
theorem Steps.stable (hk : ∀ x, Steps E r Q (k + 1) x → Steps E r Q k x) (l : ℕ)
    (h : Steps E r Q l x) : Steps E r Q k x := by
  induction l generalizing x with
  | zero => exact .mono h (Nat.zero_le k)
  | succ l ih =>
    rcases h with h | ⟨hx, p, hp, hpx⟩
    · exact ih h
    · exact hk x (.inr ⟨hx, p, ih hp, hpx⟩)

/-- As many steps as there are nodes reach everything. -/
theorem Steps.card [Fintype V] {l : ℕ} (h : Steps E r Q l x) : Steps E r Q (Fintype.card V) x := by
  classical
  by_contra hn
  have hgrow : ∀ k, k ≤ Fintype.card V →
      k ≤ (univ.filter fun x => Steps E r Q k x).card := by
    intro k
    induction k with
    | zero => exact fun _ => Nat.zero_le _
    | succ k ih =>
      intro hk
      refine lt_of_le_of_lt (ih (Nat.le_of_succ_le hk)) ?_
      apply card_lt_card
      -- otherwise the walk of length `l` was found before
      rw [ssubset_iff_of_subset]
      · by_contra hno
        apply hn
        refine (Steps.stable (k := k) ?_ l h).mono (Nat.le_of_succ_le hk)
        intro y hy
        by_contra hy'
        exact hno ⟨y, by simpa using hy, by simpa using hy'⟩
      · intro y
        simp only [mem_filter, mem_univ, true_and]
        exact Steps.succ
  have hall := eq_univ_of_card _
    (le_antisymm (card_le_univ _) (hgrow _ le_rfl))
  have hx : x ∈ univ.filter fun x => Steps E r Q (Fintype.card V) x := by
    rw [hall]
    exact mem_univ x
  exact hn (by simpa using hx)

end FlowGraph
