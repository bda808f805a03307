/-
# Forests given by parent links

A forest as a partial function `par` that gives each node its parent, or nothing for a
root.  A link structure is a forest when every node has a depth, that is, when the walk
along the parents ends.  The operations are those of a mutable tree: grafting a node
below another, with some of the nodes as its new children, and taking a node out of the
middle.
-/
import Mathlib.Data.Finset.Card

namespace Forest

open Finset

universe u

variable {α : Type u} {par par' : α → Option α}

/-- The number of nodes from `a` to its root. -/
inductive Depth (par : α → Option α) : α → ℕ → Prop
  | root {a : α} : par a = none → Depth par a 1
  | child {a p : α} {d : ℕ} : par a = some p → Depth par p d → Depth par a (d + 1)

/-- `a` is `b` or an ancestor of `b`. -/
inductive OnPath (par : α → Option α) (a : α) : α → Prop
  | self : OnPath par a a
  | up {b p : α} : par b = some p → OnPath par a p → OnPath par a b

/-- Every walk along the parents ends. -/
def Rooted (par : α → Option α) : Prop := ∀ a, ∃ d, Depth par a d

/-- No node is its own ancestor. -/
def Acyclic (par : α → Option α) : Prop := ∀ a p, par a = some p → ¬ OnPath par a p

/-! ## Depth -/

variable {a : α} {d : ℕ}

theorem Depth.pos (h : Depth par a d) : 0 < d := by
  cases h with
  | root _ => exact Nat.one_pos
  | child _ _ => exact Nat.succ_pos _

variable {e : ℕ}

theorem Depth.unique (h : Depth par a d) (h' : Depth par a e) : d = e := by
  induction h generalizing e with
  | root ha =>
    cases h' with
    | root _ => rfl
    | child hp _ => simp [ha] at hp
  | child ha _ ih =>
    cases h' with
    | root hn => simp [ha] at hn
    | child hp hd =>
      obtain rfl := Option.some.inj (ha.symm.trans hp)
      rw [ih hd]

theorem Depth.child_iff {p : α} (h : par a = some p) :
    Depth par a d ↔ ∃ e, d = e + 1 ∧ Depth par p e := by
  constructor
  · intro hd
    cases hd with
    | root hn => simp [h] at hn
    | child hp hd =>
      obtain rfl := Option.some.inj (h.symm.trans hp)
      exact ⟨_, rfl, hd⟩
  · rintro ⟨e, rfl, hd⟩
    exact .child h hd

/-! ## Paths -/

variable {b : α}

theorem OnPath.trans {c : α} (h : OnPath par a b) (h' : OnPath par b c) : OnPath par a c := by
  induction h' with
  | self => exact h
  | up hp _ ih => exact .up hp ih

/-- Ancestors lie less deep. -/
theorem OnPath.depth_lt (h : OnPath par a b) (hne : a ≠ b)
    (ha : Depth par a d) (hb : Depth par b e) : d < e := by
  induction h generalizing e with
  | self => exact absurd rfl hne
  | @up b p hp hpath ih =>
    obtain ⟨e, rfl, hd⟩ := (Depth.child_iff hp).1 hb
    rcases eq_or_ne a p with rfl | hap
    · rw [ha.unique hd]
      exact Nat.lt_succ_self e
    · exact Nat.lt_succ_of_lt (ih hap hd)

theorem OnPath.depth_le (h : OnPath par a b) (ha : Depth par a d) (hb : Depth par b e) : d ≤ e := by
  rcases eq_or_ne a b with rfl | hne
  · exact (ha.unique hb).le
  · exact (h.depth_lt hne ha hb).le

theorem Rooted.acyclic (h : Rooted par) : Acyclic par := by
  intro a p hp hpath
  obtain ⟨d, ha⟩ := h a
  obtain ⟨e, hd⟩ := h p
  have hae := ha.unique (Depth.child hp hd)
  have := hpath.depth_le ha hd
  omega

/-- The depth of a node depends on the links of its path only. -/
theorem Depth.congr (h : Depth par b d)
    (hsame : ∀ x, OnPath par x b → par' x = par x) : Depth par' b d := by
  induction h with
  | root ha => exact .root ((hsame _ OnPath.self).trans ha)
  | child ha _ ih =>
    refine .child ((hsame _ OnPath.self).trans ha) (ih ?_)
    intro x hx
    exact hsame x (.up ha hx)

/-- A path has as many nodes as it is deep. -/
theorem Depth.le_card [DecidableEq α] {S : Finset α} (h : Depth par a d)
    (hS : ∀ x, OnPath par x a → x ∈ S) : d ≤ S.card := by
  have key : ∃ P : Finset α, P.card = d ∧ P ⊆ S
      ∧ ∀ x ∈ P, OnPath par x a := by
    induction h with
    | @root a _ =>
      refine ⟨{a}, card_singleton a, ?_, ?_⟩
      · intro x hx
        rw [mem_singleton.1 hx]
        exact hS a OnPath.self
      · intro x hx
        rw [mem_singleton.1 hx]
        exact .self
    | @child a p d ha hd ih =>
      obtain ⟨P, hcard, hsub, hpath⟩ := ih (fun x hx => hS x (.up ha hx))
      have hnot : a ∉ P := by
        intro haP
        have := (hpath a haP).depth_le (Depth.child ha hd) hd
        omega
      refine ⟨insert a P, ?_, ?_, ?_⟩
      · rw [card_insert_of_notMem hnot, hcard]
      · exact insert_subset (hS a OnPath.self) hsub
      · intro x hx
        rcases mem_insert.1 hx with rfl | hx
        · exact .self
        · exact .up ha (hpath x hx)
  obtain ⟨P, hcard, hsub, -⟩ := key
  rw [← hcard]
  exact card_le_card hsub

/-! ## Changing the links -/

/-- **Grafting**: node `n` gets the parent `q`, and the nodes of `S` get the parent `n`.
The links stay a forest if neither `n` nor a node of `S` is on the path of `q`. -/
theorem Rooted.graft (h : Rooted par) {n : α} {q : Option α} {S : Set α} (hn : par' n = q)
    (hS : ∀ x ∈ S, x ≠ n → par' x = some n) (hoff : ∀ x, x ≠ n → x ∉ S → par' x = par x)
    (hq : ∀ p, q = some p → ¬ OnPath par n p ∧ ∀ x ∈ S, ¬ OnPath par x p) : Rooted par' := by
  have hdn : ∃ d, Depth par' n d := by
    rcases q with _ | p
    · exact ⟨1, .root hn⟩
    · obtain ⟨hnp, hSp⟩ := hq p rfl
      obtain ⟨d, hd⟩ := h p
      refine ⟨d + 1, .child hn (hd.congr ?_)⟩
      intro x hx
      apply hoff x
      · rintro rfl
        exact hnp hx
      · intro hxS
        exact hSp x hxS hx
  have hbelow : ∀ x, x ∈ S ∨ x = n → ∃ d, Depth par' x d := by
    intro x hx
    rcases eq_or_ne x n with rfl | hxn
    · exact hdn
    · obtain ⟨d, hd⟩ := hdn
      rcases hx with hx | hx
      · exact ⟨d + 1, .child (hS x hx hxn) hd⟩
      · exact absurd hx hxn
  intro x
  obtain ⟨d, hd⟩ := h x
  induction hd with
  | @root x hx =>
    by_cases hxS : x ∈ S ∨ x = n
    · exact hbelow x hxS
    · rw [not_or] at hxS
      exact ⟨1, .root ((hoff x hxS.2 hxS.1).trans hx)⟩
  | @child x p d hp _ ih =>
    by_cases hxS : x ∈ S ∨ x = n
    · exact hbelow x hxS
    · rw [not_or] at hxS
      obtain ⟨e, he⟩ := ih
      exact ⟨e + 1, .child ((hoff x hxS.2 hxS.1).trans hp) he⟩

/-- **Taking a node out**: the children of `a` get the parent of `a`. -/
theorem Rooted.remove (h : Rooted par) (ha : par' a = none)
    (hchild : ∀ x, x ≠ a → par x = some a → par' x = par a)
    (hoff : ∀ x, x ≠ a → par x ≠ some a → par' x = par x) : Rooted par' := by
  have key : ∀ x d, Depth par x d →
      (∃ e, Depth par' x e) ∧ ∀ q, par x = some q → ∃ e, Depth par' q e := by
    intro x d hd
    induction hd with
    | @root x hx =>
      refine ⟨⟨1, .root ?_⟩, by simp [hx]⟩
      rcases eq_or_ne x a with rfl | hxa
      · exact ha
      · exact (hoff x hxa (by simp [hx])).trans hx
    | @child x p d hp _ ih =>
      refine ⟨?_, ?_⟩
      · rcases eq_or_ne x a with rfl | hxa
        · exact ⟨1, .root ha⟩
        · rcases eq_or_ne p a with rfl | hpa
          · have hx := hchild x hxa hp
            rcases hq : par p with _ | q
            · exact ⟨1, .root (hx.trans hq)⟩
            · obtain ⟨e, he⟩ := ih.2 q hq
              exact ⟨e + 1, .child (hx.trans hq) he⟩
          · obtain ⟨e, he⟩ := ih.1
            refine ⟨e + 1, .child ((hoff x hxa ?_).trans hp) he⟩
            rw [hp]
            exact fun heq => hpa (Option.some.inj heq)
      · intro q hq
        obtain rfl := Option.some.inj (hp.symm.trans hq)
        exact ih.1
  intro x
  obtain ⟨d, hd⟩ := h x
  exact (key x d hd).1

/-- The depth as a function. -/
noncomputable def Rooted.depth (h : Rooted par) (a : α) : ℕ := Classical.choose (h a)

theorem Rooted.depth_spec (h : Rooted par) (a : α) : Depth par a (h.depth a) :=
  Classical.choose_spec (h a)

theorem Rooted.depth_child (h : Rooted par) {p : α} (hp : par a = some p) :
    h.depth a = h.depth p + 1 :=
  (h.depth_spec a).unique (.child hp (h.depth_spec p))

end Forest
