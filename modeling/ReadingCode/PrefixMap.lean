/-
# Prefix maps and linked trees

A prefix map gives values to words; looking a word up gives the value of its longest prefix
that has one.

A linked tree is a set of nodes with links, `child a b` being where the link `b` of the node
`a` leads.  A word leads from the root to a node, and in a tree no two words lead to the
same one.  Linking a new leaf and unlinking an old one change where just one word leads.
-/
import Mathlib.Data.List.Induction

/-! ## Prefix maps -/

namespace PrefixMap

variable {B V : Type*}

/-- The value of the longest prefix that has one. -/
def lookup : (List B → Option V) → List B → Option V
  | m, [] => m []
  | m, b :: q => (lookup (fun p => m (b :: p)) q).or (m [])

/-- Nothing is found just when no prefix has a value. -/
theorem lookup_eq_none_iff {m : List B → Option V} {q : List B} :
    lookup m q = none ↔ ∀ p, p <+: q → m p = none := by
  induction q generalizing m with
  | nil =>
    simp only [lookup, List.prefix_nil]
    exact ⟨fun h p hp => hp ▸ h, fun h => h [] rfl⟩
  | cons b q ih =>
    simp only [lookup, Option.or_eq_none_iff, ih]
    constructor
    · rintro ⟨h1, h2⟩ p hp
      rcases List.prefix_cons_iff.1 hp with rfl | ⟨p, rfl, hp1⟩
      · exact h2
      · exact h1 p hp1
    · intro h
      exact ⟨fun p hp => h (b :: p) (List.cons_prefix_cons.2 ⟨rfl, hp⟩), h [] List.nil_prefix⟩

/-- The map with another value for one word. -/
def set [DecidableEq B] (m : List B → Option V) (p : List B) (v : Option V) :
    List B → Option V :=
  fun q => if q = p then v else m q

end PrefixMap

/-! ## Linked trees -/

namespace LinkedTree

variable {A B : Type*}

/-- Where a word leads from a node. -/
def walk (child : A → B → Option A) (a : A) : List B → Option A
  | [] => some a
  | b :: q => (child a b).bind fun c => walk child c q

/-- No two words lead from the root to the same node. -/
def IsTree (child : A → B → Option A) (root : A) : Prop :=
  ∀ ⦃p q a⦄, walk child root p = some a → walk child root q = some a → p = q

variable {child child' : A → B → Option A} {root a n : A} {b : B} {p : List B}

theorem walk_append (p q : List B) :
    walk child a (p ++ q) = (walk child a p).bind fun c => walk child c q := by
  induction p generalizing a with
  | nil => rfl
  | cons b p ih =>
    simp only [List.cons_append, walk]
    cases child a b with
    | none => rfl
    | some c => exact ih

theorem walk_concat (p : List B) (b : B) :
    walk child a (p ++ [b]) = (walk child a p).bind fun c => child c b := by
  rw [walk_append]
  congr 1
  funext c
  simp only [walk]
  cases child c b <;> rfl

variable [DecidableEq A] [DecidableEq B]

/-- A new leaf `n` is linked to the node of `p`: one word more leads somewhere. -/
theorem walk_attach (htree : IsTree child root) (hp : walk child root p = some a)
    (hfree : child a b = none) (hn : ∀ q, walk child root q ≠ some n)
    (hleaf : ∀ c, child' n c = none)
    (hchild : ∀ x c, x ≠ n → child' x c = if x = a ∧ c = b then some n else child x c) (q : List B)
    : walk child' root q = if q = p ++ [b] then some n else walk child root q := by
  induction q using List.reverseRecOn with
  | nil => rw [if_neg (by simp)]; rfl
  | append_singleton q c ih =>
    rw [walk_concat, ih]
    by_cases hq : q = p ++ [b]
    · -- Nothing is below the new leaf.
      subst hq
      rw [if_pos rfl, walk_concat, walk_concat, hp]
      simp [hleaf, hfree]
    · rw [if_neg hq, walk_concat]
      rcases hx : walk child root q with _ | x
      · have hne : q ++ [c] ≠ p ++ [b] := by
          intro h
          obtain ⟨rfl, -⟩ := List.append_inj' h rfl
          rw [hp] at hx
          cases hx
        rw [if_neg hne]
        rfl
      · have hxn : x ≠ n := fun h => hn q (h ▸ hx)
        show child' x c = if q ++ [c] = p ++ [b] then some n else child x c
        rw [hchild x c hxn]
        refine if_congr ⟨?_, fun h => ?_⟩ rfl rfl
        · rintro ⟨rfl, rfl⟩
          rw [htree hx hp]
        · obtain ⟨rfl, h⟩ := List.append_inj' h rfl
          rw [hp] at hx
          exact ⟨(Option.some.inj hx).symm, by simpa using h⟩

theorem IsTree.attach (htree : IsTree child root) (hp : walk child root p = some a)
    (hfree : child a b = none) (hn : ∀ q, walk child root q ≠ some n)
    (hleaf : ∀ c, child' n c = none)
    (hchild : ∀ x c, x ≠ n → child' x c = if x = a ∧ c = b then some n else child x c) :
    IsTree child' root := by
  intro q r x hq hr
  rw [walk_attach htree hp hfree hn hleaf hchild] at hq hr
  split at hq <;> split at hr
  · simp [*]
  · cases hq
    exact absurd hr (hn r)
  · cases hr
    exact absurd hq (hn q)
  · exact htree hq hr

/-- The leaf `n` is unlinked from the node of `p`: one word less leads somewhere. -/
theorem walk_detach (htree : IsTree child root) (hp : walk child root p = some a)
    (hb : child a b = some n) (hleaf : ∀ c, child n c = none)
    (hchild : ∀ x c, x ≠ n → child' x c = if x = a ∧ c = b then none else child x c) (q : List B) :
    walk child' root q = if q = p ++ [b] then none else walk child root q := by
  have hn : walk child root (p ++ [b]) = some n := by rw [walk_concat, hp]; exact hb
  induction q using List.reverseRecOn with
  | nil => rw [if_neg (by simp)]; rfl
  | append_singleton q c ih =>
    rw [walk_concat, ih]
    by_cases hq : q = p ++ [b]
    · subst hq
      rw [if_pos rfl, walk_concat, hn]
      simp [hleaf]
    · rw [if_neg hq, walk_concat]
      rcases hx : walk child root q with _ | x
      · simp
      · have hxn : x ≠ n := by
          rintro rfl
          exact hq (htree hx hn)
        show child' x c = if q ++ [c] = p ++ [b] then none else child x c
        rw [hchild x c hxn]
        refine if_congr ⟨?_, fun h => ?_⟩ rfl rfl
        · rintro ⟨rfl, rfl⟩
          rw [htree hx hp]
        · obtain ⟨rfl, h⟩ := List.append_inj' h rfl
          rw [hp] at hx
          exact ⟨(Option.some.inj hx).symm, by simpa using h⟩

theorem IsTree.detach (htree : IsTree child root) (hp : walk child root p = some a)
    (hb : child a b = some n) (hleaf : ∀ c, child n c = none)
    (hchild : ∀ x c, x ≠ n → child' x c = if x = a ∧ c = b then none else child x c) :
    IsTree child' root := by
  intro q r x hq hr
  rw [walk_detach htree hp hb hleaf hchild] at hq hr
  split at hq <;> split at hr
  · cases hq
  · cases hq
  · cases hr
  · exact htree hq hr

end LinkedTree
