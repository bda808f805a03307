/-
# The order of words and their prefixes

Words over an alphabet whose letters have a rank.  Of two words either one is a prefix of the
other, or they branch: they agree up to a place where one of them has the letter of lower
rank.  A word precedes another if it is a proper prefix of it or branches below it.  Between
a word and an extension of it there are extensions of it only (`Precedes.prefix_between`),
which is what lets a sorted list of words be searched for prefixes.
-/
import Mathlib

namespace PrefixOrder

open List

variable {α β : Type*} [LinearOrder β] {rank : α → β}

/-! ## Branching -/

/-- At the first place where the words differ the first has the letter of lower rank. -/
inductive Branches (rank : α → β) : List α → List α → Prop
  | here {x y : α} (a b : List α) (h : rank x < rank y) : Branches rank (x :: a) (y :: b)
  | cons (x : α) {a b : List α} (h : Branches rank a b) : Branches rank (x :: a) (x :: b)

variable {a b : List α}

theorem Branches.mono {a' b' : List α} (h : Branches rank a b) (ha : a <+: a')
    (hb : b <+: b') : Branches rank a' b' := by
  induction h generalizing a' b' with
  | here a b h =>
    obtain ⟨s, rfl⟩ := ha
    obtain ⟨t, rfl⟩ := hb
    exact .here _ _ h
  | cons x h ih =>
    obtain ⟨s, rfl⟩ := ha
    obtain ⟨t, rfl⟩ := hb
    exact .cons x (ih (prefix_append _ _) (prefix_append _ _))

theorem Branches.not_pre (h : Branches rank a b) : ¬ a <+: b := by
  induction h with
  | here a b h =>
    intro hp
    rw [cons_prefix_cons] at hp
    rw [hp.1] at h
    exact lt_irrefl _ h
  | cons x h ih => exact fun hp => ih (cons_prefix_cons.1 hp).2

/-- In the order of the ranks the other way. -/
theorem Branches.dual (h : Branches rank a b) : Branches (OrderDual.toDual ∘ rank) b a := by
  induction h with
  | here a b h => exact .here _ _ h
  | cons x h ih => exact .cons x ih

theorem Branches.not_pre' (h : Branches rank a b) : ¬ b <+: a := h.dual.not_pre

theorem Branches.asymm (h : Branches rank a b) : ¬ Branches rank b a := by
  induction h with
  | here a b h =>
    intro h'
    cases h' with
    | here _ _ h' => exact lt_asymm h h'
    | cons _ _ => exact lt_irrefl _ h
  | cons x h ih =>
    intro h'
    cases h' with
    | here _ _ h' => exact lt_irrefl _ h'
    | cons _ h' => exact ih h'

variable {c : List α}

theorem Branches.trans (h : Branches rank a b) (h' : Branches rank b c) : Branches rank a c := by
  induction h generalizing c with
  | here a b h =>
    cases h' with
    | here _ _ h' => exact .here _ _ (lt_trans h h')
    | cons _ _ => exact .here _ _ h
  | cons x h ih =>
    cases h' with
    | here _ _ h' => exact .here _ _ h'
    | cons _ h' => exact .cons x (ih h')

/-- A prefix of the second word is one of the first too, unless the first branches below it. -/
theorem Branches.prefix_right (h : Branches rank a b) (hc : c <+: b) :
    c <+: a ∨ Branches rank a c := by
  induction h generalizing c with
  | here a b h =>
    rcases c with _ | ⟨z, c⟩
    · exact .inl nil_prefix
    · rw [cons_prefix_cons] at hc
      obtain ⟨rfl, -⟩ := hc
      exact .inr (.here _ _ h)
  | cons x h ih =>
    rcases c with _ | ⟨z, c⟩
    · exact .inl nil_prefix
    · rw [cons_prefix_cons] at hc
      obtain ⟨rfl, hc⟩ := hc
      rcases ih hc with h1 | h1
      · exact .inl (cons_prefix_cons.2 ⟨rfl, h1⟩)
      · exact .inr (.cons _ h1)

theorem Branches.prefix_left (h : Branches rank a b) (hc : c <+: a) :
    c <+: b ∨ Branches rank c b := (h.dual.prefix_right hc).imp_right Branches.dual

theorem Branches.append_left (p : List α) (h : Branches rank a b) :
    Branches rank (p ++ a) (p ++ b) := by
  induction p with
  | nil => exact h
  | cons x p ih => exact .cons x ih

/-- Two words are comparable as prefixes, or they branch. -/
theorem prefix_or_branches (hrank : Function.Injective rank) (a b : List α) :
    a <+: b ∨ b <+: a ∨ Branches rank a b ∨ Branches rank b a := by
  induction a generalizing b with
  | nil => exact .inl nil_prefix
  | cons x a ih =>
    rcases b with _ | ⟨y, b⟩
    · exact .inr (.inl nil_prefix)
    · rcases lt_trichotomy (rank x) (rank y) with h | h | h
      · exact .inr (.inr (.inl (.here _ _ h)))
      · rw [hrank h]
        rcases ih b with h | h | h | h
        · exact .inl (cons_prefix_cons.2 ⟨rfl, h⟩)
        · exact .inr (.inl (cons_prefix_cons.2 ⟨rfl, h⟩))
        · exact .inr (.inr (.inl (.cons y h)))
        · exact .inr (.inr (.inr (.cons y h)))
      · exact .inr (.inr (.inr (.here _ _ h)))

/-! ## The order -/

/-- The first word is a proper prefix of the second, or branches below it. -/
def Precedes (rank : α → β) (a b : List α) : Prop := (a <+: b ∧ a ≠ b) ∨ Branches rank a b

theorem Precedes.cons (x : α) (h : Precedes rank a b) : Precedes rank (x :: a) (x :: b) := by
  rcases h with ⟨hab, hne⟩ | h
  · exact .inl ⟨cons_prefix_cons.2 ⟨rfl, hab⟩, fun he => hne (List.cons.inj he).2⟩
  · exact .inr (.cons x h)

theorem Precedes.irrefl (a : List α) : ¬ Precedes rank a a := by
  rintro (⟨-, h⟩ | h)
  · exact h rfl
  · exact h.not_pre (prefix_refl a)

/-- What precedes a prefix of a word precedes the word or is between the two. -/
theorem Precedes.trans (h : Precedes rank a b) (h' : Precedes rank b c) : Precedes rank a c := by
  rcases h with ⟨hab, hne⟩ | h
  · rcases h' with ⟨hbc, -⟩ | h'
    · refine .inl ⟨hab.trans hbc, ?_⟩
      rintro rfl
      exact hne (hab.eq_of_length_le hbc.length_le)
    · rcases h'.prefix_left hab with hac | hac
      · refine .inl ⟨hac, ?_⟩
        rintro rfl
        exact h'.not_pre' hab
      · exact .inr hac
  · rcases h' with ⟨hbc, -⟩ | h'
    · exact .inr (h.mono (prefix_refl a) hbc)
    · exact .inr (h.trans h')

theorem Precedes.asymm (h : Precedes rank a b) : ¬ Precedes rank b a :=
  fun h' => Precedes.irrefl a (h.trans h')

theorem precedes_trichotomy (hrank : Function.Injective rank) (a b : List α) :
    a = b ∨ Precedes rank a b ∨ Precedes rank b a := by
  rcases prefix_or_branches hrank a b with h | h | h | h
  · by_cases he : a = b
    · exact .inl he
    · exact .inr (.inl (.inl ⟨h, he⟩))
  · by_cases he : a = b
    · exact .inl he
    · exact .inr (.inr (.inl ⟨h, fun h => he h.symm⟩))
  · exact .inr (.inl (.inr h))
  · exact .inr (.inr (.inr h))

/-- An extension does not precede the word. -/
theorem Precedes.not_pre (h : Precedes rank a b) : ¬ b <+: a := by
  rcases h with ⟨hab, hne⟩ | h
  · exact fun hba => hne (hab.eq_of_length_le hba.length_le)
  · exact h.not_pre'

/-- Between a word and its extension lie extensions of it. -/
theorem Precedes.prefix_between (hab : Precedes rank a b)
    (hbc : Precedes rank b c) (hac : a <+: c) : a <+: b := by
  rcases hab with ⟨h, -⟩ | h
  · exact h
  · exfalso
    rcases hbc with ⟨hbc, -⟩ | hbc
    · exact (h.mono (prefix_refl a) hbc).not_pre hac
    · exact (h.trans hbc).not_pre hac

end PrefixOrder
