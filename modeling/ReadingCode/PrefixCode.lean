/-
# Prefix codes

A code gives each symbol a word, none of which is a prefix of another.  Whatever is read
after the words of a message, the message is determined as soon as what is left over is
cut short within a word: this is `isPrefix_of_encode`, from which unique decoding
(`encode_append_inj`) follows.
-/
import Mathlib.Data.List.Infix

namespace PrefixCode

open List

universe u v

variable {α : Type u} {β : Type v} (code : α → List β)

/-- The words of a message, one after another. -/
def encode (s : List α) : List β := s.flatMap code

/-- No word is a prefix of another. -/
def PrefixFree : Prop := ∀ a b, code a <+: code b → a = b

/-- A word that has been cut short. -/
def IsTail (t : List β) : Prop := ∃ a, t <+: code a ∧ t ≠ code a

@[simp] theorem encode_nil : encode code [] = [] := rfl

@[simp] theorem encode_cons (a : α) (s : List α) : encode code (a :: s) = code a ++ encode code s :=
  rfl

@[simp] theorem encode_append (s s' : List α) :
    encode code (s ++ s') = encode code s ++ encode code s' := by
  simp [encode]

variable {code}

/-- A word that has been cut short does not begin with a word. -/
theorem IsTail.not_prefix (hfree : PrefixFree code) {t : List β} (ht : IsTail code t) (a : α) :
    ¬ code a <+: t := by
  intro h
  obtain ⟨b, htb, hne⟩ := ht
  obtain rfl := hfree a b (h.trans htb)
  exact hne (htb.eq_of_length (le_antisymm htb.length_le h.length_le))

/-- **A message is read off its words**: what can be read as the words of `s` begins the
message `s'` whose words are followed by a word cut short. -/
theorem isPrefix_of_encode (hfree : PrefixFree code) {s s' : List α} {x t : List β}
    (ht : IsTail code t) (h : encode code s ++ x = encode code s' ++ t) : s <+: s' := by
  induction s generalizing s' with
  | nil => exact nil_prefix
  | cons a s ih =>
    rw [encode_cons, append_assoc] at h
    rcases s' with _ | ⟨b, s'⟩
    · exact absurd ⟨_, h⟩ (ht.not_prefix hfree a)
    · rw [encode_cons, append_assoc] at h
      have ha : code a <+: code b ++ (encode code s' ++ t) := ⟨_, h⟩
      obtain rfl : a = b := by
        rcases prefix_or_prefix_of_prefix ha (prefix_append _ _) with hab | hba
        · exact hfree a b hab
        · exact (hfree b a hba).symm
      rw [append_cancel_left_eq] at h
      exact prefix_cons_inj a |>.mpr (ih h)

/-- **Unique decoding**, with a word cut short at the end. -/
theorem encode_append_inj (hfree : PrefixFree code) {s s' : List α} {t t' : List β}
    (ht : IsTail code t) (ht' : IsTail code t')
    (h : encode code s ++ t = encode code s' ++ t') : s = s' ∧ t = t' := by
  have hle := isPrefix_of_encode hfree ht' h
  have hge := isPrefix_of_encode hfree ht h.symm
  obtain rfl := hle.eq_of_length (le_antisymm hle.length_le hge.length_le)
  exact ⟨rfl, append_cancel_left h⟩

end PrefixCode
