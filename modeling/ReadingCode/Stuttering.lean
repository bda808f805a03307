/-
# Simulation up to stuttering

Two deterministic systems, of which the first takes steps that the second does not take.  When
every step of the first is a step or none of the second, and the first always comes to the next
step of the second, each goes through the related states of the other.
-/
import Mathlib.Logic.Function.Iterate

namespace Stuttering

open Function

variable {α β ω : Type} {f : α → α} {g : β → β} {R : α → β → Prop} {a : α} {b : β}

/-- Each step of the first system is a step or none of the second. -/
def Follows (f : α → α) (g : β → β) (R : α → β → Prop) : Prop :=
  ∀ a b, R a b → R (f a) b ∨ R (f a) (g b)

/-- The first system comes to each step of the second. -/
def Leads (f : α → α) (g : β → β) (R : α → β → Prop) : Prop :=
  ∀ a b, R a b → ∃ n, R (f^[n] a) (g b)

theorem Follows.run (h : Follows f g R) (hab : R a b) (n : ℕ) : ∃ m, R (f^[n] a) (g^[m] b) := by
  induction n with
  | zero => exact ⟨0, hab⟩
  | succ n ih =>
    obtain ⟨m, hm⟩ := ih
    rw [iterate_succ_apply']
    rcases h _ _ hm with hstay | hstep
    · exact ⟨m, hstay⟩
    · refine ⟨m + 1, ?_⟩
      rw [iterate_succ_apply']
      exact hstep

theorem Leads.run (h : Leads f g R) (hab : R a b) (m : ℕ) : ∃ n, R (f^[n] a) (g^[m] b) := by
  induction m with
  | zero => exact ⟨0, hab⟩
  | succ m ih =>
    obtain ⟨n, hn⟩ := ih
    obtain ⟨k, hk⟩ := h _ _ hn
    refine ⟨k + n, ?_⟩
    rw [iterate_add_apply, iterate_succ_apply']
    exact hk

/-- What a run of a system records up to some step begins with `l`. -/
def Records (f : α → α) (record : α → List ω) (a : α) (l : List ω) : Prop :=
  ∃ n, l <+: record (f^[n] a)

variable {record : α → List ω}

/-- A run comes to what it records from a later state on. -/
theorem Records.of_iterate {n : ℕ} {l : List ω}
    (h : Records f record (f^[n] a) l) : Records f record a l := by
  obtain ⟨m, hm⟩ := h
  rw [← iterate_add_apply] at hm
  exact ⟨m + n, hm⟩

/-- Related systems that record the same come to the same records. -/
theorem records_iff {record' : β → List ω} (hf : Follows f g R)
    (hl : Leads f g R) (hR : ∀ a b, R a b → record a = record' b) (hab : R a b) (l : List ω) :
    Records f record a l ↔ Records g record' b l := by
  constructor
  · rintro ⟨n, hn⟩
    obtain ⟨m, hm⟩ := hf.run hab n
    rw [hR _ _ hm] at hn
    exact ⟨m, hn⟩
  · rintro ⟨m, hm⟩
    obtain ⟨n, hn⟩ := hl.run hab m
    rw [← hR _ _ hn] at hm
    exact ⟨n, hm⟩

/-- A system that goes on recording. -/
def Grows (f : α → α) (record : α → List ω) : Prop := ∀ a, record a <+: record (f a)

theorem Grows.run (h : Grows f record) (a : α) (n : ℕ) : record a <+: record (f^[n] a) := by
  induction n with
  | zero => exact List.prefix_rfl
  | succ n ih =>
    rw [iterate_succ_apply']
    exact ih.trans (h _)

theorem Grows.length_le (h : Grows f record) (a : α) {i n : ℕ}
    (hin : i ≤ n) : (record (f^[i] a)).length ≤ (record (f^[n] a)).length := by
  obtain ⟨d, rfl⟩ := Nat.exists_eq_add_of_le hin
  rw [Nat.add_comm, iterate_add_apply]
  exact (h.run _ d).length_le

/-- Of records of one length there is only one. -/
theorem Records.unique (h : Grows f record) {l l' : List ω} (hl : Records f record a l)
    (hl' : Records f record a l') (hlen : l.length = l'.length) : l = l' := by
  obtain ⟨n, hn⟩ := hl
  obtain ⟨m, hm⟩ := hl'
  have hn' : l <+: record (f^[m + n] a) := by
    rw [iterate_add_apply]
    exact hn.trans (h.run _ m)
  have hm' : l' <+: record (f^[m + n] a) := by
    rw [Nat.add_comm, iterate_add_apply]
    exact hm.trans (h.run _ n)
  exact (List.prefix_of_prefix_length_le hn' hm' (Nat.le_of_eq hlen)).eq_of_length hlen

end Stuttering
