/-
# Memory with bounds

A read or a write outside of its memory has no result.  An area that is written from its beginning
on is the list of what was written, and how many cells are left.  A loop goes on while its guard
holds, and has no result when a round of it has none.
-/
import Mathlib.Data.List.Basic
import Mathlib.Logic.Relation

namespace BoundedMemory

variable {α σ : Type*}

/-! ## Failures -/

/-- A function returns an error; or it does what has no meaning, as an access outside of a buffer,
the use of a cell that was never written, or a count beyond the largest integer. -/
inductive Failure
  | err
  | undefined
  deriving DecidableEq

/-- What has no result has no meaning. -/
def orUndefined {α : Type} : Option α → Except Failure α
  | some a => .ok a
  | none => .error .undefined

theorem ok_bind {α B : Type} (a : α) (f : α → Except Failure B) : (Except.ok a >>= f) = f a := rfl

/-- A function returns an error, or a result as it is to be. -/
def Defined {α : Type} (Q : α → Prop) : Except Failure α → Prop
  | .ok a => Q a
  | .error f => f = .err

namespace Defined

variable {α B : Type} {P : α → Prop} {Q : B → Prop}

theorem ok {a : α} (h : P a) : Defined P (.ok a) := h

theorem err : Defined P (.error .err) := rfl

variable {x : Except Failure α}

theorem mono {P' : α → Prop} (hx : Defined P x) (h : ∀ a, P a → P' a) : Defined P' x := by
  cases x with
  | ok a => exact h a hx
  | error e => exact hx

/-- What follows is defined for every result. -/
theorem bind {f : α → Except Failure B} (hx : Defined P x)
    (hf : ∀ a, P a → Defined Q (f a)) : Defined Q (x >>= f) := by
  cases x with
  | ok a => exact hf a hx
  | error e => exact hx

theorem ne_undefined (h : Defined P x) : x ≠ .error .undefined := by
  rintro rfl
  cases h

end Defined

/-! ## Cells -/

/-- `mem[i] = x` -/
def store (mem : List α) (i : ℕ) (x : α) : Option (List α) :=
  if i < mem.length then some (mem.set i x) else none

/-- The cell behind what was written so far. -/
theorem store_append (out rest : List α) (c x : α) :
    store (out ++ c :: rest) out.length x = some (out ++ x :: rest) := by
  have hin : out.length < (out ++ c :: rest).length := by
    rw [List.length_append, List.length_cons]
    omega
  rw [store, if_pos hin, List.set_append_right out.length x (Nat.le_refl _), Nat.sub_self,
    List.set_cons_zero]

/-! ## Areas -/

/-- What was written in an area, and how many cells are left in it. -/
structure Area (α : Type*) where
  written : List α
  room : ℕ

namespace Area

open List

/-- An area of `n` cells. -/
def alloc (n : ℕ) : Area α := ⟨[], n⟩

/-- `*p++ = x` -/
def put (a : Area α) (x : α) : Option (Area α) :=
  match a.room with
  | 0 => none
  | room + 1 => some ⟨a.written ++ [x], room⟩

theorem put_of_pos (a : Area α) (x : α) (h : 0 < a.room) :
    a.put x = some ⟨a.written ++ [x], a.room - 1⟩ := by
  obtain ⟨written, room⟩ := a
  cases room with
  | zero => exact absurd h (Nat.lt_irrefl 0)
  | succ room => rfl

/-- Several cells one after the other. -/
def putAll (a : Area α) : List α → Option (Area α)
  | [] => some a
  | x :: xs => (a.put x).bind fun a => a.putAll xs

@[simp] theorem putAll_nil (a : Area α) : a.putAll [] = some a := rfl

theorem putAll_singleton (a : Area α) (x : α) : a.putAll [x] = a.put x := by
  rw [putAll]
  cases a.put x <;> rfl

theorem putAll_append (a : Area α) (xs ys : List α) :
    a.putAll (xs ++ ys) = (a.putAll xs).bind fun a => a.putAll ys := by
  induction xs generalizing a with
  | nil => rfl
  | cons x xs ih =>
    rw [cons_append, putAll, putAll, Option.bind_assoc]
    congr 1
    funext b
    exact ih b

/-- What has room is written. -/
theorem putAll_of_le (a : Area α) (xs : List α) (h : xs.length ≤ a.room) :
    a.putAll xs = some ⟨a.written ++ xs, a.room - xs.length⟩ := by
  induction xs generalizing a with
  | nil => simp
  | cons x xs ih =>
    rw [length_cons] at h
    have hlen : xs.length ≤ a.room - 1 := by omega
    rw [putAll, put_of_pos a x (by omega), Option.bind_some, ih _ hlen]
    simp only [append_assoc, cons_append, nil_append, length_cons, Nat.sub_sub, Nat.add_comm]

theorem orUndefined_put {α B : Type} (a : Area α) (x : α) (h : 0 < a.room)
    (f : Area α → Except Failure B) :
    (orUndefined (a.put x) >>= f) = f ⟨a.written ++ [x], a.room - 1⟩ := by
  rw [put_of_pos a x h]
  rfl

end Area

/-! ## Loops -/

/-- `while (guard) body` -/
structure Loop (σ : Type*) where
  guard : σ → Bool
  body : σ → Option σ

namespace Loop

variable (L : Loop σ)

/-- A round. -/
def Step (s t : σ) : Prop := L.guard s = true ∧ L.body s = some t

/-- The states in which a round begins or the loop ends. -/
def Reaches (s t : σ) : Prop := Relation.ReflTransGen L.Step s t

/-- The state after the loop, which takes `fuel` rounds at most. -/
def run : ℕ → σ → Option σ
  | 0, s => if L.guard s then none else some s
  | fuel + 1, s => if L.guard s then (L.body s).bind (run fuel) else some s

variable {L}

variable {P : σ → Prop} {s : σ}

theorem run_of_not_guard (fuel : ℕ) (h : L.guard s = false) : L.run fuel s = some s := by
  cases fuel <;> rw [run, h] <;> rfl

theorem run_of_guard (fuel : ℕ) (h : L.guard s = true) :
    L.run (fuel + 1) s = (L.body s).bind (L.run fuel) := by
  rw [run, if_pos h]

/-- What every round keeps holds in every state that is reached. -/
theorem Reaches.keeps {t : σ} (h : L.Reaches s t)
    (hstep : ∀ s t, P s → L.Step s t → P t) (hs : P s) : P t := by
  induction h with
  | refl => exact hs
  | tail _ hst ih => exact hstep _ _ ih hst

/-- A loop of which every round has a result and comes closer to the end has one. -/
theorem run_of_measure (m : σ → ℕ)
    (hbody : ∀ s, P s → L.guard s = true → ∃ t, L.body s = some t ∧ P t ∧ m t < m s) :
    ∀ (fuel : ℕ) (s : σ), P s → m s ≤ fuel →
      ∃ t, L.run fuel s = some t ∧ P t ∧ L.guard t = false := by
  intro fuel
  induction fuel with
  | zero =>
    intro s hs hm
    cases hg : L.guard s with
    | false => exact ⟨s, run_of_not_guard 0 hg, hs, hg⟩
    | true =>
      obtain ⟨t, -, -, hlt⟩ := hbody s hs hg
      omega
  | succ fuel ih =>
    intro s hs hm
    cases hg : L.guard s with
    | false => exact ⟨s, run_of_not_guard _ hg, hs, hg⟩
    | true =>
      obtain ⟨t, ht, hPt, hlt⟩ := hbody s hs hg
      rw [run_of_guard fuel hg, ht]
      exact ih t hPt (by omega)

end Loop

end BoundedMemory
