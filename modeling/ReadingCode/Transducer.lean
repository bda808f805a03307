/-
# Transducers fed in pieces

A transducer reads letters one at a time, emits output as it goes, and may halt
with a verdict.  The one general fact a streaming parser needs is that feeding a
word in pieces is the same as feeding it whole (`feed_eq_run_flatten`): once a
program's per-buffer loop has been identified with such a run, its independence
from the way the input is cut is this theorem.
-/

namespace Transducer

open List

universe u v w x

variable {σ : Type u} {α : Type v} {ω : Type w} {ρ : Type x}

/-! ## Runs -/

/-- What one letter does: go on with a new state and some output, or halt. -/
inductive Move (σ : Type u) (ω : Type w) (ρ : Type x) where
  | next (s : σ) (out : List ω)
  | halt (r : ρ)

/-- How a run stands after its input: still live, or halted with the letters it
has not read. -/
inductive Ending (σ : Type u) (α : Type v) (ρ : Type x) where
  | live (s : σ)
  | halted (r : ρ) (rest : List α)

/-- The output of a run together with how it stands. -/
abbrev Outcome (σ : Type u) (α : Type v) (ω : Type w) (ρ : Type x) :=
  List ω × Ending σ α ρ

/-- Run a transducer over a word.  The letter that halts the run is read. -/
def run (step : σ → α → Move σ ω ρ) : σ → List α → Outcome σ α ω ρ
  | s, [] => ([], .live s)
  | s, a :: u =>
    match step s a with
    | .next s' out => (out ++ (run step s' u).1, (run step s' u).2)
    | .halt r => ([], .halted r u)

/-- Continue an outcome with a function of the state, should it still be live. -/
def Outcome.andThen (o : Outcome σ α ω ρ) (k : σ → Outcome σ α ω ρ) (more : List α) :
    Outcome σ α ω ρ :=
  match o.2 with
  | .live s => (o.1 ++ (k s).1, (k s).2)
  | .halted r rest => (o.1, .halted r (rest ++ more))

/-- Feed a transducer a list of words one after another; a halted run ignores
the words that follow. -/
def feed (step : σ → α → Move σ ω ρ) : σ → List (List α) → Outcome σ α ω ρ
  | s, [] => ([], .live s)
  | s, u :: us => (run step s u).andThen (fun s' => feed step s' us) us.flatten

variable (step : σ → α → Move σ ω ρ)

@[simp] theorem run_nil (s : σ) : run step s [] = ([], .live s) := rfl

theorem run_cons_next {s s' : σ} {a : α} {out : List ω} (h : step s a = .next s' out) (u : List α) :
    run step s (a :: u) = (out ++ (run step s' u).1, (run step s' u).2) := by
  rw [run, h]

theorem run_cons_halt {s : σ} {a : α} {r : ρ} (h : step s a = .halt r) (u : List α) :
    run step s (a :: u) = ([], .halted r u) := by
  rw [run, h]

/-! ## Cutting the input -/

/-- Running over a concatenation is running over its two parts. -/
theorem run_append (s : σ) (u v : List α) :
    run step s (u ++ v) = (run step s u).andThen (fun s' => run step s' v) v := by
  induction u generalizing s with
  | nil => simp [Outcome.andThen]
  | cons a u ih =>
    cases h : step s a with
    | next s' out =>
      rw [cons_append, run_cons_next step h, run_cons_next step h, ih]
      cases h2 : (run step s' u).2 <;> simp [Outcome.andThen, h2]
    | halt r =>
      rw [cons_append, run_cons_halt step h, run_cons_halt step h]
      rfl

/-- **Cut invariance**: feeding words one after another is running over their
concatenation. -/
theorem feed_eq_run_flatten (s : σ) (us : List (List α)) :
    feed step s us = run step s us.flatten := by
  induction us generalizing s with
  | nil => rfl
  | cons u us ih =>
    rw [feed, flatten_cons, run_append]
    congr 1
    funext s'
    exact ih s'

/-- What every letter preserves holds of the state of a live run. -/
theorem live_of_run {P : σ → List α → Prop}
    (hstep : ∀ s v a s' out, P s v → step s a = .next s' out → P s' (v ++ [a])) {s s' : σ}
    {u v : List α} {out : List ω} (hs : P s v) (h : run step s u = (out, .live s')) :
    P s' (v ++ u) := by
  induction u generalizing s v out with
  | nil =>
    cases h
    rwa [append_nil]
  | cons a u ih =>
    cases ha : step s a with
    | next t o =>
      rw [run_cons_next step ha] at h
      obtain ⟨-, h2⟩ := Prod.mk.inj h
      rw [append_cons]
      exact ih (hstep s v a t o hs ha) (Prod.ext rfl h2)
    | halt r =>
      rw [run_cons_halt step ha] at h
      cases h

end Transducer
