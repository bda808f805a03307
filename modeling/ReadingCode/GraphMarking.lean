/-
# Depth-first marking as a list of events

A depth-first walk enters every node once and touches the head of every edge it
follows.  What the walk does to its state is the replay of these events, so that
a walk is specified by the events alone: which nodes were entered, which edges
were touched, and that nothing reachable was left out.
-/
import Mathlib.Data.Fintype.Card

namespace Marking

/-! ## Events and their replay -/

/-- What a walk does: it enters a node, or touches the head of an edge. -/
inductive Op (α : Type*) where
  | enter (v : α)
  | touch (v : α)

variable {α σ τ : Type*}

/-- The nodes entered, in order. -/
def entered : List (Op α) → List α
  | [] => []
  | .enter v :: ops => v :: entered ops
  | .touch _ :: ops => entered ops

/-- The heads of the edges followed, in order. -/
def touched : List (Op α) → List α
  | [] => []
  | .enter _ :: ops => touched ops
  | .touch v :: ops => v :: touched ops

@[simp] theorem entered_append (ops ops' : List (Op α)) :
    entered (ops ++ ops') = entered ops ++ entered ops' := by
  induction ops with
  | nil => rfl
  | cons op ops ih => cases op <;> simp [entered, ih]

@[simp] theorem touched_append (ops ops' : List (Op α)) :
    touched (ops ++ ops') = touched ops ++ touched ops' := by
  induction ops with
  | nil => rfl
  | cons op ops ih => cases op <;> simp [touched, ih]

/-- A graph, and what entering a node and following an edge do to a state. -/
structure Scheme (α σ : Type*) where
  succ : α → List α
  marked : σ → α → Prop
  enter : σ → α → σ
  touch : σ → α → σ
  marked_enter : ∀ s v w, marked (enter s v) w ↔ marked s w ∨ w = v
  marked_touch : ∀ s v w, marked (touch s v) w ↔ marked s w

namespace Scheme

open List

variable (S : Scheme α σ)

/-- One event. -/
def apply (s : σ) : Op α → σ
  | .enter v => S.enter s v
  | .touch v => S.touch s v

/-- All events of a walk, one after the other. -/
def replay (s : σ) (ops : List (Op α)) : σ := ops.foldl S.apply s

@[simp] theorem replay_nil (s : σ) : S.replay s [] = s := rfl

@[simp] theorem replay_enter (s : σ) (v : α) (ops : List (Op α)) :
    S.replay s (.enter v :: ops) = S.replay (S.enter s v) ops := rfl

@[simp] theorem replay_touch (s : σ) (v : α) (ops : List (Op α)) :
    S.replay s (.touch v :: ops) = S.replay (S.touch s v) ops := rfl

theorem replay_append (s : σ) (ops ops' : List (Op α)) :
    S.replay s (ops ++ ops') = S.replay (S.replay s ops) ops' :=
  foldl_append

/-- Marked after a replay is what was marked before and what was entered. -/
theorem marked_replay (s : σ) (ops : List (Op α)) (w : α) :
    S.marked (S.replay s ops) w ↔ S.marked s w ∨ w ∈ entered ops := by
  induction ops generalizing s with
  | nil => simp [entered]
  | cons op ops ih =>
    cases op with
    | enter v =>
      rw [replay_enter, ih, S.marked_enter, entered, mem_cons, or_assoc]
    | touch v => rw [replay_touch, ih, S.marked_touch, entered]

/-- A reading that no event changes is the same after the replay. -/
theorem replay_frame {β : Type*} (f : σ → β) (ops : List (Op α))
    (he : ∀ s, ∀ v ∈ entered ops, f (S.enter s v) = f s) (ht : ∀ s v, f (S.touch s v) = f s) (s : σ)
    : f (S.replay s ops) = f s := by
  induction ops generalizing s with
  | nil => rfl
  | cons op ops ih =>
    cases op with
    | enter v =>
      rw [replay_enter, ih (fun s w hw => he s w (mem_cons_of_mem v hw)), he s v mem_cons_self]
    | touch v => rw [replay_touch, ih he, ht]

/-- A reading that entering `w` settles and no other event changes is settled
once `w` is among the nodes entered. -/
theorem replay_settled {β : Type*} (f : σ → β) (b : β) (w : α) (ops : List (Op α))
    (hw : w ∈ entered ops) (hs : ∀ s, f (S.enter s w) = b)
    (he : ∀ s, ∀ v, v ≠ w → f (S.enter s v) = f s) (ht : ∀ s v, f (S.touch s v) = f s) (s : σ) :
    f (S.replay s ops) = b := by
  induction ops generalizing s with
  | nil => simp [entered] at hw
  | cons op ops ih =>
    cases op with
    | touch v => exact ih hw _
    | enter v =>
      rw [replay_enter]
      by_cases hin : w ∈ entered ops
      · exact ih hin _
      -- the last time `w` is entered settles the reading for good
      · have hv : w = v := by
          simp only [entered, mem_cons] at hw
          rcases hw with h | h
          · exact h
          · exact absurd h hin
        rw [S.replay_frame f ops _ ht, ← hv, hs]
        intro s u hu
        apply he
        rintro rfl
        exact hin hu

/-! ## Walks -/

/-- The edges of the graph. -/
def Edge (a b : α) : Prop := b ∈ S.succ a

/-- `Walk s from extra ops`: the events `ops`, from state `s`, enter unmarked nodes
reachable from `starts`, each once, leave no start and no successor of an entered
node unmarked, and touch `extra` and every edge out of an entered node once. -/
structure Walk (s : σ) (starts extra : List α) (ops : List (Op α)) : Prop where
  nodup : (entered ops).Nodup
  fresh : ∀ w ∈ entered ops, ¬ S.marked s w
  reach : ∀ w ∈ entered ops, ∃ a ∈ starts, Relation.ReflTransGen S.Edge a w
  done : ∀ a ∈ starts, S.marked (S.replay s ops) a
  closed : ∀ w ∈ entered ops, ∀ c ∈ S.succ w, S.marked (S.replay s ops) c
  edges : (touched ops).Perm (extra ++ (entered ops).flatMap S.succ)

namespace Walk

variable {S} {s : σ} {starts starts' extra extra' : List α} {ops ops' : List (Op α)}

/-- No start, no event. -/
theorem nil (s : σ) : S.Walk s [] [] [] := by
  constructor <;> simp [entered, touched]

/-- A marked start needs no event. -/
theorem marked {a : α} (h : S.marked s a) : S.Walk s [a] [] [] := by
  constructor <;> simp [entered, touched, h]

/-- Following an edge marks nothing. -/
theorem touch (s : σ) (c : α) : S.Walk s [] [c] [.touch c] := by
  constructor <;> simp [entered, touched]

/-- Walks one after the other. -/
theorem append (h : S.Walk s starts extra ops) (h' : S.Walk (S.replay s ops) starts' extra' ops') :
    S.Walk s (starts ++ starts') (extra ++ extra') (ops ++ ops') := by
  have hkeep : ∀ a, S.marked (S.replay s ops) a → S.marked (S.replay s (ops ++ ops')) a := by
    intro a ha
    rw [replay_append, marked_replay]
    exact .inl ha
  refine ⟨?_, ?_, ?_, ?_, ?_, ?_⟩
  · rw [entered_append, nodup_append]
    refine ⟨h.nodup, h'.nodup, ?_⟩
    intro a ha b hb hab
    have := h'.fresh b hb
    rw [marked_replay] at this
    exact this (.inr (hab ▸ ha))
  · intro w hw
    rw [entered_append, mem_append] at hw
    rcases hw with hw | hw
    · exact h.fresh w hw
    · intro hm
      apply h'.fresh w hw
      rw [marked_replay]
      exact .inl hm
  · intro w hw
    rw [entered_append, mem_append] at hw
    rcases hw with hw | hw
    · obtain ⟨a, ha, hr⟩ := h.reach w hw
      exact ⟨a, mem_append_left _ ha, hr⟩
    · obtain ⟨a, ha, hr⟩ := h'.reach w hw
      exact ⟨a, mem_append_right _ ha, hr⟩
  · intro a ha
    rcases mem_append.mp ha with ha | ha
    · exact hkeep a (h.done a ha)
    · rw [replay_append]
      exact h'.done a ha
  · intro w hw c hc
    rw [entered_append, mem_append] at hw
    rcases hw with hw | hw
    · exact hkeep c (h.closed w hw c hc)
    · rw [replay_append]
      exact h'.closed w hw c hc
  · rw [touched_append, entered_append, flatMap_append]
    have := h.edges.append h'.edges
    refine this.trans ?_
    rw [append_assoc, append_assoc]
    apply List.Perm.append_left
    rw [← append_assoc, ← append_assoc]
    exact perm_append_comm.append_right _

/-- Entering an unmarked node and walking its successors, one touch for each. -/
theorem enter {v : α} (hv : ¬ S.marked s v) (h : S.Walk (S.enter s v) (S.succ v) (S.succ v) ops) :
    S.Walk s [v] [] (.enter v :: ops) := by
  have hmark : S.marked (S.replay s (.enter v :: ops)) v := by
    rw [marked_replay]
    exact .inr mem_cons_self
  refine ⟨?_, ?_, ?_, ?_, ?_, ?_⟩
  · rw [entered, nodup_cons]
    refine ⟨?_, h.nodup⟩
    intro hin
    apply h.fresh v hin
    rw [S.marked_enter]
    exact .inr rfl
  · intro w hw
    rcases mem_cons.mp hw with rfl | hw
    · exact hv
    · intro hm
      apply h.fresh w hw
      rw [S.marked_enter]
      exact .inl hm
  · intro w hw
    rcases mem_cons.mp hw with rfl | hw
    · exact ⟨w, mem_cons_self, .refl⟩
    · obtain ⟨a, ha, hr⟩ := h.reach w hw
      exact ⟨v, mem_cons_self, .head ha hr⟩
  · intro a ha
    rw [List.mem_singleton.mp ha]
    exact hmark
  · intro w hw c hc
    rcases mem_cons.mp hw with rfl | hw
    · exact h.done c hc
    · exact h.closed w hw c hc
  · exact h.edges

/-- Everything reachable from a start by unmarked nodes is entered. -/
theorem complete (h : S.Walk s starts extra ops) {a w : α} (ha : a ∈ starts)
    (hw : Relation.ReflTransGen (fun x y => S.Edge x y ∧ ¬ S.marked s x) a w) :
    S.marked (S.replay s ops) w := by
  induction hw with
  | refl => exact h.done a ha
  | tail _ hxy ih =>
    obtain ⟨hedge, hx⟩ := hxy
    rw [marked_replay] at ih
    exact h.closed _ (ih.resolve_left hx) _ hedge

end Walk

/-! ## Room for the recursion -/

variable [Fintype α]

open Classical in
/-- How many nodes are still unmarked. -/
noncomputable def room (s : σ) : ℕ := (Finset.univ.filter fun w => ¬ S.marked s w).card

theorem room_le_card (s : σ) : S.room s ≤ Fintype.card α := Finset.card_le_univ _

/-- Events never unmark a node. -/
theorem room_replay_le (s : σ) (ops : List (Op α)) : S.room (S.replay s ops) ≤ S.room s := by
  apply Finset.card_le_card
  intro w
  simp only [Finset.mem_filter, Finset.mem_univ, true_and, marked_replay]
  tauto

/-- Entering an unmarked node takes one of the room. -/
theorem room_enter_lt {s : σ} {v : α} (hv : ¬ S.marked s v) : S.room (S.enter s v) < S.room s := by
  apply Finset.card_lt_card
  rw [Finset.ssubset_iff_of_subset]
  · refine ⟨v, by simpa using hv, ?_⟩
    simp [S.marked_enter]
  · intro w
    simp only [Finset.mem_filter, Finset.mem_univ, true_and, S.marked_enter]
    tauto

omit [Fintype α] in
/-- A loop that walks from the starts of one item after the other walks from them
all; `proj` reads the marked state off the state of the loop. -/
theorem foldlM_walk {ι : Type*} (proj : τ → σ) (f : τ → ι → Option τ) (bound : σ → Prop)
    (hb : ∀ s ops, bound s → bound (S.replay s ops)) (starts : ι → List α)
    (hf : ∀ t i, bound (proj t) → ∃ t' ops, f t i = some t' ∧
      proj t' = S.replay (proj t) ops ∧ S.Walk (proj t) (starts i) [] ops) :
    ∀ (l : List ι) (t : τ), bound (proj t) → ∃ t' ops, l.foldlM f t = some t' ∧
      proj t' = S.replay (proj t) ops ∧ S.Walk (proj t) (l.flatMap starts) [] ops := by
  intro l
  induction l with
  | nil =>
    intro t _
    exact ⟨t, [], rfl, rfl, Walk.nil _⟩
  | cons c l ih =>
    intro t ht
    obtain ⟨t1, ops1, h1, hp1, hw1⟩ := hf t c ht
    obtain ⟨t2, ops2, h2, hp2, hw2⟩ := ih t1 (hp1 ▸ hb _ _ ht)
    refine ⟨t2, ops1 ++ ops2, ?_, ?_, ?_⟩
    · rw [foldlM_cons, h1]
      exact h2
    · rw [hp2, hp1, replay_append]
    · rw [hp1] at hw2
      exact hw1.append hw2

end Scheme

end Marking
