/-
# Leaky buckets

A bucket rises by `cost` with every request it takes and leaks between them.  The amount
that leaks from one time to another is at most `cap`, which is superadditive: what leaks in
two stretches of time, each rounded down, is no more than what leaks in both together.

A bucket that has leaked away may be dropped, and one that is not there is as good as an
empty one.  The window bound says how many requests a bucket takes in a stretch of time,
given how high it stands in the end and how often it was dropped on the way.
-/
import Mathlib.Tactic.Linarith

namespace LeakyBucket

open List

variable {T : Type*}

/-- How high the bucket stood when it last took a request. -/
structure Bucket (T : Type*) where
  level : ℤ
  last : T
  deriving DecidableEq, Repr

/-- What happens to a bucket: it takes a request, or it is dropped. -/
inductive Action where
  | take
  | drop
  deriving DecidableEq, Repr

/-- The number of requests taken. -/
def takes (log : List (T × Action)) : ℤ := (log.countP (·.2 = .take) : ℕ)

/-- The number of times the bucket was dropped. -/
def drops (log : List (T × Action)) : ℤ := (log.countP (·.2 = .drop) : ℕ)

@[simp] theorem takes_nil : takes ([] : List (T × Action)) = 0 := rfl

@[simp] theorem drops_nil : drops ([] : List (T × Action)) = 0 := rfl

@[simp] theorem takes_take (t : T) (log : List (T × Action)) :
    takes ((t, .take) :: log) = takes log + 1 := by
  simp [takes]

@[simp] theorem takes_drop (t : T) (log : List (T × Action)) :
    takes ((t, .drop) :: log) = takes log := by
  simp [takes]

@[simp] theorem drops_take (t : T) (log : List (T × Action)) :
    drops ((t, .take) :: log) = drops log := by
  simp [drops]

@[simp] theorem drops_drop (t : T) (log : List (T × Action)) :
    drops ((t, .drop) :: log) = drops log + 1 := by
  simp [drops]

variable [LinearOrder T]

/-- A bound on what leaks between two times. -/
structure IsCap (cap : T → T → ℤ) : Prop where
  nonneg : ∀ {s t}, s ≤ t → 0 ≤ cap s t
  add_le : ∀ {r s t}, r ≤ s → s ≤ t → cap r s + cap s t ≤ cap r t

variable {t b : T}

/-- A longer stretch of time has a higher bound. -/
theorem IsCap.mono {cap : T → T → ℤ} (h : IsCap cap) {a s : T} (has : a ≤ s) (hst : s ≤ t)
    (htb : t ≤ b) : cap s t ≤ cap a b := by
  have h1 := h.add_le has (hst.trans htb)
  have h2 := h.add_le hst htb
  have h3 := h.nonneg has
  have h4 := h.nonneg htb
  linarith

/-- One action at time `t`.  A bucket never rises by less than `cost` above what is left. -/
inductive Step (cost : ℤ) (cap : T → T → ℤ) (t : T) :
    Option (Bucket T) → Action → Option (Bucket T) → Prop
  | takeFresh {b' : Bucket T} (h0 : 0 ≤ b'.level) (hlast : b'.last = t) :
    Step cost cap t none .take (some b')
  | take {b b' : Bucket T} (hb : b.last ≤ t) (h0 : 0 ≤ b'.level)
      (hlevel : b.level - cap b.last t + cost ≤ b'.level) (hlast : b'.last = t) :
    Step cost cap t (some b) .take (some b')
  | drop {b : Bucket T} (hb : b.last ≤ t) (hlevel : b.level ≤ cap b.last t) :
    Step cost cap t (some b) .drop none
  | dropNone : Step cost cap t none .drop none

/-- Actions one after the other, each with its time. -/
inductive Run (cost : ℤ) (cap : T → T → ℤ) :
    Option (Bucket T) → List (T × Action) → Option (Bucket T) → Prop
  | nil (o) : Run cost cap o [] o
  | cons {o m o' t x log} (h : Step cost cap t o x m) (hs : Run cost cap m log o') :
    Run cost cap o ((t, x) :: log) o'

section

variable {cost : ℤ} {cap : T → T → ℤ}

variable {o o' : Option (Bucket T)}

theorem Run.append {m : Option (Bucket T)} {l l' : List (T × Action)}
    (h : Run cost cap o l m) (h' : Run cost cap m l' o') : Run cost cap o (l ++ l') o' := by
  induction h with
  | nil => exact h'
  | cons hx _ ih => exact .cons hx (ih h')

theorem Run.single {x : Action} (h : Step cost cap t o x o') : Run cost cap o [(t, x)] o' :=
  .cons h (.nil _)

/-- What is known of a bucket that took its first request at `t1`, when it has taken `n` and
was dropped `e` times: all but the first are still in it, or have leaked since. -/
def Holds (cost : ℤ) (cap : T → T → ℤ) (t1 t : T) (n e : ℤ) : Option (Bucket T) → Prop
  | some b => t1 ≤ b.last ∧ b.last ≤ t ∧ cost * (n - 1 - e) ≤ b.level + cap t1 b.last
  | none => cost * (n - e) ≤ cap t1 t

variable {t1 : T} {n e : ℤ}

/-- Time passes. -/
theorem Holds.later (hcap : IsCap cap) {t' : T} (ht1 : t1 ≤ t) (ht : t ≤ t')
    (h : Holds cost cap t1 t n e o) : Holds cost cap t1 t' n e o := by
  rcases o with _ | b
  · exact le_trans h (hcap.mono le_rfl ht1 ht)
  · exact ⟨h.1, h.2.1.trans ht, h.2.2⟩

/-- One more request taken. -/
theorem Holds.take (hcap : IsCap cap) (ht1 : t1 ≤ t) (h : Holds cost cap t1 t n e o)
    (hx : Step cost cap t o .take o') :
    Holds cost cap t1 t (n + 1) e o' := by
  cases hx with
  | takeFresh h0 hlast =>
    subst hlast
    refine ⟨ht1, le_rfl, ?_⟩
    simp only [Holds] at h
    linarith
  | take hb h0 hlevel hlast =>
    subst hlast
    obtain ⟨h1, -, h3⟩ := h
    refine ⟨ht1, le_rfl, ?_⟩
    have hadd := hcap.add_le h1 hb
    linarith

/-- Once more dropped. -/
theorem Holds.drop (hcap : IsCap cap) (hcost : 0 ≤ cost) (h : Holds cost cap t1 t n e o)
    (hx : Step cost cap t o .drop o') :
    Holds cost cap t1 t n (e + 1) o' := by
  cases hx with
  | drop hb hlevel =>
    obtain ⟨h1, -, h3⟩ := h
    have hadd := hcap.add_le h1 hb
    show cost * (n - (e + 1)) ≤ cap t1 t
    linarith
  | dropNone =>
    simp only [Holds] at h ⊢
    linarith

variable {log : List (T × Action)}

/-- The whole run after the first request. -/
theorem Holds.run (hcap : IsCap cap) (hcost : 0 ≤ cost) (hrun : Run cost cap o log o') :
    ∀ {t : T} {n e : ℤ}, t1 ≤ t → (∀ p ∈ log, t ≤ p.1 ∧ p.1 ≤ b) → t ≤ b →
      log.Pairwise (·.1 ≤ ·.1) → Holds cost cap t1 t n e o →
      Holds cost cap t1 b (n + takes log) (e + drops log) o' := by
  induction hrun with
  | nil o =>
    intro t n e ht1 _ htb _ h
    simpa using h.later hcap ht1 htb
  | @cons o m o' s x log hx _ ih =>
    intro t n e ht1 hlog htb hsorted h
    obtain ⟨hts, hsb⟩ := hlog (s, x) mem_cons_self
    obtain ⟨hs, hsorted'⟩ := pairwise_cons.1 hsorted
    have hrest : ∀ p ∈ log, s ≤ p.1 ∧ p.1 ≤ b := fun p hp =>
      ⟨hs p hp, (hlog p (mem_cons_of_mem _ hp)).2⟩
    have hnow := h.later hcap ht1 hts
    cases x with
    | take =>
      have := ih (ht1.trans hts) hrest hsb hsorted' (hnow.take hcap (ht1.trans hts) hx)
      simpa [add_assoc, add_comm (1 : ℤ)] using this
    | drop =>
      have := ih (ht1.trans hts) hrest hsb hsorted' (hnow.drop hcap hcost hx)
      simpa [add_assoc, add_comm (1 : ℤ)] using this

/-- **The window bound.**  A bucket that stands no higher than `top` after the requests of
`[a, b]` has taken no more of them than fit in, leaked meanwhile, or were dropped. -/
theorem window_bound (hcap : IsCap cap) (hcost : 0 ≤ cost) {a : T} (hab : a ≤ b) {top : ℤ}
    (htop : 0 ≤ top) (hrun : Run cost cap o log o') (hlog : ∀ p ∈ log, a ≤ p.1 ∧ p.1 ≤ b)
    (hsorted : log.Pairwise (·.1 ≤ ·.1)) (hlevel : ∀ bk, o' = some bk → bk.level ≤ top) :
    cost * (takes log - 1) ≤ top + cost * drops log + cap a b := by
  induction hrun with
  | nil o =>
    have := hcap.nonneg hab
    simp only [takes_nil, drops_nil, zero_sub, mul_zero, add_zero]
    linarith
  | @cons o m o' s x log hx hrest ih =>
    obtain ⟨has, hsb⟩ := hlog (s, x) mem_cons_self
    obtain ⟨hs, hsorted'⟩ := pairwise_cons.1 hsorted
    have htail : ∀ p ∈ log, a ≤ p.1 ∧ p.1 ≤ b := fun p hp => hlog p (mem_cons_of_mem _ hp)
    cases x with
    | drop =>
      have := ih htail hsorted' hlevel
      rw [takes_drop, drops_drop]
      linarith
    | take =>
      -- The first request of the window: nothing is claimed of it.
      have hfirst : Holds cost cap s s 1 0 m := by
        have hself := hcap.nonneg (le_refl s)
        cases hx with
        | takeFresh h0 hlast => subst hlast; exact ⟨le_rfl, le_rfl, by linarith⟩
        | take _ h0 _ hlast => subst hlast; exact ⟨le_rfl, le_rfl, by linarith⟩
      have hend := hfirst.run hcap hcost hrest le_rfl
        (fun p hp => ⟨hs p hp, (htail p hp).2⟩) hsb hsorted'
      rw [takes_take, drops_take]
      rcases o' with _ | bk
      · have hle := hcap.mono has hsb (le_refl b)
        simp only [Holds, zero_add] at hend
        linarith
      · obtain ⟨h1, h2, h3⟩ := hend
        have hle := hcap.mono has h1 h2
        have := hlevel bk rfl
        linarith

end

end LeakyBucket
