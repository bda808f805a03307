/-
# The bound of request limiting

What is accepted of a key raises the excess of its node by one request less what leaked
since, so in a window of time no more is accepted than the burst and the rate allow, one
request more for each other worker, and one for each time the node was deleted: a node that
has leaked away goes when the zone is swept, and what was left of one request with it.
-/
import ReadingCode.LimitReq

namespace LimitReq

open List Option

section

variable {κ : Type} [DecidableEq κ] {W : ℕ} {rate burst since now : ℕ}

/-! ## Runs -/

theorem run_cons {s s' : State κ W} {p : ℕ × Event κ W} {l : List (ℕ × Event κ W)}
    {log : List (ℕ × Mark κ)} (h : run rate burst s (p :: l) = some (s', log)) :
    ∃ m marks log', step rate burst p.1 s p.2 = some (m, marks) ∧
      run rate burst m l = some (s', log') ∧ log = marks.map (p.1, ·) ++ log' := by
  simp only [run] at h
  rcases hstep : step rate burst p.1 s p.2 with _ | ⟨m, marks⟩
  · simp [hstep] at h
  · rcases hrun : run rate burst m l with _ | ⟨s'', log'⟩
    · simp [hstep, hrun] at h
    · simp only [hstep, hrun, Option.some.injEq, Prod.mk.injEq] at h
      obtain ⟨rfl, rfl⟩ := h
      exact ⟨m, marks, log', rfl, hrun, rfl⟩

theorem run_append {s s' : State κ W} {l l' : List (ℕ × Event κ W)} {log : List (ℕ × Mark κ)}
    (h : run rate burst s (l ++ l') = some (s', log)) :
    ∃ m log1 log2, run rate burst s l = some (m, log1) ∧ run rate burst m l' = some (s', log2)
      ∧ log = log1 ++ log2 := by
  induction l generalizing s log with
  | nil => exact ⟨s, [], log, rfl, h, rfl⟩
  | cons p l ih =>
    obtain ⟨m, marks, log', hstep, hrun, rfl⟩ := run_cons h
    obtain ⟨m', log1, log2, h1, h2, rfl⟩ := ih hrun
    refine ⟨m', marks.map (p.1, ·) ++ log1, log2, ?_, h2, by rw [append_assoc]⟩
    simp only [run, hstep, h1]

/-- The times of the events are in order, none before `now`, and fit the arithmetic; no `last` of a
node is before `since`. -/
structure Timely (rate since now : ℕ) (events : List (ℕ × Event κ W)) : Prop where
  le : ∀ p ∈ events, now ≤ p.1
  sorted : events.Pairwise (·.1 ≤ ·.1)
  fits : ∀ p ∈ events, Fits rate since p.1
  since : ∀ p ∈ events, since ≤ p.2.last p.1

variable {events : List (ℕ × Event κ W)}

omit [DecidableEq κ] in
theorem Timely.tail {p : ℕ × Event κ W}
    (h : Timely rate since now (p :: events)) : Timely rate since p.1 events where
  le := (pairwise_cons.1 h.sorted).1
  sorted := (pairwise_cons.1 h.sorted).2
  fits q hq := h.fits q (mem_cons_of_mem _ hq)
  since q hq := h.since q (mem_cons_of_mem _ hq)

/-- The invariant holds at the end of a run, whenever that is. -/
theorem inv_run (hburst : burst + 1000 * W < 2 ^ 63) :
    ∀ {now : ℕ} {s s' : State κ W} {log : List (ℕ × Mark κ)}, Inv rate burst since now s →
      Timely rate since now events → run rate burst s events = some (s', log) →
      ∀ {now' : ℕ}, now ≤ now' → (∀ p ∈ events, p.1 ≤ now') → Inv rate burst since now' s' := by
  induction events with
  | nil =>
    intro now s s' log hinv _ h now' hnow _
    obtain ⟨rfl, -⟩ := h
    exact hinv.later hnow
  | cons p events ih =>
    intro now s s' log hinv htime h now' _ hle
    obtain ⟨m, marks, log', hstep, hrun, rfl⟩ := run_cons h
    have ht := hinv.later (htime.le _ mem_cons_self)
    have hm : Inv rate burst since p.1 m := fun k =>
      (keyStep_step ht (htime.fits _ mem_cons_self) (htime.since _ mem_cons_self) hburst
        hstep k).inv
    exact ih hm htime.tail hrun (hle _ mem_cons_self)
      fun q hq => hle q (mem_cons_of_mem _ hq)

/-- A run is one of the bucket of each key whose node is not deleted by force. -/
theorem bucketRun_run (hburst : burst + 1000 * W < 2 ^ 63)
    {k : κ} : ∀ {now : ℕ} {s s' : State κ W} {log : List (ℕ × Mark κ)}, Inv rate burst since now s →
      Timely rate since now events → run rate burst s events = some (s', log) → NoForce k log →
      BucketRun rate (bucket (s.sh.find k)) (actions k log) (bucket (s'.sh.find k)) := by
  induction events with
  | nil =>
    intro now s s' log _ _ h _
    obtain ⟨rfl, rfl⟩ := h
    exact .nil _
  | cons p events ih =>
    intro now s s' log hinv htime h hforce
    obtain ⟨m, marks, log', hstep, hrun, rfl⟩ := run_cons h
    have ht := hinv.later (htime.le _ mem_cons_self)
    have hkey := keyStep_step ht (htime.fits _ mem_cons_self) (htime.since _ mem_cons_self) hburst
      hstep
    have hm : Inv rate burst since p.1 m := fun k => (hkey k).inv
    rw [actions_append]
    refine ((hkey k).run fun x hx => ?_).append
      (ih hm htime.tail hrun fun q hq => hforce q (mem_append_right _ hq))
    exact hforce (p.1, x) (mem_append_left _ (mem_map_of_mem hx))

/-- The marks of a run have the times of its events, in their order. -/
theorem log_times : ∀ {s s' : State κ W} {log : List (ℕ × Mark κ)},
      events.Pairwise (·.1 ≤ ·.1) → run rate burst s events = some (s', log) →
      (∀ q ∈ log, ∃ p ∈ events, p.1 = q.1) ∧ log.Pairwise (·.1 ≤ ·.1) := by
  induction events with
  | nil =>
    intro s s' log _ h
    obtain ⟨rfl, rfl⟩ := h
    exact ⟨by simp, .nil⟩
  | cons p events ih =>
    intro s s' log hsorted h
    obtain ⟨m, marks, log', hstep, hrun, rfl⟩ := run_cons h
    obtain ⟨hhead, hsorted'⟩ := pairwise_cons.1 hsorted
    obtain ⟨hmem, hlog⟩ := ih hsorted' hrun
    have hnow : ∀ q ∈ marks.map (p.1, ·), q.1 = p.1 := by
      intro q hq
      obtain ⟨x, -, rfl⟩ := mem_map.1 hq
      rfl
    refine ⟨fun q hq => ?_, pairwise_append.2 ⟨?_, hlog, fun q hq q' hq' => ?_⟩⟩
    · rcases mem_append.1 hq with hq | hq
      · exact ⟨p, mem_cons_self, (hnow q hq).symm⟩
      · obtain ⟨r, hr, hpq⟩ := hmem q hq
        exact ⟨r, mem_cons_of_mem _ hr, hpq⟩
    · exact pairwise_map.2 (pairwise_of_forall fun _ _ => le_rfl)
    · obtain ⟨r, hr, hpq⟩ := hmem q' hq'
      rw [hnow q hq, ← hpq]
      exact hhead r hr

/-! ## The window -/

/-- What is in order falls into what is before, in and after a window. -/
theorem split_window {β : Type} (a b : ℕ) {l : List (ℕ × β)} (h : l.Pairwise (·.1 ≤ ·.1)) :
    ∃ l1 l2 l3, l = l1 ++ (l2 ++ l3) ∧ (∀ p ∈ l1, p.1 < a)
      ∧ (∀ p ∈ l2, a ≤ p.1 ∧ p.1 ≤ b) ∧ ∀ p ∈ l3, b < p.1 := by
  induction l with
  | nil => exact ⟨[], [], [], by simp⟩
  | cons p l ih =>
    obtain ⟨hp, hl⟩ := pairwise_cons.1 h
    obtain ⟨l1, l2, l3, rfl, h1, h2, h3⟩ := ih hl
    -- Before `p` there is nothing, so that the parts before its own are empty.
    have hnil : ∀ {m : List (ℕ × β)} {P : ℕ → Prop}, (∀ q ∈ m, q ∈ l1 ++ (l2 ++ l3)) →
        (∀ q ∈ m, P q.1) → (∀ t, p.1 ≤ t → ¬ P t) → m = [] := by
      intro m P hm hP hno
      rw [eq_nil_iff_forall_not_mem]
      exact fun q hq => hno q.1 (hp q (hm q hq)) (hP q hq)
    by_cases hpa : p.1 < a
    · exact ⟨p :: l1, l2, l3, rfl, by simpa [hpa] using h1, h2, h3⟩
    have e1 : l1 = [] := hnil (P := fun t => t < a) (fun q hq => mem_append_left _ hq) h1
      fun t ht => by omega
    subst e1
    by_cases hpb : p.1 ≤ b
    · refine ⟨[], p :: l2, l3, rfl, by simp, ?_, h3⟩
      simpa [hpb, not_lt.1 hpa] using h2
    · have e2 : l2 = [] := hnil (P := fun t => a ≤ t ∧ t ≤ b)
        (fun q hq => mem_append_right _ (mem_append_left _ hq)) h2
        fun t ht => by omega
      subst e2
      exact ⟨[], [], p :: l3, rfl, by simp, by simp, by simpa [not_le.1 hpb] using h3⟩

/-- How many requests of the key were accepted in `[a, b]`. -/
def acceptedIn (k : κ) (a b : ℕ) (log : List (ℕ × Mark κ)) : ℕ :=
  log.countP fun p => a ≤ p.1 && p.1 ≤ b && action k p.2 == some .take

/-- How often the node of the key was deleted in `[a, b]`. -/
def deletedIn (k : κ) (a b : ℕ) (log : List (ℕ × Mark κ)) : ℕ :=
  log.countP fun p => a ≤ p.1 && p.1 ≤ b && action k p.2 == some .drop

/-- What lies in the window is counted by its actions, and nothing else is. -/
theorem countP_window {k : κ} {a b : ℕ} {x : LeakyBucket.Action}
    {log1 log2 log3 : List (ℕ × Mark κ)}
    (h1 : ∀ p ∈ log1, p.1 < a) (h2 : ∀ p ∈ log2, a ≤ p.1 ∧ p.1 ≤ b) (h3 : ∀ p ∈ log3, b < p.1) :
    (log1 ++ (log2 ++ log3)).countP (fun p => a ≤ p.1 && p.1 ≤ b && action k p.2 == some x)
      = (actions k log2).countP (·.2 = x) := by
  have hzero : ∀ {m : List (ℕ × Mark κ)}, (∀ p ∈ m, ¬ (a ≤ p.1 ∧ p.1 ≤ b)) →
      m.countP (fun p => a ≤ p.1 && p.1 ≤ b && action k p.2 == some x) = 0 := by
    intro m hm
    rw [countP_eq_zero]
    intro p hp
    have := hm p hp
    simp only [Bool.and_eq_true, decide_eq_true_eq, not_and]
    exact fun h => absurd h this
  rw [countP_append, countP_append, hzero (m := log1) fun p hp => by
      have := h1 p hp; omega,
    hzero (m := log3) fun p hp => by have := h3 p hp; omega, zero_add, add_zero]
  induction log2 with
  | nil => rfl
  | cons p log ih =>
    have hp := h2 p mem_cons_self
    have hrest := ih fun q hq => h2 q (mem_cons_of_mem _ hq)
    rw [countP_cons, hrest, actions, actions, filterMap_cons]
    rcases action k p.2 with _ | y
    · simp
    · by_cases hy : y = x
      · simp [hp, hy]
      · simp [hy]

/-- **The bound.**  In a run of `W` workers on a zone that begins empty, a key whose node is
not deleted by force in `[a, b]` has no more accepted requests there than the burst, the
rate, the other workers and the deletions of its node that had leaked away account for.  An
accepted request leaves an excess of at most `burst` when it is accounted at once, and of at
most one request more for each other worker when it is accounted later. -/
theorem accepted_window_le {events : List (ℕ × Event κ W)} {s : State κ W}
    {log : List (ℕ × Mark κ)} (hrun : run rate burst (State.init κ W) events = some (s, log))
    (htime : Timely rate since 0 events) (hburst : burst + 1000 * W < 2 ^ 63) (hW : 0 < W) (k : κ) :
    (∀ a b, a ≤ b → (∀ p ∈ log, a ≤ p.1 → p.1 ≤ b → p.2 ≠ .deleted k true) →
      1000 * ((acceptedIn k a b log : ℤ) - 1) ≤ burst + 1000 * (W - 1)
        + 1000 * deletedIn k a b log + rate * (b - a) / 1000)
      ∧ ∀ now e s' marks, (∀ p ∈ events, p.1 ≤ now) → Fits rate since now → since ≤ e.last now →
        step rate burst now s e = some (s', marks) →
        ∀ immediate x, Mark.accepted k immediate x ∈ marks → (s'.sh.find k).map Node.excess = some x
            ∧ (x : ℤ) ≤ if immediate then (burst : ℤ) else burst + 1000 * (W - 1) := by
  constructor
  · intro a b hab hforce
    obtain ⟨e1, e2, e3, rfl, he1, he2, he3⟩ := split_window a b htime.sorted
    obtain ⟨m, log1, log', h1, h', rfl⟩ := run_append hrun
    obtain ⟨m', log2, log3, h2, h3, rfl⟩ := run_append h'
    obtain ⟨hsort1, hsort', -⟩ := pairwise_append.1 htime.sorted
    obtain ⟨hsort2, hsort3, -⟩ := pairwise_append.1 hsort'
    have ht1 : Timely rate since 0 e1 :=
      ⟨fun _ _ => Nat.zero_le _, hsort1, fun p hp => htime.fits p (mem_append_left _ hp),
        fun p hp => htime.since p (mem_append_left _ hp)⟩
    have ht2 : Timely rate since a e2 :=
      ⟨fun p hp => (he2 p hp).1, hsort2, fun p hp =>
        htime.fits p (mem_append_right _ (mem_append_left _ hp)), fun p hp =>
        htime.since p (mem_append_right _ (mem_append_left _ hp))⟩
    have hm : Inv rate burst since a m :=
      inv_run hburst inv_init ht1 h1 (Nat.zero_le _) fun p hp => (he1 p hp).le
    have hm' : Inv rate burst since b m' :=
      inv_run hburst hm ht2 h2 hab fun p hp => (he2 p hp).2
    -- The marks lie in the window when their events do.
    have hlog : ∀ {q : ℕ × Mark κ} {l : List (ℕ × Event κ W)} {P : ℕ → Prop},
        (∃ p ∈ l, p.1 = q.1) → (∀ p ∈ l, P p.1) → P q.1 := by
      rintro q l P ⟨p, hp, hpq⟩ hP
      exact hpq ▸ hP p hp
    have hq1 : ∀ q ∈ log1, q.1 < a := fun q hq =>
      hlog (P := fun t => t < a) ((log_times hsort1 h1).1 q hq) he1
    have hq2 : ∀ q ∈ log2, a ≤ q.1 ∧ q.1 ≤ b := fun q hq =>
      hlog (P := fun t => a ≤ t ∧ t ≤ b) ((log_times hsort2 h2).1 q hq) he2
    have hq3 : ∀ q ∈ log3, b < q.1 := fun q hq =>
      hlog (P := fun t => b < t) ((log_times hsort3 h3).1 q hq) he3
    have hbucket := bucketRun_run hburst hm ht2 h2 (k := k) fun q hq =>
      hforce q (mem_append_right _ (mem_append_left _ hq)) (hq2 q hq).1 (hq2 q hq).2
    have hmem : ∀ q ∈ actions k log2, a ≤ q.1 ∧ q.1 ≤ b := by
      intro q hq
      obtain ⟨p, hp, hpq⟩ := mem_filterMap.1 hq
      obtain ⟨x, -, rfl⟩ := map_eq_some_iff.1 hpq
      exact hq2 p hp
    have hsorted : (actions k log2).Pairwise (·.1 ≤ ·.1) := by
      refine List.Pairwise.filterMap _ (fun p p' hle q hq q' hq' => ?_) (log_times hsort2 h2).2
      obtain ⟨x, -, rfl⟩ := map_eq_some_iff.1 hq
      obtain ⟨x', -, rfl⟩ := map_eq_some_iff.1 hq'
      exact hle
    have htop : 0 ≤ top burst W := by
      simp only [top]
      omega
    have hlevel : ∀ bk, bucket (m'.sh.find k) = some bk → bk.level ≤ top burst W := by
      intro bk hbk
      have hk := hm' k
      rcases hf : m'.sh.find k with _ | lr
      · simp [bucket, hf] at hbk
      · rw [hf] at hk hbk
        simp only [bucket] at hbk
        split at hbk
        · cases hbk
        · cases hbk
          exact hk.excess
    have hwindow := LeakyBucket.window_bound (isCap_cap rate) (by omega) hab htop hbucket hmem
      hsorted hlevel
    have hcap : cap rate a b = rate * ((b : ℤ) - a) / 1000 := by
      rw [cap]
      push_cast [Nat.cast_sub hab]
      rfl
    rw [acceptedIn, deletedIn, countP_window hq1 hq2 hq3, countP_window hq1 hq2 hq3, ← hcap]
    exact hwindow
  · intro now e s' marks hle hfit hsince hstep immediate x hx
    have hinv : Inv rate burst since now s := inv_run hburst inv_init htime hrun (Nat.zero_le _) hle
    exact (keyStep_step hinv hfit hsince hburst hstep k).accepted immediate x hx

/-! ## The counts -/

variable {w : Fin W} {key k : κ} {lr : Node κ} {e : Event κ W} {log : List (ℕ × Mark κ)}

/-- The count of the node of a key, zero without a node. -/
def Zone.count (sh : Zone κ) (k : κ) : ℕ := (sh.find k).elim 0 Node.count

theorem Swept.count_eq {o o' : Option (Node κ)} {del : List (Deleted κ)}
    (h : Swept rate now k o del o') : o'.elim 0 Node.count = o.elim 0 Node.count := by
  cases h with
  | kept => rfl
  | gone _ hcount => exact hcount.symm

theorem count_lookup (sh : Zone κ) (key k : κ) (account alloc1 alloc2 : Bool) :
    let r := ngxHttpLimitReqLookup rate burst now sh key account alloc1 alloc2
    r.sh.count k = sh.count k + if r.rc = .again ∧ key = k then 1 else 0 := by
  intro r
  by_cases hk : key = k
  · subst hk
    simp only [r, ngxHttpLimitReqLookup, Zone.count, and_true]
    rcases hf : sh.find key with _ | lr
    · rcases (lookupNew_spec rate now hf account alloc1 alloc2).2 with ⟨hrc, h⟩ | ⟨hrc, -, h⟩
      · simp [hrc, h]
      · cases account <;> simp [hrc, h, newNode]
    · obtain rfl := find_key hf
      simp only [lookupFound]
      split_ifs <;> simp_all [find_insertHead]
  · have hswept : Swept rate now k (sh.find k) r.deleted (r.sh.find k) :=
      swept_lookup hk account alloc1 alloc2
    rw [if_neg (hk ·.2)]
    exact hswept.count_eq

/-- Each node counts the workers that are to account it. -/
def Counted (s : State κ W) : Prop := ∀ k, s.sh.count k = pending s.node k

theorem Counted.find (h : Counted s) (hw : s.node w = some k) :
    ∃ lr, s.sh.find k = some lr ∧ lr.count = pending s.node k := by
  have hk := h k
  rw [Zone.count] at hk
  rcases hf : s.sh.find k with _ | lr <;> rw [hf] at hk
  · exact absurd hw (Finset.card_filter_eq_zero_iff.1 hk.symm w (Finset.mem_univ w))
  · exact ⟨lr, rfl, hk⟩

theorem Counted.modify (h : Counted s) (hw : s.node w = some key)
    (hf : s.sh.find key = some lr) (last excess : ℕ) :
    Counted ⟨s.sh.modify key last excess (lr.count - 1), Function.update s.node w none⟩ := by
  intro k
  have hk := h k
  have hupd := pending_update s.node w none k
  simp only [hw, Option.some.injEq, reduceCtorEq, if_false] at hupd
  simp only [Zone.count, find_modify] at hk ⊢
  by_cases hkey : key = k
  · subst hkey
    simp only [hf, if_true, map_some, Option.elim_some] at hk hupd ⊢
    omega
  · rw [if_neg hkey] at hupd ⊢
    omega

/-- Only a worker without a node looks a key up. -/
def Event.Free (s : State κ W) : Event κ W → Prop
  | .lookup w .. => s.node w = none
  | _ => True

theorem free_of_step {r : State κ W × List (Mark κ)} (hstep : step rate burst now s e = some r) :
    e.Free s := by
  cases e with
  | lookup w =>
    by_contra hw
    cases (if_neg hw).symm.trans hstep
  | _ => trivial

theorem Counted.step (h : Counted s) (hfree : e.Free s) :
    ∃ r, step rate burst now s e = some r ∧ Counted r.1 := by
  cases e with
  | lookup w key account alloc1 alloc2 =>
    have hw : s.node w = none := hfree
    refine ⟨_, if_pos hw, fun k => ?_⟩
    have hupd := pending_update s.node w (some key) k
    simp only [hw, reduceCtorEq, if_false, Option.some.injEq] at hupd
    rw [count_lookup, h k]
    split_ifs <;> simp_all
  | account w =>
    rw [LimitReq.step]
    rcases hw : s.node w with _ | key
    · exact ⟨_, rfl, h⟩
    · obtain ⟨lr, hf, -⟩ := h.find hw
      simp only [Zone.account, hf, map_some]
      exact ⟨_, rfl, h.modify hw hf _ _⟩
  | release w =>
    rw [LimitReq.step]
    rcases hw : s.node w with _ | key
    · exact ⟨_, rfl, h⟩
    · obtain ⟨lr, hf, -⟩ := h.find hw
      simp only [Zone.release, hf]
      exact ⟨_, rfl, h.modify hw hf _ _⟩

theorem Counted.run (h : Counted s) (hrun : run rate burst s events = some (s', log)) :
    Counted s' := by
  induction events generalizing s log with
  | nil =>
    cases hrun
    exact h
  | cons p events ih =>
    obtain ⟨m, marks, log', hstep, hrun', rfl⟩ := run_cons hrun
    obtain ⟨r, hr, hcounted⟩ := h.step (free_of_step hstep)
    cases hr.symm.trans hstep
    exact ih hcounted hrun'

/-- **The node of a worker is never gone**: it counts the workers that are to account it, and they
find it. -/
theorem find_of_node (hrun : run rate burst (State.init κ W) events = some (s, log)) :
    (∀ w k, s.node w = some k → ∃ lr, s.sh.find k = some lr ∧ lr.count = pending s.node k) ∧
      ∀ now (e : Event κ W), e.Free s → (step rate burst now s e).isSome := by
  have hinit : Counted (State.init κ W) := fun k => by
    simp [State.init, Zone.empty, Zone.count, Zone.find, pending]
  have h := hinit.run hrun
  refine ⟨fun _ _ => h.find, fun now e hfree => ?_⟩
  obtain ⟨r, hr, -⟩ := h.step hfree
  rw [hr]
  rfl

end

/-- Two requests of one worker, half a second apart, the burst being one request. -/
theorem accepted_window_le_oneWorker : ∃ (s : State ℕ 1) (log : List (ℕ × Mark ℕ)),
      run 1000 1000 (State.init ℕ 1) [(1000000, .lookup 0 7 true true true),
        (1000000, .lookup 0 8 false true true), (1000500, .account 0),
        (1000500, .lookup 0 7 true true true)] = some (s, log)
        ∧ acceptedIn 7 1000000 1000500 log = 2
        ∧ 1000 * ((acceptedIn 7 1000000 1000500 log : ℤ) - 1) ≤ (1000 : ℕ) + 1000 * ((1 : ℕ) - 1)
          + 1000 * deletedIn 7 1000000 1000500 log
          + (1000 : ℕ) * ((1000500 : ℕ) - (1000000 : ℕ)) / 1000 := by
  obtain ⟨⟨s, log⟩, hrun⟩ := isSome_iff_exists.1 (show
    (run 1000 1000 (State.init ℕ 1) [(1000000, .lookup 0 7 true true true),
      (1000000, .lookup 0 8 false true true), (1000500, .account 0),
      (1000500, .lookup 0 7 true true true)]).isSome by decide)
  have hlog : log = [(1000000, .accepted 7 true 0), (1000500, .accepted 8 false 0),
      (1000500, .accepted 7 true 500)] := by
    have hmap : (run 1000 1000 (State.init ℕ 1) [(1000000, .lookup 0 7 true true true),
        (1000000, .lookup 0 8 false true true), (1000500, .account 0),
        (1000500, .lookup 0 7 true true true)]).map Prod.snd
          = some [(1000000, .accepted 7 true 0), (1000500, .accepted 8 false 0),
            (1000500, .accepted 7 true 500)] := by decide
    simpa [hrun] using hmap
  have htime : Timely (W := 1) 1000 0 0 [(1000000, .lookup 0 7 true true true),
      (1000000, .lookup 0 8 false true true), (1000500, .account 0),
      (1000500, .lookup 0 7 true true true)] := ⟨by decide, by decide, by decide, by decide⟩
  refine ⟨s, log, hrun, by rw [hlog]; decide, ?_⟩
  exact (accepted_window_le hrun htime (by decide) (by decide) 7).1 1000000 1000500 (by decide)
    (by rw [hlog]; decide)

/-- What goes over the burst and the rate: a node that has leaked away is deleted in the
lookup of another key; two workers look a key up before either accounts it; the clock has
not come up to one request; what leaked since the clock started does not fit 64 bits. -/
theorem accepted_over_burst :
    (∃ log, (run 16 0 (State.init ℕ 1) [(100000, .lookup 0 7 true true true),
          (160000, .lookup 0 8 true true true), (160000, .lookup 0 7 true true true)]).map
          Prod.snd = some log ∧ (∀ p ∈ log, p.2 ≠ .deleted 7 true)
        ∧ ¬ 1000 * ((acceptedIn 7 100000 160000 log : ℤ) - 1) ≤ 0 + 16 * (160000 - 100000) / 1000)
    ∧ (∃ log, (run 1000 0 (State.init ℕ 2) [(1000000, .lookup 0 7 false true true),
          (1000000, .lookup 1 7 false true true), (1000000, .account 0),
          (1000000, .account 1)]).map Prod.snd = some log ∧ (∀ p ∈ log, p.2 ≠ .deleted 7 true)
        ∧ ¬ 1000 * ((acceptedIn 7 1000000 1000000 log : ℤ) - 1)
          ≤ 0 + 1000 * (1000000 - 1000000) / 1000)
    ∧ (∃ log, (run 16 0 (State.init ℕ 1) [(1000, .lookup 0 7 false true true),
          (1000, .account 0)]).map Prod.snd = some log
        ∧ (1000, .accepted 7 false 984) ∈ log ∧ ¬ 984 ≤ 0)
    ∧ ∃ log, (run (2 ^ 22 * 1000) 0 (State.init ℕ 1) [(3 * 2 ^ 39, .lookup 0 7 false true true),
          (3 * 2 ^ 39, .account 0)]).map Prod.snd = some log
        ∧ (3 * 2 ^ 39, .accepted 7 false 1000) ∈ log ∧ ¬ 1000 ≤ 0 :=
  ⟨⟨[(100000, .accepted 7 true 0), (160000, .deleted 7 false), (160000, .accepted 8 true 0),
      (160000, .accepted 7 true 0)], by decide⟩,
    ⟨[(1000000, .accepted 7 false 0), (1000000, .accepted 7 false 1000)], by decide⟩,
    ⟨[(1000, .accepted 7 false 984)], by decide⟩,
    ⟨[(3 * 2 ^ 39, .accepted 7 false 1000)], by decide +kernel⟩⟩

/-- Two workers have looked up a key. -/
theorem find_of_node_two : ∃ s : State ℕ 2, s.node 1 = some 7 ∧
    ∃ lr, s.sh.find 7 = some lr ∧ lr.count = pending s.node 7 :=
  ⟨_, rfl, (@find_of_node _ _ _ 1000 0 [(1000, .lookup 0 7 false true true),
    (1000, .lookup 1 7 false true true)] _ _ rfl).1 1 7 rfl⟩

end LimitReq
