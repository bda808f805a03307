/-
# The passes that compute immediate dominators

The blocks are visited by number, so a link may first lead to a block that is no
dominator at all, and numbers may fall along a path of links.  Two facts about one link
carry the proof: strict dominators of a block dominate what its link leads to, and after
`m` passes a block with a walk of at most `m` steps links to a block that lies on it or
has a shorter one of the same kind.  When the walks reach everything, the links are the
immediate dominators and a further pass changes nothing.
-/
import ReadingCode.ControlFlow

namespace ZendCfg

open FlowGraph

variable {n : ℕ} [NeZero n] {cfg : Cfg n} {postnum : Fin n → ℤ}

/-! ## Links -/

/-- The link of a block other than the entry. -/
def Up (idom : Links n) (x d : Fin n) : Prop := x ≠ 0 ∧ idom x = some d

/-- A block is reached by following links. -/
abbrev Chain (idom : Links n) : Fin n → Fin n → Prop := Relation.ReflTransGen (Up idom)

/-- The blocks that have a link. -/
def linked (idom : Links n) : Finset (Fin n) := Finset.univ.filter fun x => idom x ≠ none

variable {x : Fin n}

variable {idom : Links n}

omit [NeZero n] in
theorem mem_linked : x ∈ linked idom ↔ idom x ≠ none := by
  simp [linked]

omit [NeZero n] in
theorem exists_of_mem_linked (h : x ∈ linked idom) : ∃ d, idom x = some d :=
  Option.ne_none_iff_exists'.mp (mem_linked.mp h)

variable {b : Fin n}

omit [NeZero n] in
theorem climb_of_le {a : Fin n} (h : postnum b ≤ postnum a) (fuel : ℕ) :
    climb postnum idom fuel a b = some a := by
  unfold climb
  exact if_neg (not_lt.mpr h)

omit [NeZero n] in
theorem climb_of_lt {a d : Fin n} (h : postnum a < postnum b) (hd : idom a = some d) (fuel : ℕ) :
    climb postnum idom (fuel + 1) a b = climb postnum idom fuel d b := by
  conv_lhs => unfold climb
  rw [if_pos h]
  simp only [hd]

omit [NeZero n] in
theorem intersect_self (idom : Links n) (fuel : ℕ) (d : Fin n) :
    intersect postnum idom fuel d d = some d := by
  unfold intersect
  exact if_pos rfl

/-- The links between passes; `rank` is the order in which blocks got their first one. -/
structure LinksOk (cfg : Cfg n) (rank : Fin n → ℕ) (idom : Links n) : Prop where
  entry : idom 0 = some 0
  fromEntry : ∀ x ∈ linked idom, cfg.FromEntry x
  rank_lt : ∀ x ∈ linked idom, rank x < (linked idom).card
  up : ∀ x d, Up idom x d → d ∈ linked idom ∧ rank d < rank x
  base : ∀ x ∈ linked idom, x ≠ 0 → ∃ p ∈ linked idom, cfg.Edge p x ∧ rank p < rank x
  sound : ∀ x d v, Up idom x d → SDom cfg.Edge 0 v x → Dom cfg.Edge 0 v d

namespace LinksOk

open Finset

variable {rank : Fin n → ℕ} {idom : Links n}

theorem entry_mem (h : LinksOk cfg rank idom) : 0 ∈ linked idom := by
  rw [mem_linked, h.entry]
  simp

theorem rank_lt_card (h : LinksOk cfg rank idom) (hx : x ∈ linked idom) : rank x < n := by
  have := card_le_univ (linked idom)
  rw [Fintype.card_fin] at this
  exact lt_of_lt_of_le (h.rank_lt x hx) this

theorem chain (h : LinksOk cfg rank idom) {y : Fin n} (hx : x ∈ linked idom)
    (hxy : Chain idom x y) : y ∈ linked idom ∧ rank y ≤ rank x := by
  induction hxy with
  | refl => exact ⟨hx, le_rfl⟩
  | tail _ hab ih =>
    obtain ⟨hb, hlt⟩ := h.up _ _ hab
    exact ⟨hb, hlt.le.trans ih.2⟩

/-- Climbing from `a` to the first block of the chain numbered no less than `b`. -/
theorem climb_spec (h : LinksOk cfg rank idom) (hp : Postorder cfg postnum)
    (hb : b ∈ linked idom) (fuel : ℕ) (a : Fin n) (ha : a ∈ linked idom) (hf : rank a ≤ fuel) :
    ∃ a', climb postnum idom fuel a b = some a' ∧ Chain idom a a' ∧ postnum b ≤ postnum a' ∧
      (postnum b ≤ postnum a → a' = a) ∧ (postnum a < postnum b → rank a' < rank a) ∧
      ∀ v, Dom cfg.Edge 0 v a → Dom cfg.Edge 0 v b → Dom cfg.Edge 0 v a' := by
  induction fuel generalizing a with
  | zero =>
    have hle : postnum b ≤ postnum a := by
      by_contra hlt
      have h0 : a ≠ 0 := by
        rintro rfl
        exact hlt (hp.le_of_dom (.entry (h.fromEntry b hb)))
      obtain ⟨d, hd⟩ := exists_of_mem_linked ha
      have := (h.up a d ⟨h0, hd⟩).2
      omega
    exact ⟨a, climb_of_le hle 0, .refl, hle, fun _ => rfl,
      fun hlt => absurd hle (not_le.mpr hlt), fun _ h _ => h⟩
  | succ fuel ih =>
    by_cases hlt : postnum a < postnum b
    · have h0 : a ≠ 0 := by
        rintro rfl
        exact absurd (hp.le_of_dom (.entry (h.fromEntry b hb))) (not_le.mpr hlt)
      obtain ⟨d, hd⟩ := exists_of_mem_linked ha
      obtain ⟨hdl, hrank⟩ := h.up a d ⟨h0, hd⟩
      obtain ⟨a', hrun, hchain, hle, -, -, hdom⟩ := ih d hdl (by omega)
      refine ⟨a', (climb_of_lt hlt hd fuel).trans hrun, .head ⟨h0, hd⟩ hchain, hle,
        fun h => absurd hlt (not_lt.mpr h), fun _ => ?_, fun v hva hvb => ?_⟩
      · exact lt_of_le_of_lt (h.chain hdl hchain).2 hrank
      · -- a common dominator is not the block that is left
        apply hdom v _ hvb
        apply h.sound a d v ⟨h0, hd⟩ ⟨hva, ?_⟩
        rintro rfl
        exact absurd (hp.le_of_dom hvb) (not_le.mpr hlt)
    · exact ⟨a, climb_of_le (not_lt.mp hlt) _, .refl, not_lt.mp hlt, fun _ => rfl,
        fun h => absurd h hlt, fun _ h _ => h⟩

/-- The two fingers meet, on both chains and below no common dominator. -/
theorem intersect_spec (h : LinksOk cfg rank idom) (hp : Postorder cfg postnum) (fuel : ℕ)
    (d p : Fin n) (hd : d ∈ linked idom) (hpl : p ∈ linked idom) (hf : rank d + rank p ≤ fuel) :
    ∃ m, intersect postnum idom fuel d p = some m ∧ Chain idom d m ∧ Chain idom p m ∧
      ∀ v, Dom cfg.Edge 0 v d → Dom cfg.Edge 0 v p → Dom cfg.Edge 0 v m := by
  induction fuel generalizing d p with
  | zero =>
    have heq : d = p := by
      by_contra hne
      have hpost : postnum d ≠ postnum p := fun heq =>
        hne (hp.inj d p (h.fromEntry d hd) (h.fromEntry p hpl) heq)
      rcases lt_or_gt_of_ne hpost with hlt | hlt
      · obtain ⟨_, _, _, _, _, hrank, _⟩ := h.climb_spec hp hpl (rank d) d hd le_rfl
        omega
      · obtain ⟨_, _, _, _, _, hrank, _⟩ := h.climb_spec hp hd (rank p) p hpl le_rfl
        omega
    subst heq
    exact ⟨d, intersect_self idom 0 d, .refl, .refl, fun _ h _ => h⟩
  | succ fuel ih =>
    by_cases heq : d = p
    · subst heq
      exact ⟨d, intersect_self idom _ d, .refl, .refl, fun _ h _ => h⟩
    · obtain ⟨p', hrunp, hcp, -, hstayp, hrankp, hdomp⟩ :=
        h.climb_spec hp hd (fuel + 1) p hpl (by omega)
      have hpl' := h.chain hpl hcp
      obtain ⟨d', hrund, hcd, -, -, hrankd, hdomd⟩ :=
        h.climb_spec hp hpl'.1 (fuel + 1) d hd (by omega)
      have hdl' := h.chain hd hcd
      -- one of the two fingers has moved
      have hless : rank d' + rank p' < rank d + rank p := by
        have hpost : postnum d ≠ postnum p := fun he =>
          heq (hp.inj d p (h.fromEntry d hd) (h.fromEntry p hpl) he)
        rcases lt_or_gt_of_ne hpost with hlt | hlt
        · rw [hstayp hlt.le] at hrankd ⊢
          omega
        · omega
      obtain ⟨m, hrun, hcm, hcm', hdom⟩ := ih d' p' hdl'.1 hpl'.1 (by omega)
      refine ⟨m, ?_, hcd.trans hcm, hcp.trans hcm', fun v hvd hvp => ?_⟩
      · rw [intersect, if_neg heq]
        simp only [hrunp, Option.bind_some, hrund]
        exact hrun
      · have hvp' := hdomp v hvp hvd
        exact hdom v (hdomd v hvd hvp') hvp'

/-- What the loop over the predecessors `ps` computes, begun with `d`: nothing when
there is nothing linked, else a block on the chains of all of them. -/
def Meets (cfg : Cfg n) (idom : Links n) (ps : List (Fin n)) (d : Option (Fin n)) :
    Option (Fin n) → Prop
  | none => d = none ∧ ∀ p ∈ ps, p ∉ linked idom
  | some m => (d ≠ none ∨ ∃ p ∈ ps, p ∈ linked idom) ∧
      (∀ p, (p ∈ ps ∨ d = some p) → p ∈ linked idom → Chain idom p m) ∧
      ∀ v, (∀ p, (p ∈ ps ∨ d = some p) → p ∈ linked idom → Dom cfg.Edge 0 v p) →
        Dom cfg.Edge 0 v m

theorem meetPredecessors_spec (h : LinksOk cfg rank idom) (hp : Postorder cfg postnum)
    {fuel : ℕ} (hf : 2 * n ≤ fuel) (ps : List (Fin n)) (d : Option (Fin n))
    (hd : ∀ p, d = some p → p ∈ linked idom) :
    ∃ r, meetPredecessors postnum idom fuel ps d = some r ∧ Meets cfg idom ps d r := by
  induction ps generalizing d with
  | nil =>
    refine ⟨d, rfl, ?_⟩
    cases d with
    | none => exact ⟨rfl, by simp⟩
    | some m =>
      refine ⟨.inl (by simp), ?_, fun v hv => hv m (.inr rfl) (hd m rfl)⟩
      rintro p (hp | hp) -
      · simp at hp
      · rw [Option.some.inj hp]
  | cons p ps ih =>
    by_cases hl : p ∈ linked idom
    · have hsome : (idom p).isSome = true := by
        obtain ⟨e, he⟩ := exists_of_mem_linked hl
        simp [he]
      cases d with
      | none =>
        rw [meetPredecessors, if_pos hsome]
        obtain ⟨r, hrun, hr⟩ := ih (some p) (by simpa using hl)
        refine ⟨r, hrun, ?_⟩
        cases r with
        | none => exact absurd hr.1 (by simp)
        | some m =>
          obtain ⟨-, hchain, hdom⟩ := hr
          refine ⟨.inr ⟨p, List.mem_cons_self, hl⟩, ?_, ?_⟩
          · rintro q (hq | hq) hql
            · rcases List.mem_cons.mp hq with rfl | hq
              · exact hchain q (.inr rfl) hql
              · exact hchain q (.inl hq) hql
            · simp at hq
          · intro v hv
            apply hdom v
            rintro q (hq | hq) hql
            · exact hv q (.inl (List.mem_cons_of_mem p hq)) hql
            · rw [← Option.some.inj hq]
              exact hv p (.inl List.mem_cons_self) hl
      | some d =>
        have hdl := hd d rfl
        have hrd := h.rank_lt_card hdl
        have hrp := h.rank_lt_card hl
        obtain ⟨m, hrunm, hcd, hcp, hdomm⟩ := h.intersect_spec hp fuel d p hdl hl (by omega)
        obtain ⟨r, hrun, hr⟩ := ih (some m) (by
          intro q hq
          rw [← Option.some.inj hq]
          exact (h.chain hl hcp).1)
        rw [meetPredecessors, if_pos hsome, hrunm]
        refine ⟨r, hrun, ?_⟩
        cases r with
        | none => exact absurd hr.1 (by simp)
        | some m' =>
          obtain ⟨-, hchain, hdom⟩ := hr
          have hmm : Chain idom m m' := hchain m (.inr rfl) (h.chain hl hcp).1
          refine ⟨.inl (by simp), ?_, ?_⟩
          · rintro q (hq | hq) hql
            · rcases List.mem_cons.mp hq with rfl | hq
              · exact hcp.trans hmm
              · exact hchain q (.inl hq) hql
            · rw [← Option.some.inj hq]
              exact hcd.trans hmm
          · intro v hv
            apply hdom v
            rintro q (hq | hq) hql
            · exact hv q (.inl (List.mem_cons_of_mem p hq)) hql
            · rw [← Option.some.inj hq]
              exact hdomm v (hv d (.inr rfl) hdl) (hv p (.inl List.mem_cons_self) hl)
    · have hnone : (idom p).isSome = false := by
        rw [mem_linked, not_not] at hl
        simp [hl]
      have hskip : meetPredecessors postnum idom fuel (p :: ps) d
          = meetPredecessors postnum idom fuel ps d := by
        cases d with
        | none => simp [meetPredecessors, hnone]
        | some d => simp [meetPredecessors, hnone]
      obtain ⟨r, hrun, hr⟩ := ih d hd
      refine ⟨r, hskip.trans hrun, ?_⟩
      cases r with
      | none =>
        refine ⟨hr.1, fun q hq => ?_⟩
        rcases List.mem_cons.mp hq with rfl | hq
        · exact hl
        · exact hr.2 q hq
      | some m =>
        obtain ⟨hex, hchain, hdom⟩ := hr
        refine ⟨?_, ?_, ?_⟩
        · exact hex.imp_right fun ⟨q, hq, hql⟩ => ⟨q, List.mem_cons_of_mem p hq, hql⟩
        · rintro q (hq | hq) hql
          · rcases List.mem_cons.mp hq with rfl | hq
            · exact absurd hql hl
            · exact hchain q (.inl hq) hql
          · exact hchain q (.inr hq) hql
        · intro v hv
          apply hdom v
          rintro q (hq | hq) hql
          · exact hv q (.inl (List.mem_cons_of_mem p hq)) hql
          · exact hv q (.inr hq) hql

/-- A block below the entry gets a link to a block on the chains of its linked
predecessors that its strict dominators dominate. -/
theorem update (h : LinksOk cfg rank idom) {j m : Fin n} (hj : cfg.FromEntry j) (hj0 : j ≠ 0)
    (hm : m ∈ linked idom) (hex : ∃ p ∈ linked idom, cfg.Edge p j)
    (hchain : ∀ p ∈ linked idom, cfg.Edge p j → Chain idom p m)
    (hsound : ∀ v, SDom cfg.Edge 0 v j → Dom cfg.Edge 0 v m) :
    ∃ rank', LinksOk cfg rank' (Function.update idom j (some m)) := by
  have hself : Function.update idom j (some m) j = some m := Function.update_self ..
  have hother : ∀ x, x ≠ j → Function.update idom j (some m) x = idom x :=
    fun x hx => Function.update_of_ne hx _ _
  have hlinked : linked (Function.update idom j (some m)) = insert j (linked idom) := by
    ext x
    rw [mem_insert, mem_linked, mem_linked]
    by_cases hx : x = j
    · simp [hx]
    · simp [hx]
  have hentry : Function.update idom j (some m) 0 = some 0 := by
    rw [hother 0 (Ne.symm hj0), h.entry]
  have hfrom : ∀ x ∈ linked (Function.update idom j (some m)), cfg.FromEntry x := by
    intro x hx
    rw [hlinked, mem_insert] at hx
    rcases hx with rfl | hx
    · exact hj
    · exact h.fromEntry x hx
  have hsound' : ∀ x d v, Up (Function.update idom j (some m)) x d → SDom cfg.Edge 0 v x →
      Dom cfg.Edge 0 v d := by
    rintro x d v ⟨hx0, hx⟩ hv
    by_cases hxj : x = j
    · rw [hxj, hself] at hx
      rw [← Option.some.inj hx]
      exact hsound v (hxj ▸ hv)
    · rw [hother x hxj] at hx
      exact h.sound x d v ⟨hx0, hx⟩ hv
  by_cases hjl : j ∈ linked idom
  · -- the block keeps its rank, which is above that of some predecessor
    rw [insert_eq_of_mem hjl] at hlinked
    obtain ⟨p0, hp0, hedge0, hrank0⟩ := h.base j hjl hj0
    refine ⟨rank, hentry, hfrom, ?_, ?_, ?_, hsound'⟩
    · rw [hlinked]
      exact h.rank_lt
    · rintro x d ⟨hx0, hx⟩
      rw [hlinked]
      by_cases hxj : x = j
      · rw [hxj, hself] at hx
        rw [← Option.some.inj hx, hxj]
        exact ⟨hm, lt_of_le_of_lt (h.chain hp0 (hchain p0 hp0 hedge0)).2 hrank0⟩
      · rw [hother x hxj] at hx
        exact h.up x d ⟨hx0, hx⟩
    · rw [hlinked]
      exact h.base
  · -- a first link: the block comes last
    have hcard : (insert j (linked idom)).card = (linked idom).card + 1 :=
      card_insert_of_notMem hjl
    have hrank : ∀ x ∈ linked idom, Function.update rank j (linked idom).card x = rank x := by
      intro x hx
      apply Function.update_of_ne
      rintro rfl
      exact hjl hx
    have hrankj : Function.update rank j (linked idom).card j = (linked idom).card :=
      Function.update_self ..
    refine ⟨Function.update rank j (linked idom).card, hentry, hfrom, ?_, ?_, ?_, hsound'⟩
    · intro x hx
      rw [hlinked] at hx ⊢
      rw [hcard]
      rcases mem_insert.mp hx with rfl | hx
      · rw [hrankj]
        exact Nat.lt_succ_self _
      · rw [hrank x hx]
        exact Nat.lt_succ_of_lt (h.rank_lt x hx)
    · rintro x d ⟨hx0, hx⟩
      rw [hlinked]
      by_cases hxj : x = j
      · rw [hxj, hself] at hx
        rw [← Option.some.inj hx, hxj, hrankj, hrank m hm]
        exact ⟨mem_insert_of_mem hm, h.rank_lt m hm⟩
      · rw [hother x hxj] at hx
        have hxl : x ∈ linked idom := by
          rw [mem_linked, hx]
          simp
        obtain ⟨hd, hlt⟩ := h.up x d ⟨hx0, hx⟩
        rw [hrank x hxl, hrank d hd]
        exact ⟨mem_insert_of_mem hd, hlt⟩
    · intro x hx hx0
      rw [hlinked] at hx ⊢
      rcases mem_insert.mp hx with rfl | hx
      · obtain ⟨p, hp, hedge⟩ := hex
        refine ⟨p, mem_insert_of_mem hp, hedge, ?_⟩
        rw [hrankj, hrank p hp]
        exact h.rank_lt p hp
      · obtain ⟨p, hp, hedge, hlt⟩ := h.base x hx hx0
        refine ⟨p, mem_insert_of_mem hp, hedge, ?_⟩
        rw [hrank x hx, hrank p hp]
        exact hlt

end LinksOk

/-! ## Passes -/

/-- A walk of at most `m` steps to `x` makes `x` link to a block with a shorter walk of
the same kind. -/
def Within (cfg : Cfg n) (idom : Links n) (m : ℕ) (x : Fin n) : Prop :=
  x ≠ 0 → ∀ (Q : Fin n → Prop) k, k < m → Steps cfg.Edge 0 Q (k + 1) x →
    ∃ d, idom x = some d ∧ Steps cfg.Edge 0 Q k d

variable {m : ℕ}

variable {idom idom' : Links n} {rank : Fin n → ℕ} {s : Links n × Bool}

theorem Within.mono {l : ℕ} (h : Within cfg idom m x) (hl : l ≤ m) : Within cfg idom l x :=
  fun hx Q k hk => h hx Q k (lt_of_lt_of_le hk hl)

theorem Within.congr (h : Within cfg idom m x) (hx : idom' x = idom x) : Within cfg idom' m x := by
  intro h0 Q k hk hs
  rw [hx]
  exact h h0 Q k hk hs

/-- The chain of a block stays on walks of its kind. -/
theorem within_chain (h : LinksOk cfg rank idom)
    (hW : ∀ x, Within cfg idom m x) {Q : Fin n → Prop} {k : ℕ} (hk : k ≤ m) {p : Fin n}
    (hp : Steps cfg.Edge 0 Q k p) :
    p ∈ linked idom ∧ ∀ y, Chain idom p y → Steps cfg.Edge 0 Q k y := by
  have hstep : ∀ x, x ≠ 0 → Steps cfg.Edge 0 Q k x →
      ∃ d, idom x = some d ∧ Steps cfg.Edge 0 Q k d := by
    intro x hx hs
    cases k with
    | zero => exact absurd hs.1 hx
    | succ k =>
      obtain ⟨d, hd, hs'⟩ := hW x hx Q k hk hs
      exact ⟨d, hd, hs'.succ⟩
  constructor
  · by_cases h0 : p = 0
    · rw [h0]
      exact h.entry_mem
    · obtain ⟨d, hd, -⟩ := hstep p h0 hp
      rw [mem_linked, hd]
      simp
  · intro y hy
    induction hy with
    | refl => exact hp
    | tail _ hab ih =>
      obtain ⟨d, hd, hs⟩ := hstep _ hab.1 ih
      rw [hab.2] at hd
      rw [Option.some.inj hd]
      exact hs

variable {fuel : ℕ}

/-- One block of a pass. -/
theorem sweepBlock_spec (hw : cfg.WellFormed) (hp : Postorder cfg postnum)
    (hf : 2 * n ≤ fuel) (h : LinksOk cfg rank s.1) (hW : ∀ x, Within cfg s.1 m x) {j : Fin n}
    (hj : j ≠ 0) :
    ∃ s' rank', sweepBlock cfg postnum fuel s j = some s' ∧ LinksOk cfg rank' s'.1 ∧
      Within cfg s'.1 (m + 1) j ∧ (∀ x, x ≠ j → s'.1 x = s.1 x) ∧
      (s' = s ∨ (s'.2 = true ∧ s'.1 j ≠ s.1 j)) := by
  by_cases hr : cfg.reachable j = true
  · obtain ⟨r, hrun, hmeets⟩ :=
      h.meetPredecessors_spec hp hf (cfg.predecessors j) none (by simp)
    -- a last step of a walk to `j` comes from a linked predecessor
    have hlast : ∀ (Q : Fin n → Prop) k, k < m + 1 → Steps cfg.Edge 0 Q (k + 1) j →
        ∃ p ∈ cfg.predecessors j, p ∈ linked s.1 ∧
          ∀ y, Chain s.1 p y → Steps cfg.Edge 0 Q k y := by
      intro Q k hk hs
      obtain ⟨p, hps, hpj⟩ := hs.pred hj
      obtain ⟨hpl, hchain⟩ := within_chain h hW (Nat.le_of_lt_succ hk) hps
      exact ⟨p, Cfg.mem_predecessors.mpr hpj, hpl, hchain⟩
    rw [sweepBlock, if_pos hr, hrun, Option.map_some]
    cases r with
    | none =>
      refine ⟨s, rank, rfl, h, ?_, fun _ _ => rfl, .inl rfl⟩
      intro _ Q k hk hs
      obtain ⟨p, hpm, hpl, -⟩ := hlast Q k hk hs
      exact absurd hpl (hmeets.2 p hpm)
    | some d =>
      obtain ⟨hex, hchain, hdom⟩ := hmeets
      have hex' : ∃ p ∈ linked s.1, cfg.Edge p j := by
        rcases hex with hn | ⟨p, hpm, hpl⟩
        · exact absurd rfl hn
        · exact ⟨p, hpl, Cfg.mem_predecessors.mp hpm⟩
      have hchain' : ∀ p ∈ linked s.1, cfg.Edge p j → Chain s.1 p d :=
        fun p hpl hpj => hchain p (.inl (Cfg.mem_predecessors.mpr hpj)) hpl
      have hwithin : ∀ idom : Links n, idom j = some d → Within cfg idom (m + 1) j := by
        intro idom hd _ Q k hk hs
        obtain ⟨p, hpm, hpl, hsteps⟩ := hlast Q k hk hs
        exact ⟨d, hd, hsteps d (hchain p (.inl hpm) hpl)⟩
      by_cases hne : s.1 j ≠ some d
      · obtain ⟨p, hpl, hpj⟩ := hex'
        have hje : cfg.FromEntry j := (h.fromEntry p hpl).tail hpj
        have hdl := (h.chain hpl (hchain' p hpl hpj)).1
        obtain ⟨rank', h'⟩ := h.update hje hj hdl ⟨p, hpl, hpj⟩ hchain' (by
          intro v hv
          apply hdom v
          rintro q (hq | hq) hql
          · exact hv.pred (h.fromEntry q hql) (Cfg.mem_predecessors.mp hq)
          · simp at hq)
        refine ⟨(Function.update s.1 j (some d), true), rank', ?_, h', ?_, ?_, .inr ⟨rfl, ?_⟩⟩
        · simp only [if_pos hne]
        · exact hwithin _ (Function.update_self ..)
        · exact fun x hx => Function.update_of_ne hx _ _
        · change Function.update s.1 j (some d) j ≠ s.1 j
          rw [Function.update_self]
          exact Ne.symm hne
      · refine ⟨s, rank, ?_, h, hwithin _ (not_not.mp hne), fun _ _ => rfl, .inl rfl⟩
        simp only [if_neg hne]
  · refine ⟨s, rank, ?_, h, ?_, fun _ _ => rfl, .inl rfl⟩
    · rw [sweepBlock, if_neg hr]
    · intro _ Q k _ hs
      exact absurd (Cfg.FromEntry.reachable hw hs.reach) hr

/-- The blocks `l` of a pass. -/
theorem sweepBlocks_spec (hw : cfg.WellFormed) (hp : Postorder cfg postnum) (hf : 2 * n ≤ fuel)
    (l : List (Fin n)) (hl : l.Nodup) (h0 : ∀ j ∈ l, j ≠ 0)
    (h : LinksOk cfg rank s.1) (hW : ∀ x, Within cfg s.1 m x) :
    ∃ s' rank', l.foldlM (sweepBlock cfg postnum fuel) s = some s' ∧ LinksOk cfg rank' s'.1 ∧
      (∀ x, Within cfg s'.1 m x) ∧ (∀ x ∈ l, Within cfg s'.1 (m + 1) x) ∧
      (∀ x, x ∉ l → s'.1 x = s.1 x) ∧ (s' = s ∨ (s'.2 = true ∧ s'.1 ≠ s.1)) := by
  induction l generalizing rank s with
  | nil => exact ⟨s, rank, rfl, h, hW, by simp, fun _ _ => rfl, .inl rfl⟩
  | cons j l ih =>
    rw [List.nodup_cons] at hl
    obtain ⟨s1, rank1, hrun1, h1, hj1, hkeep1, hch1⟩ :=
      sweepBlock_spec hw hp hf h hW (h0 j List.mem_cons_self)
    have hW1 : ∀ x, Within cfg s1.1 m x := by
      intro x
      by_cases hx : x = j
      · rw [hx]
        exact hj1.mono (Nat.le_succ m)
      · exact (hW x).congr (hkeep1 x hx)
    obtain ⟨s2, rank2, hrun2, h2, hW2, hall2, hkeep2, hch2⟩ :=
      ih hl.2 (fun x hx => h0 x (List.mem_cons_of_mem j hx)) h1 hW1
    have hj2 := hkeep2 j hl.1
    refine ⟨s2, rank2, ?_, h2, hW2, ?_, ?_, ?_⟩
    · rw [List.foldlM_cons, hrun1]
      exact hrun2
    · intro x hx
      rcases List.mem_cons.mp hx with rfl | hx
      · exact hj1.congr hj2
      · exact hall2 x hx
    · intro x hx
      rw [List.mem_cons, not_or] at hx
      rw [hkeep2 x hx.2, hkeep1 x hx.1]
    · rcases hch1 with rfl | ⟨hflag, hne⟩
      · exact hch2
      · refine .inr ⟨?_, fun heq => hne ?_⟩
        · rcases hch2 with rfl | ⟨hflag2, -⟩
          · exact hflag
          · exact hflag2
        · rw [← hj2, heq]

/-- One pass lets walks be one step longer, and sets `changed` when a link changed. -/
theorem sweep_spec (hw : cfg.WellFormed) (hp : Postorder cfg postnum)
    (hf : 2 * n ≤ fuel) (h : LinksOk cfg rank idom) (hW : ∀ x, Within cfg idom m x) :
    ∃ s' rank', sweep cfg postnum fuel idom = some s' ∧ LinksOk cfg rank' s'.1 ∧
      (∀ x, Within cfg s'.1 (m + 1) x) ∧ (s'.2 = true ↔ s'.1 ≠ idom) := by
  have hmem : ∀ x, x ∈ laterBlocks n ↔ x ≠ 0 := by
    intro x
    simp [laterBlocks]
  obtain ⟨s', rank', hrun, h', -, hall, -, hch⟩ := sweepBlocks_spec hw hp hf (laterBlocks n)
    ((List.nodup_finRange n).filter _) (fun j hj => (hmem j).mp hj) (s := (idom, false)) h hW
  refine ⟨s', rank', hrun, h', ?_, ?_⟩
  · intro x
    by_cases hx : x = 0
    · exact fun h0 => absurd hx h0
    · exact hall x ((hmem x).mpr hx)
  · rcases hch with rfl | ⟨hflag, hne⟩
    · simp
    · simp [hflag, hne]

/-! ## The run -/

/-- Every block below the entry links to its immediate dominator. -/
structure Exact (cfg : Cfg n) (idom : Links n) : Prop where
  entry : idom 0 = some 0
  immediate : ∀ x, cfg.FromEntry x → x ≠ 0 → ∃ d, idom x = some d ∧ IDom cfg.Edge 0 d x
  other : ∀ x, ¬ cfg.FromEntry x → idom x = none

theorem Exact.unique (h : Exact cfg idom) (h' : Exact cfg idom') : idom = idom' := by
  funext x
  by_cases hx : cfg.FromEntry x
  · by_cases h0 : x = 0
    · rw [h0, h.entry, h'.entry]
    · obtain ⟨d, hd, hi⟩ := h.immediate x hx h0
      obtain ⟨d', hd', hi'⟩ := h'.immediate x hx h0
      rw [hd, hd', hi.unique hi']
  · rw [h.other x hx, h'.other x hx]

/-- After as many passes as there are blocks the links are exact. -/
theorem exact_of_within (h : LinksOk cfg rank idom)
    (hW : ∀ x, Within cfg idom n x) : Exact cfg idom := by
  have hshorter : ∀ (Q : Fin n → Prop) x, x ≠ 0 → Q 0 →
      Relation.ReflTransGen (fun a b => cfg.Edge a b ∧ Q b) 0 x →
      ∃ d, idom x = some d ∧ Q d := by
    intro Q x hx hQ hwalk
    obtain ⟨k, hk⟩ := exists_steps hQ hwalk
    have hs := hk.card
    rw [Fintype.card_fin] at hs
    obtain ⟨k, rfl⟩ := Nat.exists_eq_succ_of_ne_zero (NeZero.ne n)
    obtain ⟨d, hd, hs'⟩ := hW x hx Q k (Nat.lt_succ_self k) hs
    exact ⟨d, hd, hs'.prop⟩
  refine ⟨h.entry, fun x hx h0 => ?_, fun x hx => ?_⟩
  · obtain ⟨d, hd, -⟩ := hshorter (fun _ => True) x h0 trivial
      (.mono (fun _ _ hab => ⟨hab, trivial⟩) _ _ hx)
    have hup : Up idom x d := ⟨h0, hd⟩
    refine ⟨d, hd, ⟨⟨hx, ?_⟩, ?_⟩, fun v hv => h.sound x d v hup hv⟩
    · intro havoid
      obtain ⟨d', hd', hne⟩ := hshorter (fun y => y ≠ d) x h0 havoid.1 havoid.2
      rw [hd] at hd'
      exact hne (Option.some.inj hd').symm
    · rintro rfl
      exact absurd (h.up _ _ hup).2 (lt_irrefl _)
  · by_contra hn
    exact hx (h.fromEntry x (mem_linked.mpr hn))

/-- Links that a pass leaves alone are exact. -/
theorem exact_of_fixed (hw : cfg.WellFormed) (hp : Postorder cfg postnum)
    (hf : 2 * n ≤ fuel) (h : LinksOk cfg rank idom)
    (hfix : sweep cfg postnum fuel idom = some (idom, false)) : Exact cfg idom := by
  have hall : ∀ m, ∀ x, Within cfg idom m x := by
    intro m
    induction m with
    | zero => exact fun x _ Q k hk => absurd hk (Nat.not_lt_zero k)
    | succ m ih =>
      obtain ⟨s', rank', hrun, -, hW, -⟩ := sweep_spec hw hp hf h ih
      rw [hfix] at hrun
      rw [← Option.some.inj hrun] at hW
      exact hW
  exact exact_of_within h (hall n)

/-- The passes end with exact links. -/
theorem sweeps_exact (hw : cfg.WellFormed) (hp : Postorder cfg postnum)
    (hf : 2 * n ≤ fuel) (m k : ℕ) (hk : n < m + k)
    (h : LinksOk cfg rank idom) (hW : ∀ x, Within cfg idom m x) (hm : m ≤ n) :
    ∃ idom', sweeps cfg postnum fuel k idom = some idom' ∧ Exact cfg idom' := by
  induction k generalizing m rank idom with
  | zero => omega
  | succ k ih =>
    obtain ⟨s', rank', hrun, h', hW', hflag⟩ := sweep_spec hw hp hf h hW
    by_cases hch : s'.2 = true
    · by_cases hmn : m = n
      · -- exact links do not change any more
        subst hmn
        have he := exact_of_within h hW
        have he' := exact_of_within h' fun x => (hW' x).mono (Nat.le_succ m)
        exact absurd (he'.unique he) (hflag.mp hch)
      · obtain ⟨idom', hrun', hex⟩ := ih (m + 1) (by omega) h' hW' (by omega)
        refine ⟨idom', ?_, hex⟩
        rw [sweeps, hrun, Option.bind_some, if_pos hch]
        exact hrun'
    · have hsame : s'.1 = idom := by
        by_contra hne
        exact hch (hflag.mpr hne)
      refine ⟨s'.1, ?_, ?_⟩
      · rw [sweeps, hrun, Option.bind_some, if_neg hch]
      · apply exact_of_fixed hw hp hf h'
        rw [hsame, hrun]
        simp only [Option.some.injEq]
        exact Prod.ext hsame (by simpa using hch)

/-- The links before the first pass. -/
theorem linksOk_initial : LinksOk cfg (fun _ => 0)
    (Function.update (fun _ => none) 0 (some 0)) := by
  have hlinked : linked (Function.update (fun _ => none : Links n) 0 (some 0)) = {0} := by
    ext x
    rw [mem_linked]
    by_cases hx : x = 0
    · simp [hx]
    · simp [hx]
  refine ⟨Function.update_self .., ?_, ?_, ?_, ?_, ?_⟩
  · intro x hx
    rw [hlinked, Finset.mem_singleton] at hx
    rw [hx]
    exact .refl
  · intro x _
    rw [hlinked]
    simp
  · rintro x d ⟨hx, hd⟩
    simp [hx] at hd
  · intro x hx h0
    rw [hlinked, Finset.mem_singleton] at hx
    exact absurd hx h0
  · rintro x d v ⟨hx, hd⟩ _
    simp [hx] at hd

end ZendCfg
