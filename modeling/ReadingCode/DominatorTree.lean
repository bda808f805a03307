/-
# Children lists and levels of the dominator tree

From exact links `zend_cfg_compute_dominators_tree` builds the list of children of each
block, in ascending order, and the level of each block, its depth in the tree.  With the
levels `dominates` decides dominance.
-/
import ReadingCode.DominatorSweeps
import ReadingCode.ParentForest

namespace ZendCfg

open List Function

open FlowGraph

variable {n : ℕ}

/-! ## Lists along `next_child` -/

/-- The chain that begins at a link is the given list. -/
def Siblings (nextChild : Links n) : Option (Fin n) → List (Fin n) → Prop
  | none, [] => True
  | some a, b :: l => a = b ∧ Siblings nextChild (nextChild a) l
  | _, _ => False

variable {l : List (Fin n)}

variable {cfg : Cfg n} {next : Links n} {o : Option (Fin n)} {t : DomTree n}

theorem Siblings.congr {next' : Links n}
    (h : Siblings next o l) (hsame : ∀ x ∈ l, next' x = next x) : Siblings next' o l := by
  induction l generalizing o with
  | nil => cases o with
    | none => trivial
    | some a => exact h
  | cons b l ih =>
    cases o with
    | none => exact h
    | some a =>
      obtain ⟨rfl, h⟩ := h
      refine ⟨rfl, ?_⟩
      rw [hsame a mem_cons_self]
      exact ih h fun x hx => hsame x (mem_cons_of_mem a hx)

variable {fuel : ℕ}

theorem Siblings.siblings_eq
    (h : Siblings t.nextChild o l) (hf : l.length ≤ fuel) : siblings t fuel o = l := by
  induction l generalizing o fuel with
  | nil =>
    cases o with
    | none => cases fuel <;> rfl
    | some a => exact h.elim
  | cons b l ih =>
    cases o with
    | none => exact h.elim
    | some a =>
      obtain ⟨rfl, h⟩ := h
      cases fuel with
      | zero => simp at hf
      | succ fuel => rw [siblings, ih h (Nat.le_of_succ_le_succ hf)]

variable {j : Fin n}

/-- The loop runs to the end of a list of smaller numbers, and the new block is linked
behind it. -/
theorem Siblings.snoc {c : Fin n}
    (h : Siblings next (some c) (c :: l)) (hlt : ∀ x ∈ c :: l, x < j) (hnd : (c :: l).Nodup)
    (hf : l.length ≤ fuel) :
    ∃ k ∈ c :: l, lastBefore next j fuel c = some k ∧ next k = none ∧
      Siblings (update (update next j none) k (some j)) (some c) (c :: l ++ [j]) := by
  induction l generalizing c fuel with
  | nil =>
    have hc : next c = none := by
      obtain ⟨-, h⟩ := h
      cases hn : next c with
      | none => rfl
      | some b => rw [hn] at h; exact h.elim
    have hcj : c ≠ j := (hlt c mem_cons_self).ne
    refine ⟨c, mem_cons_self, ?_, hc, rfl, ?_⟩
    · unfold lastBefore
      simp only [hc]
    · rw [update_self]
      refine ⟨rfl, ?_⟩
      rw [update_of_ne hcj.symm, update_self]
      trivial
  | cons b l ih =>
    obtain ⟨-, h⟩ := h
    have hc : next c = some b := by
      cases hn : next c with
      | none => rw [hn] at h; exact h.elim
      | some b' => rw [hn] at h; rw [h.1]
    rw [hc] at h
    rw [nodup_cons] at hnd
    cases fuel with
    | zero => simp at hf
    | succ fuel =>
      have hltb : ∀ x ∈ b :: l, x < j := fun x hx => hlt x (mem_cons_of_mem c hx)
      obtain ⟨k, hk, hrun, hnk, hs⟩ := ih h hltb hnd.2 (Nat.le_of_succ_le_succ hf)
      refine ⟨k, mem_cons_of_mem c hk, ?_, hnk, rfl, ?_⟩
      · rw [← hrun]
        conv_lhs => unfold lastBefore
        simp only [hc, if_pos (hltb b mem_cons_self)]
      · have hck : c ≠ k := by
          rintro rfl
          exact hnd.1 hk
        have hcj : c ≠ j := (hlt c mem_cons_self).ne
        rw [update_of_ne hck, update_of_ne hcj, hc]
        exact hs

/-! ## Loops over a list -/

/-- What holds at first and is kept at each member holds at the end. -/
theorem foldlM_inv {α β : Type*} {f : β → α → Option β} {l : List α} (P : List α → β → Prop)
    (hstep : ∀ done a rest s, l = done ++ a :: rest → P done s →
      ∃ s', f s a = some s' ∧ P (done ++ [a]) s')
    {s : β} (h0 : P [] s) : ∃ s', l.foldlM f s = some s' ∧ P l s' := by
  have key : ∀ rest done s, l = done ++ rest → P done s →
      ∃ s', rest.foldlM f s = some s' ∧ P l s' := by
    intro rest
    induction rest with
    | nil =>
      intro done s hl h
      rw [append_nil] at hl
      exact ⟨s, rfl, hl ▸ h⟩
    | cons a rest ih =>
      intro done s hl h
      obtain ⟨s1, hrun, h1⟩ := hstep done a rest s hl h
      obtain ⟨s', hrun', h'⟩ := ih (done ++ [a]) s1 (by simpa using hl) h1
      exact ⟨s', by simpa [hrun] using hrun', h'⟩
  exact key l [] s rfl h0

/-! ## Children -/

/-- The blocks among `done` that link to `d`. -/
def kids (idom : Links n) (done : List (Fin n)) (d : Fin n) : List (Fin n) :=
  done.filter fun j => idom j = some d

/-- The children lists once the blocks `done` are linked. -/
structure Linked (t : DomTree n) (done : List (Fin n)) : Prop where
  chain : ∀ d, Siblings t.nextChild (t.children d) (kids t.idom done d)
  fresh : ∀ j, j ∉ done → t.nextChild j = none

/-- Linking a block with a larger number than the ones before. -/
theorem linkChild_spec {done : List (Fin n)}
    (h : Linked t done) (hreach : ∀ j d, t.idom j = some d → cfg.reachable j = true)
    (hnd : done.Nodup) (hj : ∀ x ∈ done, x < j) (hf : n ≤ fuel) :
    ∃ t', linkChild cfg fuel t j = some t' ∧ t'.idom = t.idom ∧ t'.level = t.level ∧
      Linked t' (done ++ [j]) := by
  have hjd : j ∉ done := fun hin => lt_irrefl j (hj j hin)
  have hkids : ∀ d, kids t.idom (done ++ [j]) d =
      kids t.idom done d ++ if t.idom j = some d then [j] else [] := by
    intro d
    rw [kids, kids]
    by_cases hd : t.idom j = some d
    · simp [hd]
    · simp [hd]
  have hnj : ∀ d, j ∉ kids t.idom done d := fun d hin => hjd (mem_of_mem_filter hin)
  cases hd : t.idom j with
  | none =>
    refine ⟨t, ?_, rfl, rfl, ?_, ?_⟩
    · rw [linkChild, hd]
      split <;> rfl
    · intro d
      rw [hkids, hd]
      simpa using h.chain d
    · exact fun x hx => h.fresh x fun hin => hx (mem_append_left _ hin)
  | some d =>
    have hr := hreach j d hd
    have hother : ∀ d', d' ≠ d → kids t.idom (done ++ [j]) d' = kids t.idom done d' := by
      intro d' hne
      rw [hkids, hd, if_neg, append_nil]
      exact fun he => hne (Option.some.inj he).symm
    have hown : kids t.idom (done ++ [j]) d = kids t.idom done d ++ [j] := by
      rw [hkids, hd, if_pos rfl]
    have hnext : ∀ x, x ∉ done ++ [j] → x ∉ done ∧ x ≠ j := by
      intro x hx
      simpa [not_or] using hx
    cases hc : t.children d with
    | none =>
      refine ⟨{ t with
        nextChild := update t.nextChild j none
        children := update t.children d (some j) }, ?_, rfl, rfl, ?_, ?_⟩
      · rw [linkChild, if_pos hr]
        simp only [hd, hc]
      · intro d'
        have hsame : ∀ x ∈ kids t.idom done d',
            update t.nextChild j none x = t.nextChild x := by
          intro x hx
          apply update_of_ne
          rintro rfl
          exact hnj d' hx
        by_cases hdd : d' = d
        · subst hdd
          have hempty : kids t.idom done d' = [] := by
            have := h.chain d'
            rw [hc] at this
            cases hk : kids t.idom done d' with
            | nil => rfl
            | cons b l => rw [hk] at this; exact this.elim
          change Siblings _ (update t.children d' (some j) d') _
          rw [update_self, hown, hempty]
          refine ⟨rfl, ?_⟩
          change Siblings _ (update t.nextChild j none j) _
          rw [update_self]
          trivial
        · change Siblings _ (update t.children d (some j) d') _
          rw [update_of_ne hdd, hother d' hdd]
          exact (h.chain d').congr hsame
      · intro x hx
        obtain ⟨hx, hxj⟩ := hnext x hx
        change update t.nextChild j none x = none
        rw [update_of_ne hxj, h.fresh x hx]
    | some c =>
      have hchain := h.chain d
      rw [hc] at hchain
      obtain ⟨l, hl⟩ : ∃ l, kids t.idom done d = c :: l := by
        cases hk : kids t.idom done d with
        | nil => rw [hk] at hchain; exact hchain.elim
        | cons b l => rw [hk] at hchain; exact ⟨l, by rw [hchain.1]⟩
      have hlt : ∀ x ∈ c :: l, x < j := by
        rw [← hl]
        exact fun x hx => hj x (mem_of_mem_filter hx)
      have hndl : (c :: l).Nodup := by
        rw [← hl]
        exact hnd.filter _
      have hlen : l.length ≤ fuel := by
        have := hndl.length_le_card
        rw [Fintype.card_fin, length_cons] at this
        omega
      rw [hl] at hchain
      obtain ⟨k, hk, hrun, hnk, hs⟩ := hchain.snoc hlt hndl hlen
      have hcj : ¬ j < c := not_lt.mpr (hlt c mem_cons_self).le
      refine ⟨{ t with
        nextChild := update (update t.nextChild j none) k (some j) },
        ?_, rfl, rfl, ?_, ?_⟩
      · rw [linkChild, if_pos hr]
        simp only [hd, hc, if_neg hcj, hrun, Option.map_some, hnk]
      · intro d'
        by_cases hdd : d' = d
        · subst hdd
          rw [hown, hl, hc]
          exact hs
        · rw [hother d' hdd]
          apply (h.chain d').congr
          intro x hx
          have hxd := (mem_filter.mp hx).2
          have hxk : x ≠ k := by
            rintro rfl
            rw [← hl] at hk
            have hkd := (mem_filter.mp hk).2
            simp only [decide_eq_true_eq] at hxd hkd
            exact hdd (Option.some.inj (hxd.symm.trans hkd))
          have hxj : x ≠ j := by
            rintro rfl
            exact hnj d' hx
          exact (update_of_ne hxk _ _).trans (update_of_ne hxj _ _)
      · intro x hx
        obtain ⟨hx, hxj⟩ := hnext x hx
        have hxk : x ≠ k := by
          rintro rfl
          rw [← hl] at hk
          exact hx (mem_of_mem_filter hk)
        change update (update t.nextChild j none) k (some j) x = none
        rw [update_of_ne hxk, update_of_ne hxj, h.fresh x hx]

theorem laterBlocks_sorted [NeZero n] : (laterBlocks n).Pairwise (· < ·) :=
  (pairwise_lt_finRange n).filter _

variable {x : Fin n}

theorem mem_laterBlocks [NeZero n] : x ∈ laterBlocks n ↔ x ≠ 0 := by
  simp [laterBlocks]

/-- The loop that sorts the children. -/
theorem linkChildren_spec [NeZero n] (h : Linked t [])
    (hreach : ∀ j d, t.idom j = some d → cfg.reachable j = true) (hf : n ≤ fuel) :
    ∃ t', (laterBlocks n).foldlM (linkChild cfg fuel) t = some t' ∧ t'.idom = t.idom ∧
      t'.level = t.level ∧ Linked t' (laterBlocks n) := by
  refine foldlM_inv (fun done t' => t'.idom = t.idom ∧ t'.level = t.level ∧ Linked t' done) ?_
    ⟨rfl, rfl, h⟩
  rintro done j rest s hl ⟨hid, hlev, hs⟩
  have hsorted : (done ++ j :: rest).Pairwise (· < ·) := hl ▸ laterBlocks_sorted
  rw [pairwise_append] at hsorted
  obtain ⟨t', hrun, hid', hlev', h'⟩ := linkChild_spec hs (by rw [hid]; exact hreach)
    (hsorted.1.imp ne_of_lt) (fun x hx => hsorted.2.2 x hx j mem_cons_self) hf
  exact ⟨t', hrun, hid'.trans hid, hlev'.trans hlev, h'⟩

/-! ## Links to immediate dominators -/

/-- A block has a link just when it has an immediate dominator, and links there. -/
structure Immediate [NeZero n] (cfg : Cfg n) (idom : Links n) : Prop where
  link_iff : ∀ x d, idom x = some d ↔ IDom cfg.Edge 0 d x
  linked : ∀ x, cfg.FromEntry x → x ≠ 0 → ∃ d, idom x = some d

/-- `blocks[0].idom = -1` after the passes. -/
theorem Exact.links [NeZero n] {idom : Links n} (h : Exact cfg idom) :
    Immediate cfg (update idom 0 none) := by
  refine ⟨fun x d => ?_, fun x hx h0 => ?_⟩
  · by_cases h0 : x = 0
    · subst h0
      exact ⟨fun hn => (Option.some_ne_none d hn.symm).elim, fun hd => absurd rfl hd.1.ne_entry⟩
    · rw [update_of_ne h0]
      constructor
      · intro hd
        have hx : cfg.FromEntry x := by
          by_contra hn
          rw [h.other x hn] at hd
          exact Option.some_ne_none d hd.symm
        obtain ⟨d', hd', hi⟩ := h.immediate x hx h0
        rwa [Option.some.inj (hd.symm.trans hd')]
      · intro hi
        obtain ⟨d', hd', hi'⟩ := h.immediate x hi.1.1.1 h0
        rw [hd', hi'.unique hi]
  · rw [update_of_ne h0]
    obtain ⟨d, hd, -⟩ := h.immediate x hx h0
    exact ⟨d, hd⟩

namespace Immediate

variable [NeZero n] {cfg : Cfg n} {idom : Links n}

theorem entry (h : Immediate cfg idom) : idom 0 = none := by
  cases hd : idom 0 with
  | none => rfl
  | some d => exact absurd rfl ((h.link_iff 0 d).mp hd).1.ne_entry

theorem fromEntry (h : Immediate cfg idom) {d : Fin n} (hd : idom x = some d) :
    cfg.FromEntry x ∧ cfg.FromEntry d := by
  have hi := (h.link_iff x d).mp hd
  exact ⟨hi.1.1.1, hi.1.1.reach_left⟩

theorem rooted (h : Immediate cfg idom) : Forest.Rooted idom := by
  intro x
  induction x using sdom_induction cfg.Edge 0 with
  | step x ih =>
    cases hd : idom x with
    | none => exact ⟨1, .root hd⟩
    | some d =>
      obtain ⟨k, hk⟩ := ih d ((h.link_iff x d).mp hd).1
      exact ⟨k + 1, .child hd hk⟩

/-- The blocks on the path to the root are the dominators. -/
theorem onPath_iff (h : Immediate cfg idom) {a : Fin n} (hx : cfg.FromEntry x) :
    Forest.OnPath idom a x ↔ Dom cfg.Edge 0 a x := by
  constructor
  · intro hp
    induction hp with
    | self => exact .refl hx
    | up hd _ ih => exact (ih (h.fromEntry hd).2).trans ((h.link_iff _ _).mp hd).1.1
  · intro ha
    induction x using sdom_induction cfg.Edge 0 with
    | step x ih =>
      by_cases hax : a = x
      · rw [hax]
        exact .self
      · have hs : SDom cfg.Edge 0 a x := ⟨ha, hax⟩
        obtain ⟨d, hd⟩ := h.linked x hx hs.ne_entry
        have hi := (h.link_iff x d).mp hd
        exact .up hd (ih d hi.1 (h.fromEntry hd).2 (hi.2 a hs))

end Immediate

/-! ## Levels -/

theorem depth_le {idom : Links n} {k : ℕ} (h : Forest.Depth idom x k) : k ≤ n := by
  have := h.le_card (S := Finset.univ) fun y _ => Finset.mem_univ y
  rwa [Finset.card_univ, Fintype.card_fin] at this

/-- A level that is set is the number of links to the root. -/
def LevelOk (t : DomTree n) (x : Fin n) : Prop :=
  ∃ k : ℕ, Forest.Depth t.idom x (k + 1) ∧ t.level x = k

variable {t : DomTree n}

theorem countLevels_spec (hlev : ∀ x, 0 ≤ t.level x → LevelOk t x)
    {k : ℕ} (hk : Forest.Depth t.idom x k) (hf : k ≤ fuel) (l : ℤ) :
    countLevels t.idom t.level fuel (some x) l = some (l + k) := by
  induction hk generalizing fuel l with
  | @root x hx =>
    unfold countLevels
    by_cases h0 : 0 ≤ t.level x
    · obtain ⟨k, hk, hl⟩ := hlev x h0
      have hk1 := hk.unique (.root hx)
      rw [if_pos h0]
      congr 1
      omega
    · cases fuel with
      | zero => omega
      | succ fuel =>
        simp only [if_neg h0, hx]
        unfold countLevels
        rfl
  | @child x p k hp hk ih =>
    unfold countLevels
    by_cases h0 : 0 ≤ t.level x
    · obtain ⟨k', hk', hl⟩ := hlev x h0
      have hk1 := hk'.unique (.child hp hk)
      rw [if_pos h0]
      congr 1
      omega
    · cases fuel with
      | zero => omega
      | succ fuel =>
        simp only [if_neg h0, hp]
        rw [ih (Nat.le_of_succ_le_succ hf)]
        congr 1
        omega

/-- The loop that sets the levels, at one block. -/
theorem setLevel_spec {cfg : Cfg n} (hroot : Forest.Rooted t.idom)
    (hlev : ∀ x, 0 ≤ t.level x → LevelOk t x) (hf : n ≤ fuel) (hr : cfg.reachable j = true) :
    ∃ l, setLevel cfg fuel t j = some { t with level := update t.level j l } ∧
      LevelOk { t with level := update t.level j l } j := by
  obtain ⟨k, hk⟩ := hroot j
  cases hd : t.idom j with
  | none =>
    refine ⟨0, ?_, 0, .root hd, ?_⟩
    · rw [setLevel, if_pos hr, hd]
      unfold countLevels
      rfl
    · exact update_self ..
  | some d =>
    obtain ⟨k, rfl, hkd⟩ := (Forest.Depth.child_iff hd).mp hk
    refine ⟨k, ?_, k, hk, ?_⟩
    · rw [setLevel, if_pos hr, hd, countLevels_spec hlev hkd ((depth_le hkd).trans hf),
        Int.zero_add, Option.map_some]
    · exact update_self ..

/-- The loop that sets the levels. -/
theorem setLevels_spec (cfg : Cfg n) (hroot : Forest.Rooted t.idom)
    (hlev : ∀ x, t.level x = -1) (hf : n ≤ fuel) :
    ∃ t', (finRange n).foldlM (setLevel cfg fuel) t = some t' ∧
      ∃ level, t' = { t with level := level } ∧
        (∀ x, cfg.reachable x = true → LevelOk t' x) ∧
        ∀ x, cfg.reachable x = false → level x = -1 := by
  have h := foldlM_inv (f := setLevel cfg fuel) (l := finRange n) (s := t)
    (fun done t' => ∃ level, t' = { t with level := level } ∧
      (∀ x ∈ done, cfg.reachable x = true → LevelOk t' x) ∧
      ∀ x, (x ∈ done → cfg.reachable x = false) → level x = -1)
    ?_ ⟨t.level, rfl, by simp, fun x _ => hlev x⟩
  · obtain ⟨t', hrun, level, rfl, hdone, hundone⟩ := h
    exact ⟨_, hrun, level, rfl, fun x hx => hdone x (mem_finRange x) hx,
      fun x hx => hundone x fun _ => hx⟩
  · rintro done j rest s hl ⟨level, rfl, hdone, hundone⟩
    have hset : ∀ x, 0 ≤ level x → LevelOk { t with level := level } x := by
      intro x hx
      by_cases hin : x ∈ done ∧ cfg.reachable x = true
      · exact hdone x hin.1 hin.2
      · have := hundone x fun hd => by simpa using fun hr => hin ⟨hd, hr⟩
        omega
    cases hr : cfg.reachable j with
    | false =>
      refine ⟨{ t with level := level }, ?_, level, rfl, ?_, ?_⟩
      · simp [setLevel, hr]
      · intro x hx hxr
        rcases mem_append.mp hx with hx | hx
        · exact hdone x hx hxr
        · rw [mem_singleton.mp hx, hr] at hxr
          exact absurd hxr (by simp)
      · exact fun x hx => hundone x fun hin => hx (mem_append_left _ hin)
    | true =>
      obtain ⟨l, hrun, hok⟩ := setLevel_spec (t := { t with level := level }) hroot hset hf hr
      refine ⟨_, hrun, update level j l, rfl, ?_, ?_⟩
      · intro x hx hxr
        by_cases hxj : x = j
        · rw [hxj]
          exact hok
        · have hin : x ∈ done := by
            simpa [hxj] using hx
          obtain ⟨k, hk, hlk⟩ := hdone x hin hxr
          exact ⟨k, hk, (update_of_ne hxj _ _).trans hlk⟩
      · intro x hx
        have hxj : x ≠ j := by
          rintro rfl
          rw [hx (by simp)] at hr
          exact absurd hr (by simp)
        rw [update_of_ne hxj]
        exact hundone x fun hin => hx (mem_append_left _ hin)

/-! ## The tree -/

/-- What `zend_cfg_compute_dominators_tree` leaves in the blocks. -/
structure TreeOk [NeZero n] (cfg : Cfg n) (t : DomTree n) : Prop where
  links : Immediate cfg t.idom
  children : ∀ d, Siblings t.nextChild (t.children d) (kids t.idom (laterBlocks n) d)
  level : ∀ x, cfg.reachable x = true → LevelOk t x
  unreached : ∀ x, cfg.reachable x = false → t.level x = -1

/-- The function comes to an end and its result is the dominator tree. -/
theorem computeDominatorsTree_ok [NeZero n] {cfg : Cfg n} (hw : cfg.WellFormed)
    (hf : 2 * n < fuel) : ∃ t, computeDominatorsTree cfg fuel = some t ∧ TreeOk cfg t := by
  obtain ⟨post, hpost, hp⟩ := computePostnum_postorder hw (show n < fuel by omega)
  obtain ⟨idom, hidom, hex⟩ := sweeps_exact hw hp hf.le 0 fuel (by omega) linksOk_initial
    (fun x _ Q k hk => absurd hk (Nat.not_lt_zero k)) (Nat.zero_le n)
  have hlinks := hex.links
  have hreach : ∀ j d, update idom 0 none j = some d → cfg.reachable j = true :=
    fun j d hd => (hlinks.fromEntry hd).1.reachable hw
  obtain ⟨t, ht, hid, hlev, hl⟩ := linkChildren_spec
    (t := { idom := update idom 0 none, children := fun _ => none,
            nextChild := fun _ => none, level := fun _ => -1 })
    ⟨fun d => trivial, fun j _ => rfl⟩ hreach (show n ≤ fuel by omega)
  have hlinks' : Immediate cfg t.idom := by
    rw [hid]
    exact hlinks
  obtain ⟨t', ht', level, rfl, hlevel, hunreached⟩ := setLevels_spec cfg
    hlinks'.rooted (fun x => congrFun hlev x) (show n ≤ fuel by omega)
  refine ⟨{ t with level := level }, ?_, hlinks', hl.chain, hlevel, hunreached⟩
  rw [computeDominatorsTree, hpost]
  simp only [Option.bind_eq_bind, Option.bind_some, hidom, ht, ht']

namespace TreeOk

variable [NeZero n] {cfg : Cfg n} {t : DomTree n}

/-- The list along `next_child` from `children`. -/
theorem siblings_eq (h : TreeOk cfg t) (d : Fin n) :
    siblings t n (t.children d) = kids t.idom (laterBlocks n) d := by
  apply (h.children d).siblings_eq
  have hnd : (laterBlocks n).Nodup := (nodup_finRange n).filter _
  have := (hnd.filter fun j => t.idom j = some d).length_le_card
  rwa [Fintype.card_fin] at this

theorem mem_siblings (h : TreeOk cfg t) {d : Fin n} :
    j ∈ siblings t n (t.children d) ↔ t.idom j = some d := by
  rw [h.siblings_eq, kids, mem_filter, mem_laterBlocks]
  simp only [ne_eq, decide_eq_true_eq, and_iff_right_iff_imp]
  rintro hj rfl
  rw [h.links.entry] at hj
  exact Option.some_ne_none d hj.symm

/-- The level grows along every link. -/
theorem level_link (h : TreeOk cfg t) (hw : cfg.WellFormed) {d : Fin n}
    (hd : t.idom x = some d) : t.level x = t.level d + 1 := by
  obtain ⟨hx, hde⟩ := h.links.fromEntry hd
  obtain ⟨k, hk, hlk⟩ := h.level x (hx.reachable hw)
  obtain ⟨m, hm, hlm⟩ := h.level d (hde.reachable hw)
  have := hk.unique (.child hd hm)
  omega

theorem level_lt (h : TreeOk cfg t) (hw : cfg.WellFormed) {a : Fin n}
    (ha : SDom cfg.Edge 0 a x) : t.level a < t.level x := by
  have hx := ha.1.1
  obtain ⟨k, hk, hlk⟩ := h.level x (Cfg.FromEntry.reachable hw hx)
  obtain ⟨m, hm, hlm⟩ := h.level a (Cfg.FromEntry.reachable hw ha.1.reach_left)
  have := ((h.links.onPath_iff hx).mpr ha.1).depth_lt ha.2 hm hk
  omega

theorem level_nonneg (h : TreeOk cfg t) (hx : cfg.reachable x = true) : 0 ≤ t.level x := by
  obtain ⟨k, -, hk⟩ := h.level x hx
  omega

theorem level_of_root (h : TreeOk cfg t) (hx : cfg.reachable x = true)
    (hd : t.idom x = none) : t.level x = 0 := by
  obtain ⟨k, hk, hlk⟩ := h.level x hx
  have := hk.unique (.root hd)
  omega

/-- `dominates` comes to an end and decides dominance, and calls a block that is not
reachable from the entry a dominator of itself only. -/
theorem dominates_spec (h : TreeOk cfg t) (hw : cfg.WellFormed) {a b : Fin n}
    (ha : cfg.reachable a = true) (hb : cfg.reachable b = true) (hf : t.level b ≤ fuel) :
    ∃ r, dominates t fuel a b = some r ∧ (r = true ↔ b = a ∨ Dom cfg.Edge 0 a b) := by
  induction b using sdom_induction cfg.Edge 0 generalizing fuel with
  | step b ih =>
    by_cases hlt : t.level a < t.level b
    · have ha0 := h.level_nonneg ha
      have hne : b ≠ a := by
        rintro rfl
        exact lt_irrefl _ hlt
      cases hd : t.idom b with
      | none =>
        have := h.level_of_root hb hd
        omega
      | some d =>
        have hi := (h.links.link_iff b d).mp hd
        have hl := h.level_link hw hd
        cases fuel with
        | zero => omega
        | succ fuel =>
          have hdr := Cfg.FromEntry.reachable hw (h.links.fromEntry hd).2
          obtain ⟨r, hrun, hr⟩ := ih d hi.1 hdr (show t.level d ≤ fuel by omega)
          refine ⟨r, ?_, hr.trans ⟨?_, ?_⟩⟩
          · rw [← hrun]
            conv_lhs => unfold dominates
            rw [if_pos hlt]
            simp only [hd]
          · rintro (rfl | had)
            · exact .inr hi.1.1
            · exact .inr (had.trans hi.1.1)
          · rintro (heq | hab)
            · exact absurd heq hne
            · exact .inr (hi.2 a ⟨hab, hne.symm⟩)
    · refine ⟨decide (a = b), ?_, ?_⟩
      · unfold dominates
        rw [if_neg hlt]
      · rw [decide_eq_true_eq]
        constructor
        · exact fun heq => .inl heq.symm
        · rintro (heq | hab)
          · exact heq.symm
          · by_contra hne
            exact hlt (h.level_lt hw ⟨hab, hne⟩)

end TreeOk

/-!
# The spanning tree of the join graph

`zend_cfg_identify_loops` calls a loop irreducible when an edge that is not a back edge leads up the
spanning tree.  There is such an edge just when some closed path has no block that dominates all of
it.
-/

open StackSearch

variable {n : ℕ} [NeZero n] {cfg : Cfg n} {t : DomTree n}

/-- A spanning tree of the search from the entry; `disc` is the order of discovery. -/
structure Spanning (cfg : Cfg n) (tree : Links n) (disc : Fin n → ℕ) : Prop where
  bound : ∀ x, cfg.FromEntry x → disc x < n
  entry : tree 0 = none
  parent : ∀ x, cfg.FromEntry x → x ≠ 0 → ∃ y, tree x = some y
  link : ∀ x y, tree x = some y →
    cfg.FromEntry y ∧ disc y < disc x ∧ (IDom cfg.Edge 0 y x ∨ cfg.Edge y x)
  between : ∀ v y z, cfg.FromEntry y → cfg.FromEntry z → Above tree v y →
    disc v ≤ disc z → disc z ≤ disc y → Above tree v z
  forward : ∀ x y, cfg.FromEntry x → cfg.Edge x y → disc x < disc y → Above tree x y

/-! ## The search -/

/-- The search looks at the children and at the targets of all edges. -/
theorem mem_djNext (h : TreeOk cfg t) (hw : cfg.WellFormed) {i j : Fin n}
    (hi : cfg.reachable i = true) : j ∈ djNext cfg t i ↔ IDom cfg.Edge 0 i j ∨ cfg.Edge i j := by
  have hsucc : j ∈ (cfg.succ0 i).toList ++ (cfg.succ1 i).toList ↔ cfg.Edge i j := by
    rw [Cfg.Edge, Cfg.mem_succs, List.mem_append, Option.mem_toList]
    have := hw.first i
    cases h0 : cfg.succ0 i with
    | none => simp [hi, this h0]
    | some b => simp [hi]
  rw [djNext, List.mem_append, h.mem_siblings, List.mem_filter, decide_eq_true_eq,
    ← h.links.link_iff]
  tauto

/-- The search comes to an end with a spanning tree. -/
theorem search_spanning (h : TreeOk cfg t) (hw : cfg.WellFormed) (hf : 2 * n ≤ fuel) :
    ∃ s disc, search (djNext cfg t) fuel (State.start 0) = some s ∧ Spanning cfg s.tree disc := by
  have hstart := unvisited_start (0 : Fin n)
  rw [Fintype.card_fin] at hstart
  obtain ⟨s, disc, count, hrun, hinv, hstack, hvis, htree, hpar, hcount⟩ :=
    search_spec fuel (.start 0) _ 1 (inv_start (djNext cfg t) 0) (by
      change 2 * _ + 1 ≤ fuel
      omega)
  have h0 : s.visited 0 = true := hvis 0 (by simp [State.start])
  have hparent : ∀ x, s.visited x = true → x ≠ 0 → ∃ y, s.tree x = some y := by
    intro x hx hx0
    rcases hpar x hx with hx | hx
    · simp [State.start, hx0] at hx
    · exact hx
  -- what is visited is reachable, by the order of discovery
  have hfrom : ∀ k x, disc x < k → s.visited x = true → cfg.FromEntry x := by
    intro k
    induction k with
    | zero => exact fun x hx => absurd hx (Nat.not_lt_zero _)
    | succ k ih =>
      intro x hk hx
      by_cases hx0 : x = 0
      · rw [hx0]
        exact .refl
      · obtain ⟨y, hy⟩ := hparent x hx hx0
        obtain ⟨-, hvy, hlt, hnext⟩ := hinv.tree x y hy
        have hye := ih y (by omega) hvy
        rcases (mem_djNext h hw (Cfg.FromEntry.reachable hw hye)).mp hnext with hi | he
        · exact hi.1.1.1
        · exact hye.tail he
  have hall : ∀ x, cfg.FromEntry x → s.visited x = true := by
    intro x hx
    induction hx with
    | refl => exact h0
    | @tail a b ha hab ih =>
      refine hinv.finished a ih (by simp [hstack]) b ?_
      exact (mem_djNext h hw hab.1).mpr (.inr hab)
  refine ⟨s, disc, hrun, ?_, ?_, ?_, ?_, ?_, ?_⟩
  · intro x hx
    have := hinv.disc_lt x (hall x hx)
    omega
  · rw [htree 0 (by simp [State.start])]
    rfl
  · exact fun x hx => hparent x (hall x hx)
  · intro x y hy
    obtain ⟨-, hvy, hlt, hnext⟩ := hinv.tree x y hy
    have hye := hfrom _ y (Nat.lt_succ_self _) hvy
    exact ⟨hye, hlt, (mem_djNext h hw (Cfg.FromEntry.reachable hw hye)).mp hnext⟩
  · exact fun v y z hy hz => hinv.between v y z (hall y hy) (hall z hz)
  · intro x y hx he
    have hnext := (mem_djNext h hw he.1).mpr (.inr he)
    exact hinv.forward x y (hall x hx) (hall y (hx.tail he)) hnext

namespace Spanning

variable {tree : Links n} {disc : Fin n → ℕ}

theorem fromEntry (h : Spanning cfg tree disc) {a x : Fin n} (ha : cfg.FromEntry a)
    (hp : Above tree a x) : cfg.FromEntry x := by
  induction hp with
  | refl => exact ha
  | tail _ hl ih =>
    rcases (h.link _ _ hl).2.2 with hi | he
    · exact hi.1.1.1
    · exact ih.tail he

theorem disc_le (h : Spanning cfg tree disc) {a x : Fin n} (hp : Above tree a x) :
    disc a ≤ disc x := by
  induction hp with
  | refl => exact le_rfl
  | tail _ hl ih => exact ih.trans (h.link _ _ hl).2.1.le

theorem above_antisymm (h : Spanning cfg tree disc) {a x : Fin n} (hp : Above tree a x)
    (hp' : Above tree x a) : a = x := by
  rcases hp.cases_tail with he | ⟨y, hay, hyx⟩
  · exact he.symm
  · have h1 := h.disc_le hay
    have h2 := (h.link _ _ hyx).2.1
    have h3 := h.disc_le hp'
    omega

/-- Dominators lie above in the spanning tree, since the links do not lead past them. -/
theorem above_of_dom (h : Spanning cfg tree disc) {d x : Fin n} (hd : Dom cfg.Edge 0 d x) :
    Above tree d x := by
  have key : ∀ k x, disc x < k → Dom cfg.Edge 0 d x → Above tree d x := by
    intro k
    induction k with
    | zero => exact fun x hx => absurd hx (Nat.not_lt_zero _)
    | succ k ih =>
      intro x hk hd
      by_cases hdx : d = x
      · rw [hdx]
        exact .refl
      · have hs : SDom cfg.Edge 0 d x := ⟨hd, hdx⟩
        obtain ⟨y, hy⟩ := h.parent x hd.1 hs.ne_entry
        obtain ⟨hye, hlt, hl⟩ := h.link x y hy
        have hdy : Dom cfg.Edge 0 d y := by
          rcases hl with hi | he
          · exact hi.2 d hs
          · exact hs.pred hye he
        exact (ih y (by omega) hdy).tail hy
  exact key _ x (Nat.lt_succ_self _) hd

/-- Down the spanning tree there is a path of the flow graph, through blocks that are
dominated by blocks of the tree path. -/
theorem walk_down (h : Spanning cfg tree disc) {i p : Fin n} (hp : Above tree i p) :
    Relation.ReflTransGen
      (fun a b => cfg.Edge a b ∧ ∃ x, Above tree i x ∧ Dom cfg.Edge 0 x b) i p := by
  induction hp with
  | refl => exact .refl
  | @tail x y hx hl ih =>
    rcases (h.link _ _ hl).2.2 with hi | he
    · refine ih.trans (.mono ?_ _ _ hi.1.1.path)
      exact fun a b hab => ⟨hab.1, x, hx, hab.2.2⟩
    · exact ih.tail ⟨he, y, hx.tail hl, .refl ((h.link _ _ hl).1.tail he)⟩

end Spanning

/-! ## Irreducible loops -/

/-- An edge to a block that lies above in the spanning tree and does not dominate its
source. -/
def SpBack (cfg : Cfg n) (tree : Links n) (p i : Fin n) : Prop :=
  cfg.FromEntry i ∧ cfg.Edge p i ∧ Above tree i p ∧ ¬ Dom cfg.Edge 0 i p

namespace Spanning

variable {tree : Links n} {disc : Fin n → ℕ}

/-- Such an edge closes a path no block of which dominates all others. -/
theorem not_reducible (h : Spanning cfg tree disc) {p i : Fin n} (hb : SpBack cfg tree p i) :
    ¬ Reducible cfg.Edge 0 := by
  obtain ⟨hi, he, hp, hnd⟩ := hb
  intro hred
  obtain ⟨c, hc, hic, hpc, hP⟩ := exists_cycle hi ⟨i, .refl, .refl hi⟩ (h.walk_down hp) he
  obtain ⟨d, hdc, hd⟩ := hred c hc
  have hne : d ≠ i := by
    rintro rfl
    exact hnd (hd p hpc)
  -- the dominator is strictly above `i`, and also dominated from below
  obtain ⟨x, hix, hxd⟩ := hP d hdc
  have hs : SDom cfg.Edge 0 x i := hxd.trans_sdom ⟨hd i hic, hne⟩
  exact hs.2 (h.above_antisymm (h.above_of_dom hs.1) hix)

variable {c : List (Fin n)}

/-- The block of a closed path that is discovered first lies above all of it. -/
theorem above_cycle (h : Spanning cfg tree disc) (hc : Cycle cfg.Edge 0 c)
    {v : Fin n} (hv : v ∈ c) (hmin : ∀ z ∈ c, disc v ≤ disc z) {z : Fin n} (hz : z ∈ c) :
    Above tree v z := by
  have hw := hc.walk hv hz
  clear hz
  induction hw with
  | refl => exact .refl
  | @tail a b _ hab ih =>
    obtain ⟨he, ha, hb⟩ := hab
    rcases lt_or_ge (disc a) (disc b) with hlt | hge
    · exact .trans ih (h.forward a b (hc.reach ha) he hlt)
    · exact h.between v a b (hc.reach ha) (hc.reach hb) ih (hmin b hb) hge

/-- When every edge that leads to `v` from below in the tree is a back edge, `v` dominates
the closed paths on which it is discovered first. -/
theorem dom_cycle (h : Spanning cfg tree disc) (hc : Cycle cfg.Edge 0 c)
    {v : Fin n} (hv : v ∈ c) (hmin : ∀ z ∈ c, disc v ≤ disc z)
    (hback : ∀ p, cfg.Edge p v → Above tree v p → Dom cfg.Edge 0 v p) {z : Fin n}
    (hz : z ∈ c) : Dom cfg.Edge 0 v z := by
  have hw := hc.walk hz hv
  have key : z = v ∨ InLoop cfg.Edge 0 v z := by
    clear hz
    induction hw using Relation.ReflTransGen.head_induction_on with
    | refl => exact .inl rfl
    | @head a b hab _ ih =>
      obtain ⟨he, ha, hb⟩ := hab
      by_cases hav : a = v
      · exact .inl hav
      · refine .inr ?_
        by_cases hbv : b = v
        · subst hbv
          have hd := hback a he (h.above_cycle hc hv hmin ha)
          exact ⟨hc.reach ha, .inr ⟨hav, a, ⟨he, hd⟩, .refl⟩⟩
        · exact .of_walk (hc.reach ha) hav (ih.resolve_left hbv) (.single ⟨he, hbv⟩)
  rcases key with rfl | hin
  · exact .refl (hc.reach hv)
  · exact hin.dom

/-- The graph is irreducible just when there is such an edge. -/
theorem reducible_iff (h : Spanning cfg tree disc) :
    Reducible cfg.Edge 0 ↔ ∀ p i, ¬ SpBack cfg tree p i := by
  refine ⟨fun hred p i hb => h.not_reducible hb hred, fun hno c hc => ?_⟩
  have hne : c.toFinset.Nonempty := by
    obtain ⟨a, l, rfl, -⟩ := hc
    exact ⟨a, by simp⟩
  obtain ⟨v, hv, hmin⟩ := c.toFinset.exists_min_image disc hne
  simp only [List.mem_toFinset] at hv hmin
  refine ⟨v, hv, fun z hz => h.dom_cycle hc hv hmin ?_ hz⟩
  intro p he hp
  by_contra hnd
  exact hno p v ⟨hc.reach hv, he, hp, hnd⟩

/-- The walk up the spanning tree. -/
theorem isSpBack_spec (h : Spanning cfg tree disc) {i p : Fin n} (hf : n ≤ fuel) :
    ∃ r, isSpBack tree i fuel (some p) = some r ∧ (r = true ↔ Above tree i p) := by
  have key : ∀ fuel p, 0 < fuel → (cfg.FromEntry p → disc p < fuel) →
      ∃ r, isSpBack tree i fuel (some p) = some r ∧ (r = true ↔ Above tree i p) := by
    intro fuel
    induction fuel with
    | zero => exact fun p h0 => absurd h0 (lt_irrefl 0)
    | succ fuel ih =>
      intro p _ hp
      unfold isSpBack
      by_cases hpi : p = i
      · refine ⟨true, by simp [hpi], fun _ => ?_, fun _ => rfl⟩
        rw [hpi]
        exact .refl
      · simp only [if_neg hpi]
        cases hy : tree p with
        | none =>
          refine ⟨false, by unfold isSpBack; rfl, by simp, fun hip => ?_⟩
          rcases hip.cases_tail with he | ⟨y, -, hyp⟩
          · exact absurd he hpi
          · exact absurd (hy.symm.trans hyp) (by simp)
        | some y =>
          obtain ⟨hye, hlt, -⟩ := h.link p y hy
          have hpe : cfg.FromEntry p := h.fromEntry hye (.single hy)
          have := hp hpe
          obtain ⟨r, hrun, hr⟩ := ih y (by omega) fun _ => by omega
          refine ⟨r, hrun, hr.trans ⟨fun hiy => hiy.tail hy, fun hip => ?_⟩⟩
          rcases hip.cases_tail with he | ⟨y', hiy', hyp⟩
          · exact absurd he hpi
          · rwa [Option.some.inj (hy.symm.trans hyp)]
  have hn := Nat.pos_of_ne_zero (NeZero.ne n)
  exact key fuel p (by omega) fun hp => lt_of_lt_of_le (h.bound p hp) hf

end Spanning

end ZendCfg
