/-
# The priority tree stays a forest

The invariant of the tree of dependency nodes, and that the parts of
`ngx_http_v2_set_dependency` and `ngx_http_v2_get_closed_node` keep it.
-/
import ReadingCode.PriorityTree

namespace Priority

open Conn Forest

/-! ## Invariant -/

/-- The parent links of the nodes, without the distinction of roots and nodes outside. -/
def parOf (parent : ℕ → Link) (a : ℕ) : Option ℕ :=
  match parent a with
  | .node p => some p
  | _ => none

theorem parOf_eq_some {parent : ℕ → Link} {a p : ℕ} :
    parOf parent a = some p ↔ parent a = .node p := by
  unfold parOf
  cases parent a <;> simp

theorem parOf_congr {parent parent' : ℕ → Link} {a : ℕ} (h : parent' a = parent a) :
    parOf parent' a = parOf parent a := by
  rw [parOf, parOf, h]

def Conn.parent (s : Conn) (a : ℕ) : Link := (s.nodes a).parent

def Conn.par (s : Conn) : ℕ → Option ℕ := parOf s.parent

/-- The links are a forest that the queues agree with; the nodes in it are those with a
parent link. -/
structure Linked (s : Conn) : Prop where
  agree : Agree s.parent s.queue
  rooted : Rooted s.par
  lt : ∀ a, s.parent a ≠ .null → a < s.nnodes
  live : ∀ a p, s.parent a = .node p → s.parent p ≠ .null

/-- **The invariant of the tree**: moreover ranks are depths. -/
structure Tree (s : Conn) : Prop extends Linked s where
  rank : ∀ a, s.parent a ≠ .null → Depth s.par a (s.nodes a).rank

variable {s s' : Conn}

namespace Linked

variable {a : ℕ}

theorem path_live (h : Linked s) {x : ℕ} (hp : OnPath s.par x a) (ha : s.parent a ≠ .null) :
    s.parent x ≠ .null := by
  induction hp with
  | self => exact ha
  | up hpar _ ih => exact ih (h.live _ _ (parOf_eq_some.1 hpar))

/-- No node is deeper than there are nodes. -/
theorem depth_le (h : Linked s) {d : ℕ} (ha : s.parent a ≠ .null) (hd : Depth s.par a d) :
    d ≤ s.nnodes := by
  rw [← Finset.card_range s.nnodes]
  apply hd.le_card
  intro x hx
  exact Finset.mem_range.2 (h.lt x (h.path_live hx ha))

theorem mem_kids (h : Linked s) {c : ℕ} : c ∈ s.kids a ↔ s.parent c = .node a :=
  h.agree.mem (.node a) (by simp) c

theorem congr (h : Linked s) (hparent : ∀ a, s'.parent a = s.parent a)
    (hqueue : ∀ l, s'.queue l = s.queue l) (hn : s'.nnodes = s.nnodes) : Linked s' := by
  have hp : s'.parent = s.parent := funext hparent
  have hq : s'.queue = s.queue := funext hqueue
  have hpar : s'.par = s.par := by rw [Conn.par, Conn.par, hp]
  refine ⟨?_, ?_, ?_, ?_⟩
  · rw [hp, hq]
    exact h.agree
  · rw [hpar]
    exact h.rooted
  · rw [hp, hn]
    exact h.lt
  · rw [hp]
    exact h.live

end Linked

variable {a b : ℕ}

theorem Below.snoc {children : ℕ → List ℕ} {p : ℕ} (h : Below children a p)
    (hb : b ∈ children p) : Below children a b := by
  induction h with
  | self a => exact Below.down hb (Below.self b)
  | down hc _ ih => exact Below.down hc (ih hb)

theorem Linked.below_of_onPath (h : Linked s) (hp : OnPath s.par a b) : Below s.kids a b := by
  induction hp with
  | self => exact Below.self a
  | up hpar _ ih => exact ih.snoc (h.mem_kids.2 (parOf_eq_some.1 hpar))

theorem Linked.below_live (h : Linked s) (hb : Below s.kids a b)
    (ha : s.parent a ≠ .null) : s.parent b ≠ .null := by
  induction hb with
  | self _ => exact ha
  | down hc _ ih =>
    apply ih
    rw [h.mem_kids.1 hc]
    simp

/-- **Updating the ranks below a node** completes the tree, when they are right elsewhere. -/
theorem Linked.childrenUpdate (h : Linked s) (ha : s.parent a ≠ .null)
    (hrank : Depth s.par a (s.nodes a).rank)
    (hrest : ∀ b, s.parent b ≠ .null → ¬ OnPath s.par a b → Depth s.par b (s.nodes b).rank) :
    Tree (s.ngxHttpV2NodeChildrenUpdate a)
      ∧ (∀ b, (s.ngxHttpV2NodeChildrenUpdate a).parent b = s.parent b)
      ∧ Frame s (s.ngxHttpV2NodeChildrenUpdate a) := by
  have hdepth := h.rooted.depth_spec
  have hD : ∀ b c, c ∈ s.kids b → h.rooted.depth c = h.rooted.depth b + 1 := by
    intro b c hc
    exact h.rooted.depth_child (parOf_eq_some.2 (h.mem_kids.1 hc))
  obtain ⟨hranked, hbelow⟩ := childrenUpdate_spec hD (hrank.unique (hdepth a)) (by
    intro b hb
    exact h.depth_le (h.below_live hb ha) (hdepth b))
  have hparent : ∀ b, (s.ngxHttpV2NodeChildrenUpdate a).parent b = s.parent b := hranked.parent
  have hpar : (s.ngxHttpV2NodeChildrenUpdate a).par = s.par := by
    rw [Conn.par, funext hparent]
    rfl
  refine ⟨{ h.congr hparent hranked.queue hranked.frame.nnodes with rank := ?_ }, hparent,
    hranked.frame⟩
  intro b hb
  rw [hparent] at hb
  rw [hpar]
  by_cases hab : OnPath s.par a b
  · rw [hbelow b (h.below_of_onPath hab)]
    exact hdepth b
  · rw [hranked.rank_eq ((hrest b hb hab).unique (hdepth b))]
    exact hdepth b

/-! ## Attaching a node -/

/-- The parent links after a node has been attached. -/
def relinked (parent : ℕ → Link) (n : ℕ) (l : Link) (exclusive : Bool) (a : ℕ) : Link :=
  if a = n then l
  else if exclusive = true ∧ parent a = l then .node n
  else parent a

/-- `s'` is `s` with other parent links, which its queues agree with. -/
structure Relinks (s s' : Conn) (parent' : ℕ → Link) : Prop where
  parent : ∀ a, s'.parent a = parent' a
  agree : Agree s'.parent s'.queue
  rank : ∀ a, (s'.nodes a).rank = (s.nodes a).rank
  frame : Frame s s'

theorem queue_foldl_modify (f : Node → Node) (hf : ∀ n, (f n).children = n.children) (q : List ℕ)
    (s : Conn) (l : Link) : (q.foldl (fun s a => s.modify a f) s).queue l = s.queue l := by
  induction q generalizing s with
  | nil => rfl
  | cons a q ih => rw [List.foldl_cons, ih, queue_modify s a hf]

theorem frame_foldl_modify (f : Node → Node) (hid : ∀ n, (f n).id = n.id)
    (hstream : ∀ n, (f n).stream = n.stream) (q : List ℕ) (s : Conn) :
    Frame s (q.foldl (fun s a => s.modify a f) s) := by
  induction q generalizing s with
  | nil => exact Frame.refl s
  | cons a q ih => exact (frame_modify s a hid hstream).trans (ih _)

theorem adopt_relinks (h : Agree s.parent s.queue) {n : ℕ} {l : Link} (hl : l ≠ .null)
    (hln : l ≠ .node n) :
    Relinks s (s.adopt n l) fun a => if a ∈ s.queue l then .node n else s.parent a := by
  have hparent : ∀ a, (s.adopt n l).parent a = if a ∈ s.queue l then .node n else s.parent a := by
    intro a
    unfold Conn.adopt Conn.parent
    rw [parent_setQueue, parent_setQueue, nodes_foldl_modify _ (h.nodup l)]
    split_ifs <;> rfl
  refine ⟨hparent, h.adopt hl hln hparent ?_, ?_, ?_⟩
  · intro k
    have hfold := queue_foldl_modify (fun m => { m with parent := .node n }) (fun _ => rfl)
      (s.queue l) s
    unfold Conn.adopt
    rw [queue_setQueue _ hl, queue_setQueue _ (by simp), hfold, hfold, hfold]
  · intro a
    unfold Conn.adopt
    rw [rank_setQueue, rank_setQueue, nodes_foldl_modify _ (h.nodup l)]
    split_ifs <;> rfl
  · have hfold := frame_foldl_modify (fun m => { m with parent := .node n }) (fun _ => rfl)
      (fun _ => rfl) (s.queue l) s
    exact (hfold.trans (frame_setQueue _ _ _)).trans (frame_setQueue _ _ _)

/-- The middle of `attach`: the node leaves its queue and goes to the end of another. -/
def Conn.linkLast (s : Conn) (n : ℕ) (l : Link) : Conn :=
  let s := if (s.nodes n).parent ≠ .null then s.queueRemove n else s
  let s := s.setQueue l (s.queue l ++ [n])
  s.modify n fun m => { m with parent := l }

theorem attach_eq (s : Conn) (n : ℕ) (l : Link) (exclusive : Bool) :
    s.attach n l exclusive = ((if exclusive then s.adopt n l else s).linkLast n l
      ).ngxHttpV2NodeChildrenUpdate n := rfl

theorem linkLast_relinks (h : Agree s.parent s.queue) {n : ℕ} {l : Link} (hl : l ≠ .null) :
    Relinks s (s.linkLast n l) fun a => if a = n then l else s.parent a := by
  -- a node outside the tree is in no queue
  have hunlink : ∀ k, (if (s.nodes n).parent ≠ .null then s.queueRemove n else s).queue k
      = (s.queue k).erase n := by
    intro k
    split_ifs with hnull
    · exact queue_queueRemove s n k
    · rw [not_not] at hnull
      rw [List.erase_of_not_mem]
      intro hmem
      rcases eq_or_ne k .null with rfl | hk
      · simp [Conn.queue] at hmem
      · have hpk := (h.mem k hk n).1 hmem
        exact hk (hpk.symm.trans hnull)
  have hparent : ∀ a, (s.linkLast n l).parent a = if a = n then l else s.parent a := by
    intro a
    unfold Conn.linkLast Conn.parent
    rw [nodes_modify]
    by_cases han : a = n
    · rw [if_pos han, if_pos han]
    · rw [if_neg han, parent_setQueue]
      split_ifs <;> rfl
  refine ⟨hparent, h.relink hparent ?_, ?_, ?_⟩
  · intro k
    unfold Conn.linkLast
    rw [queue_modify_parent, queue_setQueue _ hl, hunlink, hunlink]
    split_ifs with hkl
    · rw [hkl]
    · rfl
  · intro a
    have hunlinked : ((if (s.nodes n).parent ≠ .null then s.queueRemove n else s).nodes a).rank
        = (s.nodes a).rank := by
      split_ifs <;> rfl
    unfold Conn.linkLast
    rw [nodes_modify]
    by_cases han : a = n
    · rw [if_pos han]
      exact (rank_setQueue _ _ _ a).trans hunlinked
    · rw [if_neg han]
      exact (rank_setQueue _ _ _ a).trans hunlinked
  · have hunlinked : Frame s (if (s.nodes n).parent ≠ .null then s.queueRemove n else s) := by
      split_ifs
      · exact frame_queueRemove s n
      · exact Frame.refl s
    exact hunlinked.trans ((frame_setQueue _ _ _).trans (frame_modify_parent _ n l))

/-! ### The links after attaching -/

section Relinked

variable {n : ℕ} {l : Link} {exclusive : Bool}

theorem relinked_self (parent : ℕ → Link) : relinked parent n l exclusive n = l := if_pos rfl

variable {a : ℕ}

theorem relinked_ne_null {parent : ℕ → Link} (hl : l ≠ .null) :
    relinked parent n l exclusive a ≠ .null ↔ parent a ≠ .null ∨ a = n := by
  unfold relinked
  split_ifs with han hal
  · simp [hl, han]
  · simp [hal.2, hl]
  · simp [han]

theorem relinked_adopted {parent : ℕ → Link} (han : a ≠ n)
    (hal : exclusive = true ∧ parent a = l) : relinked parent n l exclusive a = .node n := by
  rw [relinked, if_neg han, if_pos hal]

theorem relinked_other {parent : ℕ → Link} (han : a ≠ n)
    (hal : ¬ (exclusive = true ∧ parent a = l)) : relinked parent n l exclusive a = parent a := by
  rw [relinked, if_neg han, if_neg hal]

/-- Attaching to a link outside the subtree of the node gives a forest again. -/
theorem Linked.rooted_relinked (h : Linked s) (hl : ∀ p, l = .node p → ¬ OnPath s.par n p) :
    Rooted (parOf (relinked s.parent n l exclusive)) := by
  refine h.rooted.graft (q := parOf (fun _ => l) n) (n := n)
    (S := { a | exclusive = true ∧ s.parent a = l }) ?_ ?_ ?_ ?_
  · exact parOf_congr (relinked_self s.parent)
  · intro x hx hxn
    exact parOf_eq_some.2 (relinked_adopted hxn hx)
  · intro x hxn hx
    exact parOf_congr (relinked_other hxn hx)
  · intro p hp
    have hlp : l = .node p := parOf_eq_some.1 hp
    refine ⟨hl p hlp, ?_⟩
    rintro x ⟨-, hx⟩
    exact h.rooted.acyclic x p (parOf_eq_some.2 (hx.trans hlp))

/-- Outside the new subtree of the node depths are as before. -/
theorem depth_relinked_off {b d : ℕ} (hn : ¬ OnPath (parOf (relinked s.parent n l exclusive)) n b)
    (hd : Depth (parOf (relinked s.parent n l exclusive)) b d) : Depth s.par b d := by
  apply hd.congr
  intro x hx
  have hxn : x ≠ n := fun heq => hn (heq ▸ hx)
  by_cases hal : exclusive = true ∧ s.parent x = l
  · refine absurd (OnPath.trans ?_ hx) hn
    exact OnPath.up (parOf_eq_some.2 (relinked_adopted hxn hal)) OnPath.self
  · exact (parOf_congr (relinked_other hxn hal)).symm

/-- The new parent keeps its depth, so that the node lies one deeper. -/
theorem Linked.depth_relinked_self (h : Linked s) (hl : l ≠ .null)
    (hp : ∀ p, l = .node p → ¬ OnPath s.par n p ∧ Depth s.par p (s.nodes p).rank) :
    Depth (parOf (relinked s.parent n l exclusive)) n (s.rankOf l + 1) := by
  cases l with
  | null => exact absurd rfl hl
  | root => exact Depth.root (by rw [parOf, relinked_self])
  | node p =>
    obtain ⟨hnp, hd⟩ := hp p rfl
    refine Depth.child (parOf_eq_some.2 (relinked_self s.parent)) (hd.congr ?_)
    intro x hx
    apply parOf_congr
    apply relinked_other
    · rintro rfl
      exact hnp hx
    · rintro ⟨-, hxl⟩
      exact h.rooted.acyclic x p (parOf_eq_some.2 hxl) hx

end Relinked

/-- **Attaching a node** outside its subtree gives a tree again. -/
theorem Linked.attach (h : Linked s) {n : ℕ} {l : Link} (exclusive : Bool) (hn : n < s.nnodes)
    (hl : l ≠ .null) (hp : ∀ p, l = .node p →
      s.parent p ≠ .null ∧ ¬ OnPath s.par n p ∧ Depth s.par p (s.nodes p).rank)
    (hrank : (s.nodes n).rank = s.rankOf l + 1)
    (hrest : ∀ b, s.parent b ≠ .null → ¬ OnPath (parOf (relinked s.parent n l exclusive)) n b →
      Depth s.par b (s.nodes b).rank) : Tree (s.attach n l exclusive)
      ∧ (∀ a, (s.attach n l exclusive).parent a = relinked s.parent n l exclusive a)
      ∧ Frame s (s.attach n l exclusive) := by
  have hln : l ≠ .node n := fun heq => (hp n heq).2.1 OnPath.self
  -- the state before the ranks are updated
  have hlinks : Relinks s ((if exclusive then s.adopt n l else s).linkLast n l)
      (relinked s.parent n l exclusive) := by
    cases exclusive with
    | false =>
      obtain ⟨hparent, hagree, hrank, hframe⟩ := linkLast_relinks h.agree (n := n) hl
      refine ⟨?_, hagree, hrank, hframe⟩
      intro a
      rw [relinked]
      simpa using hparent a
    | true =>
      obtain ⟨hparent1, hagree1, hrank1, hframe1⟩ := adopt_relinks h.agree hl hln
      obtain ⟨hparent, hagree, hrank, hframe⟩ := linkLast_relinks hagree1 (n := n) hl
      refine ⟨?_, hagree, fun a => (hrank a).trans (hrank1 a), hframe1.trans hframe⟩
      intro a
      rw [relinked]
      simpa [hparent1, h.agree.mem l hl] using hparent a
  generalize hs1 : (if exclusive then s.adopt n l else s).linkLast n l = s1 at hlinks
  obtain ⟨hparent, hagree, hsame, hframe⟩ := hlinks
  have hpar : s1.par = parOf (relinked s.parent n l exclusive) := by
    rw [Conn.par, funext hparent]
  have hrooted : Rooted (parOf (relinked s.parent n l exclusive)) :=
    h.rooted_relinked (fun p hlp => (hp p hlp).2.1)
  have hlinked : Linked s1 := by
    refine ⟨hagree, ?_, ?_, ?_⟩
    · rw [hpar]
      exact hrooted
    · intro a ha
      rw [hparent, relinked_ne_null hl] at ha
      rw [hframe.nnodes]
      rcases ha with ha | rfl
      · exact h.lt a ha
      · exact hn
    · intro a p hap
      rw [hparent] at hap ⊢
      rw [relinked_ne_null hl]
      unfold relinked at hap
      split_ifs at hap with han hal
      · exact .inl (hp p hap).1
      · exact .inr (Link.node.inj hap).symm
      · exact .inl (h.live a p hap)
  have hdn : Depth s1.par n (s1.nodes n).rank := by
    rw [hpar, hsame, hrank]
    exact h.depth_relinked_self hl (fun p hlp => (hp p hlp).2)
  have hlive : s1.parent n ≠ .null := by
    rw [hparent, relinked_ne_null hl]
    exact .inr rfl
  obtain ⟨htree, hparent', hframe'⟩ := hlinked.childrenUpdate hlive hdn (by
    intro b hb hnb
    rw [hpar] at hnb ⊢
    rw [hparent, relinked_ne_null hl] at hb
    obtain ⟨d, hd⟩ := hrooted b
    have hbn : b ≠ n := fun heq => hnb (heq ▸ OnPath.self)
    have hold := hrest b (hb.resolve_right hbn) hnb
    rw [hsame, hold.unique (depth_relinked_off hnb hd)]
    exact hd)
  rw [attach_eq, hs1]
  exact ⟨htree, fun a => (hparent' a).trans (hparent a), hframe.trans hframe'⟩

/-! ## Moving a descendant up -/

/-- The walk along the ancestors of the new parent finds the node exactly if it is one. -/
theorem Tree.isAncestor_iff (h : Tree s) {n : ℕ} (hn : s.parent n ≠ .null) (fuel : ℕ) (l : Link)
    (hl : ∀ x, l = .node x → s.parent x ≠ .null ∧ (s.nodes x).rank ≤ fuel) :
    s.isAncestor n fuel l = true ↔ ∃ x, l = .node x ∧ OnPath s.par n x := by
  induction fuel generalizing l with
  | zero =>
    refine iff_of_false (by simp [Conn.isAncestor]) ?_
    rintro ⟨x, hx, -⟩
    have := (h.rank x (hl x hx).1).pos
    have := (hl x hx).2
    omega
  | succ fuel ih =>
    cases l with
    | null => simp [Conn.isAncestor]
    | root => simp [Conn.isAncestor]
    | node x =>
      obtain ⟨hx, hle⟩ := hl x rfl
      have hdx := h.rank x hx
      have hnode : (∃ y, Link.node x = .node y ∧ OnPath s.par n y) ↔ OnPath s.par n x := by simp
      rw [hnode, Conn.isAncestor]
      split_ifs with hrank hxn
      · rw [hxn]
        exact iff_of_true rfl OnPath.self
      · have hstep : ∀ y, (s.nodes x).parent = .node y →
            s.parent y ≠ .null ∧ (s.nodes y).rank ≤ fuel := by
          intro y hy
          have hpar : s.par x = some y := parOf_eq_some.2 hy
          have hlive := h.live x y hy
          have := hdx.unique (Depth.child hpar (h.rank y hlive))
          exact ⟨hlive, by omega⟩
        rw [ih _ hstep]
        constructor
        · rintro ⟨y, hy, hpath⟩
          exact OnPath.up (parOf_eq_some.2 hy) hpath
        · intro hpath
          cases hpath with
          | self => exact absurd rfl hxn
          | @up _ y hpar hpath => exact ⟨y, parOf_eq_some.1 hpar, hpath⟩
      · refine iff_of_false (by simp) ?_
        intro hpath
        have := hpath.depth_le (h.rank n hn) hdx
        omega

/-- `moveUp` before the ranks are updated. -/
def Conn.movedUp (s : Conn) (n p : ℕ) : Conn :=
  let s := s.queueRemove p
  let s := s.queueInsertAfter n p
  let s := s.modify p fun m => { m with parent := (s.nodes n).parent }
  s.modify p fun m => { m with rank := s.rankOf (s.nodes n).parent + 1 }

section MoveUp

variable {n p : ℕ}

theorem parent_movedUp (a : ℕ) :
    (s.movedUp n p).parent a = if a = p then s.parent n else s.parent a := by
  unfold Conn.movedUp Conn.parent
  rw [nodes_modify, nodes_modify]
  split_ifs with hap
  · rfl
  · rfl

theorem rank_movedUp (hnp : n ≠ p) (hself : s.parent n ≠ .node p) (a : ℕ) :
    ((s.movedUp n p).nodes a).rank
      = if a = p then s.rankOf (s.parent n) + 1 else (s.nodes a).rank := by
  unfold Conn.movedUp Conn.parent
  rw [nodes_modify]
  by_cases hap : a = p
  · rw [if_pos hap, if_pos hap]
    dsimp only
    rw [nodes_modify, if_neg hnp]
    show Conn.rankOf _ (s.parent n) + 1 = s.rankOf (s.parent n) + 1
    cases hg : s.parent n with
    | null => rfl
    | root => rfl
    | node g =>
      have hgp : g ≠ p := fun heq => hself (by rw [hg, heq])
      show ((Conn.modify _ p _).nodes g).rank + 1 = _
      rw [nodes_modify, if_neg hgp]
      rfl
  · rw [if_neg hap, if_neg hap, nodes_modify, if_neg hap]
    rfl

theorem agree_movedUp (h : Agree s.parent s.queue) (hnp : n ≠ p) :
    Agree (s.movedUp n p).parent (s.movedUp n p).queue := by
  refine h.insertAfter hnp (parent_movedUp) ?_
  intro k
  unfold Conn.movedUp
  rw [queue_modify_rank, queue_modify_parent, queue_queueInsertAfter, queue_queueRemove]

theorem frame_movedUp (s : Conn) (n p : ℕ) : Frame s (s.movedUp n p) :=
  (((frame_queueRemove s p).trans (frame_queueInsertAfter _ n p)).trans
    (frame_modify_parent _ p _)).trans (frame_modify_rank _ p _)

/-- Before a descendant `p` of `n` gets the node `n` as its child it takes its place: it is
no descendant any more, and ranks are right but below it. -/
theorem Tree.movedUp (h : Tree s) (hn : s.parent n ≠ .null) (hp : s.parent p ≠ .null)
    (hnp : n ≠ p) (hpath : OnPath s.par n p) :
    Linked (s.movedUp n p) ∧ ¬ OnPath (s.movedUp n p).par n p
      ∧ Depth (s.movedUp n p).par p ((s.movedUp n p).nodes p).rank
      ∧ ∀ b, (s.movedUp n p).parent b ≠ .null → ¬ OnPath (s.movedUp n p).par p b →
        Depth (s.movedUp n p).par b ((s.movedUp n p).nodes b).rank := by
  have hdn := h.rank n hn
  have hdp := h.rank p hp
  have hlt := hpath.depth_lt hnp hdn hdp
  -- the parent of `n` is above `n`, hence not below `p`
  have habove : ∀ g, s.parent n = .node g →
      Depth s.par g (s.nodes g).rank ∧ (s.nodes n).rank = (s.nodes g).rank + 1
        ∧ ¬ OnPath s.par p g := by
    intro g hg
    have hdg := h.rank g (h.live n g hg)
    have hng := hdn.unique (Depth.child (parOf_eq_some.2 hg) hdg)
    refine ⟨hdg, hng, ?_⟩
    intro hpg
    have := hpg.depth_le hdp hdg
    omega
  have hself : s.parent n ≠ .node p := by
    intro heq
    exact (habove p heq).2.2 OnPath.self
  have hparent := parent_movedUp (s := s) (n := n) (p := p)
  have hoff : ∀ x, x ≠ p → (s.movedUp n p).par x = s.par x := by
    intro x hxp
    apply parOf_congr
    rw [hparent, if_neg hxp]
  have hparp : (s.movedUp n p).par p = s.par n := by
    unfold Conn.par
    rw [parOf, parOf, hparent, if_pos rfl]
  have hnull : ∀ a, (s.movedUp n p).parent a ≠ .null ↔ s.parent a ≠ .null := by
    intro a
    rw [hparent]
    split_ifs with hap
    · rw [hap]
      exact iff_of_true hn hp
    · rfl
  have hlinked : Linked (s.movedUp n p) := by
    refine ⟨agree_movedUp h.agree hnp, ?_, ?_, ?_⟩
    · refine h.rooted.graft (n := p) (q := s.par n) (S := ∅) hparp (by simp) ?_ ?_
      · intro x hxp _
        exact hoff x hxp
      · intro g hg
        exact ⟨(habove g (parOf_eq_some.1 hg)).2.2, by simp⟩
    · intro a ha
      exact h.lt a ((hnull a).1 ha)
    · intro a g hag
      rw [hnull]
      rw [hparent] at hag
      split_ifs at hag with hap
      · exact h.live n g hag
      · exact h.live a g hag
  -- `p` now has the depth that `n` has kept
  have hdp' : Depth (s.movedUp n p).par p (s.nodes n).rank := by
    cases hg : s.parent n with
    | null => exact absurd hg hn
    | root =>
      have hroot : s.par n = none := by
        unfold Conn.par
        rw [parOf, hg]
      rw [hdn.unique (Depth.root hroot)]
      exact Depth.root (hparp.trans hroot)
    | node g =>
      obtain ⟨hdg, hng, hpg⟩ := habove g hg
      rw [hng]
      refine Depth.child (hparp.trans (parOf_eq_some.2 hg)) (hdg.congr ?_)
      intro x hx
      exact hoff x (fun heq => hpg (heq ▸ hx))
  have hdn' : Depth (s.movedUp n p).par n (s.nodes n).rank := by
    apply hdn.congr
    intro x hx
    apply hoff x
    rintro rfl
    have := hx.depth_le hdp hdn
    omega
  have hrankp : ((s.movedUp n p).nodes p).rank = (s.nodes n).rank := by
    rw [rank_movedUp hnp hself, if_pos rfl]
    cases hg : s.parent n with
    | null => exact absurd hg hn
    | root =>
      refine (hdn.unique (Depth.root ?_)).symm
      unfold Conn.par
      rw [parOf, hg]
    | node g => exact (habove g hg).2.1.symm
  refine ⟨hlinked, ?_, ?_, ?_⟩
  · intro hpath'
    have := hpath'.depth_lt hnp hdn' hdp'
    omega
  · rw [hrankp]
    exact hdp'
  · intro b hb hpb
    have hbp : b ≠ p := fun heq => hpb (heq ▸ OnPath.self)
    obtain ⟨d, hd⟩ := hlinked.rooted b
    have hold : Depth s.par b d := by
      apply hd.congr
      intro x hx
      exact (hoff x (fun heq => hpb (heq ▸ hx))).symm
    rw [rank_movedUp hnp hself, if_neg hbp, (h.rank b ((hnull b).1 hb)).unique hold]
    exact hd

end MoveUp

/-! # Setting dependencies and reusing nodes -/

variable {s : Conn} {mask : ℕ}

/-! ## Setting a dependency -/

variable {n p : ℕ}

/-- The children that the node adopts from its new parent bring their subtrees along. -/
theorem onPath_adopted {parent : ℕ → Link} {b : ℕ} (h : OnPath (parOf parent) p b)
    (hbp : b ≠ p) : OnPath (parOf (relinked parent n (.node p) true)) n b := by
  induction h with
  | self => exact absurd rfl hbp
  | @up b q hpar _ ih =>
    rcases eq_or_ne b n with rfl | hbn
    · exact OnPath.self
    · have hb := parOf_eq_some.1 hpar
      rcases eq_or_ne q p with rfl | hqp
      · exact OnPath.up (parOf_eq_some.2 (relinked_adopted hbn ⟨rfl, hb⟩)) OnPath.self
      · have hnot : ¬ (true = true ∧ parent b = .node p) := by
          rw [hb]
          exact fun heq => hqp (Link.node.inj heq.2)
        exact OnPath.up (parOf_eq_some.2 ((relinked_other hbn hnot).trans hb)) (ih hqp)

/-- The tree, and the new parent in it, before node `n` is attached to `p`. -/
structure Ready (s : Conn) (n p : ℕ) (exclusive : Bool) : Prop where
  linked : Linked s
  live : s.parent p ≠ .null
  off : ¬ OnPath s.par n p
  depth : Depth s.par p (s.nodes p).rank
  rest : ∀ b, s.parent b ≠ .null →
    ¬ OnPath (parOf (relinked s.parent n (.node p) exclusive)) n b →
    Depth s.par b (s.nodes b).rank

/-- A new parent outside the subtree of the node needs no preparation. -/
theorem Tree.ready (h : Tree s) (hp : s.parent p ≠ .null) (hoff : ¬ OnPath s.par n p)
    (exclusive : Bool) : Ready s n p exclusive :=
  ⟨h.toLinked, hp, hoff, h.rank p hp, fun b hb _ => h.rank b hb⟩

/-- Otherwise the new parent moves up first. -/
theorem Tree.ready_moveUp (h : Tree s) (hn : s.parent n ≠ .null)
    (hp : s.parent p ≠ .null) (hnp : n ≠ p) (hpath : OnPath s.par n p) (exclusive : Bool) :
    Ready (s.moveUp n p exclusive) n p exclusive ∧ Frame s (s.moveUp n p exclusive)
      ∧ ∀ a, (s.moveUp n p exclusive).parent a ≠ .null ↔ s.parent a ≠ .null := by
  obtain ⟨hlinked, hoff, hdepth, hrest⟩ := h.movedUp hn hp hnp hpath
  have hframe := frame_movedUp s n p
  have hnull : ∀ a, (s.movedUp n p).parent a ≠ .null ↔ s.parent a ≠ .null := by
    intro a
    rw [parent_movedUp]
    split_ifs with hap
    · rw [hap]
      exact iff_of_true hn hp
    · rfl
  cases exclusive with
  | false =>
    obtain ⟨htree, hparent, hframe'⟩ := hlinked.childrenUpdate ((hnull p).2 hp) hdepth hrest
    have hpar : ((s.movedUp n p).ngxHttpV2NodeChildrenUpdate p).par = (s.movedUp n p).par := by
      unfold Conn.par
      rw [funext hparent]
    refine ⟨htree.ready ?_ ?_ false, hframe.trans hframe', fun a => ?_⟩
    · rw [hparent]
      exact (hnull p).2 hp
    · rw [hpar]
      exact hoff
    · show ((s.movedUp n p).ngxHttpV2NodeChildrenUpdate p).parent a ≠ .null ↔ _
      rw [hparent]
      exact hnull a
  | true =>
    refine ⟨⟨hlinked, (hnull p).2 hp, hoff, hdepth, ?_⟩, hframe, hnull⟩
    intro b hb hnb
    rcases eq_or_ne b p with rfl | hbp
    · exact hdepth
    · exact hrest b hb (fun hpb => hnb (onPath_adopted hpb hbp))

/-- Attaching the node in a state that is ready, after its rank has been set. -/
theorem Ready.attach {exclusive : Bool} (h : Ready s n p exclusive) (s' : Conn)
    (hn : n < s.nnodes) (hparent : ∀ a, s'.parent a = s.parent a)
    (hqueue : ∀ l, s'.queue l = s.queue l) (hnnodes : s'.nnodes = s.nnodes)
    (hrank : ∀ a, (s'.nodes a).rank = if a = n then (s.nodes p).rank + 1 else (s.nodes a).rank) :
    Tree (s'.attach n (.node p) exclusive)
      ∧ (∀ a, (s'.attach n (.node p) exclusive).parent a ≠ .null ↔ s.parent a ≠ .null ∨ a = n)
      ∧ Frame s' (s'.attach n (.node p) exclusive) := by
  have hfun : s'.parent = s.parent := funext hparent
  have hpar : s'.par = s.par := by rw [Conn.par, Conn.par, hfun]
  have hpn : p ≠ n := fun heq => h.off (heq ▸ OnPath.self)
  have hrankp : (s'.nodes p).rank = (s.nodes p).rank := by rw [hrank, if_neg hpn]
  obtain ⟨htree, hlinks, hframe⟩ := (h.linked.congr hparent hqueue hnnodes).attach
    (n := n) (l := .node p) exclusive (by rw [hnnodes]; exact hn) (by simp) (by
      intro q hq
      obtain rfl := Link.node.inj hq
      rw [hparent, hpar, hrankp]
      exact ⟨h.live, h.off, h.depth⟩) (by
      rw [hrank, if_pos rfl, Conn.rankOf, hrankp]) (by
      intro b hb hnb
      have hbn : b ≠ n := fun heq => hnb (heq ▸ OnPath.self)
      rw [hfun] at hb hnb
      rw [hpar, hrank, if_neg hbn]
      exact h.rest b hb hnb)
  refine ⟨htree, ?_, hframe⟩
  intro a
  rw [hlinks, relinked_ne_null (by simp), hparent]

/-- **Setting a dependency** puts the node into the tree, wherever the new parent is. -/
theorem Tree.setDependency (h : Tree s) (mask : ℕ) (depend : ℕ) (exclusive : Bool)
    (hn : n < s.nnodes) (hfind : ∀ p, depend ≠ 0 → s.findNode mask depend = some p →
      p ≠ n ∧ s.parent p ≠ .null ∧ ((s.nodes p).stream = false → p ∈ s.closed)) :
    Tree (s.ngxHttpV2SetDependency mask n depend exclusive)
      ∧ (∀ a, (s.ngxHttpV2SetDependency mask n depend exclusive).parent a ≠ .null ↔
          s.parent a ≠ .null ∨ a = n)
      ∧ Frame s (s.ngxHttpV2SetDependency mask n depend exclusive) := by
  unfold Conn.ngxHttpV2SetDependency
  rcases hp : (if depend = 0 then none else s.findNode mask depend) with _ | p
  · -- a node of the root
    have hset : ∀ a, (s.modify n fun m => { m with rank := 1 }).parent a = s.parent a := by
      intro a
      unfold Conn.parent
      rw [nodes_modify]
      split_ifs <;> rfl
    have hfun : (s.modify n fun m => { m with rank := 1 }).parent = s.parent := funext hset
    have hpar : (s.modify n fun m => { m with rank := 1 }).par = s.par := by
      rw [Conn.par, Conn.par, hfun]
    obtain ⟨htree, hlinks, hframe⟩ := (h.toLinked.congr hset (queue_modify_rank s n 1) rfl).attach
      (n := n) (l := .root) (if depend ≠ 0 then false else exclusive) hn (by simp)
      (by simp) (by rw [nodes_modify, if_pos rfl]; rfl) (by
        intro b hb hnb
        have hbn : b ≠ n := fun heq => hnb (heq ▸ OnPath.self)
        rw [hfun] at hb
        rw [hpar, nodes_modify, if_neg hbn]
        exact h.rank b hb)
    refine ⟨htree, ?_, (frame_modify_rank s n 1).trans hframe⟩
    intro a
    rw [hlinks, relinked_ne_null (by simp), hfun]
  · have hdepend : depend ≠ 0 := by
      rintro rfl
      simp at hp
    rw [if_neg hdepend] at hp
    obtain ⟨hpn, hlive, hclosed⟩ := hfind p hdepend hp
    dsimp only
    -- the new parent is not below the node when the node is attached
    have hready : ∃ s1, (if (s.nodes n).parent ≠ .null
          ∧ s.isAncestor n s.nnodes (s.nodes p).parent then s.moveUp n p exclusive else s) = s1
        ∧ Ready s1 n p exclusive ∧ Frame s s1 ∧ ∀ a, s1.parent a ≠ .null ↔ s.parent a ≠ .null := by
      refine ⟨_, rfl, ?_⟩
      have hanc : ∀ hlive' : s.parent n ≠ .null,
          s.isAncestor n s.nnodes (s.nodes p).parent = true ↔ OnPath s.par n p := by
        intro hlive'
        rw [h.isAncestor_iff hlive']
        · constructor
          · rintro ⟨x, hx, hpath⟩
            exact OnPath.up (parOf_eq_some.2 hx) hpath
          · intro hpath
            cases hpath with
            | self => exact absurd rfl hpn
            | @up _ x hpar hpath => exact ⟨x, parOf_eq_some.1 hpar, hpath⟩
        · intro x hx
          have hx' := h.live p x hx
          exact ⟨hx', h.depth_le hx' (h.rank x hx')⟩
      split_ifs with hcond
      · exact h.ready_moveUp hcond.1 hlive hpn.symm ((hanc hcond.1).1 hcond.2) exclusive
      · refine ⟨h.ready hlive ?_ exclusive, Frame.refl s, fun _ => Iff.rfl⟩
        intro hpath
        have hn' := h.path_live hpath hlive
        exact hcond ⟨hn', (hanc hn').2 hpath⟩
    obtain ⟨s1, hs1, hready, hframe1, hnull1⟩ := hready
    rw [hs1]
    -- a parent without a stream goes to the end of the queue of closed nodes
    generalize hs2 : (s1.modify n fun m => { m with rank := (s1.nodes p).rank + 1 }) = s2
    have hframe2 : Frame s1 s2 := by
      rw [← hs2]
      exact frame_modify_rank s1 n _
    have hstream : (s2.nodes p).stream = false → p ∈ s2.closed := by
      rw [hframe2.stream, hframe1.stream, (hframe2.closed.trans hframe1.closed).mem_iff]
      exact hclosed
    generalize hs3 : (if (s2.nodes p).stream = false then
      { s2 with closed := s2.closed.erase p ++ [p] } else s2) = s3
    have hs3' : s3.nodes = s2.nodes ∧ s3.dependencies = s2.dependencies ∧ Frame s2 s3 := by
      rw [← hs3]
      split_ifs with hst
      · refine ⟨rfl, rfl, fun _ => rfl, fun _ => rfl, rfl, rfl, ?_, rfl, rfl⟩
        exact (List.perm_append_singleton p _).trans (List.perm_cons_erase (hstream hst)).symm
      · exact ⟨rfl, rfl, Frame.refl s2⟩
    obtain ⟨hnodes, hdeps, hframe3⟩ := hs3'
    obtain ⟨htree, hnull, hframe⟩ := hready.attach s3 (by rw [hframe1.nnodes]; exact hn)
      (by
        intro a
        unfold Conn.parent
        rw [hnodes, ← hs2, nodes_modify]
        split_ifs <;> rfl)
      (by
        intro l
        have hq : s3.queue l = s2.queue l := by
          cases l with
          | null => rfl
          | root => exact hdeps
          | node b => exact congrArg (fun nodes => (nodes b).children) hnodes
        rw [hq, ← hs2]
        exact queue_modify_rank s1 n _ l)
      (hframe2.trans hframe3).nnodes
      (by
        intro a
        rw [hnodes, ← hs2, nodes_modify]
        split_ifs <;> rfl)
    refine ⟨htree, ?_, ((hframe1.trans hframe2).trans hframe3).trans hframe⟩
    intro a
    rw [hnull, hnull1]

/-! ## Taking a node out -/

/-- The part of `ngx_http_v2_get_closed_node` that hands the children of the node to its
parent. -/
def Conn.detach (s : Conn) (node : ℕ) : Conn :=
  let s := s.queueRemove node
  let children := (s.nodes node).children
  let weight := (children.map fun child => (s.nodes child).weight).sum
  let parent := (s.nodes node).parent
  let s := children.foldl
    (fun s child => s.modify child fun n =>
      let w := (s.nodes node).weight * n.weight / weight
      { n with parent := parent, weight := if w = 0 then 1 else w })
    s
  let s := s.modify node fun n => { n with rank := s.rankOf parent }
  let s := s.ngxHttpV2NodeChildrenUpdate node
  s.setQueue parent (s.queue parent ++ (s.nodes node).children)

/-- The state with the node unlinked from the queue of closed nodes and from the index. -/
def Conn.unindex (s : Conn) (mask node : ℕ) (closed : List ℕ) : Conn :=
  { s with
    closedNodes := s.closedNodes - 1
    closed := closed
    streamsIndex := fun i =>
      if i = ngxHttpV2Index mask (s.nodes node).id then (s.streamsIndex i).erase node
      else s.streamsIndex i }

theorem getClosedNode_cons {node : ℕ} {closed : List ℕ} (h : s.closed = node :: closed) :
    s.ngxHttpV2GetClosedNode mask
      = some (node, ((s.unindex mask node closed).detach node).modify node fun _ => Node.zero) := by
  unfold Conn.ngxHttpV2GetClosedNode
  rw [h]
  rfl

/-- What the loop over the children leaves of the other fields. -/
theorem foldl_detach (parent : Link) (node weight : ℕ) {q : List ℕ} (hq : q.Nodup) (s : Conn) :
    ∀ s', q.foldl (fun s child => s.modify child fun n =>
        let w := (s.nodes node).weight * n.weight / weight
        { n with parent := parent, weight := if w = 0 then 1 else w }) s = s' →
    (∀ b, (s'.nodes b).parent = if b ∈ q then parent else (s.nodes b).parent)
      ∧ (∀ b, (s'.nodes b).rank = (s.nodes b).rank)
      ∧ (∀ l, s'.queue l = s.queue l) ∧ Frame s s' := by
  induction q generalizing s with
  | nil =>
    rintro s' rfl
    exact ⟨by simp, fun _ => rfl, fun _ => rfl, Frame.refl s⟩
  | cons c q ih =>
    intro s' hs'
    obtain ⟨hcq, hq'⟩ := List.nodup_cons.1 hq
    obtain ⟨hparent, hrank, hqueue, hframe⟩ := ih hq' _ s' hs'
    refine ⟨?_, ?_, ?_, ?_⟩
    · intro b
      rw [hparent, nodes_modify]
      rcases eq_or_ne b c with rfl | hbc
      · simp [hcq]
      · simp [hbc]
    · intro b
      rw [hrank, nodes_modify]
      split_ifs <;> rfl
    · intro l
      rw [hqueue]
      apply queue_modify
      intro _
      rfl
    · refine Frame.trans (frame_modify s c ?_ ?_) hframe
      · intro _
        rfl
      · intro _
        rfl

/-- The parent links after a node has been taken out. -/
def removed (parent : ℕ → Link) (a b : ℕ) : Link :=
  if b = a then .null else if parent b = .node a then parent a else parent b

section Removed

variable {a : ℕ}

/-- A node that is neither the one taken out nor below it keeps its depth. -/
theorem Tree.depth_removed_off (h : Tree s) {b : ℕ} (hb : s.parent b ≠ .null)
    (hab : ¬ OnPath s.par a b) : Depth (parOf (removed s.parent a)) b (s.nodes b).rank := by
  apply (h.rank b hb).congr
  intro x hx
  have hxa : x ≠ a := fun heq => hab (heq ▸ hx)
  have hpar : s.parent x ≠ .node a := by
    intro hxp
    exact hab ((OnPath.up (parOf_eq_some.2 hxp) OnPath.self).trans hx)
  apply parOf_congr
  rw [removed, if_neg hxa, if_neg hpar]

theorem Linked.rooted_removed (h : Linked s) (a : ℕ) : Rooted (parOf (removed s.parent a)) := by
  refine h.rooted.remove (a := a) ?_ ?_ ?_
  · rw [parOf, removed, if_pos rfl]
  · intro x hx hxa
    have hxp := parOf_eq_some.1 hxa
    show parOf (removed s.parent a) x = parOf s.parent a
    rw [parOf, parOf, removed, if_neg hx, if_pos hxp]
  · intro x hx hxa
    apply parOf_congr
    rw [removed, if_neg hx, if_neg (fun hxp => hxa (parOf_eq_some.2 hxp))]

/-- The depth that the children of the node get. -/
theorem Tree.depth_removed_parent (h : Tree s) {d : ℕ} {c : ℕ} (hc : s.parent c = .node a)
    (hca : c ≠ a) (hd : Depth (parOf (removed s.parent a)) c d) :
    d = s.rankOf (s.parent a) + 1 := by
  have hcp : removed s.parent a c = s.parent a := by rw [removed, if_neg hca, if_pos hc]
  have ha := h.live c a hc
  cases hg : s.parent a with
  | null => exact absurd hg ha
  | root =>
    refine hd.unique (Depth.root ?_)
    rw [parOf, hcp, hg]
  | node g =>
    have hg' := h.live a g hg
    have hoff : ¬ OnPath s.par a g := h.rooted.acyclic a g (parOf_eq_some.2 hg)
    exact hd.unique (Depth.child (parOf_eq_some.2 (hcp.trans hg)) (h.depth_removed_off hg' hoff))

end Removed

/-- `detach` before the ranks are updated. -/
def Conn.handedOver (s : Conn) (node : ℕ) : Conn :=
  let s := s.queueRemove node
  let children := (s.nodes node).children
  let weight := (children.map fun child => (s.nodes child).weight).sum
  let parent := (s.nodes node).parent
  let s := children.foldl
    (fun s child => s.modify child fun n =>
      let w := (s.nodes node).weight * n.weight / weight
      { n with parent := parent, weight := if w = 0 then 1 else w })
    s
  s.modify node fun n => { n with rank := s.rankOf parent }

theorem detach_eq (s : Conn) (a : ℕ) :
    s.detach a = ((s.handedOver a).ngxHttpV2NodeChildrenUpdate a).setQueue (s.parent a)
      (((s.handedOver a).ngxHttpV2NodeChildrenUpdate a).queue (s.parent a)
        ++ ((s.handedOver a).ngxHttpV2NodeChildrenUpdate a).queue (.node a)) := rfl

theorem Tree.handedOver (h : Tree s) (a : ℕ) : (∀ b, (s.handedOver a).parent b
        = if s.parent b = .node a ∧ b ≠ a then s.parent a else s.parent b)
      ∧ (∀ b, ((s.handedOver a).nodes b).rank
        = if b = a then s.rankOf (s.parent a) else (s.nodes b).rank)
      ∧ (∀ l, (s.handedOver a).queue l = (s.queue l).erase a) ∧ Frame s (s.handedOver a) := by
  have hnodup := (h.agree.nodup (.node a)).erase a
  unfold Conn.handedOver
  dsimp only
  generalize hs1 : List.foldl _ (s.queueRemove a) ((s.queueRemove a).nodes a).children = s1
  obtain ⟨hparent, hrank, hqueue, hframe⟩ := foldl_detach _ a _ hnodup _ s1 hs1
  refine ⟨?_, ?_, ?_, ?_⟩
  · intro b
    have hmem : b ∈ (s.queue (.node a)).erase a ↔ s.parent b = .node a ∧ b ≠ a := by
      rw [(h.agree.nodup _).mem_erase_iff, h.agree.mem (.node a) (by simp) b]
      exact and_comm
    unfold Conn.parent
    rw [nodes_modify]
    have hb := hparent b
    simp only [hmem] at hb
    split_ifs with hba hc hc
    · exact hb.trans (if_pos hc)
    · exact hb.trans (if_neg hc)
    · exact hb.trans (if_pos hc)
    · exact hb.trans (if_neg hc)
  · intro b
    have hrankOf : s1.rankOf (s.parent a) = s.rankOf (s.parent a) := by
      cases s.parent a with
      | null => rfl
      | root => rfl
      | node g => exact hrank g
    rw [nodes_modify]
    split_ifs with hba
    · exact hrankOf
    · exact hrank b
  · intro l
    rw [queue_modify_rank, hqueue]
    exact queue_queueRemove s a l
  · exact ((frame_queueRemove s a).trans hframe).trans (frame_modify_rank _ a _)

/-- **Taking a node out** hands its children to its parent and gives a tree again. -/
theorem Tree.detach (h : Tree s) {a : ℕ} (ha : s.parent a ≠ .null) :
    Tree ((s.detach a).modify a fun _ => Node.zero)
      ∧ (∀ b, ((s.detach a).modify a fun _ => Node.zero).parent b = removed s.parent a b)
      ∧ Frame s (s.detach a) := by
  obtain ⟨hparent, hrank, hqueue, hframe⟩ := h.handedOver a
  have hself : s.parent a ≠ .node a := by
    intro heq
    exact h.rooted.acyclic a a (parOf_eq_some.2 heq) OnPath.self
  have hrooted := h.rooted_removed a
  -- the final depths, and that of the parent for the node itself
  have hspec : ∃ D : ℕ → ℕ, D a = s.rankOf (s.parent a)
      ∧ ∀ b, b ≠ a → Depth (parOf (removed s.parent a)) b (D b) := by
    refine ⟨fun b => if b = a then s.rankOf (s.parent a) else hrooted.depth b, if_pos rfl, ?_⟩
    intro b hba
    dsimp only
    rw [if_neg hba]
    exact hrooted.depth_spec b
  obtain ⟨D, hDa, hDb⟩ := hspec
  have hkids : ∀ b c, c ∈ (s.handedOver a).kids b ↔ s.parent c = .node b ∧ c ≠ a := by
    intro b c
    show c ∈ (s.handedOver a).queue (.node b) ↔ _
    rw [hqueue, (h.agree.nodup _).mem_erase_iff, h.agree.mem (.node b) (by simp) c]
    exact and_comm
  have hD : ∀ b c, c ∈ (s.handedOver a).kids b → D c = D b + 1 := by
    intro b c hc
    obtain ⟨hcb, hca⟩ := (hkids b c).1 hc
    rcases eq_or_ne b a with rfl | hba
    · rw [hDa]
      exact h.depth_removed_parent hcb hca (hDb c hca)
    · have hcp : removed s.parent a c = .node b := by
        rw [removed, if_neg hca, if_neg (by rw [hcb]; simpa using hba), hcb]
      exact (hDb c hca).unique (Depth.child (parOf_eq_some.2 hcp) (hDb b hba))
  have hra : ((s.handedOver a).nodes a).rank = D a := by rw [hrank, if_pos rfl, hDa]
  obtain ⟨hranked, hbelow⟩ := childrenUpdateTo_spec (s.handedOver a).nnodes _ a hD hra
  rw [detach_eq]
  unfold Conn.ngxHttpV2NodeChildrenUpdate
  generalize hs2 : Conn.childrenUpdateTo (s.handedOver a).nnodes (s.handedOver a) a = s2
    at hranked hbelow
  have hframe2 : Frame s s2 := hframe.trans hranked.frame
  generalize hs3 : s2.setQueue (s.parent a) (s2.queue (s.parent a) ++ s2.queue (.node a)) = s3
  have hframe3 : Frame s2 s3 := by
    rw [← hs3]
    exact frame_setQueue _ _ _
  have hparent3 : ∀ b, (s3.modify a fun _ => Node.zero).parent b = removed s.parent a b := by
    intro b
    unfold Conn.parent removed
    rw [nodes_modify]
    by_cases hba : b = a
    · rw [if_pos hba, if_pos hba]
      rfl
    · rw [if_neg hba, ← hs3, parent_setQueue, hranked.parent]
      show (s.handedOver a).parent b = _
      rw [hparent]
      simp [hba, Conn.parent]
  have hqueue3 : ∀ k, (s3.modify a fun _ => Node.zero).queue k = if k = .node a then []
      else if k = s.parent a then (s.queue k).erase a ++ s.queue (.node a)
      else (s.queue k).erase a := by
    intro k
    have hq : ∀ l, s2.queue l = (s.queue l).erase a := fun l => (hranked.queue l).trans (hqueue l)
    have hnot : a ∉ s.queue (.node a) := fun hmem =>
      hself ((h.agree.mem (.node a) (by simp) a).1 hmem)
    have hq3 : s3.queue k
        = if k = s.parent a then (s.queue k).erase a ++ s.queue (.node a)
          else (s.queue k).erase a := by
      rw [← hs3, queue_setQueue _ ha, hq, hq, hq, List.erase_of_not_mem hnot]
      split_ifs with hk
      · rw [hk]
      · rfl
    rw [← hq3]
    cases k with
    | null => rfl
    | root => rfl
    | node b =>
      show ((s3.modify a fun _ => Node.zero).nodes b).children = _
      rw [nodes_modify]
      by_cases hba : b = a
      · rw [if_pos hba, if_pos (by rw [hba])]
        rfl
      · rw [if_neg hba, if_neg (by simpa using hba)]
        rfl
  have hpar3 : (s3.modify a fun _ => Node.zero).par = parOf (removed s.parent a) := by
    rw [Conn.par, funext hparent3]
  have hlive : ∀ b, removed s.parent a b ≠ .null → b ≠ a ∧ s.parent b ≠ .null := by
    intro b hb
    unfold removed at hb
    split_ifs at hb with hba hc
    · exact absurd rfl hb
    · exact ⟨hba, by rw [hc]; simp⟩
    · exact ⟨hba, hb⟩
  have hlinked : Linked (s3.modify a fun _ => Node.zero) := by
    refine ⟨h.agree.remove ha hself hparent3 hqueue3, ?_, ?_, ?_⟩
    · rw [hpar3]
      exact hrooted
    · intro b hb
      rw [hparent3] at hb
      show b < s3.nnodes
      rw [(hframe2.trans hframe3).nnodes]
      exact h.lt b (hlive b hb).2
    · intro b p hbp
      rw [hparent3] at hbp ⊢
      have hp : p ≠ a ∧ s.parent p ≠ .null := by
        unfold removed at hbp
        split_ifs at hbp with hba hc
        · exact ⟨fun heq => hself (heq ▸ hbp), h.live a p hbp⟩
        · exact ⟨fun heq => hc (heq ▸ hbp), h.live b p hbp⟩
      rw [removed, if_neg hp.1]
      split_ifs
      · exact ha
      · exact hp.2
  refine ⟨{ hlinked with rank := ?_ }, hparent3, hframe2.trans hframe3⟩
  intro b hb
  rw [hparent3] at hb
  obtain ⟨hba, hbnull⟩ := hlive b hb
  have hdb := hDb b hba
  have hrank3 : ((s3.modify a fun _ => Node.zero).nodes b).rank = (s2.nodes b).rank := by
    rw [nodes_modify, if_neg hba, ← hs3, rank_setQueue]
  rw [hpar3, hrank3]
  by_cases hab : OnPath s.par a b
  · -- the ranks below the node have been updated
    have hb' : Below (s.handedOver a).kids a b := by
      clear hb hba hbnull hdb hrank3
      induction hab with
      | self => exact Below.self a
      | @up b p hpar hpath ih =>
        refine ih.snoc ((hkids p b).2 ⟨parOf_eq_some.1 hpar, ?_⟩)
        rintro rfl
        exact h.rooted.acyclic b p hpar hpath
    have hle : D b ≤ s.nnodes := by
      have := hlinked.depth_le (a := b) (d := D b) (by rw [hparent3]; exact hb)
        (by rw [hpar3]; exact hdb)
      rwa [show (s3.modify a fun _ => Node.zero).nnodes = s3.nnodes from rfl,
        (hframe2.trans hframe3).nnodes] at this
    rw [hbelow b hb' (by rw [hframe.nnodes]; omega)]
    exact hdb
  · -- the others have kept their depths
    have hold := h.depth_removed_off hbnull hab
    have hrb : ((s.handedOver a).nodes b).rank = D b := by
      rw [hrank, if_neg hba]
      exact hold.unique hdb
    rw [hranked.rank_eq hrb]
    exact hdb

end Priority
