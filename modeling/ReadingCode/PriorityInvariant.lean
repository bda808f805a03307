/-
# The priority tree in every reachable state

The invariant of the whole connection: the tree, the index by stream identifier, and the
queue of the nodes of closed streams with its 8-bit counter.  Every event keeps it, and
the queue is never popped when it is empty.
-/
import ReadingCode.PriorityForest

namespace Priority

open List

open Conn Forest

variable {mask last : ℕ} {s s' : Conn}

/-! ## Index and closed nodes -/

/-- The index holds the nodes of `M`, each under its identifier, the queue of closed nodes
those of `C` without a stream, and streams have identifiers up to `last`. -/
structure Registry (mask : ℕ) (s : Conn) (M C : ℕ → Prop) (last : ℕ) : Prop where
  index : ∀ i a, a ∈ s.streamsIndex i ↔ M a ∧ ngxHttpV2Index mask (s.nodes a).id = i
  index_nodup : ∀ i, (s.streamsIndex i).Nodup
  ids : ∀ a b, M a → M b → (s.nodes a).id = (s.nodes b).id → a = b
  closed : ∀ a, a ∈ s.closed ↔ C a ∧ (s.nodes a).stream = false
  closed_nodup : s.closed.Nodup
  closedNodes : s.closedNodes = UInt8.ofNat s.closed.length
  streams : ∀ a, M a → (s.nodes a).stream = true → (s.nodes a).id ≤ last

/-- The nodes of the tree. -/
def Conn.Live (s : Conn) (a : ℕ) : Prop := s.parent a ≠ .null

/-- **The invariant of the connection**, where streams have identifiers up to `last`. -/
structure Inv (mask last : ℕ) (s : Conn) : Prop where
  tree : Tree s
  registry : Registry mask s s.Live s.Live last

variable {M C : ℕ → Prop}

theorem Registry.frame (h : Registry mask s M C last)
    (hf : Frame s s') : Registry mask s' M C last where
  index := by
    intro i a
    rw [hf.streamsIndex, hf.id]
    exact h.index i a
  index_nodup := by
    rw [hf.streamsIndex]
    exact h.index_nodup
  ids := by
    intro a b
    rw [hf.id, hf.id]
    exact h.ids a b
  closed := by
    intro a
    rw [hf.closed.mem_iff, hf.stream]
    exact h.closed a
  closed_nodup := hf.closed.nodup_iff.2 h.closed_nodup
  closedNodes := by
    rw [hf.closedNodes, hf.closed.length_eq]
    exact h.closedNodes
  streams := by
    intro a
    rw [hf.stream, hf.id]
    exact h.streams a

variable {C' : ℕ → Prop}

theorem Registry.congr {M' : ℕ → Prop} (h : Registry mask s M C last)
    (hM : ∀ a, M' a ↔ M a) (hC : ∀ a, C' a ↔ C a) : Registry mask s M' C' last := by
  obtain rfl : M' = M := funext fun a => propext (hM a)
  obtain rfl : C' = C := funext fun a => propext (hC a)
  exact h

variable {sid : ℕ}

/-- The lookup finds the node of an identifier. -/
theorem Registry.findNode_eq_some (h : Registry mask s M C last)
    {a : ℕ} : s.findNode mask sid = some a ↔ M a ∧ (s.nodes a).id = sid := by
  unfold Conn.findNode
  constructor
  · intro hfind
    have hid : (s.nodes a).id = sid := by simpa using find?_some hfind
    exact ⟨((h.index _ a).1 (mem_of_find?_eq_some hfind)).1, hid⟩
  · rintro ⟨ha, hid⟩
    have hmem : a ∈ s.streamsIndex (ngxHttpV2Index mask sid) :=
      (h.index _ a).2 ⟨ha, by rw [hid]⟩
    rcases hfind : (s.streamsIndex (ngxHttpV2Index mask sid)).find?
      (fun b => decide ((s.nodes b).id = sid)) with _ | b
    · have := find?_eq_none.1 hfind a hmem
      simp [hid] at this
    · have hb := ((h.index _ b).1 (mem_of_find?_eq_some hfind)).1
      have hbid : (s.nodes b).id = sid := by simpa using find?_some hfind
      rw [h.ids b a hb ha (hbid.trans hid.symm)]

/-! ## The counter of closed nodes -/

theorem closedNodes_pop (n : ℕ) : UInt8.ofNat (n + 1) - 1 = UInt8.ofNat n := by
  rw [UInt8.ofNat_add]
  exact UInt8.add_sub_cancel _ _

theorem closedNodes_push (n : ℕ) : UInt8.ofNat n + 1 = UInt8.ofNat (n + 1) := by
  rw [UInt8.ofNat_add]
  rfl

/-- **The queue of closed nodes is not empty when it is popped**, although the counter is
its length modulo 256. -/
theorem Registry.closed_ne_nil (h : Registry mask s M C last)
    (hclosed : ¬ s.closedNodes < 32) : s.closed ≠ [] := by
  intro hnil
  apply hclosed
  rw [h.closedNodes, hnil]
  decide

/-! ## Getting a node -/

/-- What `ngx_http_v2_get_node_by_id` gives: the node of an identifier, which is in the index
but not necessarily in the tree yet. -/
structure Got (mask : ℕ) (s : Conn) (n sid last : ℕ) : Prop where
  tree : Tree s
  lt : n < s.nnodes
  id : (s.nodes n).id = sid
  fresh : s.parent n = .null → (s.nodes n).stream = false
  registry : Registry mask s (fun a => s.Live a ∨ a = n) s.Live last

variable {n : ℕ}

/-- A zeroed node outside the tree gets an identifier that no other node has. -/
theorem Got.ofZero (htree : Tree s) (hreg : Registry mask s s.Live s.Live last)
    (hn : n < s.nnodes) (hzero : s.nodes n = Node.zero)
    (hsid : ∀ a, s.Live a → (s.nodes a).id ≠ sid) (hs' : s' =
      { s.modify n (fun m => { m with id := sid, children := [] }) with
        streamsIndex := fun i =>
          if i = ngxHttpV2Index mask sid then n :: s.streamsIndex i else s.streamsIndex i }) :
    Got mask s' n sid last := by
  have hnull : s.parent n = .null := by
    unfold Conn.parent
    rw [hzero]
    rfl
  have hnodes : ∀ a, s'.nodes a
      = if a = n then { s.nodes a with id := sid, children := [] } else s.nodes a := by
    intro a
    rw [hs']
    rfl
  have hother : ∀ a, a ≠ n → s'.nodes a = s.nodes a := by
    intro a han
    rw [hnodes, if_neg han]
  have hnode : s'.nodes n = { Node.zero with id := sid } := by
    rw [hnodes, if_pos rfl, hzero]
    rfl
  have hparent : ∀ a, s'.parent a = s.parent a := by
    intro a
    unfold Conn.parent
    rcases eq_or_ne a n with rfl | han
    · rw [hnode, hzero]
    · rw [hother a han]
  have hlive : s'.Live = s.Live := by
    unfold Conn.Live
    rw [funext hparent]
  have hne : ∀ a, s.Live a → a ≠ n := by
    rintro a ha rfl
    exact ha hnull
  have hqueue : ∀ l, s'.queue l = s.queue l := by
    intro l
    cases l with
    | null => rfl
    | root =>
      rw [hs']
      rfl
    | node b =>
      show (s'.nodes b).children = (s.nodes b).children
      rcases eq_or_ne b n with rfl | hbn
      · rw [hnode, hzero]
      · rw [hother b hbn]
  have hpar : s'.par = s.par := by rw [Conn.par, Conn.par, funext hparent]
  have hnn : s'.nnodes = s.nnodes := by
    rw [hs']
    rfl
  have hcl : s'.closed = s.closed ∧ s'.closedNodes = s.closedNodes := by
    rw [hs']
    exact ⟨rfl, rfl⟩
  have hindex : ∀ i, s'.streamsIndex i
      = if i = ngxHttpV2Index mask sid then n :: s.streamsIndex i else s.streamsIndex i := by
    intro i
    rw [hs']
  refine ⟨?_, by rw [hnn]; exact hn, by rw [hnode], fun _ => by rw [hnode]; rfl, ?_⟩
  · refine { htree.toLinked.congr hparent hqueue hnn with rank := ?_ }
    intro a ha
    rw [hparent] at ha
    rw [hpar, hother a (hne a ha)]
    exact htree.rank a ha
  · rw [hlive]
    refine ⟨?_, ?_, ?_, ?_, ?_, ?_, ?_⟩
    · intro i a
      have hi := hreg.index i a
      rw [hindex]
      rcases eq_or_ne a n with rfl | han
      · have hnot : a ∉ s.streamsIndex i := fun hmem => hne a (hi.1 hmem).1 rfl
        rw [hnode]
        split_ifs with hii
        · simp [hii]
        · simp [hnot, Ne.symm hii]
      · rw [hother a han]
        split_ifs
        · simp [han, hi]
        · simp [han, hi]
    · intro i
      rw [hindex]
      split_ifs
      · refine nodup_cons.2 ⟨?_, hreg.index_nodup i⟩
        intro hmem
        exact hne n ((hreg.index i n).1 hmem).1 rfl
      · exact hreg.index_nodup i
    · have hidn : (s'.nodes n).id = sid := by rw [hnode]
      rintro a b (ha | rfl) (hb | rfl) heq
      · rw [hother a (hne a ha), hother b (hne b hb)] at heq
        exact hreg.ids a b ha hb heq
      · rw [hother a (hne a ha), hidn] at heq
        exact absurd heq (hsid a ha)
      · rw [hother b (hne b hb), hidn] at heq
        exact absurd heq.symm (hsid b hb)
      · rfl
    · intro a
      rw [hcl.1, hreg.closed]
      constructor
      · rintro ⟨ha, hst⟩
        exact ⟨ha, by rw [hother a (hne a ha)]; exact hst⟩
      · rintro ⟨ha, hst⟩
        rw [hother a (hne a ha)] at hst
        exact ⟨ha, hst⟩
    · rw [hcl.1]
      exact hreg.closed_nodup
    · rw [hcl.1, hcl.2]
      exact hreg.closedNodes
    · rintro a (ha | rfl) hst
      · rw [hother a (hne a ha)] at hst ⊢
        exact hreg.streams a ha hst
      · rw [hnode] at hst
        exact absurd hst (by simp [Node.zero])

/-- Allocating a node changes nothing in the tree. -/
theorem Inv.allocNode (h : Inv mask last s) :
    Tree s.allocNode.2 ∧ Registry mask s.allocNode.2 s.allocNode.2.Live s.allocNode.2.Live last
      ∧ (∀ a, s.allocNode.2.parent a = s.parent a)
      ∧ (∀ a, s.Live a → s.allocNode.2.nodes a = s.nodes a) := by
  have hnull : s.parent s.nnodes = .null := by
    by_contra hlive
    exact lt_irrefl _ (h.tree.lt _ hlive)
  have hnodes : ∀ a, s.allocNode.2.nodes a = if a = s.nnodes then Node.zero else s.nodes a :=
    fun _ => rfl
  have hparent : ∀ a, s.allocNode.2.parent a = s.parent a := by
    intro a
    unfold Conn.parent
    rw [hnodes]
    split_ifs with ha
    · rw [ha]
      exact hnull.symm
    · rfl
  have hsame : ∀ a, s.Live a → s.allocNode.2.nodes a = s.nodes a := by
    intro a ha
    rw [hnodes, if_neg]
    rintro rfl
    exact ha hnull
  have hlive : s.allocNode.2.Live = s.Live := by
    unfold Conn.Live
    rw [funext hparent]
  have hpar : s.allocNode.2.par = s.par := by rw [Conn.par, Conn.par, funext hparent]
  have hqueue : ∀ l, s.allocNode.2.queue l = s.queue l := by
    intro l
    cases l with
    | null => rfl
    | root => rfl
    | node b =>
      show (s.allocNode.2.nodes b).children = (s.nodes b).children
      rw [hnodes]
      split_ifs with hb
      · symm
        apply eq_nil_iff_forall_not_mem.2
        intro c hc
        exact h.tree.live c b (h.tree.mem_kids.1 hc) (hb ▸ hnull)
      · rfl
  have hlinked : Linked s.allocNode.2 := by
    have hq : s.allocNode.2.queue = s.queue := funext hqueue
    refine ⟨?_, ?_, ?_, ?_⟩
    · rw [funext hparent, hq]
      exact h.tree.agree
    · rw [hpar]
      exact h.tree.rooted
    · intro a ha
      rw [hparent] at ha
      exact Nat.lt_succ_of_lt (h.tree.lt a ha)
    · intro a p hap
      rw [hparent] at hap ⊢
      exact h.tree.live a p hap
  refine ⟨{ hlinked with rank := ?_ }, ?_, hparent, hsame⟩
  · intro a ha
    rw [hparent] at ha
    rw [hpar, hsame a ha]
    exact h.tree.rank a ha
  · rw [hlive]
    have hreg := h.registry
    refine ⟨?_, hreg.index_nodup, ?_, ?_, hreg.closed_nodup, hreg.closedNodes, ?_⟩
    · intro i a
      rw [show s.allocNode.2.streamsIndex = s.streamsIndex from rfl, hreg.index]
      constructor
      · rintro ⟨ha, hi⟩
        exact ⟨ha, by rw [hsame a ha]; exact hi⟩
      · rintro ⟨ha, hi⟩
        rw [hsame a ha] at hi
        exact ⟨ha, hi⟩
    · intro a b ha hb heq
      rw [hsame a ha, hsame b hb] at heq
      exact hreg.ids a b ha hb heq
    · intro a
      rw [show s.allocNode.2.closed = s.closed from rfl, hreg.closed]
      constructor
      · rintro ⟨ha, hst⟩
        exact ⟨ha, by rw [hsame a ha]; exact hst⟩
      · rintro ⟨ha, hst⟩
        rw [hsame a ha] at hst
        exact ⟨ha, hst⟩
    · intro a ha hst
      rw [hsame a ha] at hst ⊢
      exact hreg.streams a ha hst

/-- Reusing a node takes it out of the tree, the index and the queue of closed nodes. -/
theorem Inv.getClosedNode (h : Inv mask last s) {node : ℕ} {closed : List ℕ}
    (hclosed : s.closed = node :: closed) :
    ∃ s', s.ngxHttpV2GetClosedNode mask = some (node, s') ∧ Tree s'
      ∧ Registry mask s' s'.Live s'.Live last ∧ node < s'.nnodes
      ∧ s'.nodes node = Node.zero ∧ s'.lastSid = s.lastSid
      ∧ ∀ a, s'.Live a → s.Live a ∧ (s'.nodes a).id = (s.nodes a).id := by
  have hreg := h.registry
  obtain ⟨hnode, hstream⟩ := (hreg.closed node).1 (by rw [hclosed]; exact mem_cons_self)
  refine ⟨_, getClosedNode_cons hclosed, ?_⟩
  -- unlinking from the index and the queue does not touch the tree
  have hunindex : Tree (s.unindex mask node closed) := by
    refine { h.tree.toLinked.congr (fun _ => rfl) ?_ rfl with rank := h.tree.rank }
    intro l
    cases l <;> rfl
  obtain ⟨htree, hparent, hframe⟩ := hunindex.detach hnode
  generalize hs' : ((s.unindex mask node closed).detach node).modify node (fun _ => Node.zero) = s'
    at htree hparent
  have hnodes : ∀ a, s'.nodes a
      = if a = node then Node.zero else ((s.unindex mask node closed).detach node).nodes a := by
    intro a
    rw [← hs']
    rfl
  have hlive : ∀ a, s'.Live a ↔ a ≠ node ∧ s.Live a := by
    intro a
    show s'.parent a ≠ .null ↔ _
    rw [hparent]
    show removed s.parent node a ≠ .null ↔ a ≠ node ∧ s.parent a ≠ .null
    unfold removed
    split_ifs with hn hc
    · simp [hn]
    · simp only [hn, hc, ne_eq, not_false_eq_true, true_and]
      exact iff_of_true hnode (by simp)
    · simp [hn]
  have hid : ∀ a, a ≠ node → (s'.nodes a).id = (s.nodes a).id := by
    intro a ha
    rw [hnodes, if_neg ha, hframe.id]
    rfl
  have hst : ∀ a, a ≠ node → (s'.nodes a).stream = (s.nodes a).stream := by
    intro a ha
    rw [hnodes, if_neg ha, hframe.stream]
    rfl
  have hperm : s'.closed.Perm closed := by
    rw [← hs']
    exact hframe.closed
  have hindex : ∀ i, s'.streamsIndex i
      = if i = ngxHttpV2Index mask (s.nodes node).id then (s.streamsIndex i).erase node
        else s.streamsIndex i := by
    intro i
    rw [← hs']
    exact congrFun hframe.streamsIndex i
  obtain ⟨hnotmem, hnodup⟩ : node ∉ closed ∧ closed.Nodup :=
    nodup_cons.1 (hclosed ▸ hreg.closed_nodup)
  refine ⟨htree, ?_, ?_, by rw [hnodes, if_pos rfl], by rw [← hs']; exact hframe.lastSid, ?_⟩
  · refine ⟨?_, ?_, ?_, ?_, hperm.nodup_iff.2 hnodup, ?_, ?_⟩
    · intro i a
      have hi := hreg.index i a
      rw [hindex, hlive]
      rcases eq_or_ne a node with rfl | ha
      · have hnot : ¬ (a ≠ a ∧ s.Live a) := fun hn => hn.1 rfl
        refine iff_of_false ?_ (fun hn => hnot hn.1)
        split_ifs with hii
        · exact (hreg.index_nodup i).not_mem_erase
        · exact fun hmem => hii (hi.1 hmem).2.symm
      · rw [hid a ha]
        split_ifs
        · rw [mem_erase_of_ne ha, hi]
          simp [ha]
        · rw [hi]
          simp [ha]
    · intro i
      rw [hindex]
      split_ifs
      · exact (hreg.index_nodup i).erase node
      · exact hreg.index_nodup i
    · intro a b ha hb heq
      obtain ⟨han, ha⟩ := (hlive a).1 ha
      obtain ⟨hbn, hb⟩ := (hlive b).1 hb
      rw [hid a han, hid b hbn] at heq
      exact hreg.ids a b ha hb heq
    · intro a
      have ha := hreg.closed a
      rw [hclosed] at ha
      rw [hperm.mem_iff, hlive]
      rcases eq_or_ne a node with rfl | han
      · simp [hnotmem]
      · rw [hst a han]
        simpa [han] using ha
    · rw [hperm.length_eq, ← closedNodes_pop, ← length_cons (a := node), ← hclosed,
        ← hreg.closedNodes, ← hs']
      exact hframe.closedNodes
    · intro a ha hstr
      obtain ⟨han, ha⟩ := (hlive a).1 ha
      rw [hst a han] at hstr
      rw [hid a han]
      exact hreg.streams a ha hstr
  · rw [← hs']
    show node < ((s.unindex mask node closed).detach node).nnodes
    rw [hframe.nnodes]
    exact h.tree.lt node hnode
  · intro a ha
    obtain ⟨han, ha⟩ := (hlive a).1 ha
    exact ⟨ha, hid a han⟩

/-- **A node is always found or made**, without popping an empty queue. -/
theorem Inv.getNodeById (h : Inv mask last s) (sid : ℕ) :
    ∃ n s', s.ngxHttpV2GetNodeById mask sid = some (n, s') ∧ Got mask s' n sid last
      ∧ s'.lastSid = s.lastSid := by
  unfold Conn.ngxHttpV2GetNodeById
  have hreg := h.registry
  rcases hfind : s.findNode mask sid with _ | n
  · have hsid : ∀ a, s.Live a → (s.nodes a).id ≠ sid := by
      intro a ha hid
      have := hreg.findNode_eq_some.2 ⟨ha, hid⟩
      simp [hfind] at this
    split_ifs with hclosed
    · obtain ⟨htree, hreg', hparent, hsame⟩ := h.allocNode
      refine ⟨_, _, rfl, Got.ofZero (s := s.allocNode.2) (n := s.nnodes) htree hreg'
        (Nat.lt_succ_self _) ?_ ?_ rfl, rfl⟩
      · exact if_pos rfl
      · intro a ha
        have ha' : s.Live a := by
          unfold Conn.Live at ha ⊢
          rwa [hparent] at ha
        rw [hsame a ha']
        exact hsid a ha'
    · obtain ⟨node, closed, hcons⟩ := exists_cons_of_ne_nil (hreg.closed_ne_nil hclosed)
      obtain ⟨s', hs', htree, hreg', hlt, hzero, hlast, hold⟩ := h.getClosedNode hcons
      rw [hs']
      refine ⟨_, _, rfl, Got.ofZero htree hreg' hlt hzero ?_ rfl, hlast⟩
      intro a ha
      rw [(hold a ha).2]
      exact hsid a (hold a ha).1
  · obtain ⟨hn, hid⟩ := hreg.findNode_eq_some.1 hfind
    refine ⟨n, s, rfl, ⟨h.tree, h.tree.lt n hn, hid, fun hnull => absurd hnull hn, ?_⟩, rfl⟩
    refine hreg.congr ?_ (fun _ => Iff.rfl)
    intro a
    constructor
    · rintro (ha | rfl)
      · exact ha
      · exact hn
    · exact .inl

/-! ## Frames -/

/-- Setting fields of a node that the tree does not use. -/
theorem Tree.modify (h : Tree s) (n : ℕ) {f : Node → Node} (hparent : ∀ m, (f m).parent = m.parent)
    (hchildren : ∀ m, (f m).children = m.children) (hrank : ∀ m, (f m).rank = m.rank) :
    Tree (s.modify n f) ∧ ∀ a, (s.modify n f).parent a = s.parent a := by
  have hp : ∀ a, (s.modify n f).parent a = s.parent a := by
    intro a
    unfold Conn.parent
    rw [nodes_modify]
    split_ifs
    · exact hparent _
    · rfl
  have hpar : (s.modify n f).par = s.par := by rw [Conn.par, Conn.par, funext hp]
  refine ⟨{ h.toLinked.congr hp (queue_modify s n hchildren) rfl with rank := ?_ }, hp⟩
  intro a ha
  rw [hp] at ha
  have ha' := h.rank a ha
  rw [hpar, nodes_modify]
  split_ifs
  · rw [hrank]
    exact ha'
  · exact ha'

/-- Setting the dependency of a node that is in the index and, without a stream, in the
queue of closed nodes. -/
theorem inv_setDependency (ht : Tree s) {depend : ℕ} {exclusive : Bool} (hn : n < s.nnodes)
    (hreg : Registry mask s (fun a => s.Live a ∨ a = n) (fun a => s.Live a ∨ a = n) s.lastSid)
    (hdepend : depend ≠ (s.nodes n).id) :
    Inv mask (s.ngxHttpV2SetDependency mask n depend exclusive).lastSid
      (s.ngxHttpV2SetDependency mask n depend exclusive) := by
  obtain ⟨htree, hlive, hframe⟩ := ht.setDependency mask depend exclusive hn (by
      intro p _ hfind
      obtain ⟨hp, hid⟩ := hreg.findNode_eq_some.1 hfind
      have hpn : p ≠ n := by
        rintro rfl
        exact hdepend hid.symm
      have hlive := hp.resolve_right hpn
      exact ⟨hpn, hlive, fun hst => (hreg.closed p).2 ⟨hp, hst⟩⟩)
  refine ⟨htree, ?_⟩
  rw [hframe.lastSid]
  exact (hreg.frame hframe).congr hlive hlive

/-- A change of streams and of the queue of closed nodes. -/
theorem Registry.withClosed {last' : ℕ} (h : Registry mask s M C last)
    (hid : ∀ a, (s'.nodes a).id = (s.nodes a).id) (hindex : s'.streamsIndex = s.streamsIndex)
    (hclosed : ∀ a, a ∈ s'.closed ↔ C' a ∧ (s'.nodes a).stream = false)
    (hnodup : s'.closed.Nodup) (hcount : s'.closedNodes = UInt8.ofNat s'.closed.length)
    (hstreams : ∀ a, M a → (s'.nodes a).stream = true → (s.nodes a).id ≤ last') :
    Registry mask s' M C' last' where
  index := by
    intro i a
    rw [hindex, hid]
    exact h.index i a
  index_nodup := by
    rw [hindex]
    exact h.index_nodup
  ids := by
    intro a b
    rw [hid, hid]
    exact h.ids a b
  closed := hclosed
  closed_nodup := hnodup
  closedNodes := hcount
  streams := by
    intro a
    rw [hid]
    exact hstreams a

/-- `ngx_http_v2_state_headers` before the dependency is set: the node gets a stream. -/
def Conn.activate (s : Conn) (n : ℕ) : Conn :=
  let s :=
    if (s.nodes n).parent ≠ .null then
      { s with closed := s.closed.erase n, closedNodes := s.closedNodes - 1 }
    else
      s
  s.modify n fun m => { m with stream := true }

theorem Got.activate (h : Got mask s n sid last) (hst : (s.nodes n).stream = false)
    (hlast : last ≤ sid) : Tree (s.activate n) ∧ (∀ a, (s.activate n).parent a = s.parent a)
      ∧ n < (s.activate n).nnodes ∧ ((s.activate n).nodes n).id = sid
      ∧ (s.activate n).lastSid = s.lastSid
      ∧ Registry mask (s.activate n) (fun a => s.Live a ∨ a = n)
        (fun a => s.Live a ∨ a = n) sid := by
  have hreg := h.registry
  generalize hs1 : (if (s.nodes n).parent ≠ .null then
    { s with closed := s.closed.erase n, closedNodes := s.closedNodes - 1 } else s) = s1
  have hs : s.activate n = s1.modify n fun m => { m with stream := true } := by
    rw [← hs1]
    rfl
  have hsame : s1.nodes = s.nodes ∧ s1.dependencies = s.dependencies ∧ s1.nnodes = s.nnodes
      ∧ s1.streamsIndex = s.streamsIndex ∧ s1.lastSid = s.lastSid := by
    rw [← hs1]
    split_ifs <;> exact ⟨rfl, rfl, rfl, rfl, rfl⟩
  obtain ⟨hnodes, hdeps, hnn, hindex, hsid⟩ := hsame
  have hparent1 : ∀ a, s1.parent a = s.parent a := fun a => by rw [Conn.parent, hnodes, Conn.parent]
  have htree1 : Tree s1 := by
    refine { h.tree.toLinked.congr hparent1 ?_ hnn with rank := ?_ }
    · intro l
      cases l with
      | null => rfl
      | root => exact hdeps
      | node b => exact congrArg (fun nodes => (nodes b).children) hnodes
    · have hpar : s1.par = s.par := by rw [Conn.par, Conn.par, funext hparent1]
      rw [funext hparent1, hpar, hnodes]
      exact h.tree.rank
  -- the node is not in the queue any more, nor is its stream counted
  have hclosed : (∀ a, a ∈ s1.closed ↔ s.Live a ∧ (s.nodes a).stream = false ∧ a ≠ n)
      ∧ s1.closed.Nodup ∧ s1.closedNodes = UInt8.ofNat s1.closed.length := by
    rw [← hs1]
    split_ifs with hn
    · refine ⟨?_, hreg.closed_nodup.erase n, ?_⟩
      · intro a
        rw [hreg.closed_nodup.mem_erase_iff, hreg.closed, and_comm, and_assoc]
      · have hmem : n ∈ s.closed := (hreg.closed n).2 ⟨hn, hst⟩
        rw [← closedNodes_pop, length_erase_add_one hmem, ← hreg.closedNodes]
    · refine ⟨?_, hreg.closed_nodup, hreg.closedNodes⟩
      intro a
      rw [hreg.closed]
      constructor
      · rintro ⟨ha, hsta⟩
        exact ⟨ha, hsta, fun heq => hn (heq ▸ ha)⟩
      · rintro ⟨ha, hsta, -⟩
        exact ⟨ha, hsta⟩
  obtain ⟨hmem, hnodup, hcount⟩ := hclosed
  have hstream : ∀ a, ((s1.modify n fun m => { m with stream := true }).nodes a).stream
      = if a = n then true else (s.nodes a).stream := by
    intro a
    rw [nodes_modify, hnodes]
    split_ifs <;> rfl
  have hid : ∀ a, ((s1.modify n fun m => { m with stream := true }).nodes a).id
      = (s.nodes a).id := by
    intro a
    rw [nodes_modify, hnodes]
    split_ifs <;> rfl
  obtain ⟨htree, hparent⟩ := htree1.modify n (f := fun m => { m with stream := true })
    (fun _ => rfl) (fun _ => rfl) (fun _ => rfl)
  rw [hs]
  refine ⟨htree, fun a => (hparent a).trans (hparent1 a), ?_, (hid n).trans h.id, hsid, ?_⟩
  · show n < s1.nnodes
    rw [hnn]
    exact h.lt
  · refine hreg.withClosed hid hindex ?_ hnodup hcount ?_
    · intro a
      rw [hstream]
      show a ∈ s1.closed ↔ _
      rw [hmem]
      rcases eq_or_ne a n with rfl | ha
      · simp
      · simp [ha]
    · intro a ha hsta
      rcases eq_or_ne a n with rfl | han
      · exact h.id.le
      · rw [hstream, if_neg han] at hsta
        exact (hreg.streams a ha hsta).trans hlast

/-- `ngx_http_v2_state_priority` before the dependency is set: a node without a stream
comes to the end of the queue of closed nodes. -/
def Conn.requeue (s : Conn) (n : ℕ) : Conn :=
  if (s.nodes n).stream = false then
    let s :=
      if (s.nodes n).parent = .null then
        { s with closedNodes := s.closedNodes + 1 }
      else
        { s with closed := s.closed.erase n }
    { s with closed := s.closed ++ [n] }
  else
    s

theorem Got.requeue (h : Got mask s n sid last) :
    Registry mask (s.requeue n) (fun a => s.Live a ∨ a = n) (fun a => s.Live a ∨ a = n) last
      ∧ (s.requeue n).nodes = s.nodes ∧ (s.requeue n).dependencies = s.dependencies
      ∧ (s.requeue n).nnodes = s.nnodes ∧ (s.requeue n).lastSid = s.lastSid := by
  have hreg := h.registry
  unfold Conn.requeue
  split_ifs with hst hnull
  · refine ⟨hreg.withClosed (fun _ => rfl) rfl ?_ ?_ ?_ hreg.streams, rfl, rfl, rfl, rfl⟩
    · intro a
      rw [mem_append, hreg.closed]
      rcases eq_or_ne a n with rfl | ha
      · simp [hst]
      · simp [ha]
    · have hnot : n ∉ s.closed := fun hmem => ((hreg.closed n).1 hmem).1 hnull
      exact (nodup_append.2 ⟨hreg.closed_nodup, nodup_singleton n, by
        intro a ha b hb
        rw [mem_singleton.1 hb]
        rintro rfl
        exact hnot ha⟩)
    · rw [hreg.closedNodes, closedNodes_push, length_append, length_singleton]
  · have hlive : s.Live n := hnull
    have hmem : n ∈ s.closed := (hreg.closed n).2 ⟨hlive, hst⟩
    have hperm : (s.closed.erase n ++ [n]).Perm s.closed :=
      (perm_append_singleton n _).trans (perm_cons_erase hmem).symm
    refine ⟨hreg.withClosed (fun _ => rfl) rfl ?_ (hperm.nodup_iff.2 hreg.closed_nodup) ?_
      hreg.streams, rfl, rfl, rfl, rfl⟩
    · intro a
      rw [hperm.mem_iff, hreg.closed]
      rcases eq_or_ne a n with rfl | ha
      · simp [hlive]
      · simp [ha]
    · rw [hperm.length_eq]
      exact hreg.closedNodes
  · have hlive : s.Live n := fun hnull => hst (h.fresh hnull)
    refine ⟨hreg.congr (fun _ => Iff.rfl) ?_, rfl, rfl, rfl, rfl⟩
    intro a
    constructor
    · rintro (ha | rfl)
      · exact ha
      · exact hlive
    · exact .inl

/-! ## Every run -/

/-- The outcome of an event: the invariant holds again, or the connection is closed, but
the empty queue is never popped. -/
def Safe (mask : ℕ) : Except Fault Conn → Prop
  | .ok s => Inv mask s.lastSid s
  | .error fault => fault ≠ .emptyQueue

theorem Inv.setLast (h : Inv mask last s) (sid : ℕ) : Inv mask last { s with lastSid := sid } := by
  refine ⟨{ h.tree.toLinked.congr (fun _ => rfl) ?_ rfl with rank := h.tree.rank },
    h.registry.withClosed (fun _ => rfl) rfl h.registry.closed h.registry.closed_nodup
      h.registry.closedNodes h.registry.streams⟩
  intro l
  cases l <;> rfl

theorem Inv.mono (h : Inv mask last s) {last' : ℕ} (hle : last ≤ last') : Inv mask last' s :=
  ⟨h.tree, h.registry.withClosed (fun _ => rfl) rfl h.registry.closed h.registry.closed_nodup
    h.registry.closedNodes (fun a ha hst => (h.registry.streams a ha hst).trans hle)⟩

/-- The weight of a node is no part of the invariant. -/
theorem Registry.setWeight (h : Registry mask s M C last) (n weight : ℕ) :
    Registry mask (s.modify n fun m => { m with weight := weight }) M C last :=
  h.frame (frame_modify s n (fun _ => rfl) (fun _ => rfl))

theorem Inv.headers (h : Inv mask s.lastSid s) (sid : ℕ) (prio : Option (UInt32 × UInt8))
    (refused : Bool) : Safe mask (ngxHttpV2StateHeaders mask s sid prio refused) := by
  unfold ngxHttpV2StateHeaders
  generalize headersPriority prio = fields
  obtain ⟨depend, excl, weight⟩ := fields
  dsimp only
  split_ifs with hsid hself hrefused
  · exact Fault.noConfusion
  · exact (h.setLast sid).mono (show s.lastSid ≤ sid by omega)
  · exact (h.setLast sid).mono (show s.lastSid ≤ sid by omega)
  · obtain ⟨n, s', hget, hgot, hlast⟩ := (h.setLast sid).getNodeById sid
    rw [hget]
    -- a node of the frame's stream cannot have had a stream before
    have hst : (s'.nodes n).stream = false := by
      rw [← Bool.not_eq_true]
      intro hst
      have := hgot.registry.streams n (.inr rfl) hst
      rw [hgot.id] at this
      omega
    obtain ⟨htree, hparent, hlt, hid, hlast', hreg⟩ := hgot.activate hst (by omega)
    have hsid' : (s'.activate n).lastSid = sid := hlast'.trans hlast
    have hlive : (s'.activate n).Live = s'.Live := by
      unfold Conn.Live
      rw [funext hparent]
    show Safe mask (if prio.isSome = true ∨ (s'.activate n).parent n = .null then
        .ok (((s'.activate n).modify n fun m => { m with weight := weight }).ngxHttpV2SetDependency
          mask n depend excl)
      else .ok (s'.activate n))
    split_ifs with hset
    · obtain ⟨htree', hparent'⟩ := htree.modify n (f := fun m => { m with weight := weight })
        (fun _ => rfl) (fun _ => rfl) (fun _ => rfl)
      refine inv_setDependency htree' hlt ?_ ?_
      · show Registry mask _ _ _ (s'.activate n).lastSid
        rw [hsid']
        have hM : ∀ a, ((s'.activate n).modify n fun m => { m with weight := weight }).Live a
            ∨ a = n ↔ s'.Live a ∨ a = n := by
          intro a
          unfold Conn.Live
          rw [hparent', hparent]
        exact (hreg.setWeight n weight).congr hM hM
      · rw [nodes_modify, if_pos rfl]
        rw [hid]
        exact hself
    · rw [not_or] at hset
      refine ⟨htree, ?_⟩
      rw [hsid', hlive]
      have hn : s'.Live n := by
        rw [← hlive]
        exact hset.2
      have hM : ∀ a, s'.Live a ↔ s'.Live a ∨ a = n := by
        intro a
        constructor
        · exact .inl
        · rintro (ha | rfl)
          · exact ha
          · exact hn
      exact hreg.congr hM hM

theorem Inv.priority (h : Inv mask s.lastSid s) (sid : ℕ) (dependency : UInt32) (weight : UInt8) :
    Safe mask (ngxHttpV2StatePriority mask s sid dependency weight) := by
  unfold ngxHttpV2StatePriority
  generalize parsePriority dependency weight = fields
  obtain ⟨depend, excl, weight⟩ := fields
  dsimp only
  split_ifs with hsid hself
  · exact Fault.noConfusion
  · exact h
  · obtain ⟨n, s', hget, hgot, hlast⟩ := h.getNodeById sid
    rw [hget]
    generalize hs1 : (s'.modify n fun m => { m with weight := weight }) = s1
    have hframe : Frame s' s1 := by
      rw [← hs1]
      exact frame_modify s' n (fun _ => rfl) (fun _ => rfl)
    obtain ⟨htree, hparent⟩ : Tree s1 ∧ ∀ a, s1.parent a = s'.parent a := by
      rw [← hs1]
      exact hgot.tree.modify n (fun _ => rfl) (fun _ => rfl) (fun _ => rfl)
    have hlive : s1.Live = s'.Live := by
      unfold Conn.Live
      rw [funext hparent]
    have hgot1 : Got mask s1 n sid s.lastSid := by
      refine ⟨htree, by rw [hframe.nnodes]; exact hgot.lt, by rw [hframe.id]; exact hgot.id, ?_, ?_⟩
      · rw [hparent, hframe.stream]
        exact hgot.fresh
      · rw [hlive]
        exact hgot.registry.frame hframe
    obtain ⟨hreg, hnodes, hdeps, hnn, hlast'⟩ := hgot1.requeue
    have hparent2 : ∀ a, (s1.requeue n).parent a = s1.parent a := by
      intro a
      rw [Conn.parent, hnodes, Conn.parent]
    have htree2 : Tree (s1.requeue n) := by
      refine { htree.toLinked.congr hparent2 ?_ hnn with rank := ?_ }
      · intro l
        cases l with
        | null => rfl
        | root => exact hdeps
        | node b => exact congrArg (fun nodes => (nodes b).children) hnodes
      · have hpar : (s1.requeue n).par = s1.par := by rw [Conn.par, Conn.par, funext hparent2]
        rw [funext hparent2, hpar, hnodes]
        exact htree.rank
    show Safe mask (.ok (Conn.ngxHttpV2SetDependency mask
      (Conn.requeue (s'.modify n fun m => { m with weight := weight }) n) n depend excl))
    rw [hs1]
    refine inv_setDependency htree2 (by rw [hnn]; exact hgot1.lt) ?_ ?_
    · rw [hlast', hframe.lastSid, hlast]
      have hM : ∀ a, (s1.requeue n).Live a ∨ a = n ↔ s1.Live a ∨ a = n := by
        intro a
        unfold Conn.Live
        rw [hparent2]
      exact hreg.congr hM hM
    · rw [hnodes, hgot1.id]
      exact hself

theorem Inv.close (h : Inv mask last s) (hn : s.Live n) (hst : (s.nodes n).stream = true) :
    Inv mask last (ngxHttpV2CloseStream s n) := by
  have hreg := h.registry
  obtain ⟨htree, hparent⟩ := h.tree.modify n (f := fun m => { m with stream := false })
    (fun _ => rfl) (fun _ => rfl) (fun _ => rfl)
  have hlinked : Linked (ngxHttpV2CloseStream s n) := by
    refine htree.toLinked.congr (fun _ => rfl) ?_ rfl
    intro l
    cases l <;> rfl
  have hlive : (ngxHttpV2CloseStream s n).Live = s.Live := by
    funext a
    exact congrArg (· ≠ Link.null) (hparent a)
  have hnodes : ∀ a, (ngxHttpV2CloseStream s n).nodes a
      = if a = n then { s.nodes a with stream := false } else s.nodes a := fun _ => rfl
  have hstream : ∀ a, ((ngxHttpV2CloseStream s n).nodes a).stream
      = if a = n then false else (s.nodes a).stream := by
    intro a
    rw [hnodes]
    split_ifs <;> rfl
  have hnot : n ∉ s.closed := by
    intro hmem
    rw [hreg.closed, hst] at hmem
    exact Bool.noConfusion hmem.2
  refine ⟨{ hlinked with rank := htree.rank }, ?_⟩
  rw [hlive]
  refine hreg.withClosed ?_ rfl ?_ ?_ ?_ ?_
  · intro a
    rw [hnodes]
    split_ifs <;> rfl
  · intro a
    show a ∈ s.closed ++ [n] ↔ _
    rw [hstream, mem_append, hreg.closed]
    rcases eq_or_ne a n with rfl | ha
    · simp [hn]
    · simp [ha]
  · refine nodup_append.2 ⟨hreg.closed_nodup, nodup_singleton n, ?_⟩
    intro a ha b hb
    rw [mem_singleton.1 hb]
    rintro rfl
    exact hnot ha
  · show s.closedNodes + 1 = UInt8.ofNat (s.closed ++ [n]).length
    rw [hreg.closedNodes, closedNodes_push, length_append, length_singleton]
  · intro a ha hsta
    rw [hstream] at hsta
    split_ifs at hsta with han
    exact hreg.streams a ha hsta

/-- **Every event keeps the invariant.** -/
theorem Inv.step (h : Inv mask s.lastSid s) (e : Event) : Safe mask (e.step mask s) := by
  cases e with
  | headers sid prio refused => exact h.headers sid prio refused
  | priority sid dependency weight => exact h.priority sid dependency weight
  | close sid =>
    dsimp only [Event.step]
    rcases hfind : s.findNode mask sid with _ | n
    · exact h
    · dsimp only
      obtain ⟨hn, -⟩ := h.registry.findNode_eq_some.1 hfind
      split_ifs with hst
      · exact h.close hn hst
      · exact h

theorem inv_initial (mask : ℕ) : Inv mask 0 Conn.initial := by
  have hnull : ∀ a, ¬ Conn.initial.Live a := fun a ha => ha rfl
  refine ⟨⟨⟨⟨?_, ?_⟩, ?_, ?_, ?_⟩, ?_⟩, ?_⟩
  · intro l hl a
    refine iff_of_false ?_ (fun heq => hl heq.symm)
    cases l <;> simp [Conn.queue, Conn.initial, Node.zero]
  · intro l
    cases l <;> exact nodup_nil
  · intro a
    exact ⟨1, Depth.root rfl⟩
  · intro a ha
    exact absurd ha (hnull a)
  · intro a p hap
    exact Link.noConfusion hap
  · intro a ha
    exact absurd ha (hnull a)
  · refine ⟨?_, fun _ => nodup_nil, ?_, ?_, nodup_nil, rfl, ?_⟩
    · intro i a
      exact iff_of_false (by simp [Conn.initial]) (fun ha => hnull a ha.1)
    · intro a b ha
      exact absurd ha (hnull a)
    · intro a
      exact iff_of_false (by simp [Conn.initial]) (fun ha => hnull a ha.1)
    · intro a ha
      exact absurd ha (hnull a)

/-- **Every run keeps the invariant.** -/
theorem safe_foldlM (h : Inv mask s.lastSid s) (events : List Event) :
    Safe mask (events.foldlM (Event.step mask) s) := by
  induction events generalizing s with
  | nil => exact h
  | cons e events ih =>
    have hstep := h.step e
    rw [foldlM_cons]
    rcases hs' : e.step mask s with fault | s'
    · rw [hs'] at hstep
      exact hstep
    · rw [hs'] at hstep
      exact ih hstep

/-! ## The tree as seen from outside -/

/-- The nodes form a forest of which parent links, queues and ranks give the same account;
identifiers are unique in the index, and nodes in the queue of closed nodes have no
stream. -/
structure WellFormed (mask : ℕ) (s : Conn) : Prop where
  acyclic : Acyclic s.par
  rank : ∀ a, s.Live a → Depth s.par a (s.nodes a).rank
  mem_queue : ∀ l, l ≠ .null → ∀ a, a ∈ s.queue l ↔ s.parent a = l
  nodup_queue : ∀ l, (s.queue l).Nodup
  live : ∀ a p, s.parent a = .node p → s.Live p
  mem_index : ∀ i a, a ∈ s.streamsIndex i ↔ s.Live a ∧ ngxHttpV2Index mask (s.nodes a).id = i
  nodup_index : ∀ i, (s.streamsIndex i).Nodup
  ids : ∀ a b, s.Live a → s.Live b → (s.nodes a).id = (s.nodes b).id → a = b
  closed : ∀ a ∈ s.closed, s.Live a ∧ (s.nodes a).stream = false
  nodup_closed : s.closed.Nodup

theorem Inv.wellFormed (h : Inv mask last s) : WellFormed mask s where
  acyclic := h.tree.rooted.acyclic
  rank := h.tree.rank
  mem_queue := h.tree.agree.mem
  nodup_queue := h.tree.agree.nodup
  live := h.tree.live
  mem_index := h.registry.index
  nodup_index := h.registry.index_nodup
  ids := h.registry.ids
  closed := fun a => (h.registry.closed a).1
  nodup_closed := h.registry.closed_nodup

/-- **The priority tree is a well-formed forest in every reachable state**, and no event
pops the queue of closed nodes when it is empty. -/
theorem wellFormed_run (mask : ℕ) (events : List Event) :
    (∀ s, run mask events = .ok s → WellFormed mask s) ∧ run mask events ≠ .error .emptyQueue := by
  have hsafe : Safe mask (run mask events) := safe_foldlM (inv_initial mask) events
  constructor
  · intro s hs
    rw [hs] at hsafe
    exact hsafe.wellFormed
  · intro hs
    rw [hs] at hsafe
    exact hsafe rfl

end Priority
