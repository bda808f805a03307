/-
# The priority tree of an HTTP/2 connection

The dependency nodes of `ngx_http_v2.c`: the tree of the nodes, the index by stream
identifier, and the queue of the nodes of closed streams.  A node is an address into the
pool of nodes; a `ngx_queue_t` is the list of the nodes that are linked into it, and
removing a node unlinks it from whichever queue it is in.  The `rel_weight` of a node
and allocation failures are left out.
-/
import Mathlib
import ReadingCode.ParentForest

namespace Priority

/-! ## State -/

/-- `node->parent`: null, `NGX_HTTP_V2_ROOT`, or a node. -/
inductive Link where
  | null
  | root
  | node (a : ℕ)
  deriving DecidableEq, Repr

/-- `ngx_http_v2_node_t`; `stream` says whether the pointer is set. -/
structure Node where
  id : ℕ
  parent : Link
  children : List ℕ
  rank : ℕ
  weight : ℕ
  stream : Bool

/-- A zeroed node. -/
def Node.zero : Node := ⟨0, .null, [], 0, 0, false⟩

/-- The fields of `ngx_http_v2_connection_t` that the tree uses; `nnodes` nodes have been
taken from the pool. -/
structure Conn where
  nodes : ℕ → Node
  nnodes : ℕ
  streamsIndex : ℕ → List ℕ
  dependencies : List ℕ
  closed : List ℕ
  closedNodes : UInt8
  lastSid : ℕ

namespace Conn

/-- A new connection. -/
def initial : Conn where
  nodes := fun _ => Node.zero
  nnodes := 0
  streamsIndex := fun _ => []
  dependencies := []
  closed := []
  closedNodes := 0
  lastSid := 0

/-- Assign to fields of a node. -/
def modify (s : Conn) (a : ℕ) (f : Node → Node) : Conn :=
  { s with nodes := fun b => if b = a then f (s.nodes b) else s.nodes b }

/-- The queue of the children of a link: `h2c->dependencies` or `node->children`. -/
def queue (s : Conn) : Link → List ℕ
  | .null => []
  | .root => s.dependencies
  | .node p => (s.nodes p).children

def setQueue (s : Conn) (l : Link) (q : List ℕ) : Conn :=
  match l with
  | .null => s
  | .root => { s with dependencies := q }
  | .node p => s.modify p fun n => { n with children := q }

/-- The rank of a parent; that of the root is 0. -/
def rankOf (s : Conn) : Link → ℕ
  | .node p => (s.nodes p).rank
  | _ => 0

/-- `ngx_queue_remove(&node->queue)`. -/
def queueRemove (s : Conn) (a : ℕ) : Conn :=
  { s with
    nodes := fun b => { s.nodes b with children := (s.nodes b).children.erase a }
    dependencies := s.dependencies.erase a }

/-- Put `b` behind `a` in a list. -/
def insertAfterList (a b : ℕ) (l : List ℕ) : List ℕ :=
  l.flatMap fun x => if x = a then [x, b] else [x]

/-- `ngx_queue_insert_after(&a->queue, &b->queue)`. -/
def queueInsertAfter (s : Conn) (a b : ℕ) : Conn :=
  { s with
    nodes := fun c => { s.nodes c with children := insertAfterList a b (s.nodes c).children }
    dependencies := insertAfterList a b s.dependencies }

/-! ## Ranks -/

/-- `ngx_http_v2_node_children_update`, to the given depth of recursion. -/
def childrenUpdateTo : ℕ → Conn → ℕ → Conn
  | 0, s, _ => s
  | fuel + 1, s, node =>
    (s.nodes node).children.foldl
      (fun s child =>
        let s' := s.modify child fun n => { n with rank := (s.nodes node).rank + 1 }
        childrenUpdateTo fuel s' child)
      s

/-- The recursion goes no deeper than there are nodes. -/
def ngxHttpV2NodeChildrenUpdate (s : Conn) (node : ℕ) : Conn := childrenUpdateTo s.nnodes s node

/-! ## The index -/

end Conn

/-- `ngx_http_v2_index`, for `streams_index_mask`. -/
def ngxHttpV2Index (mask sid : ℕ) : ℕ := (sid >>> 1) &&& mask

namespace Conn

variable (mask : ℕ)

/-- `ngx_http_v2_get_node_by_id(h2c, sid, 0)`. -/
def findNode (s : Conn) (sid : ℕ) : Option ℕ :=
  (s.streamsIndex (ngxHttpV2Index mask sid)).find? fun a => (s.nodes a).id = sid

/-- `ngx_http_v2_get_closed_node`; `none` is taking the head of the empty queue. -/
def ngxHttpV2GetClosedNode (s : Conn) : Option (ℕ × Conn) :=
  match s.closed with
  | [] => none
  | node :: closed =>
    let s := { s with closedNodes := s.closedNodes - 1, closed := closed }
    let index := ngxHttpV2Index mask (s.nodes node).id
    let s :=
      { s with
        streamsIndex := fun i =>
          if i = index then (s.streamsIndex i).erase node else s.streamsIndex i }
    let s := s.queueRemove node
    let children := (s.nodes node).children
    let weight := (children.map fun child => (s.nodes child).weight).sum
    let parent := (s.nodes node).parent
    let s := children.foldl
      (fun s child => s.modify child fun n =>
        let w := (s.nodes node).weight * n.weight / weight
        { n with parent := parent, weight := if w = 0 then 1 else w })
      s
    let s := s.modify node fun n => { n with rank := s.rankOf parent }
    let s := s.ngxHttpV2NodeChildrenUpdate node
    let s := s.setQueue parent (s.queue parent ++ (s.nodes node).children)
    some (node, s.modify node fun _ => Node.zero)

/-- `ngx_pcalloc` of a node. -/
def allocNode (s : Conn) : ℕ × Conn :=
  (s.nnodes, { s.modify s.nnodes (fun _ => Node.zero) with nnodes := s.nnodes + 1 })

/-- `ngx_http_v2_get_node_by_id(h2c, sid, 1)`; `none` is taking the head of the empty
queue. -/
def ngxHttpV2GetNodeById (s : Conn) (sid : ℕ) : Option (ℕ × Conn) :=
  match s.findNode mask sid with
  | some node => some (node, s)
  | none => do
    let (node, s) ←
      if s.closedNodes < 32 then some s.allocNode else s.ngxHttpV2GetClosedNode mask
    let s := s.modify node fun n => { n with id := sid, children := [] }
    let index := ngxHttpV2Index mask sid
    some (node,
      { s with
        streamsIndex := fun i =>
          if i = index then node :: s.streamsIndex i else s.streamsIndex i })

/-! ## Dependencies -/

/-- The loop over the ancestors of the new parent: is `node` among them?  The walk takes
no more steps than there are nodes. -/
def isAncestor (s : Conn) (node : ℕ) : ℕ → Link → Bool
  | fuel + 1, .node next =>
    if (s.nodes next).rank ≥ (s.nodes node).rank then
      if next = node then true else isAncestor s node fuel (s.nodes next).parent
    else
      false
  | _, _ => false

/-- A new parent that is a descendant first takes the place of the node. -/
def moveUp (s : Conn) (node parent : ℕ) (exclusive : Bool) : Conn :=
  let s := s.queueRemove parent
  let s := s.queueInsertAfter node parent
  let s := s.modify parent fun n => { n with parent := (s.nodes node).parent }
  let s := s.modify parent fun n => { n with rank := s.rankOf (s.nodes node).parent + 1 }
  if exclusive then s else s.ngxHttpV2NodeChildrenUpdate parent

/-- `if (exclusive) { ... }`: the children of the link become those of the node. -/
def adopt (s : Conn) (node : ℕ) (link : Link) : Conn :=
  let children := s.queue link
  let s := children.foldl (fun s child => s.modify child fun n => { n with parent := .node node }) s
  let s := s.setQueue (.node node) (s.queue (.node node) ++ s.queue link)
  s.setQueue link []

/-- The end of `ngx_http_v2_set_dependency`: the node becomes the last child of the link. -/
def attach (s : Conn) (node : ℕ) (link : Link) (exclusive : Bool) : Conn :=
  let s := if exclusive then s.adopt node link else s
  let s := if (s.nodes node).parent ≠ .null then s.queueRemove node else s
  let s := s.setQueue link (s.queue link ++ [node])
  let s := s.modify node fun n => { n with parent := link }
  s.ngxHttpV2NodeChildrenUpdate node

/-- `ngx_http_v2_set_dependency`. -/
def ngxHttpV2SetDependency (s : Conn) (node depend : ℕ) (exclusive : Bool) : Conn :=
  match if depend = 0 then none else s.findNode mask depend with
  | none =>
    let exclusive := if depend ≠ 0 then false else exclusive
    let s := s.modify node fun n => { n with rank := 1 }
    s.attach node .root exclusive
  | some parent =>
    let s :=
      if (s.nodes node).parent ≠ .null ∧ s.isAncestor node s.nnodes (s.nodes parent).parent then
        s.moveUp node parent exclusive
      else
        s
    let s := s.modify node fun n => { n with rank := (s.nodes parent).rank + 1 }
    let s :=
      if (s.nodes parent).stream = false then
        { s with closed := s.closed.erase parent ++ [parent] }
      else
        s
    s.attach node (.node parent) exclusive

end Conn

/-! ## Frames and closing -/

/-- Why no state follows. -/
inductive Fault where
  | connectionError
  | emptyQueue
  deriving DecidableEq, Repr

/-- The priority field of a frame: `depend`, `excl`, `weight`. -/
def parsePriority (dependency : UInt32) (weight : UInt8) : ℕ × Bool × ℕ :=
  ((dependency &&& 0x7fffffff).toNat, decide (dependency >>> 31 ≠ 0), weight.toNat + 1)

/-- `depend`, `excl` and `weight` of a HEADERS frame with or without the priority flag. -/
def headersPriority : Option (UInt32 × UInt8) → ℕ × Bool × ℕ
  | none => (0, false, 16)
  | some (dependency, weight) => parsePriority dependency weight

/-- The part of `ngx_http_v2_state_headers` after the frame has been read: `priority` is
the field of a frame with the priority flag, `refused` the outcome of the tests on the
number of streams and on data before the settings are acknowledged. -/
def ngxHttpV2StateHeaders (mask : ℕ) (s : Conn) (sid : ℕ) (priority : Option (UInt32 × UInt8))
    (refused : Bool) : Except Fault Conn :=
  let (depend, excl, weight) := headersPriority priority
  if sid % 2 = 0 ∨ sid ≤ s.lastSid then
    .error .connectionError
  else
    let s := { s with lastSid := sid }
    -- goto rst_stream
    if depend = sid then .ok s
    else if refused then .ok s
    else
      match s.ngxHttpV2GetNodeById mask sid with
      | none => .error .emptyQueue
      | some (node, s) =>
        let s :=
          if (s.nodes node).parent ≠ .null then
            { s with closed := s.closed.erase node, closedNodes := s.closedNodes - 1 }
          else
            s
        let s := s.modify node fun n => { n with stream := true }
        if priority.isSome ∨ (s.nodes node).parent = .null then
          let s := s.modify node fun n => { n with weight := weight }
          .ok (s.ngxHttpV2SetDependency mask node depend excl)
        else
          .ok s

/-- The part of `ngx_http_v2_state_priority` after the frame has been read. -/
def ngxHttpV2StatePriority (mask : ℕ) (s : Conn) (sid : ℕ) (dependency : UInt32)
    (weight : UInt8) : Except Fault Conn :=
  let (depend, excl, weight) := parsePriority dependency weight
  if sid = 0 then
    .error .connectionError
  else if depend = sid then
    -- the stream is reset, the tree stays
    .ok s
  else
    match s.ngxHttpV2GetNodeById mask sid with
    | none => .error .emptyQueue
    | some (node, s) =>
      let s := s.modify node fun n => { n with weight := weight }
      let s :=
        if (s.nodes node).stream = false then
          let s :=
            if (s.nodes node).parent = .null then
              { s with closedNodes := s.closedNodes + 1 }
            else
              { s with closed := s.closed.erase node }
          { s with closed := s.closed ++ [node] }
        else
          s
      .ok (s.ngxHttpV2SetDependency mask node depend excl)

/-- What `ngx_http_v2_close_stream` does to the node of an active stream. -/
def ngxHttpV2CloseStream (s : Conn) (node : ℕ) : Conn :=
  let s := s.modify node fun n => { n with stream := false }
  { s with closed := s.closed ++ [node], closedNodes := s.closedNodes + 1 }

/-- What happens on a connection; a stream can be closed while it is active. -/
inductive Event where
  | headers (sid : ℕ) (priority : Option (UInt32 × UInt8)) (refused : Bool)
  | priority (sid : ℕ) (dependency : UInt32) (weight : UInt8)
  | close (sid : ℕ)

def Event.step (mask : ℕ) (s : Conn) : Event → Except Fault Conn
  | .headers sid prio refused => ngxHttpV2StateHeaders mask s sid prio refused
  | .priority sid dependency weight => ngxHttpV2StatePriority mask s sid dependency weight
  | .close sid =>
    match s.findNode mask sid with
    | none => .ok s
    | some node => .ok (if (s.nodes node).stream then ngxHttpV2CloseStream s node else s)

/-- The state after a list of events. -/
def run (mask : ℕ) (events : List Event) : Except Fault Conn :=
  events.foldlM (Event.step mask) Conn.initial

/-!
# Links and queues of the priority tree

A node is in the queue of its parent, once, and in no other.
-/

open List

open Conn

theorem nodes_modify (s : Conn) (a b : ℕ) (f : Node → Node) :
    (s.modify a f).nodes b = if b = a then f (s.nodes b) else s.nodes b := rfl

/-! ## What an operation leaves alone -/

/-- The identifiers and streams of the nodes, the index and the counters are the same, and
the queue of closed nodes has the same members. -/
structure Frame (s s' : Conn) : Prop where
  id : ∀ a, (s'.nodes a).id = (s.nodes a).id
  stream : ∀ a, (s'.nodes a).stream = (s.nodes a).stream
  nnodes : s'.nnodes = s.nnodes
  streamsIndex : s'.streamsIndex = s.streamsIndex
  closed : s'.closed.Perm s.closed
  closedNodes : s'.closedNodes = s.closedNodes
  lastSid : s'.lastSid = s.lastSid

theorem Frame.refl (s : Conn) : Frame s s :=
  ⟨fun _ => rfl, fun _ => rfl, rfl, rfl, List.Perm.refl _, rfl, rfl⟩

theorem Frame.trans {s s' s'' : Conn} (h : Frame s s') (h' : Frame s' s'') : Frame s s'' where
  id := fun a => (h'.id a).trans (h.id a)
  stream := fun a => (h'.stream a).trans (h.stream a)
  nnodes := h'.nnodes.trans h.nnodes
  streamsIndex := h'.streamsIndex.trans h.streamsIndex
  closed := h'.closed.trans h.closed
  closedNodes := h'.closedNodes.trans h.closedNodes
  lastSid := h'.lastSid.trans h.lastSid

variable {a n : ℕ} {f : Node → Node} {l : Link}

/-- An assignment to fields other than the identifier and the stream. -/
theorem frame_modify (s : Conn) (a : ℕ) (hid : ∀ n, (f n).id = n.id)
    (hstream : ∀ n, (f n).stream = n.stream) : Frame s (s.modify a f) := by
  refine ⟨?_, ?_, rfl, rfl, List.Perm.refl _, rfl, rfl⟩
  · intro b
    rw [nodes_modify]
    split_ifs
    · exact hid _
    · rfl
  · intro b
    rw [nodes_modify]
    split_ifs
    · exact hstream _
    · rfl

theorem frame_modify_parent (s : Conn) (a : ℕ) (l : Link) :
    Frame s (s.modify a fun n => { n with parent := l }) :=
  frame_modify s a (fun _ => rfl) (fun _ => rfl)

theorem frame_modify_rank (s : Conn) (a k : ℕ) :
    Frame s (s.modify a fun n => { n with rank := k }) :=
  frame_modify s a (fun _ => rfl) (fun _ => rfl)

theorem frame_setQueue (s : Conn) (l : Link) (q : List ℕ) : Frame s (s.setQueue l q) := by
  cases l with
  | null => exact Frame.refl s
  | root => exact ⟨fun _ => rfl, fun _ => rfl, rfl, rfl, List.Perm.refl _, rfl, rfl⟩
  | node p =>
    exact frame_modify s p (f := fun n => { n with children := q }) (fun _ => rfl) (fun _ => rfl)

theorem frame_queueRemove (s : Conn) (a : ℕ) : Frame s (s.queueRemove a) :=
  ⟨fun _ => rfl, fun _ => rfl, rfl, rfl, List.Perm.refl _, rfl, rfl⟩

theorem frame_queueInsertAfter (s : Conn) (a b : ℕ) : Frame s (s.queueInsertAfter a b) :=
  ⟨fun _ => rfl, fun _ => rfl, rfl, rfl, List.Perm.refl _, rfl, rfl⟩

/-! ## Parents and queues after an operation -/

theorem queue_modify (s : Conn) (a : ℕ)
    (hf : ∀ n, (f n).children = n.children) (l : Link) : (s.modify a f).queue l = s.queue l := by
  cases l with
  | null => rfl
  | root => rfl
  | node p =>
    show ((s.modify a f).nodes p).children = (s.nodes p).children
    rw [nodes_modify]
    split_ifs
    · exact hf _
    · rfl

theorem queue_modify_parent (s : Conn) (a : ℕ) (k l : Link) :
    (s.modify a fun n => { n with parent := k }).queue l = s.queue l := by
  apply queue_modify
  intro _
  rfl

theorem queue_modify_rank (s : Conn) (a k : ℕ) (l : Link) :
    (s.modify a fun n => { n with rank := k }).queue l = s.queue l := by
  apply queue_modify
  intro _
  rfl

theorem queue_setQueue (s : Conn) (hl : l ≠ .null) (q : List ℕ) (l' : Link) :
    (s.setQueue l q).queue l' = if l' = l then q else s.queue l' := by
  cases l with
  | null => exact absurd rfl hl
  | root => cases l' <;> simp [setQueue, queue]
  | node p =>
    cases l' with
    | null => simp [queue]
    | root => rfl
    | node p' =>
      simp only [setQueue, queue, nodes_modify, Link.node.injEq]
      split_ifs <;> rfl

theorem parent_setQueue (s : Conn) (l : Link) (q : List ℕ) (a : ℕ) :
    ((s.setQueue l q).nodes a).parent = (s.nodes a).parent := by
  cases l with
  | null => rfl
  | root => rfl
  | node p =>
    simp only [setQueue, nodes_modify]
    split_ifs <;> rfl

theorem rank_setQueue (s : Conn) (l : Link) (q : List ℕ) (a : ℕ) :
    ((s.setQueue l q).nodes a).rank = (s.nodes a).rank := by
  cases l with
  | null => rfl
  | root => rfl
  | node p =>
    simp only [setQueue, nodes_modify]
    split_ifs <;> rfl

theorem queue_queueRemove (s : Conn) (a : ℕ) (l : Link) :
    (s.queueRemove a).queue l = (s.queue l).erase a := by
  cases l <;> rfl

theorem queue_queueInsertAfter (s : Conn) (a b : ℕ) (l : Link) :
    (s.queueInsertAfter a b).queue l = insertAfterList a b (s.queue l) := by
  cases l <;> rfl

/-- The loops that assign to all nodes of a list. -/
theorem nodes_foldl_modify (f : Node → Node) {q : List ℕ} (hq : q.Nodup) (s : Conn) (b : ℕ) :
    (q.foldl (fun s a => s.modify a f) s).nodes b = if b ∈ q then f (s.nodes b) else s.nodes b := by
  induction q generalizing s with
  | nil => simp
  | cons a q ih =>
    rw [foldl_cons, ih hq.of_cons, nodes_modify]
    rcases eq_or_ne b a with rfl | hba
    · have hnot : b ∉ q := (nodup_cons.1 hq).1
      simp [hnot]
    · simp [hba]

/-! ## Agreement -/

/-- A node is in the queue of its parent, once, and in no other. -/
structure Agree (parent : ℕ → Link) (queue : Link → List ℕ) : Prop where
  mem : ∀ l, l ≠ .null → ∀ a, a ∈ queue l ↔ parent a = l
  nodup : ∀ l, (queue l).Nodup

variable {parent parent' : ℕ → Link} {queue queue' : Link → List ℕ}

/-- Unlinking a node and putting it at the end of a queue. -/
theorem Agree.relink (h : Agree parent queue) (hp : ∀ a, parent' a = if a = n then l else parent a)
    (hq : ∀ k, queue' k = if k = l then (queue k).erase n ++ [n] else (queue k).erase n) :
    Agree parent' queue' := by
  constructor
  · intro k hk a
    have hmem := h.mem k hk a
    rw [hp, hq]
    rcases eq_or_ne a n with rfl | han
    · rw [if_pos rfl]
      split_ifs with hkl
      · simp [hkl]
      · have hnot : a ∉ (queue k).erase a := (h.nodup k).not_mem_erase
        exact iff_of_false hnot (fun heq => hkl heq.symm)
    · split_ifs with hkl
      · rw [mem_append, mem_erase_of_ne han, hmem]
        simp [han]
      · rw [mem_erase_of_ne han, hmem]
  · intro k
    rw [hq]
    split_ifs with hkl
    · rw [nodup_append]
      refine ⟨(h.nodup k).erase n, nodup_singleton n, ?_⟩
      intro a ha b hb
      rw [mem_singleton] at hb
      rw [hb]
      rintro rfl
      exact (h.nodup k).not_mem_erase ha
    · exact (h.nodup k).erase n

theorem mem_insertAfterList {b x : ℕ} {l : List ℕ} :
    x ∈ insertAfterList a b l ↔ x ∈ l ∨ x = b ∧ a ∈ l := by
  unfold insertAfterList
  rw [mem_flatMap]
  constructor
  · rintro ⟨y, hy, hx⟩
    split_ifs at hx with hya
    · rcases mem_pair.1 hx with rfl | rfl
      · exact .inl hy
      · exact .inr ⟨rfl, hya ▸ hy⟩
    · rw [mem_singleton.1 hx]
      exact .inl hy
  · rintro (hx | ⟨rfl, ha⟩)
    · refine ⟨x, hx, ?_⟩
      split_ifs <;> simp
    · exact ⟨a, ha, by simp⟩

theorem nodup_insertAfterList {b : ℕ} {l : List ℕ} (h : l.Nodup) (hb : b ∉ l) :
    (insertAfterList a b l).Nodup := by
  induction l with
  | nil => exact nodup_nil
  | cons x l ih =>
    obtain ⟨hx, hl⟩ := nodup_cons.1 h
    obtain ⟨hbx, hbl⟩ := not_or.1 (mt mem_cons.2 hb)
    have hrest := ih hl hbl
    have hxnot : x ∉ insertAfterList a b l := by
      rw [mem_insertAfterList]
      rintro (h' | ⟨rfl, -⟩)
      · exact hx h'
      · exact hbx rfl
    show ((if x = a then [x, b] else [x]) ++ insertAfterList a b l).Nodup
    split_ifs with hxa
    · have hbnot : b ∉ insertAfterList a b l := by
        rw [mem_insertAfterList]
        rintro (h' | ⟨-, h'⟩)
        · exact hbl h'
        · exact hx (hxa ▸ h')
      refine nodup_cons.2 ⟨?_, nodup_cons.2 ⟨hbnot, hrest⟩⟩
      rintro (_ | ⟨_, h'⟩)
      · exact hbx rfl
      · exact hxnot h'
    · exact nodup_cons.2 ⟨hxnot, hrest⟩

/-- Unlinking a node and putting it behind another one. -/
theorem Agree.insertAfter (h : Agree parent queue) {p : ℕ} (hnp : n ≠ p)
    (hp : ∀ a, parent' a = if a = p then parent n else parent a)
    (hq : ∀ k, queue' k = insertAfterList n p ((queue k).erase p)) : Agree parent' queue' := by
  constructor
  · intro k hk a
    rw [hp, hq, mem_insertAfterList]
    rcases eq_or_ne a p with rfl | hap
    · rw [mem_erase_of_ne hnp, h.mem k hk n]
      have hnot : a ∉ (queue k).erase a := (h.nodup k).not_mem_erase
      simp [hnot]
    · rw [mem_erase_of_ne hap, h.mem k hk a]
      simp [hap]
  · intro k
    rw [hq]
    exact nodup_insertAfterList ((h.nodup k).erase p) (h.nodup k).not_mem_erase

/-- Moving all nodes of one queue to the end of another. -/
theorem Agree.adopt (h : Agree parent queue) (hl : l ≠ .null)
    (hln : l ≠ .node n) (hp : ∀ a, parent' a = if a ∈ queue l then .node n else parent a)
    (hq : ∀ k, queue' k =
      if k = l then [] else if k = .node n then queue (.node n) ++ queue l else queue k) :
    Agree parent' queue' := by
  constructor
  · intro k hk a
    have hmem := h.mem k hk a
    have hmeml := h.mem l hl a
    rw [hp, hq]
    by_cases hal : a ∈ queue l
    · have hpa := hmeml.1 hal
      split_ifs with hkl hkn
      · simp [hkl, hln.symm]
      · simp [hkn, hal]
      · rw [hmem, hpa]
        exact iff_of_false (Ne.symm hkl) (Ne.symm hkn)
    · split_ifs with hkl hkn
      · rw [hkl]
        simp [mt hmeml.2 hal]
      · rw [hkn, ← h.mem (.node n) (by simp) a]
        simp [hal]
      · exact hmem
  · intro k
    rw [hq]
    split_ifs with hkl hkn
    · exact nodup_nil
    · rw [nodup_append]
      refine ⟨h.nodup _, h.nodup _, ?_⟩
      intro a ha b hb
      rintro rfl
      have h1 := (h.mem (.node n) (by simp) a).1 ha
      have h2 := (h.mem l hl a).1 hb
      exact hln (h2.symm.trans h1)
    · exact h.nodup k

/-- Taking a node out, with its children moved to the end of the queue it was in. -/
theorem Agree.remove (h : Agree parent queue) (ha : parent a ≠ .null) (hself : parent a ≠ .node a)
    (hp : ∀ b, parent' b =
      if b = a then .null else if parent b = .node a then parent a else parent b)
    (hq : ∀ k, queue' k = if k = .node a then []
      else if k = parent a then (queue k).erase a ++ queue (.node a) else (queue k).erase a) :
    Agree parent' queue' := by
  constructor
  · intro k hk b
    have hmem := h.mem k hk b
    have hmema := h.mem (.node a) (by simp) b
    rw [hp, hq]
    rcases eq_or_ne b a with rfl | hba
    · rw [if_pos rfl]
      have hnot : b ∉ (queue k).erase b := (h.nodup k).not_mem_erase
      have hnot' : b ∉ queue (.node b) := fun hb => hself (hmema.1 hb)
      have hnull : ¬ Link.null = k := fun heq => hk heq.symm
      split_ifs <;> simp [hnot, hnot', hnull]
    · by_cases hchild : parent b = .node a
      · split_ifs with hka hkp
        · simp [hka, hself]
        · simp [hkp, hmema, hchild]
        · rw [mem_erase_of_ne hba, hmem, hchild]
          exact iff_of_false (Ne.symm hka) (Ne.symm hkp)
      · split_ifs with hka hkp
        · simp [hka, hchild]
        · rw [mem_append, mem_erase_of_ne hba, hmem, hmema]
          simp [hchild]
        · rw [mem_erase_of_ne hba, hmem]
  · intro k
    rw [hq]
    split_ifs with hka hkp
    · exact nodup_nil
    · rw [nodup_append]
      refine ⟨(h.nodup k).erase a, h.nodup _, ?_⟩
      intro b hb c hc
      rintro rfl
      have h1 := (h.mem k (hkp ▸ ha) b).1 (mem_of_mem_erase hb)
      have h2 := (h.mem (.node a) (by simp) b).1 hc
      exact hka (h1.symm.trans h2)
    · exact (h.nodup k).erase a

end Priority

/-!
# Ranks of the priority tree

`ngx_http_v2_node_children_update` only changes ranks, and it gives every node below its
argument the rank that lies one above that of its parent.
-/

namespace Priority

open Conn

/-! ## Changes of ranks -/

/-- The state with other ranks. -/
def Conn.withRanks (s : Conn) (r : ℕ → ℕ) : Conn :=
  { s with nodes := fun a => { s.nodes a with rank := r a } }

theorem modify_rank_eq (s : Conn) (a k : ℕ) : s.modify a (fun n => { n with rank := k })
      = s.withRanks fun b => if b = a then k else (s.nodes b).rank := by
  unfold Conn.modify Conn.withRanks
  congr 1
  funext b
  by_cases hba : b = a
  · simp [hba]
  · simp [hba]

/-- `s'` is `s` with some ranks set to those of `D`. -/
def Ranked (D : ℕ → ℕ) (s s' : Conn) : Prop :=
  ∃ r, s' = s.withRanks r ∧ ∀ b, r b = (s.nodes b).rank ∨ r b = D b

namespace Ranked

variable {D : ℕ → ℕ} {s s' s'' : Conn}

theorem refl (s : Conn) : Ranked D s s := ⟨fun b => (s.nodes b).rank, rfl, fun _ => .inl rfl⟩

theorem trans (h : Ranked D s s') (h' : Ranked D s' s'') : Ranked D s s'' := by
  obtain ⟨r, rfl, hr⟩ := h
  obtain ⟨r', rfl, hr'⟩ := h'
  refine ⟨r', rfl, ?_⟩
  intro b
  rcases hr' b with hb | hb
  · rw [hb]
    exact hr b
  · exact .inr hb

theorem modify {a k : ℕ} (hk : D a = k) : Ranked D s
    (s.modify a fun n => { n with rank := k }) := by
  refine ⟨_, modify_rank_eq s a k, ?_⟩
  intro b
  split_ifs with hba
  · rw [hba, hk]
    exact .inr rfl
  · exact .inl rfl

/-- A rank that is right stays right. -/
theorem rank_eq (h : Ranked D s s') {b : ℕ} (hb : (s.nodes b).rank = D b) :
    (s'.nodes b).rank = D b := by
  obtain ⟨r, rfl, hr⟩ := h
  show r b = D b
  rcases hr b with h' | h'
  · rw [h', hb]
  · exact h'

theorem children (h : Ranked D s s') (b : ℕ) : (s'.nodes b).children = (s.nodes b).children := by
  obtain ⟨r, rfl, -⟩ := h
  rfl

theorem parent (h : Ranked D s s') (b : ℕ) : (s'.nodes b).parent = (s.nodes b).parent := by
  obtain ⟨r, rfl, -⟩ := h
  rfl

theorem queue (h : Ranked D s s') (l : Link) : s'.queue l = s.queue l := by
  obtain ⟨r, rfl, -⟩ := h
  cases l <;> rfl

theorem frame (h : Ranked D s s') : Frame s s' := by
  obtain ⟨r, rfl, -⟩ := h
  exact ⟨fun _ => rfl, fun _ => rfl, rfl, rfl, List.Perm.refl _, rfl, rfl⟩

end Ranked

/-! ## Below a node -/

/-- `b` is `a` or below it, along the queues of children. -/
inductive Below (children : ℕ → List ℕ) : ℕ → ℕ → Prop
  | self (a : ℕ) : Below children a a
  | down {a c b : ℕ} : c ∈ children a → Below children c b → Below children a b

/-- The children of a state. -/
def Conn.kids (s : Conn) (a : ℕ) : List ℕ := (s.nodes a).children

variable {D : ℕ → ℕ} {a : ℕ}

theorem Ranked.kids {s s' : Conn} (h : Ranked D s s') : s'.kids = s.kids :=
  funext h.children

theorem Below.lt_or_eq {children : ℕ → List ℕ}
    (hD : ∀ b c, c ∈ children b → D c = D b + 1) {b : ℕ} (h : Below children a b) :
    D a < D b ∨ a = b := by
  induction h with
  | self a => exact .inr rfl
  | down hc _ ih =>
    have := hD _ _ hc
    rcases ih with h' | rfl
    · exact .inl (by omega)
    · exact .inl (by omega)

/-! ## The update -/

/-- The loop over the children, given what the recursion does for each of them. -/
theorem foldl_children_spec {fuel : ℕ}
    (hrec : ∀ (s : Conn) c, (∀ b d, d ∈ s.kids b → D d = D b + 1) → (s.nodes c).rank = D c →
      Ranked D s (childrenUpdateTo fuel s c) ∧ ∀ b, Below s.kids c b → D b ≤ D c + fuel →
          ((childrenUpdateTo fuel s c).nodes b).rank = D b)
    (cs : List ℕ) (s : Conn) (hD : ∀ b d, d ∈ s.kids b → D d = D b + 1)
    (ha : (s.nodes a).rank = D a) (hcs : ∀ c ∈ cs, D c = D a + 1) :
    let s' := cs.foldl
      (fun s child => childrenUpdateTo fuel
        (s.modify child fun n => { n with rank := (s.nodes a).rank + 1 }) child) s
    Ranked D s s' ∧ ∀ c ∈ cs, ∀ b, Below s.kids c b → D b ≤ D c + fuel →
      (s'.nodes b).rank = D b := by
  induction cs generalizing s with
  | nil => exact ⟨Ranked.refl s, by simp⟩
  | cons c cs ih =>
    have hc : D c = (s.nodes a).rank + 1 := by rw [ha, hcs c List.mem_cons_self]
    have hset : Ranked D s (s.modify c fun n => { n with rank := (s.nodes a).rank + 1 }) :=
      Ranked.modify hc
    have hDset : ∀ b d, d ∈ (s.modify c fun n => { n with rank := (s.nodes a).rank + 1 }).kids b →
        D d = D b + 1 := by
      rw [hset.kids]
      exact hD
    obtain ⟨hupd, hbelow⟩ := hrec _ c hDset (by rw [nodes_modify, if_pos rfl, hc])
    have hfirst := hset.trans hupd
    obtain ⟨hrest, hbelow'⟩ := ih (childrenUpdateTo fuel
        (s.modify c fun n => { n with rank := (s.nodes a).rank + 1 }) c)
      (by rw [hfirst.kids]; exact hD) (hfirst.rank_eq ha)
      (fun c' hc' => hcs c' (List.mem_cons_of_mem _ hc'))
    refine ⟨hfirst.trans hrest, ?_⟩
    intro c' hc' b hb hle
    rcases List.mem_cons.1 hc' with rfl | hc'
    · exact hrest.rank_eq (hbelow b (by rw [hset.kids]; exact hb) hle)
    · exact hbelow' c' hc' b (by rw [hfirst.kids]; exact hb) hle

/-- **The update gives the nodes below `a` their ranks**, to the depth of the recursion,
when `D` grows by one from each node to its children and the rank of `a` is right. -/
theorem childrenUpdateTo_spec (fuel : ℕ) (s : Conn) (a : ℕ)
    (hD : ∀ b c, c ∈ s.kids b → D c = D b + 1) (ha : (s.nodes a).rank = D a) :
    Ranked D s (childrenUpdateTo fuel s a) ∧ ∀ b, Below s.kids a b → D b ≤ D a + fuel →
        ((childrenUpdateTo fuel s a).nodes b).rank = D b := by
  induction fuel generalizing s a with
  | zero =>
    refine ⟨Ranked.refl s, ?_⟩
    intro b hb hle
    rcases hb.lt_or_eq hD with hlt | rfl
    · omega
    · exact ha
  | succ fuel ih =>
    obtain ⟨hranked, hbelow⟩ := foldl_children_spec ih (s.kids a) s hD ha (fun c hc => hD a c hc)
    refine ⟨hranked, ?_⟩
    intro b hb hle
    cases hb with
    | self => exact hranked.rank_eq ha
    | @down _ c _ hc hcb =>
      have := hD a c hc
      exact hbelow c hc b hcb (by omega)

theorem childrenUpdate_spec {s : Conn}
    (hD : ∀ b c, c ∈ s.kids b → D c = D b + 1) (ha : (s.nodes a).rank = D a)
    (hbound : ∀ b, Below s.kids a b → D b ≤ s.nnodes) : Ranked D s (s.ngxHttpV2NodeChildrenUpdate a)
      ∧ ∀ b, Below s.kids a b → ((s.ngxHttpV2NodeChildrenUpdate a).nodes b).rank = D b := by
  obtain ⟨hranked, hbelow⟩ := childrenUpdateTo_spec s.nnodes s a hD ha
  refine ⟨hranked, ?_⟩
  intro b hb
  exact hbelow b hb (le_trans (hbound b hb) (Nat.le_add_left _ _))

end Priority
