/-
# The radix tree

`ngx_radix_tree.c`: a binary tree of nodes with links both ways, for prefixes of addresses
of 32 or of 128 bits.  The nodes are cut from pages of the pool one after the other; a
deleted node goes to the free list, which is linked by `right`, and is used again first.

The functions for the two lengths differ in how they find a bit of the key and of the mask,
and in what they read past the last one.  A function returns `none` where the code follows a
null pointer or reads past the address.
-/
import ReadingCode.PrefixMap
import Mathlib.Order.Interval.Finset.Nat

namespace RadixTree

/-! ## The tree -/

/-- `ngx_radix_node_t`, the pointers being numbers of nodes. -/
structure Node where
  right : Option ℕ
  left : Option ℕ
  parent : Option ℕ
  value : ℕ
  deriving DecidableEq, Repr

/-- `NGX_RADIX_NO_VALUE` -/
def ngxRadixNoValue : ℕ := 2 ^ 64 - 1

/-- `ngx_radix_tree_t`: `start` is the number of the node at the start of what is left of
the page, which is room for `size` nodes. -/
structure Tree where
  root : ℕ
  free : Option ℕ
  start : ℕ
  size : ℕ
  heap : ℕ → Node

/-- A node is written to. -/
def Tree.write (t : Tree) (p : ℕ) (node : Node) : Tree :=
  { t with heap := Function.update t.heap p node }

/-- `node->right` or `node->left` -/
def Node.child (node : Node) (bit : Bool) : Option ℕ := if bit then node.right else node.left

/-- `node->right = next` or `node->left = next` -/
def Node.setChild (node : Node) (bit : Bool) (next : Option ℕ) : Node :=
  if bit then { node with right := next } else { node with left := next }

/-- `ngx_pagesize / sizeof(ngx_radix_node_t)` -/
def nodesPerPage : ℕ := 128

/-- `ngx_radix_alloc(tree)`, when the pool has that many pages left. -/
def ngxRadixAlloc (t : Tree) (pages : ℕ) : Option (ℕ × Tree × ℕ) :=
  match t.free with
  | some p => some (p, { t with free := (t.heap p).right }, pages)
  | none =>
    if t.size = 0 then
      match pages with
      | 0 => none
      | pages + 1 =>
        some (t.start, { t with start := t.start + 1, size := nodesPerPage - 1 }, pages)
    else some (t.start, { t with start := t.start + 1, size := t.size - 1 }, pages)

/-! ## Addresses -/

/-- The two lengths of addresses. -/
inductive Kind where
  | v4
  | v6
  deriving DecidableEq, Repr

/-- An address, or a mask. -/
def Kind.Key : Kind → Type
  | .v4 => BitVec 32
  | .v6 => Fin 16 → BitVec 8

/-- The number of bits. -/
def Kind.width : Kind → ℕ
  | .v4 => 32
  | .v6 => 128

/-- The bit that is reached after `d` shifts: `key & bit` with `bit` `0x80000000 >> d`, or
`key[i] & bit` with `i` `d / 8` and `bit` `0x80 >> d % 8`. -/
def Kind.bit : (k : Kind) → k.Key → ℕ → Bool
  | .v4, key, d => BitVec.getMsbD key d
  | .v6, key, d => if h : d / 8 < 16 then BitVec.getMsbD (key ⟨d / 8, h⟩) (d % 8) else false

/-- The bit past the last one: the bit of 32 has been shifted out, and `key[16]` is not part of
the address. -/
def Kind.past : Kind → Option Bool
  | .v4 => some false
  | .v6 => none

/-! ## Insertion -/

/-- What the functions return. -/
inductive Rc where
  | ok
  | busy
  | error
  deriving DecidableEq, Repr

section

variable (k : Kind) (key mask : k.Key)

/-- The first loop of the insertion, `left` bits before the end: the bits that are left, `node`,
and whether `next` is there. -/
def descend (t : Tree) : ℕ → ℕ → ℕ × ℕ × Bool
  | 0, node => (0, node, true)
  | left + 1, node =>
    if k.bit mask (k.width - (left + 1)) then
      match (t.heap node).child (k.bit key (k.width - (left + 1))) with
      | none => (left + 1, node, false)
      | some next => descend t left next
    else (left + 1, node, true)

/-- The second loop: new nodes for the bits that are left, until there is no memory for one. -/
def extend : Tree → ℕ → ℕ → ℕ → Option ℕ × Tree
  | t, _, 0, node => (some node, t)
  | t, pages, left + 1, node =>
    if k.bit mask (k.width - (left + 1)) then
      match ngxRadixAlloc t pages with
      | none => (none, t)
      | some (next, t, pages) =>
        let t := t.write next ⟨none, none, some node, ngxRadixNoValue⟩
        let t := t.write node ((t.heap node).setChild
          (k.bit key (k.width - (left + 1))) (some next))
        extend t pages left next
    else (some node, t)

/-- `ngx_radix32tree_insert`, `ngx_radix128tree_insert` -/
def ngxRadixtreeInsert (t : Tree) (pages value : ℕ) : Rc × Tree :=
  let r := descend k key mask t k.width t.root
  if r.2.2 then
    if (t.heap r.2.1).value ≠ ngxRadixNoValue then (.busy, t)
    else (.ok, t.write r.2.1 { t.heap r.2.1 with value := value })
  else
    match extend k key mask t pages r.1 r.2.1 with
    | (none, t) => (.error, t)
    | (some node, t) => (.ok, t.write node { t.heap node with value := value })

/-! ## Deletion -/

/-- The first loop of the deletion: the node of the prefix, if there is one. -/
def locate (t : Tree) : ℕ → ℕ → Option ℕ
  | 0, node => some node
  | left + 1, node =>
    if k.bit mask (k.width - (left + 1)) then
      match (t.heap node).child (k.bit key (k.width - (left + 1))) with
      | none => none
      | some next => locate t left next
    else some node

end

/-- The pass of the second loop for the leaf `node`, whose parent is `par`: the tree without it. -/
def unlink (t : Tree) (node par : ℕ) : Tree :=
  let t :=
    if (t.heap par).right = some node then t.write par { t.heap par with right := none }
    else t.write par { t.heap par with left := none }
  let t := t.write node { t.heap node with right := t.free }
  { t with free := some node }

/-- The second loop: the leaf and then each parent that is left with nothing, no more than
`fuel` nodes.  The parent of the root is null. -/
def prune : ℕ → Tree → ℕ → Option Tree
  | 0, _, _ => none
  | fuel + 1, t, node =>
    match (t.heap node).parent with
    | none => none
    | some par =>
      let t := unlink t node par
      if (t.heap par).right ≠ none ∨ (t.heap par).left ≠ none then some t
      else if (t.heap par).value ≠ ngxRadixNoValue then some t
      else if (t.heap par).parent = none then some t
      else prune fuel t par

/-- `ngx_radix32tree_delete`, `ngx_radix128tree_delete` -/
def ngxRadixtreeDelete (k : Kind) (key mask : k.Key) (t : Tree) : Option (Rc × Tree) :=
  match locate k key mask t k.width t.root with
  | none => some (.error, t)
  | some node =>
    if (t.heap node).right ≠ none ∨ (t.heap node).left ≠ none then
      if (t.heap node).value ≠ ngxRadixNoValue then
        some (.ok, t.write node { t.heap node with value := ngxRadixNoValue })
      else some (.error, t)
    else (prune (k.width + 1) t node).map fun t => (.ok, t)

/-! ## Finding -/

/-- The loop of the search, `left` bits before the end of the address, at a node.  A node
past the last bit would be the child of one, which none has. -/
def findLoop (k : Kind) (key : k.Key) (t : Tree) : ℕ → ℕ → ℕ → Option ℕ
  | left, node, value =>
    let value := if (t.heap node).value ≠ ngxRadixNoValue then (t.heap node).value else value
    match left with
    | 0 =>
      match k.past with
      | none => none
      | some bit =>
        match (t.heap node).child bit with
        | none => some value
        | some _ => none
    | left + 1 =>
      match (t.heap node).child (k.bit key (k.width - (left + 1))) with
      | none => some value
      | some node => findLoop k key t left node value

/-- `ngx_radix32tree_find`, `ngx_radix128tree_find` -/
def ngxRadixtreeFind (k : Kind) (key : k.Key) (t : Tree) : Option ℕ :=
  findLoop k key t k.width t.root ngxRadixNoValue

/-! ## The functions of the source -/

/-- `ngx_radix32tree_insert(tree, key, mask, value)` -/
def ngxRadix32treeInsert (t : Tree) (key mask : BitVec 32) (pages value : ℕ) : Rc × Tree :=
  ngxRadixtreeInsert .v4 key mask t pages value

/-- `ngx_radix32tree_delete(tree, key, mask)` -/
def ngxRadix32treeDelete (t : Tree) (key mask : BitVec 32) : Option (Rc × Tree) :=
  ngxRadixtreeDelete .v4 key mask t

/-- `ngx_radix32tree_find(tree, key)` -/
def ngxRadix32treeFind (t : Tree) (key : BitVec 32) : Option ℕ := ngxRadixtreeFind .v4 key t

/-- `ngx_radix128tree_insert(tree, key, mask, value)` -/
def ngxRadix128treeInsert (t : Tree) (key mask : Fin 16 → BitVec 8) (pages value : ℕ) :
    Rc × Tree :=
  ngxRadixtreeInsert .v6 key mask t pages value

/-- `ngx_radix128tree_delete(tree, key, mask)` -/
def ngxRadix128treeDelete (t : Tree) (key mask : Fin 16 → BitVec 8) : Option (Rc × Tree) :=
  ngxRadixtreeDelete .v6 key mask t

/-- `ngx_radix128tree_find(tree, key)` -/
def ngxRadix128treeFind (t : Tree) (key : Fin 16 → BitVec 8) : Option ℕ :=
  ngxRadixtreeFind .v6 key t

/-! ## Creation -/

/-- A tree of the root alone, which is the first node of a page. -/
def Tree.empty : Tree where
  root := 0
  free := none
  start := 1
  size := nodesPerPage - 1
  heap := fun _ => ⟨none, none, none, ngxRadixNoValue⟩

/-- `do { … key += inc; } while (key);` -/
def preallocateKeys (inc : BitVec 32) : List (BitVec 32) :=
  (List.range (if inc = 0 then 1 else 2 ^ 32 / inc.toNat)).map fun i =>
    BitVec.ofNat 32 (i * inc.toNat)

/-- The inner loop: nodes for all prefixes of one length. -/
def preallocateLevel (mask : BitVec 32) (pages : ℕ) : List (BitVec 32) → Tree → Option Tree
  | [], t => some t
  | key :: keys, t =>
    match ngxRadix32treeInsert t key mask pages ngxRadixNoValue with
    | (.ok, t) => preallocateLevel mask pages keys t
    | _ => none

/-- `while (preallocate--)` -/
def preallocateLoop (pages : ℕ) : ℕ → BitVec 32 → BitVec 32 → Tree → Option Tree
  | 0, _, _, t => some t
  | n + 1, mask, inc, t =>
    let mask := mask >>> 1 ||| 0x80000000#32
    match preallocateLevel mask pages (preallocateKeys inc) t with
    | none => none
    | some t => preallocateLoop pages n mask (inc >>> 1) t

/-- `ngx_radix_tree_create(pool, preallocate)`, where each insertion may take that many pages:
what -1 stands for is a matter of the page size. -/
def ngxRadixTreeCreate (pages preallocate : ℕ) : Option Tree :=
  preallocateLoop pages preallocate 0 0x80000000#32 Tree.empty

/-!
# The nodes of the radix tree

From the root each word of bits leads to one node at most; the free list is a chain of nodes that no
word leads to.  Every change keeps that, and changes the prefix map in one place.
-/

open List

/-! ## The invariant -/

/-- The link of a node. -/
def Tree.child (t : Tree) (p : ℕ) (bit : Bool) : Option ℕ := (t.heap p).child bit

/-- The node of a prefix. -/
def Tree.walk (t : Tree) (q : List Bool) : Option ℕ := LinkedTree.walk t.child t.root q

/-- `NGX_RADIX_NO_VALUE` is no value. -/
def valueOf (v : ℕ) : Option ℕ := if v = ngxRadixNoValue then none else some v

/-- The prefix map that the tree stands for. -/
def Tree.toMap (t : Tree) (q : List Bool) : Option ℕ :=
  (t.walk q).bind fun p => valueOf (t.heap p).value

/-- The nodes linked by `right` from `free` on. -/
def FreeList (heap : ℕ → Node) : Option ℕ → List ℕ → Prop
  | none, l => l = []
  | some _, [] => False
  | some p, q :: l => p = q ∧ FreeList heap (heap p).right l

/-- The invariant of a tree for prefixes of up to `w` bits. -/
structure Inv (w : ℕ) (t : Tree) : Prop where
  tree : LinkedTree.IsTree t.child t.root
  root_parent : (t.heap t.root).parent = none
  parent : ∀ {q p b c}, t.walk q = some p → t.child p b = some c → (t.heap c).parent = some p
  depth : ∀ {q p}, t.walk q = some p → q.length ≤ w
  lt_start : ∀ {q p}, t.walk q = some p → p < t.start
  free : ∃ l, FreeList t.heap t.free l ∧ l.Nodup ∧ ∀ p ∈ l, p < t.start ∧ ∀ q, t.walk q ≠ some p

section

variable {w : ℕ} {t : Tree} {q p : List Bool} {a n : ℕ} {b : Bool}

@[simp] theorem walk_root : t.walk [] = some t.root := rfl

theorem walk_concat (q : List Bool) (b : Bool) :
    t.walk (q ++ [b]) = (t.walk q).bind fun p => t.child p b :=
  LinkedTree.walk_concat q b

theorem toMap_of_walk (h : t.walk q = some a) : t.toMap q = valueOf (t.heap a).value := by
  rw [Tree.toMap, h]
  rfl

theorem toMap_eq_none_of_walk (h : t.walk q = none) : t.toMap q = none := by
  rw [Tree.toMap, h]
  rfl

@[simp] theorem valueOf_noValue : valueOf ngxRadixNoValue = none := if_pos rfl

theorem valueOf_eq_none_iff {v : ℕ} : valueOf v = none ↔ v = ngxRadixNoValue := by
  simp [valueOf]

/-- The chain of free nodes does not depend on other nodes. -/
theorem FreeList.congr {heap heap' : ℕ → Node} {free : Option ℕ} {l : List ℕ}
    (h : FreeList heap free l) (heq : ∀ p ∈ l, (heap' p).right = (heap p).right) :
    FreeList heap' free l := by
  induction l generalizing free with
  | nil =>
    cases free with
    | none => exact h
    | some p => exact h.elim
  | cons p l ih =>
    cases free with
    | none => exact h
    | some p' =>
      obtain ⟨rfl, h⟩ := h
      refine ⟨rfl, ?_⟩
      rw [heq p' mem_cons_self]
      exact ih h fun x hx => heq x (mem_cons_of_mem _ hx)

/-- The tree of the root alone. -/
theorem inv_empty (w : ℕ) : Inv w Tree.empty := by
  have hwalk : ∀ q p, Tree.empty.walk q = some p → q = [] ∧ p = 0 := by
    intro q p h
    cases q with
    | nil => exact ⟨rfl, (Option.some.inj h).symm⟩
    | cons b q => cases b <;> simp [Tree.walk, LinkedTree.walk, Tree.child, Tree.empty,
        Node.child] at h
  refine ⟨fun q r p hq hr => ?_, rfl, fun {q p b c} _ hc => ?_, fun {q p} h => ?_,
    fun {q p} h => ?_, [], rfl, .nil, by simp⟩
  · rw [(hwalk q p hq).1, (hwalk r p hr).1]
  · cases b <;> simp [Tree.child, Tree.empty, Node.child] at hc
  · simp [(hwalk q p h).1]
  · simp [(hwalk q p h).2, Tree.empty]

theorem toMap_empty : Tree.empty.toMap = fun _ => none := by
  funext q
  cases q with
  | nil => rfl
  | cons b q => cases b <;> rfl

/-! ## Another value -/

/-- A node is given another value. -/
def Tree.setValue (t : Tree) (p v : ℕ) : Tree := t.write p { t.heap p with value := v }

theorem heap_write (t : Tree) (p : ℕ) (node : Node) (x : ℕ) :
    (t.write p node).heap x = if x = p then node else t.heap x := by
  simp only [Tree.write, Function.update_apply]

theorem heap_setValue (t : Tree) (p v x : ℕ) :
    (t.setValue p v).heap x = { t.heap x with value := if x = p then v else (t.heap x).value } := by
  rw [Tree.setValue, heap_write]
  by_cases hx : x = p
  · simp [hx]
  · simp [hx]

theorem child_setValue (t : Tree) (p v : ℕ) : (t.setValue p v).child = t.child := by
  funext x c
  simp only [Tree.child, heap_setValue]
  cases c <;> rfl

theorem walk_setValue (t : Tree) (p v : ℕ) (q : List Bool) :
    (t.setValue p v).walk q = t.walk q := by
  rw [Tree.walk, child_setValue]
  rfl

theorem Inv.setValue (h : Inv w t) (p v : ℕ) : Inv w (t.setValue p v) where
  tree := by
    rw [child_setValue]
    exact h.tree
  root_parent := by
    rw [heap_setValue]
    exact h.root_parent
  parent {q x c y} hq hc := by
    rw [walk_setValue] at hq
    rw [child_setValue] at hc
    rw [heap_setValue]
    exact h.parent hq hc
  depth hq := h.depth (by rwa [walk_setValue] at hq)
  lt_start hq := h.lt_start (by rwa [walk_setValue] at hq)
  free := by
    obtain ⟨l, hl, hnodup, hmem⟩ := h.free
    refine ⟨l, hl.congr fun x _ => by rw [heap_setValue], hnodup, fun x hx => ?_⟩
    refine ⟨(hmem x hx).1, fun q => ?_⟩
    rw [walk_setValue]
    exact (hmem x hx).2 q

/-- One prefix has another value. -/
theorem Inv.toMap_setValue (h : Inv w t) (hp : t.walk p = some a) (v : ℕ) :
    (t.setValue a v).toMap = PrefixMap.set t.toMap p (valueOf v) := by
  funext q
  simp only [Tree.toMap, walk_setValue, PrefixMap.set, heap_setValue]
  by_cases hq : q = p
  · simp [hq, hp]
  · rw [if_neg hq]
    rcases hx : t.walk q with _ | x
    · rfl
    · have hxa : x ≠ a := by
        rintro rfl
        exact hq (h.tree hx hp)
      simp [hxa]

/-! ## A new leaf -/

variable {pages : ℕ}

/-- What the allocator gives is no node of the tree, nor is it free any more. -/
theorem Inv.alloc (h : Inv w t) {pages' : ℕ} {t' : Tree}
    (halloc : ngxRadixAlloc t pages = some (n, t', pages')) :
    t'.root = t.root ∧ t'.heap = t.heap ∧ t.start ≤ t'.start ∧ n < t'.start
      ∧ (∀ q, t.walk q ≠ some n) ∧ pages ≤ pages' + 1
      ∧ ∃ l, FreeList t'.heap t'.free l ∧ l.Nodup ∧ n ∉ l
        ∧ ∀ p ∈ l, p < t.start ∧ ∀ q, t.walk q ≠ some p := by
  obtain ⟨l, hl, hnodup, hmem⟩ := h.free
  have hnew : ∀ q, t.walk q ≠ some t.start := fun q hq => lt_irrefl _ (h.lt_start hq)
  rcases hfree : t.free with _ | p
  · have hl' : FreeList t.heap none [] := rfl
    simp only [ngxRadixAlloc, hfree] at halloc
    split at halloc
    · cases pages with
      | zero => cases halloc
      | succ pages =>
        cases halloc
        exact ⟨rfl, rfl, Nat.le_succ _, Nat.lt_succ_self _, hnew, le_rfl, [], by simpa [hfree]
          using hl', .nil, by simp, by simp⟩
    · cases halloc
      exact ⟨rfl, rfl, Nat.le_succ _, Nat.lt_succ_self _, hnew, Nat.le_succ _, [],
        by simpa [hfree] using hl', .nil, by simp, by simp⟩
  · rw [hfree] at hl
    rcases l with _ | ⟨p', l⟩
    · exact hl.elim
    obtain ⟨rfl, hl⟩ := hl
    simp only [ngxRadixAlloc, hfree] at halloc
    cases halloc
    obtain ⟨hp, hnodup⟩ := nodup_cons.1 hnodup
    have hmem' := hmem _ mem_cons_self
    exact ⟨rfl, rfl, le_rfl, hmem'.1, hmem'.2, Nat.le_succ _, l, hl, hnodup, hp,
      fun x hx => hmem x (mem_cons_of_mem _ hx)⟩

theorem alloc_eq_none (h : ngxRadixAlloc t pages = none) : pages = 0 := by
  unfold ngxRadixAlloc at h
  split at h
  · cases h
  · split at h
    · cases pages with
      | zero => rfl
      | succ pages => cases h
    · cases h

/-- The writes of the insertion for one new node. -/
def Tree.attach (t : Tree) (node : ℕ) (bit : Bool) (next : ℕ) : Tree :=
  let t := t.write next ⟨none, none, some node, ngxRadixNoValue⟩
  t.write node ((t.heap node).setChild bit (some next))

theorem child_setChild (node : Node) (bit : Bool) (next : Option ℕ) (c : Bool) :
    (node.setChild bit next).child c = if c = bit then next else node.child c := by
  cases bit <;> cases c <;> rfl

theorem setChild_parent (node : Node) (bit : Bool) (next : Option ℕ) :
    (node.setChild bit next).parent = node.parent := by
  cases bit <;> rfl

theorem setChild_value (node : Node) (bit : Bool) (next : Option ℕ) :
    (node.setChild bit next).value = node.value := by
  cases bit <;> rfl

/-- A node that was not in the tree becomes a leaf of it. -/
theorem Inv.attach (h : Inv w t) {pages' : ℕ} {t' : Tree}
    (halloc : ngxRadixAlloc t pages = some (n, t', pages')) (hp : t.walk p = some a)
    (hfree : t.child a b = none) (hlen : p.length < w) : Inv w (t'.attach a b n)
      ∧ (∀ q, (t'.attach a b n).walk q = if q = p ++ [b] then some n else t.walk q)
      ∧ (∀ c, (t'.attach a b n).child n c = none) ∧ (t'.attach a b n).toMap = t.toMap := by
  obtain ⟨hroot, hheap, hstart, hn, hnew, -, l, hl, hnodup, hnl, hmem⟩ := h.alloc halloc
  have han : a ≠ n := fun e => hnew p (e ▸ hp)
  have hattach : ∀ x, (t'.attach a b n).heap x = if x = a then (t.heap a).setChild b (some n)
      else if x = n then ⟨none, none, some a, ngxRadixNoValue⟩ else t.heap x := by
    intro x
    simp only [Tree.attach, heap_write, hheap, if_neg han]
  have hparent : ∀ x, x ≠ n → ((t'.attach a b n).heap x).parent = (t.heap x).parent := by
    intro x hx
    rw [hattach, if_neg hx]
    by_cases hxa : x = a
    · rw [if_pos hxa, setChild_parent, hxa]
    · rw [if_neg hxa]
  have hvalue : ∀ x, x ≠ n → ((t'.attach a b n).heap x).value = (t.heap x).value := by
    intro x hx
    rw [hattach, if_neg hx]
    by_cases hxa : x = a
    · rw [if_pos hxa, setChild_value, hxa]
    · rw [if_neg hxa]
  have hleaf : ∀ c, (t'.attach a b n).child n c = none := by
    intro c
    rw [Tree.child, hattach, if_neg (Ne.symm han), if_pos rfl]
    cases c <;> rfl
  have hchild : ∀ x c, x ≠ n → (t'.attach a b n).child x c
      = if x = a ∧ c = b then some n else t.child x c := by
    intro x c hx
    rw [Tree.child, hattach, if_neg hx]
    by_cases hxa : x = a
    · subst hxa
      simp [child_setChild, Tree.child]
    · simp [hxa, Tree.child]
  have hroot' : (t'.attach a b n).root = t.root := hroot
  have hwalk : ∀ q, (t'.attach a b n).walk q = if q = p ++ [b] then some n else t.walk q := by
    intro q
    rw [Tree.walk, hroot']
    exact LinkedTree.walk_attach h.tree hp hfree hnew hleaf hchild q
  refine ⟨⟨?_, ?_, ?_, ?_, ?_, ?_⟩, hwalk, hleaf, ?_⟩
  · rw [hroot']
    exact h.tree.attach hp hfree hnew hleaf hchild
  · have hrn : t.root ≠ n := fun e => hnew [] (congrArg some e)
    rw [hroot', hparent _ hrn]
    exact h.root_parent
  · intro q x c y hq hc
    rw [hwalk] at hq
    split at hq
    · cases hq
      rw [hleaf] at hc
      cases hc
    · have hxn : x ≠ n := fun e => hnew q (e ▸ hq)
      rw [hchild x c hxn] at hc
      split at hc
      · obtain ⟨rfl, rfl⟩ := ‹x = a ∧ c = b›
        cases hc
        rw [hattach, if_neg (Ne.symm han), if_pos rfl]
      · have hy : t.walk (q ++ [c]) = some y := by rw [walk_concat, hq]; exact hc
        have hyn : y ≠ n := fun e => hnew _ (e ▸ hy)
        rw [hparent y hyn]
        exact h.parent hq hc
  · intro q x hq
    rw [hwalk] at hq
    split at hq
    · subst_vars
      rw [length_append]
      exact hlen
    · exact h.depth hq
  · intro q x hq
    rw [hwalk] at hq
    split at hq
    · cases hq
      exact hn
    · exact lt_of_lt_of_le (h.lt_start hq) hstart
  · refine ⟨l, hl.congr fun x hx => ?_, hnodup,
      fun x hx => ⟨lt_of_lt_of_le (hmem x hx).1 hstart, ?_⟩⟩
    · have hxa : x ≠ a := fun e => (hmem x hx).2 p (e ▸ hp)
      have hxn : x ≠ n := fun e => hnl (e ▸ hx)
      rw [hattach, if_neg hxa, if_neg hxn, hheap]
    · intro q hq
      rw [hwalk] at hq
      split at hq
      · cases hq
        exact hnl hx
      · exact (hmem x hx).2 q hq
  · funext q
    rw [Tree.toMap, hwalk]
    split
    · subst_vars
      have hnone : t.walk (p ++ [b]) = none := by rw [walk_concat, hp]; exact hfree
      rw [toMap_eq_none_of_walk hnone, Option.bind_some, hattach, if_neg (Ne.symm han), if_pos rfl]
      exact valueOf_noValue
    · rw [Tree.toMap]
      rcases hx : t.walk q with _ | x
      · rfl
      · have hxn : x ≠ n := fun e => hnew q (e ▸ hx)
        simp only [Option.bind_some, hvalue x hxn]

/-! ## A leaf taken away -/

/-- A leaf leaves the tree for the free list. -/
theorem Inv.detach (h : Inv w t) (hp : t.walk p = some a) (hb : t.child a b = some n)
    (hleaf : ∀ c, t.child n c = none) : Inv w (unlink t n a)
      ∧ (∀ q, (unlink t n a).walk q = if q = p ++ [b] then none else t.walk q)
      ∧ (unlink t n a).toMap = PrefixMap.set t.toMap (p ++ [b]) none := by
  have hn : t.walk (p ++ [b]) = some n := by rw [walk_concat, hp]; exact hb
  have han : a ≠ n := by
    rintro rfl
    simpa using congrArg List.length (h.tree hp hn)
  -- The test of the right link finds the link of the leaf.
  have hlink : (if (t.heap a).right = some n then t.write a { t.heap a with right := none }
      else t.write a { t.heap a with left := none }) = t.write a ((t.heap a).setChild b none) := by
    cases b with
    | true => exact if_pos hb
    | false =>
      have hright : (t.heap a).right ≠ some n := by
        intro hr
        have hn' : t.walk (p ++ [true]) = some n := by rw [walk_concat, hp]; exact hr
        simpa using h.tree hn hn'
      exact if_neg hright
  have hheap : ∀ x, (unlink t n a).heap x = if x = n then { t.heap n with right := t.free }
      else if x = a then (t.heap a).setChild b none else t.heap x := by
    intro x
    unfold unlink
    rw [hlink]
    simp only [heap_write, if_neg (Ne.symm han)]
    rfl
  have hparent : ∀ x, x ≠ n → ((unlink t n a).heap x).parent = (t.heap x).parent := by
    intro x hx
    rw [hheap, if_neg hx]
    by_cases hxa : x = a
    · rw [if_pos hxa, setChild_parent, hxa]
    · rw [if_neg hxa]
  have hvalue : ∀ x, x ≠ n → ((unlink t n a).heap x).value = (t.heap x).value := by
    intro x hx
    rw [hheap, if_neg hx]
    by_cases hxa : x = a
    · rw [if_pos hxa, setChild_value, hxa]
    · rw [if_neg hxa]
  have hroot' : (unlink t n a).root = t.root := by
    unfold unlink
    rw [hlink]
    rfl
  have hstart : (unlink t n a).start = t.start := by
    unfold unlink
    rw [hlink]
    rfl
  have hchild : ∀ x c, x ≠ n → (unlink t n a).child x c
      = if x = a ∧ c = b then none else t.child x c := by
    intro x c hx
    rw [Tree.child, hheap, if_neg hx]
    by_cases hxa : x = a
    · subst hxa
      simp [child_setChild, Tree.child]
    · simp [hxa, Tree.child]
  have hwalk : ∀ q, (unlink t n a).walk q = if q = p ++ [b] then none else t.walk q := by
    intro q
    rw [Tree.walk, hroot']
    exact LinkedTree.walk_detach h.tree hp hb hleaf hchild q
  have hold : ∀ {q x}, (unlink t n a).walk q = some x → t.walk q = some x ∧ x ≠ n := by
    intro q x hq
    rw [hwalk] at hq
    split at hq
    · cases hq
    · rename_i hne
      refine ⟨hq, ?_⟩
      rintro rfl
      exact hne (h.tree hq hn)
  refine ⟨⟨?_, ?_, ?_, ?_, ?_, ?_⟩, hwalk, ?_⟩
  · rw [hroot']
    exact h.tree.detach hp hb hleaf hchild
  · have hrn : t.root ≠ n := by
      intro e
      have := h.tree (show t.walk [] = some n from congrArg some e) hn
      simp at this
    rw [hroot', hparent _ hrn]
    exact h.root_parent
  · intro q x c y hq hc
    obtain ⟨hq', hxn⟩ := hold hq
    have hy := (hold (q := q ++ [c]) (x := y) (by rw [walk_concat, hq]; exact hc)).2
    rw [hchild x c hxn] at hc
    split at hc
    · cases hc
    · rw [hparent y hy]
      exact h.parent hq' hc
  · exact fun hq => h.depth (hold hq).1
  · intro q x hq
    rw [hstart]
    exact h.lt_start (hold hq).1
  · obtain ⟨l, hl, hnodup, hmem⟩ := h.free
    have hnl : n ∉ l := fun hx => (hmem n hx).2 _ hn
    refine ⟨n :: l, ?_, nodup_cons.2 ⟨hnl, hnodup⟩, fun x hx => ?_⟩
    · refine ⟨rfl, ?_⟩
      rw [hheap, if_pos rfl]
      refine hl.congr fun x hx => ?_
      have hxn : x ≠ n := fun e => hnl (e ▸ hx)
      have hxa : x ≠ a := fun e => (hmem x hx).2 p (e ▸ hp)
      rw [hheap, if_neg hxn, if_neg hxa]
    · rw [hstart]
      rcases mem_cons.1 hx with rfl | hx
      · exact ⟨h.lt_start hn, fun q hq => (hold hq).2 rfl⟩
      · exact ⟨(hmem x hx).1, fun q hq => (hmem x hx).2 q (hold hq).1⟩
  · funext q
    rw [Tree.toMap, hwalk, PrefixMap.set]
    split
    · rfl
    · rename_i hne
      rw [Tree.toMap]
      rcases hx : t.walk q with _ | x
      · rfl
      · have hxn : x ≠ n := by
          rintro rfl
          exact hne (h.tree hx hn)
        simp only [Option.bind_some, hvalue x hxn]

end

/-!
# The radix tree is a prefix map

A search finds the value of the longest prefix of the address, except in three cases.  The deletion
of the empty prefix follows the null parent of the root when the root has no child; the deletion of
a leaf that has no value succeeds; and the search for an address of 128 bits that has a node reads a
byte past the address.
-/

open Option

section

variable {w : ℕ} {t : Tree} {k : Kind} {key mask : k.Key}

/-! ## The bits of a prefix -/

/-- The bits the loops follow when `left` bits are left: up to the first that is masked out. -/
def bitsFrom (k : Kind) (key mask : k.Key) : ℕ → List Bool
  | 0 => []
  | left + 1 =>
    if k.bit mask (k.width - (left + 1)) then
      k.bit key (k.width - (left + 1)) :: bitsFrom k key mask left
    else []

/-- The prefix of a key and a mask. -/
def prefixBits (k : Kind) (key mask : k.Key) : List Bool := bitsFrom k key mask k.width

/-- The bits of an address. -/
def addressBits (k : Kind) (key : k.Key) : List Bool := (List.range k.width).map (k.bit key)

/-! ## The loops -/

/-- The bits `q` have been followed to `node'`, which has no link for the next, if there is one. -/
theorem descend_spec (t : Tree) (key mask : k.Key) (left node : ℕ) :
    ∃ q r, bitsFrom k key mask left = q ++ r
      ∧ LinkedTree.walk t.child node q = some (descend k key mask t left node).2.1
      ∧ bitsFrom k key mask (descend k key mask t left node).1 = r
      ∧ q.length + (descend k key mask t left node).1 = left
      ∧ ((descend k key mask t left node).2.2 = true → r = [])
      ∧ ((descend k key mask t left node).2.2 = false →
          ∃ b r', r = b :: r' ∧ t.child (descend k key mask t left node).2.1 b = none) := by
  induction left generalizing node with
  | zero => exact ⟨[], [], rfl, rfl, rfl, rfl, fun _ => rfl, fun h => by simp [descend] at h⟩
  | succ left ih =>
    by_cases hmask : k.bit mask (k.width - (left + 1)) = true
    · have hbits : bitsFrom k key mask (left + 1)
          = k.bit key (k.width - (left + 1)) :: bitsFrom k key mask left := by
        rw [bitsFrom, if_pos hmask]
      rcases hnext : (t.heap node).child (k.bit key (k.width - (left + 1))) with _ | next
      · have hd : descend k key mask t (left + 1) node = (left + 1, node, false) := by
          simp only [descend, hmask, if_true, hnext]
        rw [hd]
        exact ⟨[], _, rfl, rfl, rfl, by simp, fun h => by simp at h,
          fun _ => ⟨_, _, hbits, hnext⟩⟩
      · have hd : descend k key mask t (left + 1) node = descend k key mask t left next := by
          simp only [descend, hmask, if_true, hnext]
        rw [hd]
        obtain ⟨q, r, h1, h2, h3, h4, h5, h6⟩ := ih next
        refine ⟨k.bit key (k.width - (left + 1)) :: q, r, ?_, ?_, h3, ?_, h5, h6⟩
        · rw [hbits, h1]
          rfl
        · rw [LinkedTree.walk, Tree.child, hnext]
          exact h2
        · simp only [length_cons]
          omega
    · have hd : descend k key mask t (left + 1) node = (left + 1, node, true) := by
        rw [descend, if_neg hmask]
      have hbits : bitsFrom k key mask (left + 1) = [] := by rw [bitsFrom, if_neg hmask]
      rw [hd]
      exact ⟨[], [], hbits, rfl, hbits, by simp, fun _ => rfl, fun h => by simp at h⟩

variable {node : ℕ} {p : List Bool}

/-- The new nodes lead to the prefix, or there was no memory for one of them. -/
theorem extend_spec (key mask : k.Key) (pages left : ℕ)
    (hinv : Inv w t) (hp : t.walk p = some node) (hlen : p.length + left ≤ w)
    (hfree : ∀ b, (bitsFrom k key mask left).head? = some b → t.child node b = none) :
    Inv w (extend k key mask t pages left node).2
      ∧ (extend k key mask t pages left node).2.toMap = t.toMap
      ∧ match (extend k key mask t pages left node).1 with
        | none => pages < (bitsFrom k key mask left).length
        | some node' => (extend k key mask t pages left node).2.walk
            (p ++ bitsFrom k key mask left) = some node' := by
  induction left generalizing t pages node p with
  | zero => exact ⟨hinv, rfl, by simpa [extend, bitsFrom] using hp⟩
  | succ left ih =>
    by_cases hmask : k.bit mask (k.width - (left + 1)) = true
    · have hbits : bitsFrom k key mask (left + 1)
          = k.bit key (k.width - (left + 1)) :: bitsFrom k key mask left := by
        rw [bitsFrom, if_pos hmask]
      rw [hbits] at hfree ⊢
      have hnone := hfree _ rfl
      rcases halloc : ngxRadixAlloc t pages with _ | ⟨next, t', pages'⟩
      · have he : extend k key mask t pages (left + 1) node = (none, t) := by
          simp only [extend, hmask, if_true, halloc]
        rw [he]
        refine ⟨hinv, rfl, ?_⟩
        rw [alloc_eq_none halloc]
        simp
      · have he : extend k key mask t pages (left + 1) node
            = extend k key mask (t'.attach node (k.bit key (k.width - (left + 1))) next) pages'
              left next := by
          simp only [extend, hmask, if_true, halloc]
          rfl
        obtain ⟨hinv', hwalk, hleaf, hmap⟩ := hinv.attach halloc hp hnone (by omega)
        obtain ⟨-, -, -, -, -, hpages, -⟩ := hinv.alloc halloc
        have hnext := hwalk (p ++ [k.bit key (k.width - (left + 1))])
        rw [if_pos rfl] at hnext
        obtain ⟨h1, h2, h3⟩ := ih pages' hinv' hnext
          (by rw [length_append, length_singleton]; omega) (fun b _ => hleaf b)
        rw [he]
        refine ⟨h1, h2.trans hmap, ?_⟩
        split
        · rename_i hnone'
          rw [hnone'] at h3
          simp only [length_cons]
          omega
        · rename_i node' hsome
          rw [hsome] at h3
          simpa using h3
    · have he : extend k key mask t pages (left + 1) node = (some node, t) := by
        rw [extend, if_neg hmask]
      have hbits : bitsFrom k key mask (left + 1) = [] := by rw [bitsFrom, if_neg hmask]
      rw [he, hbits]
      exact ⟨hinv, rfl, by simpa using hp⟩

/-- The node of the prefix is the one its bits lead to. -/
theorem locate_spec (left node : ℕ) :
    locate k key mask t left node = LinkedTree.walk t.child node (bitsFrom k key mask left) := by
  induction left generalizing node with
  | zero => rfl
  | succ left ih =>
    rw [locate, bitsFrom]
    by_cases hmask : k.bit mask (k.width - (left + 1)) = true
    · rw [if_pos hmask, if_pos hmask, LinkedTree.walk, Tree.child]
      rcases (t.heap node).child (k.bit key (k.width - (left + 1))) with _ | next
      · rfl
      · exact ih next
    · rw [if_neg hmask, if_neg hmask]
      rfl

/-! ## Insertion -/

/-- What an insertion does to the map. -/
theorem insert_spec (key mask : k.Key) (hinv : Inv w t) (hw : k.width ≤ w) (pages value : ℕ) :
    Inv w (ngxRadixtreeInsert k key mask t pages value).2
      ∧ if t.toMap (prefixBits k key mask) = none then
          (ngxRadixtreeInsert k key mask t pages value).1 = .ok
              ∧ (ngxRadixtreeInsert k key mask t pages value).2.toMap
                = PrefixMap.set t.toMap (prefixBits k key mask) (valueOf value)
            ∨ (ngxRadixtreeInsert k key mask t pages value).1 = .error
              ∧ (ngxRadixtreeInsert k key mask t pages value).2.toMap = t.toMap
              ∧ pages < (prefixBits k key mask).length
        else ngxRadixtreeInsert k key mask t pages value = (.busy, t) := by
  obtain ⟨q, r, hbits, hq, hr, hlen, hfound, hnot⟩ :=
    descend_spec t key mask k.width t.root
  rw [← prefixBits] at hbits
  rcases hd : descend k key mask t k.width t.root with ⟨left, node, found⟩
  rw [hd] at hq hr hlen hfound hnot
  have hq' : t.walk q = some node := hq
  cases found with
  | true =>
    obtain rfl := hfound rfl
    rw [append_nil] at hbits
    rw [hbits, toMap_of_walk hq']
    simp only [ngxRadixtreeInsert, hd, if_true, valueOf_eq_none_iff]
    by_cases hv : (t.heap node).value = ngxRadixNoValue
    · rw [if_neg (not_not.2 hv), if_pos hv]
      exact ⟨hinv.setValue node value, .inl ⟨rfl, hinv.toMap_setValue hq' value⟩⟩
    · rw [if_pos hv, if_neg hv]
      exact ⟨hinv, rfl⟩
  | false =>
    obtain ⟨b, r', rfl, hnone⟩ := hnot rfl
    have hmap : t.toMap (prefixBits k key mask) = none := by
      refine toMap_eq_none_of_walk ?_
      rw [hbits, Tree.walk, LinkedTree.walk_append, hq]
      simp only [bind_some, LinkedTree.walk, hnone, bind_none]
    rw [if_pos hmap]
    obtain ⟨h1, h2, h3⟩ := extend_spec key mask pages left hinv hq' (by omega) (fun b' hb' => by
        rw [hr] at hb'
        cases hb'
        exact hnone)
    simp only [ngxRadixtreeInsert, hd, Bool.false_eq_true, if_false]
    rcases he : extend k key mask t pages left node with ⟨o, t'⟩
    rw [he] at h1 h2 h3
    cases o with
    | none =>
      refine ⟨h1, .inr ⟨rfl, h2, ?_⟩⟩
      rw [hr] at h3
      rw [hbits, length_append]
      omega
    | some node' =>
      rw [hr, ← hbits] at h3
      refine ⟨h1.setValue node' value, .inl ⟨rfl, ?_⟩⟩
      rw [← h2]
      exact h1.toMap_setValue h3 value

/-! ## Deletion -/

/-- A leaf is taken away with all that leads to nothing else. -/
theorem prune_spec (fuel : ℕ) (hinv : Inv w t)
    (hp : t.walk p = some node) (hne : p ≠ []) (hleaf : ∀ c, t.child node c = none)
    (hfuel : p.length ≤ fuel) :
    ∃ t', prune fuel t node = some t' ∧ Inv w t' ∧ t'.toMap = PrefixMap.set t.toMap p none := by
  induction fuel generalizing t p node with
  | zero =>
    exact absurd (eq_nil_of_length_eq_zero (Nat.le_zero.1 hfuel)) hne
  | succ fuel ih =>
    obtain ⟨q, b, rfl⟩ : ∃ q b, p = q ++ [b] :=
      ⟨p.dropLast, p.getLast hne, (dropLast_append_getLast hne).symm⟩
    rw [length_append, length_singleton] at hfuel
    rw [walk_concat] at hp
    rcases hq : t.walk q with _ | par
    · rw [hq] at hp
      cases hp
    rw [hq] at hp
    have hb : t.child par b = some node := hp
    obtain ⟨hinv', hwalk, hmap⟩ := hinv.detach hq hb hleaf
    have hq' : (unlink t node par).walk q = some par := by
      rw [hwalk, if_neg (by simp), hq]
    rw [prune, hinv.parent hq hb]
    simp only
    split
    · exact ⟨_, rfl, hinv', hmap⟩
    rename_i hchild
    rw [not_or, not_not, not_not] at hchild
    split
    · exact ⟨_, rfl, hinv', hmap⟩
    rename_i hvalue
    rw [not_not] at hvalue
    split
    · exact ⟨_, rfl, hinv', hmap⟩
    rename_i hpar
    -- The parent is left with nothing, and is not the root.
    have hq0 : q ≠ [] := by
      rintro rfl
      have hroot : (unlink t node par).root = par := Option.some.inj hq'
      have hnull := hinv'.root_parent
      rw [hroot] at hnull
      exact hpar hnull
    have hleaf' : ∀ c, (unlink t node par).child par c = none := by
      intro c
      cases c
      · exact hchild.2
      · exact hchild.1
    obtain ⟨t', h1, h2, h3⟩ := ih hinv' hq' hq0 hleaf' (by omega)
    refine ⟨t', h1, h2, ?_⟩
    rw [h3, hmap]
    funext r
    simp only [PrefixMap.set]
    by_cases hr : r = q
    · have hnone := toMap_of_walk hq'
      rw [hmap, hvalue] at hnone
      rw [if_pos hr, hr]
      exact hnone.symm
    · rw [if_neg hr]

/-- The deletion of the prefix `p` goes wrong: its node is a leaf that is the root or has no
value. -/
def DeleteFails (t : Tree) (p : List Bool) : Prop :=
  ∃ node, t.walk p = some node ∧ (∀ c, t.child node c = none) ∧ (p = [] ∨ t.toMap p = none)

/-- What a deletion does to the map. -/
theorem delete_spec (hinv : Inv k.width t) (h : ¬ DeleteFails t (prefixBits k key mask)) :
    if t.toMap (prefixBits k key mask) = none then
      ngxRadixtreeDelete k key mask t = some (.error, t)
    else ∃ t', ngxRadixtreeDelete k key mask t = some (.ok, t') ∧ Inv k.width t'
      ∧ t'.toMap = PrefixMap.set t.toMap (prefixBits k key mask) none := by
  have hlocate : locate k key mask t k.width t.root = t.walk (prefixBits k key mask) :=
    locate_spec k.width t.root
  rw [ngxRadixtreeDelete, hlocate]
  rcases hp : t.walk (prefixBits k key mask) with _ | node
  · rw [if_pos (toMap_eq_none_of_walk hp)]
  simp only
  by_cases hchild : (t.heap node).right ≠ none ∨ (t.heap node).left ≠ none
  · rw [if_pos hchild, toMap_of_walk hp]
    by_cases hv : (t.heap node).value = ngxRadixNoValue
    · rw [if_pos (valueOf_eq_none_iff.2 hv), if_neg (not_not.2 hv)]
    · rw [if_neg (mt valueOf_eq_none_iff.1 hv), if_pos hv]
      refine ⟨_, rfl, hinv.setValue node ngxRadixNoValue, ?_⟩
      have := hinv.toMap_setValue hp ngxRadixNoValue
      rwa [valueOf_noValue] at this
  · have hleaf : ∀ c, t.child node c = none := by
      rw [not_or, not_not, not_not] at hchild
      intro c
      cases c
      · exact hchild.2
      · exact hchild.1
    have hgood : prefixBits k key mask ≠ [] ∧ t.toMap (prefixBits k key mask) ≠ none := by
      by_contra hbad
      rw [not_and_or, not_not, not_not] at hbad
      exact h ⟨node, hp, hleaf, hbad⟩
    rw [if_neg hchild, if_neg hgood.2]
    obtain ⟨t', h1, h2, h3⟩ := prune_spec (k.width + 1) hinv hp hgood.1 hleaf
      ((hinv.depth hp).trans (Nat.le_succ _))
    exact ⟨t', by rw [h1]; rfl, h2, h3⟩

/-- It goes wrong: the root has no parent, and what has no value is deleted all the same. -/
theorem delete_fails (hinv : Inv k.width t) (h : DeleteFails t (prefixBits k key mask)) :
    ngxRadixtreeDelete k key mask t = none ∨ t.toMap (prefixBits k key mask) = none
        ∧ ∃ t', ngxRadixtreeDelete k key mask t = some (.ok, t') := by
  obtain ⟨node, hp, hleaf, hbad⟩ := h
  have hlocate : locate k key mask t k.width t.root = t.walk (prefixBits k key mask) :=
    locate_spec k.width t.root
  have hchild : ¬ ((t.heap node).right ≠ none ∨ (t.heap node).left ≠ none) := by
    rw [not_or, not_not, not_not]
    exact ⟨hleaf true, hleaf false⟩
  rw [ngxRadixtreeDelete, hlocate, hp]
  simp only [if_neg hchild]
  by_cases hnil : prefixBits k key mask = []
  · left
    rw [hnil] at hp
    obtain rfl : t.root = node := Option.some.inj hp
    rw [prune, hinv.root_parent]
    rfl
  · right
    obtain ⟨t', h1, -, -⟩ := prune_spec (k.width + 1) hinv hp hnil hleaf
      ((hinv.depth hp).trans (Nat.le_succ _))
    exact ⟨hbad.resolve_left hnil, t', by rw [h1]; rfl⟩

/-! ## Finding -/

/-- The bits of the address that are left. -/
def addressFrom (k : Kind) (key : k.Key) : ℕ → List Bool
  | 0 => []
  | left + 1 => k.bit key (k.width - (left + 1)) :: addressFrom k key left

/-- The value of a node replaces the one found before. -/
theorem ite_value (v value : ℕ) :
    (if v ≠ ngxRadixNoValue then v else value) = (valueOf v).getD value := by
  by_cases h : v = ngxRadixNoValue <;> simp [valueOf, h]

/-- The search goes down along the address, and goes on past it when there is a node. -/
theorem findLoop_spec (hinv : Inv k.width t) (left value : ℕ)
    (hp : t.walk p = some node) (hlen : p.length + left = k.width) :
    findLoop k key t left node value
      = if (LinkedTree.walk t.child node (addressFrom k key left)).isSome ∧ k.past = none then none
        else some ((PrefixMap.lookup (fun q => (LinkedTree.walk t.child node q).bind
          fun x => valueOf (t.heap x).value) (addressFrom k key left)).getD value) := by
  induction left generalizing node value p with
  | zero =>
    have hleaf : ∀ c, t.child node c = none := by
      intro c
      rcases hc : t.child node c with _ | x
      · rfl
      · have := hinv.depth (q := p ++ [c]) (p := x) (by rw [walk_concat, hp]; exact hc)
        rw [length_append, length_singleton] at this
        omega
    rw [findLoop, ite_value]
    simp only [addressFrom, LinkedTree.walk, PrefixMap.lookup, isSome_some, true_and, bind_some]
    rcases hpast : k.past with _ | bit
    · simp
    · have := hleaf bit
      rw [Tree.child] at this
      simp [this]
  | succ left ih =>
    rw [findLoop, ite_value]
    simp only [addressFrom, LinkedTree.walk, PrefixMap.lookup, bind_some]
    rcases hc : t.child node (k.bit key (k.width - (left + 1))) with _ | next
    · have hc' : (t.heap node).child (k.bit key (k.width - (left + 1))) = none := hc
      have hnone : PrefixMap.lookup (fun _ => (none : Option ℕ)) (addressFrom k key left) = none :=
        PrefixMap.lookup_eq_none_iff.2 fun _ _ => rfl
      simp [hc', hnone]
    · have hc' : (t.heap node).child (k.bit key (k.width - (left + 1))) = some next := hc
      have hnext : t.walk (p ++ [k.bit key (k.width - (left + 1))]) = some next := by
        rw [walk_concat, hp]
        exact hc
      have := ih ((valueOf (t.heap node).value).getD value) hnext
        (by rw [length_append, length_singleton]; omega)
      simp only [hc', bind_some, this]
      cases PrefixMap.lookup (fun q => (LinkedTree.walk t.child next q).bind
        fun x => valueOf (t.heap x).value) (addressFrom k key left) <;> simp

theorem addressFrom_width : addressFrom k key k.width = addressBits k key := by
  have hgen : ∀ left, left ≤ k.width → addressFrom k key left
      = (range' (k.width - left) left).map (k.bit key) := by
    intro left hle
    induction left with
    | zero => rfl
    | succ left ih =>
      rw [addressFrom, ih (by omega), range'_succ, map_cons,
        show k.width - (left + 1) + 1 = k.width - left by omega]
  rw [hgen _ (Nat.le_refl _), Nat.sub_self, addressBits, range_eq_range']

/-- The search for the address goes wrong: the next byte is read when it has a node itself. -/
def FindFails (k : Kind) (key : k.Key) (t : Tree) : Prop :=
  (t.walk (addressBits k key)).isSome ∧ k.past = none

/-- What a search finds. -/
theorem find_spec (hinv : Inv k.width t) (h : ¬ FindFails k key t) : ngxRadixtreeFind k key t
      = some ((PrefixMap.lookup t.toMap (addressBits k key)).getD ngxRadixNoValue) := by
  rw [ngxRadixtreeFind, findLoop_spec hinv k.width ngxRadixNoValue walk_root (by simp),
    addressFrom_width]
  exact if_neg h

theorem find_fails (hinv : Inv k.width t) (h : FindFails k key t) :
    ngxRadixtreeFind k key t = none := by
  rw [ngxRadixtreeFind, findLoop_spec hinv k.width ngxRadixNoValue walk_root (by simp),
    addressFrom_width]
  exact if_pos h

end

end RadixTree

/-!
# Runs of the radix tree

A tree made by `ngx_radix_tree_create` holds no prefix, however many nodes are made
beforehand.  From there on each insertion, deletion and search does to the tree what it does
to a prefix map, exactly when none of the three cases is met in which the code goes wrong.
-/

namespace RadixTree

/-! ## Operations -/

/-- A call; an insertion with the number of pages the pool has left. -/
inductive Op (k : Kind) where
  | insert (key mask : k.Key) (value pages : ℕ)
  | delete (key mask : k.Key)
  | find (key : k.Key)

/-- What a call returns. -/
inductive Answer where
  | rc (rc : Rc)
  | value (value : ℕ)
  deriving DecidableEq, Repr

variable {k : Kind}

/-- One call. -/
def step (t : Tree) : Op k → Option (Answer × Tree)
  | .insert key mask value pages =>
    let r := ngxRadixtreeInsert k key mask t pages value
    some (.rc r.1, r.2)
  | .delete key mask => (ngxRadixtreeDelete k key mask t).map fun r => (.rc r.1, r.2)
  | .find key => (ngxRadixtreeFind k key t).map fun value => (.value value, t)

/-- Calls one after the other, and their answers. -/
def run (t : Tree) : List (Op k) → Option (List Answer × Tree)
  | [] => some ([], t)
  | op :: ops =>
    match step t op with
    | none => none
    | some (a, t) => (run t ops).map fun r => (a :: r.1, r.2)

/-- What a call does to a prefix map. -/
inductive Spec (m : List Bool → Option ℕ) : Op k → Answer → (List Bool → Option ℕ) → Prop
  | insert {key mask value pages} (h : m (prefixBits k key mask) = none) :
    Spec m (.insert key mask value pages) (.rc .ok)
      (PrefixMap.set m (prefixBits k key mask) (valueOf value))
  | insertBusy {key mask value pages} (h : m (prefixBits k key mask) ≠ none) :
    Spec m (.insert key mask value pages) (.rc .busy) m
  | insertError {key mask value pages} (h : m (prefixBits k key mask) = none)
      (hpages : pages < (prefixBits k key mask).length) :
    Spec m (.insert key mask value pages) (.rc .error) m
  | delete {key mask} (h : m (prefixBits k key mask) ≠ none) :
    Spec m (.delete key mask) (.rc .ok) (PrefixMap.set m (prefixBits k key mask) none)
  | deleteError {key mask} (h : m (prefixBits k key mask) = none) :
    Spec m (.delete key mask) (.rc .error) m
  | find {key} :
    Spec m (.find key)
      (.value ((PrefixMap.lookup m (addressBits k key)).getD ngxRadixNoValue)) m

/-- Each call of the run returns, with the answer of the prefix map and its map. -/
def Agrees (t : Tree) : List (Op k) → Prop
  | [] => True
  | op :: ops => ∃ a t', step t op = some (a, t') ∧ Spec t.toMap op a t'.toMap ∧ Agrees t' ops

/-- The call meets none of the three cases. -/
def OpFine (t : Tree) : Op k → Prop
  | .insert .. => True
  | .delete key mask => ¬ DeleteFails t (prefixBits k key mask)
  | .find key => ¬ FindFails k key t

/-- Nor does any call of the run. -/
def AllFine (t : Tree) : List (Op k) → Prop
  | [] => True
  | op :: ops => OpFine t op ∧ ∀ a t', step t op = some (a, t') → AllFine t' ops

/-! ## One call -/

variable {mask : BitVec 32} {t t' : Tree}

/-- A call that meets none of the three cases does what it does to the prefix map. -/
theorem step_spec (hinv : Inv k.width t) {op : Op k} (h : OpFine t op) :
    ∃ a t', step t op = some (a, t') ∧ Inv k.width t' ∧ Spec t.toMap op a t'.toMap := by
  cases op with
  | insert key mask value pages =>
    obtain ⟨h1, h2⟩ := insert_spec key mask hinv le_rfl pages value
    refine ⟨_, _, rfl, h1, ?_⟩
    by_cases hm : t.toMap (prefixBits k key mask) = none
    · rw [if_pos hm] at h2
      rcases h2 with ⟨h2, h3⟩ | ⟨h2, h3, h4⟩
      · rw [h2, h3]
        exact .insert hm
      · rw [h2, h3]
        exact .insertError hm h4
    · rw [if_neg hm] at h2
      rw [h2]
      exact .insertBusy hm
  | delete key mask =>
    have hd := delete_spec hinv h
    by_cases hm : t.toMap (prefixBits k key mask) = none
    · rw [if_pos hm] at hd
      exact ⟨.rc .error, t, by rw [step, hd]; rfl, hinv, .deleteError hm⟩
    · rw [if_neg hm] at hd
      obtain ⟨t', h1, h2, h3⟩ := hd
      refine ⟨.rc .ok, t', by rw [step, h1]; rfl, h2, ?_⟩
      rw [h3]
      exact .delete hm
  | find key =>
    exact ⟨_, t, by rw [step, find_spec hinv h]; rfl, hinv, .find⟩

/-- A call that meets one of them does not. -/
theorem not_spec_of_not_opFine {a : Answer} (hinv : Inv k.width t) {op : Op k}
    (h : ¬ OpFine t op) (hstep : step t op = some (a, t')) : ¬ Spec t.toMap op a t'.toMap := by
  cases op with
  | insert key mask value pages => exact absurd trivial h
  | delete key mask =>
    rw [step] at hstep
    rcases delete_fails hinv (not_not.1 h) with hnone | ⟨hm, t1, hsome⟩
    · rw [hnone] at hstep
      cases hstep
    · rw [hsome] at hstep
      cases hstep
      have hno : ∀ m, ¬ Spec t.toMap (.delete key mask) (.rc .ok) m := by
        intro m hspec
        cases hspec with
        | delete hm' => exact hm' hm
      exact hno _
  | find key =>
    rw [step, find_fails hinv (not_not.1 h)] at hstep
    cases hstep

/-! ## Runs -/

/-- From a tree that keeps the invariant the calls agree with the prefix map just when none of
them meets one of the three cases. -/
theorem agrees_iff (hinv : Inv k.width t) (ops : List (Op k)) : Agrees t ops ↔ AllFine t ops := by
  induction ops generalizing t with
  | nil => exact Iff.rfl
  | cons op ops ih =>
    constructor
    · rintro ⟨a, t', hstep, hspec, hrest⟩
      have hfine : OpFine t op := by
        by_contra hbad
        exact not_spec_of_not_opFine hinv hbad hstep hspec
      refine ⟨hfine, fun a1 t1 hstep1 => ?_⟩
      obtain ⟨a2, t2, hstep2, hinv2, -⟩ := step_spec hinv hfine
      rw [hstep1] at hstep hstep2
      cases hstep
      cases hstep2
      exact (ih hinv2).1 hrest
    · rintro ⟨hfine, hrest⟩
      obtain ⟨a, t', hstep, hinv', hspec⟩ := step_spec hinv hfine
      exact ⟨a, t', hstep, hspec, (ih hinv').2 (hrest a t' hstep)⟩

/-- The nodes made beforehand hold nothing. -/
theorem preallocateLevel_spec {w : ℕ} (hw : 32 ≤ w) {pages : ℕ}
    {keys : List (BitVec 32)} (hinv : Inv w t) (hmap : t.toMap = fun _ => none)
    (h : preallocateLevel mask pages keys t = some t') : Inv w t' ∧ t'.toMap = fun _ => none := by
  induction keys generalizing t with
  | nil =>
    cases h
    exact ⟨hinv, hmap⟩
  | cons key keys ih =>
    obtain ⟨h1, h2⟩ := insert_spec (k := .v4) key mask hinv hw pages ngxRadixNoValue
    rw [if_pos (congrFun hmap _)] at h2
    rw [preallocateLevel, ngxRadix32treeInsert] at h
    rcases hr : ngxRadixtreeInsert .v4 key mask t pages ngxRadixNoValue with ⟨rc, t1⟩
    rw [hr] at h h1 h2
    rcases h2 with ⟨hok, hset⟩ | ⟨herr, -⟩
    · subst hok
      refine ih h1 ?_ h
      rw [hset, hmap]
      funext q
      simp [PrefixMap.set]
    · subst herr
      cases h

theorem preallocateLoop_spec {w : ℕ} (hw : 32 ≤ w) {pages n : ℕ} {inc : BitVec 32}
    (hinv : Inv w t) (hmap : t.toMap = fun _ => none)
    (h : preallocateLoop pages n mask inc t = some t') : Inv w t' ∧ t'.toMap = fun _ => none := by
  induction n generalizing mask inc t with
  | zero =>
    cases h
    exact ⟨hinv, hmap⟩
  | succ n ih =>
    rw [preallocateLoop] at h
    rcases hl : preallocateLevel (mask >>> 1 ||| 0x80000000#32) pages (preallocateKeys inc) t
      with _ | t1
    · simp [hl] at h
    · simp only [hl] at h
      obtain ⟨h1, h2⟩ := preallocateLevel_spec hw hinv hmap hl
      exact ih h1 h2 h

/-- **The radix tree is a prefix map.**  A tree that was created, with any number of levels made
beforehand, holds no prefix; and the calls of a run on it answer and change it as they do a
prefix map just when no deletion is of a leaf that is the root or has no value, and no search
is for an address of 128 bits that has a node. -/
theorem agrees_iff_allFine {pages preallocate : ℕ} {t : Tree}
    (h : ngxRadixTreeCreate pages preallocate = some t) :
    t.toMap = (fun _ => none) ∧ ∀ (k : Kind) (ops : List (Op k)), Agrees t ops ↔ AllFine t ops := by
  have hcreate : ∀ w, 32 ≤ w → Inv w t ∧ t.toMap = fun _ => none := fun w hw =>
    preallocateLoop_spec hw (inv_empty w) toMap_empty h
  refine ⟨(hcreate 32 le_rfl).2, fun k ops => agrees_iff (hcreate k.width ?_).1 ops⟩
  cases k
  · exact le_rfl
  · show 32 ≤ 128
    omega

/-- A tree with the nodes of the prefixes of one bit made beforehand. -/
theorem agrees_iff_allFine_oneLevel : ∃ t, ngxRadixTreeCreate 0 1 = some t
    ∧ t.toMap = (fun _ => none)
    ∧ ∀ (k : Kind) (ops : List (Op k)), Agrees t ops ↔ AllFine t ops := by
  obtain ⟨t, h⟩ := Option.isSome_iff_exists.1 (show (ngxRadixTreeCreate 0 1).isSome by
    decide)
  exact ⟨t, h, agrees_iff_allFine h⟩

/-- The deletion of `0.0.0.0/0` from a tree that holds nothing else follows a null pointer; the
deletion of `128.0.0.0/1`, which is not stored, succeeds when its node was made beforehand;
and the search for an address of 128 bits that is stored reads past it. -/
theorem run_goes_wrong : run (k := .v4) Tree.empty [.insert 0#32 0#32 7 0, .delete 0#32 0#32] = none
    ∧ ((ngxRadixTreeCreate 0 1).bind fun t =>
        (run (k := .v4) t [.find 0x80000000#32, .delete 0x80000000#32 0x80000000#32]).map Prod.fst)
      = some [.value ngxRadixNoValue, .rc .ok]
    ∧ run (k := .v6) Tree.empty [.insert (fun _ => 0) (fun _ => 0xFF) 7 1, .find fun _ => 0]
      = none := by
  decide +kernel

end RadixTree
