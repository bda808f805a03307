/-
# The cycle collector

The three phases of `zend_gc_collect_cycles` over a graph of refcounted nodes:
`gc_mark_roots` takes the references between nodes back from the refcounts,
`gc_scan_roots` gives them back below every node that is still held, and
`gc_collect_roots` moves the rest to the list to free.

The graph is fixed while the phases run: `get_gc` of an object returns a table of
slots and perhaps a property table, and an `IS_INDIRECT` slot of a table stands for
the slot it points at.  The store of objects is there (the branches for a store
already destroyed, which overwrite slots, are left out).
-/
import ReadingCode.GraphMarking

namespace ZendGc

/-! ## Nodes -/

/-- A slot: `Z_REFCOUNTED` is `counted`, anything else but `IS_UNDEF` is `plain`. -/
inductive Zval (α : Type*) where
  | undef
  | plain
  | counted (ref : α)
  deriving DecidableEq

/-- What the collector asks of an object.  `valid` is `IS_OBJ_VALID` of its bucket
together with a `get_gc` handler; `table` and `ht` are what `get_gc` returns. -/
structure Object (α : Type*) where
  freeCalled : Bool
  valid : Bool
  destructor : Bool
  table : List (Zval α)
  ht : Option (List (Zval α))
  deriving DecidableEq

/-- A refcounted node by its type; `other` has no slots the collector follows. -/
inductive Node (α : Type*) where
  | array (arData : List (Zval α))
  | object (obj : Object α)
  | reference (val : Zval α)
  | other
  deriving DecidableEq

/-- The nodes, and the address of `EG(symbol_table)`. -/
structure Graph (α : Type*) where
  node : α → Node α
  symbolTable : Option α

/-- The colors of `GC_INFO`. -/
inductive Color where
  | black
  | white
  | grey
  | purple
  deriving DecidableEq

/-- `zend_refcounted_h`: the refcount, and `GC_INFO` as color and address. -/
structure Header where
  refcount : UInt32
  color : Color
  address : ℕ
  deriving DecidableEq

/-- `gc_root_buffer`, with its place in the buffers and the node it records. -/
structure Root (α : Type*) where
  address : ℕ
  ref : α
  deriving DecidableEq

/-- `GC_ROOT_BUFFER_MAX_ENTRIES`. -/
def rootBufferMaxEntries : ℕ := 10001

/-- `GC_NUM_ADDITIONAL_ENTRIES`. -/
def numAdditionalEntries : ℕ := 127

/-- The headers of all nodes, and the globals of the collector.  `roots` and `toFree`
are read from `next` of their sentinel on; `additional` holds the `used` counts of the
additional buffers, the current one first. -/
structure Gc (α : Type*) where
  header : α → Header
  roots : List (Root α)
  unused : List ℕ
  firstUnused : ℕ
  lastUnused : ℕ
  additional : List ℕ
  toFree : List (Root α)

variable {α σ : Type*} [DecidableEq α]

namespace Gc

/-- `GC_REF_GET_COLOR`. -/
def color (g : Gc α) (v : α) : Color := (g.header v).color

/-- `GC_REFCOUNT`. -/
def refcount (g : Gc α) (v : α) : UInt32 := (g.header v).refcount

/-- `GC_ADDRESS(GC_INFO(ref))`. -/
def address (g : Gc α) (v : α) : ℕ := (g.header v).address

/-- `GC_INFO(ref) == 0`; the color black is 0. -/
def noInfo (g : Gc α) (v : α) : Bool := g.color v = .black && g.address v = 0

/-- Writes one header. -/
def setHeader (g : Gc α) (v : α) (x : Header) : Gc α :=
  { g with header := Function.update g.header v x }

/-- `GC_REF_SET_COLOR`. -/
def setColor (g : Gc α) (v : α) (c : Color) : Gc α :=
  g.setHeader v { g.header v with color := c }

/-- `GC_INFO(ref) = a`, which is black. -/
def setInfo (g : Gc α) (v : α) (a : ℕ) : Gc α :=
  g.setHeader v { g.header v with color := .black, address := a }

/-- `GC_REFCOUNT(ref)++`. -/
def incRef (g : Gc α) (v : α) : Gc α :=
  g.setHeader v { g.header v with refcount := g.refcount v + 1 }

/-- `GC_REFCOUNT(ref)--`. -/
def decRef (g : Gc α) (v : α) : Gc α :=
  g.setHeader v { g.header v with refcount := g.refcount v - 1 }

end Gc

/-! ## Walking the slots of a node -/

/-- The slots before the last counted one, that one, and the slots after it. -/
def lastCounted : List (Zval α) → Option (List (Zval α) × α × List (Zval α))
  | [] => none
  | z :: zs =>
    match lastCounted zs with
    | some (front, r, rest) => some (z :: front, r, rest)
    | none =>
      match z with
      | .counted r => some ([], r, zs)
      | _ => none

/-- What a walk does at a counted slot, at any other slot before the last counted
one, and at the slots behind it in the table of an object or in a hash table. -/
structure Visitor (α σ : Type*) where
  counted : σ → α → Option σ
  other : σ → Zval α → σ := fun s _ => s
  tableRest : σ → List (Zval α) → σ := fun s _ => s
  hashRest : σ → List (Zval α) → σ := fun s _ => s

namespace Visitor

variable (V : Visitor α σ)

/-- One slot. -/
def slot (s : σ) : Zval α → Option σ
  | .counted r => V.counted s r
  | z => some (V.other s z)

/-- The slots of a table: back to the last counted one, then from the first slot up
to it; the step back to `tail_call` takes the last one. -/
def table (rest : σ → List (Zval α) → σ) (zs : List (Zval α)) (s : σ) : Option σ :=
  match lastCounted zs with
  | none => some (rest s zs)
  | some (front, r, back) => do
    let s ← front.foldlM V.slot (rest s back)
    V.counted s r

/-- The slots of a node. -/
def walk (s : σ) : Node α → Option σ
  | .object o =>
    if o.freeCalled || !o.valid then some s
    else match o.ht with
      | none => V.table V.tableRest o.table s
      | some ht => do
        let s ← o.table.foldlM V.slot s
        V.table V.hashRest ht s
  | .array arData => V.table V.hashRest arData s
  | .reference (.counted r) => V.counted s r
  | .reference _ => some s
  | .other => some s

end Visitor

/-! ## The phases -/

variable (G : Graph α)

namespace Graph

/-- The array at `&EG(symbol_table)`. -/
def isSymbolTable (v : α) : Bool :=
  match G.node v with
  | .array _ => G.symbolTable = some v
  | _ => false

end Graph

/-- `gc_scan_black`.  The first argument bounds the depth of the recursion here and in
the functions below. -/
def gcScanBlack : ℕ → Gc α → α → Option (Gc α)
  | 0, _, _ => none
  | n + 1, g, ref =>
    let g := g.setColor ref .black
    if G.isSymbolTable ref then some g
    else Visitor.walk
      { counted := fun g r =>
          let g := g.incRef r
          if g.color r ≠ .black then gcScanBlack n g r else some g } g (G.node ref)

/-- `gc_mark_grey`. -/
def gcMarkGrey : ℕ → Gc α → α → Option (Gc α)
  | 0, _, _ => none
  | n + 1, g, ref =>
    if g.color ref ≠ .grey then
      let g := g.setColor ref .grey
      if G.isSymbolTable ref then some (g.setColor ref .black)
      else Visitor.walk
        { counted := fun g r => gcMarkGrey n (g.decRef r) r } g (G.node ref)
    else some g

/-- `gc_mark_roots`. -/
def gcMarkRoots (depth : ℕ) (g : Gc α) : Option (Gc α) :=
  g.roots.foldlM (fun g current =>
    if g.color current.ref = .purple then gcMarkGrey G depth g current.ref else some g) g

/-- `gc_scan`; `depth` is the room left to `gc_scan_black`. -/
def gcScan (depth : ℕ) : ℕ → Gc α → α → Option (Gc α)
  | 0, _, _ => none
  | n + 1, g, ref =>
    if g.color ref = .grey then
      if g.refcount ref > 0 then gcScanBlack G depth g ref
      else
        let g := g.setColor ref .white
        if G.isSymbolTable ref then some (g.setColor ref .black)
        else Visitor.walk { counted := fun g r => gcScan depth n g r } g (G.node ref)
    else some g

/-- `gc_scan_roots`. -/
def gcScanRoots (depth : ℕ) (g : Gc α) : Option (Gc α) :=
  g.roots.foldlM (fun g current => gcScan G depth depth g current.ref) g

namespace Gc

/-- The head of the list of roots is a new entry for `ref`. -/
def link (g : Gc α) (a : ℕ) (ref : α) : Gc α :=
  { g.setInfo ref a with roots := ⟨a, ref⟩ :: g.roots }

/-- `gc_add_garbage`: an entry of the buffer given back before, one never used, or one
of an additional buffer. -/
def addGarbage (g : Gc α) (ref : α) : Gc α :=
  match g.unused with
  | a :: rest => { g.link a ref with unused := rest }
  | [] =>
    if g.firstUnused ≠ g.lastUnused then
      { g.link g.firstUnused ref with firstUnused := g.firstUnused + 1 }
    else match g.additional with
      | [] => { g.link rootBufferMaxEntries ref with additional := [1] }
      | used :: more =>
        if used = numAdditionalEntries then
          { g.link rootBufferMaxEntries ref with additional := 1 :: used :: more }
        else
          { g.link (rootBufferMaxEntries + used) ref with additional := (used + 1) :: more }

/-- Takes the entry of a node that is not garbage out of the list of roots
(`gc_remove_from_roots`, `gc_remove_from_additional_roots`) and clears `GC_INFO`. -/
def removeRoot (g : Gc α) (current : Root α) : Gc α :=
  let unused :=
    if g.address current.ref < rootBufferMaxEntries then current.address :: g.unused
    else g.unused
  { g.setInfo current.ref 0 with roots := g.roots.erase current, unused := unused }

end Gc

/-- The state of `gc_collect_white`: the collector, the count returned so far, and
whether an object with a destructor was met. -/
structure Collect (α : Type*) where
  gc : Gc α
  count : ℕ
  hasDestructors : Bool

/-- How many slots are neither undefined nor counted. -/
def plainCount (zs : List (Zval α)) : ℕ := zs.countP (· = .plain)

/-- The count behind the last counted slot of the table of an object: the test there
reads the first slot of the table at every step back. -/
def tableRestCount (o : Object α) (rest : List (Zval α)) : ℕ :=
  match o.table with
  | [] | .undef :: _ => 0
  | _ => rest.length

/-- Recording a node in the list of garbage, unless it is a root already. -/
def Gc.record (g : Gc α) (ref : α) : Gc α := if g.noInfo ref then g.addGarbage ref else g

/-- What `gc_collect_white` does to a node before it walks its slots: black, one more
counted unless it is a reference, and recorded if it is an array or a live object. -/
def Collect.start (c : Collect α) (ref : α) : Collect α :=
  let g := c.gc.setColor ref .black
  match G.node ref with
  | .object o =>
    if o.freeCalled || !o.valid then { c with gc := g, count := c.count + 1 }
    else
      { gc := g.record ref, count := c.count + 1,
        hasDestructors := c.hasDestructors || o.destructor }
  | .array _ => { c with gc := g.record ref, count := c.count + 1 }
  | .reference _ => { c with gc := g }
  | .other => { c with gc := g, count := c.count + 1 }

/-- The slots counted by `gc_collect_white` at a node. -/
def Collect.tableRest (c : Collect α) (ref : α) (rest : List (Zval α)) : Collect α :=
  match G.node ref with
  | .object o => { c with count := c.count + tableRestCount o rest }
  | _ => c

/-- `gc_collect_white`. -/
def gcCollectWhite : ℕ → Collect α → α → Option (Collect α)
  | 0, _, _ => none
  | n + 1, c, ref =>
    if c.gc.color ref = .white then
      Visitor.walk
        { counted := fun c r => gcCollectWhite n { c with gc := c.gc.incRef r } r
          other := fun c z => { c with count := c.count + plainCount [z] }
          tableRest := fun c rest => c.tableRest G ref rest
          hashRest := fun c rest => { c with count := c.count + plainCount rest } }
        (c.start G ref) (G.node ref)
    else some c

/-- `gc_collect_roots`: the first loop takes out what is not garbage, the second
collects below what is left (new entries go to the head of the list, which the loop
has passed), and the roots are relinked into the list to free. -/
def gcCollectRoots (depth : ℕ) (g : Gc α) : Option (Collect α) := do
  let g := g.roots.foldl (fun g current =>
    if g.color current.ref = .black then g.removeRoot current else g) g
  let c ← g.roots.foldlM (fun c current =>
    if c.gc.color current.ref = .white then gcCollectWhite G depth c current.ref else some c)
    { gc := g, count := 0, hasDestructors := false : Collect α }
  pure { c with gc := { c.gc with toFree := c.gc.toFree ++ c.gc.roots, roots := [] } }

/-- The phases in the order of `zend_gc_collect_cycles`. -/
def gcCollectCycles (depth : ℕ) (g : Gc α) : Option (Collect α) := do
  let g ← gcMarkRoots G depth g
  let g ← gcScanRoots G depth g
  gcCollectRoots G depth g

/-! # What one call of the collector's recursions does -/

open Marking

variable {α σ τ : Type*} [DecidableEq α]

/-! ## References of a node -/

/-- The counted slots of a table. -/
def refsOf : List (Zval α) → List α
  | [] => []
  | .counted r :: zs => r :: refsOf zs
  | _ :: zs => refsOf zs

/-- All references a node holds. -/
def Node.refs : Node α → List α
  | .array arData => refsOf arData
  | .object o => refsOf o.table ++ refsOf (o.ht.getD [])
  | .reference val => refsOf [val]
  | .other => []

/-- An object the collector asks for its slots. -/
def Object.live (o : Object α) : Prop := o.freeCalled = false ∧ o.valid = true

/-- A node whose references the collector sees. -/
def Node.Live : Node α → Prop
  | .object o => o.live
  | _ => True

omit [DecidableEq α] in
/-- The step back from the end misses no counted slot. -/
theorem refsOf_lastCounted (zs : List (Zval α)) : refsOf zs = match lastCounted zs with
      | none => []
      | some (front, r, _) => refsOf front ++ [r] := by
  induction zs with
  | nil => rfl
  | cons z zs ih =>
    rcases hl : lastCounted zs with _ | ⟨front, r, back⟩
    · rw [hl] at ih
      cases z <;> simp [lastCounted, hl, refsOf, ih]
    · rw [hl] at ih
      cases z <;> simp [lastCounted, hl, refsOf, ih]

namespace Visitor

variable {V : Visitor α σ} {I : List α → σ → Prop}

/-- A visitor keeps `I`, which speaks of the references taken so far. -/
structure Keeps (V : Visitor α σ) (I : List α → σ → Prop) : Prop where
  counted : ∀ l s r, I l s → ∃ s', V.counted s r = some s' ∧ I (l ++ [r]) s'
  other : ∀ l s z, I l s → I l (V.other s z)
  tableRest : ∀ l s zs, I l s → I l (V.tableRest s zs)
  hashRest : ∀ l s zs, I l s → I l (V.hashRest s zs)

variable {node : Node α} {s : σ}

omit [DecidableEq α] in
theorem Keeps.slots (h : V.Keeps I) (zs : List (Zval α)) {l : List α}
    (hs : I l s) : ∃ s', zs.foldlM V.slot s = some s' ∧ I (l ++ refsOf zs) s' := by
  induction zs generalizing l s with
  | nil => exact ⟨s, rfl, by simpa [refsOf] using hs⟩
  | cons z zs ih =>
    rw [List.foldlM_cons]
    cases z with
    | undef => exact ih (h.other l s _ hs)
    | plain => exact ih (h.other l s _ hs)
    | counted r =>
      obtain ⟨s1, h1, hI1⟩ := h.counted l s r hs
      obtain ⟨s2, h2, hI2⟩ := ih hI1
      refine ⟨s2, ?_, ?_⟩
      · rw [slot, h1]
        exact h2
      · rw [List.append_assoc] at hI2
        exact hI2

omit [DecidableEq α] in
theorem Keeps.table (h : V.Keeps I) {rest : σ → List (Zval α) → σ}
    (hrest : ∀ l s zs, I l s → I l (rest s zs)) (zs : List (Zval α)) {l : List α}
    (hs : I l s) : ∃ s', V.table rest zs s = some s' ∧ I (l ++ refsOf zs) s' := by
  rw [refsOf_lastCounted, Visitor.table]
  rcases lastCounted zs with _ | ⟨front, r, back⟩
  · exact ⟨_, rfl, by simpa using hrest l s zs hs⟩
  · obtain ⟨s1, h1, hI1⟩ := h.slots front (hrest l s back hs)
    obtain ⟨s2, h2, hI2⟩ := h.counted _ s1 r hI1
    refine ⟨s2, ?_, ?_⟩
    · simp only [h1]
      exact h2
    · rw [List.append_assoc] at hI2
      exact hI2

omit [DecidableEq α] in
/-- A walk over a node the collector sees takes its references one after the other. -/
theorem Keeps.walk (h : V.Keeps I) (hlive : node.Live)
    (hs : I [] s) : ∃ s', V.walk s node = some s' ∧ I node.refs s' := by
  cases node with
  | array arData => exact h.table h.hashRest arData hs
  | other => exact ⟨s, rfl, hs⟩
  | reference val =>
    cases val with
    | undef => exact ⟨s, rfl, hs⟩
    | plain => exact ⟨s, rfl, hs⟩
    | counted r => exact h.counted [] s r hs
  | object o =>
    obtain ⟨hf, hv⟩ : o.freeCalled = false ∧ o.valid = true := hlive
    simp only [Visitor.walk, hf, hv, Bool.not_true, Bool.or_false, Bool.false_eq_true,
      if_false, Node.refs]
    cases o.ht with
    | none =>
      obtain ⟨s', h', hI⟩ := h.table h.tableRest o.table hs
      exact ⟨s', h', by simpa [refsOf] using hI⟩
    | some ht =>
      obtain ⟨s1, h1, hI1⟩ := h.slots o.table hs
      obtain ⟨s2, h2, hI2⟩ := h.table h.hashRest ht hI1
      refine ⟨s2, ?_, ?_⟩
      · simp only [h1]
        exact h2
      · exact hI2

omit [DecidableEq α] in
/-- A visitor whose every step is a walk of the scheme `S` walks all references. -/
theorem walk_marks {V : Visitor α τ} (S : Scheme α σ) (proj : τ → σ) (bound : σ → Prop)
    (hb : ∀ s ops, bound s → bound (S.replay s ops))
    (hc : ∀ t c, bound (proj t) → ∃ t' ops, V.counted t c = some t' ∧
      proj t' = S.replay (proj t) ops ∧ S.Walk (proj t) [c] [c] ops)
    (ho : ∀ t z, proj (V.other t z) = proj t) (ht : ∀ t zs, proj (V.tableRest t zs) = proj t)
    (hh : ∀ t zs, proj (V.hashRest t zs) = proj t)
    (hlive : node.Live) {t : τ} (hbt : bound (proj t)) :
    ∃ t' ops, V.walk t node = some t' ∧ proj t' = S.replay (proj t) ops ∧
      S.Walk (proj t) node.refs node.refs ops := by
  have hK : V.Keeps fun l t' => ∃ ops, proj t' = S.replay (proj t) ops ∧
      S.Walk (proj t) l l ops := by
    refine ⟨?_, ?_, ?_, ?_⟩
    · rintro l t1 c ⟨ops1, hp1, hw1⟩
      obtain ⟨t2, ops2, h2, hp2, hw2⟩ := hc t1 c (hp1 ▸ hb _ _ hbt)
      rw [hp1] at hp2 hw2
      refine ⟨t2, h2, ops1 ++ ops2, ?_, hw1.append hw2⟩
      rw [hp2, S.replay_append]
    · rintro l t1 z ⟨ops, hp, hw⟩
      exact ⟨ops, by rw [ho, hp], hw⟩
    · rintro l t1 zs ⟨ops, hp, hw⟩
      exact ⟨ops, by rw [ht, hp], hw⟩
    · rintro l t1 zs ⟨ops, hp, hw⟩
      exact ⟨ops, by rw [hh, hp], hw⟩
  obtain ⟨t', h', ops, hp, hw⟩ := hK.walk hlive ⟨[], rfl, .nil _⟩
  exact ⟨t', ops, h', hp, hw⟩

end Visitor

/-! ## Reading a header after a write -/

namespace Gc

variable (g : Gc α) (v w : α)

theorem color_setColor (c : Color) : (g.setColor v c).color w = if w = v then c else g.color w := by
  by_cases h : w = v
  · subst h
    simp [color, setColor, setHeader]
  · simp [color, setColor, setHeader, h]

@[simp] theorem refcount_setColor (c : Color) : (g.setColor v c).refcount w = g.refcount w := by
  by_cases h : w = v
  · subst h
    simp [refcount, setColor, setHeader]
  · simp [refcount, setColor, setHeader, h]

@[simp] theorem address_setColor (c : Color) : (g.setColor v c).address w = g.address w := by
  by_cases h : w = v
  · subst h
    simp [address, setColor, setHeader]
  · simp [address, setColor, setHeader, h]

theorem color_setInfo (a : ℕ) : (g.setInfo v a).color w = if w = v then .black else g.color w := by
  by_cases h : w = v
  · subst h
    simp [color, setInfo, setHeader]
  · simp [color, setInfo, setHeader, h]

theorem address_setInfo (a : ℕ) : (g.setInfo v a).address w = if w = v then a else g.address w := by
  by_cases h : w = v
  · subst h
    simp [address, setInfo, setHeader]
  · simp [address, setInfo, setHeader, h]

@[simp] theorem refcount_setInfo (a : ℕ) : (g.setInfo v a).refcount w = g.refcount w := by
  by_cases h : w = v
  · subst h
    simp [refcount, setInfo, setHeader]
  · simp [refcount, setInfo, setHeader, h]

@[simp] theorem color_incRef : (g.incRef v).color w = g.color w := by
  by_cases h : w = v
  · subst h
    simp [color, incRef, setHeader]
  · simp [color, incRef, setHeader, h]

@[simp] theorem address_incRef : (g.incRef v).address w = g.address w := by
  by_cases h : w = v
  · subst h
    simp [address, incRef, setHeader]
  · simp [address, incRef, setHeader, h]

theorem refcount_incRef :
    (g.incRef v).refcount w = if w = v then g.refcount w + 1 else g.refcount w := by
  by_cases h : w = v
  · subst h
    simp [refcount, incRef, setHeader]
  · simp [refcount, incRef, setHeader, h]

@[simp] theorem color_decRef : (g.decRef v).color w = g.color w := by
  by_cases h : w = v
  · subst h
    simp [color, decRef, setHeader]
  · simp [color, decRef, setHeader, h]

@[simp] theorem address_decRef : (g.decRef v).address w = g.address w := by
  by_cases h : w = v
  · subst h
    simp [address, decRef, setHeader]
  · simp [address, decRef, setHeader, h]

theorem refcount_decRef :
    (g.decRef v).refcount w = if w = v then g.refcount w - 1 else g.refcount w := by
  by_cases h : w = v
  · subst h
    simp [refcount, decRef, setHeader]
  · simp [refcount, decRef, setHeader, h]

@[simp] theorem roots_setColor (c : Color) : (g.setColor v c).roots = g.roots := rfl

@[simp] theorem toFree_setColor (c : Color) : (g.setColor v c).toFree = g.toFree := rfl

end Gc

/-! ## The three walks -/

variable (G : Graph α)

namespace Graph

/-- The collector sees the references of every node. -/
def Live : Prop := ∀ v, (G.node v).Live

/-- The references that are followed from a node: none from the symbol table. -/
def succ (v : α) : List α := if G.isSymbolTable v then [] else (G.node v).refs

end Graph

/-- `gc_mark_grey`: a node is done when it is grey, the symbol table when it is black. -/
def greyScheme : Scheme α (Gc α) where
  succ := G.succ
  marked g v := g.color v = .grey ∨ (G.isSymbolTable v = true ∧ g.color v = .black)
  enter g v :=
    if G.isSymbolTable v then (g.setColor v .grey).setColor v .black else g.setColor v .grey
  touch := Gc.decRef
  marked_enter g v w := by
    by_cases hv : w = v
    · subst hv
      by_cases hs : G.isSymbolTable w = true
      · simp [hs, Gc.color_setColor]
      · simp [hs, Gc.color_setColor]
    · by_cases hs : G.isSymbolTable v = true
      · simp [hs, hv, Gc.color_setColor]
      · simp [hs, hv, Gc.color_setColor]
  marked_touch g v w := by simp

/-- `gc_scan_black`: a node is done when it is black. -/
def blackScheme : Scheme α (Gc α) where
  succ := G.succ
  marked g v := g.color v = .black
  enter g v := g.setColor v .black
  touch := Gc.incRef
  marked_enter g v w := by
    by_cases hv : w = v
    · simp [hv, Gc.color_setColor]
    · simp [hv, Gc.color_setColor]
  marked_touch g v w := by simp

/-- What recording garbage does to the headers and the lists. -/
theorem Gc.addGarbage_spec (g : Gc α) (v : α) :
    ∃ a, (g.addGarbage v).header = (g.setInfo v a).header ∧
      (g.addGarbage v).roots = ⟨a, v⟩ :: g.roots ∧ (g.addGarbage v).toFree = g.toFree := by
  rw [Gc.addGarbage]
  rcases g.unused with _ | ⟨a, rest⟩
  · by_cases h : g.firstUnused ≠ g.lastUnused
    · simp only [if_pos h]
      exact ⟨_, rfl, rfl, rfl⟩
    · simp only [if_neg h]
      rcases g.additional with _ | ⟨used, more⟩
      · exact ⟨_, rfl, rfl, rfl⟩
      · by_cases hu : used = numAdditionalEntries
        · simp only [if_pos hu]
          exact ⟨_, rfl, rfl, rfl⟩
        · simp only [if_neg hu]
          exact ⟨_, rfl, rfl, rfl⟩
  · exact ⟨a, rfl, rfl, rfl⟩

/-- What `gc_collect_white` does to the collector at a node. -/
def Gc.blacken (g : Gc α) (v : α) : Gc α :=
  match G.node v with
  | .object o =>
    if o.freeCalled || !o.valid then g.setColor v .black else (g.setColor v .black).record v
  | .array _ => (g.setColor v .black).record v
  | .reference _ => g.setColor v .black
  | .other => g.setColor v .black

theorem Collect.start_gc (c : Collect α) (v : α) : (c.start G v).gc = c.gc.blacken G v := by
  unfold Collect.start Gc.blacken
  cases G.node v with
  | object o =>
    by_cases h : (o.freeCalled || !o.valid) = true
    · simp only [if_pos h]
    · simp only [if_neg h]
  | _ => rfl

omit [DecidableEq α] in
theorem Collect.tableRest_gc (c : Collect α) (v : α) (rest : List (Zval α)) :
    (c.tableRest G v rest).gc = c.gc := by
  unfold Collect.tableRest
  split <;> rfl

theorem Gc.color_record (g : Gc α) (v w : α) (hv : g.color v = .black) :
    (g.record v).color w = g.color w := by
  rw [Gc.record]
  by_cases h : g.noInfo v = true
  · rw [if_pos h]
    obtain ⟨a, hh, -, -⟩ := g.addGarbage_spec v
    rw [Gc.color, hh]
    change (g.setInfo v a).color w = _
    rw [Gc.color_setInfo]
    by_cases hw : w = v
    · rw [if_pos hw, hw, hv]
    · rw [if_neg hw]
  · rw [if_neg h]

theorem Gc.refcount_record (g : Gc α) (v w : α) : (g.record v).refcount w = g.refcount w := by
  rw [Gc.record]
  by_cases h : g.noInfo v = true
  · rw [if_pos h]
    obtain ⟨a, hh, -, -⟩ := g.addGarbage_spec v
    rw [Gc.refcount, hh]
    exact g.refcount_setInfo v w a
  · rw [if_neg h]

theorem Gc.color_blacken (g : Gc α) (v w : α) :
    (g.blacken G v).color w = if w = v then .black else g.color w := by
  have hb : (g.setColor v .black).color v = .black := by
    rw [Gc.color_setColor, if_pos rfl]
  unfold Gc.blacken
  rw [← g.color_setColor v w]
  cases G.node v with
  | object o =>
    by_cases h : (o.freeCalled || !o.valid) = true
    · simp only [if_pos h]
    · simp only [if_neg h]
      exact Gc.color_record _ v w hb
  | array arData => exact Gc.color_record _ v w hb
  | _ => rfl

theorem Gc.refcount_blacken (g : Gc α) (v w : α) : (g.blacken G v).refcount w = g.refcount w := by
  unfold Gc.blacken
  rw [← g.refcount_setColor v w .black]
  cases G.node v with
  | object o =>
    by_cases h : (o.freeCalled || !o.valid) = true
    · simp only [if_pos h]
    · simp only [if_neg h]
      exact Gc.refcount_record _ v w
  | array arData => exact Gc.refcount_record _ v w
  | _ => rfl

/-- `gc_collect_white`: a node is done when it is not white. -/
def whiteScheme : Scheme α (Gc α) where
  succ v := (G.node v).refs
  marked g v := g.color v ≠ .white
  enter := Gc.blacken G
  touch := Gc.incRef
  marked_enter g v w := by
    by_cases hv : w = v
    · simp [hv, Gc.color_blacken]
    · simp [hv, Gc.color_blacken]
  marked_touch g v w := by simp

/-- Painting the symbol table grey and black again is painting it black. -/
theorem Gc.setColor_setColor_self (g : Gc α) (v : α) (c : Color) :
    (g.setColor v c).setColor v (g.color v) = g := by
  simp only [Gc.setColor, Gc.setHeader, Function.update_self, Function.update_idem, Gc.color]
  rw [Function.update_eq_self]

variable {G} [Fintype α]

/-- `gc_mark_grey` returns, and is a walk. -/
theorem gcMarkGrey_walk (hG : G.Live) (n : ℕ) (g : Gc α) (v : α) (hn : (greyScheme G).room g < n) :
    ∃ g' ops, gcMarkGrey G n g v = some g' ∧ g' = (greyScheme G).replay g ops ∧
      (greyScheme G).Walk g [v] [] ops := by
  induction n generalizing g v with
  | zero => exact absurd hn (Nat.not_lt_zero _)
  | succ n ih =>
    by_cases hm : (greyScheme G).marked g v
    · refine ⟨g, [], ?_, rfl, .marked hm⟩
      rw [gcMarkGrey]
      rcases hm with hm | ⟨hs, hb⟩
      · simp [hm]
      · have hne : g.color v ≠ .grey := by simp [hb]
        rw [if_pos hne, if_pos hs, ← hb, Gc.setColor_setColor_self]
    · have hne : g.color v ≠ .grey := fun h => hm (.inl h)
      have hroom := (greyScheme G).room_enter_lt hm
      rw [gcMarkGrey, if_pos hne]
      by_cases hs : G.isSymbolTable v = true
      · refine ⟨_, [.enter v], if_pos hs, ?_, ?_⟩
        · change _ = if _ then _ else _
          rw [if_pos hs]
        · apply Scheme.Walk.enter hm
          have : (greyScheme G).succ v = [] := if_pos hs
          rw [this]
          exact .nil _
      · have hsucc : (greyScheme G).succ v = (G.node v).refs := if_neg hs
        have henter : (greyScheme G).enter g v = g.setColor v .grey := if_neg hs
        have key := Visitor.walk_marks
          (V := { counted := fun g r => gcMarkGrey G n (g.decRef r) r })
          (greyScheme G) id (fun s => (greyScheme G).room s < n)
          (fun s ops h => lt_of_le_of_lt ((greyScheme G).room_replay_le s ops) h)
          (fun t c ht => by
            have hle := (greyScheme G).room_replay_le t [.touch c]
            obtain ⟨t', ops, h, hp, hw⟩ := ih (t.decRef c) c (lt_of_le_of_lt hle ht)
            refine ⟨t', .touch c :: ops, h, hp, ?_⟩
            exact (Scheme.Walk.touch t c).append hw)
          (fun _ _ => rfl) (fun _ _ => rfl) (fun _ _ => rfl) (hG v)
          (t := g.setColor v .grey) (by rw [henter] at hroom; exact by simpa using by omega)
        obtain ⟨g', ops, h, hp, hw⟩ := key
        refine ⟨g', .enter v :: ops, ?_, ?_, ?_⟩
        · rw [if_neg hs]
          exact h
        · rw [Scheme.replay_enter, henter]
          exact hp
        · apply Scheme.Walk.enter hm
          rw [hsucc, henter]
          exact hw

/-- `gc_scan_black` at a node that is not black returns, and is a walk. -/
theorem gcScanBlack_walk (hG : G.Live) (n : ℕ) (g : Gc α) (v : α)
    (hv : g.color v ≠ .black) (hn : (blackScheme G).room g ≤ n) :
    ∃ g' ops, gcScanBlack G n g v = some g' ∧ g' = (blackScheme G).replay g ops ∧
      (blackScheme G).Walk g [v] [] ops := by
  induction n generalizing g v with
  | zero =>
    have := (blackScheme G).room_enter_lt (s := g) (v := v) hv
    omega
  | succ n ih =>
    have hroom := (blackScheme G).room_enter_lt (s := g) (v := v) hv
    rw [gcScanBlack]
    by_cases hs : G.isSymbolTable v = true
    · refine ⟨_, [.enter v], if_pos hs, rfl, ?_⟩
      apply Scheme.Walk.enter hv
      have : (blackScheme G).succ v = [] := if_pos hs
      rw [this]
      exact .nil _
    · have hsucc : (blackScheme G).succ v = (G.node v).refs := if_neg hs
      have key := Visitor.walk_marks
        (V := { counted := fun g r =>
                  let g := g.incRef r
                  if g.color r ≠ .black then gcScanBlack G n g r else some g })
        (blackScheme G) id (fun s => (blackScheme G).room s ≤ n)
        (fun s ops h => le_trans ((blackScheme G).room_replay_le s ops) h)
        (fun t c ht => by
          have hle := (blackScheme G).room_replay_le t [.touch c]
          by_cases hc : (t.incRef c).color c = .black
          · refine ⟨t.incRef c, [.touch c], ?_, rfl, ?_⟩
            · simp only [hc, ne_eq, not_true_eq_false, if_false]
            · exact (Scheme.Walk.touch t c).append (.marked hc)
          · obtain ⟨t', ops, h, hp, hw⟩ := ih (t.incRef c) c hc (le_trans hle ht)
            refine ⟨t', .touch c :: ops, ?_, hp, ?_⟩
            · simp only [ne_eq, hc, not_false_eq_true, if_true]
              exact h
            · exact (Scheme.Walk.touch t c).append hw)
        (fun _ _ => rfl) (fun _ _ => rfl) (fun _ _ => rfl) (hG v)
        (t := g.setColor v .black) (Nat.le_of_lt_succ (lt_of_lt_of_le hroom hn))
      obtain ⟨g', ops, h, hp, hw⟩ := key
      refine ⟨g', .enter v :: ops, ?_, hp, ?_⟩
      · rw [if_neg hs]
        exact h
      · apply Scheme.Walk.enter hv
        rw [hsucc]
        exact hw

/-- `gc_collect_white` returns, and what it does to the collector is a walk. -/
theorem gcCollectWhite_walk (hG : G.Live) (n : ℕ) (c : Collect α) (v : α)
    (hn : (whiteScheme G).room c.gc < n) :
    ∃ c' ops, gcCollectWhite G n c v = some c' ∧ c'.gc = (whiteScheme G).replay c.gc ops ∧
      (whiteScheme G).Walk c.gc [v] [] ops := by
  induction n generalizing c v with
  | zero => exact absurd hn (Nat.not_lt_zero _)
  | succ n ih =>
    rw [gcCollectWhite]
    by_cases hw : c.gc.color v = .white
    · have hm : ¬ (whiteScheme G).marked c.gc v := fun h => h hw
      have hroom := (whiteScheme G).room_enter_lt hm
      have hstart : (c.start G v).gc = (whiteScheme G).enter c.gc v := Collect.start_gc G c v
      rw [if_pos hw]
      have key := Visitor.walk_marks
        (V := { counted := fun c r => gcCollectWhite G n { c with gc := c.gc.incRef r } r
                other := fun c z => { c with count := c.count + plainCount [z] }
                tableRest := fun c rest => c.tableRest G v rest
                hashRest := fun c rest => { c with count := c.count + plainCount rest } })
        (whiteScheme G) Collect.gc (fun s => (whiteScheme G).room s < n)
        (fun s ops h => lt_of_le_of_lt ((whiteScheme G).room_replay_le s ops) h)
        (fun t r ht => by
          have hle := (whiteScheme G).room_replay_le t.gc [.touch r]
          obtain ⟨t', ops, h, hp, hw⟩ :=
            ih { t with gc := t.gc.incRef r } r (lt_of_le_of_lt hle ht)
          refine ⟨t', .touch r :: ops, h, hp, ?_⟩
          exact (Scheme.Walk.touch t.gc r).append hw)
        (fun _ _ => rfl) (fun t zs => Collect.tableRest_gc G t v zs) (fun _ _ => rfl) (hG v)
        (t := c.start G v) (by rw [hstart]; omega)
      obtain ⟨c', ops, h, hp, hwalk⟩ := key
      rw [hstart] at hp hwalk
      exact ⟨c', .enter v :: ops, h, hp, .enter hm hwalk⟩
    · rw [if_neg hw]
      exact ⟨c, [], rfl, rfl, .marked hw⟩

end ZendGc
