/-
# The doubly linked list of SPL

An element counts the pointers at it, which are one for the list and those of the iterators, and is
freed when there is none.  It may be taken out of the list while an iterator stands on it; its links
then stay as they were.
-/
import Mathlib
import ReadingCode.LinkedList

open LinkedList

namespace SplDllist

open Function (update)

variable {ζ : Type} [DecidableEq ζ]

/-! ## Elements -/

/-- An `int`. -/
def int (x : ℤ) : ℤ := x.bmod (2 ^ 32)

/-- `spl_ptr_llist`, with the memory of its elements field by field.  An element that is not live is
freed.  `refs` is by how much the reference counts of the values were raised. -/
structure Llist (ζ : Type) where
  live : ℕ → Bool
  prev : ℕ → Option ℕ
  next : ℕ → Option ℕ
  rc : ℕ → ℤ
  data : ℕ → Option ζ
  fresh : ℕ
  head : Option ℕ
  tail : Option ℕ
  count : ℤ
  refs : ζ → ℤ

/-- A field of an element, which is not to be freed. -/
def Llist.read {α : Type} (m : Llist ζ) (field : ℕ → α) (a : ℕ) : Option α :=
  if m.live a then some (field a) else none

def Llist.setPrev (m : Llist ζ) (a : ℕ) (x : Option ℕ) : Option (Llist ζ) :=
  if m.live a then some { m with prev := update m.prev a x } else none

def Llist.setNext (m : Llist ζ) (a : ℕ) (x : Option ℕ) : Option (Llist ζ) :=
  if m.live a then some { m with next := update m.next a x } else none

def Llist.setData (m : Llist ζ) (a : ℕ) (x : Option ζ) : Option (Llist ζ) :=
  if m.live a then some { m with data := update m.data a x } else none

/-- A link of an element is set, if there is one. -/
def Llist.checkSetPrev (m : Llist ζ) (a : Option ℕ) (x : Option ℕ) : Option (Llist ζ) :=
  match a with
  | some a => m.setPrev a x
  | none => some m

def Llist.checkSetNext (m : Llist ζ) (a : Option ℕ) (x : Option ℕ) : Option (Llist ζ) :=
  match a with
  | some a => m.setNext a x
  | none => some m

/-- `emalloc` of an element, and what is written to it first. -/
def Llist.alloc (m : Llist ζ) (prev next : Option ℕ) (data : ζ) : Llist ζ where
  live := update m.live m.fresh true
  prev := update m.prev m.fresh prev
  next := update m.next m.fresh next
  rc := update m.rc m.fresh 1
  data := update m.data m.fresh (some data)
  fresh := m.fresh + 1
  head := m.head
  tail := m.tail
  count := m.count
  refs := m.refs

/-- `SPL_LLIST_DELREF` -/
def Llist.delref (m : Llist ζ) (a : ℕ) : Option (Llist ζ) :=
  if m.live a then
    let rc := int (m.rc a - 1)
    some { m with
      rc := update m.rc a rc
      live := if rc = 0 then update m.live a false else m.live }
  else none

/-- `SPL_LLIST_CHECK_DELREF` -/
def Llist.checkDelref (m : Llist ζ) : Option ℕ → Option (Llist ζ)
  | some a => m.delref a
  | none => some m

/-- `SPL_LLIST_ADDREF` -/
def Llist.addref (m : Llist ζ) (a : ℕ) : Option (Llist ζ) :=
  if m.live a then some { m with rc := update m.rc a (int (m.rc a + 1)) } else none

/-- `SPL_LLIST_CHECK_ADDREF` -/
def Llist.checkAddref (m : Llist ζ) : Option ℕ → Option (Llist ζ)
  | some a => m.addref a
  | none => some m

/-! ## Values -/

section Values

variable (refcounted : ζ → Bool)

/-- The counts with one more for a value that has a count. -/
def raise (refs : ζ → ℤ) (v : ζ) : ζ → ℤ :=
  if refcounted v then update refs v (refs v + 1) else refs

/-- The counts with one less. -/
def lower (refs : ζ → ℤ) (v : ζ) : ζ → ℤ :=
  if refcounted v then update refs v (refs v - 1) else refs

/-- `Z_ADDREF`, and `ZVAL_COPY` from a place that may be undefined. -/
def Llist.zAddref (m : Llist ζ) : Option ζ → Llist ζ
  | some v => { m with refs := raise refcounted m.refs v }
  | none => m

/-- `zval_ptr_dtor` -/
def Llist.zvalPtrDtor (m : Llist ζ) : Option ζ → Llist ζ
  | some v => { m with refs := lower refcounted m.refs v }
  | none => m

/-- `spl_ptr_llist_zval_dtor` -/
def Llist.dtor (m : Llist ζ) (elem : ℕ) : Option (Llist ζ) := do
  match ← m.read m.data elem with
  | some data => (m.zvalPtrDtor refcounted (some data)).setData elem none
  | none => some m

/-- `spl_ptr_llist_zval_ctor` -/
def Llist.ctor (m : Llist ζ) (elem : ℕ) : Option (Llist ζ) := do
  let data ← m.read m.data elem
  some (m.zAddref refcounted data)

/-! ## The functions for the list -/

/-- The loop of `spl_ptr_llist_offset`. -/
def Llist.offsetLoop (m : Llist ζ) (backward : Bool) : ℕ → Option ℕ → Option (Option ℕ)
  | 0, current => some current
  | _ + 1, none => some none
  | n + 1, some a => do
    let current ← m.read (if backward then m.prev else m.next) a
    m.offsetLoop backward n current

/-- `spl_ptr_llist_offset` -/
def Llist.offset (m : Llist ζ) (offset : ℤ) (backward : Bool) : Option (Option ℕ) :=
  m.offsetLoop backward offset.toNat (if backward then m.tail else m.head)

/-- `spl_ptr_llist_unshift` -/
def Llist.unshift (m : Llist ζ) (data : ζ) : Option (Llist ζ) := do
  let elem := m.fresh
  let m := m.alloc none m.head data
  let m ← match m.head with
    | some head => m.setPrev head (some elem)
    | none => some { m with tail := some elem }
  Llist.ctor refcounted { m with head := some elem, count := int (m.count + 1) } elem

/-- `spl_ptr_llist_push` -/
def Llist.push (m : Llist ζ) (data : ζ) : Option (Llist ζ) := do
  let elem := m.fresh
  let m := m.alloc m.tail none data
  let m ← match m.tail with
    | some tail => m.setNext tail (some elem)
    | none => some { m with head := some elem }
  Llist.ctor refcounted { m with tail := some elem, count := int (m.count + 1) } elem

/-- What `spl_ptr_llist_pop` and `spl_ptr_llist_shift` do with the element that they took out of the
list, and the value that they return. -/
def Llist.release (m : Llist ζ) (elem : ℕ) : Option (Llist ζ × Option ζ) := do
  let ret ← m.read m.data elem
  let m ← (m.zAddref refcounted ret).dtor refcounted elem
  let m ← m.setData elem none
  let m ← m.delref elem
  some (m, ret)

/-- `spl_ptr_llist_pop`, with the value that is returned. -/
def Llist.pop (m : Llist ζ) : Option (Llist ζ × Option ζ) :=
  match m.tail with
  | none => some (m, none)
  | some tail => do
    let prev ← m.read m.prev tail
    let m ← match prev with
      | some p => m.setNext p none
      | none => some { m with head := none }
    Llist.release refcounted { m with tail := prev, count := int (m.count - 1) } tail

/-- `spl_ptr_llist_shift`, with the value that is returned. -/
def Llist.shift (m : Llist ζ) : Option (Llist ζ × Option ζ) :=
  match m.head with
  | none => some (m, none)
  | some head => do
    let next ← m.read m.next head
    let m ← match next with
      | some n => m.setPrev n none
      | none => some { m with tail := none }
    Llist.release refcounted { m with head := next, count := int (m.count - 1) } head

/-- The loop of `spl_ptr_llist_copy`, with fuel. -/
def copyLoop (source : Llist ζ) : ℕ → Option ℕ → Llist ζ → Option (Llist ζ)
  | 0, _, _ => none
  | _ + 1, none, target => some target
  | fuel + 1, some current, target => do
    let next ← source.read source.next current
    match ← source.read source.data current with
    | some data =>
      let target ← target.push refcounted data
      copyLoop source fuel next target
    | none => none

/-! ## Iterators -/

/-- `flags` -/
structure Flags where
  delete : Bool
  lifo : Bool
  fix : Bool

/-- `traverse_pointer` and `traverse_position` -/
structure Cursor where
  pointer : Option ℕ
  position : ℤ

/-- `spl_dllist_it_helper_rewind` -/
def rewindHelper (c : Cursor) (m : Llist ζ) (flags : Flags) : Option (Llist ζ × Cursor) := do
  let m ← m.checkDelref c.pointer
  let c : Cursor := if flags.lifo then ⟨m.tail, int (m.count - 1)⟩ else ⟨m.head, 0⟩
  let m ← m.checkAddref c.pointer
  some (m, c)

/-- The branches of `spl_dllist_it_helper_move_forward` for the two directions, with the element
`old` that the iterator stands on. -/
def moveBranches (c : Cursor) (m : Llist ζ) (flags : Flags) (old : ℕ) :
    Option (Llist ζ × Cursor) :=
  if flags.lifo then do
    let pointer ← m.read m.prev old
    let position := int (c.position - 1)
    if flags.delete then
      let (m, prev) ← m.pop refcounted
      some (m.zvalPtrDtor refcounted prev, ⟨pointer, position⟩)
    else some (m, ⟨pointer, position⟩)
  else do
    let pointer ← m.read m.next old
    if flags.delete then
      let (m, prev) ← m.shift refcounted
      some (m.zvalPtrDtor refcounted prev, ⟨pointer, c.position⟩)
    else some (m, ⟨pointer, int (c.position + 1)⟩)

/-- `spl_dllist_it_helper_move_forward` -/
def moveForwardHelper (c : Cursor) (m : Llist ζ) (flags : Flags) :
    Option (Llist ζ × Cursor) :=
  match c.pointer with
  | none => some (m, c)
  | some old => do
    let (m, c) ← moveBranches refcounted c m flags old
    let m ← m.delref old
    let m ← m.checkAddref c.pointer
    some (m, c)

/-! ## Objects -/

/-- `spl_dllist_object`, and the iterators that were created for it. -/
structure Object (ζ : Type) where
  llist : Llist ζ
  traverse : Cursor
  its : List Cursor
  flags : Flags

/-- What a program can do with an object.  An index is what `spl_offset_convert_to_long` makes of
it. -/
inductive Op (ζ : Type) where
  | push (v : ζ)
  | unshift (v : ζ)
  | pop
  | shift
  | add (index : ℤ) (v : ζ)
  | offsetSet (index : Option ℤ) (v : ζ)
  | offsetUnset (index : ℤ)
  | setIteratorMode (delete lifo : Bool)
  | rewind
  | next
  | prev
  | getIterator
  | itRewind (k : ℕ)
  | itMoveForward (k : ℕ)
  | itDtor (k : ℕ)

/-- The method `add`; an index out of range is an exception, and nothing changes. -/
def Object.add (o : Object ζ) (index : ℤ) (v : ζ) : Option (Object ζ) :=
  if index < 0 ∨ index > o.llist.count then some o
  else
    let m := o.llist.zAddref refcounted (some v)
    if index = m.count then do
      let m ← m.push refcounted v
      some { o with llist := m }
    else do
      let elem := m.fresh
      match ← m.offset index o.flags.lifo with
      | none => none
      | some element =>
        let prev ← m.read m.prev element
        let m := m.alloc prev (some element) v
        let m ← match prev with
          | none => some { m with head := some elem }
          | some p => m.setNext p (some elem)
        let m ← m.setPrev element (some elem)
        let m ← Llist.ctor refcounted { m with count := int (m.count + 1) } elem
        some { o with llist := m }

/-- The method `offsetSet`; without an index the value is pushed. -/
def Object.offsetSet (o : Object ζ) (index : Option ℤ) (v : ζ) : Option (Object ζ) :=
  match index with
  | none => do
    let m ← o.llist.push refcounted v
    some { o with llist := m }
  | some index =>
    if index < 0 ∨ index ≥ o.llist.count then some o
    else do
      match ← o.llist.offset index o.flags.lifo with
      | some element =>
        let m ← o.llist.dtor refcounted element
        let data ← m.read m.data element
        let m ← (m.zvalPtrDtor refcounted data).setData element (some v)
        let m ← m.ctor refcounted element
        some { o with llist := m }
      | none => some { o with llist := o.llist.zvalPtrDtor refcounted (some v) }

/-- The method `offsetUnset`. -/
def Object.offsetUnset (o : Object ζ) (index : ℤ) : Option (Object ζ) :=
  if index < 0 ∨ index ≥ o.llist.count then some o
  else do
    match ← o.llist.offset index o.flags.lifo with
    | none => some o
    | some element =>
      let m := o.llist
      let prev ← m.read m.prev element
      let next ← m.read m.next element
      let m ← m.checkSetNext prev next
      let m ← m.checkSetPrev next prev
      let m := { m with
        head := if m.head = some element then next else m.head
        tail := if m.tail = some element then prev else m.tail
        count := int (m.count - 1) }
      let m ← m.dtor refcounted element
      let (m, traverse) ←
        if o.traverse.pointer = some element then do
          let m ← m.delref element
          some (m, { o.traverse with pointer := none })
        else some (m, o.traverse)
      let data ← m.read m.data element
      let m ← (m.zvalPtrDtor refcounted data).setData element none
      let m ← m.delref element
      some { o with llist := m, traverse := traverse }

/-- The method `setIteratorMode`; for a fixed direction another one is an exception. -/
def Object.setIteratorMode (o : Object ζ) (delete lifo : Bool) : Object ζ :=
  if o.flags.fix ∧ o.flags.lifo ≠ lifo then o else { o with flags := ⟨delete, lifo, false⟩ }

/-- A step of the object's own traversal. -/
def Object.own (o : Object ζ) (res : Option (Llist ζ × Cursor)) : Option (Object ζ) := do
  let (m, c) ← res
  some { o with llist := m, traverse := c }

/-- A step of an iterator, if there is one of that number. -/
def Object.it (o : Object ζ) (k : ℕ) (helper : Cursor → Option (Llist ζ × Cursor)) :
    Option (Object ζ) :=
  match o.its[k]? with
  | none => some o
  | some c => do
    let (m, c) ← helper c
    some { o with llist := m, its := o.its.set k c }

/-- `spl_dllist_get_iterator` -/
def Object.getIterator (o : Object ζ) : Option (Object ζ) := do
  let m ← o.llist.checkAddref o.traverse.pointer
  some { o with llist := m, its := o.its ++ [o.traverse] }

/-- `spl_dllist_it_dtor` -/
def Object.itDtor (o : Object ζ) (k : ℕ) : Option (Object ζ) :=
  match o.its[k]? with
  | none => some o
  | some c => do
    let m ← o.llist.checkDelref c.pointer
    some { o with llist := m, its := o.its.eraseIdx k }

/-- An operation, with the value that it returns.  `none` is an access to an element that was
freed. -/
def step (o : Object ζ) : Op ζ → Option (Object ζ × Option ζ)
  | .push v => do
    let m ← o.llist.push refcounted v
    some ({ o with llist := m }, none)
  | .unshift v => do
    let m ← o.llist.unshift refcounted v
    some ({ o with llist := m }, none)
  | .pop => do
    let (m, ret) ← o.llist.pop refcounted
    some ({ o with llist := m }, ret)
  | .shift => do
    let (m, ret) ← o.llist.shift refcounted
    some ({ o with llist := m }, ret)
  | .add index v => (o.add refcounted index v).map (·, none)
  | .offsetSet index v => (o.offsetSet refcounted index v).map (·, none)
  | .offsetUnset index => (o.offsetUnset refcounted index).map (·, none)
  | .setIteratorMode delete lifo => some (o.setIteratorMode delete lifo, none)
  | .rewind => (o.own (rewindHelper o.traverse o.llist o.flags)).map (·, none)
  | .next => (o.own (moveForwardHelper refcounted o.traverse o.llist o.flags)).map (·, none)
  | .prev =>
    (o.own (moveForwardHelper refcounted o.traverse o.llist
      { o.flags with lifo := !o.flags.lifo })).map (·, none)
  | .getIterator => o.getIterator.map (·, none)
  | .itRewind k => (o.it k fun c => rewindHelper c o.llist o.flags).map (·, none)
  | .itMoveForward k =>
    (o.it k fun c => moveForwardHelper refcounted c o.llist o.flags).map (·, none)
  | .itDtor k => (o.itDtor k).map (·, none)

/-- `spl_ptr_llist_init` -/
def Llist.init : Llist ζ where
  live _ := false
  prev _ := none
  next _ := none
  rc _ := 0
  data _ := none
  fresh := 0
  head := none
  tail := none
  count := 0
  refs _ := 0

/-- `spl_dllist_object_new`, with the flags of the class. -/
def objectNew (flags : Flags) : Object ζ := ⟨Llist.init, ⟨none, 0⟩, [], flags⟩

/-- `spl_dllist_object_clone` -/
def objectClone (fuel : ℕ) (o : Object ζ) : Option (Object ζ) := do
  let m ← copyLoop refcounted o.llist fuel o.llist.head Llist.init
  let pointer := m.head
  let m ← m.checkAddref pointer
  some ⟨m, ⟨pointer, 0⟩, [], o.flags⟩

end Values

/-!
# The elements of the doubly linked list of SPL

An element is live as long as the list or an iterator has it, which is what it counts, and the count
of a value is raised once for each element with it.
-/

open List Option Function

variable {ζ : Type} {m : Llist ζ} {h : ℕ → ℕ} {a : ℕ} {v : ζ}

/-! ## Counting -/

/-- One more for an element. -/
def bump (h : ℕ → ℕ) (a : ℕ) : ℕ → ℕ := Function.update h a (h a + 1)

/-- An element is live if it is counted, and has the right count. -/
structure Counted (m : Llist ζ) (h : ℕ → ℕ) : Prop where
  live : ∀ a, m.live a = true ↔ 0 < h a
  rc : ∀ a, 0 < h a → m.rc a = h a
  lt : ∀ a, h a < 2 ^ 31

theorem int_eq {x : ℤ} (hlo : -2 ^ 31 ≤ x) (hhi : x < 2 ^ 31) : int x = x :=
  Int.bmod_eq_of_le (by omega) (by omega)

theorem Counted.delref_eq (hm : Counted m (bump h a)) :
    ∃ rc live, m.delref a = some { m with rc := rc, live := live } ∧
      Counted { m with rc := rc, live := live } h := by
  have hself : bump h a a = h a + 1 := update_self ..
  have hother : ∀ b, b ≠ a → bump h a b = h b := fun b hb => update_of_ne hb ..
  have hlive : m.live a = true := (hm.live a).mpr (by omega)
  have hrc : int (m.rc a - 1) = h a := by
    have hlt := hm.lt a
    rw [hm.rc a (by omega), hself, show ((h a + 1 : ℕ) : ℤ) - 1 = h a by omega]
    exact int_eq (by omega) (by omega)
  refine ⟨_, _, if_pos hlive, fun b => ?_, fun b hb => ?_, fun b => ?_⟩
  · dsimp only
    by_cases hba : b = a
    · subst hba
      split
      · rw [update_self]
        exact iff_of_false Bool.false_ne_true (by omega)
      · exact iff_of_true hlive (by omega)
    · rw [← hother b hba, ← hm.live b]
      split
      · rw [update_of_ne hba]
      · rfl
  · by_cases hba : b = a
    · subst hba
      exact (update_self ..).trans hrc
    · refine (update_of_ne hba ..).trans ?_
      rw [hm.rc b (by rwa [hother b hba]), hother b hba]
  · have hlt := hm.lt b
    by_cases hba : b = a
    · subst hba
      omega
    · rwa [hother b hba] at hlt

theorem Counted.addref_eq (hm : Counted m h) (hpos : 0 < h a) (hroom : h a + 1 < 2 ^ 31) :
    ∃ rc, m.addref a = some { m with rc := rc } ∧ Counted { m with rc := rc } (bump h a) := by
  have hself : bump h a a = h a + 1 := update_self ..
  have hother : ∀ b, b ≠ a → bump h a b = h b := fun b hb => update_of_ne hb ..
  refine ⟨_, if_pos ((hm.live a).mpr hpos), fun b => ?_, fun b hb => ?_, fun b => ?_⟩
  · by_cases hba : b = a
    · subst hba
      exact iff_of_true ((hm.live b).mpr hpos) (by omega)
    · rw [hother b hba]
      exact hm.live b
  · by_cases hba : b = a
    · subst hba
      refine (update_self ..).trans ?_
      rw [hm.rc b hpos, hself]
      exact int_eq (by omega) (by omega)
    · refine (update_of_ne hba ..).trans ?_
      rw [hother b hba] at hb ⊢
      exact hm.rc b hb
  · by_cases hba : b = a
    · subst hba
      omega
    · rw [hother b hba]
      exact hm.lt b

/-! ## What holds of a list -/

/-- The elements. -/
def ids (nodes : List (ℕ × ζ)) : List ℕ := nodes.map Prod.fst

/-- The values. -/
def vals (nodes : List (ℕ × ζ)) : Multiset ζ := nodes.map Prod.snd

@[simp] theorem ids_nil : ids ([] : List (ℕ × ζ)) = [] := rfl

@[simp] theorem ids_cons (x : ℕ × ζ) (nodes : List (ℕ × ζ)) : ids (x :: nodes) = x.1 :: ids nodes :=
  rfl

@[simp] theorem ids_append (n1 n2 : List (ℕ × ζ)) : ids (n1 ++ n2) = ids n1 ++ ids n2 :=
  map_append

@[simp] theorem vals_cons (x : ℕ × ζ) (nodes : List (ℕ × ζ)) :
    vals (x :: nodes) = x.2 ::ₘ vals nodes := rfl

@[simp] theorem vals_append (n1 n2 : List (ℕ × ζ)) : vals (n1 ++ n2) = vals n1 + vals n2 := by
  rw [vals, map_append]
  rfl

theorem vals_middle (n1 n2 : List (ℕ × ζ)) (x : ℕ × ζ) :
    vals (n1 ++ x :: n2) = x.2 ::ₘ vals (n1 ++ n2) := by
  rw [vals_append, vals_append, vals_cons, Multiset.add_cons]

/-- How often an element is referred to by the list and by iterators. -/
def holders (nodes : List (ℕ × ζ)) (ps : Multiset (Option ℕ)) (a : ℕ) : ℕ :=
  (ids nodes).count a + ps.count (some a)

theorem holders_middle (n1 n2 : List (ℕ × ζ)) (x : ℕ × ζ) (ps : Multiset (Option ℕ)) :
    holders (n1 ++ x :: n2) ps = bump (holders (n1 ++ n2) ps) x.1 := by
  funext b
  unfold bump holders
  by_cases hb : b = x.1
  · subst hb
    simp only [ids_append, ids_cons, count_append, count_cons_self, update_self]
    omega
  · simp only [ids_append, ids_cons, count_append, update_of_ne hb, count_cons_of_ne (Ne.symm hb)]

theorem holders_cons (nodes : List (ℕ × ζ)) (a : ℕ) (ps : Multiset (Option ℕ)) :
    holders nodes (some a ::ₘ ps) = bump (holders nodes ps) a := by
  funext b
  unfold bump holders
  by_cases hb : b = a
  · subst hb
    rw [Multiset.count_cons_self, update_self, add_assoc]
  · rw [Multiset.count_cons_of_ne fun h => hb (Option.some.inj h), update_of_ne hb]

theorem holders_none (nodes : List (ℕ × ζ)) (ps : Multiset (Option ℕ)) :
    holders nodes (none ::ₘ ps) = holders nodes ps := by
  funext b
  rw [holders, holders, Multiset.count_cons_of_ne (some_ne_none b)]

/-- The elements are linked in their order and have their values. -/
structure Linked (m : Llist ζ) (nodes : List (ℕ × ζ)) : Prop where
  head : m.head = (ids nodes).head?
  tail : m.tail = (ids nodes).getLast?
  threaded : Threaded m.prev m.next (ids nodes)
  data : ∀ x ∈ nodes, m.data x.1 = some x.2
  count : m.count = nodes.length
  length_lt : nodes.length < 2 ^ 31

variable [DecidableEq ζ]

/-- The elements are linked, `ps` are the pointers of the iterators, and the reference counts are
raised for the values of the elements and for those that were returned. -/
structure Holds (refcounted : ζ → Bool) (m : Llist ζ) (nodes : List (ℕ × ζ))
    (ps : Multiset (Option ℕ)) (returned : Multiset ζ) : Prop where
  linked : Linked m nodes
  counted : Counted m (holders nodes ps)
  fresh : ∀ a, m.live a = true → a < m.fresh
  refs : ∀ v, refcounted v = true → m.refs v = (vals nodes + returned).count v

variable {refcounted : ζ → Bool} {nodes n1 n2 : List (ℕ × ζ)} {ps : Multiset (Option ℕ)}
  {returned : Multiset ζ}

/-! ## Reference counts of values -/

variable {held : Multiset ζ} {o : Option ℕ} {refs : ζ → ℤ}

theorem raise_owed (h : ∀ w, refcounted w = true → refs w = held.count w) (v : ζ) :
    ∀ w, refcounted w = true → raise refcounted refs v w = (v ::ₘ held).count w := by
  intro w hw
  unfold raise
  by_cases hvw : w = v
  · subst hvw
    rw [if_pos hw, update_self, Multiset.count_cons_self, h w hw]
    omega
  · rw [Multiset.count_cons_of_ne hvw, ← h w hw]
    split
    · exact update_of_ne hvw ..
    · rfl

theorem lower_owed (h : ∀ w, refcounted w = true → refs w = (v ::ₘ held).count w) :
    ∀ w, refcounted w = true → lower refcounted refs v w = held.count w := by
  intro w hw
  have hcount := h w hw
  unfold lower
  by_cases hvw : w = v
  · subst hvw
    rw [Multiset.count_cons_self] at hcount
    rw [if_pos hw, update_self]
    omega
  · rw [Multiset.count_cons_of_ne hvw] at hcount
    rw [← hcount]
    split
    · exact update_of_ne hvw ..
    · rfl

theorem lower_raise (refs : ζ → ℤ) (v : ζ) :
    lower refcounted (raise refcounted refs v) v = refs := by
  unfold lower raise
  cases hv : refcounted v with
  | true =>
    rw [if_pos rfl, if_pos rfl, update_self, update_idem, Int.add_sub_cancel, update_eq_self]
  | false => rfl

/-! ## A new element -/

/-- The memory with a new element between two others. -/
def Llist.inserted (refcounted : ζ → Bool) (m : Llist ζ) (before after head tail : Option ℕ)
    (v : ζ) : Llist ζ where
  live := Function.update m.live m.fresh true
  prev := put (Function.update m.prev m.fresh before) after (some m.fresh)
  next := put (Function.update m.next m.fresh after) before (some m.fresh)
  rc := Function.update m.rc m.fresh 1
  data := Function.update m.data m.fresh (some v)
  fresh := m.fresh + 1
  head := head
  tail := tail
  count := int (m.count + 1)
  refs := raise refcounted m.refs v

theorem Holds.fresh_eq (h : Holds refcounted m nodes ps returned) :
    holders nodes ps m.fresh = 0 := by
  by_contra hne
  have hlive := (h.counted.live m.fresh).mpr (Nat.pos_of_ne_zero hne)
  exact lt_irrefl _ (h.fresh _ hlive)

theorem Holds.fresh_notMem (h : Holds refcounted m nodes ps returned) : m.fresh ∉ ids nodes := by
  have hzero := h.fresh_eq
  rw [holders] at hzero
  exact count_eq_zero.mp (by omega)

/-- What holds with a new element, of the count and of what it links to. -/
theorem Holds.insert (h : Holds refcounted m (n1 ++ n2) ps returned)
    (hroom : (n1 ++ n2).length + 1 < 2 ^ 31) (v : ζ) :
    Holds refcounted (m.inserted refcounted (ids n1).getLast? (ids n2).head?
        (ids (n1 ++ (m.fresh, v) :: n2)).head? (ids (n1 ++ (m.fresh, v) :: n2)).getLast? v)
      (n1 ++ (m.fresh, v) :: n2) ps returned := by
  have hfresh := h.fresh_eq
  have hnot := h.fresh_notMem
  have hlen : (n1 ++ (m.fresh, v) :: n2).length = (n1 ++ n2).length + 1 := by
    rw [length_append, length_append, length_cons, add_assoc]
  obtain ⟨hlinked, hcounted, hlt, hrefs⟩ := h
  refine ⟨⟨rfl, rfl, ?_, fun x hx => ?_, ?_, by omega⟩, ?_, fun b hb => ?_, ?_⟩
  · have hthreaded := hlinked.threaded
    rw [ids_append] at hthreaded hnot ⊢
    exact hthreaded.insert hnot
  · dsimp only [Llist.inserted]
    by_cases hx' : x = (m.fresh, v)
    · rw [hx', update_self]
    · have hmem : x ∈ n1 ++ n2 := by
        rcases mem_append.mp hx with hx | hx
        · exact mem_append_left _ hx
        · exact mem_append_right _ (mem_of_ne_of_mem hx' hx)
      rw [update_of_ne, hlinked.data x hmem]
      rintro heq
      exact hnot (heq ▸ mem_map_of_mem hmem)
  · dsimp only [Llist.inserted]
    rw [hlinked.count, hlen]
    exact int_eq (by omega) (by omega)
  · rw [holders_middle]
    refine ⟨fun b => ?_, fun b hb => ?_, fun b => ?_⟩
    all_goals
      dsimp only [Llist.inserted]
      by_cases hbf : b = m.fresh
    · subst hbf
      rw [bump, update_self, update_self]
      exact iff_of_true rfl (Nat.succ_pos _)
    · rw [bump, update_of_ne hbf, update_of_ne hbf]
      exact hcounted.live b
    · subst hbf
      rw [bump, update_self, update_self, hfresh]
      rfl
    · rw [bump, update_of_ne hbf] at hb
      rw [bump, update_of_ne hbf, update_of_ne hbf]
      exact hcounted.rc b hb
    · subst hbf
      rw [bump, update_self]
      omega
    · rw [bump, update_of_ne hbf]
      exact hcounted.lt b
  · dsimp only [Llist.inserted] at hb ⊢
    by_cases hbf : b = m.fresh
    · omega
    · rw [update_of_ne hbf] at hb
      exact Nat.lt_succ_of_lt (hlt b hb)
  · rw [vals_middle, Multiset.cons_add]
    exact raise_owed hrefs v

/-! ## Fields of live elements -/

theorem Holds.live (h : Holds refcounted m nodes ps returned) (ha : a ∈ ids nodes) :
    m.live a = true := by
  refine (h.counted.live a).mpr ?_
  have hpos := count_pos_iff.mpr ha
  rw [holders]
  omega

theorem ctor_eq (refcounted : ζ → Bool) (hlive : m.live a = true) (hdata : m.data a = some v) :
    m.ctor refcounted a = some { m with refs := raise refcounted m.refs v } := by
  rw [Llist.ctor, Llist.read, if_pos hlive, hdata]
  rfl

theorem dtor_eq (refcounted : ζ → Bool) (hlive : m.live a = true) (hdata : m.data a = some v) :
    m.dtor refcounted a = some { m with
      refs := lower refcounted m.refs v, data := Function.update m.data a none } := by
  rw [Llist.dtor, Llist.read, if_pos hlive, hdata]
  exact if_pos hlive

theorem Holds.push_eq (h : Holds refcounted m nodes ps returned) (v : ζ) : m.push refcounted v =
      some (m.inserted refcounted (ids nodes).getLast? none (ids (nodes ++ [(m.fresh, v)])).head?
        (ids (nodes ++ [(m.fresh, v)])).getLast? v) := by
  have htail := h.linked.tail
  have hhead := h.linked.head
  have hfresh := h.fresh_notMem
  rcases eq_nil_or_concat nodes with rfl | ⟨nodes, x, rfl⟩
  · simp only [Llist.push, Llist.alloc, htail, ids_nil, List.getLast?_nil, bind_eq_bind, bind_some]
    rw [ctor_eq refcounted (update_self ..) (update_self ..)]
    rfl
  · have hlive : Function.update m.live m.fresh true x.1 = true := by
      rw [update_of_ne fun hx => hfresh (by simp [hx]), h.live (by simp)]
    have hlast : m.tail = some x.1 := by simp [htail]
    have hfirst : m.head = (ids (nodes.concat x ++ [(m.fresh, v)])).head? := by
      rw [hhead]; cases nodes <;> simp
    simp only [Llist.push, Llist.alloc, hlast, Llist.setNext, bind_eq_bind, if_pos hlive, bind_some]
    rw [ctor_eq refcounted (update_self ..) (update_self ..), Llist.inserted, ← hfirst]
    simp [put]

/-- A value is put behind the list. -/
theorem Holds.push (h : Holds refcounted m nodes ps returned) (hroom : nodes.length + 1 < 2 ^ 31)
    (v : ζ) : ∃ m', m.push refcounted v = some m' ∧
      Holds refcounted m' (nodes ++ [(m.fresh, v)]) ps returned := by
  refine ⟨_, h.push_eq v, ?_⟩
  rw [← append_nil nodes] at h hroom
  have hinsert := h.insert hroom v
  exact hinsert

theorem Holds.unshift_eq (h : Holds refcounted m nodes ps returned) (v : ζ) :
    m.unshift refcounted v =
      some (m.inserted refcounted none (ids nodes).head? (ids ((m.fresh, v) :: nodes)).head?
        (ids ((m.fresh, v) :: nodes)).getLast? v) := by
  have htail := h.linked.tail
  have hhead := h.linked.head
  have hfresh := h.fresh_notMem
  cases nodes with
  | nil =>
    simp only [Llist.unshift, Llist.alloc, hhead, ids_nil, List.head?_nil, bind_eq_bind, bind_some]
    rw [ctor_eq refcounted (update_self ..) (update_self ..)]
    rfl
  | cons x nodes =>
    have hlive : Function.update m.live m.fresh true x.1 = true := by
      rw [update_of_ne fun hx => hfresh (by simp [hx]), h.live (by simp)]
    have hfirst : m.head = some x.1 := hhead
    have hlast : m.tail = (ids ((m.fresh, v) :: x :: nodes)).getLast? := by
      rw [htail, ids_cons, ids_cons, ids_cons, List.getLast?_cons_cons]
    simp only [Llist.unshift, Llist.alloc, hfirst, Llist.setPrev, bind_eq_bind,
      if_pos hlive, bind_some]
    rw [ctor_eq refcounted (update_self ..) (update_self ..), ← hlast]
    rfl

/-- A value is put in front of the list. -/
theorem Holds.unshift (h : Holds refcounted m nodes ps returned)
    (hroom : nodes.length + 1 < 2 ^ 31) (v : ζ) : ∃ m', m.unshift refcounted v = some m' ∧
      Holds refcounted m' ((m.fresh, v) :: nodes) ps returned := by
  refine ⟨_, h.unshift_eq v, ?_⟩
  have hinsert := (show Holds refcounted m ([] ++ nodes) ps returned from h).insert hroom v
  exact hinsert

/-! ## An element that is taken out -/

/-- The memory without an element between two others, of which nothing is counted yet. -/
def Llist.erased (m : Llist ζ) (a : ℕ) (before after head tail : Option ℕ) : Llist ζ where
  live := m.live
  prev := put m.prev after before
  next := put m.next before after
  rc := m.rc
  data := Function.update m.data a none
  fresh := m.fresh
  head := head
  tail := tail
  count := int (m.count - 1)
  refs := m.refs

variable {x : ℕ × ζ}

theorem Holds.erase (h : Holds refcounted m (n1 ++ x :: n2) ps returned) :
    Linked (m.erased x.1 (ids n1).getLast? (ids n2).head? (ids (n1 ++ n2)).head?
        (ids (n1 ++ n2)).getLast?) (n1 ++ n2) ∧ Counted m (bump (holders (n1 ++ n2) ps) x.1) := by
  obtain ⟨hlinked, hcounted, -, -⟩ := h
  have hlen : (n1 ++ x :: n2).length = (n1 ++ n2).length + 1 := by
    rw [length_append, length_append, length_cons, add_assoc]
  have hlt := hlinked.length_lt
  have hthreaded := hlinked.threaded
  rw [ids_append] at hthreaded
  have hnot : x.1 ∉ ids n1 ++ ids n2 :=
    (nodup_cons.mp (nodup_middle.mp hthreaded.nodup)).1
  rw [holders_middle] at hcounted
  refine ⟨⟨rfl, rfl, ?_, fun y hy => ?_, ?_, by omega⟩, hcounted⟩
  · rw [ids_append]
    exact hthreaded.erase
  · dsimp only [Llist.erased]
    rw [update_of_ne]
    · rcases mem_append.mp hy with hy | hy
      · exact hlinked.data y (mem_append_left _ hy)
      · exact hlinked.data y (mem_append_right _ (mem_cons_of_mem x hy))
    · intro heq
      rw [← heq, ← ids_append] at hnot
      exact hnot (mem_map_of_mem hy)
  · dsimp only [Llist.erased]
    rw [hlinked.count]
    exact (int_eq (by omega) (by omega)).trans (by omega)

theorem release_eq (refcounted : ζ → Bool) (hm : Counted m (bump h a)) (hdata : m.data a = some v) :
    ∃ rc live, m.release refcounted a = some ({ m with
        rc := rc, live := live, data := Function.update m.data a none }, some v) ∧
      Counted { m with rc := rc, live := live } h := by
  have hm' : Counted { m with data := Function.update m.data a none } (bump h a) :=
    ⟨hm.live, hm.rc, hm.lt⟩
  obtain ⟨rc, live, hdelref, hcounted⟩ := hm'.delref_eq
  have hself : bump h a a = h a + 1 := update_self ..
  have hlive : m.live a = true := (hm.live a).mpr (by omega)
  refine ⟨rc, live, ?_, hcounted.live, hcounted.rc, hcounted.lt⟩
  have hdtor := dtor_eq (m := { m with refs := raise refcounted m.refs v }) refcounted hlive hdata
  rw [Llist.release, Llist.read, if_pos hlive, bind_eq_bind, bind_some, hdata, Llist.zAddref, hdtor]
  simp only [Llist.setData, if_pos hlive, bind_eq_bind, bind_some, lower_raise,
    update_idem, hdelref]

theorem le_bump (h : ℕ → ℕ) (a b : ℕ) : h b ≤ bump h a b := by
  unfold bump
  by_cases hb : b = a
  · subst hb
    rw [update_self]
    exact Nat.le_succ _
  · rw [update_of_ne hb]

/-- What holds when an element that was taken out has been released. -/
theorem Holds.released (rc : ℕ → ℤ) (live : ℕ → Bool)
    (h : Holds refcounted m (n1 ++ x :: n2) ps returned)
    (hcounted : ∀ m' : Llist ζ, Counted { m' with rc := rc, live := live } (holders (n1 ++ n2) ps))
    :
    Holds refcounted { m.erased x.1 (ids n1).getLast? (ids n2).head? (ids (n1 ++ n2)).head?
      (ids (n1 ++ n2)).getLast? with rc := rc, live := live } (n1 ++ n2) ps
      (x.2 ::ₘ returned) := by
  obtain ⟨hlinked, hold⟩ := h.erase
  refine ⟨⟨hlinked.head, hlinked.tail, hlinked.threaded, hlinked.data, hlinked.count,
    hlinked.length_lt⟩, hcounted _, fun b hb => h.fresh b ?_, fun w hw => ?_⟩
  · have hpos := ((hcounted m).live b).mp hb
    exact (hold.live b).mpr (lt_of_lt_of_le hpos (le_bump _ _ _))
  · have hrefs := h.refs w hw
    rw [vals_middle, Multiset.cons_add, ← Multiset.add_cons] at hrefs
    exact hrefs

theorem Holds.pop_eq (h : Holds refcounted m (nodes ++ [x]) ps returned) :
    m.pop refcounted = Llist.release refcounted { m with
      next := put m.next (ids nodes).getLast? none, head := (ids nodes).head?,
      tail := (ids nodes).getLast?, count := int (m.count - 1) } x.1 := by
  have hlive : m.live x.1 = true := h.live (by simp)
  have htail : m.tail = some x.1 := by simp [h.linked.tail]
  have hhead := h.linked.head
  have hthreaded := h.linked.threaded
  rw [ids_append] at hthreaded
  have hprev : m.prev x.1 = (ids nodes).getLast? := hthreaded.prev_eq
  rw [Llist.pop, htail]
  dsimp only
  rw [Llist.read, if_pos hlive, hprev, bind_eq_bind, bind_some]
  rcases eq_nil_or_concat nodes with rfl | ⟨nodes, y, rfl⟩
  · rfl
  · have hlast : (ids (nodes.concat y)).getLast? = some y.1 := by simp
    have hfirst : (ids (nodes.concat y)).head? = m.head := by
      rw [hhead]
      cases nodes <;> simp
    rw [hlast, hfirst]
    dsimp only
    rw [Llist.setNext, if_pos (h.live (by simp))]
    rfl

/-- The last value is taken out. -/
theorem Holds.pop (h : Holds refcounted m (nodes ++ [x]) ps returned) :
    ∃ m', m.pop refcounted = some (m', some x.2) ∧
      Holds refcounted m' nodes ps (x.2 ::ₘ returned) := by
  obtain ⟨-, hold⟩ := h.erase
  rw [append_nil] at hold
  have hm : Counted { m with
      next := put m.next (ids nodes).getLast? none, head := (ids nodes).head?,
      tail := (ids nodes).getLast?, count := int (m.count - 1) } (bump (holders nodes ps) x.1) :=
    ⟨hold.live, hold.rc, hold.lt⟩
  obtain ⟨rc, live, hrelease, hcounted⟩ := release_eq refcounted hm
    (h.linked.data x (by simp))
  have hholds := h.released rc live fun m' => by
    rw [append_nil]
    exact ⟨hcounted.live, hcounted.rc, hcounted.lt⟩
  rw [append_nil] at hholds
  exact ⟨_, h.pop_eq.trans hrelease, hholds⟩

theorem Holds.shift_eq (h : Holds refcounted m (x :: nodes) ps returned) :
    m.shift refcounted = Llist.release refcounted { m with
      prev := put m.prev (ids nodes).head? none, head := (ids nodes).head?,
      tail := (ids nodes).getLast?, count := int (m.count - 1) } x.1 := by
  have hlive : m.live x.1 = true := h.live (by simp)
  have hhead : m.head = some x.1 := h.linked.head
  have htail := h.linked.tail
  have hthreaded : Threaded m.prev m.next ([] ++ x.1 :: ids nodes) := h.linked.threaded
  have hnext : m.next x.1 = (ids nodes).head? := hthreaded.next_eq
  rw [Llist.shift, hhead]
  dsimp only
  rw [Llist.read, if_pos hlive, hnext, bind_eq_bind, bind_some]
  cases nodes with
  | nil => rfl
  | cons y nodes =>
    have hlast : (ids (y :: nodes)).getLast? = m.tail := by
      rw [htail, ids_cons, ids_cons, ids_cons, List.getLast?_cons_cons]
    rw [hlast, ids_cons, List.head?_cons]
    dsimp only
    rw [Llist.setPrev, if_pos (h.live (by simp))]
    rfl

/-- The first value is taken out. -/
theorem Holds.shift (h : Holds refcounted m (x :: nodes) ps returned) :
    ∃ m', m.shift refcounted = some (m', some x.2) ∧
      Holds refcounted m' nodes ps (x.2 ::ₘ returned) := by
  have h' : Holds refcounted m ([] ++ x :: nodes) ps returned := h
  obtain ⟨-, hold⟩ := h'.erase
  have hm : Counted { m with
      prev := put m.prev (ids nodes).head? none, head := (ids nodes).head?,
      tail := (ids nodes).getLast?, count := int (m.count - 1) } (bump (holders nodes ps) x.1) :=
    ⟨hold.live, hold.rc, hold.lt⟩
  obtain ⟨rc, live, hrelease, hcounted⟩ := release_eq refcounted hm
    (h.linked.data x mem_cons_self)
  have hholds := h'.released rc live fun m' =>
    ⟨hcounted.live, hcounted.rc, hcounted.lt⟩
  exact ⟨_, h.shift_eq.trans hrelease, hholds⟩

/-! ## Iterators -/

theorem Holds.checkDelref (h : Holds refcounted m nodes (o ::ₘ ps) returned) :
    ∃ m', m.checkDelref o = some m' ∧ Holds refcounted m' nodes ps returned ∧
      m'.prev = m.prev ∧ m'.next = m.next := by
  cases o with
  | none =>
    obtain ⟨hlinked, hcounted, hfresh, hrefs⟩ := h
    rw [holders_none] at hcounted
    exact ⟨m, rfl, ⟨hlinked, hcounted, hfresh, hrefs⟩, rfl, rfl⟩
  | some a =>
    obtain ⟨hlinked, hold, hfresh, hrefs⟩ := h
    rw [holders_cons] at hold
    obtain ⟨rc, live, hdelref, hcounted⟩ := hold.delref_eq
    refine ⟨_, hdelref, ⟨⟨hlinked.head, hlinked.tail, hlinked.threaded, hlinked.data,
      hlinked.count, hlinked.length_lt⟩, hcounted, fun b hb => hfresh b ?_, hrefs⟩, rfl, rfl⟩
    have hpos := (hcounted.live b).mp hb
    exact (hold.live b).mpr (lt_of_lt_of_le hpos (le_bump _ _ _))

/-- An element can be counted once more. -/
def Room (nodes : List (ℕ × ζ)) (ps : Multiset (Option ℕ)) (o : Option ℕ) : Prop :=
  ∀ a ∈ o, holders nodes ps a + 1 < 2 ^ 31

instance (nodes : List (ℕ × ζ)) (ps : Multiset (Option ℕ)) (o : Option ℕ) :
    Decidable (Room nodes ps o) := inferInstanceAs (Decidable (∀ a ∈ o, _))

/-- An element is in the list, or an iterator stands on it. -/
def Present (nodes : List (ℕ × ζ)) (ps : Multiset (Option ℕ)) (o : Option ℕ) : Prop :=
  ∀ a ∈ o, a ∈ ids nodes ∨ some a ∈ ps

instance (nodes : List (ℕ × ζ)) (ps : Multiset (Option ℕ)) (o : Option ℕ) :
    Decidable (Present nodes ps o) := inferInstanceAs (Decidable (∀ a ∈ o, _))

theorem Holds.checkAddref (h : Holds refcounted m nodes ps returned)
    (hpresent : Present nodes ps o) (hroom : Room nodes ps o) :
    ∃ m', m.checkAddref o = some m' ∧ Holds refcounted m' nodes (o ::ₘ ps) returned := by
  obtain ⟨hlinked, hold, hfresh, hrefs⟩ := h
  cases o with
  | none =>
    rw [← holders_none] at hold
    exact ⟨m, rfl, hlinked, hold, hfresh, hrefs⟩
  | some a =>
    have hpos : 0 < holders nodes ps a := by
      rw [holders]
      rcases hpresent a rfl with hmem | hmem
      · have hcount := count_pos_iff.mpr hmem
        omega
      · have hcount := Multiset.count_pos.mpr hmem
        omega
    obtain ⟨rc, haddref, hcounted⟩ := hold.addref_eq hpos (hroom a rfl)
    rw [← holders_cons] at hcounted
    exact ⟨_, haddref, ⟨hlinked.head, hlinked.tail, hlinked.threaded, hlinked.data,
      hlinked.count, hlinked.length_lt⟩, hcounted, hfresh, hrefs⟩

/-- The element at which an iteration begins. -/
def firstOf (lifo : Bool) (nodes : List (ℕ × ζ)) : Option ℕ :=
  if lifo then (ids nodes).getLast? else (ids nodes).head?

omit [DecidableEq ζ] in
theorem firstOf_present (lifo : Bool) (nodes : List (ℕ × ζ)) (ps : Multiset (Option ℕ)) :
    Present nodes ps (firstOf lifo nodes) := by
  intro a ha
  unfold firstOf at ha
  split at ha
  · exact .inl (mem_of_getLast? ha)
  · exact .inl (mem_of_head? ha)

theorem Holds.rewind {c : Cursor} {flags : Flags}
    (h : Holds refcounted m nodes (c.pointer ::ₘ ps) returned)
    (hroom : Room nodes ps (firstOf flags.lifo nodes)) :
    ∃ m' c', rewindHelper c m flags = some (m', c') ∧
      Holds refcounted m' nodes (c'.pointer ::ₘ ps) returned := by
  obtain ⟨m1, hdelref, h1, -, -⟩ := h.checkDelref
  have hfirst : (if flags.lifo then (⟨m1.tail, int (m1.count - 1)⟩ : Cursor)
      else ⟨m1.head, 0⟩).pointer = firstOf flags.lifo nodes := by
    rw [firstOf, ← h1.linked.tail, ← h1.linked.head]
    split <;> rfl
  obtain ⟨m2, haddref, h2⟩ := h1.checkAddref (firstOf_present _ _ _) hroom
  refine ⟨m2, _, ?_, by rw [hfirst]; exact h2⟩
  rw [rewindHelper, hdelref, bind_eq_bind, bind_some]
  dsimp only
  rw [hfirst, haddref]
  rfl

/-- The list without the element at which an iteration begins. -/
def takeEnd (lifo : Bool) (nodes : List (ℕ × ζ)) : List (ℕ × ζ) :=
  if lifo then nodes.dropLast else nodes.tail

/-- What a step of an iterator leaves of the list. -/
def left (flags : Flags) (nodes : List (ℕ × ζ)) : List (ℕ × ζ) :=
  if flags.delete then takeEnd flags.lifo nodes else nodes

/-- The link that a step of an iterator follows. -/
def Llist.link (m : Llist ζ) (lifo : Bool) : ℕ → Option ℕ := if lifo then m.prev else m.next

/-- A value that was returned is dropped. -/
theorem Holds.drop (h : Holds refcounted m nodes ps (v ::ₘ returned)) :
    Holds refcounted (m.zvalPtrDtor refcounted (some v)) nodes ps returned := by
  obtain ⟨hlinked, hcounted, hfresh, hrefs⟩ := h
  rw [Multiset.add_cons] at hrefs
  exact ⟨⟨hlinked.head, hlinked.tail, hlinked.threaded, hlinked.data, hlinked.count,
    hlinked.length_lt⟩, ⟨hcounted.live, hcounted.rc, hcounted.lt⟩, hfresh, lower_owed hrefs⟩

theorem Holds.pop_drop (h : Holds refcounted m nodes ps returned) :
    ∃ m' ret, m.pop refcounted = some (m', ret) ∧
      Holds refcounted (m'.zvalPtrDtor refcounted ret) nodes.dropLast ps returned := by
  rcases eq_nil_or_concat nodes with rfl | ⟨nodes, x, rfl⟩
  · refine ⟨m, none, ?_, h⟩
    have htail : m.tail = none := h.linked.tail
    rw [Llist.pop, htail]
  · rw [concat_eq_append] at h ⊢
    obtain ⟨m', hpop, h'⟩ := h.pop
    rw [dropLast_concat]
    exact ⟨m', _, hpop, h'.drop⟩

theorem Holds.shift_drop (h : Holds refcounted m nodes ps returned) :
    ∃ m' ret, m.shift refcounted = some (m', ret) ∧
      Holds refcounted (m'.zvalPtrDtor refcounted ret) nodes.tail ps returned := by
  cases nodes with
  | nil =>
    refine ⟨m, none, ?_, h⟩
    have hhead : m.head = none := h.linked.head
    rw [Llist.shift, hhead]
  | cons x nodes =>
    obtain ⟨m', hshift, h'⟩ := h.shift
    exact ⟨m', _, hshift, h'.drop⟩

/-- The part of a step of an iterator before it leaves the element. -/
theorem Holds.moved (c : Cursor) (flags : Flags) {old : ℕ}
    (h : Holds refcounted m nodes ps returned) (hlive : m.live old = true) : ∃ m' position,
      moveBranches refcounted c m flags old = some (m', ⟨m.link flags.lifo old, position⟩) ∧
      Holds refcounted m' (left flags nodes) ps returned := by
  obtain ⟨mp, retp, hpop, hp⟩ := h.pop_drop
  obtain ⟨ms, rets, hshift, hs⟩ := h.shift_drop
  obtain ⟨delete, lifo, fix⟩ := flags
  cases lifo with
  | true =>
    cases delete with
    | true =>
      refine ⟨_, int (c.position - 1), ?_, hp⟩
      simp [moveBranches, Llist.read, hlive, Llist.link, hpop]
    | false =>
      refine ⟨m, int (c.position - 1), ?_, h⟩
      simp [moveBranches, Llist.read, hlive, Llist.link]
  | false =>
    cases delete with
    | true =>
      refine ⟨_, c.position, ?_, hs⟩
      simp [moveBranches, Llist.read, hlive, Llist.link, hshift]
    | false =>
      refine ⟨m, int (c.position + 1), ?_, h⟩
      simp [moveBranches, Llist.read, hlive, Llist.link]

/-- A step of an iterator: the element that the link leads to has to be there when delete mode has
taken the end of the list. -/
theorem Holds.moveForward {c : Cursor} {flags : Flags}
    (h : Holds refcounted m nodes (c.pointer ::ₘ ps) returned)
    (hpresent : ∀ old ∈ c.pointer, Present (left flags nodes) ps (m.link flags.lifo old))
    (hroom : ∀ old ∈ c.pointer, Room (left flags nodes) ps (m.link flags.lifo old)) :
    ∃ m' c', moveForwardHelper refcounted c m flags = some (m', c') ∧
      Holds refcounted m' (if c.pointer = none then nodes else left flags nodes)
        (c'.pointer ::ₘ ps) returned := by
  obtain ⟨pointer, position⟩ := c
  cases pointer with
  | none => exact ⟨m, ⟨none, position⟩, rfl, h⟩
  | some old =>
    have hlive : m.live old = true := by
      refine (h.counted.live old).mpr ?_
      rw [holders_cons, bump, update_self]
      exact Nat.succ_pos _
    obtain ⟨m1, position', hmoved, h1⟩ := h.moved ⟨some old, position⟩ flags hlive
    obtain ⟨m2, hdelref, h2, -, -⟩ := h1.checkDelref
    obtain ⟨m3, haddref, h3⟩ := h2.checkAddref (hpresent old rfl) (hroom old rfl)
    refine ⟨m3, ⟨m.link flags.lifo old, position'⟩, ?_, h3⟩
    have hdelref' : m1.delref old = some m2 := hdelref
    rw [moveForwardHelper]
    dsimp only
    rw [hmoved, bind_eq_bind, bind_some]
    rw [hdelref', bind_eq_bind, bind_some, haddref]
    rfl

/-! ## Indices -/

/-- Where an index is in the list. -/
def place (lifo : Bool) (n : ℕ) (index : ℤ) : ℕ :=
  if lifo then n - 1 - index.toNat else index.toNat

omit [DecidableEq ζ] in
theorem offsetLoop_eq {backward : Bool} {l : List ℕ} (hl : Segment (m.link backward) none l)
    (hlive : ∀ a ∈ l, m.live a = true) (n : ℕ) : m.offsetLoop backward n l.head? = some l[n]? := by
  induction n generalizing l with
  | zero =>
    rw [Llist.offsetLoop, List.head?_eq_getElem?]
  | succ n ih =>
    cases l with
    | nil => rfl
    | cons a l =>
      obtain ⟨ha, hl⟩ := hl
      have hread : m.read (if backward then m.prev else m.next) a = some l.head? := by
        rw [or_none] at ha
        rw [← ha, Llist.read, if_pos (hlive a mem_cons_self)]
        rfl
      rw [List.head?_cons, Llist.offsetLoop, hread, bind_eq_bind, bind_some,
        ih hl fun b hb => hlive b (mem_cons_of_mem a hb), List.getElem?_cons_succ]

/-- The element with an index is found. -/
theorem Holds.offset_eq (h : Holds refcounted m nodes ps returned) {index : ℤ} (hlo : 0 ≤ index)
    (hhi : index < nodes.length) (lifo : Bool) :
    ∃ n1 x n2, nodes = n1 ++ x :: n2 ∧ n1.length = place lifo nodes.length index ∧
      m.offset index lifo = some (some x.1) := by
  have hplace : place lifo nodes.length index < nodes.length := by
    unfold place
    split <;> omega
  refine ⟨nodes.take (place lifo nodes.length index), nodes[place lifo nodes.length index],
    nodes.drop (place lifo nodes.length index + 1), ?_, ?_, ?_⟩
  · rw [getElem_cons_drop, take_append_drop]
  · rw [length_take, min_eq_left hplace.le]
  · have hlen : (ids nodes).length = nodes.length := length_map ..
    have hid : (ids nodes)[place lifo nodes.length index]? =
        some nodes[place lifo nodes.length index].1 := by
      rw [ids, List.getElem?_map, List.getElem?_eq_getElem hplace]
      rfl
    rw [← hid]
    cases lifo with
    | true =>
      have hseg : Segment (m.link true) none (ids nodes).reverse := h.linked.threaded.back
      have hloop := offsetLoop_eq hseg (fun a ha => h.live (mem_reverse.mp ha)) index.toNat
      rw [List.head?_reverse, ← h.linked.tail, List.getElem?_reverse (by omega), hlen] at hloop
      exact hloop
    | false =>
      have hseg : Segment (m.link false) none (ids nodes) := h.linked.threaded.forth
      have hloop := offsetLoop_eq hseg (fun a ha => h.live ha) index.toNat
      rw [← h.linked.head] at hloop
      exact hloop

end SplDllist
