/-
# Runs of the doubly linked list of SPL

Every operation on an object does to its list what it should, as long as an iterator does not follow
a link to an element that has been freed and no value with a reference count is added by its index.
-/
import ReadingCode.SplDllist

open LinkedList

namespace SplDllist

open List Option Function

variable {ζ : Type} [DecidableEq ζ] {refcounted : ζ → Bool} {m : Llist ζ} {o : Object ζ}
  {nodes n1 n2 : List (ℕ × ζ)} {ps : Multiset (Option ℕ)} {returned : Multiset ζ} {v : ζ}

/-! ## The methods for an index -/

theorem zAddref_eq (hv : refcounted v = false) : m.zAddref refcounted (some v) = m := by
  rw [Llist.zAddref, raise, hv]
  rfl

variable {x : ℕ × ζ} {index : ℤ}

/-- What the method `add` does in front of an element. -/
theorem Holds.add_eq (h : Holds refcounted o.llist (n1 ++ x :: n2) ps returned)
    (hv : refcounted v = false) (hrange : ¬ (index < 0 ∨ index > o.llist.count))
    (hlt : index ≠ o.llist.count) (hoffset : o.llist.offset index o.flags.lifo = some (some x.1)) :
    o.add refcounted index v = some { o with
      llist := o.llist.inserted refcounted (ids n1).getLast? (ids (x :: n2)).head?
        (ids (n1 ++ (o.llist.fresh, v) :: x :: n2)).head?
        (ids (n1 ++ (o.llist.fresh, v) :: x :: n2)).getLast? v } := by
  have hlive : o.llist.live x.1 = true := h.live (by simp)
  have hfresh := h.fresh_notMem
  have htail := h.linked.tail
  have hhead := h.linked.head
  have hthreaded := h.linked.threaded
  rw [ids_append] at hthreaded
  have hprev : o.llist.prev x.1 = (ids n1).getLast? := hthreaded.prev_eq
  have hlive' : ∀ b ∈ ids (n1 ++ x :: n2),
      Function.update o.llist.live o.llist.fresh true b = true := by
    intro b hb
    have hne : b ≠ o.llist.fresh := ne_of_mem_of_not_mem hb hfresh
    rw [update_of_ne hne, h.live hb]
  have hlast : o.llist.tail = (ids (n1 ++ (o.llist.fresh, v) :: x :: n2)).getLast? := by
    rw [htail]
    simp
  rw [Object.add, if_neg hrange, zAddref_eq hv]
  rw [if_neg hlt, hoffset, bind_eq_bind, bind_some]
  dsimp only
  rw [Llist.read, if_pos hlive, hprev, bind_eq_bind, bind_some, ← hlast]
  rcases eq_nil_or_concat n1 with rfl | ⟨n1, y, rfl⟩
  · simp only [ids_nil, List.getLast?_nil, bind_some, Llist.setPrev, Llist.alloc,
      if_pos (hlive' x.1 (by simp))]
    rw [ctor_eq refcounted (update_self ..) (update_self ..)]
    rfl
  · have hyx : (ids (n1.concat y)).getLast? = some y.1 := by simp
    have hfirst : (ids (n1.concat y ++ (o.llist.fresh, v) :: x :: n2)).head? = o.llist.head := by
      rw [hhead]
      cases n1 <;> simp
    simp only [hyx, hfirst, bind_some, Llist.setPrev, Llist.setNext,
      Llist.alloc, if_pos (hlive' x.1 (by simp)), if_pos (hlive' y.1 (by simp))]
    rw [ctor_eq refcounted (update_self ..) (update_self ..)]
    rfl

/-- The pointers of an object's own traversal and of its iterators. -/
def Object.pointers (o : Object ζ) : Multiset (Option ℕ) :=
  o.traverse.pointer ::ₘ ↑(o.its.map Cursor.pointer)

omit [DecidableEq ζ] in
theorem insertIdx_length (n1 n2 : List (ℕ × ζ)) (x : ℕ × ζ) :
    (n1 ++ n2).insertIdx n1.length x = n1 ++ x :: n2 := by
  induction n1 with
  | nil => rfl
  | cons y n1 ih => exact congrArg (y :: ·) ih

/-- What the method `add` does to the list. -/
def added (o : Object ζ) (nodes : List (ℕ × ζ)) (index : ℤ) (v : ζ) : List (ℕ × ζ) :=
  if index < 0 ∨ index > nodes.length then nodes
  else if index = nodes.length then nodes ++ [(o.llist.fresh, v)]
  else nodes.insertIdx (place o.flags.lifo nodes.length index) (o.llist.fresh, v)

theorem Holds.add (h : Holds refcounted o.llist nodes o.pointers returned)
    (hplain : 0 ≤ index → index ≤ nodes.length → refcounted v = false ∧ nodes.length + 1 < 2 ^ 31) :
    ∃ o', o.add refcounted index v = some o' ∧
      Holds refcounted o'.llist (added o nodes index v) o'.pointers returned := by
  have hcount := h.linked.count
  unfold added
  by_cases hrange : index < 0 ∨ index > nodes.length
  · rw [if_pos hrange]
    rw [← hcount] at hrange
    exact ⟨o, if_pos hrange, h⟩
  · obtain ⟨hv, hroom⟩ := hplain (by omega) (by omega)
    rw [if_neg hrange]
    by_cases hend : index = nodes.length
    · obtain ⟨m', hpush, h'⟩ := h.push hroom v
      rw [if_pos hend]
      rw [← hcount] at hrange hend
      refine ⟨{ o with llist := m' }, ?_, h'⟩
      rw [Object.add, if_neg hrange, zAddref_eq hv]
      rw [if_pos hend, hpush]
      rfl
    · obtain ⟨n1, x, n2, rfl, hlen, hoffset⟩ :=
        h.offset_eq (by omega) (show index < nodes.length by omega) o.flags.lifo
      rw [if_neg hend, ← hlen]
      rw [← hcount] at hrange hend
      refine ⟨_, h.add_eq hv hrange hend hoffset, ?_⟩
      rw [insertIdx_length]
      exact Holds.insert h hroom v

/-- What the method `offsetSet` does with an element. -/
theorem Holds.set (h : Holds refcounted m (n1 ++ x :: n2) ps returned) : Holds refcounted { m with
      refs := raise refcounted (lower refcounted m.refs x.2) v,
      data := Function.update m.data x.1 (some v) } (n1 ++ (x.1, v) :: n2) ps returned := by
  obtain ⟨hlinked, hcounted, hfresh, hrefs⟩ := h
  have hids : ids (n1 ++ (x.1, v) :: n2) = ids (n1 ++ x :: n2) := by
    rw [ids_append, ids_append, ids_cons, ids_cons]
  have hnodup := hlinked.threaded.nodup
  rw [ids_append, ids_cons, nodup_middle, nodup_cons, ← ids_append] at hnodup
  refine ⟨⟨?_, ?_, ?_, fun y hy => ?_, ?_, ?_⟩, ?_, hfresh, ?_⟩
  · rw [hids]
    exact hlinked.head
  · rw [hids]
    exact hlinked.tail
  · rw [hids]
    exact hlinked.threaded
  · by_cases hyx : y = (x.1, v)
    · rw [hyx]
      exact update_self ..
    · have hmem : y ∈ n1 ++ n2 := by
        rcases mem_append.mp hy with hy | hy
        · exact mem_append_left _ hy
        · exact mem_append_right _ (mem_of_ne_of_mem hyx hy)
      have hne : y.1 ≠ x.1 := ne_of_mem_of_not_mem (mem_map_of_mem hmem) hnodup.1
      refine (update_of_ne hne ..).trans (hlinked.data y ?_)
      rcases mem_append.mp hmem with hy | hy
      · exact mem_append_left _ hy
      · exact mem_append_right _ (mem_cons_of_mem x hy)
  · rw [hlinked.count, length_append, length_append, length_cons, length_cons]
  · have hlt := hlinked.length_lt
    rwa [length_append] at hlt ⊢
  · unfold holders
    rw [hids]
    exact ⟨hcounted.live, hcounted.rc, hcounted.lt⟩
  · rw [vals_middle, Multiset.cons_add] at hrefs ⊢
    exact raise_owed (lower_owed hrefs) v

/-- What the method `offsetSet` does to the list. -/
def assigned (o : Object ζ) (nodes : List (ℕ × ζ)) (index : Option ℤ) (v : ζ) : List (ℕ × ζ) :=
  match index with
  | none => nodes ++ [(o.llist.fresh, v)]
  | some index =>
    if index < 0 ∨ index ≥ nodes.length then nodes
    else nodes.modify (place o.flags.lifo nodes.length index) fun x => (x.1, v)

theorem Holds.offsetSet {index : Option ℤ} (h : Holds refcounted o.llist nodes o.pointers returned)
    (hroom : index = none → nodes.length + 1 < 2 ^ 31) :
    ∃ o', o.offsetSet refcounted index v = some o' ∧
      Holds refcounted o'.llist (assigned o nodes index v) o'.pointers returned := by
  cases index with
  | none =>
    obtain ⟨m', hpush, h'⟩ := h.push (hroom rfl) v
    refine ⟨{ o with llist := m' }, ?_, h'⟩
    rw [Object.offsetSet, hpush]
    rfl
  | some index =>
    have hcount := h.linked.count
    rw [assigned]
    by_cases hrange : index < 0 ∨ index ≥ nodes.length
    · rw [if_pos hrange]
      rw [← hcount] at hrange
      exact ⟨o, if_pos hrange, h⟩
    · obtain ⟨n1, x, n2, rfl, hlen, hoffset⟩ :=
        h.offset_eq (by omega) (show index < nodes.length by omega) o.flags.lifo
      have hmodify : (n1 ++ x :: n2).modify n1.length (fun x => (x.1, v)) =
          n1 ++ (x.1, v) :: n2 := by
        rw [modify_eq_take_drop, take_left, drop_left]
        rfl
      have hlive : o.llist.live x.1 = true := h.live (by simp)
      rw [if_neg hrange, ← hlen, hmodify]
      rw [← hcount] at hrange
      refine ⟨{ o with llist := { o.llist with
          refs := raise refcounted (lower refcounted o.llist.refs x.2) v
          data := Function.update o.llist.data x.1 (some v) } }, ?_, Holds.set h⟩
      have hctor := ctor_eq (m := { o.llist with
          refs := lower refcounted o.llist.refs x.2
          data := Function.update o.llist.data x.1 (some v) }) refcounted hlive
        (update_self ..)
      rw [Object.offsetSet, if_neg hrange, hoffset, bind_eq_bind, bind_some]
      dsimp only
      rw [dtor_eq refcounted hlive (h.linked.data x (by simp))]
      simp only [bind_eq_bind, bind_some, Llist.read, if_pos hlive,
        update_self, Llist.zvalPtrDtor, Llist.setData, update_idem, hctor]

/-- What the method `offsetUnset` does to the list. -/
def unset (o : Object ζ) (nodes : List (ℕ × ζ)) (index : ℤ) : List (ℕ × ζ) :=
  if index < 0 ∨ index ≥ nodes.length then nodes
  else nodes.eraseIdx (place o.flags.lifo nodes.length index)

/-- The memory when the method `offsetUnset` has taken out an element and released its value. -/
def Llist.unlinked (refcounted : ζ → Bool) (m : Llist ζ) (n1 n2 : List (ℕ × ζ)) (x : ℕ × ζ) :
    Llist ζ :=
  { m.erased x.1 (ids n1).getLast? (ids n2).head? (ids (n1 ++ n2)).head?
      (ids (n1 ++ n2)).getLast? with refs := lower refcounted m.refs x.2 }

variable {b : Option ℕ} {nodes' : List (ℕ × ζ)}

omit [DecidableEq ζ] in
theorem checkSetNext_eq {x : Option ℕ} (hb : ∀ a ∈ b, m.live a = true) :
    m.checkSetNext b x = some { m with next := put m.next b x } := by
  cases b with
  | none => rfl
  | some a => exact if_pos (hb a rfl)

omit [DecidableEq ζ] in
theorem checkSetPrev_eq {x : Option ℕ} (hb : ∀ a ∈ b, m.live a = true) :
    m.checkSetPrev b x = some { m with prev := put m.prev b x } := by
  cases b with
  | none => rfl
  | some a => exact if_pos (hb a rfl)

/-- What follows in the method `offsetUnset`. -/
theorem Holds.unset_eq (h : Holds refcounted o.llist (n1 ++ x :: n2) ps returned)
    (hrange : ¬ (index < 0 ∨ index ≥ o.llist.count))
    (hoffset : o.llist.offset index o.flags.lifo = some (some x.1)) :
    o.offsetUnset refcounted index = (do
      let (m, traverse) ←
        if o.traverse.pointer = some x.1 then do
          let m ← (o.llist.unlinked refcounted n1 n2 x).delref x.1
          some (m, { o.traverse with pointer := none })
        else some (o.llist.unlinked refcounted n1 n2 x, o.traverse)
      let data ← m.read m.data x.1
      let m ← (m.zvalPtrDtor refcounted data).setData x.1 none
      let m ← m.delref x.1
      some { o with llist := m, traverse := traverse }) := by
  have hlive : o.llist.live x.1 = true := h.live (by simp)
  have hthreaded := h.linked.threaded
  rw [ids_append] at hthreaded
  have hprev : o.llist.prev x.1 = (ids n1).getLast? := hthreaded.prev_eq
  have hnext : o.llist.next x.1 = (ids n2).head? := hthreaded.next_eq
  have hnot := (nodup_cons.mp (nodup_middle.mp hthreaded.nodup)).1
  have hhead : (if o.llist.head = some x.1 then (ids n2).head? else o.llist.head) =
      (ids (n1 ++ n2)).head? := by
    rw [h.linked.head]
    cases n1 with
    | nil => exact if_pos rfl
    | cons y n1 =>
      refine if_neg fun hy => hnot ?_
      rw [← Option.some.inj hy]
      simp
  have htail : (if o.llist.tail = some x.1 then (ids n1).getLast? else o.llist.tail) =
      (ids (n1 ++ n2)).getLast? := by
    rw [h.linked.tail]
    rcases eq_nil_or_concat n2 with rfl | ⟨n2, y, rfl⟩
    · rw [if_pos (by simp), append_nil]
    · have hlast : (ids (n1 ++ x :: n2.concat y)).getLast? = some y.1 := by
        have hids : ids (n1 ++ x :: n2.concat y) = (ids n1 ++ x.1 :: ids n2) ++ [y.1] := by simp
        rw [hids, List.getLast?_append, List.getLast?_singleton, some_or]
      rw [hlast, if_neg fun hy => hnot (by rw [← Option.some.inj hy]; simp)]
      simp
  have hsetNext : ∀ b ∈ (ids n1).getLast?, o.llist.live b = true := fun b hb =>
    h.live (by simp [mem_of_getLast? hb])
  have hsetPrev : ∀ b ∈ (ids n2).head?, o.llist.live b = true := fun b hb =>
    h.live (by simp [mem_of_head? hb])
  rw [Object.offsetUnset, if_neg hrange, hoffset, bind_eq_bind, bind_some]
  dsimp only
  rw [Llist.read, if_pos hlive, hprev, bind_eq_bind, bind_some, Llist.read, if_pos
    hlive, hnext, bind_some, checkSetNext_eq hsetNext, bind_some]
  have hset := checkSetPrev_eq (m := { o.llist with
    next := put o.llist.next (ids n1).getLast? (ids n2).head? }) (x := (ids n1).getLast?) hsetPrev
  rw [hset, bind_some]
  have hdtor := dtor_eq (v := x.2) (m := { o.llist with
    prev := put o.llist.prev (ids n2).head? (ids n1).getLast?
    next := put o.llist.next (ids n1).getLast? (ids n2).head?
    head := (ids (n1 ++ n2)).head?
    tail := (ids (n1 ++ n2)).getLast?
    count := int (o.llist.count - 1) }) refcounted hlive (h.linked.data x (by simp))
  rw [hhead, htail, hdtor]
  rfl

/-- The end of the method `offsetUnset`. -/
theorem unset_end (refcounted : ζ → Bool) {a : ℕ} {H : ℕ → ℕ} (hm : Counted m (bump H a))
    (hdata : m.data a = none) : ∃ rc live, (∀ k : Llist ζ → Option (Object ζ), (do
        let data ← m.read m.data a
        let m ← (m.zvalPtrDtor refcounted data).setData a none
        let m ← m.delref a
        k m) = k { m with rc := rc, live := live }) ∧
      Counted { m with rc := rc, live := live } H := by
  obtain ⟨rc, live, hdelref, hcounted⟩ := hm.delref_eq
  have hself : bump H a a = H a + 1 := update_self ..
  have hlive : m.live a = true := (hm.live a).mpr (by omega)
  have hset : m.setData a none = some m := by
    rw [Llist.setData, if_pos hlive, ← hdata, update_eq_self]
  refine ⟨rc, live, fun k => ?_, hcounted⟩
  rw [Llist.read, if_pos hlive, bind_eq_bind, bind_some, hdata, Llist.zvalPtrDtor,
    hset, bind_eq_bind, bind_some, hdelref, bind_some]

theorem Holds.unlinked (ps' : Multiset (Option ℕ)) {rc : ℕ → ℤ} {live : ℕ → Bool}
    (h : Holds refcounted m (n1 ++ x :: n2) ps returned)
    (hcounted : Counted { m with rc := rc, live := live } (holders (n1 ++ n2) ps'))
    (hle : ∀ b, holders (n1 ++ n2) ps' b ≤ holders (n1 ++ n2) ps b) :
    Holds refcounted { m.unlinked refcounted n1 n2 x with rc := rc, live := live } (n1 ++ n2) ps'
      returned := by
  obtain ⟨hlinked, hold⟩ := h.erase
  refine ⟨⟨hlinked.head, hlinked.tail, hlinked.threaded, hlinked.data, hlinked.count,
    hlinked.length_lt⟩, ⟨hcounted.live, hcounted.rc, hcounted.lt⟩, fun b hb => h.fresh b ?_, ?_⟩
  · have hpos := (hcounted.live b).mp hb
    exact (hold.live b).mpr (lt_of_lt_of_le hpos ((hle b).trans (le_bump _ _ _)))
  · have hrefs := h.refs
    rw [vals_middle, Multiset.cons_add] at hrefs
    exact lower_owed hrefs

theorem Holds.offsetUnset (index : ℤ) (h : Holds refcounted o.llist nodes o.pointers returned) :
    ∃ o', o.offsetUnset refcounted index = some o' ∧
      Holds refcounted o'.llist (unset o nodes index) o'.pointers returned := by
  have hcount := h.linked.count
  unfold unset
  by_cases hrange : index < 0 ∨ index ≥ nodes.length
  · rw [if_pos hrange]
    rw [← hcount] at hrange
    exact ⟨o, if_pos hrange, h⟩
  · obtain ⟨n1, x, n2, rfl, hlen, hoffset⟩ :=
      h.offset_eq (by omega) (show index < nodes.length by omega) o.flags.lifo
    rw [if_neg hrange, ← hlen, eraseIdx_append_of_length_le le_rfl, Nat.sub_self]
    rw [← hcount] at hrange
    obtain ⟨-, hold⟩ := h.erase
    rw [h.unset_eq hrange hoffset]
    by_cases hown : o.traverse.pointer = some x.1
    · have hpointers : o.pointers = some x.1 ::ₘ ↑(o.its.map Cursor.pointer) := by
        rw [Object.pointers, hown]
      have hm : Counted (o.llist.unlinked refcounted n1 n2 x) (bump (bump (holders (n1 ++ n2)
          ↑(o.its.map Cursor.pointer)) x.1) x.1) := by
        rw [hpointers, holders_cons] at hold
        exact ⟨hold.live, hold.rc, hold.lt⟩
      obtain ⟨rc, live, hdelref, hcounted⟩ := hm.delref_eq
      obtain ⟨rc', live', hend, hcounted'⟩ := unset_end refcounted hcounted
        (update_self ..)
      refine ⟨{ o with
          llist := { o.llist.unlinked refcounted n1 n2 x with rc := rc', live := live' }
          traverse := { o.traverse with pointer := none } }, ?_,
        h.unlinked (none ::ₘ ↑(o.its.map Cursor.pointer)) ?_ fun b => ?_⟩
      · rw [if_pos hown, hdelref]
        exact hend _
      · exact ⟨hcounted'.live, hcounted'.rc, hcounted'.lt⟩
      · rw [hpointers, holders_cons]
        exact le_bump _ _ _
    · have hm : Counted (o.llist.unlinked refcounted n1 n2 x)
          (bump (holders (n1 ++ n2) o.pointers) x.1) := ⟨hold.live, hold.rc, hold.lt⟩
      obtain ⟨rc, live, hend, hcounted⟩ := unset_end refcounted hm
        (update_self ..)
      refine ⟨{ o with llist := { o.llist.unlinked refcounted n1 n2 x with
        rc := rc, live := live } }, ?_,
        h.unlinked _ ⟨hcounted.live, hcounted.rc, hcounted.lt⟩ fun _ => le_rfl⟩
      rw [if_neg hown]
      exact hend _

/-! ## The traversal of an object, and iterators -/

/-- The pointers besides the one of an object's own traversal. -/
def Object.others (o : Object ζ) : Multiset (Option ℕ) := ↑(o.its.map Cursor.pointer)

/-- The pointers besides the one of an iterator. -/
def Object.othersIt (o : Object ζ) (k : ℕ) : Multiset (Option ℕ) :=
  o.traverse.pointer ::ₘ ↑((o.its.eraseIdx k).map Cursor.pointer)

variable {k : ℕ} {c : Cursor}

omit [DecidableEq ζ] in
theorem pointers_it (hc : o.its[k]? = some c) : o.pointers = c.pointer ::ₘ o.othersIt k := by
  obtain ⟨hk, rfl⟩ := List.getElem?_eq_some_iff.mp hc
  have hperm : (o.its.map Cursor.pointer).Perm
      (o.its[k].pointer :: (o.its.eraseIdx k).map Cursor.pointer) :=
    (getElem_cons_eraseIdx_perm hk).symm.map Cursor.pointer
  rw [Object.pointers, Object.othersIt, Multiset.cons_swap]
  exact congrArg (o.traverse.pointer ::ₘ ·) (Multiset.coe_eq_coe.mpr hperm)

theorem Holds.own {res : Option (Llist ζ × Cursor)} (h : ∃ m' c', res = some (m', c') ∧
      Holds refcounted m' nodes' (c'.pointer ::ₘ o.others) returned) :
    ∃ o', o.own res = some o' ∧ Holds refcounted o'.llist nodes' o'.pointers returned := by
  obtain ⟨m', c', rfl, h'⟩ := h
  exact ⟨{ o with llist := m', traverse := c' }, rfl, h'⟩

theorem Holds.it (helper : Cursor → Option (Llist ζ × Cursor)) (hc : o.its[k]? = some c)
    (h : ∃ m' c', helper c = some (m', c') ∧
      Holds refcounted m' nodes' (c'.pointer ::ₘ o.othersIt k) returned) :
    ∃ o', o.it k helper = some o' ∧ Holds refcounted o'.llist nodes' o'.pointers returned := by
  obtain ⟨m', c', hhelper, h'⟩ := h
  obtain ⟨hk, -⟩ := List.getElem?_eq_some_iff.mp hc
  refine ⟨{ o with llist := m', its := o.its.set k c' }, ?_, ?_⟩
  · rw [Object.it, hc]
    dsimp only
    rw [hhelper]
    rfl
  · have hset : (o.its.set k c')[k]? = some c' := by
      rw [List.getElem?_set_self hk]
    rw [pointers_it (o := { o with llist := m', its := o.its.set k c' }) hset, Object.othersIt,
      eraseIdx_set_eq]
    exact h'

theorem Holds.itDtor (h : Holds refcounted o.llist nodes o.pointers returned) :
    ∃ o', o.itDtor k = some o' ∧ Holds refcounted o'.llist nodes o'.pointers returned := by
  unfold Object.itDtor
  match hc : o.its[k]? with
  | none => exact ⟨o, rfl, h⟩
  | some c =>
    rw [pointers_it hc] at h
    obtain ⟨m', hdelref, h', -, -⟩ := h.checkDelref
    refine ⟨{ o with llist := m', its := o.its.eraseIdx k }, ?_, h'⟩
    dsimp only
    rw [hdelref]
    rfl

theorem Holds.getIterator (h : Holds refcounted o.llist nodes o.pointers returned)
    (hroom : Room nodes o.pointers o.traverse.pointer) :
    ∃ o', o.getIterator = some o' ∧ Holds refcounted o'.llist nodes o'.pointers returned := by
  have hpresent : Present nodes o.pointers o.traverse.pointer := by
    intro a ha
    rw [Object.pointers, ha]
    exact .inr (Multiset.mem_cons_self _ _)
  obtain ⟨m', haddref, h'⟩ := h.checkAddref hpresent hroom
  refine ⟨{ o with llist := m', its := o.its ++ [o.traverse] }, ?_, ?_⟩
  · rw [Object.getIterator, haddref]
    rfl
  · have hpointers : Object.pointers { o with llist := m', its := o.its ++ [o.traverse] } =
        o.traverse.pointer ::ₘ o.pointers := by
      rw [Object.pointers, Object.pointers, map_append, ← Multiset.coe_add, map_singleton,
        Multiset.coe_singleton, Multiset.add_comm, Multiset.singleton_add]
    rw [hpointers]
    exact h'

/-! ## Steps -/

/-- What a step of an iterator does to the list: in delete mode it takes away the element at which
the iteration begins. -/
def stepped (flags : Flags) (pointer : Option ℕ) (nodes : List (ℕ × ζ)) : List (ℕ × ζ) :=
  if pointer = none then nodes else left flags nodes

/-- The flags with which the method `prev` makes its step. -/
def Flags.opposite (flags : Flags) : Flags := { flags with lifo := !flags.lifo }

/-- What an operation does to the list. -/
def effect (o : Object ζ) (nodes : List (ℕ × ζ)) : Op ζ → List (ℕ × ζ)
  | .push v => nodes ++ [(o.llist.fresh, v)]
  | .unshift v => (o.llist.fresh, v) :: nodes
  | .pop => nodes.dropLast
  | .shift => nodes.tail
  | .add index v => added o nodes index v
  | .offsetSet index v => assigned o nodes index v
  | .offsetUnset index => unset o nodes index
  | .next => stepped o.flags o.traverse.pointer nodes
  | .prev => stepped o.flags.opposite o.traverse.pointer nodes
  | .itMoveForward k => stepped o.flags (o.its[k]?.bind Cursor.pointer) nodes
  | .setIteratorMode _ _ | .rewind | .getIterator | .itRewind _ | .itDtor _ => nodes

/-- The value that an operation returns. -/
def result (nodes : List (ℕ × ζ)) : Op ζ → Option ζ
  | .pop => nodes.getLast?.map Prod.snd
  | .shift => nodes.head?.map Prod.snd
  | _ => none

/-- A step of an iterator meets the condition if the element that the link leads to is in the list
that is left, or another iterator stands on it, and one more pointer can be counted. -/
def Follows (o : Object ζ) (flags : Flags) (nodes : List (ℕ × ζ)) (others : Multiset (Option ℕ))
    (pointer : Option ℕ) : Prop :=
  ∀ old ∈ pointer, Present (left flags nodes) others (o.llist.link flags.lifo old) ∧
    Room (left flags nodes) others (o.llist.link flags.lifo old)

instance (o : Object ζ) (flags : Flags) (nodes : List (ℕ × ζ)) (others : Multiset (Option ℕ))
    (pointer : Option ℕ) : Decidable (Follows o flags nodes others pointer) :=
  inferInstanceAs (Decidable (∀ old ∈ pointer, _))

/-- The condition on a state and an operation. -/
def Meets (refcounted : ζ → Bool) (o : Object ζ) (nodes : List (ℕ × ζ)) : Op ζ → Prop
  | .push _ | .unshift _ | .offsetSet none _ => nodes.length + 1 < 2 ^ 31
  | .add index v => 0 ≤ index → index ≤ nodes.length →
      refcounted v = false ∧ nodes.length + 1 < 2 ^ 31
  | .rewind => Room nodes o.others (firstOf o.flags.lifo nodes)
  | .next => Follows o o.flags nodes o.others o.traverse.pointer
  | .prev => Follows o o.flags.opposite nodes o.others o.traverse.pointer
  | .getIterator => Room nodes o.pointers o.traverse.pointer
  | .itRewind k => k < o.its.length → Room nodes (o.othersIt k) (firstOf o.flags.lifo nodes)
  | .itMoveForward k => Follows o o.flags nodes (o.othersIt k) (o.its[k]?.bind Cursor.pointer)
  | .pop | .shift | .offsetSet (some _) _ | .offsetUnset _ | .setIteratorMode _ _ | .itDtor _ =>
    True

theorem Holds.moveForward_of_follows {flags : Flags}
    (h : Holds refcounted o.llist nodes (c.pointer ::ₘ ps) returned)
    (hf : Follows o flags nodes ps c.pointer) :
    ∃ m' c', moveForwardHelper refcounted c o.llist flags = some (m', c') ∧
      Holds refcounted m' (stepped flags c.pointer nodes) (c'.pointer ::ₘ ps) returned :=
  h.moveForward (fun old hold => (hf old hold).1) fun old hold => (hf old hold).2

/-- Nothing is returned. -/
theorem Holds.silent (h : Holds refcounted m nodes ps returned) :
    Holds refcounted m nodes ps (↑(none : Option ζ).toList + returned) := by
  rw [toList_none, Multiset.coe_nil, Multiset.zero_add]
  exact h

/-- An operation that meets the condition does to the list what it should, and returns what it
should. -/
theorem Holds.step {op : Op ζ} (h : Holds refcounted o.llist nodes o.pointers returned)
    (hop : Meets refcounted o nodes op) : ∃ o', step refcounted o op = some (o', result nodes op) ∧
      Holds refcounted o'.llist (effect o nodes op) o'.pointers
        (↑(result nodes op).toList + returned) := by
  have hown : Holds refcounted o.llist nodes (o.traverse.pointer ::ₘ o.others) returned := h
  cases op with
  | push v =>
    obtain ⟨m', hpush, h'⟩ := h.push hop v
    exact ⟨{ o with llist := m' }, by rw [SplDllist.step, hpush]; rfl, h'.silent⟩
  | unshift v =>
    obtain ⟨m', hunshift, h'⟩ := h.unshift hop v
    exact ⟨{ o with llist := m' }, by rw [SplDllist.step, hunshift]; rfl, h'.silent⟩
  | pop =>
    rcases eq_nil_or_concat nodes with rfl | ⟨nodes, x, rfl⟩
    · have htail : o.llist.tail = none := h.linked.tail
      exact ⟨o, by rw [SplDllist.step, Llist.pop, htail]; rfl, h.silent⟩
    · rw [concat_eq_append] at h ⊢
      obtain ⟨m', hpop, h'⟩ := h.pop
      refine ⟨{ o with llist := m' }, ?_, ?_⟩
      · rw [SplDllist.step, hpop, result, List.getLast?_concat]
        rfl
      · rw [effect, result, dropLast_concat, List.getLast?_concat]
        exact h'
  | shift =>
    cases nodes with
    | nil =>
      have hhead : o.llist.head = none := h.linked.head
      exact ⟨o, by rw [SplDllist.step, Llist.shift, hhead]; rfl, h.silent⟩
    | cons x nodes =>
      obtain ⟨m', hshift, h'⟩ := h.shift
      exact ⟨{ o with llist := m' }, by rw [SplDllist.step, hshift]; rfl, h'⟩
  | add index v =>
    obtain ⟨o', hadd, h'⟩ := h.add hop
    exact ⟨o', by rw [SplDllist.step, hadd]; rfl, h'.silent⟩
  | offsetSet index v =>
    have hroom : index = none → nodes.length + 1 < 2 ^ 31 := by
      rintro rfl
      exact hop
    obtain ⟨o', hset, h'⟩ := h.offsetSet (v := v) hroom
    exact ⟨o', by rw [SplDllist.step, hset]; rfl, h'.silent⟩
  | offsetUnset index =>
    obtain ⟨o', hunset, h'⟩ := h.offsetUnset index
    exact ⟨o', by rw [SplDllist.step, hunset]; rfl, h'.silent⟩
  | setIteratorMode delete lifo =>
    refine ⟨_, rfl, ?_⟩
    unfold Object.setIteratorMode
    split
    · exact h.silent
    · exact h.silent
  | rewind =>
    obtain ⟨o', hres, h'⟩ := Holds.own (hown.rewind hop)
    exact ⟨o', by rw [SplDllist.step, hres]; rfl, h'.silent⟩
  | next =>
    obtain ⟨o', hres, h'⟩ := Holds.own (hown.moveForward_of_follows hop)
    exact ⟨o', by rw [SplDllist.step, hres]; rfl, h'.silent⟩
  | prev =>
    obtain ⟨o', hres, h'⟩ := Holds.own (hown.moveForward_of_follows hop)
    exact ⟨o', by rw [SplDllist.step, ← Flags.opposite, hres]; rfl, h'.silent⟩
  | getIterator =>
    obtain ⟨o', hres, h'⟩ := h.getIterator hop
    exact ⟨o', by rw [SplDllist.step, hres]; rfl, h'.silent⟩
  | itRewind k =>
    cases hc : o.its[k]? with
    | none =>
      refine ⟨o, ?_, h.silent⟩
      rw [SplDllist.step, Object.it, hc]
      rfl
    | some c =>
      obtain ⟨hk, -⟩ := List.getElem?_eq_some_iff.mp hc
      rw [pointers_it hc] at h
      obtain ⟨o', hres, h'⟩ := Holds.it
        (fun c => rewindHelper c o.llist o.flags) hc (h.rewind (hop hk))
      exact ⟨o', by rw [SplDllist.step, hres]; rfl, h'.silent⟩
  | itMoveForward k =>
    cases hc : o.its[k]? with
    | none =>
      refine ⟨o, ?_, ?_⟩
      · rw [SplDllist.step, Object.it, hc]
        rfl
      · rw [effect, hc]
        exact h.silent
    | some c =>
      have hf : Follows o o.flags nodes (o.othersIt k) (o.its[k]?.bind Cursor.pointer) := hop
      rw [hc] at hf
      rw [pointers_it hc] at h
      obtain ⟨o', hres, h'⟩ := Holds.it
        (fun c => moveForwardHelper refcounted c o.llist o.flags) hc (h.moveForward_of_follows hf)
      refine ⟨o', by rw [SplDllist.step, hres]; rfl, ?_⟩
      rw [effect, hc]
      exact h'.silent
  | itDtor k =>
    obtain ⟨o', hres, h'⟩ := h.itDtor (k := k)
    exact ⟨o', by rw [SplDllist.step, hres]; rfl, h'.silent⟩

/-! ## New objects -/

theorem holds_init (refcounted : ζ → Bool) : Holds refcounted (Llist.init : Llist ζ) [] 0 0 := by
  have hzero : ∀ a, holders ([] : List (ℕ × ζ)) 0 a = 0 := fun a => rfl
  refine ⟨⟨rfl, rfl, threaded_nil _ _, nofun, rfl, Nat.two_pow_pos 31⟩,
    ⟨fun a => ?_, fun a ha => ?_, fun a => ?_⟩, nofun, fun v _ => rfl⟩
  · exact iff_of_false Bool.false_ne_true (lt_irrefl 0)
  · exact absurd ha (lt_irrefl 0)
  · rw [hzero]
    decide

/-- The values in new elements. -/
def renumber : ℕ → List (ℕ × ζ) → List (ℕ × ζ)
  | _, [] => []
  | n, x :: nodes => (n, x.2) :: renumber (n + 1) nodes

theorem Holds.copyLoop {source target : Llist ζ} {done : List (ℕ × ζ)} {ps' : Multiset (Option ℕ)}
    (hs : Holds refcounted source (n1 ++ n2) ps returned)
    (ht : Holds refcounted target done ps' 0) (hfresh : target.fresh = done.length)
    (hroom : done.length + n2.length < 2 ^ 31) {fuel : ℕ} (hfuel : n2.length < fuel) :
    ∃ target', copyLoop refcounted source fuel (ids n2).head? target = some target' ∧
      Holds refcounted target' (done ++ renumber done.length n2) ps' 0 := by
  induction n2 generalizing n1 target done fuel with
  | nil =>
    obtain ⟨fuel, rfl⟩ := Nat.exists_eq_add_one.2 hfuel.pos
    refine ⟨target, rfl, ?_⟩
    rw [renumber, append_nil]
    exact ht
  | cons x n2 ih =>
    obtain ⟨fuel, rfl⟩ := Nat.exists_eq_add_one.2 hfuel.pos
    rw [length_cons] at hroom hfuel
    have hlive : source.live x.1 = true := hs.live (by simp)
    have hthreaded := hs.linked.threaded
    rw [ids_append, ids_cons] at hthreaded
    have hs' : Holds refcounted source ((n1 ++ [x]) ++ n2) ps returned := by
      rw [append_assoc]
      exact hs
    have hpush := ht.push_eq x.2
    obtain ⟨m', hpush', ht'⟩ := ht.push (by omega) x.2
    have hfresh' : m'.fresh = (done ++ [(target.fresh, x.2)]).length := by
      rw [← Option.some.inj (hpush.symm.trans hpush'), length_append, ← hfresh]
      rfl
    obtain ⟨target', hloop, hholds⟩ := ih hs' ht' hfresh'
      (by rw [length_append, length_singleton]; omega) (Nat.lt_of_succ_lt_succ hfuel)
    refine ⟨target', ?_, ?_⟩
    · rw [ids_cons, List.head?_cons, SplDllist.copyLoop, Llist.read, if_pos hlive,
        hthreaded.next_eq, bind_eq_bind, bind_some, Llist.read, if_pos hlive,
        hs.linked.data x (by simp), bind_eq_bind, bind_some]
      dsimp only
      rw [hpush', bind_eq_bind, bind_some, hloop]
    · rw [length_append, append_assoc, hfresh] at hholds
      exact hholds

theorem Holds.clone (h : Holds refcounted o.llist nodes ps returned) {fuel : ℕ}
    (hfuel : nodes.length < fuel) : ∃ o', objectClone refcounted fuel o = some o' ∧
      Holds refcounted o'.llist (renumber 0 nodes) o'.pointers 0 := by
  have hs : Holds refcounted o.llist ([] ++ nodes) ps returned := h
  obtain ⟨m, hloop, hm⟩ := hs.copyLoop (holds_init refcounted) rfl
    (by rw [length_nil, zero_add]; exact h.linked.length_lt) hfuel
  have hhead : m.head = (ids (renumber 0 nodes)).head? := hm.linked.head
  obtain ⟨m', haddref, hm'⟩ := hm.checkAddref (o := m.head)
    (fun a ha => .inl (mem_of_head? (hhead ▸ ha))) fun a _ => by
      have hle := nodup_iff_count_le_one.mp hm.linked.threaded.nodup a
      rw [holders, Multiset.count_zero]
      omega
  refine ⟨⟨m', ⟨m.head, 0⟩, [], o.flags⟩, ?_, hm'⟩
  rw [objectClone, h.linked.head, hloop, bind_eq_bind, bind_some]
  dsimp only
  rw [haddref]
  rfl

/-! ## Runs -/

/-- The objects that are reached by operations that meet the condition, with what is in the list,
and what was returned. -/
inductive Reached (refcounted : ζ → Bool) : Object ζ → List (ℕ × ζ) → Multiset ζ → Prop
  | new (flags : Flags) : Reached refcounted (objectNew flags) [] 0
  | clone {o o' : Object ζ} {nodes : List (ℕ × ζ)} {returned : Multiset ζ} {fuel : ℕ} :
    Reached refcounted o nodes returned → nodes.length < fuel →
    objectClone refcounted fuel o = some o' → Reached refcounted o' (renumber 0 nodes) 0
  | step {o o' : Object ζ} {nodes : List (ℕ × ζ)} {returned : Multiset ζ} {op : Op ζ}
    {ret : Option ζ} :
    Reached refcounted o nodes returned → Meets refcounted o nodes op →
    step refcounted o op = some (o', ret) →
    Reached refcounted o' (effect o nodes op) (↑ret.toList + returned)

theorem Reached.holds (h : Reached refcounted o nodes returned) :
    Holds refcounted o.llist nodes o.pointers returned := by
  induction h with
  | new flags =>
    obtain ⟨m', hm', h'⟩ := (holds_init refcounted).checkAddref (o := none) nofun nofun
    obtain rfl := Option.some.inj hm'
    exact h'
  | clone _ hfuel hclone ih =>
    obtain ⟨o', hclone', h'⟩ := ih.clone hfuel
    obtain rfl := Option.some.inj (hclone.symm.trans hclone')
    exact h'
  | step _ hop hstep ih =>
    obtain ⟨o', hstep', h'⟩ := ih.step hop
    obtain ⟨rfl, rfl⟩ := Prod.mk.inj (Option.some.inj (hstep.symm.trans hstep'))
    exact h'

omit [DecidableEq ζ] in
/-- The element at which an iteration begins is the one that delete mode takes out. -/
theorem takeEnd_eq_filter {lifo : Bool} {current : ℕ} (hnodup : (ids nodes).Nodup)
    (hfirst : firstOf lifo nodes = some current) :
    takeEnd lifo nodes = nodes.filter fun x => x.1 ≠ current := by
  have hkeep : ∀ n : List (ℕ × ζ), current ∉ ids n → n.filter (fun x => x.1 ≠ current) = n := by
    intro n hn
    refine filter_eq_self.mpr fun x hx => decide_eq_true fun hxc => hn ?_
    rw [← hxc]
    exact mem_map_of_mem hx
  cases lifo with
  | true =>
    rcases eq_nil_or_concat nodes with rfl | ⟨nodes, x, rfl⟩
    · rfl
    · rw [concat_eq_append, ids_append] at hnodup
      have hx : x.1 = current := by simpa [firstOf] using hfirst
      have hnot : current ∉ ids nodes := fun hmem =>
        (nodup_append.mp hnodup).2.2 current hmem x.1 mem_cons_self hx.symm
      have hdrop : [x].filter (fun x => x.1 ≠ current) = [] := by
        rw [filter_singleton, hx]
        simp
      rw [takeEnd, if_pos rfl, concat_eq_append, dropLast_concat, filter_append,
        hkeep nodes hnot, hdrop, append_nil]
  | false =>
    cases nodes with
    | nil => rfl
    | cons x nodes =>
      have hx : x.1 = current := Option.some.inj hfirst
      have hnot : current ∉ ids nodes := hx ▸ (nodup_cons.mp hnodup).1
      rw [takeEnd, if_neg Bool.false_ne_true, filter_cons_of_neg (by simp [hx]), hkeep nodes hnot]
      rfl

/-- In a run in which every operation meets the condition, the list is linked in both directions and
is the list that the operations make, with its count; an element is live as long as the list or an
iterator has it, which is what it counts; the count of a value is raised once for each element with
it; and an operation that meets the condition does not come upon an element that has been freed.
Where an iterator in delete mode stands on the element at which its iteration begins, its step takes
that element out of the list. -/
theorem reached_holds (h : Reached refcounted o nodes returned) :
    Holds refcounted o.llist nodes o.pointers returned ∧ (∀ op, Meets refcounted o nodes op →
        ∃ o', step refcounted o op = some (o', result nodes op)) ∧
      ∀ (flags : Flags) (current : ℕ), flags.delete = true →
        firstOf flags.lifo nodes = some current →
        stepped flags (some current) nodes = nodes.filter fun x => x.1 ≠ current := by
  have hholds := h.holds
  refine ⟨hholds, fun op hop => ?_, fun flags current hdelete hfirst => ?_⟩
  · obtain ⟨o', hstep, -⟩ := hholds.step hop
    exact ⟨o', hstep⟩
  · rw [stepped, left, if_pos hdelete]
    exact takeEnd_eq_filter hholds.linked.threaded.nodup hfirst

/-- The state after some operations. -/
def run (refcounted : ζ → Bool) (ops : List (Op ζ)) (o : Object ζ) : Option (Object ζ) :=
  ops.foldlM (fun o op => (step refcounted o op).map Prod.fst) o

/-- Two values in a new list, and the iterator on the second. -/
theorem reached_next : ∃ o, run (fun _ => true) [.push 7, .push 8, .rewind, .next]
      (objectNew ⟨false, false, false⟩) = some o ∧ o.traverse.pointer = some 1 ∧
    Holds (fun _ => true) o.llist [(0, 7), (1, 8)] o.pointers 0 := by
  have h1 : Reached (fun _ => true) _ _ _ := .step (.new ⟨false, false, false⟩)
    (show Meets _ _ _ (.push 7) from (by decide : 0 + 1 < 2 ^ 31)) rfl
  have h2 : Reached (fun _ => true) _ _ _ := .step h1
    (show Meets _ _ _ (.push 8) from (by decide : 1 + 1 < 2 ^ 31)) rfl
  have h3 : Reached (fun _ => true) _ _ _ := .step h2
    (show Meets _ _ _ .rewind from (by decide +kernel : Room _ _ _)) rfl
  have h4 : Reached (fun _ => true) _ _ _ := .step h3
    (show Meets _ _ _ .next from (by decide +kernel : Follows _ _ _ _ _)) rfl
  exact ⟨_, rfl, rfl, (reached_holds h4).1⟩

/-- A value that is added by its index has its count raised twice; and an iterator on an element
that was taken out goes on to the element behind it, which has been freed. -/
theorem run_breaks : (run (fun _ => true) [.add 0 7] (objectNew ⟨false, false, false⟩)).map
        (fun o => (o.llist.count, o.llist.refs 7)) = some (1, 2) ∧
      (run (fun _ => true) [.push 7, .push 8, .rewind, .shift, .shift]
        (objectNew ⟨false, false, false⟩)).isSome = true ∧
      (run (fun _ => true) [.push 7, .push 8, .rewind, .shift, .shift, .next]
        (objectNew ⟨false, false, false⟩)).isNone = true := by
  decide

end SplDllist
