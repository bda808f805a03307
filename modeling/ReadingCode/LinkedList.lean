/-
# Doubly linked lists

The links of the elements are two functions.  A list of elements is threaded when each of them
links to the one behind it and to the one in front of it; seen from the other end it is the same,
with the two functions exchanged.  An element is put between two others, or taken out, by changing
the links of its neighbours.
-/
import Mathlib.Data.List.Nodup

namespace LinkedList

open List Option Function

variable {ι : Type*} [DecidableEq ι] {next prev : ι → Option ι} {stop : Option ι} {l l1 l2 : List ι}
  {a : ι}

/-- Each element links to the one behind it, and the last one to `stop`. -/
def Segment (next : ι → Option ι) (stop : Option ι) : List ι → Prop
  | [] => True
  | a :: l => next a = l.head?.or stop ∧ Segment next stop l

/-- The link of an element is changed, if there is one. -/
def put (f : ι → Option ι) (o : Option ι) (x : Option ι) : ι → Option ι :=
  match o with
  | none => f
  | some b => Function.update f b x

/-- A list of elements that are linked in both directions. -/
structure Threaded (prev next : ι → Option ι) (l : List ι) : Prop where
  nodup : l.Nodup
  forth : Segment next none l
  back : Segment prev none l.reverse

/-! ## Segments -/

omit [DecidableEq ι] in
theorem segment_append :
    Segment next stop (l1 ++ l2) ↔ Segment next (l2.head?.or stop) l1 ∧ Segment next stop l2 := by
  induction l1 with
  | nil => exact (and_iff_right trivial).symm
  | cons a l1 ih =>
    rw [cons_append, Segment, Segment, ih, and_assoc]
    cases l1 <;> rfl

omit [DecidableEq ι] in
/-- Only the links of the elements matter. -/
theorem Segment.congr {next' : ι → Option ι} (h : Segment next stop l)
    (heq : ∀ a ∈ l, next' a = next a) : Segment next' stop l := by
  induction l with
  | nil => trivial
  | cons a l ih =>
    obtain ⟨ha, hl⟩ := h
    constructor
    · rw [heq a mem_cons_self, ha]
    · exact ih hl fun b hb => heq b (mem_cons_of_mem a hb)

theorem Segment.update (h : Segment next stop l) (ha : a ∉ l) (x : Option ι) :
    Segment (Function.update next a x) stop l := by
  refine h.congr fun b hb => update_of_ne ?_ _ _
  rintro rfl
  exact ha hb

theorem Segment.put {o : Option ι} (h : Segment next stop l) (ho : ∀ a ∈ o, a ∉ l)
    (x : Option ι) : Segment (put next o x) stop l := by
  cases o with
  | none => exact h
  | some a => exact h.update (ho a rfl) x

/-- The last link of a segment is changed. -/
theorem Segment.redirect (h : Segment next stop l) (hl : l.Nodup) (stop' : Option ι) :
    Segment (LinkedList.put next l.getLast? stop') stop' l := by
  rcases eq_nil_or_concat l with rfl | ⟨l, b, rfl⟩
  · trivial
  · rw [concat_eq_append] at h hl ⊢
    obtain ⟨hinit, -⟩ := segment_append.mp h
    have hb : b ∉ l := fun hb =>
      (nodup_append.mp hl).2.2 b hb b mem_cons_self rfl
    rw [getLast?_append]
    refine segment_append.mpr ⟨hinit.update hb stop', ?_, trivial⟩
    exact update_self b stop' next

/-- An element is put into a segment. -/
theorem Segment.insert (h : Segment next stop (l1 ++ l2)) (hl : (l1 ++ l2).Nodup)
    (ha : a ∉ l1 ++ l2) :
    Segment (LinkedList.put (Function.update next a (l2.head?.or stop)) l1.getLast? (some a)) stop
      (l1 ++ a :: l2) := by
  obtain ⟨h1, h2⟩ := segment_append.mp h
  obtain ⟨hl1, -, hdisj⟩ := nodup_append.mp hl
  rw [mem_append, not_or] at ha
  have hlast : ∀ b ∈ l1.getLast?, b ∉ a :: l2 := by
    intro b hb hmem
    have hb1 : b ∈ l1 := mem_of_getLast? hb
    rcases mem_cons.mp hmem with rfl | hb2
    · exact ha.1 hb1
    · exact hdisj b hb1 b hb2 rfl
  refine segment_append.mpr ⟨(h1.update ha.1 _).redirect hl1 (some a), ?_⟩
  have hrest : Segment (Function.update next a (l2.head?.or stop)) stop (a :: l2) :=
    ⟨update_self .., h2.update ha.2 _⟩
  exact hrest.put hlast (some a)

/-- An element is taken out of a segment. -/
theorem Segment.erase (h : Segment next stop (l1 ++ a :: l2)) (hl : (l1 ++ a :: l2).Nodup) :
    Segment (LinkedList.put next l1.getLast? (l2.head?.or stop)) stop (l1 ++ l2) := by
  obtain ⟨h1, -, h2⟩ := segment_append.mp h
  obtain ⟨hl1, -, hdisj⟩ := nodup_append.mp hl
  refine segment_append.mpr ⟨h1.redirect hl1 _, ?_⟩
  exact h2.put (fun b hb hmem =>
    hdisj b (mem_of_getLast? hb) b (mem_cons_of_mem a hmem) rfl) _

/-! ## Threaded lists -/

omit [DecidableEq ι] in
theorem threaded_nil (prev next : ι → Option ι) : Threaded prev next [] :=
  ⟨nodup_nil, trivial, trivial⟩

omit [DecidableEq ι] in
theorem Threaded.next_eq (h : Threaded prev next (l1 ++ a :: l2)) : next a = l2.head? := by
  obtain ⟨-, hnext, -⟩ := segment_append.mp h.forth
  rw [hnext, or_none]

omit [DecidableEq ι] in
theorem Threaded.prev_eq (h : Threaded prev next (l1 ++ a :: l2)) : prev a = l1.getLast? := by
  have hrev : (l1 ++ a :: l2).reverse = l2.reverse ++ a :: l1.reverse := by
    rw [reverse_append, reverse_cons, append_assoc, singleton_append]
  have hback := h.back
  rw [hrev] at hback
  obtain ⟨-, hprev, -⟩ := segment_append.mp hback
  rw [hprev, or_none, List.head?_reverse]

/-- An element is put between two parts of a list. -/
theorem Threaded.insert (h : Threaded prev next (l1 ++ l2)) (ha : a ∉ l1 ++ l2) :
    Threaded (put (Function.update prev a l1.getLast?) l2.head? (some a))
      (put (Function.update next a l2.head?) l1.getLast? (some a)) (l1 ++ a :: l2) := by
  have hback := h.back
  have hnodup := nodup_reverse.mpr h.nodup
  have hmem : a ∉ l2.reverse ++ l1.reverse := by
    rw [← reverse_append, mem_reverse]
    exact ha
  rw [reverse_append] at hback hnodup
  have hput := hback.insert hnodup hmem
  have hforth := h.forth.insert h.nodup ha
  rw [List.head?_reverse, List.getLast?_reverse, or_none] at hput
  rw [or_none] at hforth
  refine ⟨?_, hforth, ?_⟩
  · rw [nodup_middle, nodup_cons]
    exact ⟨ha, h.nodup⟩
  · rw [reverse_append, reverse_cons, append_assoc]
    exact hput

/-- An element is taken out of a list. -/
theorem Threaded.erase (h : Threaded prev next (l1 ++ a :: l2)) :
    Threaded (put prev l2.head? l1.getLast?) (put next l1.getLast? l2.head?) (l1 ++ l2) := by
  have hrev : (l1 ++ a :: l2).reverse = l2.reverse ++ a :: l1.reverse := by
    rw [reverse_append, reverse_cons, append_assoc, singleton_append]
  have hback := h.back
  have hnodup := nodup_reverse.mpr h.nodup
  rw [hrev] at hback hnodup
  have hput := hback.erase hnodup
  have hforth := h.forth.erase h.nodup
  rw [List.head?_reverse, List.getLast?_reverse, or_none] at hput
  rw [or_none] at hforth
  refine ⟨?_, hforth, ?_⟩
  · exact (nodup_cons.mp (nodup_middle.mp h.nodup)).2
  · rw [reverse_append]
    exact hput

end LinkedList
