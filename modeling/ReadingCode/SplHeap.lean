/-
# The heaps of SPL

A heap keeps its elements in a block of memory that is doubled when it is full.  Comparing may call
a method of the object, which can do anything and can raise an exception; what it leaves is a state
of its own and the flag of a pending exception.
-/
import Mathlib
import ReadingCode.BinaryHeap

namespace SplHeap

variable {σ Z P : Type}

/-! ## Comparing -/

/-- What a comparison can see and change, and `EG(exception)`. -/
structure World (σ : Type) where
  state : σ
  exception : Bool

/-- A comparison function of a heap.  With an exception pending it answers 0. -/
structure Cmp (σ Z : Type) where
  call : World σ → Z → Z → World σ × ℤ
  pending : ∀ w a b, w.exception = true →
    (call w a b).1.exception = true ∧ (call w a b).2 = 0

/-- The method `compare` of the object, if it has one of its own, which returns no number when it
raises; and `compare_function`, which may raise as well. -/
structure Callbacks (σ Z : Type) where
  fptrCmp : Option (σ → Z → Z → σ × Option ℤ)
  compareFunction : σ → Z → Z → World σ × ℤ

/-- A comparison of two values, for `compare_function` with its arguments exchanged or not. -/
def zvalCmp (callbacks : Callbacks σ Z) (exchange : Bool) (w : World σ) (a b : Z) :
    World σ × ℤ :=
  if w.exception then (w, 0)
  else
    match callbacks.fptrCmp with
    | some compare =>
      match compare w.state a b with
      | (state, none) => (⟨state, true⟩, 0)
      | (state, some lval) => (⟨state, false⟩, if lval > 0 then 1 else if lval < 0 then -1 else 0)
    | none =>
      if exchange then callbacks.compareFunction w.state b a
      else callbacks.compareFunction w.state a b

theorem zvalCmp_pending {callbacks : Callbacks σ Z} {exchange : Bool} {w : World σ}
    (h : w.exception = true) (a b : Z) : zvalCmp callbacks exchange w a b = (w, 0) :=
  if_pos h

/-- `spl_ptr_heap_zval_max_cmp` -/
def zvalMaxCmp (callbacks : Callbacks σ Z) : Cmp σ Z where
  call := zvalCmp callbacks false
  pending := by
    intro w a b h
    rw [zvalCmp_pending h]
    exact ⟨h, rfl⟩

/-- `spl_ptr_heap_zval_min_cmp` -/
def zvalMinCmp (callbacks : Callbacks σ Z) : Cmp σ Z where
  call := zvalCmp callbacks true
  pending := by
    intro w a b h
    rw [zvalCmp_pending h]
    exact ⟨h, rfl⟩

/-- `spl_ptr_pqueue_zval_cmp`, with the priorities that `spl_pqueue_extract_helper` finds; an error
does not take back an exception. -/
def pqueueZvalCmp (callbacks : Callbacks σ P) (priority : Z → Option P) (error : World σ → World σ)
    (herror : ∀ w, w.exception = true → (error w).exception = true) : Cmp σ Z where
  call w a b :=
    match priority a, priority b with
    | some p, some q => zvalCmp callbacks false w p q
    | _, _ => (error w, 0)
  pending := by
    intro w a b h
    split
    · rw [zvalCmp_pending h]
      exact ⟨h, rfl⟩
    · exact ⟨herror w h, rfl⟩

/-! ## Memory -/

/-- `spl_ptr_heap`, with the flag `SPL_HEAP_CORRUPTED`. -/
structure Heap (Z : Type) where
  elements : ℕ → Z
  maxSize : ℕ
  count : ℕ
  corrupted : Bool

/-- What keeps an operation from ending: a slot outside of the memory, or a size that is too large
for an `int`, for which there is no memory. -/
inductive Fault where
  | outOfBounds
  | outOfMemory
  deriving DecidableEq

/-- `PTR_HEAP_BLOCK_SIZE` -/
def blockSize : ℕ := 64

/-- `spl_ptr_heap_init` -/
def init (undef : Z) : Heap Z := ⟨fun _ => undef, blockSize, 0, false⟩

def Heap.read (h : Heap Z) (i : ℕ) : Except Fault Z :=
  if i < h.maxSize then .ok (h.elements i) else .error .outOfBounds

def Heap.write (h : Heap Z) (i : ℕ) (z : Z) : Except Fault (Heap Z) :=
  if i < h.maxSize then .ok { h with elements := Function.update h.elements i z }
  else .error .outOfBounds

/-- Twice as much memory, the new half of it zero. -/
def Heap.grow (undef : Z) (h : Heap Z) : Except Fault (Heap Z) :=
  if h.maxSize * 2 < 2 ^ 31 then
    .ok { h with
      elements := fun k => if k < h.maxSize then h.elements k else undef
      maxSize := h.maxSize * 2 }
  else .error .outOfMemory

/-- Memory for one more element. -/
def Heap.reserve (undef : Z) (h : Heap Z) : Except Fault (Heap Z) :=
  if h.count + 1 > h.maxSize then h.grow undef else .ok h

/-! ## Operations -/

/-- The loop of `spl_ptr_heap_insert`, from position `i`; `fuel` is `i` at least. -/
def siftUp (cmp : Cmp σ Z) (elem : Z) :
    ℕ → ℕ → World σ → Heap Z → Except Fault (World σ × Heap Z × ℕ)
  | 0, i, w, h => .ok (w, h, i)
  | fuel + 1, i, w, h =>
    if i > 0 then do
      let parent ← h.read ((i - 1) / 2)
      let (w, c) := cmp.call w parent elem
      if c < 0 then
        let h ← h.write i parent
        siftUp cmp elem fuel ((i - 1) / 2) w h
      else .ok (w, h, i)
    else .ok (w, h, i)

/-- `spl_ptr_heap_insert` -/
def insert (cmp : Cmp σ Z) (undef elem : Z) (w : World σ) (h : Heap Z) :
    Except Fault (World σ × Heap Z) := do
  let h ← h.reserve undef
  let (w, h, i) ← siftUp cmp elem h.count h.count w h
  let h := { h with count := h.count + 1, corrupted := h.corrupted || w.exception }
  let h ← h.write i elem
  .ok (w, h)

/-- The choice between the two children. -/
def largerChild (cmp : Cmp σ Z) (j : ℕ) (w : World σ) (h : Heap Z) :
    Except Fault (World σ × ℕ) :=
  if j ≠ h.count then do
    let right ← h.read (j + 1)
    let left ← h.read j
    let (w, c) := cmp.call w right left
    .ok (w, if c > 0 then j + 1 else j)
  else .ok (w, j)

/-- The loop of `spl_ptr_heap_delete_top`, from position `i`, with `bottom` behind the elements;
`fuel` is `limit - i` at least. -/
def siftDown (cmp : Cmp σ Z) (limit : ℕ) :
    ℕ → ℕ → World σ → Heap Z → Except Fault (World σ × Heap Z × ℕ)
  | 0, i, w, h => .ok (w, h, i)
  | fuel + 1, i, w, h =>
    if i < limit then do
      let (w, j) ← largerChild cmp (i * 2 + 1) w h
      let bottom ← h.read h.count
      let child ← h.read j
      let (w, c) := cmp.call w bottom child
      if c < 0 then
        let h ← h.write i child
        siftDown cmp limit fuel j w h
      else .ok (w, h, i)
    else .ok (w, h, i)

/-- `spl_ptr_heap_delete_top` -/
def deleteTop (cmp : Cmp σ Z) (undef : Z) (w : World σ) (h : Heap Z) :
    Except Fault (World σ × Heap Z × Z) := do
  let limit := (h.count - 1) / 2
  if h.count = 0 then .ok (w, h, undef)
  else
    let elem ← h.read 0
    let h := { h with count := h.count - 1 }
    let (w, h, i) ← siftDown cmp limit limit 0 w h
    let h := { h with corrupted := h.corrupted || w.exception }
    let bottom ← h.read h.count
    let h ← h.write i bottom
    .ok (w, h, elem)

/-! ## Runs -/

inductive Op (Z : Type) where
  | insert (elem : Z)
  | deleteTop

/-- What has been put into a heap and what has been taken out of it, and whether an operation left
its comparisons with an exception pending. -/
structure Log (Z : Type) where
  inserted : Multiset Z
  removed : Multiset Z
  raised : Bool

/-- One operation. -/
def step (cmp : Cmp σ Z) (undef : Z) (op : Op Z) (w : World σ) (h : Heap Z) (log : Log Z) :
    Except Fault (Heap Z × Log Z) :=
  match op with
  | .insert elem => do
    let (w, h) ← insert cmp undef elem w h
    .ok (h, { log with inserted := elem ::ₘ log.inserted, raised := log.raised || w.exception })
  | .deleteTop => do
    let (w, h', elem) ← deleteTop cmp undef w h
    if h.count = 0 then .ok (h', log)
    else
      .ok (h', { log with removed := elem ::ₘ log.removed, raised := log.raised || w.exception })

/-- A sequence of operations, each in what the world has become by then. -/
def run (cmp : Cmp σ Z) (undef : Z) :
    List (World σ × Op Z) → Heap Z → Log Z → Except Fault (Heap Z × Log Z)
  | [], h, log => .ok (h, log)
  | (w, op) :: ops, h, log => do
    let (h, log) ← step cmp undef op w h log
    run cmp undef ops h log

end SplHeap

/-!
# Sifting in the heaps of SPL

Each loop moves a hole through the array: with the element that is to be put into the hole, the
array is permuted whatever the comparison answers.  When the comparison follows a total preorder and
no exception is pending in the end, all answers were those of the order, and the array is a heap.
-/

open BinaryHeap

namespace SplHeap

open Function

variable {σ Z : Type} {cmp : Cmp σ Z} {h : Heap Z} {w w' : World σ} {v v' : ℕ → Z} {elem a b : Z}
  {le : Z → Z → Prop} {i j k n fuel limit : ℕ}

/-! ## Comparing -/

/-- Answers that raise no exception are those of an order. -/
structure Follows (le : Z → Z → Prop) (cmp : Cmp σ Z) : Prop where
  below : ∀ w a b, (cmp.call w a b).1.exception = false → ((cmp.call w a b).2 < 0 ↔ ¬ le b a)
  above : ∀ w a b, (cmp.call w a b).1.exception = false → (0 < (cmp.call w a b).2 ↔ ¬ le a b)

theorem le_of_not_le [Std.Total le] (h : ¬ le a b) : le b a :=
  (Std.Total.total a b).resolve_left h

theorem le_self [Std.Total le] (a : Z) : le a a := (Std.Total.total a a).elim id id

/-- Comparing raises no exception. -/
def Quiet (cmp : Cmp σ Z) : Prop :=
  ∀ w a b, w.exception = false → (cmp.call w a b).1.exception = false

/-- An exception is not taken back. -/
theorem exception_false (hp : w.exception = true → w'.exception = true)
    (h : w'.exception = false) : w.exception = false := by
  cases hw : w.exception with
  | false => rfl
  | true =>
    rw [hp hw] at h
    cases h

/-- What the moves from `v` to `v'` keep, and what they do when the answers are those of an order
for which `v` was ready. -/
structure Sifted (cmp : Cmp σ Z) (n : ℕ) (w : World σ) (v : ℕ → Z)
    (Ready : (Z → Z → Prop) → Prop) (w' : World σ) (v' : ℕ → Z) : Prop where
  contents : contents v' n = contents v n
  pending : w.exception = true → w'.exception = true
  quiet : Quiet cmp → w.exception = false → w'.exception = false
  ordered : ∀ le, Std.Total le → IsTrans Z le → Follows le cmp → w'.exception = false →
    Ready le → Ordered le v' n

/-! ## Memory -/

theorem ok_bind {α β : Type} (x : α) (f : α → Except Fault β) : (Except.ok x >>= f) = f x := rfl

theorem Heap.read_of_lt (hi : i < h.maxSize) : h.read i = .ok (h.elements i) := if_pos hi

theorem Heap.write_of_lt (hi : i < h.maxSize) (z : Z) :
    h.write i z = .ok { h with elements := update h.elements i z } := if_pos hi

/-! ## Up -/

/-- The loop of `spl_ptr_heap_insert`. -/
theorem siftUp_spec (cmp : Cmp σ Z) (elem : Z) (w : World σ) (hf : i ≤ fuel)
    (hi : i < h.maxSize) (hin : i < n) :
    ∃ w' e' i', siftUp cmp elem fuel i w h = .ok (w', { h with elements := e' }, i') ∧ i' ≤ i ∧
      Sifted cmp n w (update h.elements i elem)
        (fun le => UpReady le (update h.elements i elem) n i)
        w' (update e' i' elem) := by
  induction fuel generalizing i w h with
  | zero =>
    refine ⟨w, h.elements, i, rfl, le_rfl, rfl, id, fun _ hw => hw, ?_⟩
    intro le _ _ _ _ hready
    exact hready.ordered fun hpos => by omega
  | succ fuel ih =>
    rw [siftUp]
    by_cases hpos : i > 0
    · have hpi : parent i < i := parent_lt hpos
      have hpm : parent i < h.maxSize := by omega
      have hread : h.read ((i - 1) / 2) = .ok (h.elements (parent i)) := Heap.read_of_lt hpm
      have hvi : update h.elements i elem i = elem :=
        update_self i elem h.elements
      have hvp : update h.elements i elem (parent i) = h.elements (parent i) :=
        update_of_ne hpi.ne elem h.elements
      rw [if_pos hpos, hread, ok_bind]
      have hpend := (cmp.pending w (h.elements (parent i)) elem · |>.1)
      have hquiet : Quiet cmp → _ → _ := fun hq => hq w (h.elements (parent i)) elem
      have hbelow : ∀ le, Follows le cmp → _ := fun le hle =>
        hle.below w (h.elements (parent i)) elem
      generalize cmp.call w (h.elements (parent i)) elem = answer at hpend hquiet hbelow
      obtain ⟨w1, c⟩ := answer
      dsimp only
      by_cases hc : c < 0
      · rw [if_pos hc, Heap.write_of_lt hi]
        obtain ⟨w', e', i', heq, hle, hsift⟩ := ih (h := { h with
          elements := update h.elements i (h.elements (parent i)) }) w1
          (show parent i ≤ fuel by omega) hpm (show parent i < n by omega)
        have hmove := update_move (v := h.elements) (x := elem) (show i ≠ parent i by omega)
        rw [hmove] at hsift
        refine ⟨w', e', i', heq, by omega, ?_, fun hw => hsift.pending (hpend hw),
          fun hq hw => hsift.quiet hq (hquiet hq hw), ?_⟩
        · rw [hsift.contents, contents_swap hin (by omega)]
        · intro le htotal htrans hfollows hexc hready
          have hw1 := exception_false hsift.pending hexc
          apply hsift.ordered le htotal htrans hfollows hexc
          apply hready.move hpos hin
          rw [hvi, hvp]
          exact le_of_not_le ((hbelow le hfollows hw1).mp hc)
      · rw [if_neg hc]
        refine ⟨w1, h.elements, i, rfl, le_rfl, rfl, hpend, hquiet, ?_⟩
        intro le _ _ hfollows hexc hready
        apply hready.ordered
        intro _ _
        rw [hvi, hvp]
        exact not_not.mp fun hno => hc ((hbelow le hfollows hexc).mpr hno)
    · rw [if_neg hpos]
      refine ⟨w, h.elements, i, rfl, le_rfl, rfl, id, fun _ hw => hw, ?_⟩
      intro le _ _ _ _ hready
      exact hready.ordered fun hpos' => absurd hpos' hpos

/-! ## Down -/

/-- The choice between the two children compares them once. -/
theorem largerChild_eq (hj : j ≠ h.count) (hm : j + 1 < h.maxSize) (w : World σ) :
    largerChild cmp j w h = .ok ((cmp.call w (h.elements (j + 1)) (h.elements j)).1,
          if (cmp.call w (h.elements (j + 1)) (h.elements j)).2 > 0 then j + 1 else j) := by
  unfold largerChild
  rw [if_pos hj, Heap.read_of_lt hm, ok_bind, Heap.read_of_lt (show j < h.maxSize by omega),
    ok_bind]

/-- One step down, with the two comparisons it makes. -/
theorem siftDown_succ (hlt : i < limit) (hi : limit ≤ h.count / 2) (hm : h.count < h.maxSize)
    {answer answer' : World σ × ℤ}
    (ha : cmp.call w (h.elements (i * 2 + 1 + 1)) (h.elements (i * 2 + 1)) = answer)
    (hj : (if answer.2 > 0 then i * 2 + 1 + 1 else i * 2 + 1) = j)
    (ha' : cmp.call answer.1 (h.elements h.count) (h.elements j) = answer') :
    siftDown cmp limit (fuel + 1) i w h = if answer'.2 < 0 then siftDown cmp limit fuel j answer'.1
          { h with elements := update h.elements i (h.elements j) }
      else .ok (answer'.1, h, i) := by
  have hjm : j < h.maxSize := by
    rw [← hj]
    split_ifs
    · omega
    · omega
  rw [siftDown, if_pos hlt, largerChild_eq (by omega) (by omega), ok_bind, ha, hj]
  dsimp only
  rw [Heap.read_of_lt hm, ok_bind, Heap.read_of_lt hjm, ok_bind, ← ha',
    Heap.write_of_lt (show i < h.maxSize by omega)]
  rfl

/-- No child is above the one that is chosen. -/
theorem le_largerChild [Std.Total le] {answer : World σ × ℤ} (hle : Follows le cmp)
    (ha : cmp.call w (v (i * 2 + 1 + 1)) (v (i * 2 + 1)) = answer)
    (hexc : answer.1.exception = false) (hk : 0 < k) (hki : parent k = i) :
    le (v k) (v (if answer.2 > 0 then i * 2 + 1 + 1 else i * 2 + 1)) := by
  subst ha
  have habove := hle.above w (v (i * 2 + 1 + 1)) (v (i * 2 + 1)) hexc
  have hk' : k = i * 2 + 1 ∨ k = i * 2 + 1 + 1 := by
    rw [mul_comm i 2]
    exact (parent_eq_iff hk).mp hki
  split_ifs with hc
  · rcases hk' with rfl | rfl
    · exact le_of_not_le (habove.mp hc)
    · exact le_self _
  · rcases hk' with rfl | rfl
    · exact le_self _
    · exact not_not.mp fun hno => hc (habove.mpr hno)

/-- The loop of `spl_ptr_heap_delete_top`: the last element of before is still behind the others. -/
theorem siftDown_spec (cmp : Cmp σ Z) (w : World σ) (hlimit : limit = h.count / 2)
    (hf : limit ≤ i + fuel) (hm : h.count < h.maxSize) (hi : i ≤ h.count) :
    ∃ w' e' i', siftDown cmp limit fuel i w h = .ok (w', { h with elements := e' }, i') ∧
      i' ≤ h.count ∧ e' h.count = h.elements h.count ∧
      Sifted cmp h.count w (update h.elements i (h.elements h.count))
        (fun le => DownReady le (update h.elements i (h.elements h.count)) h.count i)
        w' (update e' i' (h.elements h.count)) := by
  induction fuel generalizing i w h with
  | zero =>
    refine ⟨w, h.elements, i, rfl, hi, rfl, rfl, id, fun _ hw => hw, ?_⟩
    intro le _ _ _ _ hready
    exact hready.ordered_of_half (by omega)
  | succ fuel ih =>
    by_cases hlt : i < limit
    · have hpend := (cmp.pending w (h.elements (i * 2 + 1 + 1)) (h.elements (i * 2 + 1)) · |>.1)
      have hquiet : Quiet cmp → _ → _ := fun hq =>
        hq w (h.elements (i * 2 + 1 + 1)) (h.elements (i * 2 + 1))
      generalize ha : cmp.call w (h.elements (i * 2 + 1 + 1)) (h.elements (i * 2 + 1)) = answer
        at hpend hquiet
      generalize hj : (if answer.2 > 0 then i * 2 + 1 + 1 else i * 2 + 1) = j
      have hchild : j = 2 * i + 1 ∨ j = 2 * i + 2 := by
        rw [← hj]
        split_ifs
        · exact .inr (by omega)
        · exact .inl (by omega)
      have hpar : parent j = i := (parent_eq_iff (by omega)).mpr hchild
      have hpend' := (cmp.pending answer.1 (h.elements h.count) (h.elements j) · |>.1)
      have hquiet' : Quiet cmp → _ → _ := fun hq =>
        hq answer.1 (h.elements h.count) (h.elements j)
      have hbelow : ∀ le, Follows le cmp → _ := fun le hle =>
        hle.below answer.1 (h.elements h.count) (h.elements j)
      generalize ha' : cmp.call answer.1 (h.elements h.count) (h.elements j) = answer'
        at hpend' hquiet' hbelow
      rw [siftDown_succ hlt (le_of_eq hlimit) hm ha hj ha']
      have hvi : update h.elements i (h.elements h.count) i = h.elements h.count :=
        update_self i (h.elements h.count) h.elements
      have hvk : ∀ k, k ≠ i →
          update h.elements i (h.elements h.count) k = h.elements k :=
        fun k hk => update_of_ne hk (h.elements h.count) h.elements
      have hlarge : ∀ le, Std.Total le → Follows le cmp → answer.1.exception = false →
          ∀ k, 0 < k → parent k = i → le (h.elements k) (h.elements j) := by
        intro le _ hle hexc k hk hki
        rw [← hj]
        exact le_largerChild hle ha hexc hk hki
      by_cases hc' : answer'.2 < 0
      · rw [if_pos hc']
        obtain ⟨w', e', i', heq, hle, hbottom, hsift⟩ := ih (h := { h with
          elements := update h.elements i (h.elements j) }) (i := j) answer'.1
          hlimit (by omega) hm (show j ≤ h.count by omega)
        dsimp only at hle hbottom hsift
        have hin : update h.elements i (h.elements j) h.count = h.elements h.count :=
          update_of_ne (by omega) _ _
        rw [hin] at hbottom hsift
        refine ⟨w', e', i', heq, hle, hbottom, ?_⟩
        by_cases hjn : j < h.count
        · have hmove := update_move (v := h.elements) (x := h.elements h.count)
            (show i ≠ j by omega)
          rw [hmove] at hsift
          refine ⟨?_, fun hw => hsift.pending (hpend' (hpend hw)),
            fun hq hw => hsift.quiet hq (hquiet' hq (hquiet hq hw)), ?_⟩
          · rw [hsift.contents, contents_swap (by omega) hjn]
          · intro le htotal htrans hfollows hexc hready
            have hw2 := exception_false hsift.pending hexc
            have hw1 := exception_false hpend' hw2
            apply hsift.ordered le htotal htrans hfollows hexc
            apply hready.move (by omega) hjn hpar
            · intro k hk hkn hki
              rw [hvk j (by omega), hvk k (by have hlt := parent_lt hk; omega)]
              exact hlarge le htotal hfollows hw1 k hk hki
            · rw [hvi, hvk j (by omega)]
              exact le_of_not_le ((hbelow le hfollows hw2).mp hc')
        · -- the right child was the removed last element
          obtain rfl : j = h.count := by omega
          rw [update_eq_self_iff.mpr hin.symm] at hsift
          refine ⟨hsift.contents, fun hw => hsift.pending (hpend' (hpend hw)),
            fun hq hw => hsift.quiet hq (hquiet' hq (hquiet hq hw)), ?_⟩
          intro le _ _ hfollows hexc _
          have hw2 := exception_false hsift.pending hexc
          exact absurd (le_self _) ((hbelow le hfollows hw2).mp hc')
      · rw [if_neg hc']
        refine ⟨answer'.1, h.elements, i, rfl, hi, rfl, rfl, fun hw => hpend' (hpend hw),
          fun hq hw => hquiet' hq (hquiet hq hw), ?_⟩
        intro le htotal htrans hfollows hexc hready
        apply hready.ordered
        intro k hk hkn hki
        have hw1 := exception_false hpend' hexc
        rw [hvi, hvk k (by have hlt := parent_lt hk; omega)]
        exact IsTrans.trans _ _ _ (hlarge le htotal hfollows hw1 k hk hki)
          (not_not.mp fun hno => hc' ((hbelow le hfollows hexc).mpr hno))
    · rw [siftDown, if_neg hlt]
      refine ⟨w, h.elements, i, rfl, hi, rfl, rfl, id, fun _ hw => hw, ?_⟩
      intro le _ _ _ _ hready
      exact hready.ordered_of_half (by omega)

end SplHeap

/-!
# Runs of the heaps of SPL

After any sequence of insertions and removals the heap has exactly the elements that were put into
it and not taken out again, whatever the comparison answers and wherever it raises.  It has the flag
of a corrupted heap when a comparison was left with an exception pending, and without that flag a
comparison by a total preorder has kept it a heap.
-/

namespace SplHeap

open Multiset

variable {σ Z : Type} {cmp : Cmp σ Z} {undef elem : Z} {h h' : Heap Z} {w w' : World σ}
  {log : Log Z}

/-! ## Operations -/

/-- The elements fit into the memory. -/
structure Sound (h : Heap Z) : Prop where
  count_le : h.count ≤ h.maxSize
  size_pos : 0 < h.maxSize

/-- What an operation does to the flag and to the order. -/
structure Outcome (cmp : Cmp σ Z) (w : World σ) (h : Heap Z) (w' : World σ) (h' : Heap Z) :
    Prop where
  flag : h'.corrupted = (h.corrupted || w'.exception)
  quiet : Quiet cmp → w.exception = false → w'.exception = false
  ordered : ∀ le, Std.Total le → IsTrans Z le → Follows le cmp → w'.exception = false →
    Ordered le h.elements h.count → Ordered le h'.elements h'.count

/-- Memory for one more element is there, or the size is too large. -/
theorem reserve_spec (hs : Sound h) (undef : Z) :
    (h.reserve undef = .error .outOfMemory ∧ 2 ^ 30 ≤ h.count) ∨
      ∃ e m, h.reserve undef = .ok { h with elements := e, maxSize := m } ∧ h.count < m ∧
        ∀ k < h.count, e k = h.elements k := by
  unfold Heap.reserve
  have hcount := hs.count_le
  have hpos := hs.size_pos
  by_cases hfull : h.count + 1 > h.maxSize
  · rw [if_pos hfull]
    unfold Heap.grow
    by_cases hsize : h.maxSize * 2 < 2 ^ 31
    · rw [if_pos hsize]
      exact .inr ⟨_, _, rfl, by omega, fun k hk => if_pos (by omega)⟩
    · rw [if_neg hsize]
      exact .inl ⟨rfl, by omega⟩
  · rw [if_neg hfull]
    exact .inr ⟨h.elements, h.maxSize, rfl, by omega, fun _ _ => rfl⟩

/-- An insertion adds its element. -/
theorem insert_spec (hs : Sound h) (cmp : Cmp σ Z) (undef elem : Z) (w : World σ) :
    (insert cmp undef elem w h = .error .outOfMemory ∧ 2 ^ 30 ≤ h.count) ∨
      ∃ w' h', insert cmp undef elem w h = .ok (w', h') ∧ Sound h' ∧
        contents h'.elements h'.count = elem ::ₘ contents h.elements h.count ∧
        Outcome cmp w h w' h' := by
  unfold insert
  rcases reserve_spec hs undef with ⟨hroom, hfull⟩ | ⟨e, m, hroom, hm, he⟩
  · rw [hroom]
    exact .inl ⟨rfl, hfull⟩
  · obtain ⟨w', e', i', heq, hi', hsift⟩ := siftUp_spec (n := h.count + 1)
      (h := { h with elements := e, maxSize := m }) cmp elem w (le_refl h.count) hm
      (Nat.lt_succ_self _)
    right
    rw [hroom, ok_bind]
    dsimp only
    rw [heq, ok_bind]
    rw [Heap.write_of_lt (show i' < m by omega)]
    refine ⟨w', _, rfl, ⟨hm, by dsimp only; omega⟩, ?_, rfl, hsift.quiet, ?_⟩
    · rw [hsift.contents, contents_update_self, contents_congr he]
    · intro le htotal htrans hfollows hexc hord
      apply hsift.ordered le htotal htrans hfollows hexc
      exact (ordered_congr (fun k hk => (he k hk).symm) hord).upReady elem

/-- A removal takes the first element. -/
theorem deleteTop_spec (hs : Sound h) (cmp : Cmp σ Z) (undef : Z) (w : World σ)
    (hcount : h.count ≠ 0) :
    ∃ w' h', deleteTop cmp undef w h = .ok (w', h', h.elements 0) ∧ Sound h' ∧
      h.elements 0 ::ₘ contents h'.elements h'.count = contents h.elements h.count ∧
      Outcome cmp w h w' h' := by
  have hle := hs.count_le
  have hsucc : h.count - 1 + 1 = h.count := by omega
  obtain ⟨w', e', i', heq, hi', hbottom, hsift⟩ := siftDown_spec (h := { h with
    count := h.count - 1 }) cmp w rfl (show (h.count - 1) / 2 ≤ 0 + (h.count - 1) / 2 by omega)
    (show h.count - 1 < h.maxSize by omega) (Nat.zero_le _)
  dsimp only at hi' hbottom
  unfold deleteTop
  dsimp only
  rw [if_neg hcount, Heap.read_of_lt (by omega), ok_bind, heq, ok_bind]
  have hlast : h.count - 1 < h.maxSize := by omega
  have hhole : i' < h.maxSize := by omega
  rw [Heap.read_of_lt (h := ⟨e', h.maxSize, h.count - 1, _⟩) hlast, ok_bind,
    Heap.write_of_lt (h := ⟨e', h.maxSize, h.count - 1, _⟩) hhole]
  dsimp only
  rw [hbottom]
  refine ⟨w', _, rfl, ⟨by dsimp only; omega, hs.size_pos⟩, ?_, rfl, hsift.quiet, ?_⟩
  · rw [hsift.contents, contents_first, hsucc]
  · intro le htotal htrans hfollows hexc hord
    apply hsift.ordered le htotal htrans hfollows hexc
    exact (hord.mono (Nat.sub_le _ _)).downReady _

/-! ## Runs -/

/-- What holds after any sequence of operations. -/
structure Kept (cmp : Cmp σ Z) (h : Heap Z) (log : Log Z) : Prop where
  sound : Sound h
  elements : contents h.elements h.count + log.removed = log.inserted
  flag : h.corrupted = log.raised
  ordered : ∀ le, Std.Total le → IsTrans Z le → Follows le cmp → h.corrupted = false →
    Ordered le h.elements h.count

theorem kept_init (cmp : Cmp σ Z) (undef : Z) : Kept cmp (init undef) ⟨0, 0, false⟩ where
  sound := ⟨Nat.zero_le _, (by decide : 0 < blockSize)⟩
  elements := rfl
  flag := rfl
  ordered := fun _ _ _ _ _ k _ hk => absurd hk (Nat.not_lt_zero k)

/-- The order is kept by an operation that leaves the flag off. -/
theorem Outcome.kept (hk : Kept cmp h log) (ho : Outcome cmp w h w' h') (hs : Sound h')
    {log' : Log Z} (helements : contents h'.elements h'.count + log'.removed = log'.inserted)
    (hraised : log'.raised = (log.raised || w'.exception)) : Kept cmp h' log' where
  sound := hs
  elements := helements
  flag := by rw [ho.flag, hraised, hk.flag]
  ordered := by
    intro le htotal htrans hfollows hflag
    rw [ho.flag, Bool.or_eq_false_iff] at hflag
    exact ho.ordered le htotal htrans hfollows hflag.2
      (hk.ordered le htotal htrans hfollows hflag.1)

/-- What is put into the heap by an operation. -/
def Op.size : Op Z → ℕ
  | .insert _ => 1
  | .deleteTop => 0

/-- One operation keeps what holds, or there is no memory for so many elements. -/
theorem step_kept (hk : Kept cmp h log) (undef : Z) (op : Op Z) (w : World σ) :
    (step cmp undef op w h log = .error .outOfMemory ∧ 2 ^ 30 < h.count + op.size) ∨
      ∃ h' log', step cmp undef op w h log = .ok (h', log') ∧ Kept cmp h' log' ∧
        h'.count ≤ h.count + op.size ∧
        (Quiet cmp → w.exception = false → log.raised = false → log'.raised = false) := by
  cases op with
  | insert elem =>
    unfold step
    dsimp only
    rcases insert_spec hk.sound cmp undef elem w with ⟨hfault, hfull⟩ |
      ⟨w', h', heq, hs, hcontents, ho⟩
    · rw [hfault]
      exact .inl ⟨rfl, Nat.lt_succ_of_le hfull⟩
    · rw [heq]
      refine .inr ⟨h', _, rfl, ho.kept hk hs ?_ rfl, ?_, ?_⟩
      · rw [hcontents, cons_add, hk.elements]
      · have hcard := congrArg card hcontents
        rw [card_cons, card_contents, card_contents] at hcard
        exact le_of_eq hcard
      · intro hq hw hraised
        rw [hraised, ho.quiet hq hw, Bool.or_false]
  | deleteTop =>
    right
    unfold step
    dsimp only
    by_cases hcount : h.count = 0
    · have heq : deleteTop cmp undef w h = .ok (w, h, undef) := if_pos hcount
      rw [heq, ok_bind]
      rw [if_pos hcount]
      exact ⟨h, log, rfl, hk, le_rfl, fun _ _ hraised => hraised⟩
    · obtain ⟨w', h', heq, hs, hcontents, ho⟩ := deleteTop_spec hk.sound cmp undef w hcount
      rw [heq, ok_bind]
      rw [if_neg hcount]
      refine ⟨h', _, rfl, ho.kept hk hs ?_ rfl, ?_, ?_⟩
      · rw [add_cons, ← cons_add, hcontents, hk.elements]
      · have hcard := congrArg card hcontents
        rw [card_cons, card_contents, card_contents] at hcard
        exact Nat.le_of_succ_le (le_of_eq hcard)
      · intro hq hw hraised
        rw [hraised, ho.quiet hq hw, Bool.or_false]

/-- How many elements the operations put into the heap. -/
def insertions (ops : List (World σ × Op Z)) : ℕ := (ops.map fun p => p.2.size).sum

/-- A run keeps what holds. -/
theorem run_kept (undef : Z) (ops : List (World σ × Op Z)) (hk : Kept cmp h log) :
    run cmp undef ops h log ≠ .error .outOfBounds ∧
      (h.count + insertions ops ≤ 2 ^ 30 → ∃ r, run cmp undef ops h log = .ok r) ∧
      ∀ h' log', run cmp undef ops h log = .ok (h', log') → Kept cmp h' log' ∧
        (Quiet cmp → (∀ p ∈ ops, p.1.exception = false) → log.raised = false →
          log'.raised = false) := by
  induction ops generalizing h log with
  | nil =>
    refine ⟨fun heq => (by cases heq), fun _ => ⟨_, rfl⟩, ?_⟩
    intro h' log' heq
    cases heq
    exact ⟨hk, fun _ _ hraised => hraised⟩
  | cons p ops ih =>
    obtain ⟨w, op⟩ := p
    have hsum : insertions ((w, op) :: ops) = op.size + insertions ops := by
      unfold insertions
      rw [List.map_cons, List.sum_cons]
    rw [run]
    rcases step_kept hk undef op w with ⟨hfault, hfull⟩ | ⟨h1, log1, heq, hk1, hsize, hquiet⟩
    · rw [hfault]
      refine ⟨?_, fun hle => by omega, fun h' log' heq => by cases heq⟩
      intro heq
      cases heq
    · obtain ⟨hbounds, hok, hkept⟩ := ih hk1
      rw [heq]
      refine ⟨hbounds, fun hle => hok (by omega), ?_⟩
      intro h' log' hrun
      obtain ⟨hk', hquiet'⟩ := hkept h' log' hrun
      exact ⟨hk', fun hq hops hraised => hquiet' hq (fun p hp => hops p (List.mem_cons_of_mem _ hp))
        (hquiet hq (hops _ List.mem_cons_self) hraised)⟩

/-- **The heaps of SPL.**  Whatever the comparison answers, no operation leaves the memory, elements
are neither lost nor doubled, and the flag says whether a comparison was left with an exception
pending; this does not happen with a comparison that raises none.  Without the flag, a comparison by
a total preorder has kept the array a heap, and a maximal element is what is removed next. -/
theorem splHeap_runs (cmp : Cmp σ Z) (undef : Z) (ops : List (World σ × Op Z)) :
    run cmp undef ops (init undef) ⟨0, 0, false⟩ ≠ .error .outOfBounds ∧
      (insertions ops ≤ 2 ^ 30 → ∃ r, run cmp undef ops (init undef) ⟨0, 0, false⟩ = .ok r) ∧
      ∀ h log, run cmp undef ops (init undef) ⟨0, 0, false⟩ = .ok (h, log) →
        contents h.elements h.count + log.removed = log.inserted ∧
        h.count + log.removed.card = log.inserted.card ∧ h.count ≤ h.maxSize ∧
        h.corrupted = log.raised ∧
        (Quiet cmp → (∀ p ∈ ops, p.1.exception = false) → h.corrupted = false) ∧
        ∀ le, Std.Total le → IsTrans Z le → Follows le cmp → h.corrupted = false →
          Ordered le h.elements h.count ∧
          ∀ w, 0 < h.count → ∃ w' h' elem, deleteTop cmp undef w h = .ok (w', h', elem) ∧
            elem ∈ contents h.elements h.count ∧ ∀ x ∈ contents h.elements h.count, le x elem := by
  obtain ⟨hbounds, hok, hkept⟩ := run_kept undef ops (kept_init cmp undef)
  refine ⟨hbounds, fun hle => hok (by rw [show (init undef).count = 0 from rfl]; omega), ?_⟩
  intro h log heq
  obtain ⟨hk, hquiet⟩ := hkept h log heq
  have hcard := congrArg card hk.elements
  rw [card_add, card_contents] at hcard
  refine ⟨hk.elements, hcard, hk.sound.count_le, hk.flag,
    fun hq hops => by rw [hk.flag]; exact hquiet hq hops rfl, ?_⟩
  intro le htotal htrans hfollows hflag
  have hord := hk.ordered le htotal htrans hfollows hflag
  refine ⟨hord, fun w hcount => ?_⟩
  obtain ⟨w', h', hdelete, -⟩ := deleteTop_spec hk.sound cmp undef w (by omega)
  refine ⟨w', h', _, hdelete, mem_contents.mpr ⟨0, hcount, rfl⟩, fun x hx => ?_⟩
  obtain ⟨k, hk, rfl⟩ := mem_contents.mp hx
  exact hord.le_first hk

/-- `compare_function` on numbers, in a heap with the least one on top. -/
def lowestFirst : Cmp Unit ℕ :=
  zvalMinCmp ⟨none, fun state a b => (⟨state, false⟩, if a < b then -1 else if b < a then 1 else 0)⟩

theorem follows_lowestFirst : Follows (fun a b => b ≤ a) lowestFirst := by
  have hcall : ∀ (w : World Unit) a b, (lowestFirst.call w a b).1.exception = false →
      (lowestFirst.call w a b).2 = if b < a then -1 else if a < b then 1 else 0 := by
    intro w a b h
    by_cases hw : w.exception = true
    · exact absurd ((lowestFirst.pending w a b hw).1.symm.trans h) (by decide)
    · exact congrArg Prod.snd (if_neg hw)
  constructor
  · intro w a b h
    rw [hcall w a b h]
    split_ifs <;> omega
  · intro w a b h
    rw [hcall w a b h]
    split_ifs <;> omega

theorem splHeap_runs_lowest : ∃ h log,
    run lowestFirst 0 [(⟨(), false⟩, .insert 2), (⟨(), false⟩, .insert 1)] (init 0) ⟨0, 0, false⟩
        = .ok (h, log) ∧
      ∃ w h' elem, deleteTop lowestFirst 0 ⟨(), false⟩ h = .ok (w, h', elem) ∧
        ∀ x ∈ contents h.elements h.count, elem ≤ x := by
  obtain ⟨-, -, hrun⟩ :=
    splHeap_runs lowestFirst 0 [(⟨(), false⟩, .insert 2), (⟨(), false⟩, .insert 1)]
  obtain ⟨-, -, -, -, -, hle⟩ := hrun _ _ rfl
  obtain ⟨-, htop⟩ := hle _ ⟨fun a b => Nat.le_total b a⟩ ⟨fun _ _ _ hab hbc => hbc.trans hab⟩
    follows_lowestFirst rfl
  obtain ⟨w, h', elem, hdelete, -, hall⟩ := htop ⟨(), false⟩ (by decide)
  exact ⟨_, _, rfl, w, h', elem, hdelete, hall⟩

/-- A method `compare` that says of any element that it is below any other. -/
def alwaysBelow : Cmp Unit ℕ :=
  zvalMaxCmp ⟨some fun state _ _ => (state, some (-1)), fun state _ _ => (⟨state, false⟩, 0)⟩

/-- After two insertions the comparison puts the first element below the second, and the heap has no
flag. -/
theorem splHeap_inconsistent :
    ∃ h log, run alwaysBelow 0 [(⟨(), false⟩, .insert 1), (⟨(), false⟩, .insert 2)] (init 0)
        ⟨0, 0, false⟩ = .ok (h, log) ∧ h.count = 2 ∧ h.corrupted = false ∧
      (alwaysBelow.call ⟨(), false⟩ (h.elements (parent 1)) (h.elements 1)).2 < 0 :=
  ⟨_, _, rfl, rfl, rfl, by decide⟩

/-! ## Iterators -/

/-- A loop over a heap, in what the world has become by then: `spl_heap_it_valid` ends it, or
`spl_heap_it_get_current_data` and `spl_heap_it_move_forward` with an exception. -/
def iterate (cmp : Cmp σ Z) (undef : Z) : List (World σ) → Heap Z → Except Fault (Heap Z × List Z)
  | [], h => .ok (h, [])
  | w :: ws, h =>
    if h.count = 0 ∨ h.corrupted then .ok (h, [])
    else do
      let elem ← h.read 0
      let (_, h, _) ← deleteTop cmp undef w h
      let (h, elems) ← iterate cmp undef ws h
      .ok (h, elem :: elems)

/-- Iterating takes the elements off in descending order. -/
theorem iterate_kept (hk : Kept cmp h log) (undef : Z) (ws : List (World σ)) :
    ∃ h' elems, iterate cmp undef ws h = .ok (h', elems) ∧
      (elems : Multiset Z) + contents h'.elements h'.count = contents h.elements h.count ∧
      (h'.count = 0 ∨ h'.corrupted = true ∨ h'.count + ws.length = h.count) ∧
      ∀ le, Std.Total le → IsTrans Z le → Follows le cmp → elems.Pairwise (fun a b => le b a) := by
  induction ws generalizing h log with
  | nil => exact ⟨h, [], rfl, zero_add _, .inr (.inr rfl), fun _ _ _ _ => .nil⟩
  | cons w ws ih =>
    rw [iterate]
    by_cases hend : h.count = 0 ∨ h.corrupted = true
    · rw [if_pos hend]
      exact ⟨h, [], rfl, zero_add _, hend.imp_right .inl, fun _ _ _ _ => .nil⟩
    · obtain ⟨hcount, hflag⟩ := not_or.mp hend
      have hle := hk.sound.count_le
      obtain ⟨w', h1, hdelete, hs, hcontents, ho⟩ := deleteTop_spec hk.sound cmp undef w hcount
      have hkept : Kept cmp h1 ⟨log.inserted, h.elements 0 ::ₘ log.removed,
          log.raised || w'.exception⟩ :=
        ho.kept hk hs (by rw [add_cons, ← cons_add, hcontents, hk.elements]) rfl
      obtain ⟨h', elems, heq, hsum, hlen, hpairs⟩ := ih hkept
      have hcard := congrArg card hcontents
      rw [card_cons, card_contents, card_contents] at hcard
      refine ⟨h', h.elements 0 :: elems, ?_, ?_, ?_, fun le htotal htrans hfollows => ?_⟩
      · rw [if_neg hend, Heap.read_of_lt (by omega), ok_bind, hdelete, ok_bind]
        dsimp only
        rw [heq]
        rfl
      · rw [← cons_coe, cons_add, hsum, hcontents]
      · exact hlen.imp_right (Or.imp_right fun hlen => by rw [List.length_cons]; omega)
      · refine .cons (fun x hx => ?_) (hpairs le htotal htrans hfollows)
        have hmem : x ∈ contents h.elements h.count := by
          rw [← hcontents, ← hsum]
          exact mem_cons_of_mem (mem_add.mpr (.inl (mem_coe.mpr hx)))
        obtain ⟨k, hlt, rfl⟩ := mem_contents.mp hmem
        exact (hk.ordered le htotal htrans hfollows (Bool.eq_false_iff.mpr hflag)).le_first hlt

/-- **A loop over a heap.**  After any operations it takes off what is in the heap, all of it unless
a comparison raises an exception; and if comparing follows a total preorder, it comes in descending
order. -/
theorem iterate_run (cmp : Cmp σ Z) (undef : Z) (ops : List (World σ × Op Z)) (ws : List (World σ))
    {h : Heap Z} {log : Log Z}
    (hrun : run cmp undef ops (init undef) ⟨0, 0, false⟩ = .ok (h, log)) :
    ∃ h' elems, iterate cmp undef ws h = .ok (h', elems) ∧
      elems + (contents h'.elements h'.count + log.removed) = log.inserted ∧
      (h'.corrupted = false → h.count ≤ ws.length →
        (elems : Multiset Z) + log.removed = log.inserted) ∧
      ∀ le, Std.Total le → IsTrans Z le → Follows le cmp → elems.Pairwise (fun a b => le b a) := by
  have hk := ((run_kept undef ops (kept_init cmp undef)).2.2 h log hrun).1
  obtain ⟨h', elems, heq, hsum, hlen, hpairs⟩ := iterate_kept hk undef ws
  have hall : (elems : Multiset Z) + (contents h'.elements h'.count + log.removed) =
      log.inserted := by
    rw [← add_assoc, hsum, hk.elements]
  refine ⟨h', elems, heq, hall, fun hflag hle => ?_, hpairs⟩
  have hzero : h'.count = 0 := by
    rcases hlen with hzero | htrue | hlen
    · exact hzero
    · rw [hflag] at htrue
      cases htrue
    · omega
  rwa [hzero, show contents h'.elements 0 = 0 from rfl, zero_add] at hall

/-- A loop over two elements. -/
theorem iterate_run_two : ∃ h log h' elems,
    run lowestFirst 0 [(⟨(), false⟩, .insert 2), (⟨(), false⟩, .insert 1)] (init 0) ⟨0, 0, false⟩
        = .ok (h, log) ∧ iterate lowestFirst 0 [⟨(), false⟩, ⟨(), false⟩] h = .ok (h', elems) ∧
      elems + (contents h'.elements h'.count + log.removed) = log.inserted ∧
      elems.Pairwise (· ≤ ·) := by
  obtain ⟨h', elems, heq, hall, -, hpairs⟩ := iterate_run lowestFirst 0
    [(⟨(), false⟩, .insert 2), (⟨(), false⟩, .insert 1)] [⟨(), false⟩, ⟨(), false⟩] rfl
  exact ⟨_, _, h', elems, rfl, heq, hall, hpairs _ ⟨fun a b => Nat.le_total b a⟩
    ⟨fun _ _ _ hab hbc => hbc.trans hab⟩ follows_lowestFirst⟩

end SplHeap
