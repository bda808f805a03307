/-
# The sorting functions of the engine

`zend_insert_sort`, `zend_sort` and `zend_qsort` move elements through their arguments `cmp` and
`swp` only.  Positions count elements, from the beginning of the whole array; the base of a part of
it is a position.  Each loop has fuel, of which as much as there are elements, and one, suffices.
-/
import Mathlib
import ReadingCode.ArrayProgram

open ArrayProgram

namespace ZendSort

variable {σ α : Type}

/-! ## Two to five elements -/

/-- `zend_sort_2` -/
def zendSort2 (S : Setting σ α) (a b : ℤ) : Prog σ α Unit := do
  if ← S.greater a b then S.swap a b else pure ()

/-- `zend_sort_3` -/
def zendSort3 (S : Setting σ α) (a b c : ℤ) : Prog σ α Unit := do
  if ← S.greater a b then
    if ← S.greater c b then
      S.swap a b
      if ← S.greater b c then S.swap b c else pure ()
    else S.swap a c
  else
    if ← S.greater b c then
      S.swap b c
      if ← S.greater a b then S.swap a b else pure ()
    else pure ()

/-- `zend_sort_4` -/
def zendSort4 (S : Setting σ α) (a b c d : ℤ) : Prog σ α Unit := do
  zendSort3 S a b c
  if ← S.greater c d then
    S.swap c d
    if ← S.greater b c then
      S.swap b c
      if ← S.greater a b then S.swap a b else pure ()
    else pure ()
  else pure ()

/-- `zend_sort_5` -/
def zendSort5 (S : Setting σ α) (a b c d e : ℤ) : Prog σ α Unit := do
  zendSort4 S a b c d
  if ← S.greater d e then
    S.swap d e
    if ← S.greater c d then
      S.swap c d
      if ← S.greater b c then
        S.swap b c
        if ← S.greater a b then S.swap a b else pure ()
      else pure ()
    else pure ()
  else pure ()

/-! ## `zend_insert_sort` -/

/-- `for (k = i; k > j; k -= siz) { swp(k, k - siz); }` -/
def shift (S : Setting σ α) (j : ℤ) : ℕ → ℤ → Prog σ α Unit
  | 0, _ => diverge
  | fuel + 1, k =>
    if k > j then do
      S.swap k (k - 1)
      shift S j fuel (k - 1)
    else pure ()

/-- The `while` loop for one of the first elements: where it belongs. -/
def scanByOne (S : Setting σ α) (start i : ℤ) : ℕ → ℤ → Prog σ α ℤ
  | 0, _ => diverge
  | fuel + 1, j =>
    if j ≠ start then do
      if ← S.greater (j - 1) i then scanByOne S start i fuel (j - 1) else pure (j - 1 + 1)
    else pure j

/-- The `do` loop for one of the other elements: where it belongs. -/
def scanByTwo (S : Setting σ α) (start i : ℤ) : ℕ → ℤ → Prog σ α ℤ
  | 0, _ => diverge
  | fuel + 1, j => do
    if ← S.greater (j - 2) i then
      if j - 2 = start then pure (j - 2)
      else if j - 2 = start + 1 then
        if ← S.greater i (j - 2 - 1) then pure (j - 2 - 1 + 1) else pure (j - 2 - 1)
      else scanByTwo S start i fuel (j - 2)
    else
      if ← S.greater (j - 2 + 1) i then pure (j - 2 + 1) else pure (j - 2 + 1 + 1)

/-- The body of a `for` loop over `i`, with its search for the place. -/
def insertAt (S : Setting σ α) (fuel : ℕ) (i : ℤ) (scan : ℤ → Prog σ α ℤ) : Prog σ α Unit := do
  if ← S.greater (i - 1) i then
    let j ← scan (i - 1)
    shift S j fuel i
  else pure ()

/-- A `for` loop over `i`, from `i` on and before `stop`. -/
def insertLoop (S : Setting σ α) (bound : ℕ) (scan : ℤ → ℤ → Prog σ α ℤ) (stop : ℤ) :
    ℕ → ℤ → Prog σ α Unit
  | 0, _ => diverge
  | fuel + 1, i =>
    if i < stop then do
      insertAt S bound i (scan i)
      insertLoop S bound scan stop fuel (i + 1)
    else pure ()

/-- `zend_insert_sort` -/
def zendInsertSort (S : Setting σ α) (base : ℤ) (nmemb : ℕ) : Prog σ α Unit :=
  match nmemb with
  | 0 => pure ()
  | 1 => pure ()
  | 2 => zendSort2 S base (base + 1)
  | 3 => zendSort3 S base (base + 1) (base + 2)
  | 4 => zendSort4 S base (base + 1) (base + 2) (base + 3)
  | 5 => zendSort5 S base (base + 1) (base + 2) (base + 3) (base + 4)
  | _ => do
    let fuel := nmemb + 1
    insertLoop S fuel (fun i => scanByOne S base i fuel) (base + 6) fuel (base + 1)
    insertLoop S fuel (fun i => scanByTwo S base i fuel) (base + nmemb) fuel (base + 6)

/-! ## `zend_sort` -/

/-- `while (cmp(pivot, i) > 0)`; the flag says that it went to `done`. -/
def scanUp (S : Setting σ α) (pivot j : ℤ) : ℕ → ℤ → Prog σ α (ℤ × Bool)
  | 0, _ => diverge
  | fuel + 1, i => do
    if ← S.greater pivot i then
      if i + 1 = j then pure (i + 1, true) else scanUp S pivot j fuel (i + 1)
    else pure (i, false)

/-- `while (cmp(j, pivot) > 0)`; the flag says that it went to `done`. -/
def scanDown (S : Setting σ α) (pivot i : ℤ) : ℕ → ℤ → Prog σ α (ℤ × Bool)
  | 0, _ => diverge
  | fuel + 1, j => do
    if ← S.greater j pivot then
      if j - 1 = i then pure (j - 1, true) else scanDown S pivot i fuel (j - 1)
    else pure (j, false)

/-- The `while (1)` loop around them: `i` at `done`. -/
def partition (S : Setting σ α) (bound : ℕ) (pivot : ℤ) : ℕ → ℤ → ℤ → Prog σ α ℤ
  | 0, _, _ => diverge
  | fuel + 1, i, j => do
    let up ← scanUp S pivot j bound i
    if up.2 then pure up.1
    else if j - 1 = up.1 then pure up.1
    else do
      let down ← scanDown S pivot up.1 bound (j - 1)
      if down.2 then pure up.1
      else do
        S.swap up.1 down.1
        if up.1 + 1 = down.1 then pure (up.1 + 1)
        else partition S bound pivot fuel (up.1 + 1) down.1

/-- The median of three or five elements, at the middle position. -/
def choosePivot (S : Setting σ α) (start : ℤ) (nmemb : ℕ) : Prog σ α Unit :=
  let offset : ℤ := nmemb / 2
  let pivot := start + offset
  let stop := start + nmemb
  if nmemb / 2 ^ 10 ≠ 0 then
    let delta := offset / 2
    zendSort5 S start (start + delta) pivot (pivot + delta) (stop - 1)
  else zendSort3 S start pivot (stop - 1)

/-- The part of `zend_sort` before its recursion; the pivot is at `i - 1` in the end. -/
def divide (S : Setting σ α) (start : ℤ) (nmemb : ℕ) : Prog σ α ℤ := do
  let stop := start + nmemb
  choosePivot S start nmemb
  S.swap (start + 1) (start + (nmemb / 2 : ℕ))
  let pivot := start + 1
  let i ← partition S (nmemb + 1) pivot (nmemb + 1) (pivot + 1) (stop - 1)
  S.swap pivot (i - 1)
  pure i

/-- `zend_sort`; its loop is a call for the larger part. -/
def zendSort (S : Setting σ α) : ℕ → ℤ → ℕ → Prog σ α Unit
  | 0, _, _ => diverge
  | fuel + 1, start, nmemb =>
    if nmemb ≤ 16 then zendInsertSort S start nmemb
    else do
      let i ← divide S start nmemb
      let stop := start + nmemb
      if i - 1 - start < stop - i then do
        zendSort S fuel start (i - start - 1).toNat
        zendSort S fuel i (stop - i).toNat
      else do
        zendSort S fuel i (stop - i).toNat
        zendSort S fuel start (i - start - 1).toNat

/-! ## `zend_qsort` -/

/-- `for (; seg1 < seg2 && compare(begin, seg1) > 0; seg1 += siz);` -/
def segUp (S : Setting σ α) (start seg2 : ℤ) : ℕ → ℤ → Prog σ α ℤ
  | 0, _ => diverge
  | fuel + 1, seg1 =>
    if seg1 < seg2 then do
      if ← S.greater start seg1 then segUp S start seg2 fuel (seg1 + 1) else pure seg1
    else pure seg1

/-- `for (; seg2 >= seg1 && compare(seg2, begin) > 0; seg2 -= siz);` -/
def segDown (S : Setting σ α) (start seg1 : ℤ) : ℕ → ℤ → Prog σ α ℤ
  | 0, _ => diverge
  | fuel + 1, seg2 =>
    if seg2 ≥ seg1 then do
      if ← S.greater seg2 start then segDown S start seg1 fuel (seg2 - 1) else pure seg2
    else pure seg2

/-- The `while (1)` loop around them: `seg2` in the end. -/
def segments (S : Setting σ α) (bound : ℕ) (start : ℤ) : ℕ → ℤ → ℤ → Prog σ α ℤ
  | 0, _, _ => diverge
  | fuel + 1, seg1, seg2 => do
    let seg1 ← segUp S start seg2 bound seg1
    let seg2 ← segDown S start seg1 bound seg2
    if seg1 ≥ seg2 then pure seg2
    else do
      S.swap seg1 seg2
      segments S bound start fuel (seg1 + 1) (seg2 - 1)

/-- The body of `while (begin < end)` before the stack is looked at; the pivot is at `seg2` in the
end. -/
def split (S : Setting σ α) (start last : ℤ) : Prog σ α ℤ := do
  S.swap start (start + (last - start) / 2)
  let seg2 ← segments S (S.size + 1) start (S.size + 1) (start + 1) last
  S.swap start seg2
  pure seg2

/-- A part of the array, from its first to its last position, that is still to be sorted. -/
abbrev Part := ℤ × ℤ

/-- The part is put on the stack, which has `stackSize` places. -/
def push (stackSize : ℕ) (part : Part) (stack : List Part) : Option (List Part) :=
  if stack.length < stackSize then some (part :: stack) else none

/-- The two loops around the partition: the part from `start` to `last`, and those on the stack. -/
def sortParts (S : Setting σ α) (stackSize : ℕ) : ℕ → List Part → ℤ → ℤ → Prog σ α Unit
  | 0, _, _, _ => diverge
  | fuel + 1, stack, start, last =>
    if start < last then do
      let seg2 ← split S start last
      if seg2 - start ≤ last - seg2 then
        if seg2 + 1 < last then
          match push stackSize (seg2 + 1, last) stack with
          | some stack => sortParts S stackSize fuel stack start (seg2 - 1)
          | none => diverge
        else sortParts S stackSize fuel stack start (seg2 - 1)
      else
        if seg2 - 1 > start then
          match push stackSize (start, seg2 - 1) stack with
          | some stack => sortParts S stackSize fuel stack (seg2 + 1) last
          | none => diverge
        else sortParts S stackSize fuel stack (seg2 + 1) last
    else
      match stack with
      | [] => pure ()
      | part :: stack => sortParts S stackSize fuel stack part.1 part.2

/-- `zend_qsort` of the whole array, with `stackSize` for `QSORT_STACK_SIZE`. -/
def zendQsort (S : Setting σ α) (stackSize : ℕ) : Prog σ α Unit :=
  sortParts S stackSize (2 * S.size + 2) [] 0 (S.size - 1)

end ZendSort

/-!
# Two to five elements

`zend_sort_3` makes up to three comparisons; the functions for four and five elements let the last
element sink into the others, which have been sorted.  Whatever the comparison answers, only these
elements change places.
-/

namespace ZendSort

open List

variable {σ α : Type} {S : Setting σ α} {le : α → α → Prop} {m m' : Memory σ α} {c c' : ℤ → α}
  {a b d e k p q : ℤ} {ps : List ℤ}

/-! ## Sinking -/

/-- The elements at positions are in order, from the last to the first. -/
def Descends (le : α → α → Prop) (c : ℤ → α) (ps : List ℤ) : Prop :=
  ps.Pairwise fun p q => le (c q) (c p)

/-- The element at the first position sinks to its place among the others. -/
def sink (S : Setting σ α) : List ℤ → Prog σ α Unit
  | [p, q] => do
    if ← S.greater q p then S.swap q p else pure ()
  | p :: q :: r :: ps => do
    if ← S.greater q p then
      S.swap q p
      sink S (q :: r :: ps)
    else pure ()
  | _ => pure ()

/-- What a function for some positions does. -/
structure Arranges (S : Setting σ α) (le : α → α → Prop) (ps : List ℤ) (c c' : ℤ → α) : Prop where
  permutes : Permutes {x | x ∈ ps} c c'
  descends : S.Obeys le → Descends le c' ps

/-- An element that is not below the next one has sunk. -/
theorem arranges_stay (hps : S.Obeys le → Descends le c (q :: ps))
    (hpq : S.Obeys le → le (c q) (c p)) : Arranges S le (p :: q :: ps) c c where
  permutes := Permutes.refl _ _
  descends := by
    intro hobeys
    refine pairwise_cons.mpr ⟨fun x hx => ?_, hps hobeys⟩
    rcases mem_cons.mp hx with rfl | hx
    · exact hpq hobeys
    · exact hobeys.trans ((pairwise_cons.mp (hps hobeys)).1 x hx) (hpq hobeys)

/-- An element that changes places with the next one, and then sinks from there. -/
theorem arranges_sink (hpos : (p :: q :: ps).Pairwise (· > ·))
    (hps : S.Obeys le → Descends le c (q :: ps)) (hpq : S.Obeys le → le (c p) (c q))
    (h : Arranges S le (q :: ps) (c ∘ Equiv.swap q p) c') : Arranges S le (p :: q :: ps) c c' where
  permutes := by
    have hsub : {x | x ∈ q :: ps} ⊆ {x | x ∈ p :: q :: ps} := fun x hx => mem_cons_of_mem p hx
    exact (Permutes.swap (hsub mem_cons_self) mem_cons_self).trans (h.permutes.mono hsub)
  descends := by
    intro hobeys
    obtain ⟨hp, hq⟩ := pairwise_cons.mp hpos
    have hnot : p ∉ {x | x ∈ q :: ps} := fun hmem => absurd (hp p hmem) (lt_irrefl p)
    refine pairwise_cons.mpr ⟨?_, h.descends hobeys⟩
    rw [h.permutes.eq hnot, comp_swap_right]
    apply h.permutes.forall (R := fun x => le x (c q))
    intro x hx
    rcases mem_cons.mp hx with rfl | hx
    · rw [comp_swap_left]
      exact hpq hobeys
    · have hxp := hp x (mem_cons_of_mem q hx)
      have hxq := (pairwise_cons.mp hq).1 x hx
      rw [comp_swap_of_ne c (by omega) (by omega)]
      exact (pairwise_cons.mp (hps hobeys)).1 x hx

/-- The positions before the last one have been sorted, and the last element sinks. -/
theorem sink_spec (hpos : (p :: ps).Pairwise (· > ·)) (hin : ∀ x ∈ p :: ps, S.Inside x)
    (hps : S.Obeys le → Descends le m.cells ps) :
    Runs (sink S (p :: ps)) m fun _ m' => Arranges S le (p :: ps) m.cells m'.cells := by
  induction ps generalizing p m with
  | nil => exact Runs.pure ⟨Permutes.refl _ _, fun _ => pairwise_singleton _ _⟩
  | cons q ps ih =>
    have hp := hin p mem_cons_self
    have hq := hin q (mem_cons_of_mem p mem_cons_self)
    have hpos' := (pairwise_cons.mp hpos).2
    cases ps with
    | nil =>
      apply Runs.branch le hq hp
      · intro s hpq
        apply Runs.swap hq hp
        exact arranges_sink hpos hps hpq ⟨Permutes.refl _ _, fun _ => pairwise_singleton _ _⟩
      · intro s hpq
        exact Runs.pure (arranges_stay hps hpq)
    | cons r ps =>
      apply Runs.branch le hq hp
      · intro s hpq
        apply Runs.bind
        apply Runs.swap hq hp
        have hrest : S.Obeys le → Descends le (m.cells ∘ Equiv.swap q p) (r :: ps) := by
          intro hobeys
          have hold := (pairwise_cons.mp (hps hobeys)).2
          have hsame : ∀ x ∈ r :: ps, (m.cells ∘ Equiv.swap q p) x = m.cells x := by
            intro x hx
            have hxq := (pairwise_cons.mp hpos').1 x hx
            have hxp := (pairwise_cons.mp hpos).1 x (mem_cons_of_mem q hx)
            exact comp_swap_of_ne m.cells (by omega) (by omega)
          refine hold.imp_of_mem fun {x y} hx hy hle => ?_
          rw [hsame x hx, hsame y hy]
          exact hle
        refine (ih hpos' (fun x hx => hin x (mem_cons_of_mem p hx)) hrest).mono ?_
        intro _ m' h
        exact arranges_sink hpos hps hpq h
      · intro s hpq
        exact Runs.pure (arranges_stay hps hpq)

/-- Three positions in order. -/
theorem arranges_three (hper : Permutes {x | x ∈ [d, b, a]} c c') {u v w : α} (ha : c' a = u)
    (hb : c' b = v) (hd : c' d = w) (hle : S.Obeys le → le u v ∧ le v w) :
    Arranges S le [d, b, a] c c' where
  permutes := hper
  descends := by
    intro hobeys
    obtain ⟨huv, hvw⟩ := hle hobeys
    subst ha hb hd
    refine pairwise_cons.mpr ⟨?_, pairwise_pair.mpr huv⟩
    intro x hx
    rcases mem_cons.mp hx with rfl | hx
    · exact hvw
    · rw [mem_singleton.mp hx]
      exact hobeys.trans huv hvw

/-- `zend_sort_3` -/
theorem zendSort3_spec (le : α → α → Prop) (hab : a < b) (hbd : b < d) (ha : S.Inside a)
    (hb : S.Inside b) (hd : S.Inside d) (m : Memory σ α) :
    Runs (zendSort3 S a b d) m fun _ m' => Arranges S le [d, b, a] m.cells m'.cells := by
  have hma : a ∈ {x | x ∈ [d, b, a]} := by simp
  have hmb : b ∈ {x | x ∈ [d, b, a]} := by simp
  have hmd : d ∈ {x | x ∈ [d, b, a]} := by simp
  obtain ⟨hba, hda, had, hdb⟩ : b ≠ a ∧ d ≠ a ∧ a ≠ d ∧ d ≠ b := by omega
  apply Runs.branch le ha hb
  · intro s hle
    apply Runs.branch le hd hb
    · intro s hle'
      apply Runs.bind
      apply Runs.swap ha hb
      have hb' := comp_swap_right m.cells a b
      have hd' := comp_swap_of_ne m.cells hda hdb
      apply Runs.branch le hb hd
      · intro s hle''
        rw [hb', hd'] at hle''
        apply Runs.swap hb hd
        refine arranges_three ((Permutes.swap hma hmb).trans (Permutes.swap hmb hmd))
          (u := m.cells b) (v := m.cells d) (w := m.cells a) ?_ ?_ ?_
          fun hobeys => ⟨hle' hobeys, hle'' hobeys⟩
        · exact (comp_swap_of_ne _ hba.symm had).trans (comp_swap_left m.cells a b)
        · exact (comp_swap_left _ b d).trans hd'
        · exact (comp_swap_right _ b d).trans hb'
      · intro s hle''
        rw [hb', hd'] at hle''
        exact Runs.pure (arranges_three (Permutes.swap hma hmb) (comp_swap_left m.cells a b) hb' hd'
          fun hobeys => ⟨hle hobeys, hle'' hobeys⟩)
    · intro s hle'
      apply Runs.swap ha hd
      exact arranges_three (Permutes.swap hma hmd) (comp_swap_left m.cells a d)
        (comp_swap_of_ne m.cells hba hdb.symm) (comp_swap_right m.cells a d)
        fun hobeys => ⟨hle' hobeys, hle hobeys⟩
  · intro s hle
    apply Runs.branch le hb hd
    · intro s hle'
      apply Runs.bind
      apply Runs.swap hb hd
      have ha' := comp_swap_of_ne m.cells hba.symm had
      have hb' := comp_swap_left m.cells b d
      have hd' := comp_swap_right m.cells b d
      apply Runs.branch le ha hb
      · intro s hle''
        rw [ha', hb'] at hle''
        apply Runs.swap ha hb
        exact arranges_three ((Permutes.swap hmb hmd).trans (Permutes.swap hma hmb))
          ((comp_swap_left _ a b).trans hb') ((comp_swap_right _ a b).trans ha')
          ((comp_swap_of_ne _ hda hdb).trans hd') fun hobeys => ⟨hle'' hobeys, hle hobeys⟩
      · intro s hle''
        rw [ha', hb'] at hle''
        exact Runs.pure (arranges_three (Permutes.swap hmb hmd) ha' hb' hd'
          fun hobeys => ⟨hle'' hobeys, hle' hobeys⟩)
    · intro s hle'
      exact Runs.pure (arranges_three (Permutes.refl _ _) rfl rfl rfl
        fun hobeys => ⟨hle hobeys, hle' hobeys⟩)

/-- `zend_sort_2` -/
theorem zendSort2_spec (le : α → α → Prop) (hab : a < b) (ha : S.Inside a) (hb : S.Inside b)
    (m : Memory σ α) :
    Runs (zendSort2 S a b) m fun _ m' => Arranges S le [b, a] m.cells m'.cells := by
  exact sink_spec (by simpa using hab) (by simp [ha, hb]) fun _ => pairwise_singleton _ _

/-- The last element sinks after the others have been arranged. -/
theorem Arranges.sink (h : Arranges S le ps m.cells m'.cells) (hpos : (p :: ps).Pairwise (· > ·))
    (hin : ∀ x ∈ p :: ps, S.Inside x) :
    Runs (sink S (p :: ps)) m' fun _ m'' => Arranges S le (p :: ps) m.cells m''.cells := by
  refine (sink_spec hpos hin h.descends).mono fun _ m'' h' => ?_
  exact ⟨(h.permutes.mono fun x hx => mem_cons_of_mem p hx).trans h'.permutes, h'.descends⟩

/-- `zend_sort_4` -/
theorem zendSort4_spec (le : α → α → Prop) (hpos : [e, d, b, a].Pairwise (· > ·))
    (hin : ∀ x ∈ [e, d, b, a], S.Inside x) (m : Memory σ α) :
    Runs (zendSort4 S a b d e) m fun _ m' => Arranges S le [e, d, b, a] m.cells m'.cells := by
  apply Runs.seq (zendSort3_spec le (by simp_all) (by simp_all) (hin a (by simp)) (hin b (by simp))
    (hin d (by simp)) m)
  intro _ m' h
  exact h.sink hpos hin

/-- `zend_sort_5` -/
theorem zendSort5_spec (le : α → α → Prop) (hpos : [k, e, d, b, a].Pairwise (· > ·))
    (hin : ∀ x ∈ [k, e, d, b, a], S.Inside x) (m : Memory σ α) :
    Runs (zendSort5 S a b d e k) m fun _ m' => Arranges S le [k, e, d, b, a] m.cells m'.cells := by
  apply Runs.seq (zendSort4_spec le (pairwise_cons.mp hpos).2
    (fun x hx => hin x (mem_cons_of_mem k hx)) m)
  intro _ m' h
  exact h.sink hpos hin

/-! # Insertion -/

variable {σ α : Type} {S : Setting σ α} {le : α → α → Prop} {m m' : Memory σ α} {c c' : ℤ → α}
  {i j k start stop : ℤ} {fuel bound : ℕ}

/-! ## Moving an element -/

/-- The element at `k` has moved to `j`, and those from there on one further. -/
structure Shifted (j k : ℤ) (c c' : ℤ → α) : Prop where
  permutes : Permutes (Set.Icc j k) c c'
  first : c' j = c k
  others : ∀ x, j < x → x ≤ k → c' x = c (x - 1)

theorem shift_spec (hjk : j ≤ k) (hfuel : k - j < fuel) (hj : 0 ≤ j) (hk : k < S.size)
    (m : Memory σ α) : Runs (shift S j fuel k) m fun _ m' => Shifted j k m.cells m'.cells := by
  induction fuel generalizing k m with
  | zero => omega
  | succ fuel ih =>
    rw [shift]
    by_cases hlt : k > j
    · rw [if_pos hlt]
      have hkin : S.Inside k := ⟨by omega, hk⟩
      have hkin' : S.Inside (k - 1) := ⟨by omega, by omega⟩
      apply Runs.bind
      apply Runs.swap hkin hkin'
      refine (ih (by omega) (by omega) (by omega) _).mono fun _ m' h => ?_
      have hin : Set.Icc j (k - 1) ⊆ Set.Icc j k := Set.Icc_subset_Icc le_rfl (by omega)
      constructor
      · have hmem : k ∈ Set.Icc j k := ⟨hjk, le_rfl⟩
        have hmem' : k - 1 ∈ Set.Icc j k := ⟨by omega, by omega⟩
        exact (Permutes.swap hmem hmem').trans (h.permutes.mono hin)
      · exact h.first.trans (comp_swap_right m.cells k (k - 1))
      · intro x hjx hxk
        rcases lt_or_eq_of_le hxk with hlt' | rfl
        · rw [h.others x hjx (by omega)]
          exact comp_swap_of_ne m.cells (by omega) (by omega)
        · rw [h.permutes.eq fun hmem => by have := hmem.2; omega]
          exact comp_swap_left m.cells x (x - 1)
    · rw [if_neg hlt]
      obtain rfl : j = k := by omega
      exact Runs.pure ⟨Permutes.refl _ _, rfl, fun x hjx hxk => by omega⟩

/-- The place of the element at `i` among the sorted ones before it. -/
structure Place (le : α → α → Prop) (c : ℤ → α) (start i j : ℤ) : Prop where
  below : ∀ x, start ≤ x → x < j → le (c x) (c i)
  above : ∀ x, j ≤ x → x < i → le (c i) (c x)

/-- In its place an element is in order. -/
theorem Shifted.sortedOn (h : Shifted j i c c') (hj : start ≤ j) (hji : j ≤ i)
    (hs : SortedOn le c start i) (hp : Place le c start i j) : SortedOn le c' start (i + 1) := by
  have hbefore : ∀ x, x < j → c' x = c x := fun x hx =>
    h.permutes.eq fun hmem => by have := hmem.1; omega
  intro a b ha hab hb
  rcases lt_trichotomy b j with hbj | rfl | hbj
  · rw [hbefore a (by omega), hbefore b hbj]
    exact hs a b ha hab (by omega)
  · rw [hbefore a hab, h.first]
    exact hp.below a ha hab
  · rw [h.others b hbj (by omega)]
    rcases lt_trichotomy a j with haj | rfl | haj
    · rw [hbefore a haj]
      exact hs a (b - 1) ha (by omega) (by omega)
    · rw [h.first]
      exact hp.above (b - 1) (by omega) (by omega)
    · rw [h.others a haj (by omega)]
      exact hs (a - 1) (b - 1) (by omega) (by omega) (by omega)

/-! ## Looking for the place -/

/-- A search finds the place of the element and leaves the array as it is. -/
def Finds (S : Setting σ α) (le : α → α → Prop) (c : ℤ → α) (start i : ℤ) (p : Prog σ α ℤ)
    (s : σ) : Prop :=
  Runs p ⟨s, c⟩ fun j m' => m'.cells = c ∧ start ≤ j ∧ j ≤ i ∧ (S.Obeys le → Place le c start i j)

/-- The element before the one that has been looked at. -/
theorem SortedOn.le_of_le (hobeys : S.Obeys le) (hs : SortedOn le c start i) {x y : ℤ}
    {z : α} (hx : start ≤ x) (hxy : x ≤ y) (hy : y < i) (h : le (c y) z) : le (c x) z := by
  rcases lt_or_eq_of_le hxy with hlt | rfl
  · exact hobeys.trans (hs x y hx hlt hy) h
  · exact h

theorem scanByOne_spec (hj : start ≤ j) (hji : j ≤ i) (hfuel : j - start < fuel)
    (hstart : 0 ≤ start) (hi : i < S.size) (s : σ) (hs : S.Obeys le → SortedOn le c start i)
    (habove : S.Obeys le → ∀ x, j ≤ x → x < i → le (c i) (c x)) :
    Finds S le c start i (scanByOne S start i fuel j) s := by
  induction fuel generalizing j s with
  | zero => omega
  | succ fuel ih =>
    rw [scanByOne]
    by_cases hne : j ≠ start
    · rw [if_pos hne]
      apply Runs.branch le ⟨by omega, by omega⟩ ⟨by omega, hi⟩
      · intro s hle
        apply ih (by omega) (by omega) (by omega)
        intro hobeys x hx hxi
        rcases lt_or_eq_of_le hx with hlt | rfl
        · exact habove hobeys x (by omega) hxi
        · exact hle hobeys
      · intro s hle
        refine Runs.pure ⟨rfl, by omega, by omega, fun hobeys => ⟨?_, ?_⟩⟩
        · intro x hx hxj
          exact SortedOn.le_of_le hobeys (hs hobeys) hx (show x ≤ j - 1 by omega) (by omega)
            (hle hobeys)
        · intro x hx hxi
          exact habove hobeys x (by omega) hxi
    · rw [if_neg hne]
      exact Runs.pure ⟨rfl, hj, hji, fun hobeys => ⟨fun x hx hxj => by omega, habove hobeys⟩⟩

theorem scanByTwo_spec (hj : start + 2 ≤ j) (hji : j < i) (hfuel : j - start < fuel)
    (hstart : 0 ≤ start) (hi : i < S.size) (s : σ) (hs : S.Obeys le → SortedOn le c start i)
    (habove : S.Obeys le → ∀ x, j ≤ x → x < i → le (c i) (c x)) :
    Finds S le c start i (scanByTwo S start i fuel j) s := by
  induction fuel generalizing j s with
  | zero => omega
  | succ fuel ih =>
    apply Runs.branch le ⟨by omega, by omega⟩ ⟨by omega, hi⟩
    · intro s hle
      -- the element belongs before both of the positions that have been passed
      have habove' : S.Obeys le → ∀ x, j - 2 ≤ x → x < i → le (c i) (c x) := by
        intro hobeys x hx hxi
        rcases lt_or_eq_of_le hx with hlt | rfl
        · exact hobeys.trans (hle hobeys) (hs hobeys (j - 2) x (by omega) hlt hxi)
        · exact hle hobeys
      by_cases h0 : j - 2 = start
      · rw [if_pos h0]
        exact Runs.pure ⟨rfl, by omega, by omega,
          fun hobeys => ⟨fun x hx hxj => by omega, habove' hobeys⟩⟩
      · rw [if_neg h0]
        by_cases h1 : j - 2 = start + 1
        · rw [if_pos h1]
          apply Runs.branch le ⟨by omega, hi⟩ ⟨by omega, by omega⟩
          · intro s hle'
            refine Runs.pure ⟨rfl, by omega, by omega, fun hobeys => ⟨?_, ?_⟩⟩
            · intro x hx hxj
              rw [show x = j - 2 - 1 by omega]
              exact hle' hobeys
            · intro x hx hxi
              exact habove' hobeys x (by omega) hxi
          · intro s hle'
            refine Runs.pure ⟨rfl, by omega, by omega, fun hobeys => ⟨fun x hx hxj => by omega, ?_⟩⟩
            intro x hx hxi
            rcases lt_or_eq_of_le hx with hlt | rfl
            · exact habove' hobeys x (by omega) hxi
            · exact hle' hobeys
        · rw [if_neg h1]
          exact ih (by omega) (by omega) (by omega) s habove'
    · intro s hle
      apply Runs.branch le ⟨by omega, by omega⟩ ⟨by omega, hi⟩
      · intro s hle'
        refine Runs.pure ⟨rfl, by omega, by omega, fun hobeys => ⟨?_, ?_⟩⟩
        · intro x hx hxj
          exact SortedOn.le_of_le hobeys (hs hobeys) hx (show x ≤ j - 2 by omega) (by omega)
            (hle hobeys)
        · intro x hx hxi
          rcases lt_or_eq_of_le hx with hlt | rfl
          · exact habove hobeys x (by omega) hxi
          · exact hle' hobeys
      · intro s hle'
        refine Runs.pure ⟨rfl, by omega, by omega, fun hobeys => ⟨?_, ?_⟩⟩
        · intro x hx hxj
          exact SortedOn.le_of_le hobeys (hs hobeys) hx (show x ≤ j - 2 + 1 by omega) (by omega)
            (hle' hobeys)
        · intro x hx hxi
          exact habove hobeys x (by omega) hxi

/-! ## The loops -/

/-- What sorting a part of the array does. -/
structure Sorts (S : Setting σ α) (le : α → α → Prop) (start stop : ℤ) (c c' : ℤ → α) : Prop where
  permutes : Permutes (Set.Ico start stop) c c'
  sorted : S.Obeys le → SortedOn le c' start stop

/-- The body of a loop: one more element is in order. -/
theorem insertAt_spec (hlow : start < i) (hstart : 0 ≤ start) (hi : i < S.size)
    (hbound : i - start < bound) {scan : ℤ → Prog σ α ℤ}
    (hs : S.Obeys le → SortedOn le m.cells start i)
    (hscan : (S.Obeys le → le (m.cells i) (m.cells (i - 1))) → ∀ s,
      Finds S le m.cells start i (scan (i - 1)) s) :
    Runs (insertAt S bound i scan) m fun _ m' => Sorts S le start (i + 1) m.cells m'.cells := by
  apply Runs.branch le ⟨by omega, by omega⟩ ⟨by omega, hi⟩
  · intro s hle
    apply Runs.seq (hscan hle s)
    rintro j m' ⟨hcells, hj, hji, hplace⟩
    refine (shift_spec hji (by omega) (by omega) hi m').mono fun _ m'' h => ?_
    rw [hcells] at h
    have hsub : Set.Icc j i ⊆ Set.Ico start (i + 1) := by
      intro x hx
      exact ⟨le_trans hj hx.1, Int.lt_add_one_of_le hx.2⟩
    refine ⟨h.permutes.mono hsub, fun hobeys => ?_⟩
    exact h.sortedOn hj hji (hs hobeys) (hplace hobeys)
  · intro s hle
    refine Runs.pure ⟨Permutes.refl _ _, fun hobeys => ?_⟩
    intro a b ha hab hb
    rcases lt_or_eq_of_le (show b ≤ i by omega) with hbi | rfl
    · exact hs hobeys a b ha hab hbi
    · exact SortedOn.le_of_le hobeys (hs hobeys) ha (show a ≤ b - 1 by omega) (by omega)
        (hle hobeys)

/-- A loop over the elements that are not yet in order. -/
theorem insertLoop_spec {scan : ℤ → ℤ → Prog σ α ℤ} (hlow : start < i) (hstart : 0 ≤ start)
    (hstop : stop ≤ S.size) (histop : i ≤ stop) (hfuel : stop - i < fuel)
    (hbound : stop - start ≤ bound)
    (hscan : ∀ i' c s, i ≤ i' → i' < stop → (S.Obeys le → SortedOn le c start i') →
      (S.Obeys le → le (c i') (c (i' - 1))) → Finds S le c start i' (scan i' (i' - 1)) s)
    (hs : S.Obeys le → SortedOn le m.cells start i) : Runs (insertLoop S bound scan stop fuel i) m
      fun _ m' => Sorts S le start stop m.cells m'.cells := by
  induction fuel generalizing i m with
  | zero => omega
  | succ fuel ih =>
    rw [insertLoop]
    by_cases hi : i < stop
    · rw [if_pos hi]
      apply Runs.seq (insertAt_spec hlow hstart (by omega) (by omega) hs
        fun hle s => hscan i m.cells s le_rfl hi hs hle)
      intro _ m' h
      refine (ih (by omega) (by omega) (by omega)
        (fun i' c s hi' => hscan i' c s (by omega)) h.sorted).mono fun _ m'' h' => ?_
      have hsub : Set.Ico start (i + 1) ⊆ Set.Ico start stop :=
        Set.Ico_subset_Ico le_rfl (by omega)
      exact ⟨(h.permutes.mono hsub).trans h'.permutes, h'.sorted⟩
    · rw [if_neg hi]
      obtain rfl : i = stop := by omega
      exact Runs.pure ⟨Permutes.refl _ _, hs⟩

/-- What has been arranged is sorted. -/
theorem Arranges.sorts (h : Arranges S le ps c c')
    (hps : ∀ x, x ∈ ps ↔ start ≤ x ∧ x < stop) (hpos : ps.Pairwise (· > ·)) :
    Sorts S le start stop c c' where
  permutes := h.permutes.mono fun x hx => (hps x).mp hx
  sorted := by
    intro hobeys a b ha hab hb
    have hboth : ps.Pairwise fun p q => (p < q → le (c' p) (c' q)) ∧ (q < p → le (c' q) (c' p)) :=
      (hpos.and (h.descends hobeys)).imp fun hpq =>
        ⟨fun hlt => absurd hlt (not_lt.mpr (le_of_lt hpq.1)), fun _ => hpq.2⟩
    have hsymm : Std.Symm fun p q => (p < q → le (c' p) (c' q)) ∧ (q < p → le (c' q) (c' p)) :=
      ⟨fun _ _ hpq => ⟨hpq.2, hpq.1⟩⟩
    exact (hboth.forall ((hps a).mpr ⟨ha, by omega⟩) ((hps b).mpr ⟨by omega, hb⟩) (by omega)).1 hab

/-- `zend_insert_sort` -/
theorem zendInsertSort_spec (le : α → α → Prop) {nmemb : ℕ} (hstart : 0 ≤ start)
    (hstop : start + nmemb ≤ S.size) (m : Memory σ α) : Runs (zendInsertSort S start nmemb) m
      fun _ m' => Sorts S le start (start + nmemb) m.cells m'.cells := by
  have hin : ∀ x, start ≤ x → x < start + nmemb → S.Inside x := fun x hx hx' =>
    ⟨by omega, by omega⟩
  match nmemb, hstop, hin with
  | 0, _, _ => exact Runs.pure ⟨Permutes.refl _ _, fun _ => sortedOn_of_le (by omega)⟩
  | 1, _, _ => exact Runs.pure ⟨Permutes.refl _ _, fun _ => sortedOn_of_le (by omega)⟩
  | 2, _, hin =>
    refine (zendSort2_spec le (by omega) (hin _ (by omega) (by omega)) (hin _ (by omega) (by omega))
      m).mono fun _ m' h => h.sorts (fun x => ?_) (by simp)
    simp only [mem_cons, not_mem_nil, or_false]
    omega
  | 3, _, hin =>
    refine (zendSort3_spec le (by omega) (by omega) (hin _ (by omega) (by omega))
      (hin _ (by omega) (by omega)) (hin _ (by omega) (by omega))
      m).mono fun _ m' h => h.sorts (fun x => ?_) (by simp)
    simp only [mem_cons, not_mem_nil, or_false]
    omega
  | 4, _, hin =>
    refine (zendSort4_spec le (by simp) (fun x hx => ?_) m).mono
      fun _ m' h => h.sorts (fun x => ?_) (by simp)
    · simp only [mem_cons, not_mem_nil, or_false] at hx
      exact hin x (by omega) (by omega)
    · simp only [mem_cons, not_mem_nil, or_false]
      omega
  | 5, _, hin =>
    refine (zendSort5_spec le (by simp) (fun x hx => ?_) m).mono
      fun _ m' h => h.sorts (fun x => ?_) (by simp)
    · simp only [mem_cons, not_mem_nil, or_false] at hx
      exact hin x (by omega) (by omega)
    · simp only [mem_cons, not_mem_nil, or_false]
      omega
  | n + 6, hstop, _ =>
    have hone : Runs (insertLoop S (n + 6 + 1) (fun i => scanByOne S start i (n + 6 + 1))
        (start + 6) (n + 6 + 1) (start + 1)) m
        fun _ m' => Sorts S le start (start + 6) m.cells m'.cells := by
      refine insertLoop_spec (by omega) hstart (by omega) (by omega) (by omega) (by omega)
        (fun i c s hi hi' hs hle => ?_) fun _ => sortedOn_of_le (by omega)
      refine scanByOne_spec (by omega) (by omega) (by omega) hstart (by omega) s hs
        fun hobeys x hx hxi => ?_
      rw [show x = i - 1 by omega]
      exact hle hobeys
    refine Runs.seq hone fun _ m' h => ?_
    have htwo : Runs (insertLoop S (n + 6 + 1) (fun i => scanByTwo S start i (n + 6 + 1))
        (start + (n + 6 : ℕ)) (n + 6 + 1) (start + 6)) m'
        fun _ m'' => Sorts S le start (start + (n + 6 : ℕ)) m'.cells m''.cells := by
      refine insertLoop_spec (by omega) hstart hstop (by omega) (by omega) (by omega)
        (fun i c s hi hi' hs hle => ?_) h.sorted
      refine scanByTwo_spec (by omega) (by omega) (by omega) hstart (by omega) s hs
        fun hobeys x hx hxi => ?_
      rw [show x = i - 1 by omega]
      exact hle hobeys
    refine htwo.mono fun _ m'' h' => ⟨?_, h'.sorted⟩
    exact (h.permutes.mono (Set.Ico_subset_Ico le_rfl (by omega))).trans h'.permutes

end ZendSort
