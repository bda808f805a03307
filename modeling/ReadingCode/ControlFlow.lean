/-
# Dominators and loops of a control-flow graph

`zend_cfg_build_predecessors`, `zend_cfg_compute_dominators_tree` and
`zend_cfg_identify_loops` over a graph of `n` basic blocks, entered at block 0.  A field
that holds a block number or -1 is an `Option (Fin n)`.  Loops and recursions take a
bound on their number of steps and return `none` beyond it, and so does a read of the
`idom` of a block that has none.
-/
import Mathlib
import ReadingCode.StackSearch
import ReadingCode.FlowGraph

namespace ZendCfg

open Function (update)

/-- The blocks as `zend_build_cfg` leaves them: the flag `ZEND_BB_REACHABLE` and the
two successors. -/
structure Cfg (n : ℕ) where
  reachable : Fin n → Bool
  succ0 : Fin n → Option (Fin n)
  succ1 : Fin n → Option (Fin n)

variable {n : ℕ}

/-! ## Predecessors -/

/-- Appends a predecessor to the ones of `b`. -/
def addPredecessor (preds : Fin n → List (Fin n)) (b j : Fin n) : Fin n → List (Fin n) :=
  update preds b (preds b ++ [j])

namespace Cfg

variable (cfg : Cfg n)

/-- The second loop of `zend_cfg_build_predecessors` at block `j`. -/
def addPredecessors (preds : Fin n → List (Fin n)) (j : Fin n) : Fin n → List (Fin n) :=
  if cfg.reachable j then
    match cfg.succ0 j with
    | none => preds
    | some b0 =>
      let preds := addPredecessor preds b0 j
      match cfg.succ1 j with
      | none => preds
      | some b1 => if b1 ≠ b0 then addPredecessor preds b1 j else preds
  else preds

/-- `zend_cfg_build_predecessors`: the slice of `cfg->predecessors` of each block. -/
def predecessors : Fin n → List (Fin n) :=
  (List.finRange n).foldl cfg.addPredecessors fun _ => []

/-- The successors that are followed: the second one only after a first one. -/
def succs (b : Fin n) : List (Fin n) :=
  match cfg.succ0 b with
  | none => []
  | some b0 =>
    match cfg.succ1 b with
    | none => [b0]
    | some b1 => [b0, b1]

end Cfg

/-! ## Dominators -/

/-- The postorder numbers (-1 not visited, -2 being visited) and the next one. -/
structure Post (n : ℕ) where
  postnum : Fin n → ℤ
  cur : ℤ

/-- `compute_postnum_recursive`. -/
def computePostnumRecursive (cfg : Cfg n) : ℕ → Post n → Fin n → Option (Post n)
  | 0, _, _ => none
  | fuel + 1, s, b =>
    if s.postnum b ≠ -1 then some s
    else
      let s := { s with postnum := update s.postnum b (-2) }
      ((cfg.succs b).foldlM (computePostnumRecursive cfg fuel) s).map fun s =>
        { postnum := update s.postnum b s.cur, cur := s.cur + 1 }

/-- Links to immediate dominators. -/
abbrev Links (n : ℕ) := Fin n → Option (Fin n)

/-- `while (postnum[a] < postnum[b]) a = blocks[a].idom`. -/
def climb (postnum : Fin n → ℤ) (idom : Links n) : ℕ → Fin n → Fin n → Option (Fin n)
  | fuel, a, b =>
    if postnum a < postnum b then
      match fuel, idom a with
      | fuel + 1, some a' => climb postnum idom fuel a' b
      | _, _ => none
    else some a

/-- `while (idom != pred)`, with the predecessor climbing first. -/
def intersect (postnum : Fin n → ℤ) (idom : Links n) : ℕ → Fin n → Fin n → Option (Fin n)
  | fuel, d, p =>
    if d = p then some d
    else
      match fuel with
      | 0 => none
      | fuel + 1 =>
        (climb postnum idom (fuel + 1) p d).bind fun p =>
          (climb postnum idom (fuel + 1) d p).bind fun d =>
            intersect postnum idom fuel d p

/-- The loop over the predecessors of a block; `d` is the local `idom`. -/
def meetPredecessors (postnum : Fin n → ℤ) (idom : Links n) (fuel : ℕ) :
    List (Fin n) → Option (Fin n) → Option (Option (Fin n))
  | [], d => some d
  | p :: ps, none =>
    meetPredecessors postnum idom fuel ps (if (idom p).isSome then some p else none)
  | p :: ps, some d =>
    if (idom p).isSome then
      (intersect postnum idom fuel d p).bind fun d =>
        meetPredecessors postnum idom fuel ps (some d)
    else meetPredecessors postnum idom fuel ps (some d)

section

variable [NeZero n]

/-- The blocks from 1 on. -/
def laterBlocks (n : ℕ) [NeZero n] : List (Fin n) := (List.finRange n).filter (· ≠ 0)

/-- One block in a pass of the `do` loop, with the flag `changed`. -/
def sweepBlock (cfg : Cfg n) (postnum : Fin n → ℤ) (fuel : ℕ) (s : Links n × Bool) (j : Fin n) :
    Option (Links n × Bool) :=
  if cfg.reachable j then
    (meetPredecessors postnum s.1 fuel (cfg.predecessors j) none).map fun d =>
      match d with
      | none => s
      | some d => if s.1 j ≠ some d then (update s.1 j (some d), true) else s
  else some s

/-- One pass of the `do` loop. -/
def sweep (cfg : Cfg n) (postnum : Fin n → ℤ) (fuel : ℕ) (idom : Links n) :
    Option (Links n × Bool) :=
  (laterBlocks n).foldlM (sweepBlock cfg postnum fuel) (idom, false)

/-- The `do` loop. -/
def sweeps (cfg : Cfg n) (postnum : Fin n → ℤ) (fuel : ℕ) : ℕ → Links n → Option (Links n)
  | 0, _ => none
  | m + 1, idom =>
    (sweep cfg postnum fuel idom).bind fun s =>
      if s.2 then sweeps cfg postnum fuel m s.1 else some s.1

end

/-- The fields `idom`, `children`, `next_child` and `level` of all blocks. -/
structure DomTree (n : ℕ) where
  idom : Links n
  children : Links n
  nextChild : Links n
  level : Fin n → ℤ

/-- `while (blocks[k].next_child >= 0 && j > blocks[k].next_child) k = ...`. -/
def lastBefore (nextChild : Links n) (j : Fin n) : ℕ → Fin n → Option (Fin n)
  | fuel, k =>
    match nextChild k with
    | none => some k
    | some k' =>
      if k' < j then
        match fuel with
        | 0 => none
        | fuel + 1 => lastBefore nextChild j fuel k'
      else some k

/-- The loop that sorts the children, at block `j`. -/
def linkChild (cfg : Cfg n) (fuel : ℕ) (t : DomTree n) (j : Fin n) : Option (DomTree n) :=
  if cfg.reachable j then
    match t.idom j with
    | none => some t
    | some d =>
      match t.children d with
      | none =>
        some { t with
          nextChild := update t.nextChild j none
          children := update t.children d (some j) }
      | some c =>
        if j < c then
          some { t with
            nextChild := update t.nextChild j (some c)
            children := update t.children d (some j) }
        else
          (lastBefore t.nextChild j fuel c).map fun k =>
            { t with
              nextChild :=
                update (update t.nextChild j (t.nextChild k)) k (some j) }
  else some t

/-- `while (idom >= 0)`, counting levels. -/
def countLevels (idom : Links n) (level : Fin n → ℤ) : ℕ → Option (Fin n) → ℤ → Option ℤ
  | _, none, l => some l
  | fuel, some d, l =>
    if 0 ≤ level d then some (l + 1 + level d)
    else
      match fuel with
      | 0 => none
      | fuel + 1 => countLevels idom level fuel (idom d) (l + 1)

/-- The loop that sets levels, at block `j`. -/
def setLevel (cfg : Cfg n) (fuel : ℕ) (t : DomTree n) (j : Fin n) : Option (DomTree n) :=
  if cfg.reachable j then
    (countLevels t.idom t.level fuel (t.idom j) 0).map fun l =>
      { t with level := update t.level j l }
  else some t

/-- `zend_cfg_compute_dominators_tree`, after `initialize_block` has set every field to -1. -/
def computeDominatorsTree [NeZero n] (cfg : Cfg n) (fuel : ℕ) : Option (DomTree n) := do
  let post ← computePostnumRecursive cfg fuel { postnum := fun _ => -1, cur := 0 } 0
  let idom ← sweeps cfg post.postnum fuel fuel (update (fun _ => none) 0 (some 0))
  let t ← (laterBlocks n).foldlM (linkChild cfg fuel)
    { idom := update idom 0 none, children := fun _ => none, nextChild := fun _ => none,
      level := fun _ => -1 }
  (List.finRange n).foldlM (setLevel cfg fuel) t

/-! ## Loops -/

/-- `dominates`. -/
def dominates (t : DomTree n) : ℕ → Fin n → Fin n → Option Bool
  | fuel, a, b =>
    if t.level a < t.level b then
      match fuel, t.idom b with
      | fuel + 1, some b' => dominates t fuel a b'
      | _, _ => none
    else some (a = b)

/-- The blocks from `j` on along `next_child`. -/
def siblings (t : DomTree n) : ℕ → Option (Fin n) → List (Fin n)
  | 0, _ => []
  | _ + 1, none => []
  | fuel + 1, some j => j :: siblings t fuel (t.nextChild j)

/-- What the search of the spanning tree looks at from block `i`: the blocks `i`
immediately dominates (a list of different blocks, hence at most `n`), then the targets
of join edges. -/
def djNext (cfg : Cfg n) (t : DomTree n) (i : Fin n) : List (Fin n) :=
  siblings t n (t.children i)
    ++ ((cfg.succ0 i).toList ++ (cfg.succ1 i).toList).filter fun b => t.idom b ≠ some i

/-- The walk from `dj_parent` up the spanning tree to block `i`. -/
def isSpBack (tree : Links n) (i : Fin n) : ℕ → Option (Fin n) → Option Bool
  | _, none => some false
  | fuel, some p =>
    if p = i then some true
    else
      match fuel with
      | 0 => none
      | fuel + 1 => isSpBack tree i fuel (tree p)

/-- `zend_worklist`: the stack with its top first, and the visited marks, which stay. -/
structure Worklist (n : ℕ) where
  stack : List (Fin n)
  visited : Fin n → Bool

/-- `zend_worklist_push`. -/
def Worklist.push (w : Worklist n) (j : Fin n) : Worklist n :=
  if w.visited j then w
  else { stack := j :: w.stack, visited := update w.visited j true }

/-- The flags `ZEND_BB_LOOP_HEADER` and `ZEND_BB_IRREDUCIBLE_LOOP` and `loop_header` of
all blocks, and the bits `ZEND_FUNC_NO_LOOPS` and `ZEND_FUNC_IRREDUCIBLE` of `flag`. -/
structure Loops (n : ℕ) where
  isHeader : Fin n → Bool
  isIrreducible : Fin n → Bool
  loopHeader : Links n
  noLoops : Bool
  irreducible : Bool

/-- The loop over the predecessors of block `i`, at `pred`. -/
def scanPredecessor (t : DomTree n) (tree : Links n) (fuel : ℕ) (i : Fin n)
    (s : Loops n × Worklist n) (pred : Fin n) : Option (Loops n × Worklist n) :=
  if t.idom i = some pred then some s
  else
    (dominates t fuel i pred).bind fun back =>
      if back then
        some ({ s.1 with isHeader := update s.1.isHeader i true, noLoops := false },
          s.2.push pred)
      else
        (isSpBack tree i fuel (some pred)).map fun spBack =>
          if spBack then
            ({ s.1 with
                isIrreducible := update s.1.isIrreducible i true
                irreducible := true
                noLoops := false }, s.2)
          else s

/-- `while (zend_worklist_len(&work))` for the header `i`. -/
def collectBody (cfg : Cfg n) (i : Fin n) : ℕ → Links n → Worklist n → Option (Links n)
  | fuel, loopHeader, w =>
    match w.stack with
    | [] => some loopHeader
    | j :: rest =>
      match fuel with
      | 0 => none
      | fuel + 1 =>
        let w := { w with stack := rest }
        if loopHeader j = none ∧ j ≠ i then
          collectBody cfg i fuel (update loopHeader j (some i))
            ((cfg.predecessors j).foldl Worklist.push w)
        else collectBody cfg i fuel loopHeader w

/-- Block `i` in the loop over the blocks of one level. -/
def loopsAt (cfg : Cfg n) (t : DomTree n) (tree : Links n) (fuel : ℕ) (depth : ℤ) (s : Loops n)
    (i : Fin n) : Option (Loops n) :=
  if t.level i ≠ depth then some s
  else
    ((cfg.predecessors i).foldlM (scanPredecessor t tree fuel i)
        (s, { stack := [], visited := fun _ => false })).bind fun (s, w) =>
      (collectBody cfg i fuel s.loopHeader w).map fun loopHeader =>
        { s with loopHeader := loopHeader }

/-- The deepest level. -/
def maxDepth (t : DomTree n) : ℤ :=
  (List.finRange n).foldl (fun depth i => if depth < t.level i then t.level i else depth) 0

/-- The loop over the levels, deepest first. -/
def loopsFrom (cfg : Cfg n) (t : DomTree n) (tree : Links n) (fuel : ℕ) :
    ℕ → Loops n → Option (Loops n)
  | depth, s =>
    ((List.finRange n).foldlM (loopsAt cfg t tree fuel (depth : ℤ)) s).bind fun s =>
      match depth with
      | 0 => some s
      | depth + 1 => loopsFrom cfg t tree fuel depth s

/-- `zend_cfg_identify_loops`; the result is what it adds to the blocks and to `*flags`. -/
def identifyLoops [NeZero n] (cfg : Cfg n) (t : DomTree n) (fuel : ℕ) : Option (Loops n) := do
  let s ← StackSearch.search (djNext cfg t) fuel (StackSearch.State.start 0)
  loopsFrom cfg t s.tree fuel (maxDepth t).toNat
    { isHeader := fun _ => false, isIrreducible := fun _ => false, loopHeader := fun _ => none,
      noLoops := true, irreducible := false }

/-! # Predecessors and postorder numbers -/

open Finset

open FlowGraph

variable {n : ℕ}

/-! ## Edges -/

namespace Cfg

variable (cfg : Cfg n)

/-- An edge out of a reachable block. -/
def Edge (a b : Fin n) : Prop := cfg.reachable a = true ∧ b ∈ cfg.succs a

/-- What `zend_build_cfg` guarantees: the entry is marked, the mark is closed under
successors, and there is no second successor without a first. -/
structure WellFormed [NeZero n] : Prop where
  entry : cfg.reachable 0 = true
  closed : ∀ a b, cfg.reachable a = true → b ∈ cfg.succs a → cfg.reachable b = true
  first : ∀ a, cfg.succ0 a = none → cfg.succ1 a = none

/-- `b` is reachable from the entry along successors. -/
abbrev FromEntry [NeZero n] (b : Fin n) : Prop := Reach cfg.Edge 0 b

variable {cfg}

theorem mem_succs {a b : Fin n} : b ∈ cfg.succs a ↔
    cfg.succ0 a = some b ∨ (cfg.succ0 a ≠ none ∧ cfg.succ1 a = some b) := by
  rw [succs]
  cases h0 : cfg.succ0 a with
  | none => simp
  | some b0 =>
    cases h1 : cfg.succ1 a with
    | none => simp [eq_comm]
    | some b1 => simp [eq_comm]

variable {c p : Fin n} {preds : Fin n → List (Fin n)}

theorem mem_addPredecessor {b j : Fin n} :
    p ∈ addPredecessor preds b j c ↔ p ∈ preds c ∨ (c = b ∧ p = j) := by
  rw [addPredecessor]
  by_cases hc : c = b
  · subst hc
    simp
  · simp [hc]

theorem mem_addPredecessors {j : Fin n} :
    p ∈ cfg.addPredecessors preds j c ↔ p ∈ preds c ∨ (p = j ∧ cfg.Edge j c) := by
  rw [addPredecessors, Edge, mem_succs]
  by_cases hr : cfg.reachable j = true
  · rw [if_pos hr]
    cases h0 : cfg.succ0 j with
    | none => simp
    | some b0 =>
      cases h1 : cfg.succ1 j with
      | none =>
        simp only [mem_addPredecessor, hr, Option.some.injEq, reduceCtorEq, and_false, or_false,
          true_and]
        constructor
        · rintro (h | ⟨rfl, rfl⟩)
          · exact .inl h
          · exact .inr ⟨rfl, rfl⟩
        · rintro (h | ⟨rfl, rfl⟩)
          · exact .inl h
          · exact .inr ⟨rfl, rfl⟩
      | some b1 =>
        by_cases hb : b1 = b0
        · subst hb
          simp only [ne_eq, not_true_eq_false, if_false, mem_addPredecessor, hr,
            Option.some.injEq, reduceCtorEq, not_false_eq_true, true_and, or_self]
          constructor
          · rintro (h | ⟨rfl, rfl⟩)
            · exact .inl h
            · exact .inr ⟨rfl, rfl⟩
          · rintro (h | ⟨rfl, rfl⟩)
            · exact .inl h
            · exact .inr ⟨rfl, rfl⟩
        · simp only [ne_eq, hb, not_false_eq_true, if_true, mem_addPredecessor, hr,
            Option.some.injEq, reduceCtorEq, true_and]
          constructor
          · rintro ((h | ⟨rfl, rfl⟩) | ⟨rfl, rfl⟩)
            · exact .inl h
            · exact .inr ⟨rfl, .inl rfl⟩
            · exact .inr ⟨rfl, .inr rfl⟩
          · rintro (h | ⟨rfl, rfl | rfl⟩)
            · exact .inl (.inl h)
            · exact .inl (.inr ⟨rfl, rfl⟩)
            · exact .inr ⟨rfl, rfl⟩
  · simp [hr]

/-- The predecessors of a block are the sources of its edges. -/
theorem mem_predecessors : p ∈ cfg.predecessors c ↔ cfg.Edge p c := by
  have key : ∀ (l : List (Fin n)) (preds : Fin n → List (Fin n)),
      p ∈ l.foldl cfg.addPredecessors preds c ↔ p ∈ preds c ∨ (p ∈ l ∧ cfg.Edge p c) := by
    intro l
    induction l with
    | nil => simp
    | cons j l ih =>
      intro preds
      rw [List.foldl_cons, ih, mem_addPredecessors, List.mem_cons, or_assoc]
      apply or_congr_right
      constructor
      · rintro (⟨rfl, h⟩ | h)
        · exact ⟨.inl rfl, h⟩
        · exact ⟨.inr h.1, h.2⟩
      · rintro ⟨rfl | h, he⟩
        · exact .inl ⟨rfl, he⟩
        · exact .inr ⟨h, he⟩
  rw [predecessors, key]
  simp

theorem FromEntry.reachable [NeZero n] (hw : cfg.WellFormed) {x : Fin n} (h : cfg.FromEntry x) :
    cfg.reachable x = true := by
  induction h with
  | refl => exact hw.entry
  | tail _ hab _ => exact hw.closed _ _ hab.1 hab.2

/-- A successor of a block below the entry is below the entry. -/
theorem FromEntry.step [NeZero n] (hw : cfg.WellFormed) {a b : Fin n} (h : cfg.FromEntry a)
    (hb : b ∈ cfg.succs a) : cfg.FromEntry b :=
  h.tail ⟨FromEntry.reachable hw h, hb⟩

end Cfg

/-! ## Postorder numbers -/

/-- What visiting the blocks `l`, one after the other, does to the numbering. -/
structure Numbered (cfg : Cfg n) (l : List (Fin n)) (s s' : Post n) : Prop where
  keep : ∀ x, s.postnum x ≠ -1 → s'.postnum x = s.postnum x
  cur_le : s.cur ≤ s'.cur
  range : ∀ x, s.postnum x = -1 → s'.postnum x ≠ -1 →
    s.cur ≤ s'.postnum x ∧ s'.postnum x < s'.cur
  inj : ∀ x y, s.postnum x = -1 → s'.postnum x ≠ -1 → s.postnum y = -1 →
    s'.postnum x = s'.postnum y → x = y
  starts : ∀ b ∈ l, s'.postnum b ≠ -1
  closed : ∀ x, s.postnum x = -1 → s'.postnum x ≠ -1 → ∀ c ∈ cfg.succs x, s'.postnum c ≠ -1
  pred : ∀ x, s.postnum x = -1 → s'.postnum x ≠ -1 →
    x ∈ l ∨ ∃ p, s.postnum p = -1 ∧ s'.postnum p ≠ -1 ∧ x ∈ cfg.succs p ∧
      s'.postnum x < s'.postnum p
  reach : ∀ x, s.postnum x = -1 → s'.postnum x ≠ -1 →
    ∃ b ∈ l, Relation.ReflTransGen (fun a c => c ∈ cfg.succs a) b x

namespace Numbered

open List Function

variable {cfg : Cfg n} {l l' : List (Fin n)} {s s' s'' : Post n}

theorem nil (s : Post n) : Numbered cfg [] s s where
  keep _ _ := rfl
  cur_le := le_rfl
  range _ h h' := absurd h h'
  inj _ _ h h' := absurd h h'
  starts _ h := by simp at h
  closed _ h h' := absurd h h'
  pred _ h h' := absurd h h'
  reach _ h h' := absurd h h'

theorem visited {b : Fin n} (hb : s.postnum b ≠ -1) : Numbered cfg [b] s s where
  keep _ _ := rfl
  cur_le := le_rfl
  range _ h h' := absurd h h'
  inj _ _ h h' := absurd h h'
  starts c hc := by
    rw [List.mem_singleton.mp hc]
    exact hb
  closed _ h h' := absurd h h'
  pred _ h h' := absurd h h'
  reach _ h h' := absurd h h'

/-- A number once given stays. -/
theorem ne_of_ne (h : Numbered cfg l s s') {x : Fin n} (hx : s.postnum x ≠ -1) :
    s'.postnum x ≠ -1 := by
  rw [h.keep x hx]
  exact hx

theorem append (h : Numbered cfg l s s') (h' : Numbered cfg l' s' s'') :
    Numbered cfg (l ++ l') s s'' := by
  -- a block is numbered by the first part or by the second
  have hsplit : ∀ x, s.postnum x = -1 → s''.postnum x ≠ -1 →
      (s'.postnum x ≠ -1 ∧ s''.postnum x = s'.postnum x) ∨ s'.postnum x = -1 := by
    intro x _ _
    by_cases hx : s'.postnum x = -1
    · exact .inr hx
    · exact .inl ⟨hx, h'.keep x hx⟩
  refine ⟨?_, h.cur_le.trans h'.cur_le, ?_, ?_, ?_, ?_, ?_, ?_⟩
  · intro x hx
    rw [h'.keep x (h.ne_of_ne hx), h.keep x hx]
  · intro x hx hx''
    rcases hsplit x hx hx'' with ⟨hx', heq⟩ | hx'
    · have := h.range x hx hx'
      have := h'.cur_le
      omega
    · have := h'.range x hx' hx''
      have := h.cur_le
      omega
  · intro x y hx hx'' hy heq
    have hy'' : s''.postnum y ≠ -1 := heq ▸ hx''
    rcases hsplit x hx hx'' with ⟨hx', hxe⟩ | hx'
    · rcases hsplit y hy hy'' with ⟨hy', hye⟩ | hy'
      · exact h.inj x y hx hx' hy (by omega)
      · have := h.range x hx hx'
        have := h'.range y hy' hy''
        omega
    · rcases hsplit y hy hy'' with ⟨hy', hye⟩ | hy'
      · have := h.range y hy hy'
        have := h'.range x hx' hx''
        omega
      · exact h'.inj x y hx' hx'' hy' heq
  · intro b hb
    rcases mem_append.mp hb with hb | hb
    · exact h'.ne_of_ne (h.starts b hb)
    · exact h'.starts b hb
  · intro x hx hx'' c hc
    rcases hsplit x hx hx'' with ⟨hx', -⟩ | hx'
    · exact h'.ne_of_ne (h.closed x hx hx' c hc)
    · exact h'.closed x hx' hx'' c hc
  · intro x hx hx''
    rcases hsplit x hx hx'' with ⟨hx', hxe⟩ | hx'
    · rcases h.pred x hx hx' with hl | ⟨p, hp, hp', hs, hlt⟩
      · exact .inl (mem_append_left _ hl)
      · refine .inr ⟨p, hp, h'.ne_of_ne hp', hs, ?_⟩
        rw [hxe, h'.keep p hp']
        exact hlt
    · rcases h'.pred x hx' hx'' with hl | ⟨p, hp, hp', hs, hlt⟩
      · exact .inl (mem_append_right _ hl)
      · refine .inr ⟨p, ?_, hp', hs, hlt⟩
        by_contra hn
        exact h.ne_of_ne hn hp
  · intro x hx hx''
    rcases hsplit x hx hx'' with ⟨hx', -⟩ | hx'
    · obtain ⟨b, hb, hr⟩ := h.reach x hx hx'
      exact ⟨b, mem_append_left _ hb, hr⟩
    · obtain ⟨b, hb, hr⟩ := h'.reach x hx' hx''
      exact ⟨b, mem_append_right _ hb, hr⟩

/-- A block is numbered after its successors. -/
theorem visit {b : Fin n} (hb : s.postnum b = -1) (hcur : 0 ≤ s.cur)
    (h : Numbered cfg (cfg.succs b) { s with postnum := update s.postnum b (-2) } s') :
    Numbered cfg [b] s { postnum := update s'.postnum b s'.cur, cur := s'.cur + 1 } := by
  have hle : s.cur ≤ s'.cur := h.cur_le
  have hself : update s'.postnum b s'.cur b = s'.cur := update_self ..
  have hother : ∀ x, x ≠ b → update s'.postnum b s'.cur x = s'.postnum x :=
    fun x hx => update_of_ne hx _ _
  have hnew : ∀ x, x ≠ b → s.postnum x = -1 → update s.postnum b (-2) x = -1 := by
    intro x hx h0
    rw [update_of_ne hx, h0]
  have hend : ∀ c, s'.postnum c ≠ -1 → update s'.postnum b s'.cur c ≠ -1 := by
    intro c hc
    by_cases hcb : c = b
    · rw [hcb]
      omega
    · rw [hother c hcb]
      exact hc
  refine ⟨?_, ?_, ?_, ?_, ?_, ?_, ?_, ?_⟩
  · intro x hx
    have hxb : x ≠ b := by
      rintro rfl
      exact hx hb
    have hmark : update s.postnum b (-2) x = s.postnum x := update_of_ne hxb _ _
    have hkeep : s'.postnum x = update s.postnum b (-2) x :=
      h.keep x (by change update s.postnum b (-2) x ≠ -1; rwa [hmark])
    change update s'.postnum b s'.cur x = _
    rw [hother x hxb, hkeep, hmark]
  · change s.cur ≤ s'.cur + 1
    omega
  · intro x hx hx'
    change _ ≤ update s'.postnum b s'.cur x ∧
      update s'.postnum b s'.cur x < s'.cur + 1
    by_cases hxb : x = b
    · rw [hxb]
      omega
    · change update s'.postnum b s'.cur x ≠ -1 at hx'
      rw [hother x hxb] at hx' ⊢
      have : s.cur ≤ s'.postnum x ∧ s'.postnum x < s'.cur := h.range x (hnew x hxb hx) hx'
      omega
  · intro x y hx hx' hy heq
    change update s'.postnum b s'.cur x ≠ -1 at hx'
    change update s'.postnum b s'.cur x = update s'.postnum b s'.cur y at heq
    by_cases hxb : x = b
    · by_cases hyb : y = b
      · rw [hxb, hyb]
      · rw [hxb, hother y hyb] at heq
        have := h.range y (hnew y hyb hy) (by omega)
        omega
    · by_cases hyb : y = b
      · rw [hyb, hother x hxb] at heq
        have := h.range x (hnew x hxb hx) (by omega)
        omega
      · rw [hother x hxb] at hx' heq
        rw [hother y hyb] at heq
        exact h.inj x y (hnew x hxb hx) hx' (hnew y hyb hy) heq
  · intro c hc
    rw [List.mem_singleton.mp hc]
    change update s'.postnum b s'.cur b ≠ -1
    omega
  · intro x hx hx' c hc
    apply hend
    by_cases hxb : x = b
    · exact h.starts c (hxb ▸ hc)
    · change update s'.postnum b s'.cur x ≠ -1 at hx'
      rw [hother x hxb] at hx'
      exact h.closed x (hnew x hxb hx) hx' c hc
  · intro x hx hx'
    by_cases hxb : x = b
    · exact .inl (List.mem_singleton.mpr hxb)
    · right
      change update s'.postnum b s'.cur x ≠ -1 at hx'
      rw [hother x hxb] at hx'
      have hrange : s.cur ≤ s'.postnum x ∧ s'.postnum x < s'.cur :=
        h.range x (hnew x hxb hx) hx'
      -- the block itself is the predecessor of its successors
      rcases h.pred x (hnew x hxb hx) hx' with hl | ⟨p, hp, hp', hs, hlt⟩
      · refine ⟨b, hb, ?_, hl, ?_⟩
        · change update s'.postnum b s'.cur b ≠ -1
          omega
        · change update s'.postnum b s'.cur x < update s'.postnum b s'.cur b
          rw [hself, hother x hxb]
          exact hrange.2
      · have hpb : p ≠ b := by
          rintro rfl
          simp at hp
        refine ⟨p, ?_, hend p hp', hs, ?_⟩
        · simpa [hpb] using hp
        · change update s'.postnum b s'.cur x < update s'.postnum b s'.cur p
          rw [hother x hxb, hother p hpb]
          exact hlt
  · intro x hx hx'
    by_cases hxb : x = b
    · exact ⟨b, mem_cons_self, hxb ▸ .refl⟩
    · change update s'.postnum b s'.cur x ≠ -1 at hx'
      rw [hother x hxb] at hx'
      obtain ⟨c, hc, hr⟩ := h.reach x (hnew x hxb hx) hx'
      exact ⟨b, mem_cons_self, .head hc hr⟩

end Numbered

/-- How many blocks have no number yet. -/
def Post.unnumbered (s : Post n) : ℕ := (univ.filter fun x => s.postnum x = -1).card

theorem Numbered.unnumbered_le {cfg : Cfg n} {l : List (Fin n)} {s s' : Post n}
    (h : Numbered cfg l s s') : s'.unnumbered ≤ s.unnumbered := by
  apply card_le_card
  intro x
  simp only [mem_filter, mem_univ, true_and]
  intro hx
  by_contra hn
  exact h.ne_of_ne hn hx

theorem unnumbered_mark_lt {s : Post n} {b : Fin n} (hb : s.postnum b = -1) :
    Post.unnumbered { s with postnum := Function.update s.postnum b (-2) } < s.unnumbered := by
  apply card_lt_card
  rw [ssubset_iff_of_subset]
  · exact ⟨b, by simpa using hb, by simp⟩
  · intro x
    by_cases hx : x = b
    · simp [hx]
    · simp [hx]

/-- The recursion ends and numbers what is below its block. -/
theorem computePostnumRecursive_numbered (cfg : Cfg n) (fuel : ℕ) (s : Post n) (b : Fin n)
    (hcur : 0 ≤ s.cur) (hf : s.unnumbered < fuel) :
    ∃ s', computePostnumRecursive cfg fuel s b = some s' ∧ Numbered cfg [b] s s' := by
  induction fuel generalizing s b with
  | zero => exact absurd hf (Nat.not_lt_zero _)
  | succ fuel ih =>
    rw [computePostnumRecursive]
    by_cases hb : s.postnum b = -1
    · rw [if_neg (by simpa using hb)]
      have hloop : ∀ (l : List (Fin n)) (t : Post n), 0 ≤ t.cur → t.unnumbered < fuel →
          ∃ t', l.foldlM (computePostnumRecursive cfg fuel) t = some t' ∧ Numbered cfg l t t' := by
        intro l
        induction l with
        | nil => exact fun t _ _ => ⟨t, rfl, .nil t⟩
        | cons c l ihl =>
          intro t ht hlt
          obtain ⟨t1, h1, hn1⟩ := ih t c ht hlt
          obtain ⟨t2, h2, hn2⟩ := ihl t1 (ht.trans hn1.cur_le)
            (lt_of_le_of_lt hn1.unnumbered_le hlt)
          refine ⟨t2, ?_, hn1.append hn2⟩
          rw [List.foldlM_cons, h1]
          exact h2
      have hlt := unnumbered_mark_lt hb
      obtain ⟨s', hrun, hn⟩ :=
        hloop (cfg.succs b) { s with postnum := Function.update s.postnum b (-2) } hcur (by omega)
      exact ⟨_, by simp only [hrun, Option.map_some], hn.visit hb hcur⟩
    · rw [if_pos hb]
      exact ⟨s, rfl, .visited hb⟩

variable [NeZero n]

/-- What the numbers say about a graph: blocks below the entry have different numbers,
none negative, and all but the entry have a predecessor with a larger one. -/
structure Postorder (cfg : Cfg n) (postnum : Fin n → ℤ) : Prop where
  nonneg : ∀ x, cfg.FromEntry x → 0 ≤ postnum x
  inj : ∀ x y, cfg.FromEntry x → cfg.FromEntry y → postnum x = postnum y → x = y
  pred : ∀ x, cfg.FromEntry x → x ≠ 0 →
    ∃ p, cfg.FromEntry p ∧ cfg.Edge p x ∧ postnum x < postnum p

theorem computePostnum_postorder {cfg : Cfg n} (hw : cfg.WellFormed) {fuel : ℕ} (hf : n < fuel) :
    ∃ s, computePostnumRecursive cfg fuel { postnum := fun _ => -1, cur := 0 } 0 = some s ∧
      Postorder cfg s.postnum := by
  have hopen : Post.unnumbered (n := n) { postnum := fun _ => -1, cur := 0 } < fuel := by
    refine lt_of_le_of_lt (card_le_univ _) ?_
    rwa [Fintype.card_fin]
  obtain ⟨s, hrun, h⟩ := computePostnumRecursive_numbered cfg fuel _ 0 (le_refl (0 : ℤ)) hopen
  refine ⟨s, hrun, ?_⟩
  have hnumbered : ∀ x, cfg.FromEntry x → s.postnum x ≠ -1 := by
    intro x hx
    induction hx with
    | refl => exact h.starts 0 List.mem_cons_self
    | tail _ hab ih => exact h.closed _ rfl ih _ hab.2
  have hentry : ∀ x, s.postnum x ≠ -1 → cfg.FromEntry x := by
    intro x hx
    obtain ⟨b, hb, hr⟩ := h.reach x rfl hx
    rw [List.mem_singleton.mp hb] at hr
    induction hr with
    | refl => exact .refl
    | @tail a c hra hac ih =>
      have ha : cfg.FromEntry a := by
        clear ih hac hx
        induction hra with
        | refl => exact .refl
        | tail _ hbc ihb => exact ihb.step hw hbc
      exact ha.step hw hac
  refine ⟨fun x hx => ?_, fun x y hx _ heq => ?_, fun x hx h0 => ?_⟩
  · have := h.range x rfl (hnumbered x hx)
    exact this.1
  · exact h.inj x y rfl (hnumbered x hx) rfl heq
  · rcases h.pred x rfl (hnumbered x hx) with hl | ⟨p, -, hp, hs, hlt⟩
    · exact absurd (List.mem_singleton.mp hl) h0
    · have hpe := hentry p hp
      exact ⟨p, hpe, ⟨hpe.reachable hw, hs⟩, hlt⟩

namespace Postorder

variable {cfg : Cfg n} {postnum : Fin n → ℤ}

/-- A strict dominator has the larger number. -/
theorem lt_of_sdom (hp : Postorder cfg postnum) {d x : Fin n} (h : SDom cfg.Edge 0 d x) :
    postnum x < postnum d := by
  -- up the predecessors with larger numbers the dominator is met
  have key : ∀ (k : ℕ) (x : Fin n), SDom cfg.Edge 0 d x →
      (univ.filter fun y => postnum x < postnum y).card ≤ k → postnum x < postnum d := by
    intro k
    induction k with
    | zero =>
      intro x hx hk
      obtain ⟨p, -, -, hlt⟩ := hp.pred x hx.1.1 hx.ne_entry
      have : p ∈ univ.filter fun y => postnum x < postnum y := by simpa using hlt
      rw [card_eq_zero.mp (Nat.le_zero.mp hk)] at this
      simp at this
    | succ k ih =>
      intro x hx hk
      obtain ⟨p, hpe, hpx, hlt⟩ := hp.pred x hx.1.1 hx.ne_entry
      by_cases hdp : d = p
      · rw [hdp]
        exact hlt
      · refine hlt.trans (ih p ⟨hx.pred hpe hpx, hdp⟩ ?_)
        have hcard : (univ.filter fun y => postnum p < postnum y).card
            < (univ.filter fun y => postnum x < postnum y).card := by
          apply card_lt_card
          rw [ssubset_iff_of_subset]
          · exact ⟨p, by simpa using hlt, by simp⟩
          · intro y
            simp only [mem_filter, mem_univ, true_and]
            exact fun hy => hlt.trans hy
        omega
  exact key _ x h le_rfl

theorem le_of_dom (hp : Postorder cfg postnum) {d x : Fin n} (h : Dom cfg.Edge 0 d x) :
    postnum x ≤ postnum d := by
  by_cases hdx : d = x
  · rw [hdx]
  · exact (hp.lt_of_sdom ⟨h, hdx⟩).le

end Postorder

end ZendCfg
