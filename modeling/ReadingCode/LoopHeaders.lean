/-
# Loop headers

`zend_cfg_identify_loops` visits the headers from the deepest level up, and each collects
the blocks that reach one of its back edges through blocks without a header.  The header
of the innermost loop is found in every reducible graph whose inner loops never stand
between a block and the back edges of its own loop.
-/
import ReadingCode.DominatorTree

namespace ZendCfg

open FlowGraph StackSearch

variable {n : ℕ} {cfg : Cfg n}

/-! ## The worklist -/

namespace Worklist

variable {w : Worklist n}

/-- How much can still be popped. -/
def size (w : Worklist n) : ℕ :=
  w.stack.length + (Finset.univ.filter fun x => w.visited x = false).card

variable {j : Fin n}

variable {l : List (Fin n)} {x : Fin n}

theorem visited_push : (w.push j).visited x = true ↔ w.visited x = true ∨ x = j := by
  rw [push]
  split
  · rename_i hj
    constructor
    · exact .inl
    · rintro (hx | rfl)
      · exact hx
      · exact hj
  · by_cases hx : x = j
    · simp [hx]
    · simp [hx]

theorem mem_stack_push : x ∈ (w.push j).stack ↔ x ∈ w.stack ∨ (x = j ∧ w.visited j = false) := by
  rw [push]
  split
  · rename_i hj
    simp [hj]
  · rename_i hj
    simp only [List.mem_cons, hj, and_true]
    tauto

theorem size_push (j : Fin n) : (w.push j).size = w.size := by
  rw [push]
  split
  · rfl
  · rename_i hj
    have hset : (Finset.univ.filter fun x => w.visited x = false)
        = insert j (Finset.univ.filter fun x => Function.update w.visited j true x = false) := by
      ext x
      by_cases hx : x = j
      · simp [hx, hj]
      · simp [hx]
    rw [size, size, hset, Finset.card_insert_of_notMem (by simp)]
    change (w.stack.length + 1)
      + (Finset.univ.filter fun x => Function.update w.visited j true x = false).card = _
    omega

theorem visited_pushes : (l.foldl push w).visited x = true ↔ w.visited x = true ∨ x ∈ l := by
  induction l generalizing w with
  | nil => simp
  | cons a l ih =>
    rw [List.foldl_cons, ih, visited_push, List.mem_cons, or_assoc]

theorem mem_stack_pushes :
    x ∈ (l.foldl push w).stack ↔ x ∈ w.stack ∨ (x ∈ l ∧ w.visited x = false) := by
  induction l generalizing w with
  | nil => simp
  | cons a l ih =>
    have hv : (w.push a).visited x = false ↔ w.visited x = false ∧ x ≠ a := by
      rw [← Bool.not_eq_true, visited_push, not_or, Bool.not_eq_true]
    rw [List.foldl_cons, ih, mem_stack_push, hv]
    by_cases hx : x = a
    · simp [hx]
    · simp [hx]

theorem size_pushes (l : List (Fin n)) : (l.foldl push w).size = w.size := by
  induction l generalizing w with
  | nil => rfl
  | cons a l ih => rw [List.foldl_cons, ih, size_push]

theorem size_pop {rest : List (Fin n)} (hs : w.stack = j :: rest) :
    ({ w with stack := rest } : Worklist n).size + 1 = w.size := by
  simp only [size, hs, List.length_cons]
  omega

end Worklist

/-! ## The body of a loop -/

/-- A block the header `i` may claim: another block, without a header so far. -/
def Free (loopHeader : Links n) (i x : Fin n) : Prop := loopHeader x = none ∧ x ≠ i

/-- The blocks that reach one of the blocks `T` through free blocks. -/
def Body (cfg : Cfg n) (loopHeader : Links n) (i : Fin n) (T : Fin n → Prop) (x : Fin n) : Prop :=
  Free loopHeader i x ∧
    ∃ t, T t ∧ Relation.ReflTransGen (fun a b => cfg.Edge a b ∧ Free loopHeader i b) x t

variable {x : Fin n}

variable {T : Fin n → Prop} {loopHeader : Links n}

theorem Body.pred {i : Fin n} {y : Fin n}
    (h : Body cfg loopHeader i T y) (hxy : cfg.Edge x y) (hx : Free loopHeader i x) :
    Body cfg loopHeader i T x := by
  obtain ⟨hy, t, ht, hyt⟩ := h
  exact ⟨hx, t, ht, hyt.head ⟨hxy, hy⟩⟩

/-- The free path of a block of the body runs in the body. -/
theorem Body.walk {i : Fin n} {l : Fin n} (hl : T l)
    (hp : Relation.ReflTransGen (fun a b => cfg.Edge a b ∧ Free loopHeader i b) x l) :
    Relation.ReflTransGen (fun a b => cfg.Edge a b ∧ Body cfg loopHeader i T b) x l := by
  induction hp using Relation.ReflTransGen.head_induction_on with
  | refl => exact .refl
  | head hab hbl ih => exact ih.head ⟨hab.1, hab.2, l, hl, hbl⟩

/-- The collection for the header `i` from the links `old` and the sources `T`. -/
structure Collecting (cfg : Cfg n) (old : Links n) (i : Fin n) (T : Fin n → Prop)
    (loopHeader : Links n) (w : Worklist n) : Prop where
  claimed : ∀ x, loopHeader x = old x ∨ (loopHeader x = some i ∧ Body cfg old i T x)
  stacked : ∀ x ∈ w.stack, Free old i x → Body cfg old i T x
  visited : ∀ x, w.visited x = true → x ∈ w.stack ∨ (Free old i x → loopHeader x = some i)
  source : ∀ x, T x → w.visited x = true
  pred : ∀ x, Free old i x → loopHeader x = some i → ∀ p, cfg.Edge p x → w.visited p = true

namespace Collecting

open Function

variable {old loopHeader : Links n} {i : Fin n} {T : Fin n → Prop} {w : Worklist n}

variable {rest : List (Fin n)}

/-- A free block on top of the stack is claimed and its predecessors pushed. -/
theorem claim (h : Collecting cfg old i T loopHeader w) {j : Fin n}
    (hs : w.stack = j :: rest) (hj : loopHeader j = none ∧ j ≠ i) :
    Collecting cfg old i T (update loopHeader j (some i))
      ((cfg.predecessors j).foldl Worklist.push { w with stack := rest }) := by
  have hfree : Free old i j := by
    rcases h.claimed j with he | ⟨he, -⟩
    · exact ⟨he.symm.trans hj.1, hj.2⟩
    · exact absurd (hj.1.symm.trans he) (by simp)
  have hbody : Body cfg old i T j := h.stacked j (by simp [hs]) hfree
  refine ⟨?_, ?_, ?_, ?_, ?_⟩
  · intro x
    by_cases hx : x = j
    · subst hx
      exact .inr ⟨update_self .., hbody⟩
    · rw [update_of_ne hx]
      exact h.claimed x
  · intro x hx hfx
    rcases Worklist.mem_stack_pushes.mp hx with hx | ⟨hx, -⟩
    · exact h.stacked x (by rw [hs]; exact List.mem_cons_of_mem j hx) hfx
    · exact hbody.pred (Cfg.mem_predecessors.mp hx) hfx
  · intro x hx
    rw [Worklist.mem_stack_pushes]
    by_cases hv : w.visited x = true
    · rcases h.visited x hv with hin | hclaimed
      · rw [hs] at hin
        rcases List.mem_cons.mp hin with rfl | hin
        · exact .inr fun _ => update_self ..
        · exact .inl (.inl hin)
      · refine .inr fun hfx => ?_
        by_cases hxj : x = j
        · rw [hxj, update_self]
        · rw [update_of_ne hxj]
          exact hclaimed hfx
    · rcases Worklist.visited_pushes.mp hx with hx | hx
      · exact absurd hx hv
      · exact .inl (.inr ⟨hx, by simpa using hv⟩)
  · intro x hx
    exact Worklist.visited_pushes.mpr (.inl (h.source x hx))
  · intro x hfx hx p hp
    rw [Worklist.visited_pushes]
    by_cases hxj : x = j
    · subst hxj
      exact .inr (Cfg.mem_predecessors.mpr hp)
    · rw [update_of_ne hxj] at hx
      exact .inl (h.pred x hfx hx p hp)

/-- Any other block on top of the stack is dropped. -/
theorem drop (h : Collecting cfg old i T loopHeader w) {j : Fin n}
    (hs : w.stack = j :: rest) (hj : ¬ (loopHeader j = none ∧ j ≠ i)) :
    Collecting cfg old i T loopHeader { w with stack := rest } := by
  refine ⟨h.claimed, ?_, ?_, h.source, h.pred⟩
  · exact fun x hx => h.stacked x (by rw [hs]; exact List.mem_cons_of_mem j hx)
  · intro x hx
    rcases h.visited x hx with hin | hclaimed
    · rw [hs] at hin
      rcases List.mem_cons.mp hin with rfl | hin
      · refine .inr fun hfx => ?_
        rcases h.claimed x with he | ⟨he, -⟩
        · exact absurd ⟨he.trans hfx.1, hfx.2⟩ hj
        · exact he
      · exact .inl hin
    · exact .inr hclaimed

/-- With an empty worklist all of the body is claimed. -/
theorem complete (h : Collecting cfg old i T loopHeader w) (hs : w.stack = [])
    (hx : Body cfg old i T x) : loopHeader x = some i := by
  have hvisited : ∀ y, w.visited y = true → Free old i y → loopHeader y = some i := by
    intro y hy
    rcases h.visited y hy with hin | hclaimed
    · exact absurd hin (by simp [hs])
    · exact hclaimed
  obtain ⟨hfx, s, hT, hp⟩ := hx
  induction hp using Relation.ReflTransGen.head_induction_on with
  | refl => exact hvisited s (h.source s hT) hfx
  | head hab _ ih => exact hvisited _ (h.pred _ hab.2 (ih hab.2) _ hab.1) hfx

end Collecting

variable {fuel : ℕ}

/-- The loop that collects a body ends with exactly the body claimed. -/
theorem collectBody_spec {old loopHeader : Links n} {i : Fin n} {T : Fin n → Prop}
    {w : Worklist n} (h : Collecting cfg old i T loopHeader w) (hf : w.size ≤ fuel) :
    ∃ loopHeader', collectBody cfg i fuel loopHeader w = some loopHeader' ∧
      ∀ x, (Body cfg old i T x → loopHeader' x = some i) ∧
        (¬ Body cfg old i T x → loopHeader' x = old x) := by
  induction fuel generalizing loopHeader w with
  | zero =>
    have hs : w.stack = [] := by
      apply List.eq_nil_of_length_eq_zero
      rw [Worklist.size] at hf
      omega
    refine ⟨loopHeader, by rw [collectBody, hs], fun x => ⟨h.complete hs, fun hx => ?_⟩⟩
    exact (h.claimed x).resolve_right fun hb => hx hb.2
  | succ fuel ih =>
    cases hs : w.stack with
    | nil =>
      refine ⟨loopHeader, by rw [collectBody, hs], fun x => ⟨h.complete hs, fun hx => ?_⟩⟩
      exact (h.claimed x).resolve_right fun hb => hx hb.2
    | cons j rest =>
      have hsize := Worklist.size_pop hs
      rw [collectBody, hs]
      by_cases hj : loopHeader j = none ∧ j ≠ i
      · simp only [if_pos hj]
        apply ih (h.claim hs hj)
        rw [Worklist.size_pushes]
        omega
      · simp only [if_neg hj]
        apply ih (h.drop hs hj)
        omega

/-! ## The predecessors of a header -/

section

variable [NeZero n] {t : DomTree n} {tree : Links n} {disc : Fin n → ℕ}

/-- What `dominates` finds of a predecessor `p` of `i`. -/
def BackEdge (cfg : Cfg n) (i p : Fin n) : Prop := p = i ∨ Dom cfg.Edge 0 i p

/-- The links and the flags after some predecessors `ps` of `i`. -/
structure Scanned (cfg : Cfg n) (tree : Links n) (i : Fin n) (s0 : Loops n) (ps : List (Fin n))
    (s : Loops n × Worklist n) : Prop where
  loopHeader : s.1.loopHeader = s0.loopHeader
  other : ∀ x, x ≠ i → s.1.isHeader x = s0.isHeader x
  header : s.1.isHeader i = true ↔ s0.isHeader i = true ∨ ∃ p ∈ ps, BackEdge cfg i p
  irreducible : s.1.irreducible = true ↔
    s0.irreducible = true ∨ ∃ p ∈ ps, Above tree i p ∧ ¬ BackEdge cfg i p
  visited : ∀ x, s.2.visited x = true ↔ x ∈ ps ∧ BackEdge cfg i x
  stack : ∀ x, x ∈ s.2.stack ↔ x ∈ ps ∧ BackEdge cfg i x
  size : s.2.size = n

theorem scanned_nil (i : Fin n) (s : Loops n) :
    Scanned cfg tree i s [] (s, { stack := [], visited := fun _ => false }) := by
  refine ⟨rfl, fun _ _ => rfl, by simp, by simp, by simp, by simp, ?_⟩
  simp [Worklist.size]

namespace Scanned

variable {i p : Fin n} {s0 : Loops n} {ps : List (Fin n)} {s : Loops n × Worklist n}

omit [NeZero n] in
omit [NeZero n] in
theorem mem_snoc_and {P : Fin n → Prop} : x ∈ ps ++ [p] ∧ P x ↔ (x ∈ ps ∧ P x) ∨ (x = p ∧ P p) := by
  rw [List.mem_append, List.mem_singleton, or_and_right]
  by_cases hx : x = p
  · simp [hx]
  · simp [hx]

/-- The source of a back edge is pushed. -/
theorem back (h : Scanned cfg tree i s0 ps s) (hp : BackEdge cfg i p) :
    Scanned cfg tree i s0 (ps ++ [p])
      ({ s.1 with isHeader := Function.update s.1.isHeader i true, noLoops := false },
        s.2.push p) := by
  refine ⟨h.loopHeader, fun x hx => ?_, ?_, ?_, fun x => ?_, fun x => ?_, ?_⟩
  · exact (Function.update_of_ne hx _ _).trans (h.other x hx)
  · simp [hp]
  · simp [h.irreducible, hp]
  · rw [mem_snoc_and, Worklist.visited_push, h.visited]
    simp [hp]
  · rw [mem_snoc_and, Worklist.mem_stack_push, h.stack]
    -- a source found twice is on the stack already
    by_cases hv : s.2.visited p = true
    · have hin := (h.visited p).mp hv
      simp only [hv, Bool.true_eq_false, and_false, or_false, hp, and_true]
      refine ⟨.inl, ?_⟩
      rintro (hx | rfl)
      · exact hx
      · exact hin
    · simp [hv, hp]
  · rw [Worklist.size_push, h.size]

/-- Another predecessor leaves at most its mark. -/
theorem noBack (h : Scanned cfg tree i s0 ps s) (hp : ¬ BackEdge cfg i p) {mark : Fin n → Bool}
    {irreducible noLoops : Bool}
    (hirr : irreducible = true ↔ s.1.irreducible = true ∨ Above tree i p) :
    Scanned cfg tree i s0 (ps ++ [p])
      ({ s.1 with isIrreducible := mark, irreducible := irreducible, noLoops := noLoops },
        s.2) := by
  refine ⟨h.loopHeader, h.other, ?_, ?_, fun x => ?_, fun x => ?_, h.size⟩
  · simp [h.header, hp]
  · simp [hirr, h.irreducible, hp, or_assoc]
  · rw [mem_snoc_and, h.visited]
    simp [hp]
  · rw [mem_snoc_and, h.stack]
    simp [hp]

end Scanned

variable {i : Fin n}

/-- One predecessor. -/
theorem scanPredecessor_spec (ht : TreeOk cfg t) (hs : Spanning cfg tree disc) (hw : cfg.WellFormed)
    (hf : n ≤ fuel) {p : Fin n} (hi : cfg.reachable i = true) (hp : cfg.Edge p i) {s0 : Loops n}
    {ps : List (Fin n)} {s : Loops n × Worklist n} (h : Scanned cfg tree i s0 ps s) :
    ∃ s', scanPredecessor t tree fuel i s p = some s' ∧ Scanned cfg tree i s0 (ps ++ [p]) s' := by
  have hlevel : t.level p ≤ fuel := by
    obtain ⟨k, hk, hl⟩ := ht.level p hp.1
    have := depth_le hk
    omega
  rw [scanPredecessor]
  by_cases hidom : t.idom i = some p
  · -- the immediate dominator is above in both trees
    have hsd := ((ht.links.link_iff i p).mp hidom).1
    have hback : ¬ BackEdge cfg i p := by
      rintro (heq | hd)
      · exact hsd.2 heq
      · exact hsd.2 (hsd.1.antisymm hd)
    have habove : ¬ Above tree i p := fun ha =>
      hsd.2 (hs.above_antisymm (hs.above_of_dom hsd.1) ha)
    exact ⟨s, by rw [if_pos hidom], h.noBack hback (by simp [habove])⟩
  · obtain ⟨back, hrun, hback⟩ := ht.dominates_spec hw hi hp.1 hlevel
    rw [if_neg hidom, hrun, Option.bind_some]
    by_cases hb : back = true
    · exact ⟨_, by rw [if_pos hb], h.back (hback.mp hb)⟩
    · have hnb : ¬ BackEdge cfg i p := fun hbe => hb (hback.mpr hbe)
      obtain ⟨spBack, hrun', hsp⟩ := hs.isSpBack_spec (i := i) (p := p) hf
      rw [if_neg hb, hrun', Option.map_some]
      by_cases hspb : spBack = true
      · exact ⟨_, by rw [if_pos hspb], h.noBack hnb (by simp [hsp.mp hspb])⟩
      · have habove : ¬ Above tree i p := fun ha => hspb (hsp.mpr ha)
        exact ⟨s, by rw [if_neg hspb], h.noBack hnb (by simp [habove])⟩

/-- The loop over the predecessors. -/
theorem scanPredecessors_spec (ht : TreeOk cfg t) (hs : Spanning cfg tree disc)
    (hw : cfg.WellFormed) (hf : n ≤ fuel) (hi : cfg.reachable i = true) (s0 : Loops n) :
    ∃ s, (cfg.predecessors i).foldlM (scanPredecessor t tree fuel i)
        (s0, { stack := [], visited := fun _ => false }) = some s ∧
      Scanned cfg tree i s0 (cfg.predecessors i) s := by
  refine foldlM_inv (Scanned cfg tree i s0) ?_ (scanned_nil i s0)
  intro done p rest s hl h
  have hp : p ∈ cfg.predecessors i := by simp [hl]
  exact scanPredecessor_spec ht hs hw hf hi (Cfg.mem_predecessors.mp hp) h

/-! ## The headers of the blocks -/

/-- From every block in another block's innermost loop a back edge of this loop is
reached through blocks with the same innermost loop. -/
def DirectLatches (cfg : Cfg n) : Prop :=
  ∀ x h, Innermost cfg.Edge 0 x h → ∃ l, Latch cfg.Edge 0 h l ∧
    Relation.ReflTransGen (fun a b => cfg.Edge a b ∧ Innermost cfg.Edge 0 b h) x l

/-- The result after the blocks `D` have been the header. -/
structure LoopsOk (cfg : Cfg n) (tree : Links n) (D : Fin n → Prop) (s : Loops n) : Prop where
  header : ∀ x, cfg.FromEntry x → (s.isHeader x = true ↔ D x ∧ Header cfg.Edge 0 x)
  irreducible : s.irreducible = true ↔ ∃ p i, D i ∧ SpBack cfg tree p i
  walk : ∀ x h, cfg.FromEntry x → s.loopHeader x = some h → D h ∧ h ≠ x ∧
    ∃ l, Latch cfg.Edge 0 h l ∧
      Relation.ReflTransGen (fun a b => cfg.Edge a b ∧ s.loopHeader b = some h) x l
  sound : DirectLatches cfg → ∀ x h, cfg.FromEntry x → s.loopHeader x = some h →
    Innermost cfg.Edge 0 x h
  complete : DirectLatches cfg → ∀ x h, D h → Innermost cfg.Edge 0 x h →
    s.loopHeader x = some h

theorem LoopsOk.congr {D D' : Fin n → Prop} {s : Loops n} (h : LoopsOk cfg tree D s)
    (hD : ∀ x, D x ↔ D' x) : LoopsOk cfg tree D' s := by
  rw [← funext fun x => propext (hD x)]
  exact h

/-- What the header `i` claims: the blocks of its natural loop, when the blocks before
have claimed the loops below. -/
theorem body_inLoop {loopHeader : Links n} (hx : cfg.FromEntry x)
    (h : Body cfg loopHeader i (fun p => cfg.Edge p i ∧ BackEdge cfg i p) x) :
    ∃ l, Latch cfg.Edge 0 i l ∧
      Relation.ReflTransGen (fun a b => cfg.Edge a b ∧ Free loopHeader i b) x l := by
  obtain ⟨hfree, l, ⟨he, hback⟩, hp⟩ := h
  have hl : Free loopHeader i l := by
    rcases hp.cases_tail with rfl | ⟨y, -, hy⟩
    · exact hfree
    · exact hy.2
  exact ⟨l, ⟨he, hback.resolve_left hl.2⟩, hp⟩

section

variable {i : Fin n} {D : Fin n → Prop} {s : Loops n}

variable {s' : Loops n × Worklist n}

theorem header_step (h : LoopsOk cfg tree D s) (hD : ¬ D i)
    (hsc : Scanned cfg tree i s (cfg.predecessors i) s') (x : Fin n) (hx : cfg.FromEntry x) :
    s'.1.isHeader x = true ↔ (D x ∨ x = i) ∧ Header cfg.Edge 0 x := by
  by_cases hxi : x = i
  · subst hxi
    have hold : s.isHeader x ≠ true := fun hh => hD ((h.header x hx).mp hh).1
    rw [hsc.header]
    constructor
    · rintro (hh | ⟨p, hp, heq | hd⟩)
      · exact absurd hh hold
      · subst heq
        exact ⟨.inr rfl, p, Cfg.mem_predecessors.mp hp, .refl hx⟩
      · exact ⟨.inr rfl, p, Cfg.mem_predecessors.mp hp, hd⟩
    · rintro ⟨-, p, hp, hd⟩
      exact .inr ⟨p, Cfg.mem_predecessors.mpr hp, .inr hd⟩
  · rw [hsc.other x hxi, h.header x hx]
    simp [hxi]

theorem irreducible_step (h : LoopsOk cfg tree D s) (hs : Spanning cfg tree disc)
    (hsc : Scanned cfg tree i s (cfg.predecessors i) s') :
    s'.1.irreducible = true ↔ ∃ p j, (D j ∨ j = i) ∧ SpBack cfg tree p j := by
  rw [hsc.irreducible, h.irreducible]
  constructor
  · rintro (⟨p, j, hj, hb⟩ | ⟨p, hp, ha, hb⟩)
    · exact ⟨p, j, .inl hj, hb⟩
    · rw [BackEdge, not_or] at hb
      -- what has a block below it in the tree was visited
      have hi : cfg.FromEntry i := by
        rcases ha.cases_head with heq | ⟨y, hy, -⟩
        · exact absurd heq.symm hb.1
        · exact (hs.link y i hy).1
      exact ⟨p, i, .inr rfl, hi, Cfg.mem_predecessors.mp hp, ha, hb.2⟩
  · rintro ⟨p, j, hj | rfl, hb⟩
    · exact .inl ⟨p, j, hj, hb⟩
    · obtain ⟨hj, he, ha, hd⟩ := hb
      refine .inr ⟨p, Cfg.mem_predecessors.mpr he, ha, ?_⟩
      rintro (rfl | hd')
      · exact hd (.refl hj)
      · exact hd hd'

variable {loopHeader : Links n}

/-- The links after the header `i` has claimed its body. -/
abbrev Claims (cfg : Cfg n) (i : Fin n) (old loopHeader : Links n) : Prop :=
  ∀ x, (Body cfg old i (fun p => cfg.Edge p i ∧ BackEdge cfg i p) x → loopHeader x = some i) ∧
    (¬ Body cfg old i (fun p => cfg.Edge p i ∧ BackEdge cfg i p) x → loopHeader x = old x)

/-- Links that were set stay. -/
theorem Claims.keep (hc : Claims cfg i s.loopHeader loopHeader) {g : Fin n}
    (hx : s.loopHeader x = some g) : loopHeader x = some g := by
  rw [(hc x).2, hx]
  rintro ⟨⟨hnone, -⟩, -⟩
  exact absurd (hnone.symm.trans hx) (by simp)

/-- A link that is new comes from the body. -/
theorem Claims.cases (hc : Claims cfg i s.loopHeader loopHeader) {g : Fin n}
    (hx : loopHeader x = some g) : s.loopHeader x = some g ∨
      (g = i ∧ Body cfg s.loopHeader i (fun p => cfg.Edge p i ∧ BackEdge cfg i p) x) := by
  by_cases hb : Body cfg s.loopHeader i (fun p => cfg.Edge p i ∧ BackEdge cfg i p) x
  · exact .inr ⟨Option.some.inj (hx.symm.trans ((hc x).1 hb)), hb⟩
  · exact .inl (((hc x).2 hb).symm.trans hx)

theorem walk_step (h : LoopsOk cfg tree D s) (hc : Claims cfg i s.loopHeader loopHeader)
    (x g : Fin n) (hx : cfg.FromEntry x) (hg : loopHeader x = some g) :
    (D g ∨ g = i) ∧ g ≠ x ∧ ∃ l, Latch cfg.Edge 0 g l ∧
      Relation.ReflTransGen (fun a b => cfg.Edge a b ∧ loopHeader b = some g) x l := by
  rcases hc.cases hg with hold | ⟨rfl, hb⟩
  · obtain ⟨hD, hne, l, hl, hp⟩ := h.walk x g hx hold
    refine ⟨.inl hD, hne, l, hl, Relation.ReflTransGen.mono ?_ _ _ hp⟩
    exact fun a b hab => ⟨hab.1, hc.keep hab.2⟩
  · obtain ⟨l, hl, hp⟩ := body_inLoop hx hb
    refine ⟨.inr rfl, hb.1.2.symm, l, hl, ?_⟩
    have hbody := Body.walk (T := fun p => cfg.Edge p g ∧ BackEdge cfg g p) ⟨hl.1, .inr hl.2⟩ hp
    refine Relation.ReflTransGen.mono ?_ _ _ hbody
    exact fun a b hab => ⟨hab.1, (hc b).1 hab.2⟩

theorem sound_step (h : LoopsOk cfg tree D s) (ht : TreeOk cfg t)
    (hw : cfg.WellFormed) (hdeep : ∀ g, cfg.FromEntry g → t.level i < t.level g → D g)
    (hc : Claims cfg i s.loopHeader loopHeader) (hdir : DirectLatches cfg) (x g : Fin n)
    (hx : cfg.FromEntry x) (hg : loopHeader x = some g) : Innermost cfg.Edge 0 x g := by
  rcases hc.cases hg with hold | ⟨rfl, hb⟩
  · exact h.sound hdir x g hx hold
  · obtain ⟨l, hl, hp⟩ := body_inLoop hx hb
    have hin : InLoop cfg.Edge 0 g x := by
      refine ⟨hx, .inr ⟨hb.1.2, l, hl, Relation.ReflTransGen.mono ?_ _ _ hp⟩⟩
      exact fun a b hab => ⟨hab.1, hab.2.2⟩
    obtain ⟨m, hm⟩ := exists_innermost hb.1.2.symm hin
    by_cases hgm : g = m
    · rw [hgm]
      exact hm
    · -- a deeper header has claimed `x` before
      have hd := (innermost_iff.mp hm).2.2 g hb.1.2.symm hin
      have hDm := hdeep m hd.1 (ht.level_lt hw ⟨hd, hgm⟩)
      exact absurd (hb.1.1.symm.trans (h.complete hdir x m hDm hm)) (by simp)

theorem complete_step (h : LoopsOk cfg tree D s) (hD : ¬ D i)
    (hc : Claims cfg i s.loopHeader loopHeader) (hdir : DirectLatches cfg) (x g : Fin n)
    (hg : D g ∨ g = i) (hx : Innermost cfg.Edge 0 x g) : loopHeader x = some g := by
  rcases hg with hDg | rfl
  · exact hc.keep (h.complete hdir x g hDg hx)
  · -- no block on the way has been claimed by another header
    have hfree : ∀ b, Innermost cfg.Edge 0 b g → Free s.loopHeader g b := by
      intro b hb
      refine ⟨?_, hb.1.symm⟩
      cases hsb : s.loopHeader b with
      | none => rfl
      | some m =>
        have hm := h.sound hdir b m hb.2.1.1 hsb
        obtain rfl := hm.unique hb
        exact absurd (h.walk b m hb.2.1.1 hsb).1 hD
    obtain ⟨l, hl, hp⟩ := hdir x g hx
    apply (hc x).1
    refine ⟨hfree x hx, l, ⟨hl.1, .inr hl.2⟩, Relation.ReflTransGen.mono ?_ _ _ hp⟩
    exact fun a b hab => ⟨hab.1, hfree b hab.2⟩

end

variable {s : Loops n}

/-- The block `i` as a header, after all blocks of a deeper level. -/
theorem loopsAt_spec (ht : TreeOk cfg t) (hs : Spanning cfg tree disc) (hw : cfg.WellFormed)
    (hf : n ≤ fuel) {i : Fin n} (hi : cfg.reachable i = true) {D : Fin n → Prop}
    (h : LoopsOk cfg tree D s) (hD : ¬ D i)
    (hdeep : ∀ h, cfg.FromEntry h → t.level i < t.level h → D h) :
    ∃ s', loopsAt cfg t tree fuel (t.level i) s i = some s' ∧
      LoopsOk cfg tree (fun x => D x ∨ x = i) s' := by
  obtain ⟨⟨s1, w⟩, hrun, hsc⟩ := scanPredecessors_spec ht hs hw hf hi s
  have hpred : ∀ p, p ∈ cfg.predecessors i ↔ cfg.Edge p i := fun p => Cfg.mem_predecessors
  set T : Fin n → Prop := fun p => cfg.Edge p i ∧ BackEdge cfg i p with hT
  have hcol : Collecting cfg s1.loopHeader i T s1.loopHeader w := by
    refine ⟨fun x => .inl rfl, ?_, ?_, ?_, ?_⟩
    · intro x hx hfx
      obtain ⟨hx, hb⟩ := (hsc.stack x).mp hx
      exact ⟨hfx, x, ⟨(hpred x).mp hx, hb⟩, .refl⟩
    · exact fun x hx => .inl ((hsc.stack x).mpr ((hsc.visited x).mp hx))
    · exact fun x hx => (hsc.visited x).mpr ⟨(hpred x).mpr hx.1, hx.2⟩
    · intro x hfx hx
      exact absurd (hfx.1.symm.trans hx) (by simp)
  obtain ⟨loopHeader, hrun', hbody⟩ := collectBody_spec hcol (hsc.size.le.trans hf)
  rw [show s1.loopHeader = s.loopHeader from hsc.loopHeader] at hbody
  refine ⟨{ s1 with loopHeader := loopHeader }, ?_, ?_, ?_, ?_, ?_, ?_⟩
  · rw [loopsAt, if_neg (by simp), hrun, Option.bind_some]
    simp only [hrun', Option.map_some]
  · exact header_step h hD hsc
  · exact irreducible_step h hs hsc
  · exact walk_step h hbody
  · exact sound_step h ht hw hdeep hbody
  · exact complete_step h hD hbody

/-! ## The run -/

/-- The blocks that come before the rest of the blocks of level `depth`. -/
def Before (t : DomTree n) (depth : ℤ) (done : List (Fin n)) (x : Fin n) : Prop :=
  depth < t.level x ∨ (t.level x = depth ∧ x ∈ done)

omit [NeZero n] in
theorem le_foldl_depth (t : DomTree n) (l : List (Fin n)) (d : ℤ) :
    d ≤ l.foldl (fun depth i => if depth < t.level i then t.level i else depth) d ∧
      ∀ x ∈ l, t.level x ≤
        l.foldl (fun depth i => if depth < t.level i then t.level i else depth) d := by
  induction l generalizing d with
  | nil => exact ⟨le_rfl, by simp⟩
  | cons a l ih =>
    rw [List.foldl_cons]
    obtain ⟨hd, hall⟩ := ih (if d < t.level a then t.level a else d)
    have hstep : d ≤ (if d < t.level a then t.level a else d) ∧
        t.level a ≤ (if d < t.level a then t.level a else d) := by
      split
      · rename_i hlt
        exact ⟨hlt.le, le_rfl⟩
      · rename_i hge
        exact ⟨le_rfl, not_lt.mp hge⟩
    refine ⟨hstep.1.trans hd, fun x hx => ?_⟩
    rcases List.mem_cons.mp hx with rfl | hx
    · exact hstep.2.trans hd
    · exact hall x hx

omit [NeZero n] in
theorem level_le_maxDepth (t : DomTree n) (x : Fin n) : t.level x ≤ maxDepth t :=
  (le_foldl_depth t _ 0).2 x (List.mem_finRange x)

/-- The blocks of one level. -/
theorem loopsLevel_spec (ht : TreeOk cfg t) (hs : Spanning cfg tree disc) (hw : cfg.WellFormed)
    (hf : n ≤ fuel) {depth : ℤ} (hd : 0 ≤ depth)
    (h : LoopsOk cfg tree (fun x => depth < t.level x) s) :
    ∃ s', (List.finRange n).foldlM (loopsAt cfg t tree fuel depth) s = some s' ∧
      LoopsOk cfg tree (fun x => depth ≤ t.level x) s' := by
  have hrun := foldlM_inv (f := loopsAt cfg t tree fuel depth) (l := List.finRange n) (s := s)
    (fun done s => LoopsOk cfg tree (Before t depth done) s) ?_
    (h.congr fun x => by simp [Before])
  · obtain ⟨s', hrun, h'⟩ := hrun
    refine ⟨s', hrun, h'.congr fun x => ?_⟩
    simp only [Before, List.mem_finRange, and_true]
    omega
  · intro done i rest s hl h
    have hnodup : (done ++ i :: rest).Nodup := hl ▸ List.nodup_finRange n
    have hnot : i ∉ done := fun hin =>
      (List.nodup_append.mp hnodup).2.2 i hin i List.mem_cons_self rfl
    by_cases hlev : t.level i = depth
    · have hi : cfg.reachable i = true := by
        by_contra hn
        have := ht.unreached i (by simpa using hn)
        omega
      subst hlev
      obtain ⟨s', hrun, h'⟩ := loopsAt_spec ht hs hw hf hi h
        (fun hb => hb.elim (lt_irrefl _) fun hb => hnot hb.2) fun g _ hg => .inl hg
      refine ⟨s', hrun, h'.congr fun x => ?_⟩
      simp only [Before, List.mem_append, List.mem_singleton]
      constructor
      · rintro ((hx | ⟨hx, hin⟩) | rfl)
        · exact .inl hx
        · exact .inr ⟨hx, .inl hin⟩
        · exact .inr ⟨rfl, .inr rfl⟩
      · rintro (hx | ⟨hx, hin | rfl⟩)
        · exact .inl (.inl hx)
        · exact .inl (.inr ⟨hx, hin⟩)
        · exact .inr rfl
    · refine ⟨s, by rw [loopsAt, if_pos hlev], h.congr fun x => ?_⟩
      simp only [Before, List.mem_append, List.mem_singleton]
      constructor
      · exact Or.imp_right fun hx => ⟨hx.1, .inl hx.2⟩
      · rintro (hx | ⟨hx, hin | rfl⟩)
        · exact .inl hx
        · exact .inr ⟨hx, hin⟩
        · exact absurd hx hlev

/-- The levels from `depth` up to the root. -/
theorem loopsFrom_spec (ht : TreeOk cfg t) (hs : Spanning cfg tree disc) (hw : cfg.WellFormed)
    (hf : n ≤ fuel) (depth : ℕ)
    (h : LoopsOk cfg tree (fun x => (depth : ℤ) < t.level x) s) :
    ∃ s', loopsFrom cfg t tree fuel depth s = some s' ∧
      LoopsOk cfg tree (fun x => 0 ≤ t.level x) s' := by
  induction depth generalizing s with
  | zero =>
    obtain ⟨s', hrun, h'⟩ := loopsLevel_spec ht hs hw hf (Int.natCast_nonneg 0) h
    refine ⟨s', ?_, h'⟩
    unfold loopsFrom
    rw [hrun, Option.bind_some]
  | succ depth ih =>
    obtain ⟨s1, hrun, h1⟩ := loopsLevel_spec ht hs hw hf (Int.natCast_nonneg (depth + 1)) h
    obtain ⟨s', hrun', h'⟩ := ih (s := s1) (h1.congr fun x => by
      omega)
    refine ⟨s', ?_, h'⟩
    unfold loopsFrom
    rw [hrun]
    exact hrun'

end

/-!
# What the dominators and loops of a graph are found to be

The loop headers are right in a reducible graph just when each block can reach a back edge of its
innermost loop outside of the loops inside it.
-/

variable {n : ℕ} [NeZero n] {cfg : Cfg n}

/-! ## The results -/

/-- The fields `idom`, `level` and the children lists are those of the dominator tree. -/
structure DominatorsRight (cfg : Cfg n) (t : DomTree n) : Prop where
  idom : ∀ x, cfg.FromEntry x → x ≠ 0 → ∃ d, t.idom x = some d ∧ IDom cfg.Edge 0 d x
  level : ∀ x, cfg.FromEntry x → ∃ k : ℕ, Forest.Depth t.idom x (k + 1) ∧ t.level x = k
  children : ∀ d, ∃ l, Siblings t.nextChild (t.children d) l ∧ l.Pairwise (· < ·) ∧
    ∀ j, j ∈ l ↔ IDom cfg.Edge 0 d j

/-- `loop_header` of `x` is the header of the innermost natural loop that contains `x`
and has another header, or -1 without such a loop. -/
def HeaderRight (cfg : Cfg n) (x : Fin n) : Option (Fin n) → Prop
  | some h => Innermost cfg.Edge 0 x h
  | none => ∀ h, h ≠ x → ¬ InLoop cfg.Edge 0 h x

/-- The flags and the loop headers of the blocks reachable from the entry. -/
structure LoopsRight (cfg : Cfg n) (r : Loops n) : Prop where
  header : ∀ x, cfg.FromEntry x →
    (r.isHeader x = true ↔ ∃ p ∈ cfg.predecessors x, Dom cfg.Edge 0 x p)
  irreducible : r.irreducible = true ↔
    ∃ c, Cycle cfg.Edge 0 c ∧ ¬ ∃ h ∈ c, ∀ x ∈ c, Dom cfg.Edge 0 h x
  loopHeader : Reducible cfg.Edge 0 → ∀ x, cfg.FromEntry x → HeaderRight cfg x (r.loopHeader x)

theorem TreeOk.right {t : DomTree n} (h : TreeOk cfg t) (hw : cfg.WellFormed) :
    DominatorsRight cfg t := by
  refine ⟨fun x hx h0 => ?_, fun x hx => h.level x (Cfg.FromEntry.reachable hw hx), fun d => ?_⟩
  · obtain ⟨d, hd⟩ := h.links.linked x hx h0
    exact ⟨d, hd, (h.links.link_iff x d).mp hd⟩
  · refine ⟨_, h.children d, laterBlocks_sorted.filter _, fun j => ?_⟩
    rw [← h.siblings_eq, h.mem_siblings, h.links.link_iff]

/-- `zend_cfg_identify_loops` comes to an end, with all blocks visited as headers. -/
theorem identifyLoops_ok {t : DomTree n} (h : TreeOk cfg t) (hw : cfg.WellFormed)
    (hf : 2 * n < fuel) : ∃ r tree disc, identifyLoops cfg t fuel = some r ∧
      Spanning cfg tree disc ∧ LoopsOk cfg tree (fun x => 0 ≤ t.level x) r := by
  obtain ⟨s, disc, hrun, hs⟩ := search_spanning h hw hf.le
  have hinit : LoopsOk cfg s.tree (fun x => ((maxDepth t).toNat : ℤ) < t.level x)
      { isHeader := fun _ => false, isIrreducible := fun _ => false, loopHeader := fun _ => none,
        noLoops := true, irreducible := false } := by
    have hnone : ∀ x, ¬ ((maxDepth t).toNat : ℤ) < t.level x := by
      intro x
      have := level_le_maxDepth t x
      omega
    refine ⟨fun x _ => ⟨?_, fun hx => absurd hx.1 (hnone x)⟩, ⟨?_, ?_⟩, ?_, ?_, ?_⟩
    · simp
    · simp
    · rintro ⟨p, i, hi, -⟩
      exact absurd hi (hnone i)
    · simp
    · simp
    · exact fun _ x g hg => absurd hg (hnone g)
  obtain ⟨r, hrun', hr⟩ := loopsFrom_spec h hs hw (show n ≤ fuel by omega) _ hinit
  refine ⟨r, s.tree, disc, ?_, hs, hr⟩
  rw [identifyLoops, hrun]
  exact hrun'

section

variable {t : DomTree n} {tree : Links n} {disc : Fin n → ℕ} {r : Loops n}

theorem LoopsOk.header_iff (h : LoopsOk cfg tree (fun x => 0 ≤ t.level x) r) (ht : TreeOk cfg t)
    (hw : cfg.WellFormed) {x : Fin n} (hx : cfg.FromEntry x) :
    r.isHeader x = true ↔ ∃ p ∈ cfg.predecessors x, Dom cfg.Edge 0 x p := by
  rw [h.header x hx, and_iff_right (ht.level_nonneg (Cfg.FromEntry.reachable hw hx))]
  exact exists_congr fun p => and_congr_left fun _ => Cfg.mem_predecessors.symm

theorem LoopsOk.irreducible_iff (h : LoopsOk cfg tree (fun x => 0 ≤ t.level x) r)
    (ht : TreeOk cfg t) (hw : cfg.WellFormed) (hs : Spanning cfg tree disc) :
    r.irreducible = true ↔ ∃ c, Cycle cfg.Edge 0 c ∧ ¬ ∃ h ∈ c, ∀ x ∈ c, Dom cfg.Edge 0 h x := by
  have hred : (∃ c, Cycle cfg.Edge 0 c ∧ ¬ ∃ h ∈ c, ∀ x ∈ c, Dom cfg.Edge 0 h x) ↔
      ¬ Reducible cfg.Edge 0 := by
    simp [Reducible]
  rw [hred, hs.reducible_iff, h.irreducible]
  simp only [not_forall, not_not]
  refine exists_congr fun p => exists_congr fun i => and_iff_right_of_imp fun hb => ?_
  exact ht.level_nonneg (Cfg.FromEntry.reachable hw hb.1)

/-- Direct latches make the loop headers right. -/
theorem LoopsOk.headerRight (h : LoopsOk cfg tree (fun x => 0 ≤ t.level x) r) (ht : TreeOk cfg t)
    (hw : cfg.WellFormed) (hdir : DirectLatches cfg) {x : Fin n} (hx : cfg.FromEntry x) :
    HeaderRight cfg x (r.loopHeader x) := by
  cases hr : r.loopHeader x with
  | some g => exact h.sound hdir x g hx hr
  | none =>
    intro g hne hg
    obtain ⟨m, hm⟩ := exists_innermost hne hg
    have hm0 := ht.level_nonneg (Cfg.FromEntry.reachable hw hm.2.1.dom.reach_left)
    exact absurd (hr.symm.trans (h.complete hdir x m hm0 hm)) (by simp)

/-- Right loop headers come from direct latches, by the paths on which they were set. -/
theorem LoopsOk.directLatches (h : LoopsOk cfg tree (fun x => 0 ≤ t.level x) r)
    (hright : ∀ x, cfg.FromEntry x → HeaderRight cfg x (r.loopHeader x)) : DirectLatches cfg := by
  intro x g hx
  have hset : ∀ y, Innermost cfg.Edge 0 y g → r.loopHeader y = some g := by
    intro y hy
    have hr := hright y hy.2.1.1
    cases hl : r.loopHeader y with
    | some m =>
      rw [hl] at hr
      rw [Innermost.unique hr hy]
    | none =>
      rw [hl] at hr
      exact absurd hy.2.1 (hr g hy.1)
  obtain ⟨-, -, l, hl, hp⟩ := h.walk x g hx.2.1.1 (hset x hx)
  refine ⟨l, hl, ?_⟩
  have hreach : cfg.FromEntry x := hx.2.1.1
  clear hx
  induction hp using Relation.ReflTransGen.head_induction_on with
  | refl => exact .refl
  | @head a b hab _ ih =>
    have hb : cfg.FromEntry b := hreach.tail hab.1
    have hr := hright b hb
    rw [hab.2] at hr
    exact (ih hb).head ⟨hab.1, hr⟩

end

/-- **Dominators and loops**: both functions come to an end, and everything they find is
right just when the graph is irreducible or has direct latches. -/
theorem identifyLoops_right_iff (hw : cfg.WellFormed) {fuel : ℕ} (hf : 2 * n < fuel) :
    ∃ t r, computeDominatorsTree cfg fuel = some t ∧ identifyLoops cfg t fuel = some r ∧
      ((DominatorsRight cfg t ∧ LoopsRight cfg r) ↔
        (Reducible cfg.Edge 0 → DirectLatches cfg)) := by
  obtain ⟨t, ht, hok⟩ := computeDominatorsTree_ok hw hf
  obtain ⟨r, tree, disc, hr, hs, hl⟩ := identifyLoops_ok hok hw hf
  refine ⟨t, r, ht, hr, ?_, fun hdir => ⟨hok.right hw, ?_, ?_, ?_⟩⟩
  · exact fun h hred => hl.directLatches fun x hx => h.2.loopHeader hred x hx
  · exact fun x hx => hl.header_iff hok hw hx
  · exact hl.irreducible_iff hok hw hs
  · exact fun hred x hx => hl.headerRight hok hw (hdir hred) hx

/-! ## A loop whose only way to its back edge is an inner loop -/

/-- The graph of `for (;;) { f(); do { if (p()) q(); } while (h()); }`. -/
def nestedLoops : Cfg 5 where
  reachable _ := true
  succ0
    | 0 => some 1
    | 1 => some 3
    | 2 => some 3
    | 3 => some 1
    | 4 => some 0
  succ1
    | 1 => some 2
    | 3 => some 4
    | _ => none

theorem nestedLoops_wellFormed : nestedLoops.WellFormed := ⟨rfl, fun _ _ _ _ => rfl, by decide⟩

theorem identifyLoops_right_iff_nestedLoops : nestedLoops.WellFormed ∧ 2 * 5 < 11 ∧
    ∃ t r, computeDominatorsTree nestedLoops 11 = some t ∧ identifyLoops nestedLoops t 11 = some r ∧
      ((DominatorsRight nestedLoops t ∧ LoopsRight nestedLoops r) ↔
        (Reducible nestedLoops.Edge 0 → DirectLatches nestedLoops)) :=
  ⟨nestedLoops_wellFormed, by decide, identifyLoops_right_iff nestedLoops_wellFormed (by decide)⟩

theorem nestedLoops_inLoop : InLoop nestedLoops.Edge 0 0 1 := by
  have h01 : nestedLoops.Edge 0 1 := ⟨rfl, by decide⟩
  have h13 : nestedLoops.Edge 1 3 := ⟨rfl, by decide⟩
  have h34 : nestedLoops.Edge 3 4 := ⟨rfl, by decide⟩
  have h40 : nestedLoops.Edge 4 0 := ⟨rfl, by decide⟩
  have hreach : nestedLoops.FromEntry 4 := ((Relation.ReflTransGen.single h01).tail h13).tail h34
  refine ⟨.single h01, .inr ⟨by decide, 4, ⟨h40, .entry hreach⟩, ?_⟩⟩
  exact .tail (.single ⟨h13, by decide⟩) ⟨h34, by decide⟩

/-- The inner header is left without the outer one, though the graph is reducible. -/
theorem identifyLoops_misses_outer : nestedLoops.WellFormed ∧
    ∃ t r, computeDominatorsTree nestedLoops 11 = some t ∧
      identifyLoops nestedLoops t 11 = some r ∧ Reducible nestedLoops.Edge 0 ∧
      InLoop nestedLoops.Edge 0 0 1 ∧ r.loopHeader 1 = none ∧
      ¬ (DominatorsRight nestedLoops t ∧ LoopsRight nestedLoops r) := by
  obtain ⟨t, ht, hok⟩ := computeDominatorsTree_ok nestedLoops_wellFormed
    (show 2 * 5 < 11 by decide)
  obtain ⟨r, tree, disc, hr, hs, hl⟩ := identifyLoops_ok hok nestedLoops_wellFormed
    (show 2 * 5 < 11 by decide)
  have hrun : ((computeDominatorsTree nestedLoops 11).bind fun t =>
      (identifyLoops nestedLoops t 11).map fun r => (r.loopHeader 1, r.irreducible))
        = some (none, false) := by
    decide +kernel
  rw [ht, Option.bind_some, hr, Option.map_some, Option.some.injEq, Prod.mk.injEq] at hrun
  have hred : Reducible nestedLoops.Edge 0 := by
    intro c hc
    by_contra hno
    have := (hl.irreducible_iff hok nestedLoops_wellFormed hs).mpr ⟨c, hc, hno⟩
    exact absurd (hrun.2.symm.trans this) (by simp)
  refine ⟨nestedLoops_wellFormed, t, r, ht, hr, hred, nestedLoops_inLoop, hrun.1, fun h => ?_⟩
  have hright := h.2.loopHeader hred 1 nestedLoops_inLoop.1
  rw [hrun.1] at hright
  exact hright 0 (by decide) nestedLoops_inLoop

end ZendCfg
