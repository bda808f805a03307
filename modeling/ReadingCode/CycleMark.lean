/-
# Taking back the references between nodes

After `gc_mark_roots` the grey nodes are those below the purple roots, and a refcount
says how often a node is held from outside of the grey nodes.
-/
import Mathlib.Algebra.Order.BigOperators.Group.Finset
import ReadingCode.CycleCollector

namespace ZendGc

open Finset

open Marking

variable {α : Type*} [DecidableEq α] (G : Graph α)

/-! ## Reachability and the state before a run -/

namespace Graph

/-- `a` holds a reference to `b`. -/
def Edge (a b : α) : Prop := b ∈ (G.node a).refs

/-- `b` is reachable from `a`. -/
def Reach : α → α → Prop := Relation.ReflTransGen G.Edge

/-- How often the nodes of `s` hold a reference to `v`. -/
def refsFrom (s : Finset α) (v : α) : ℕ := ∑ w ∈ s, (G.node w).refs.count v

end Graph

/-- A node that `gc_possible_root` records. -/
def Node.collectable : Node α → Bool
  | .array _ => true
  | .object _ => true
  | _ => false

variable [Fintype α]

/-- The state in which a run starts: refcounts are the references between nodes and
the external ones (the symbol table has one), possible roots are arrays and objects,
purple or black and with the address of their entry, and no other node has an entry. -/
structure Ready (ext : α → ℕ) (g : Gc α) : Prop where
  live : G.Live
  symbolTable : ∀ v, G.isSymbolTable v = true → 0 < ext v
  refcount : ∀ v, (g.refcount v).toNat = ext v + G.refsFrom univ v
  nodup : (g.roots.map Root.ref).Nodup
  kind : ∀ v ∈ g.roots.map Root.ref, (G.node v).collectable = true
  color : ∀ v, g.color v = .black ∨ (g.color v = .purple ∧ v ∈ g.roots.map Root.ref)
  address : ∀ v, g.address v ≠ 0 ↔ v ∈ g.roots.map Root.ref
  toFree : g.toFree = []

/-- The black nodes. -/
def Gc.blacks (g : Gc α) : Finset α := univ.filter fun w => g.color w = .black

/-- Refcounts are the external references and those from black nodes. -/
def Counted (ext : α → ℕ) (g : Gc α) : Prop :=
  ∀ v, g.refcount v = UInt32.ofNat (ext v + G.refsFrom g.blacks v)

/-- Everything but colors and refcounts is as before. -/
structure Gc.SameLists (g g' : Gc α) : Prop where
  address : ∀ v, g'.address v = g.address v
  roots : g'.roots = g.roots
  toFree : g'.toFree = g.toFree

omit [DecidableEq α] [Fintype α] in
theorem Gc.SameLists.refl (g : Gc α) : g.SameLists g := ⟨fun _ => rfl, rfl, rfl⟩

omit [DecidableEq α] [Fintype α] in
theorem Gc.SameLists.trans {g g' g'' : Gc α} (h : g.SameLists g') (h' : g'.SameLists g'') :
    g.SameLists g'' :=
  ⟨fun v => (h'.address v).trans (h.address v), h'.roots.trans h.roots,
    h'.toFree.trans h.toFree⟩

/-! ## Counting references over the nodes a walk entered -/

omit [Fintype α] in
/-- The references from a list of distinct nodes. -/
theorem count_flatMap_refs {l : List α} (hl : l.Nodup) (v : α) :
    (l.flatMap fun w => (G.node w).refs).count v = G.refsFrom l.toFinset v := by
  rw [List.count_flatMap, Graph.refsFrom, List.sum_toFinset _ hl]
  rfl

/-- References from two parts of the nodes. -/
theorem refsFrom_add (s : Finset α) (v : α) :
    G.refsFrom s v + G.refsFrom sᶜ v = G.refsFrom univ v :=
  sum_add_sum_compl s _

omit [Fintype α] in
theorem refsFrom_mono {s t : Finset α} (h : s ⊆ t) (v : α) : G.refsFrom s v ≤ G.refsFrom t v :=
  sum_le_sum_of_subset h

omit [Fintype α] in
/-- The symbol table is not followed. -/
theorem flatMap_succ (l : List α) :
    l.flatMap G.succ = (l.filter fun v => !G.isSymbolTable v).flatMap fun w => (G.node w).refs := by
  induction l with
  | nil => rfl
  | cons v l ih =>
    rw [List.flatMap_cons, ih, List.filter_cons]
    by_cases hs : G.isSymbolTable v = true
    · simp [Graph.succ, hs]
    · simp [Graph.succ, hs]

omit [Fintype α] in
/-- A node held from a set has a predecessor there. -/
theorem refsFrom_pos {s : Finset α} {v : α} : 0 < G.refsFrom s v ↔ ∃ w ∈ s, G.Edge w v := by
  rw [Graph.refsFrom, sum_pos_iff]
  simp only [List.count_pos_iff]
  rfl

/-! ## The walk of `gc_mark_grey` -/

section Grey

variable {G} (g : Gc α) (ops : List (Op α))

omit [Fintype α] in
/-- Entered nodes are grey, the symbol table black. -/
theorem color_replay_grey (w : α) : ((greyScheme G).replay g ops).color w =
      if w ∈ entered ops then (if G.isSymbolTable w then .black else .grey) else g.color w := by
  have hother : ∀ (s : Gc α) v, v ≠ w → ((greyScheme G).enter s v).color w = s.color w := by
    intro s v hv
    change (if _ then _ else _ : Gc α).color w = _
    split
    · rw [Gc.color_setColor, Gc.color_setColor, if_neg hv.symm, if_neg hv.symm]
    · rw [Gc.color_setColor, if_neg hv.symm]
  by_cases hw : w ∈ entered ops
  · rw [if_pos hw]
    apply (greyScheme G).replay_settled (fun s => s.color w) _ w ops hw _ hother
    · exact fun s v => s.color_decRef v w
    · intro s
      change (if _ then _ else _ : Gc α).color w = _
      by_cases hs : G.isSymbolTable w = true
      · rw [if_pos hs, if_pos hs, Gc.color_setColor, if_pos rfl]
      · rw [if_neg hs, if_neg hs, Gc.color_setColor, if_pos rfl]
  · rw [if_neg hw]
    apply (greyScheme G).replay_frame (fun s => s.color w) ops
    · intro s v hv
      apply hother
      rintro rfl
      exact hw hv
    · exact fun s v => s.color_decRef v w

omit [Fintype α] in
/-- Every edge touched takes one off. -/
theorem refcount_replay_grey (u : α) : ((greyScheme G).replay g ops).refcount u
      = g.refcount u - UInt32.ofNat ((touched ops).count u) := by
  induction ops generalizing g with
  | nil => simp [touched]
  | cons op ops ih =>
    cases op with
    | enter v =>
      have : ((greyScheme G).enter g v).refcount u = g.refcount u := by
        change (if _ then _ else _ : Gc α).refcount u = _
        split
        · simp
        · simp
      rw [Scheme.replay_enter, ih, this, touched]
    | touch v =>
      rw [Scheme.replay_touch, ih, touched, List.count_cons]
      change (g.decRef v).refcount u - _ = _
      rw [Gc.refcount_decRef]
      by_cases hu : u = v
      · subst hu
        simp only [if_true, beq_self_eq_true, UInt32.ofNat_add]
        grind
      · have : (v == u) = false := by simpa using fun h => hu h.symm
        simp [hu, this]

omit [Fintype α] in
theorem sameLists_replay_grey : g.SameLists ((greyScheme G).replay g ops) := by
  have hroots : ∀ (s : Gc α) v, ((greyScheme G).enter s v).roots = s.roots := by
    intro s v
    change (if _ then _ else _ : Gc α).roots = _
    split <;> rfl
  have hfree : ∀ (s : Gc α) v, ((greyScheme G).enter s v).toFree = s.toFree := by
    intro s v
    change (if _ then _ else _ : Gc α).toFree = _
    split <;> rfl
  have haddress : ∀ (s : Gc α) v w, ((greyScheme G).enter s v).address w = s.address w := by
    intro s v w
    change (if _ then _ else _ : Gc α).address w = _
    split
    · simp
    · simp
  refine ⟨fun w => ?_, ?_, ?_⟩
  · exact (greyScheme G).replay_frame (fun s => s.address w) ops
      (fun s v _ => haddress s v w) (fun s v => s.address_decRef v w) g
  · exact (greyScheme G).replay_frame Gc.roots ops (fun s v _ => hroots s v) (fun _ _ => rfl) g
  · exact (greyScheme G).replay_frame Gc.toFree ops (fun s v _ => hfree s v) (fun _ _ => rfl) g

end Grey

/-! ## The mark phase -/

/-- The state after `gc_mark_roots`, run from `g0`. -/
structure Greyed (ext : α → ℕ) (g0 g : Gc α) : Prop where
  color : ∀ v, g.color v = .grey ∨ g.color v = .black
  symbolTable : ∀ v, G.isSymbolTable v = true → g.color v = .black
  start : ∀ p, g0.color p = .purple → g.color p = .grey ∨ G.isSymbolTable p = true
  closed : ∀ v c, g.color v = .grey → G.Edge v c → g.color c = .grey ∨ G.isSymbolTable c = true
  reach : ∀ v, g.color v = .grey → ∃ p, g0.color p = .purple ∧
    Relation.ReflTransGen (fun a b => g.color a = .grey ∧ G.Edge a b) p v
  counted : Counted G ext g
  same : g0.SameLists g

variable {G} {ext : α → ℕ}

/-- `gc_mark_roots` returns, and takes back exactly the references from grey nodes. -/
theorem gcMarkRoots_greyed {g0 : Gc α} (h : Ready G ext g0) {depth : ℕ}
    (hd : Fintype.card α < depth) : ∃ g, gcMarkRoots G depth g0 = some g ∧ Greyed G ext g0 g := by
  set S := greyScheme G with hS
  -- a node whose color changed is done
  have hstep : ∀ (t : Gc α) (r : Root α),
      (∀ v, t.color v = g0.color v ∨ S.marked t v) → ∃ t' ops,
        (if t.color r.ref = .purple then gcMarkGrey G depth t r.ref else some t) = some t' ∧
        t' = S.replay t ops ∧
        S.Walk t (if g0.color r.ref = .purple then [r.ref] else []) [] ops := by
    intro t r ht
    by_cases hp : t.color r.ref = .purple
    · have h0 : g0.color r.ref = .purple := by
        rcases ht r.ref with h | h | ⟨-, h⟩
        · rw [← h, hp]
        · simp [hp] at h
        · simp [hp] at h
      rw [if_pos hp, if_pos h0]
      exact gcMarkGrey_walk h.live depth t r.ref (lt_of_le_of_lt (S.room_le_card t) hd)
    · rw [if_neg hp]
      refine ⟨t, [], rfl, rfl, ?_⟩
      by_cases h0 : g0.color r.ref = .purple
      · rw [if_pos h0]
        apply Scheme.Walk.marked
        rcases ht r.ref with h | h
        · exact absurd (h.trans h0) hp
        · exact h
      · rw [if_neg h0]
        exact .nil t
  obtain ⟨g, ops, hrun, hg, hw⟩ := S.foldlM_walk id
    (fun (t : Gc α) (r : Root α) =>
      if t.color r.ref = .purple then gcMarkGrey G depth t r.ref else some t)
    (fun t => ∀ v, t.color v = g0.color v ∨ S.marked t v)
    (fun s ops hs v => by
      rw [S.marked_replay]
      by_cases hv : v ∈ entered ops
      · exact .inr (.inr hv)
      · rw [color_replay_grey, if_neg hv]
        exact (hs v).imp_right .inl)
    (fun r => if g0.color r.ref = .purple then [r.ref] else [])
    hstep g0.roots g0 (fun _ => .inl rfl)
  simp only [id] at hg hw
  refine ⟨g, hrun, ?_⟩
  have hcolor : ∀ v, g.color v =
      if v ∈ entered ops then (if G.isSymbolTable v then .black else .grey) else g0.color v := by
    intro v
    rw [hg, color_replay_grey]
  have hstarts : ∀ p, g0.color p = .purple → p ∈ entered ops := by
    intro p hp
    have hroot : p ∈ g0.roots.map Root.ref := by
      rcases h.color p with hb | ⟨-, hr⟩
      · simp [hp] at hb
      · exact hr
    obtain ⟨r, hr, rfl⟩ := List.mem_map.mp hroot
    have hdone := hw.done r.ref (List.mem_flatMap.mpr ⟨r, hr, by simp [hp]⟩)
    rw [S.marked_replay] at hdone
    rcases hdone with (hm | ⟨-, hm⟩) | hin
    · simp [hp] at hm
    · simp [hp] at hm
    · exact hin
  have hgrey : ∀ v, g.color v = .grey ↔ v ∈ entered ops ∧ G.isSymbolTable v = false := by
    intro v
    rw [hcolor]
    by_cases hv : v ∈ entered ops
    · by_cases hs : G.isSymbolTable v = true
      · simp [hv, hs]
      · simp [hv, hs]
    · have : g0.color v ≠ .grey := by
        rcases h.color v with hb | ⟨hb, -⟩
        · simp [hb]
        · simp [hb]
      simp [hv, this]
  have hblack : ∀ v, g.color v = .grey ∨ g.color v = .black := by
    intro v
    rw [hcolor]
    by_cases hv : v ∈ entered ops
    · by_cases hs : G.isSymbolTable v = true
      · simp [hv, hs]
      · simp [hv, hs]
    · rw [if_neg hv]
      rcases h.color v with hb | ⟨hp, -⟩
      · exact .inr hb
      · exact absurd (hstarts v hp) hv
  have hgreys : (entered ops |>.filter fun v => !G.isSymbolTable v).toFinset = g.blacksᶜ := by
    ext v
    simp only [List.mem_toFinset, List.mem_filter, mem_compl, Gc.blacks,
      mem_filter, mem_univ, true_and, Bool.not_eq_true']
    rw [← hgrey]
    rcases hblack v with hv | hv
    · simp [hv]
    · simp [hv]
  refine ⟨hblack, ?_, ?_, ?_, ?_, ?_, ?_⟩
  · intro v hs
    rcases hblack v with hv | hv
    · rw [hgrey, hs] at hv
      exact absurd hv.2 (by decide)
    · exact hv
  · intro p hp
    rw [hgrey]
    by_cases hs : G.isSymbolTable p = true
    · exact .inr hs
    · exact .inl ⟨hstarts p hp, by simpa using hs⟩
  · intro v c hv hvc
    rw [hgrey] at hv
    have hc : c ∈ S.succ v := by
      change c ∈ G.succ v
      rw [Graph.succ, hv.2]
      exact hvc
    have := hw.closed v hv.1 c hc
    rw [← hg] at this
    rcases this with hm | ⟨hs, -⟩
    · exact .inl hm
    · exact .inr hs
  · intro v hv
    obtain ⟨p, hp, hreach⟩ := hw.reach v ((hgrey v).mp hv).1
    obtain ⟨r, -, hr⟩ := List.mem_flatMap.mp hp
    have hpurple : g0.color p = .purple := by
      by_cases h0 : g0.color r.ref = .purple
      · rw [if_pos h0, List.mem_singleton] at hr
        rw [hr, h0]
      · simp [h0] at hr
    refine ⟨p, hpurple, ?_⟩
    have hmarked : S.marked g p := by
      rw [hg, S.marked_replay]
      exact .inr (hstarts p hpurple)
    -- a node with a successor is not the symbol table, hence grey
    have hpath : ∀ u, Relation.ReflTransGen S.Edge p u →
        S.marked g u ∧ Relation.ReflTransGen (fun a b => g.color a = .grey ∧ G.Edge a b) p u := by
      intro u hu
      induction hu with
      | refl => exact ⟨hmarked, .refl⟩
      | @tail a b _ hab ih =>
        have hab' : b ∈ G.succ a := hab
        have hs : G.isSymbolTable a = false := by
          by_contra hs
          simp [Graph.succ, hs] at hab'
        have ha : g.color a = .grey := by
          rcases ih.1 with ha | ⟨ha, -⟩
          · exact ha
          · simp [hs] at ha
        rw [Graph.succ, hs] at hab'
        refine ⟨?_, ih.2.tail ⟨ha, hab'⟩⟩
        rw [hg]
        exact hw.closed a ((hgrey a).mp ha).1 b hab
    exact (hpath v hreach).2
  · intro v
    have hcount : (touched ops).count v = G.refsFrom g.blacksᶜ v := by
      rw [hw.edges.count_eq]
      change ((entered ops).flatMap G.succ).count v = _
      rw [flatMap_succ, count_flatMap_refs G (hw.nodup.filter _), hgreys]
    have h0 : g0.refcount v
        = UInt32.ofNat (ext v + (G.refsFrom g.blacks v + G.refsFrom g.blacksᶜ v)) := by
      rw [refsFrom_add, ← h.refcount, UInt32.ofNat_toNat]
    rw [hg, refcount_replay_grey, h0]
    simp only [UInt32.ofNat_add]
    grind
  · rw [hg]
    exact sameLists_replay_grey g0 ops

end ZendGc

/-!
# Giving back the references below held nodes

`gc_scan` turns a grey node white when nothing but grey nodes holds it, and hands a
grey node with a refcount left to `gc_scan_black`.  A white node may still be found
from a held node later on and turn black; what never changes is that a refcount is
the external references and those from black nodes, and that no black node refers to
a white one.
-/

namespace ZendGc

open Finset

open Marking

variable {α : Type*} [DecidableEq α] [Fintype α] {G : Graph α} {ext : α → ℕ}

/-! ## The walk of `gc_scan_black` -/

section Black

variable (g : Gc α) (ops : List (Op α))

omit [Fintype α] in
theorem color_replay_black (w : α) :
    ((blackScheme G).replay g ops).color w = if w ∈ entered ops then .black else g.color w := by
  by_cases hw : w ∈ entered ops
  · rw [if_pos hw]
    have := ((blackScheme G).marked_replay g ops w).mpr (.inr hw)
    exact this
  · rw [if_neg hw]
    apply (blackScheme G).replay_frame (fun s => s.color w) ops
    · intro s v hv
      change (s.setColor v .black).color w = _
      rw [Gc.color_setColor, if_neg]
      rintro rfl
      exact hw hv
    · exact fun s v => s.color_incRef v w

omit [Fintype α] in
/-- A walk that leaves the refcount alone at a node and counts up across an edge. -/
theorem refcount_replay_incRef (S : Scheme α (Gc α)) (ht : S.touch = Gc.incRef)
    (he : ∀ s v u, (S.enter s v).refcount u = s.refcount u) (u : α) :
    (S.replay g ops).refcount u = g.refcount u + UInt32.ofNat ((touched ops).count u) := by
  induction ops generalizing g with
  | nil => simp [touched]
  | cons op ops ih =>
    cases op with
    | enter v => rw [Scheme.replay_enter, ih, he, touched]
    | touch v =>
      rw [Scheme.replay_touch, ih, touched, List.count_cons, ht, Gc.refcount_incRef]
      by_cases hu : u = v
      · subst hu
        simp only [if_true, beq_self_eq_true, UInt32.ofNat_add]
        grind
      · have : (v == u) = false := by simpa using fun h => hu h.symm
        simp [hu, this]

omit [Fintype α] in
theorem sameLists_replay_black : g.SameLists ((blackScheme G).replay g ops) := by
  refine ⟨fun w => ?_, ?_, ?_⟩
  · exact (blackScheme G).replay_frame (fun s => s.address w) ops
      (fun s v _ => s.address_setColor v w .black) (fun s v => s.address_incRef v w) g
  · exact (blackScheme G).replay_frame Gc.roots ops (fun _ _ _ => rfl) (fun _ _ => rfl) g
  · exact (blackScheme G).replay_frame Gc.toFree ops (fun _ _ _ => rfl) (fun _ _ => rfl) g

end Black

/-! ## The invariant of the scan -/

/-- The refcounts a graph can have fit their field. -/
def Fits (G : Graph α) (ext : α → ℕ) : Prop :=
  ∀ v, ext v + G.refsFrom univ v < 2 ^ 32

/-- A state of the scan, begun in `g1`. -/
structure Scanning (G : Graph α) (ext : α → ℕ) (g1 g : Gc α) : Prop where
  counted : Counted G ext g
  white : ∀ v, g.color v = .white → ext v + G.refsFrom g.blacks v = 0
  kept : ∀ v, g.color v = .black → ∃ w, (0 < ext w ∨ g1.color w = .black) ∧ G.Reach w v
  notPurple : ∀ v, g.color v ≠ .purple
  symbolTable : ∀ v, G.isSymbolTable v = true → g.color v = .black
  same : g1.SameLists g

/-- What a finished part of the scan has done: grey nodes left were grey before, black
nodes stay, no reference of a new white node is grey, those of a new black one black. -/
structure Progress (G : Graph α) (g g' : Gc α) : Prop where
  grey : ∀ v, g'.color v = .grey → g.color v = .grey
  black : ∀ v, g.color v = .black → g'.color v = .black
  newWhite : ∀ v c, g'.color v = .white → g.color v ≠ .white → G.Edge v c →
    g'.color c ≠ .grey
  newBlack : ∀ v c, g'.color v = .black → g.color v ≠ .black → G.Edge v c →
    g'.color c = .black

namespace Progress

variable {g g' g'' : Gc α}

omit [DecidableEq α] [Fintype α] in
theorem refl (g : Gc α) : Progress G g g :=
  ⟨fun _ h => h, fun _ h => h, fun _ _ h h' => absurd h h', fun _ _ h h' => absurd h h'⟩

omit [DecidableEq α] [Fintype α] in
theorem trans (h : Progress G g g') (h' : Progress G g' g'') : Progress G g g'' := by
  refine ⟨fun v hv => h.grey v (h'.grey v hv), fun v hv => h'.black v (h.black v hv), ?_, ?_⟩
  · intro v c hv hn hvc
    by_cases hm : g'.color v = .white
    · exact fun hc => h.newWhite v c hm hn hvc (h'.grey c hc)
    · exact h'.newWhite v c hv hm hvc
  · intro v c hv hn hvc
    by_cases hm : g'.color v = .black
    · exact h'.black c (h.newBlack v c hm hn hvc)
    · exact h'.newBlack v c hv hm hvc

omit [Fintype α] in
/-- A node turned white, and then its references taken care of. -/
theorem ofWhite {v : α} (hv : g.color v = .grey) (h : Progress G (g.setColor v .white) g')
    (hc : ∀ c ∈ (G.node v).refs, g'.color c ≠ .grey) : Progress G g g' := by
  refine ⟨?_, ?_, ?_, ?_⟩
  · intro u hu
    have := h.grey u hu
    rw [Gc.color_setColor] at this
    by_cases huv : u = v
    · rw [huv, hv]
    · simpa [huv] using this
  · intro u hu
    apply h.black
    rw [Gc.color_setColor, if_neg, hu]
    rintro rfl
    simp [hv] at hu
  · intro u c hu hn huc
    by_cases huv : u = v
    · subst huv
      exact hc c huc
    · apply h.newWhite u c hu _ huc
      rw [Gc.color_setColor, if_neg huv]
      exact hn
  · intro u c hu hn huc
    apply h.newBlack u c hu _ huc
    rw [Gc.color_setColor]
    by_cases huv : u = v
    · simp [huv]
    · rw [if_neg huv]
      exact hn

end Progress

/-- The grey nodes. -/
def Gc.greys (g : Gc α) : Finset α := univ.filter fun w => g.color w = .grey

omit [DecidableEq α] in
theorem Progress.greys_card_le {g g' : Gc α} (h : Progress G g g') :
    g'.greys.card ≤ g.greys.card := by
  apply card_le_card
  intro v
  simp only [Gc.greys, mem_filter, mem_univ, true_and]
  exact h.grey v

theorem greys_setColor_white_lt {g : Gc α} {v : α} (hv : g.color v = .grey) :
    (g.setColor v .white).greys.card < g.greys.card := by
  apply card_lt_card
  rw [ssubset_iff_of_subset]
  · refine ⟨v, ?_, ?_⟩
    · simpa [Gc.greys] using hv
    · simp [Gc.greys, Gc.color_setColor]
  · intro w
    simp only [Gc.greys, mem_filter, mem_univ, true_and, Gc.color_setColor]
    by_cases hw : w = v
    · simp [hw]
    · simp [hw]

namespace Scanning

variable {g1 g : Gc α}

/-- A node with a refcount is held from outside of the nodes that are not black. -/
theorem refcount_pos_iff (h : Scanning G ext g1 g) (hfit : Fits G ext) (v : α) :
    g.refcount v > 0 ↔ 0 < ext v + G.refsFrom g.blacks v := by
  have hle := refsFrom_mono G (subset_univ g.blacks) v
  have hlt := hfit v
  rw [h.counted v, gt_iff_lt, UInt32.lt_iff_toNat_lt, UInt32.toNat_ofNat', Nat.mod_eq_of_lt]
  · rfl
  · omega

/-- Turning a node nobody holds white keeps the invariant. -/
theorem setWhite (h : Scanning G ext g1 g) {v : α} (hv : g.color v = .grey)
    (h0 : ext v + G.refsFrom g.blacks v = 0) : Scanning G ext g1 (g.setColor v .white) := by
  have hblack : ∀ w, (g.setColor v .white).color w = .black ↔ g.color w = .black := by
    intro w
    rw [Gc.color_setColor]
    by_cases hw : w = v
    · simp [hw, hv]
    · rw [if_neg hw]
  have hblacks : (g.setColor v .white).blacks = g.blacks := by
    simp [Gc.blacks, hblack]
  refine ⟨?_, ?_, ?_, ?_, ?_, ?_⟩
  · intro w
    rw [Gc.refcount_setColor, hblacks]
    exact h.counted w
  · intro w hw
    rw [hblacks]
    rw [Gc.color_setColor] at hw
    by_cases hwv : w = v
    · rw [hwv, h0]
    · rw [if_neg hwv] at hw
      exact h.white w hw
  · intro w hw
    exact h.kept w ((hblack w).mp hw)
  · intro w
    rw [Gc.color_setColor]
    by_cases hwv : w = v
    · simp [hwv]
    · rw [if_neg hwv]
      exact h.notPurple w
  · intro w hw
    exact (hblack w).mpr (h.symbolTable w hw)
  · apply h.same.trans
    exact ⟨fun w => g.address_setColor v w .white, rfl, rfl⟩

/-- A walk of `gc_scan_black` from a held node keeps the invariant. -/
theorem scanBlack (h : Scanning G ext g1 g) {v : α} {ops : List (Op α)}
    (hheld : 0 < ext v + G.refsFrom g.blacks v) (hw : (blackScheme G).Walk g [v] [] ops) :
    Scanning G ext g1 ((blackScheme G).replay g ops) ∧
      Progress G g ((blackScheme G).replay g ops) := by
  set S := blackScheme G with hS
  set g' := S.replay g ops with hg'
  have hcolor : ∀ w, g'.color w = if w ∈ entered ops then .black else g.color w :=
    color_replay_black g ops
  have hfresh : ∀ w ∈ entered ops, g.color w ≠ .black := hw.fresh
  -- the symbol table is black from the start, so every entered node is followed
  have hsucc : ∀ w ∈ entered ops, S.succ w = (G.node w).refs := by
    intro w hin
    have hs : G.isSymbolTable w = false := by
      by_contra hs
      exact hfresh w hin (h.symbolTable w (by simpa using hs))
    change G.succ w = _
    rw [Graph.succ, hs]
    rfl
  have hclosed : ∀ w ∈ entered ops, ∀ c, G.Edge w c → g'.color c = .black := by
    intro w hin c hc
    exact hw.closed w hin c (by rw [hsucc w hin]; exact hc)
  have hblacks : g'.blacks = g.blacks ∪ (entered ops).toFinset := by
    ext w
    simp only [Gc.blacks, mem_filter, mem_univ, true_and, mem_union, List.mem_toFinset, hcolor]
    by_cases hin : w ∈ entered ops
    · simp [hin]
    · simp [hin]
  have hdisj : Disjoint g.blacks (entered ops).toFinset := by
    rw [disjoint_right]
    intro w hin hb
    simp only [Gc.blacks, mem_filter, mem_univ, true_and] at hb
    exact hfresh w (List.mem_toFinset.mp hin) hb
  have hrefs : ∀ u, G.refsFrom g'.blacks u
      = G.refsFrom g.blacks u + G.refsFrom (entered ops).toFinset u := by
    intro u
    rw [hblacks]
    exact sum_union hdisj
  have hprogress : Progress G g g' := by
    refine ⟨?_, ?_, ?_, ?_⟩
    · intro w hgrey
      rw [hcolor] at hgrey
      split at hgrey
      · simp at hgrey
      · exact hgrey
    · intro w hb
      rw [hcolor, hb]
      simp
    · intro w c hwhite hn _
      rw [hcolor] at hwhite
      split at hwhite
      · simp at hwhite
      · exact absurd hwhite hn
    · intro w c hb hn hwc
      have hin : w ∈ entered ops := by
        by_contra hin
        rw [hcolor, if_neg hin] at hb
        exact hn hb
      exact hclosed w hin c hwc
  refine ⟨⟨?_, ?_, ?_, ?_, ?_, ?_⟩, hprogress⟩
  · intro u
    have hcount : (touched ops).count u = G.refsFrom (entered ops).toFinset u := by
      rw [hw.edges.count_eq, List.nil_append, List.flatMap_congr hsucc,
        count_flatMap_refs G hw.nodup]
    rw [refcount_replay_incRef g ops S rfl (fun s v u => s.refcount_setColor v u .black),
      hcount, h.counted u, hrefs, ← UInt32.ofNat_add, add_assoc]
  · intro u hu
    have hnin : u ∉ entered ops := by
      intro hin
      rw [hcolor, if_pos hin] at hu
      simp at hu
    rw [hcolor, if_neg hnin] at hu
    have h0 := h.white u hu
    have hnone : ¬ 0 < G.refsFrom (entered ops).toFinset u := by
      rw [refsFrom_pos]
      rintro ⟨w, hin, hwu⟩
      have := hclosed w (List.mem_toFinset.mp hin) u hwu
      rw [hcolor, if_neg hnin, hu] at this
      simp at this
    rw [hrefs]
    omega
  · intro u hu
    by_cases hin : u ∈ entered ops
    · obtain ⟨a, ha, hreach⟩ := hw.reach u hin
      rw [List.mem_singleton.mp ha] at hreach
      have hreach' : G.Reach v u := by
        refine Relation.ReflTransGen.mono ?_ _ _ hreach
        intro a b hab
        have hab' : b ∈ G.succ a := hab
        rw [Graph.succ] at hab'
        split at hab'
        · simp at hab'
        · exact hab'
      rcases Nat.eq_zero_or_pos (ext v) with he | he
      · rw [he, zero_add, refsFrom_pos] at hheld
        obtain ⟨w, hwb, hwv⟩ := hheld
        obtain ⟨x, hx, hxw⟩ := h.kept w (by simpa [Gc.blacks] using hwb)
        exact ⟨x, hx, (hxw.tail hwv).trans hreach'⟩
      · exact ⟨v, .inl he, hreach'⟩
    · rw [hcolor, if_neg hin] at hu
      exact h.kept u hu
  · intro u
    rw [hcolor]
    split
    · simp
    · exact h.notPurple u
  · intro u hu
    exact hprogress.black u (h.symbolTable u hu)
  · exact h.same.trans (sameLists_replay_black g ops)

end Scanning

/-! ## The scan phase -/

/-- `gc_scan` returns, keeps the invariant and leaves its node white or black. -/
theorem gcScan_progress (hG : G.Live) (hfit : Fits G ext) {g1 : Gc α} {depth : ℕ}
    (hd : Fintype.card α < depth) (n : ℕ) (g : Gc α) (v : α) (h : Scanning G ext g1 g)
    (hn : g.greys.card < n) :
    ∃ g', gcScan G depth n g v = some g' ∧ Scanning G ext g1 g' ∧ Progress G g g' ∧
      g'.color v ≠ .grey := by
  induction n generalizing g v with
  | zero => exact absurd hn (Nat.not_lt_zero _)
  | succ n ih =>
    rw [gcScan]
    by_cases hv : g.color v = .grey
    · rw [if_pos hv]
      by_cases hrc : g.refcount v > 0
      · rw [if_pos hrc]
        have hne : g.color v ≠ .black := by simp [hv]
        have hroom := (blackScheme G).room_le_card g
        obtain ⟨g', ops, hrun, rfl, hw⟩ := gcScanBlack_walk hG depth g v hne (by omega)
        obtain ⟨hs, hp⟩ := h.scanBlack ((h.refcount_pos_iff hfit v).mp hrc) hw
        refine ⟨_, hrun, hs, hp, ?_⟩
        have hb : ((blackScheme G).replay g ops).color v = .black :=
          hw.done v List.mem_cons_self
        simp [hb]
      · rw [if_neg hrc]
        have h0 : ext v + G.refsFrom g.blacks v = 0 := by
          rw [h.refcount_pos_iff hfit] at hrc
          omega
        have hs : G.isSymbolTable v = false := by
          by_contra hs
          have := h.symbolTable v (by simpa using hs)
          simp [hv] at this
        simp only [hs, Bool.false_eq_true, if_false]
        have hlt := greys_setColor_white_lt hv
        -- the references taken so far are no longer grey
        have hK : Visitor.Keeps { counted := fun g r => gcScan G depth n g r }
            fun l t => Scanning G ext g1 t ∧ Progress G (g.setColor v .white) t ∧
              ∀ c ∈ l, t.color c ≠ .grey := by
          refine ⟨?_, fun _ _ _ h => h, fun _ _ _ h => h, fun _ _ _ h => h⟩
          rintro l t c ⟨hst, hpt, hl⟩
          have hle := hpt.greys_card_le
          obtain ⟨t', hrun, hst', hpt', hc⟩ := ih t c hst (by omega)
          refine ⟨t', hrun, hst', hpt.trans hpt', ?_⟩
          intro u hu
          rcases List.mem_append.mp hu with hu | hu
          · exact fun hgrey => hl u hu (hpt'.grey u hgrey)
          · rw [List.mem_singleton.mp hu]
            exact hc
        obtain ⟨g', hrun, hs', hp', hc⟩ := hK.walk (hG v)
          ⟨h.setWhite hv h0, .refl _, by simp⟩
        refine ⟨g', hrun, hs', .ofWhite hv hp' hc, ?_⟩
        intro hgrey
        have := hp'.grey v hgrey
        simp [Gc.color_setColor] at this
    · rw [if_neg hv]
      exact ⟨g, rfl, h, .refl g, hv⟩

/-- The loop of `gc_scan_roots`. -/
theorem gcScan_foldlM (hG : G.Live) (hfit : Fits G ext) {g1 : Gc α} {depth : ℕ}
    (hd : Fintype.card α < depth) (l : List (Root α)) (g : Gc α) (h : Scanning G ext g1 g) :
    ∃ g', l.foldlM (fun g current => gcScan G depth depth g current.ref) g = some g' ∧
      Scanning G ext g1 g' ∧ Progress G g g' ∧ ∀ r ∈ l, g'.color r.ref ≠ .grey := by
  induction l generalizing g with
  | nil => exact ⟨g, rfl, h, .refl g, by simp⟩
  | cons r l ih =>
    have hcard : g.greys.card < depth := lt_of_le_of_lt (card_le_univ _) hd
    obtain ⟨g', hrun, hs, hp, hr⟩ := gcScan_progress hG hfit hd depth g r.ref h hcard
    obtain ⟨g'', hrun', hs', hp', hl⟩ := ih g' hs
    refine ⟨g'', ?_, hs', hp.trans hp', ?_⟩
    · rw [List.foldlM_cons, hrun]
      exact hrun'
    · intro q hq
      rcases List.mem_cons.mp hq with rfl | hq
      · exact fun hgrey => hr (hp'.grey _ hgrey)
      · exact hl q hq

end ZendGc

/-!
# What the collector frees

A node is garbage when it is below a possible root and nothing that leads to it has an external
reference or lies outside of what is below the possible roots.
-/

namespace ZendGc

open List

open Marking

variable {α : Type*} [DecidableEq α] [Fintype α]

/-! ## Garbage -/

/-- `v` is reachable from a purple node of the starting state. -/
def BelowRoots (G : Graph α) (g : Gc α) (v : α) : Prop :=
  ∃ p, g.color p = .purple ∧ G.Reach p v

/-- Every node that leads to `v` is below the purple nodes and has no external
reference. -/
def Garbage (G : Graph α) (ext : α → ℕ) (g : Gc α) (v : α) : Prop :=
  ∀ w, G.Reach w v → BelowRoots G g w ∧ ext w = 0

variable {G : Graph α} {ext : α → ℕ}

variable {g0 : Gc α}

theorem Ready.fits (h : Ready G ext g0) : Fits G ext := by
  intro v
  rw [← h.refcount v]
  exact (g0.refcount v).toNat_lt

/-- A node below the purple nodes is grey after the mark phase, or below the symbol
table. -/
theorem Greyed.grey_of_below {g1 : Gc α} (h : Greyed G ext g0 g1) {v : α} (hv : BelowRoots G g0 v) :
    g1.color v = .grey ∨ ∃ s, G.isSymbolTable s = true ∧ G.Reach s v := by
  obtain ⟨p, hp, hreach⟩ := hv
  induction hreach with
  | refl => exact (h.start p hp).imp_right fun hs => ⟨p, hs, .refl⟩
  | tail _ hab ih =>
    rcases ih with ha | ⟨s, hs, hr⟩
    · exact (h.closed _ _ ha hab).imp_right fun hs => ⟨_, hs, .refl⟩
    · exact .inr ⟨s, hs, hr.tail hab⟩

theorem Greyed.below {g1 : Gc α} (h : Greyed G ext g0 g1) {v : α}
    (hv : g1.color v = .grey) : BelowRoots G g0 v := by
  obtain ⟨p, hp, hreach⟩ := h.reach v hv
  exact ⟨p, hp, .mono (fun a b hab => hab.2) _ _ hreach⟩

/-- The state after `gc_scan_roots`. -/
structure Scanned (G : Graph α) (ext : α → ℕ) (g0 g : Gc α) : Prop where
  color : ∀ v, g.color v = .white ∨ g.color v = .black
  white : ∀ v, g.color v = .white ↔ Garbage G ext g0 v
  counted : Counted G ext g
  same : g0.SameLists g

/-- The first two phases return, and leave the garbage white and the rest black. -/
theorem gcScanRoots_scanned (h : Ready G ext g0) {depth : ℕ} (hd : Fintype.card α < depth) :
    ∃ g1 g, gcMarkRoots G depth g0 = some g1 ∧ gcScanRoots G depth g1 = some g ∧
      Scanned G ext g0 g := by
  obtain ⟨g1, hrun1, h1⟩ := gcMarkRoots_greyed h hd
  have hs1 : Scanning G ext g1 g1 := by
    refine ⟨h1.counted, ?_, ?_, ?_, h1.symbolTable, .refl g1⟩
    · intro v hv
      rcases h1.color v with hc | hc
      · simp [hc] at hv
      · simp [hc] at hv
    · intro v hv
      exact ⟨v, .inr hv, .refl⟩
    · intro v
      rcases h1.color v with hc | hc
      · simp [hc]
      · simp [hc]
  obtain ⟨g, hrun, hs, hp, hroots⟩ := gcScan_foldlM h.live h.fits hd g1.roots g1 hs1
  refine ⟨g1, g, hrun1, hrun, ?_⟩
  have hnone : ∀ v, g.color v ≠ .grey := by
    intro v hv
    obtain ⟨p, hpurple, hreach⟩ := h1.reach v (hp.grey v hv)
    -- along the grey nodes from a root no grey node is left
    have hpath : ∀ u, Relation.ReflTransGen (fun a b => g1.color a = .grey ∧ G.Edge a b) p u →
        g.color u ≠ .grey := by
      intro u hu
      induction hu with
      | refl =>
        have hroot : p ∈ g0.roots.map Root.ref := by
          rcases h.color p with hb | ⟨-, hr⟩
          · simp [hpurple] at hb
          · exact hr
        obtain ⟨r, hr, rfl⟩ := mem_map.mp hroot
        exact hroots r (by rw [h1.same.roots]; exact hr)
      | @tail a b _ hab ih =>
        cases hc : g.color a with
        | grey => exact absurd hc ih
        | purple => exact absurd hc (hs.notPurple a)
        | white => exact hp.newWhite a b hc (by simp [hab.1]) hab.2
        | black =>
          have := hp.newBlack a b hc (by simp [hab.1]) hab.2
          simp [this]
    exact hpath v hreach hv
  have hcolor : ∀ v, g.color v = .white ∨ g.color v = .black := by
    intro v
    cases hc : g.color v with
    | grey => exact absurd hc (hnone v)
    | purple => exact absurd hc (hs.notPurple v)
    | white => exact .inl rfl
    | black => exact .inr rfl
  have hpred : ∀ w v, G.Edge w v → g.color v = .white → g.color w = .white := by
    intro w v hwv hv
    rcases hcolor w with hw | hw
    · exact hw
    · have h0 := hs.white v hv
      have : 0 < G.refsFrom g.blacks v := by
        rw [refsFrom_pos]
        exact ⟨w, by simpa [Gc.blacks] using hw, hwv⟩
      omega
  refine ⟨hcolor, ?_, hs.counted, h1.same.trans hs.same⟩
  intro v
  constructor
  · intro hv w hwv
    have hw : g.color w = .white := by
      induction hwv using Relation.ReflTransGen.head_induction_on with
      | refl => exact hv
      | head hab _ ih => exact hpred _ _ hab ih
    have h0 := hs.white w hw
    have hgrey : g1.color w = .grey := by
      rcases h1.color w with hc | hc
      · exact hc
      · have := hp.black w hc
        simp [hw] at this
    exact ⟨h1.below hgrey, by omega⟩
  · intro hv
    rcases hcolor v with hc | hc
    · exact hc
    · obtain ⟨w, hw, hwv⟩ := hs.kept v hc
      obtain ⟨hbelow, h0⟩ := hv w hwv
      rcases hw with hw | hw
      · omega
      · rcases h1.grey_of_below hbelow with hgrey | ⟨s, hsym, hsw⟩
        · simp [hw] at hgrey
        · have hpos := h.symbolTable s hsym
          have := (hv s (hsw.trans hwv)).2
          omega

/-! ## Taking the roots that are not garbage out -/

/-- What the first loop of `gc_collect_roots` does over the entries `l`. -/
structure Removed (l : List (Root α)) (g g' : Gc α) : Prop where
  color : ∀ v, g'.color v = g.color v
  refcount : ∀ v, g'.refcount v = g.refcount v
  address : ∀ v, g.color v ≠ .black → g'.address v = g.address v
  zero : ∀ v, g.address v = 0 → g'.address v = 0
  cleared : ∀ r ∈ l, g.color r.ref = .black → g'.address r.ref = 0
  sublist : g'.roots.Sublist g.roots
  roots : ∀ r, r ∈ g'.roots ↔ r ∈ g.roots ∧ ¬ (g.color r.ref = .black ∧ r ∈ l)
  toFree : g'.toFree = g.toFree

omit [Fintype α] in
theorem foldl_removeRoot (l : List (Root α)) (g : Gc α) (hg : g.roots.Nodup) :
    Removed l g (l.foldl (fun g current =>
      if g.color current.ref = .black then g.removeRoot current else g) g) := by
  induction l generalizing g with
  | nil => constructor <;> simp
  | cons r l ih =>
    rw [foldl_cons]
    by_cases hr : g.color r.ref = .black
    · rw [if_pos hr]
      have hcolor : ∀ v, (g.removeRoot r).color v = g.color v := by
        intro v
        change (g.setInfo r.ref 0).color v = _
        rw [Gc.color_setInfo]
        by_cases hv : v = r.ref
        · rw [if_pos hv, hv, hr]
        · rw [if_neg hv]
      have haddress : ∀ v, (g.removeRoot r).address v = if v = r.ref then 0 else g.address v :=
        fun v => g.address_setInfo r.ref v 0
      have h := ih (g.removeRoot r) (hg.erase r)
      refine ⟨?_, ?_, ?_, ?_, ?_, ?_, ?_, ?_⟩
      · intro v
        rw [h.color, hcolor]
      · intro v
        rw [h.refcount]
        exact g.refcount_setInfo r.ref v 0
      · intro v hv
        rw [h.address v (by rwa [hcolor]), haddress, if_neg]
        rintro rfl
        exact hv hr
      · intro v hv
        apply h.zero
        rw [haddress, hv]
        simp
      · intro q hq hb
        rcases mem_cons.mp hq with rfl | hq
        · apply h.zero
          rw [haddress, if_pos rfl]
        · exact h.cleared q hq (by rwa [hcolor])
      · exact h.sublist.trans erase_sublist
      · intro q
        rw [h.roots, hcolor]
        change q ∈ g.roots.erase r ∧ _ ↔ _
        rw [hg.mem_erase_iff, mem_cons]
        by_cases hq : q = r
        · subst hq
          simp [hr]
        · simp [hq]
      · exact h.toFree
    · rw [if_neg hr]
      have h := ih g hg
      refine ⟨h.color, h.refcount, h.address, h.zero, ?_, h.sublist, ?_, h.toFree⟩
      · intro q hq hb
        rcases mem_cons.mp hq with rfl | hq
        · exact absurd hb hr
        · exact h.cleared q hq hb
      · intro q
        rw [h.roots, mem_cons]
        by_cases hq : q = r
        · subst hq
          simp [hr]
        · simp [hq]

/-! ## The walk of `gc_collect_white` -/

section White

variable (g : Gc α) (v : α)

omit [Fintype α] in
/-- Recording garbage at a live collectable node adds an entry when it has none. -/
theorem roots_blacken (hG : G.Live) : (g.blacken G v).roots.map Root.ref =
      (if (G.node v).collectable ∧ g.address v = 0 then [v] else []) ++ g.roots.map Root.ref := by
  have hrecord : ((g.setColor v .black).record v).roots.map Root.ref =
      (if g.address v = 0 then [v] else []) ++ g.roots.map Root.ref := by
    rw [Gc.record]
    have hno : (g.setColor v .black).noInfo v = decide (g.address v = 0) := by
      simp [Gc.noInfo, Gc.color_setColor]
    rw [hno]
    by_cases ha : g.address v = 0
    · obtain ⟨a, -, hroots, -⟩ := (g.setColor v .black).addGarbage_spec v
      simp [ha, hroots]
    · simp [ha]
  unfold Gc.blacken
  have hlive := hG v
  cases hn : G.node v with
  | array arData =>
    simp only [hrecord, Node.collectable, true_and]
  | object o =>
    rw [hn] at hlive
    obtain ⟨hf, hv⟩ : o.freeCalled = false ∧ o.valid = true := hlive
    simp only [hf, hv, Bool.not_true, Bool.or_false, Bool.false_eq_true, if_false, hrecord,
      Node.collectable, true_and]
  | reference val => simp [Node.collectable]
  | other => simp [Node.collectable]

omit [Fintype α] in
theorem address_blacken (w : α) (hw : w ≠ v) : (g.blacken G v).address w = g.address w := by
  have hrecord : ((g.setColor v .black).record v).address w = g.address w := by
    rw [Gc.record]
    split
    · obtain ⟨a, hh, -, -⟩ := (g.setColor v .black).addGarbage_spec v
      rw [Gc.address, hh]
      change ((g.setColor v .black).setInfo v a).address w = _
      rw [Gc.address_setInfo, if_neg hw, Gc.address_setColor]
    · exact g.address_setColor v w .black
  unfold Gc.blacken
  cases G.node v with
  | array arData => exact hrecord
  | object o =>
    by_cases ho : (o.freeCalled || !o.valid) = true
    · simp only [if_pos ho]
      exact g.address_setColor v w .black
    · simp only [if_neg ho]
      exact hrecord
  | reference val => exact g.address_setColor v w .black
  | other => exact g.address_setColor v w .black

omit [Fintype α] in
theorem toFree_blacken : (g.blacken G v).toFree = g.toFree := by
  have hrecord : ((g.setColor v .black).record v).toFree = g.toFree := by
    rw [Gc.record]
    split
    · obtain ⟨a, -, -, hf⟩ := (g.setColor v .black).addGarbage_spec v
      rw [hf]
      rfl
    · rfl
  unfold Gc.blacken
  cases G.node v with
  | array arData => exact hrecord
  | object o =>
    by_cases ho : (o.freeCalled || !o.valid) = true
    · simp only [if_pos ho]
      rfl
    · simp only [if_neg ho]
      exact hrecord
  | reference val => rfl
  | other => rfl

omit [Fintype α] in
/-- The list of roots after a walk: before it, what was entered without an entry. -/
theorem roots_replay_white (hG : G.Live) (ops : List (Op α)) (hnd : (entered ops).Nodup)
    (g : Gc α) : (((whiteScheme G).replay g ops).roots.map Root.ref).Perm
      ((entered ops).filter (fun v => (G.node v).collectable ∧ g.address v = 0)
        ++ g.roots.map Root.ref) := by
  induction ops generalizing g with
  | nil => exact .refl _
  | cons op ops ih =>
    cases op with
    | touch v =>
      have h := ih hnd (g.incRef v)
      simp only [Gc.address_incRef] at h
      exact h
    | enter v =>
      rw [entered, nodup_cons] at hnd
      have h := ih hnd.2 (g.blacken G v)
      -- the nodes entered later keep their address
      have hfilter : (entered ops).filter
            (fun w => (G.node w).collectable ∧ (g.blacken G v).address w = 0)
          = (entered ops).filter (fun w => (G.node w).collectable ∧ g.address w = 0) := by
        apply filter_congr
        intro w hw
        rw [address_blacken g v w]
        rintro rfl
        exact hnd.1 hw
      rw [hfilter, roots_blacken g v hG] at h
      refine h.trans ?_
      rw [entered, filter_cons, ← append_assoc]
      apply List.Perm.append_right
      by_cases hv : (G.node v).collectable = true ∧ g.address v = 0
      · rw [if_pos hv, if_pos (by simpa using hv)]
        exact perm_append_comm
      · rw [if_neg hv, if_neg (by simpa using hv), append_nil]

end White

/-! ## The collect phase -/

omit [DecidableEq α] [Fintype α] in
/-- What leads to garbage is garbage. -/
theorem Garbage.of_reach {g0 : Gc α} {v w : α} (h : Garbage G ext g0 v) (hwv : G.Reach w v) :
    Garbage G ext g0 w :=
  fun u hu => h u (hu.trans hwv)

/-- What a run leaves, begun in `g0`. -/
structure Collected (G : Graph α) (ext : α → ℕ) (g0 g : Gc α) : Prop where
  toFree : ∀ v, v ∈ g.toFree.map Root.ref ↔ (G.node v).collectable = true ∧ Garbage G ext g0 v
  nodup : (g.toFree.map Root.ref).Nodup
  color : ∀ v, g.color v = .black
  refcount : ∀ v, g.refcount v = g0.refcount v
  roots : g.roots = []
  cleared : ∀ v ∈ g0.roots.map Root.ref, ¬ Garbage G ext g0 v → g.noInfo v = true

theorem gcCollectRoots_collected {g0 g : Gc α} (h : Ready G ext g0) (hs : Scanned G ext g0 g)
    {depth : ℕ} (hd : Fintype.card α < depth) :
    ∃ c, gcCollectRoots G depth g = some c ∧ Collected G ext g0 c.gc := by
  have hnd0 : g.roots.Nodup := by
    rw [hs.same.roots]
    exact h.nodup.of_map
  have hr := foldl_removeRoot g.roots g hnd0
  set g1 := g.roots.foldl (fun g current =>
    if g.color current.ref = .black then g.removeRoot current else g) g with hg1
  set S := whiteScheme G with hS
  obtain ⟨c, ops, hrun, hc, hw⟩ := S.foldlM_walk Collect.gc
    (fun (c : Collect α) (r : Root α) =>
      if c.gc.color r.ref = .white then gcCollectWhite G depth c r.ref else some c)
    (fun _ => True) (fun _ _ _ => trivial) (fun r => [r.ref])
    (fun c r _ => by
      by_cases hwhite : c.gc.color r.ref = .white
      · obtain ⟨c', ops, hrun, hc', hw⟩ :=
          gcCollectWhite_walk h.live depth c r.ref (lt_of_le_of_lt (S.room_le_card _) hd)
        exact ⟨c', ops, (if_pos hwhite).trans hrun, hc', hw⟩
      · exact ⟨c, [], if_neg hwhite, rfl, .marked hwhite⟩)
    g1.roots { gc := g1, count := 0, hasDestructors := false } trivial
  refine ⟨{ c with gc := { c.gc with toFree := c.gc.toFree ++ c.gc.roots, roots := [] } }, ?_, ?_⟩
  · rw [gcCollectRoots, hrun]
    rfl
  have hwhite : ∀ v, g1.color v = .white ↔ Garbage G ext g0 v := by
    intro v
    rw [hr.color, hs.white]
  have hroots1 : ∀ v, v ∈ g1.roots.map Root.ref ↔
      v ∈ g0.roots.map Root.ref ∧ Garbage G ext g0 v := by
    intro v
    simp only [mem_map, hr.roots, hs.same.roots]
    constructor
    · rintro ⟨r, ⟨hin, hn⟩, rfl⟩
      refine ⟨⟨r, hin, rfl⟩, ?_⟩
      rw [← hs.white]
      exact (hs.color r.ref).resolve_right fun hb => hn ⟨hb, hin⟩
    · rintro ⟨⟨r, hin, rfl⟩, hgarbage⟩
      rw [← hs.white] at hgarbage
      exact ⟨r, ⟨hin, by simp [hgarbage]⟩, rfl⟩
  -- every white node is below a white root, along white nodes
  have hentered : ∀ v, v ∈ entered ops ↔ Garbage G ext g0 v := by
    intro v
    constructor
    · intro hv
      rw [← hwhite]
      exact not_not.mp (hw.fresh v hv)
    · intro hv
      obtain ⟨p, hp, hreach⟩ := (hv v .refl).1
      have hpath : Relation.ReflTransGen (fun x y => S.Edge x y ∧ ¬ S.marked g1 x) p v := by
        induction hreach with
        | refl => exact .refl
        | @tail a b _ hab ih =>
          have ha := hv.of_reach (.single hab)
          exact (ih ha).tail ⟨hab, fun hm => hm ((hwhite a).mpr ha)⟩
      have hroot : p ∈ g1.roots.map Root.ref := by
        rw [hroots1]
        refine ⟨?_, hv.of_reach hreach⟩
        rcases h.color p with hb | ⟨-, hin⟩
        · simp [hp] at hb
        · exact hin
      have hstart : p ∈ g1.roots.flatMap fun r => [r.ref] := by
        rw [← map_eq_flatMap]
        exact hroot
      have hdone := hw.complete hstart hpath
      rw [S.marked_replay] at hdone
      rcases hdone with hm | hin
      · exact absurd ((hwhite v).mpr hv) hm
      · exact hin
  have hcolor : ∀ v, c.gc.color v = .black := by
    intro v
    rw [hc]
    by_cases hv : v ∈ entered ops
    · apply S.replay_settled (fun s => s.color v) _ v ops hv
      · intro s
        exact (s.color_blacken G v v).trans (if_pos rfl)
      · intro s u hu
        exact (s.color_blacken G u v).trans (if_neg hu.symm)
      · exact fun s u => s.color_incRef u v
    · have hb : g1.color v = .black := by
        rw [hr.color]
        refine (hs.color v).resolve_left fun hwv => hv ?_
        rw [hentered, ← hs.white, hwv]
      rw [← hb]
      apply S.replay_frame (fun s => s.color v) ops
      · intro s u hu
        refine (s.color_blacken G u v).trans (if_neg ?_)
        rintro rfl
        exact hv hu
      · exact fun s u => s.color_incRef u v
  have hrefs := roots_replay_white (G := G) h.live ops hw.nodup g1
  rw [← hc] at hrefs
  have hfree : c.gc.toFree = [] := by
    rw [hc, S.replay_frame Gc.toFree ops (fun s v _ => toFree_blacken s v) (fun _ _ => rfl),
      hr.toFree, hs.same.toFree, h.toFree]
  -- garbage without an entry is what is not a root
  have haddress : ∀ v, Garbage G ext g0 v → (g1.address v = 0 ↔ v ∉ g0.roots.map Root.ref) := by
    intro v hv
    rw [hr.address v (by simp [(hs.white v).mpr hv]), hs.same.address, ← not_iff_not, not_not]
    exact h.address v
  have hmem : ∀ v, v ∈ c.gc.roots.map Root.ref ↔
      (G.node v).collectable = true ∧ Garbage G ext g0 v := by
    intro v
    rw [hrefs.mem_iff, mem_append, mem_filter, hentered, hroots1]
    simp only [decide_eq_true_eq]
    constructor
    · rintro (⟨hv, hk, -⟩ | ⟨hin, hv⟩)
      · exact ⟨hk, hv⟩
      · exact ⟨h.kind v hin, hv⟩
    · rintro ⟨hk, hv⟩
      by_cases hin : v ∈ g0.roots.map Root.ref
      · exact .inr ⟨hin, hv⟩
      · exact .inl ⟨hv, hk, (haddress v hv).mpr hin⟩
  refine ⟨?_, ?_, hcolor, ?_, rfl, ?_⟩
  · intro v
    rw [hfree, nil_append, hmem]
  · rw [hfree, nil_append, hrefs.nodup_iff, nodup_append]
    refine ⟨hw.nodup.filter _, ?_, ?_⟩
    · apply (hr.sublist.map Root.ref).nodup
      rw [hs.same.roots]
      exact h.nodup
    · intro a ha b hb hab
      rw [mem_filter, hentered] at ha
      simp only [decide_eq_true_eq] at ha
      rw [hroots1, ← hab] at hb
      exact (haddress a ha.1).mp ha.2.2 hb.1
  · intro v
    have hcount : (touched ops).count v = G.refsFrom g.blacksᶜ v := by
      have hwhites : (entered ops).toFinset = g.blacksᶜ := by
        ext w
        rw [mem_toFinset, hentered, ← hs.white]
        simp only [Gc.blacks]
        rcases hs.color w with hc | hc
        · simp [hc]
        · simp [hc]
      rw [hw.edges.count_eq, ← hwhites, ← count_flatMap_refs G hw.nodup]
      rfl
    change c.gc.refcount v = _
    rw [hc, refcount_replay_incRef g1 ops S rfl (fun s w u => s.refcount_blacken G w u), hcount,
      hr.refcount, hs.counted v, ← UInt32.ofNat_add, add_assoc, refsFrom_add, ← h.refcount v,
      UInt32.ofNat_toNat]
  · intro v hv hn
    have hb : g.color v = .black := by
      refine (hs.color v).resolve_left fun hwv => hn ?_
      rw [← hs.white, hwv]
    have haddr : c.gc.address v = 0 := by
      rw [hc, S.replay_frame (fun s => s.address v) ops _ (fun s u => s.address_incRef u v)]
      · obtain ⟨r, hin, rfl⟩ := mem_map.mp hv
        exact hr.cleared r (by rwa [hs.same.roots]) hb
      · intro s u hu
        apply address_blacken
        rintro rfl
        exact hn ((hentered _).mp hu)
    change c.gc.noInfo v = true
    simp [Gc.noInfo, hcolor, haddr]

/-- **What a run of the collector frees.**  The phases return; the list to free holds
exactly the arrays and objects that are garbage, each once; every node is black with
the refcount it had; the list of roots is empty, and a root that is not garbage is not
in the list to free either and has no address left. -/
theorem gcCollectCycles_frees (G : Graph α) (ext : α → ℕ) (g0 : Gc α) (h : Ready G ext g0)
    (depth : ℕ) (hd : Fintype.card α < depth) : ∃ c, gcCollectCycles G depth g0 = some c ∧
      (∀ v, v ∈ c.gc.toFree.map Root.ref ↔ (G.node v).collectable = true ∧ Garbage G ext g0 v) ∧
      (c.gc.toFree.map Root.ref).Nodup ∧
      (∀ v, c.gc.color v = .black ∧ c.gc.refcount v = g0.refcount v) ∧ c.gc.roots = [] ∧
      ∀ v ∈ g0.roots.map Root.ref, ¬ Garbage G ext g0 v →
        v ∉ c.gc.toFree.map Root.ref ∧ c.gc.noInfo v = true := by
  obtain ⟨g1, g, hrun1, hrun, hs⟩ := gcScanRoots_scanned h hd
  obtain ⟨c, hrun', hc⟩ := gcCollectRoots_collected h hs hd
  refine ⟨c, ?_, hc.toFree, hc.nodup, fun v => ⟨hc.color v, hc.refcount v⟩, hc.roots, ?_⟩
  · rw [gcCollectCycles, hrun1, Option.bind_eq_bind, Option.bind_some, hrun]
    exact hrun'
  · intro v hv hn
    refine ⟨fun hin => hn ((hc.toFree v).mp hin).2, hc.cleared v hv hn⟩

/-- An array, a reference to an object, and the object, which holds the array. -/
def ringGraph : Graph (Fin 3) where
  node v := match v with
    | 0 => .array [.plain, .counted 1, .undef]
    | 1 => .reference (.counted 2)
    | 2 => .object ⟨false, true, false, [.counted 0], none⟩
  symbolTable := none

/-- Nothing holds the ring, and its array is a possible root. -/
def ringStart : Gc (Fin 3) where
  header v := if v = 0 then ⟨1, .purple, 1⟩ else ⟨1, .black, 0⟩
  roots := [⟨1, 0⟩]
  unused := []
  firstUnused := 2
  lastUnused := rootBufferMaxEntries
  additional := []
  toFree := []

theorem ring_ready : Ready ringGraph (fun _ => 0) ringStart where
  live
    | 0 => trivial
    | 1 => trivial
    | 2 => ⟨rfl, rfl⟩
  symbolTable := by decide
  refcount := by decide
  nodup := by decide
  kind := by decide
  color := by decide
  address := by decide
  toFree := rfl

theorem gcCollectCycles_ring : ∃ c, gcCollectCycles ringGraph 4 ringStart = some c ∧
      (∀ v, v ∈ c.gc.toFree.map Root.ref ↔
        (ringGraph.node v).collectable = true ∧ Garbage ringGraph (fun _ => 0) ringStart v) ∧
      (c.gc.toFree.map Root.ref).Nodup ∧
      (∀ v, c.gc.color v = .black ∧ c.gc.refcount v = ringStart.refcount v) ∧ c.gc.roots = [] ∧
      ∀ v ∈ ringStart.roots.map Root.ref, ¬ Garbage ringGraph (fun _ => 0) ringStart v →
        v ∉ c.gc.toFree.map Root.ref ∧ c.gc.noInfo v = true :=
  gcCollectCycles_frees ringGraph (fun _ => 0) ringStart ring_ready 4 (by decide)

/-! ## Garbage outside of the possible roots -/

/-- An object that holds itself and an array, which holds nothing. -/
def loopGraph : Graph (Fin 2) where
  node v := match v with
    | 0 => .object ⟨false, true, false, [.counted 0, .counted 1], none⟩
    | 1 => .array []
  symbolTable := none

/-- Only the array is a possible root. -/
def loopStart : Gc (Fin 2) where
  header v := if v = 0 then ⟨1, .black, 0⟩ else ⟨1, .purple, 1⟩
  roots := [⟨1, 1⟩]
  unused := []
  firstUnused := 2
  lastUnused := rootBufferMaxEntries
  additional := []
  toFree := []

theorem loop_ready : Ready loopGraph (fun _ => 0) loopStart where
  live
    | 0 => ⟨rfl, rfl⟩
    | 1 => trivial
  symbolTable := by decide
  refcount := by decide
  nodup := by decide
  kind := by decide
  color := by decide
  address := by decide
  toFree := rfl

/-- The array is below a purple root and nothing that leads to it has an external reference, and
yet it is kept: the object that holds it is below no possible root. -/
theorem gcCollectCycles_keeps_loop : Ready loopGraph (fun _ => 0) loopStart ∧
      ∃ c, gcCollectCycles loopGraph 3 loopStart = some c ∧ ¬ ∀ v, v ∈ c.gc.toFree.map Root.ref ↔
          (loopGraph.node v).collectable = true ∧ BelowRoots loopGraph loopStart v ∧
            ∀ w, loopGraph.Reach w v → (fun _ => 0 : Fin 2 → ℕ) w = 0 := by
  have hrun : (gcCollectCycles loopGraph 3 loopStart).map (fun c => c.gc.toFree) = some [] := by
    decide
  obtain ⟨c, hc, hfree⟩ := Option.map_eq_some_iff.mp hrun
  refine ⟨loop_ready, c, hc, fun h => ?_⟩
  have h1 := (h 1).mpr ⟨rfl, ⟨1, rfl, .refl⟩, fun _ _ => rfl⟩
  rw [hfree] at h1
  simp at h1

end ZendGc
