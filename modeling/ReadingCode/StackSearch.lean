/-
# Depth-first search with an explicit stack

The search looks at the top of a stack, pushes the first neighbour not yet visited, or
pops.  It builds a spanning tree whose paths are the stacks it has held.  With the
moment a node was first visited, the tree says which edges lead to descendants.
-/
import Mathlib.Data.Fintype.Card

namespace StackSearch

open List Function Finset

variable {α : Type*}

/-- The stack with its top first, the visited marks, and the tree by parents. -/
structure State (α : Type*) where
  stack : List α
  visited : α → Bool
  tree : α → Option α

/-- `a` is `b` or above it in the tree. -/
def Above (tree : α → Option α) : α → α → Prop :=
  Relation.ReflTransGen fun a b => tree b = some a

variable [DecidableEq α]

/-- Marks and pushes `j`, found from `i`. -/
def State.push (s : State α) (i j : α) : State α where
  stack := j :: s.stack
  visited := update s.visited j true
  tree := update s.tree j (some i)

/-- One look at the top `i` of the stack, above `rest`. -/
def State.visit (next : α → List α) (s : State α) (i : α) (rest : List α) : State α :=
  match (next i).find? fun j => !s.visited j with
  | some j => s.push i j
  | none => { s with stack := rest }

/-- The search until the stack is empty. -/
def search (next : α → List α) : ℕ → State α → Option (State α)
  | n, s =>
    match s.stack with
    | [] => some s
    | i :: rest =>
      match n with
      | 0 => none
      | n + 1 => search next n (s.visit next i rest)

/-- The search begins at `root`. -/
def State.start (root : α) : State α where
  stack := [root]
  visited := update (fun _ => false) root true
  tree := fun _ => none

/-! ## The invariant -/

/-- The nodes of a stack are a path of the tree up to a node without a parent. -/
def IsPath (tree : α → Option α) : List α → Prop
  | [] => True
  | [a] => tree a = none
  | a :: b :: l => tree a = some b ∧ IsPath tree (b :: l)

variable (next : α → List α)

/-- `disc` tells when a node was visited, among `count` visits. -/
structure Inv (s : State α) (disc : α → ℕ) (count : ℕ) : Prop where
  path : IsPath s.tree s.stack
  stacked : ∀ x ∈ s.stack, s.visited x = true
  fresh : ∀ x, s.visited x = false → s.tree x = none
  disc_lt : ∀ x, s.visited x = true → disc x < count
  tree : ∀ x y, s.tree x = some y →
    s.visited x = true ∧ s.visited y = true ∧ disc y < disc x ∧ x ∈ next y
  finished : ∀ x, s.visited x = true → x ∉ s.stack → ∀ j ∈ next x, s.visited j = true
  late : ∀ v ∈ s.stack, ∀ z, s.visited z = true → disc v ≤ disc z → Above s.tree v z
  between : ∀ v y z, s.visited y = true → s.visited z = true → Above s.tree v y →
    disc v ≤ disc z → disc z ≤ disc y → Above s.tree v z
  forward : ∀ x y, s.visited x = true → s.visited y = true → y ∈ next x →
    disc x < disc y → Above s.tree x y

variable {tree : α → Option α} {l : List α}

omit [DecidableEq α] in
/-- A stack holds what lies above its top. -/
theorem IsPath.above {a : α} (h : IsPath tree (a :: l)) {v : α} : Above tree v a ↔ v ∈ a :: l := by
  induction l generalizing a with
  | nil =>
    constructor
    · intro hv
      rcases hv.cases_tail with rfl | ⟨c, -, hc⟩
      · exact mem_cons_self
      · have hn : tree a = none := h
        simp [hn] at hc
    · intro hv
      rw [List.mem_singleton.mp hv]
      exact .refl
  | cons b l ih =>
    obtain ⟨hab, hl⟩ := h
    constructor
    · intro hv
      rcases hv.cases_tail with rfl | ⟨c, hvc, hc⟩
      · exact mem_cons_self
      · obtain rfl := Option.some.inj (hab.symm.trans hc)
        exact mem_cons_of_mem a ((ih hl).mp hvc)
    · intro hv
      rcases mem_cons.mp hv with rfl | hv
      · exact .refl
      · exact ((ih hl).mpr hv).tail hab

omit [DecidableEq α] in
theorem IsPath.tail {a : α} (h : IsPath tree (a :: l)) : IsPath tree l := by
  cases l with
  | nil => trivial
  | cons b l => exact h.2

omit [DecidableEq α] in
theorem IsPath.congr {tree' : α → Option α} (h : IsPath tree l)
    (hsame : ∀ x ∈ l, tree' x = tree x) : IsPath tree' l := by
  induction l with
  | nil => trivial
  | cons a l ih =>
    cases l with
    | nil => exact (hsame a mem_cons_self).trans h
    | cons b l =>
      refine ⟨(hsame a mem_cons_self).trans h.1, ih h.2 fun x hx => ?_⟩
      exact hsame x (mem_cons_of_mem a hx)

theorem inv_start (root : α) : Inv next (State.start root) (fun _ => 0) 1 := by
  have hvisited : ∀ x, (State.start root).visited x = true ↔ x = root := by
    intro x
    by_cases hx : x = root
    · simp [State.start, hx]
    · simp [State.start, hx]
  have hroot : ∀ x, (State.start root).visited x = true → Above (State.start root).tree root x := by
    intro x hx
    rw [(hvisited x).mp hx]
    exact .refl
  refine ⟨rfl, ?_, fun _ _ => rfl, fun _ _ => Nat.one_pos, ?_, ?_, ?_, ?_, ?_⟩
  · intro x hx
    exact (hvisited x).mpr (List.mem_singleton.mp hx)
  · intro x y h
    simp [State.start] at h
  · intro x hx hn
    rw [hvisited] at hx
    exact absurd (List.mem_singleton.mpr hx) hn
  · intro v hv z hz _
    rw [List.mem_singleton.mp hv]
    exact hroot z hz
  · intro v y z hy hz hvy _ _
    rcases hvy.cases_tail with rfl | ⟨c, -, hc⟩
    · rw [(hvisited _).mp hy]
      exact hroot z hz
    · simp [State.start] at hc
  · intro x y _ _ _ h
    exact absurd h (lt_irrefl _)

variable {next} {s : State α} {disc : α → ℕ} {count : ℕ}

variable {i j : α}

/-- A new leaf changes nothing above the other nodes. -/
theorem above_push (h : Inv next s disc count) {v y : α} (hj : s.visited j = false)
    (hy : s.visited y = true) : Above (s.push i j).tree v y ↔ Above s.tree v y := by
  have hsame : ∀ x, x ≠ j → (s.push i j).tree x = s.tree x := by
    intro x hx
    exact update_of_ne hx _ _
  constructor
  · intro hvy
    induction hvy with
    | refl => exact .refl
    | @tail a b _ hab ih =>
      have hb : b ≠ j := by
        rintro rfl
        simp [hj] at hy
      rw [hsame b hb] at hab
      exact (ih (h.tree b a hab).2.1).tail hab
  · intro hvy
    refine .mono ?_ _ _ hvy
    intro a b hab
    have hb : b ≠ j := by
      rintro rfl
      simp [h.fresh _ hj] at hab
    exact (hsame b hb).trans hab

variable {rest : List α}

/-- Pushing a neighbour of the top that was not visited keeps the invariant. -/
theorem Inv.push (h : Inv next s disc count)
    (hs : s.stack = i :: rest) (hin : j ∈ next i) (hj : s.visited j = false) :
    Inv next (s.push i j) (update disc j count) (count + 1) := by
  have hi : s.visited i = true := h.stacked i (by rw [hs]; exact mem_cons_self)
  have hne : ∀ x, s.visited x = true → x ≠ j := by
    rintro x hx rfl
    simp [hj] at hx
  have hvisited : ∀ x, (s.push i j).visited x = true ↔ x = j ∨ s.visited x = true := by
    intro x
    by_cases hx : x = j
    · simp [State.push, hx]
    · simp [State.push, hx]
  have hdiscj : update disc j count j = count := update_self ..
  have hdisc : ∀ x, s.visited x = true → update disc j count x = disc x := by
    intro x hx
    exact update_of_ne (hne x hx) _ _
  have htree : ∀ x, x ≠ j → (s.push i j).tree x = s.tree x := by
    intro x hx
    exact update_of_ne hx _ _
  have htreej : (s.push i j).tree j = some i := update_self ..
  have hold : ∀ v y, s.visited y = true → (Above (s.push i j).tree v y ↔ Above s.tree v y) :=
    fun v y hy => above_push h hj hy
  -- above the new leaf lie the stack and the leaf itself
  have habove : ∀ v, v ∈ s.stack → Above (s.push i j).tree v j := by
    intro v hv
    rw [hs] at hv
    have hpath := h.path
    rw [hs] at hpath
    exact ((hold v i hi).mpr (hpath.above.mpr hv)).tail htreej
  refine ⟨?_, ?_, ?_, ?_, ?_, ?_, ?_, ?_, ?_⟩
  · have hpath : IsPath (s.push i j).tree s.stack :=
      h.path.congr fun x hx => htree x (hne x (h.stacked x hx))
    change IsPath _ (j :: s.stack)
    rw [hs] at hpath ⊢
    exact ⟨htreej, hpath⟩
  · intro x hx
    rw [hvisited]
    exact (mem_cons.mp hx).imp_right (h.stacked x)
  · intro x hx
    have hxj : x ≠ j := by
      rintro rfl
      simp [State.push] at hx
    rw [htree x hxj]
    apply h.fresh
    simpa [State.push, hxj] using hx
  · intro x hx
    rcases (hvisited x).mp hx with rfl | hx
    · rw [hdiscj]
      exact Nat.lt_succ_self _
    · rw [hdisc x hx]
      exact Nat.lt_succ_of_lt (h.disc_lt x hx)
  · intro x y hxy
    by_cases hx : x = j
    · subst hx
      obtain rfl := Option.some.inj (htreej.symm.trans hxy)
      rw [hdiscj, hdisc i hi]
      exact ⟨(hvisited x).mpr (.inl rfl), (hvisited i).mpr (.inr hi), h.disc_lt i hi, hin⟩
    · rw [htree x hx] at hxy
      obtain ⟨h1, h2, h3, h4⟩ := h.tree x y hxy
      rw [hdisc x h1, hdisc y h2]
      exact ⟨(hvisited x).mpr (.inr h1), (hvisited y).mpr (.inr h2), h3, h4⟩
  · intro x hx hn k hk
    have hxj : x ≠ j := by
      rintro rfl
      exact hn mem_cons_self
    have hx' := ((hvisited x).mp hx).resolve_left hxj
    have hn' : x ∉ s.stack := fun hmem => hn (mem_cons_of_mem j hmem)
    exact (hvisited k).mpr (.inr (h.finished x hx' hn' k hk))
  · intro v hv z hz hle
    rcases mem_cons.mp hv with rfl | hv'
    · rcases (hvisited z).mp hz with rfl | hz'
      · exact .refl
      · rw [hdisc z hz'] at hle
        have := h.disc_lt z hz'
        omega
    · rcases (hvisited z).mp hz with rfl | hz'
      · exact habove v hv'
      · rw [hdisc v (h.stacked v hv'), hdisc z hz'] at hle
        exact (hold v z hz').mpr (h.late v hv' z hz' hle)
  · intro v y z hy hz hvy hvz hzy
    rcases (hvisited z).mp hz with rfl | hz'
    · rcases (hvisited y).mp hy with rfl | hy
      · exact hvy
      · rw [hdisc y hy] at hzy
        have := h.disc_lt y hy
        omega
    · rw [hdisc z hz'] at hvz hzy
      rcases (hvisited y).mp hy with rfl | hy
      · rcases hvy.cases_tail with rfl | ⟨c, hvc, hc⟩
        · have := h.disc_lt z hz'
          omega
        · obtain rfl := Option.some.inj (htreej.symm.trans hc)
          have hpath := h.path
          rw [hs] at hpath
          have hv : v ∈ s.stack := by
            rw [hs]
            exact hpath.above.mp ((hold v i hi).mp hvc)
          rw [hdisc v (h.stacked v hv)] at hvz
          exact (hold v z hz').mpr (h.late v hv z hz' hvz)
      · have hvy' := (hold v y hy).mp hvy
        have hv : s.visited v = true := by
          rcases hvy'.cases_head with rfl | ⟨c, hc, -⟩
          · exact hy
          · exact (h.tree c v hc).2.1
        rw [hdisc v hv] at hvz
        rw [hdisc y hy] at hzy
        exact (hold v z hz').mpr (h.between v y z hy hz' hvy' hvz hzy)
  · intro x y hx hy hxy hlt
    rcases (hvisited x).mp hx with rfl | hx'
    · rcases (hvisited y).mp hy with rfl | hy'
      · exact .refl
      · rw [hdisc y hy'] at hlt
        have := h.disc_lt y hy'
        omega
    · rcases (hvisited y).mp hy with rfl | hy'
      · -- an edge to the leaf comes from a node still on the stack
        by_cases hstack : x ∈ s.stack
        · exact habove x hstack
        · have := h.finished x hx' hstack _ hxy
          simp [hj] at this
      · rw [hdisc x hx', hdisc y hy'] at hlt
        exact (hold x y hy').mpr (h.forward x y hx' hy' hxy hlt)

/-- Popping a top whose neighbours are all visited keeps the invariant. -/
theorem Inv.pop (h : Inv next s disc count) (hs : s.stack = i :: rest)
    (hall : ∀ j ∈ next i, s.visited j = true) : Inv next { s with stack := rest } disc count := by
  have hmem : ∀ x ∈ rest, x ∈ s.stack := by
    intro x hx
    rw [hs]
    exact mem_cons_of_mem i hx
  refine ⟨?_, fun x hx => h.stacked x (hmem x hx), h.fresh, h.disc_lt, h.tree, ?_,
    fun v hv => h.late v (hmem v hv), h.between, h.forward⟩
  · have hpath := h.path
    rw [hs] at hpath
    exact hpath.tail
  · intro x hx hn j hj
    by_cases hxi : x = i
    · exact hall j (hxi ▸ hj)
    · refine h.finished x hx ?_ j hj
      rw [hs]
      intro hin
      rcases mem_cons.mp hin with h' | h'
      · exact hxi h'
      · exact hn h'

/-! ## The run -/

variable [Fintype α]

/-- How many nodes are not visited. -/
def State.unvisited (s : State α) : ℕ := (univ.filter fun x => s.visited x = false).card

theorem unvisited_push (hj : s.visited j = false) : (s.push i j).unvisited + 1 = s.unvisited := by
  have : (univ.filter fun x => s.visited x = false)
      = insert j (univ.filter fun x => (s.push i j).visited x = false) := by
    ext x
    simp only [Finset.mem_filter, mem_univ, true_and, mem_insert]
    by_cases hx : x = j
    · simp [hx, hj]
    · simp [State.push, hx]
  rw [State.unvisited, State.unvisited, this, card_insert_of_notMem]
  rw [Finset.mem_filter]
  simp [State.push]

theorem unvisited_start (root : α) : (State.start root).unvisited + 1 = Fintype.card α := by
  have : (univ : Finset α)
      = insert root (univ.filter fun x => (State.start root).visited x = false) := by
    ext x
    by_cases hx : x = root
    · simp [hx]
    · simp only [mem_univ, mem_insert, hx, Finset.mem_filter, true_and, false_or, true_iff]
      change update (fun _ => false) root true x = false
      rw [update_of_ne hx]
  rw [State.unvisited, ← card_univ, this, card_insert_of_notMem, ← this]
  rw [Finset.mem_filter]
  simp [State.start]

/-- The search ends, and its tree has the invariant with an empty stack. -/
theorem search_spec (n : ℕ) (s : State α) (disc : α → ℕ) (count : ℕ)
    (h : Inv next s disc count) (hn : 2 * s.unvisited + s.stack.length ≤ n) :
    ∃ s' disc' count', search next n s = some s' ∧ Inv next s' disc' count' ∧ s'.stack = [] ∧
      (∀ x, s.visited x = true → s'.visited x = true) ∧
      (∀ x, s.visited x = true → s'.tree x = s.tree x) ∧
      (∀ x, s'.visited x = true → s.visited x = true ∨ ∃ y, s'.tree x = some y) ∧
      count' + s'.unvisited = count + s.unvisited := by
  induction n generalizing s disc count with
  | zero =>
    have hs : s.stack = [] := eq_nil_of_length_eq_zero (by omega)
    refine ⟨s, disc, count, ?_, h, hs, fun _ hx => hx, fun _ _ => rfl, fun _ hx => .inl hx, rfl⟩
    rw [search, hs]
  | succ n ih =>
    rcases hs : s.stack with _ | ⟨i, rest⟩
    · refine ⟨s, disc, count, ?_, h, hs, fun _ hx => hx, fun _ _ => rfl, fun _ hx => .inl hx, rfl⟩
      rw [search, hs]
    · have hrun : search next (n + 1) s = search next n (s.visit next i rest) := by
        rw [search, hs]
      rw [hs, length_cons] at hn
      rw [hrun, State.visit]
      cases hf : (next i).find? fun j => !s.visited j with
      | some j =>
        have hj : s.visited j = false := by simpa using find?_some hf
        have hcard := unvisited_push (i := i) hj
        have hlen : (s.push i j).stack.length = rest.length + 2 := by
          simp [State.push, hs]
        obtain ⟨s', disc', count', hrun', hinv, hstack, hvis, htree, hpar, hcount⟩ :=
          ih (s.push i j) _ _ (h.push hs (mem_of_find?_eq_some hf) hj) (by omega)
        refine ⟨s', disc', count', hrun', hinv, hstack, ?_, ?_, ?_, by omega⟩
        · intro x hx
          apply hvis
          by_cases hxj : x = j
          · simp [State.push, hxj]
          · simpa [State.push, hxj] using hx
        · intro x hx
          have hxj : x ≠ j := by
            rintro rfl
            simp [hj] at hx
          rw [htree x (by simpa [State.push, hxj] using hx)]
          exact update_of_ne hxj _ _
        · intro x hx
          by_cases hxj : x = j
          · subst hxj
            refine .inr ⟨i, ?_⟩
            rw [htree x (by simp [State.push])]
            exact update_self ..
          · refine (hpar x hx).imp_left fun hx' => ?_
            simpa [State.push, hxj] using hx'
      | none =>
        have hall : ∀ j ∈ next i, s.visited j = true := by
          intro j hj
          simpa using find?_eq_none.mp hf j hj
        exact ih { s with stack := rest } disc count (h.pop hs hall) (by
          change 2 * s.unvisited + rest.length ≤ n
          omega)

end StackSearch
