/-
# Longest prefix match of static locations

A node holds the length of its name in a byte.  The first name on the way down that does not
fit is taken for a shorter one, and there is a URI for which the search goes wrong because of
it; where all names fit it never does.
-/
import ReadingCode.LocationSearch

namespace LocationTree

open List

open PrefixOrder

/-! ## Steps that must be taken -/

section

variable {p name v : Bytes} {left right tree : Tree} {exact inclusive : Option Location}
  {redirect : Bool} {found f : Found}

theorem NodeStep.of_left (h : NodeStep p name left right tree exact inclusive redirect v found f)
    (hu : Branches rank (p ++ v) name) : f = findLoop left v found := by
  cases h with
  | left _ hf => exact hf
  | right h => exact absurd h hu.asymm
  | tree w l _ he => exact absurd (he ▸ prefix_append name w) hu.not_pre'
  | exactOnly w _ he => exact absurd (he ▸ prefix_append name w) hu.not_pre'
  | exact l he => exact absurd (he ▸ prefix_refl _) hu.not_pre
  | inclusive he => exact absurd (he ▸ prefix_refl _) hu.not_pre
  | shorter w _ he => exact absurd (he ▸ prefix_append _ w) hu.not_pre

theorem NodeStep.of_right (h : NodeStep p name left right tree exact inclusive redirect v found f)
    (hu : Branches rank name (p ++ v)) : f = findLoop right v found := by
  cases h with
  | left h => exact absurd h hu.asymm
  | right _ hf => exact hf
  | tree w l _ he => exact absurd (he ▸ prefix_append name w) hu.not_pre
  | exactOnly w _ he => exact absurd (he ▸ prefix_append name w) hu.not_pre
  | exact l he => exact absurd (he ▸ prefix_refl _) hu.not_pre
  | inclusive he => exact absurd (he ▸ prefix_refl _) hu.not_pre
  | shorter w _ he => exact absurd (he ▸ prefix_append _ w) hu.not_pre'

theorem NodeStep.of_pre (h : NodeStep p name left right tree exact inclusive redirect v found f)
    {w : Bytes} (hw : w ≠ []) (hu : p ++ v = name ++ w) :
    (∃ l, inclusive = some l ∧ f = findLoop tree w ⟨.again, some l⟩)
      ∨ (inclusive = none ∧ f = findLoop right v found) := by
  have hpre : name <+: p ++ v := hu ▸ prefix_append name w
  have hne : p ++ v ≠ name := by
    intro he
    rw [he] at hu
    exact hw (append_right_eq_self.1 hu.symm)
  cases h with
  | left h => exact absurd hpre h.not_pre'
  | right h => exact absurd hpre h.not_pre
  | tree w' l _ he hl hf =>
    rw [append_cancel_left (he.symm.trans hu)] at hf
    exact .inl ⟨l, hl, hf⟩
  | exactOnly _ _ _ hl hf => exact .inr ⟨hl, hf⟩
  | exact l he => exact absurd he hne
  | inclusive he => exact absurd he hne
  | shorter w' hw' he =>
    have := hpre.length_le
    rw [he, length_append] at this
    exact absurd (eq_nil_of_length_eq_zero (by omega)) hw'

end

/-! ## Names that do not fit -/

/-- A URI that is a name up to its last byte, and not shorter. -/
structure Similar (u name : Bytes) : Prop where
  length : name.length ≤ u.length
  dropLast : name.dropLast <+: u

section

variable {u name q : Bytes}

theorem Similar.pre (h : Similar u name) (hq : q <+: name) (hlt : q.length < name.length) :
    q <+: u := by
  have hname := dropLast_prefix name
  refine (prefix_of_prefix_length_le hq hname ?_).trans h.dropLast
  rw [length_dropLast]
  omega

theorem Similar.drop_ne_nil (h : Similar u name) {n : ℕ} (hlt : n < name.length) :
    u.drop n ≠ [] := by
  intro he
  have hlen := congrArg List.length he
  have hle := h.length
  rw [length_drop, length_nil] at hlen
  omega

/-- A prefix of a name that is not shorter than its first bytes is those. -/
theorem eq_dropLast (hpre : name.dropLast <+: q) (hlt : q.length < name.length) :
    name.dropLast = q := by
  refine hpre.eq_of_length_le ?_
  rw [length_dropLast]
  omega

theorem Similar.branches_left (h : Similar u name) (hq : Branches rank name q)
    (hlt : q.length < name.length) : Branches rank u q := by
  have hname := dropLast_prefix name
  rcases hq.prefix_left hname with hpre | hbr
  · exact absurd (eq_dropLast hpre hlt ▸ hname) hq.not_pre'
  · exact hbr.mono h.dropLast (prefix_refl q)

theorem Similar.branches_right (h : Similar u name) (hq : Branches rank q name)
    (hlt : q.length < name.length) : Branches rank q u := by
  have hname := dropLast_prefix name
  rcases hq.prefix_right hname with hpre | hbr
  · exact absurd (eq_dropLast hpre hlt ▸ hname) hq.not_pre
  · exact hbr.mono (prefix_refl q) h.dropLast

theorem prefix_append_drop {p : Bytes} (h : p <+: u) : p ++ u.drop p.length = u := by
  obtain ⟨s, rfl⟩ := h
  rw [drop_left]

end

theorem Fits.of_node {plen : ℕ} {ls list rs : List Queued} {exact inclusive : Option Location}
    {name : Bytes} (hls : Fits plen ls) (hname : name.length ≤ plen + 255)
    (hlist : Fits name.length list) (hrs : Fits plen rs) :
    Fits plen (ls ++ .mk exact inclusive name list :: rs) := by
  induction ls with
  | nil => exact .cons hname hlist hrs
  | cons q ls ih =>
    cases hls with
    | cons h h1 h2 => exact .cons h h1 (ih h2)

section

variable {p name : Bytes} {ls list rs : List Queued} {inclusive : Option Location} {e : Entry}

/-- A longer name before a node branches below it. -/
theorem NodeOf.branches_before (h : NodeOf p ls inclusive name list rs) (he : e ∈ entriesOf ls)
    (hlt : name.length < e.name.length) : Branches rank e.name name := by
  obtain ⟨m, hm, hme, hown⟩ := h.left.entries_pre e he
  obtain ⟨hbefore, hincl⟩ := h.before m hm
  rcases hbefore with ⟨hpre, -⟩ | hbr
  · have hnone : m.inclusive = none := by
      by_contra hsome
      exact hincl hsome hpre
    have hlen := hpre.length_le
    rw [(hown hnone).2] at hlt
    omega
  · exact hbr.mono hme (prefix_refl name)

/-- A name after a node branches above it, or goes on after the name of an exact location. -/
theorem NodeOf.branches_after (h : NodeOf p ls inclusive name list rs) (he : e ∈ entriesOf rs) :
    Branches rank name e.name ∨ (inclusive = none ∧ name <+: e.name) := by
  obtain ⟨m, hm, hme, -⟩ := h.right.entries_pre e he
  obtain ⟨hafter, hincl⟩ := h.after m hm
  rcases hafter with ⟨hpre, -⟩ | hbr
  · have hnone : inclusive = none := by
      by_contra hsome
      exact hincl hsome hpre
    exact .inr ⟨hnone, hpre.trans hme⟩
  · exact .inl (hbr.mono (prefix_refl name) hme)

end

/-- A node whose name does not fit, in the tree of its queue. -/
structure Misfit (p : Bytes) (name : Bytes) (ls list rs : List Queued)
    (left right tree : Tree) (exact inclusive : Option Location) : Prop where
  forest : Forest p (ls ++ .mk exact inclusive name list :: rs)
  right : Built p.length rs right
  tree : Built name.length list tree
  long : p.length + 255 < name.length

variable {list ls rs : List Queued} {name : Bytes}

theorem Misfit.mem {p : Bytes} {left right tree : Tree} {exact inclusive : Option Location}
    (_ : Misfit p name ls list rs left right tree exact inclusive) :
    (⟨exact, inclusive, name⟩ : Entry) ∈ entriesOf (ls ++ .mk exact inclusive name list :: rs) :=
  mem_entriesOf_self

theorem Similar.take_eq {u : Bytes} (h : Similar u name) {n : ℕ}
    (hn : n < name.length) : u.take n = name.take n := by
  obtain ⟨w, hw⟩ := h.dropLast
  have hlen : n ≤ name.dropLast.length := by
    rw [length_dropLast]
    omega
  rw [← hw, take_append_of_le_length hlen, dropLast_eq_take, take_take]
  congr 1
  omega

/-- The node is taken for one with a shorter name, which is matched. -/
theorem Misfit.findLoop {p u : Bytes} {left right tree : Tree} {exact inclusive : Option Location}
    (h : Misfit p name ls list rs left right tree exact inclusive) (hnul : NUL ∉ name)
    (hu : Similar u name) (redirect : Bool) (found f : Found)
    (hf : LocationTree.findLoop (.node left right tree exact inclusive redirect
      (uchar (name.length - p.length)) (name.drop p.length)) (u.drop p.length) found = f) :
    (∃ l w, inclusive = some l ∧ f = LocationTree.findLoop tree w ⟨.again, some l⟩)
      ∨ (inclusive = none ∧ f = LocationTree.findLoop right (u.drop p.length) found) := by
  have hlong := h.long
  have hulen := hu.length
  have hlen : uchar (name.length - p.length) < 256 := Nat.mod_lt _ (by decide)
  generalize uchar (name.length - p.length) = len at hf hlen
  have hv : len < (u.drop p.length).length := by
    rw [length_drop]
    omega
  have hs : len ≤ (name.drop p.length).length := by
    rw [length_drop]
    omega
  have htake : (u.drop p.length).take len = (name.drop p.length).take len := by
    rw [take_drop, take_drop, hu.take_eq (by omega)]
  have hnul' : NUL ∉ name.drop p.length := fun hmem => hnul (mem_of_mem_drop hmem)
  simp only [LocationTree.findLoop] at hf
  rw [if_neg (not_le.2 hv)] at hf
  rcases ngxFilenameCmp_take len _ _ hv.le hs hnul' with ⟨hcmp, -⟩ | ⟨-, hbr⟩ | ⟨-, hbr⟩
  · rw [hcmp, if_pos hv] at hf
    cases inclusive with
    | some l => exact .inl ⟨l, _, rfl, hf.symm⟩
    | none => exact .inr ⟨rfl, hf.symm⟩
  · exact absurd (htake ▸ prefix_refl _) hbr.not_pre
  · exact absurd (htake ▸ prefix_refl _) hbr.not_pre

/-- A search with a URI similar to a name that does not fit comes to its node. -/
def Reaches (p : Bytes) (qs : List Queued) (t : Tree) : Prop :=
  ∃ px name ls list rs left right tree exact inclusive,
    Misfit px name ls list rs left right tree exact inclusive ∧ p <+: px
      ∧ (∀ e ∈ entriesOf (ls ++ .mk exact inclusive name list :: rs), e ∈ entriesOf qs)
      ∧ ∀ (u : Bytes) (found : Found), found.rv ≠ .ok → Similar u name →
        ∃ found' : Found, found'.rv ≠ .ok
          ∧ findLoop t (u.drop p.length) found
            = findLoop (.node left right tree exact inclusive (redirects exact inclusive)
                (uchar (name.length - px.length)) (name.drop px.length))
              (u.drop px.length) found'

section

variable {p name : Bytes} {ls list rs : List Queued} {left right tree t : Tree}
  {exact inclusive : Option Location} {redirect : Bool}

/-- A step of the search to a part of the queue: what is reached from there is reached. -/
theorem Reaches.of_part {p' : Bytes} {qs qs' : List Queued} {t' : Tree} (h : Reaches p' qs' t')
    (hpre : p <+: p') (hsub : ∀ e ∈ entriesOf qs', e ∈ entriesOf qs)
    (hstep : ∀ e ∈ entriesOf qs', p'.length + 255 < e.name.length → ∀ (u : Bytes) (found : Found),
      Similar u e.name → p' <+: u → found.rv ≠ .ok → ∃ found' : Found, found'.rv ≠ .ok ∧
        findLoop t (u.drop p.length) found = findLoop t' (u.drop p'.length) found') :
    Reaches p qs t := by
  obtain ⟨px, x, ls', list', rs', l', r', t', ex, inc, hm, hpx, hin, hfind⟩ := h
  refine ⟨px, x, ls', list', rs', l', r', t', ex, inc, hm, hpre.trans hpx,
    fun e he => hsub e (hin e he), fun u found hfound hu => ?_⟩
  have hlong := hm.long
  have hpxlen := hpx.length_le
  obtain ⟨found1, hfound1, hfirst⟩ := hstep _ (hin _ hm.mem) (by dsimp only; omega) u found hu
    (hu.pre (hpx.trans hm.forest.node.pre) (by omega)) hfound
  obtain ⟨found2, hfound2, hrest⟩ := hfind u found1 hfound1 hu
  exact ⟨found2, hfound2, hfirst.trans hrest⟩

theorem Reaches.of_left (hnode : NodeOf p ls inclusive name list rs)
    (hname : name.length ≤ p.length + 255)
    (hstep : ∀ v found, NodeStep p name left right tree exact inclusive redirect v found
      (findLoop t v found)) (h : Reaches p ls left) :
    Reaches p (ls ++ .mk exact inclusive name list :: rs) t := by
  refine h.of_part (prefix_refl p) (fun e he => mem_entriesOf_left he)
    fun e he hlong u found hu hpu hfound => ⟨found, hfound, ?_⟩
  refine (hstep (u.drop p.length) found).of_left ?_
  rw [prefix_append_drop hpu]
  exact hu.branches_left (hnode.branches_before he (by omega)) (by omega)

theorem Reaches.of_right (hnode : NodeOf p ls inclusive name list rs)
    (hname : name.length ≤ p.length + 255)
    (hstep : ∀ v found, NodeStep p name left right tree exact inclusive redirect v found
      (findLoop t v found)) (h : Reaches p rs right) :
    Reaches p (ls ++ .mk exact inclusive name list :: rs) t := by
  refine h.of_part (prefix_refl p) (fun e he => mem_entriesOf_right he)
    fun e he hlong u found hu hpu hfound => ⟨found, hfound, ?_⟩
  have hpu := prefix_append_drop hpu
  rcases hnode.branches_after he with hbr | ⟨hnone, hpre⟩
  · refine (hstep (u.drop p.length) found).of_right ?_
    rw [hpu]
    exact hu.branches_right hbr (by omega)
  · have hqu := prefix_append_drop (hu.pre hpre (by omega))
    have hw := hu.drop_ne_nil (show name.length < e.name.length by omega)
    rcases (hstep (u.drop p.length) found).of_pre hw (by rw [hpu, hqu]) with
      ⟨l, hl, -⟩ | ⟨-, hf⟩
    · rw [hnone] at hl
      cases hl
    · exact hf

theorem Reaches.of_tree (hnode : NodeOf p ls inclusive name list rs) (hsome : inclusive ≠ none)
    (hstep : ∀ v found, NodeStep p name left right tree exact inclusive redirect v found
      (findLoop t v found)) (h : Reaches name list tree) :
    Reaches p (ls ++ .mk exact inclusive name list :: rs) t := by
  refine h.of_part hnode.pre (fun e he => mem_entriesOf_list he)
    fun e he hlong u found hu hqu hfound => ?_
  have hw := hu.drop_ne_nil (show name.length < e.name.length by omega)
  rcases (hstep (u.drop p.length) found).of_pre hw
    (by rw [prefix_append_drop (hnode.pre.trans hqu), prefix_append_drop hqu]) with
    ⟨l, -, hf⟩ | ⟨hnone, -⟩
  · exact ⟨⟨.again, some l⟩, by simp, hf⟩
  · exact absurd hnone hsome

end

variable {qs : List Queued}

/-- If some name does not fit, one is reached. -/
theorem reaches_of_not_fits {plen : ℕ} {t : Tree} (hb : Built plen qs t) :
    ∀ p : Bytes, p.length = plen → Forest p qs → (∀ e ∈ entriesOf qs, e.Good) →
      ¬ Fits plen qs → Reaches p qs t := by
  induction hb with
  | null plen => exact fun _ _ _ _ h => absurd (Fits.nil plen) h
  | @node plen ls rs list left right tree exact inclusive name hleft hright htree ihl ihr iht =>
    intro p hplen hforest hgood hfits
    subst hplen
    have hnode := hforest.node
    by_cases hname : name.length ≤ p.length + 255
    · have hgoodq : (⟨exact, inclusive, name⟩ : Entry).Good :=
        hgood _ mem_entriesOf_self
      have hstep := fun v found => findLoop_node hnode.pre hgoodq.nulFree hname left right tree
        exact inclusive (redirects exact inclusive) v found _ rfl
      by_cases hfl : Fits p.length ls
      · by_cases hft : Fits name.length list
        · have hfr : ¬ Fits p.length rs := fun hfr => hfits (hfl.of_node hname hft hfr)
          exact (ihr p rfl hnode.right (fun e he => hgood e (mem_entriesOf_right he)) hfr).of_right
            hnode hname hstep
        · have hsome : inclusive ≠ none := by
            intro hnone
            rw [hnode.exact hnone] at hft
            exact hft (.nil _)
          exact (iht name rfl hnode.nested
            (fun e he => hgood e (mem_entriesOf_list he)) hft).of_tree hnode hsome hstep
      · exact (ihl p rfl hnode.left (fun e he => hgood e (mem_entriesOf_left he)) hfl).of_left hnode
          hname hstep
    · exact ⟨p, name, ls, list, rs, left, right, tree, exact, inclusive,
        ⟨hforest, hright, htree, not_le.1 hname⟩, prefix_refl p, fun e he => he,
        fun u found hfound _ => ⟨found, hfound, rfl⟩⟩

/-! ## Where the search goes wrong -/

/-- A result that is the location of an entry, a redirect or `found`. -/
def FoundAmong (es : List Entry) (found f : Found) : Prop :=
  f = found ∨ f.rv = .done ∨ ∃ e ∈ es, ∃ l,
    (e.exact = some l ∧ f = ⟨.ok, some l⟩) ∨ (e.inclusive = some l ∧ f = ⟨.again, some l⟩)

theorem FoundAmong.mono {es es' : List Entry} {found f : Found} (h : FoundAmong es found f)
    (hsub : ∀ e ∈ es, e ∈ es') : FoundAmong es' found f := by
  rcases h with h | h | ⟨e, he, h⟩
  · exact .inl h
  · exact .inr (.inl h)
  · exact .inr (.inr ⟨e, hsub e he, h⟩)

theorem Built.foundAmong {plen : ℕ} {t : Tree} (hb : Built plen qs t) :
    (∀ e ∈ entriesOf qs, e.Good) → ∀ (v : Bytes) (found : Found),
      FoundAmong (entriesOf qs) found (findLoop t v found) := by
  induction hb with
  | null plen => exact fun _ v found => .inl rfl
  | @node plen ls rs list left right tree exact inclusive name hleft hright htree ihl ihr iht =>
    intro hgood v found
    have hl := ihl fun e he => hgood e (mem_entriesOf_left he)
    have ht := iht fun e he => hgood e (mem_entriesOf_list he)
    have hr := ihr fun e he => hgood e (mem_entriesOf_right he)
    have hgoodq := hgood _ mem_entriesOf_self
    have hright : FoundAmong (entriesOf (ls ++ .mk exact inclusive name list :: rs)) found
        (findLoop right v found) := (hr v found).mono fun e he => mem_entriesOf_right he
    have hleft : FoundAmong (entriesOf (ls ++ .mk exact inclusive name list :: rs)) found
        (findLoop left v found) := (hl v found).mono fun e he => mem_entriesOf_left he
    -- a redirect, unless what lies before the node has something
    have hredirect : ∀ location, FoundAmong (entriesOf (ls ++ .mk exact inclusive name list :: rs))
        found (findLoop left v ⟨.done, location⟩) := by
      intro location
      rcases hl v ⟨.done, location⟩ with h | h | ⟨e, he, h⟩
      · exact .inr (.inl (by rw [h]))
      · exact .inr (.inl h)
      · exact .inr (.inr ⟨e, mem_entriesOf_left he, h⟩)
    simp only [findLoop]
    generalize uchar (name.length - plen) = len
    generalize (if v.length ≤ len then v.length else len) = n
    split_ifs with h1 h2 h3 h4 h5
    · exact hleft
    · exact hright
    · rcases inclusive with _ | l
      · exact hright
      · rcases ht (v.drop n) ⟨.again, some l⟩ with h | h | ⟨e, he, h⟩
        · exact .inr (.inr ⟨_, mem_entriesOf_self, l, .inr ⟨rfl, h⟩⟩)
        · exact .inr (.inl h)
        · exact .inr (.inr ⟨e, mem_entriesOf_list he, h⟩)
    · rcases exact with _ | l
      · obtain ⟨l, hl⟩ := Option.ne_none_iff_exists'.1 (hgoodq.nonempty.resolve_left (by simp))
        dsimp only at hl
        exact .inr (.inr ⟨_, mem_entriesOf_self, l, .inr ⟨hl, by rw [hl]⟩⟩)
      · exact .inr (.inr ⟨_, mem_entriesOf_self, l, .inl ⟨rfl, rfl⟩⟩)
    · exact hredirect _
    · exact hredirect _
    · exact hleft

section

variable {p name u : Bytes} {ls list rs : List Queued} {left right tree : Tree}
  {exact inclusive : Option Location} {found f : Found}

/-- An exact location whose name does not fit is not found under its name. -/
theorem Misfit.not_exact (h : Misfit p name ls list rs left right tree exact inclusive)
    (hgood : ∀ e ∈ entriesOf (ls ++ .mk exact inclusive name list :: rs), e.Good)
    (hfound : found.rv ≠ .ok) (hf : LocationTree.findLoop (.node left right tree exact inclusive
      (redirects exact inclusive) (uchar (name.length - p.length)) (name.drop p.length))
      (name.drop p.length) found = f) {l : Location} (hl : l.name = name) : f ≠ ⟨.ok, some l⟩ := by
  intro hok
  have hnode := h.forest.node
  have hnul := (hgood _ h.mem).nulFree
  have hnot : ∀ es found', (∀ e ∈ es, e.Good ∧ e.name ≠ name) → found'.rv ≠ .ok →
      ¬ FoundAmong es found' f := by
    rintro es found' hes hfound' (hf' | hf' | ⟨e, he, l', ⟨hl', hf'⟩ | ⟨-, hf'⟩⟩)
    · rw [← hf', hok] at hfound'
      exact hfound' rfl
    · rw [hok] at hf'
      cases hf'
    · rw [hok] at hf'
      cases hf'
      exact (hes e he).2 (((hes e he).1.exact l hl').2.symm.trans hl)
    · rw [hok] at hf'
      cases hf'
  have hsimilar : Similar name name := ⟨le_rfl, dropLast_prefix name⟩
  rcases h.findLoop hnul hsimilar _ found f hf with ⟨l', w, -, hf'⟩ | ⟨-, hf'⟩
  · have hamong := h.tree.foundAmong (fun e he => hgood e (mem_entriesOf_list he)) w
      ⟨.again, some l'⟩
    rw [← hf'] at hamong
    refine hnot _ _ (fun e he => ⟨hgood e (mem_entriesOf_list he), ?_⟩) (by simp) hamong
    exact (hnode.list_pre e he).2
  · have hamong := h.right.foundAmong (fun e he => hgood e (mem_entriesOf_right he))
      (name.drop p.length) found
    rw [← hf'] at hamong
    refine hnot _ _ (fun e he => ⟨hgood e (mem_entriesOf_right he), fun hname => ?_⟩) hfound hamong
    obtain ⟨m, hm, hme, -⟩ := hnode.right.entries_pre e he
    exact (hnode.after m hm).1.not_pre (hname ▸ hme)

/-- An inclusive location whose name does not fit is found, or one under it, with a URI that
only begins like its name. -/
theorem Misfit.wrong (h : Misfit p name ls list rs left right tree exact inclusive)
    (hgood : ∀ e ∈ entriesOf (ls ++ .mk exact inclusive name list :: rs), e.Good)
    (hu : Similar u name) (hf : LocationTree.findLoop (.node left right tree exact inclusive
      (redirects exact inclusive) (uchar (name.length - p.length)) (name.drop p.length))
      (u.drop p.length) found = f) (hsome : inclusive ≠ none) :
    f.rv = .ok ∨ f.rv = .done ∨ ∃ l, f = ⟨.again, some l⟩ ∧ name <+: l.name := by
  have hnode := h.forest.node
  have hgoodq := hgood _ h.mem
  rcases h.findLoop hgoodq.nulFree hu _ found f hf with ⟨l, w, hl, hf'⟩ | ⟨hnone, -⟩
  · rw [hf']
    rcases h.tree.foundAmong (fun e he => hgood e (mem_entriesOf_list he)) w ⟨.again, some l⟩ with
      h1 | h1 | ⟨e, he, l', ⟨-, h1⟩ | ⟨hl', h1⟩⟩
    · refine .inr (.inr ⟨l, h1, ?_⟩)
      exact (hgoodq.inclusive l hl).2 ▸ prefix_refl _
    · exact .inr (.inl h1)
    · exact .inl (by rw [h1])
    · refine .inr (.inr ⟨l', h1, ?_⟩)
      rw [((hgood e (mem_entriesOf_list he)).inclusive l' hl').2]
      exact (hnode.list_pre e he).1
  · exact absurd hnone hsome

end

/-- A URI that only begins like a name, longer than `n`. -/
theorem exists_similar {name : Bytes} (hname : name ≠ []) (n : ℕ) :
    ∃ u, Similar u name ∧ n < u.length ∧ ¬ name <+: u := by
  obtain ⟨c, hc⟩ : ∃ c, name.getLast hname ≠ c := by
    by_cases h : name.getLast hname = SLASH
    · exact ⟨DOT, by rw [h]; decide⟩
    · exact ⟨SLASH, h⟩
  refine ⟨name.dropLast ++ replicate (n + 1) c, ⟨?_, prefix_append _ _⟩, ?_, ?_⟩
  · rw [length_append, length_dropLast, length_replicate]
    omega
  · rw [length_append, length_replicate]
    omega
  · intro hpre
    conv at hpre => lhs; rw [← dropLast_append_getLast hname]
    rw [prefix_append_right_inj, replicate_succ, cons_prefix_cons] at hpre
    exact hc hpre.1

/-- **Where some name does not fit, the search goes wrong with some URI.** -/
theorem exists_not_selected {qs : List Queued} {t : Tree} (hb : Built 0 qs t)
    (hforest : Forest [] qs)
    (hgood : ∀ e ∈ entriesOf qs, e.Good) (hfits : ¬ Fits 0 qs) :
    ∃ u, ¬ Selected (entriesOf qs) u ⟨.declined, none⟩ (findLoop t u ⟨.declined, none⟩) := by
  obtain ⟨px, name, ls, list, rs, left, right, tree, exact, inclusive, hm, -, hsub, hfind⟩ :=
    reaches_of_not_fits hb [] rfl hforest hgood hfits
  have hgood' : ∀ e ∈ entriesOf (ls ++ .mk exact inclusive name list :: rs), e.Good :=
    fun e he => hgood e (hsub e he)
  have hgoodq := hgood' _ hm.mem
  rcases exact with _ | l
  · have hsome : inclusive ≠ none := hgoodq.nonempty.resolve_left (by simp)
    have hname : name ≠ [] := by
      rintro rfl
      exact absurd hm.long (Nat.not_lt_zero _)
    obtain ⟨u, hu, hlen, hnot⟩ := exists_similar hname ((entriesOf qs).map (·.name)).flatten.length
    have hlong : ∀ e ∈ entriesOf qs, e.name.length < u.length := by
      intro e he
      have hsublist := sublist_flatten_of_mem (mem_map_of_mem (f := (·.name)) he)
      exact Nat.lt_of_le_of_lt hsublist.length_le hlen
    refine ⟨u, fun hsel => ?_⟩
    obtain ⟨found', -, hsame⟩ := hfind u ⟨.declined, none⟩ (by simp) hu
    rw [length_nil, drop_zero] at hsame
    have hwrong := hm.wrong hgood' hu hsame.symm hsome
    rcases hsel.2 fun e he _ heq => absurd (hlong e he) (by rw [heq]; exact Nat.lt_irrefl _) with
      ⟨-, e, he, -, hred⟩ | ⟨e, he, l, hl, hpre, -, hf⟩ | ⟨-, hf⟩
    · have hlen' := hlong e he
      rw [hred, length_append] at hlen'
      omega
    · rw [hf] at hwrong
      rcases hwrong with h | h | ⟨l', h, hpre'⟩
      · cases h
      · cases h
      · cases h
        rw [((hgood e he).inclusive l hl).2] at hpre'
        exact hnot (hpre'.trans hpre)
    · rw [hf] at hwrong
      rcases hwrong with h | h | ⟨l', h, -⟩
      · cases h
      · cases h
      · cases h
  · refine ⟨name, fun hsel => ?_⟩
    obtain ⟨found', hfound', hsame⟩ := hfind name ⟨.declined, none⟩ (by simp)
      ⟨Nat.le_refl _, dropLast_prefix name⟩
    exact hm.not_exact hgood' hfound' hsame.symm (hgoodq.exact l rfl).2
      (hsel.1 _ (hsub _ hm.mem) l rfl rfl)

/-!
# Static locations, from the configuration to the request

They are found exactly if each name goes at most 255 bytes beyond nothing, or beyond the name of an
inclusive location that it begins with.
-/

/-! ## Names that fit -/

/-- A name that goes at most 255 bytes beyond `plen` bytes or an inclusive name among `es`. -/
def Near (plen : ℕ) (es : List Entry) (name : Bytes) : Prop :=
  name.length ≤ plen + 255
    ∨ ∃ e ∈ es, e.inclusive ≠ none ∧ e.name <+: name ∧ e.name ≠ name
        ∧ name.length ≤ e.name.length + 255

theorem Near.mono {plen : ℕ} {es es' : List Entry} {name : Bytes} (h : Near plen es name)
    (hsub : ∀ e ∈ es, e ∈ es') : Near plen es' name := by
  rcases h with h | ⟨e, he, h⟩
  · exact .inl h
  · exact .inr ⟨e, hsub e he, h⟩

section

variable {p name : Bytes} {ls list rs : List Queued} {inclusive : Option Location}

/-- Names in the list of a node and names after it are not prefixes of each other. -/
theorem NodeOf.not_pre_after (h : NodeOf p ls inclusive name list rs) (hsome : inclusive ≠ none)
    {e : Entry} (he : e ∈ entriesOf rs) {x : Bytes} (hx : name <+: x) : ¬ e.name <+: x := by
  obtain ⟨m, hm, hme, -⟩ := h.right.entries_pre e he
  obtain ⟨hafter, hincl⟩ := h.after m hm
  intro hex
  rcases List.prefix_or_prefix_of_prefix hx (hme.trans hex) with hpre | hpre
  · exact hincl hsome hpre
  · exact hafter.not_pre hpre

theorem NodeOf.ne_none (h : NodeOf p ls inclusive name list rs) {e : Entry}
    (he : e ∈ entriesOf list) : inclusive ≠ none := by
  intro hnone
  rw [h.exact hnone] at he
  exact absurd he List.not_mem_nil

end

/-- Names fit their nodes if they go little beyond the inclusive names that they begin with. -/
theorem fits_iff {p : Bytes} {qs : List Queued} (h : Forest p qs) :
    Fits p.length qs ↔ ∀ e ∈ entriesOf qs, Near p.length (entriesOf qs) e.name := by
  induction h with
  | nil p => exact ⟨fun _ e he => absurd he List.not_mem_nil, fun _ => .nil _⟩
  | @cons p exact inclusive name list rest hp hlist hunder hexact hlt hincl hrest ihl ihr =>
    have hforest : Forest p ([] ++ .mk exact inclusive name list :: rest) :=
      .cons hp hlist hunder hexact hlt hincl hrest
    have hnode := hforest.node
    have hcons : ∀ e, e ∈ entriesOf (.mk exact inclusive name list :: rest)
        ↔ e = ⟨exact, inclusive, name⟩ ∨ e ∈ entriesOf list ∨ e ∈ entriesOf rest := by
      intro e
      rw [entriesOf, Queued.entries]
      simp only [List.mem_append, List.mem_cons, or_assoc]
    constructor
    · intro hfits e he
      cases hfits with
      | cons hname hfl hfr =>
        rcases (hcons e).1 he with rfl | he | he
        · exact .inl hname
        · obtain ⟨hpre, hne⟩ := hnode.list_pre e he
          rcases ihl.1 hfl e he with h | ⟨e', he', h⟩
          · exact .inr ⟨_, (hcons _).2 (.inl rfl), hnode.ne_none he, hpre, hne.symm, h⟩
          · exact .inr ⟨e', (hcons e').2 (.inr (.inl he')), h⟩
        · exact (ihr.1 hfr e he).mono fun e' he' => (hcons e').2 (.inr (.inr he'))
    · intro hnear
      refine .cons ?_ (ihl.2 fun e he => ?_) (ihr.2 fun e he => ?_)
      · rcases hnear _ ((hcons _).2 (.inl rfl)) with h | ⟨e', he', -, hpre, hne, -⟩
        · exact h
        · exfalso
          rcases (hcons e').1 he' with rfl | he' | he'
          · exact hne rfl
          · obtain ⟨hpre', hne'⟩ := hnode.list_pre e' he'
            exact hne' (hpre.eq_of_length_le hpre'.length_le)
          · obtain ⟨m, hm, hme, -⟩ := hrest.entries_pre e' he'
            exact (hlt m hm).not_pre (hme.trans hpre)
      · obtain ⟨hpre, hne⟩ := hnode.list_pre e he
        rcases hnear e ((hcons e).2 (.inr (.inl he))) with h | ⟨e', he', hsome, hpre', hne', h⟩
        · have := hp.length_le
          exact .inl (by omega)
        · rcases (hcons e').1 he' with rfl | he' | he'
          · exact .inl h
          · exact .inr ⟨e', he', hsome, hpre', hne', h⟩
          · exact absurd hpre' (hnode.not_pre_after (hnode.ne_none he) he' hpre)
      · rcases hnear e ((hcons e).2 (.inr (.inr he))) with h | ⟨e', he', hsome, hpre', hne', h⟩
        · exact .inl h
        · rcases (hcons e').1 he' with rfl | he' | he'
          · exact absurd (List.prefix_refl _) (hnode.not_pre_after hsome he hpre')
          · obtain ⟨hpre, -⟩ := hnode.list_pre e' he'
            exact absurd (List.prefix_refl _)
              (hnode.not_pre_after (hnode.ne_none he') he (hpre.trans hpre'))
          · exact .inr ⟨e', he', hsome, hpre', hne', h⟩

/-! ## The locations of a level -/

/-- What the search is to select among the locations of a level. -/
def Selects (ls : List Location) (uri : Bytes) (f : Found) : Prop :=
  (∀ l ∈ ls, l.exactMatch = true → l.name = uri → f = ⟨.ok, some l⟩)
    ∧ ((∀ l ∈ ls, l.exactMatch = true → l.name ≠ uri) →
      (f.rv = .done ∧ ∃ l ∈ ls, l.autoRedirect = true ∧ l.name = uri ++ [SLASH])
      ∨ (∃ l ∈ ls, l.exactMatch = false ∧ l.name <+: uri
          ∧ (∀ l' ∈ ls, l'.exactMatch = false → l'.name <+: uri → l'.name.length ≤ l.name.length)
          ∧ f = ⟨.again, some l⟩)
      ∨ ((∀ l ∈ ls, l.exactMatch = false → ¬ l.name <+: uri) ∧ f = ⟨.declined, none⟩))

/-- Each name goes at most 255 bytes beyond nothing, or beyond an inclusive name that it
properly begins with. -/
def NamesFit (ls : List Location) : Prop :=
  ∀ l ∈ ls, l.name.length ≤ 255
    ∨ ∃ l' ∈ ls, l'.exactMatch = false ∧ l'.name <+: l.name ∧ l'.name ≠ l.name
        ∧ l.name.length ≤ l'.name.length + 255

/-- Entries that are those of some locations. -/
structure Covers (es : List Entry) (ls : List Location) : Prop where
  good : ∀ e ∈ es, e.Good
  mem : ∀ l, l ∈ ls ↔ ∃ e ∈ es, l ∈ e.locations

theorem mem_locations {e : Entry} {l : Location} :
    l ∈ e.locations ↔ e.exact = some l ∨ e.inclusive = some l := by
  simp [Entry.locations]

section

variable {es : List Entry} {ls : List Location}

theorem Covers.exact (h : Covers es ls) {l : Location} :
    (l ∈ ls ∧ l.exactMatch = true) ↔ ∃ e ∈ es, e.exact = some l := by
  rw [h.mem]
  constructor
  · rintro ⟨⟨e, he, hl⟩, hexact⟩
    rcases mem_locations.1 hl with hl | hl
    · exact ⟨e, he, hl⟩
    · rw [((h.good e he).inclusive l hl).1] at hexact
      cases hexact
  · rintro ⟨e, he, hl⟩
    exact ⟨⟨e, he, mem_locations.2 (.inl hl)⟩, ((h.good e he).exact l hl).1⟩

theorem Covers.inclusive (h : Covers es ls) {l : Location} :
    (l ∈ ls ∧ l.exactMatch = false) ↔ ∃ e ∈ es, e.inclusive = some l := by
  rw [h.mem]
  constructor
  · rintro ⟨⟨e, he, hl⟩, hincl⟩
    rcases mem_locations.1 hl with hl | hl
    · rw [((h.good e he).exact l hl).1] at hincl
      cases hincl
    · exact ⟨e, he, hl⟩
  · rintro ⟨e, he, hl⟩
    exact ⟨⟨e, he, mem_locations.2 (.inr hl)⟩, ((h.good e he).inclusive l hl).1⟩

variable {P : Bytes → Prop}

theorem Covers.forall_exact (h : Covers es ls) :
    (∀ l ∈ ls, l.exactMatch = true → P l.name) ↔ ∀ e ∈ es, e.exact ≠ none → P e.name := by
  constructor
  · intro hP e he hsome
    obtain ⟨l, hl⟩ := Option.ne_none_iff_exists'.1 hsome
    obtain ⟨hmem, hexact⟩ := h.exact.2 ⟨e, he, hl⟩
    exact ((h.good e he).exact l hl).2 ▸ hP l hmem hexact
  · intro hP l hmem hexact
    obtain ⟨e, he, hl⟩ := h.exact.1 ⟨hmem, hexact⟩
    rw [((h.good e he).exact l hl).2]
    exact hP e he (hl ▸ Option.some_ne_none l)

theorem Covers.forall_inclusive (h : Covers es ls) :
    (∀ l ∈ ls, l.exactMatch = false → P l.name) ↔ ∀ e ∈ es, e.inclusive ≠ none → P e.name := by
  constructor
  · intro hP e he hsome
    obtain ⟨l, hl⟩ := Option.ne_none_iff_exists'.1 hsome
    obtain ⟨hmem, hincl⟩ := h.inclusive.2 ⟨e, he, hl⟩
    exact ((h.good e he).inclusive l hl).2 ▸ hP l hmem hincl
  · intro hP l hmem hincl
    obtain ⟨e, he, hl⟩ := h.inclusive.1 ⟨hmem, hincl⟩
    rw [((h.good e he).inclusive l hl).2]
    exact hP e he (hl ▸ Option.some_ne_none l)

theorem Covers.redirects (h : Covers es ls) (x : Bytes) :
    (∃ l ∈ ls, l.autoRedirect = true ∧ l.name = x)
      ↔ ∃ e ∈ es, LocationTree.redirects e.exact e.inclusive = true ∧ e.name = x := by
  simp only [LocationTree.redirects, Bool.or_eq_true, Option.any_eq_true]
  constructor
  · rintro ⟨l, hl, hred, hx⟩
    obtain ⟨e, he, hmem⟩ := (h.mem l).1 hl
    rcases mem_locations.1 hmem with hl | hl
    · exact ⟨e, he, .inl ⟨l, hl, hred⟩, ((h.good e he).exact l hl).2 ▸ hx⟩
    · exact ⟨e, he, .inr ⟨l, hl, hred⟩, ((h.good e he).inclusive l hl).2 ▸ hx⟩
  · rintro ⟨e, he, ⟨l, hl, hred⟩ | ⟨l, hl, hred⟩, hx⟩
    · exact ⟨l, (h.exact.2 ⟨e, he, hl⟩).1, hred, ((h.good e he).exact l hl).2.trans hx⟩
    · exact ⟨l, (h.inclusive.2 ⟨e, he, hl⟩).1, hred, ((h.good e he).inclusive l hl).2.trans hx⟩

/-- Selecting among locations is selecting among their entries. -/
theorem Covers.selects_iff (h : Covers es ls) (uri : Bytes) (f : Found) :
    Selects ls uri f ↔ Selected es uri ⟨.declined, none⟩ f := by
  unfold Selects Selected
  rw [h.forall_exact (P := fun x => x ≠ uri), h.redirects,
    h.forall_inclusive (P := fun x => ¬ x <+: uri)]
  refine and_congr ?_ (imp_congr Iff.rfl (or_congr Iff.rfl (or_congr ?_ Iff.rfl)))
  · constructor
    · intro hsel e he l hl hname
      obtain ⟨hmem, hexact⟩ := h.exact.2 ⟨e, he, hl⟩
      exact hsel l hmem hexact (((h.good e he).exact l hl).2.trans hname)
    · intro hsel l hmem hexact hname
      obtain ⟨e, he, hl⟩ := h.exact.1 ⟨hmem, hexact⟩
      exact hsel e he l hl (((h.good e he).exact l hl).2 ▸ hname)
  · constructor
    · rintro ⟨l, hmem, hincl, hpre, hmax, hf⟩
      obtain ⟨e, he, hl⟩ := h.inclusive.1 ⟨hmem, hincl⟩
      rw [((h.good e he).inclusive l hl).2] at hpre hmax
      exact ⟨e, he, l, hl, hpre,
        h.forall_inclusive (P := fun x => x <+: uri → x.length ≤ e.name.length).1 hmax, hf⟩
    · rintro ⟨e, he, l, hl, hpre, hmax, hf⟩
      obtain ⟨hmem, hincl⟩ := h.inclusive.2 ⟨e, he, hl⟩
      rw [← ((h.good e he).inclusive l hl).2] at hpre hmax
      exact ⟨l, hmem, hincl, hpre,
        h.forall_inclusive (P := fun x => x <+: uri → x.length ≤ l.name.length).2 hmax, hf⟩

theorem Covers.namesFit_iff (h : Covers es ls) : NamesFit ls ↔ ∀ e ∈ es, Near 0 es e.name := by
  have hnear : ∀ x, (x.length ≤ 255 ∨ ∃ l' ∈ ls, l'.exactMatch = false ∧ l'.name <+: x
      ∧ l'.name ≠ x ∧ x.length ≤ l'.name.length + 255) ↔ Near 0 es x := by
    intro x
    have hnot := not_congr (h.forall_inclusive (P := fun y =>
      ¬ (y <+: x ∧ y ≠ x ∧ x.length ≤ y.length + 255)))
    simp only [not_forall, not_not, exists_prop] at hnot
    unfold Near
    rw [hnot]
  constructor
  · intro hfit e he
    obtain ⟨l, hl, hname⟩ := (h.good e he).exists_location
    exact (hnear _).1 (hname ▸ hfit l ((h.mem l).2 ⟨e, he, hl⟩))
  · intro hfit l hl
    obtain ⟨e, he, hmem⟩ := (h.mem l).1 hl
    have hname : l.name = e.name := by
      rcases mem_locations.1 hmem with hl | hl
      · exact ((h.good e he).exact l hl).2
      · exact ((h.good e he).inclusive l hl).2
    rw [hname]
    exact (hnear _).2 (hfit e he)

end

/-! ## The result -/

/-- Two locations that are not reported as a duplicate. -/
def Distinct (a b : Location) : Prop := ¬ (a.name = b.name ∧ a.exactMatch = b.exactMatch)

/-- What is sorted strictly goes up if there is no duplicate. -/
theorem before_of_le {a b : Location} (hle : ngxHttpCmpLocations a b ≤ 0) (h : Distinct a b) :
    Before a b := by
  rcases ngxHttpCmpLocations_le.1 hle with hlt | ⟨hname, hab⟩
  · exact .inl hlt
  · refine .inr ⟨hname, ?_⟩
    rcases ha : a.exactMatch with _ | _ <;> rcases hb : b.exactMatch with _ | _
    · exact absurd ⟨hname, ha.trans hb.symm⟩ h
    · rw [ha, hb] at hab
      rcases hab with hab | hab <;> cases hab
    · exact ⟨rfl, rfl⟩
    · exact absurd ⟨hname, ha.trans hb.symm⟩ h

/-- The tree of a level is built from a forest of its locations. -/
theorem staticLocations_spec {ls : List Location} (hdistinct : ls.Pairwise Distinct) :
    ∃ qs t, staticLocations ls = some t ∧ Built 0 qs t ∧ Forest [] qs
      ∧ Covers (entriesOf qs) ls := by
  obtain ⟨hperm, hle⟩ := ngxQueueSort_spec ngxHttpCmpLocations_total ngxHttpCmpLocations_trans ls
  have hdistinct' : (ngxQueueSort ngxHttpCmpLocations ls).Pairwise Distinct := by
    refine (hperm.pairwise_iff ?_).2 hdistinct
    exact fun h h' => h ⟨h'.1.symm, h'.2.symm⟩
  obtain ⟨es, hjoin, hflat, hsorted, hgood⟩ := join_spec _
    (hle.imp₂ (fun a b => before_of_le) hdistinct')
  obtain ⟨hforest, hentries, -⟩ := ngxHttpCreateLocationsList_spec es.length [] es
    le_rfl hgood hsorted fun e _ => List.nil_prefix
  have hbuilt := ngxHttpCreateLocationsTree_spec es.length [] _ (by rw [hentries]) hforest
  refine ⟨_, _, by rw [staticLocations, hjoin]; rfl, hbuilt, hforest, ?_, ?_⟩
  · rw [hentries]
    exact hgood
  · intro l
    rw [hentries, ← hperm.mem_iff, ← hflat, List.mem_flatMap]

/-- **Static locations are found by longest prefix exactly if their names fit.** -/
theorem selects_iff_namesFit {ls : List Location} (hdistinct : ls.Pairwise Distinct) :
    ∃ node, staticLocations ls = some node
      ∧ ((∀ uri, Selects ls uri (ngxHttpCoreFindStaticLocation node uri)) ↔ NamesFit ls) := by
  obtain ⟨qs, t, hstatic, hbuilt, hforest, hcovers⟩ := staticLocations_spec hdistinct
  refine ⟨t, hstatic, ?_⟩
  have hfits : NamesFit ls ↔ Fits 0 qs := by
    rw [hcovers.namesFit_iff]
    exact (fits_iff hforest).symm
  rw [hfits]
  simp only [hcovers.selects_iff]
  constructor
  · intro hsel
    by_contra hnot
    obtain ⟨u, hu⟩ := exists_not_selected hbuilt hforest hcovers.good hnot
    exact hu (hsel u)
  · intro hfit uri
    exact findLoop_spec hbuilt [] uri _ rfl hforest hcovers.good hfit

/-- `location /`. -/
def rootLocation : Location := ⟨[SLASH], false, false, by decide, by decide⟩

/-- `location = /aa…`, with a name of 256 bytes. -/
def longLocation : Location :=
  ⟨SLASH :: List.replicate 255 0x61, true, false, by decide, by decide⟩

theorem selects_iff_namesFit_two : [rootLocation, longLocation].Pairwise Distinct
    ∧ ∃ node, staticLocations [rootLocation, longLocation] = some node
      ∧ ((∀ uri, Selects [rootLocation, longLocation] uri
          (ngxHttpCoreFindStaticLocation node uri)) ↔ NamesFit [rootLocation, longLocation]) := by
  have hdistinct : [rootLocation, longLocation].Pairwise Distinct :=
    List.pairwise_pair.2 fun h => Bool.false_ne_true h.2
  exact ⟨hdistinct, selects_iff_namesFit hdistinct⟩

/-- The length of the name is 0 in its byte, and the location is not found. -/
theorem not_selects_longLocation : ∃ node, staticLocations [longLocation] = some node
    ∧ ngxHttpCoreFindStaticLocation node longLocation.name = ⟨.declined, none⟩
    ∧ ¬ Selects [longLocation] longLocation.name
        (ngxHttpCoreFindStaticLocation node longLocation.name) := by
  have hjoin : ngxHttpJoinExactLocations [Entry.ofLocation longLocation]
      = some [Entry.ofLocation longLocation] := by rw [ngxHttpJoinExactLocations]
  have hsort : (ngxQueueSort ngxHttpCmpLocations [longLocation]).map Entry.ofLocation
      = [Entry.ofLocation longLocation] := rfl
  have hfind : ngxHttpCoreFindStaticLocation (ngxHttpCreateLocationsTree 1
      (ngxHttpCreateLocationsList 1 [Entry.ofLocation longLocation]) 0) longLocation.name
      = ⟨.declined, none⟩ := by decide +kernel
  refine ⟨_, by rw [staticLocations, hsort, hjoin]; rfl, hfind, fun hsel => ?_⟩
  have hok := hsel.1 longLocation List.mem_cons_self rfl rfl
  rw [hfind] at hok
  cases hok

end LocationTree
