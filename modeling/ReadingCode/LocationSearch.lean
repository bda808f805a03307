/-
# Searching the tree of locations

One step of the search compares the URI with the name of a node; `findLoop_node` says where
each outcome leads, as long as the length of the node's name fits its byte.  What lies
elsewhere in a forest is then of no account, and the search selects what it should.
-/
import ReadingCode.LocationTree

namespace LocationTree

open PrefixOrder
open List (take_length prefix_refl not_mem_nil mem_cons mem_cons_self mem_cons_of_mem mem_singleton)

/-! ## One node -/

/-- What the search comes to at a node, `p` being what was matched before and `v` what is left
of the URI. -/
inductive NodeStep (p name : Bytes) (left right tree : Tree)
    (exact inclusive : Option Location) (redirect : Bool) (v : Bytes) (found f : Found) : Prop
  | left (h : Branches rank (p ++ v) name) (hf : f = findLoop left v found)
  | right (h : Branches rank name (p ++ v)) (hf : f = findLoop right v found)
  | tree (w : Bytes) (l : Location) (hw : w ≠ []) (hu : p ++ v = name ++ w)
      (hl : inclusive = some l) (hf : f = findLoop tree w ⟨.again, some l⟩)
  | exactOnly (w : Bytes) (hw : w ≠ []) (hu : p ++ v = name ++ w) (hl : inclusive = none)
      (hf : f = findLoop right v found)
  | exact (l : Location) (hu : p ++ v = name) (hl : exact = some l) (hf : f = ⟨.ok, some l⟩)
  | inclusive (hu : p ++ v = name) (hl : exact = none) (hf : f = ⟨.again, inclusive⟩)
  | shorter (w : Bytes) (hw : w ≠ []) (hu : name = p ++ v ++ w)
      (hf : f = findLoop left v
        (if w.length = 1 ∧ redirect then ⟨.done, if exact.isSome then exact else inclusive⟩
          else found))

variable {p : Bytes} {qs : List Queued}

/-- That is so where the length of the name fits. -/
theorem findLoop_node {name : Bytes} (hp : p <+: name) (hnul : NUL ∉ name)
    (hfits : name.length ≤ p.length + 255) (left right tree : Tree)
    (exact inclusive : Option Location) (redirect : Bool) (v : Bytes) (found f : Found)
    (hf : findLoop (.node left right tree exact inclusive redirect
      (uchar (name.length - p.length)) (name.drop p.length)) v found = f) :
    NodeStep p name left right tree exact inclusive redirect v found f := by
  obtain ⟨s, rfl⟩ := hp
  rw [List.length_append] at hfits
  have hlen : uchar ((p ++ s).length - p.length) = s.length := by
    rw [List.length_append, Nat.add_sub_cancel_left]
    exact Nat.mod_eq_of_lt (by omega)
  have hdrop : (p ++ s).drop p.length = s := List.drop_left
  have hnul' : NUL ∉ s := fun h => hnul (List.mem_append_right _ h)
  rw [hlen, hdrop] at hf
  simp only [findLoop] at hf
  generalize hn : (if v.length ≤ s.length then v.length else s.length) = n at hf
  have hn' : n = min v.length s.length := by
    rw [← hn]
    split_ifs <;> omega
  have htv := List.take_prefix n v
  have hts := List.take_prefix n s
  rcases ngxFilenameCmp_take n v s (by omega) (by omega) hnul' with
    ⟨hcmp, h⟩ | ⟨hcmp, h⟩ | ⟨hcmp, h⟩
  · rw [hcmp, if_neg (not_not.2 rfl)] at hf
    rcases Nat.lt_trichotomy s.length v.length with hlt | heq | hgt
    · -- the name is matched, and more of the URI is left
      have hns : n = s.length := by omega
      rw [hns, take_length] at h
      have hv : v = s ++ v.drop s.length := by
        conv_lhs => rw [← List.take_append_drop s.length v, h]
      have hw : v.drop s.length ≠ [] := by
        intro he
        rw [he, List.append_nil] at hv
        rw [hv] at hlt
        exact lt_irrefl _ hlt
      have hu : p ++ v = p ++ s ++ v.drop s.length := by rw [List.append_assoc, ← hv]
      rw [if_pos hlt, hns] at hf
      cases inclusive with
      | some l => exact .tree _ l hw hu rfl hf.symm
      | none => exact .exactOnly _ hw hu rfl hf.symm
    · have hv : v = s := by
        rwa [hn', heq, min_self, take_length, ← heq, take_length] at h
      rw [if_neg (by omega), if_pos heq.symm] at hf
      cases exact with
      | some l => exact .exact l (by rw [hv]) rfl hf.symm
      | none => exact .inclusive (by rw [hv]) rfl hf.symm
    · -- the URI is matched, and more of the name is left
      have hnv : n = v.length := by omega
      rw [hnv, take_length] at h
      have hs : s = v ++ s.drop v.length := by
        conv_lhs => rw [← List.take_append_drop v.length s, ← h]
      have hone : (s.drop v.length).length = 1 ↔ v.length + 1 = s.length := by
        rw [List.length_drop]
        omega
      rw [if_neg (by omega), if_neg (by omega)] at hf
      refine .shorter (s.drop v.length) ?_ ?_ ?_
      · intro he
        rw [he, List.append_nil] at hs
        rw [hs] at hgt
        exact lt_irrefl _ hgt
      · rw [List.append_assoc, ← hs]
      · simp only [hone]
        exact hf.symm
  · have hbr := (h.mono htv hts).append_left p
    rw [if_pos (by omega), if_pos hcmp] at hf
    exact .left hbr hf.symm
  · have hbr := (h.mono hts htv).append_left p
    rw [if_pos (by omega), if_neg (by omega)] at hf
    exact .right hbr hf.symm

/-! ## What does not count -/

/-- An entry that a URI cannot select. -/
def Unrelated (u : Bytes) (e : Entry) : Prop :=
  (e.exact ≠ none → e.name ≠ u) ∧ (e.inclusive ≠ none → ¬ e.name <+: u)

theorem unrelated_of_not_pre {u : Bytes} {e : Entry} (h : ¬ e.name <+: u) : Unrelated u e :=
  ⟨fun _ he => h (he ▸ prefix_refl _), fun _ => h⟩

theorem Forest.pre (h : Forest p qs) : ∀ m ∈ qs, p <+: m.name := by
  induction h with
  | nil p => exact fun m hm => absurd hm not_mem_nil
  | cons hp _ _ _ _ _ _ _ ih =>
    intro m hm
    rcases mem_cons.1 hm with rfl | hm
    · exact hp
    · exact ih m hm

/-- The entries of a forest begin with the name of a queued location, and are its own unless it
is inclusive. -/
theorem Forest.entries_pre (h : Forest p qs) : ∀ e ∈ entriesOf qs, ∃ m ∈ qs, m.name <+: e.name ∧
      (m.inclusive = none → e.inclusive = none ∧ e.name = m.name) := by
  induction h with
  | nil p => exact fun e he => absurd he not_mem_nil
  | cons hp hlist hunder hexact hlt hincl hrest ihl ihr =>
    intro e he
    rcases List.mem_append.1 he with he | he
    · refine ⟨_, mem_cons_self, ?_⟩
      rcases mem_cons.1 he with rfl | he
      · exact ⟨prefix_refl _, fun h => ⟨h, rfl⟩⟩
      · obtain ⟨m, hm, hme, -⟩ := ihl e he
        refine ⟨(hlist.pre m hm).trans hme, fun h => ?_⟩
        rw [hexact h] at hm
        exact absurd hm not_mem_nil
    · obtain ⟨m, hm, hme⟩ := ihr e he
      exact ⟨m, mem_cons_of_mem _ hm, hme⟩

section

variable {p name u : Bytes} {ls list rs : List Queued} {inclusive : Option Location}

/-- Nothing after a node counts for a URI that comes before it or is its name. -/
theorem NodeOf.unrelated_after (h : NodeOf p ls inclusive name list rs)
    (hu : name = u ∨ Precedes rank u name) : ∀ e ∈ entriesOf rs, Unrelated u e := by
  intro e he
  obtain ⟨m, hm, hme, -⟩ := h.right.entries_pre e he
  have hlt : Precedes rank u m.name := by
    rcases hu with rfl | hu
    · exact (h.after m hm).1
    · exact hu.trans (h.after m hm).1
  exact unrelated_of_not_pre fun hpre => hlt.not_pre (hme.trans hpre)

theorem NodeOf.list_pre (h : NodeOf p ls inclusive name list rs) :
    ∀ e ∈ entriesOf list, name <+: e.name ∧ e.name ≠ name := by
  intro e he
  obtain ⟨m, hm, hme, -⟩ := h.nested.entries_pre e he
  refine ⟨(h.nested.pre m hm).trans hme, fun heq => ?_⟩
  exact (h.under m hm).not_pre (heq ▸ hme)

/-- Nothing in the list of a node counts for a URI that does not go on after its name. -/
theorem NodeOf.unrelated_list (h : NodeOf p ls inclusive name list rs)
    (hu : name = u ∨ ¬ name <+: u) : ∀ e ∈ entriesOf list, Unrelated u e := by
  intro e he
  obtain ⟨hpre, hne⟩ := h.list_pre e he
  refine unrelated_of_not_pre fun hpre' => ?_
  rcases hu with rfl | hu
  · exact hne (hpre'.eq_of_length_le hpre.length_le)
  · exact hu (hpre.trans hpre')

/-- Nothing before a node counts for a URI that comes after it or is its name. -/
theorem NodeOf.unrelated_before (h : NodeOf p ls inclusive name list rs)
    (hu : name = u ∨ Precedes rank name u) : ∀ e ∈ entriesOf ls, Unrelated u e := by
  intro e he
  obtain ⟨m, hm, hme, hown⟩ := h.left.entries_pre e he
  obtain ⟨hlt, hincl⟩ := h.before m hm
  by_cases hpre : m.name <+: u
  · have hname : m.name <+: name := by
      rcases hu with rfl | hu
      · exact hpre
      · exact hlt.prefix_between hu hpre
    have hnone : m.inclusive = none := by
      by_contra hsome
      exact hincl hsome hname
    obtain ⟨he1, he2⟩ := hown hnone
    refine ⟨fun _ heq => ?_, fun hsome => absurd he1 hsome⟩
    rw [he2] at heq
    rw [heq] at hlt
    rcases hu with rfl | hu
    · exact Precedes.irrefl _ hlt
    · exact hlt.asymm hu
  · exact unrelated_of_not_pre fun h => hpre (hme.trans h)

/-- Nothing after an inclusive node counts for a URI that begins with its name. -/
theorem NodeOf.unrelated_beside (h : NodeOf p ls inclusive name list rs) (hsome : inclusive ≠ none)
    (hu : name <+: u) : ∀ e ∈ entriesOf rs, Unrelated u e := by
  intro e he
  obtain ⟨m, hm, hme, -⟩ := h.right.entries_pre e he
  obtain ⟨hlt, hincl⟩ := h.after m hm
  refine unrelated_of_not_pre fun hpre => ?_
  rcases List.prefix_or_prefix_of_prefix hu (hme.trans hpre) with h1 | h1
  · exact hincl hsome h1
  · exact hlt.not_pre h1

end

/-! ## The search -/

/-- What the search is to find among entries, `found` being what it was before. -/
def Selected (es : List Entry) (u : Bytes) (found f : Found) : Prop :=
  (∀ e ∈ es, ∀ l, e.exact = some l → e.name = u → f = ⟨.ok, some l⟩)
    ∧ ((∀ e ∈ es, e.exact ≠ none → e.name ≠ u) →
      (f.rv = .done ∧ ∃ e ∈ es, redirects e.exact e.inclusive = true ∧ e.name = u ++ [SLASH])
      ∨ (∃ e ∈ es, ∃ l, e.inclusive = some l ∧ e.name <+: u
          ∧ (∀ e' ∈ es, e'.inclusive ≠ none → e'.name <+: u → e'.name.length ≤ e.name.length)
          ∧ f = ⟨.again, some l⟩)
      ∨ ((∀ e ∈ es, e.inclusive ≠ none → ¬ e.name <+: u) ∧ f = found))

/-- Entries that do not count may be added. -/
theorem Selected.mono {es es' : List Entry} {u : Bytes} {found f : Found}
    (h : Selected es u found f) (hsub : ∀ e ∈ es, e ∈ es')
    (hrest : ∀ e ∈ es', e ∈ es ∨ Unrelated u e) : Selected es' u found f := by
  obtain ⟨h1, h2⟩ := h
  refine ⟨fun e he l hl hname => ?_, fun hno => ?_⟩
  · rcases hrest e he with he' | he'
    · exact h1 e he' l hl hname
    · exact absurd hname (he'.1 (hl ▸ Option.some_ne_none l))
  · rcases h2 fun e he => hno e (hsub e he) with
      ⟨hdone, e, he, hred⟩ | ⟨e, he, l, hl, hpre, hmax, hf⟩ | ⟨hnone, hf⟩
    · exact .inl ⟨hdone, e, hsub e he, hred⟩
    · refine .inr (.inl ⟨e, hsub e he, l, hl, hpre, fun e' he' hsome hpre' => ?_, hf⟩)
      rcases hrest e' he' with h | h
      · exact hmax e' h hsome hpre'
      · exact absurd hpre' (h.2 hsome)
    · refine .inr (.inr ⟨fun e he hsome => ?_, hf⟩)
      rcases hrest e he with h | h
      · exact hnone e h hsome
      · exact h.2 hsome

/-- An inclusive entry that is matched stands behind those in its list. -/
theorem Selected.cons {es : List Entry} {u name : Bytes} {l : Location} {f : Found}
    (h : Selected es u ⟨.again, some l⟩ f) (hu : name <+: u) (hne : name ≠ u)
    (hes : ∀ e ∈ es, name <+: e.name) (exact : Option Location) (found : Found) :
    Selected (⟨exact, some l, name⟩ :: es) u found f := by
  obtain ⟨h1, h2⟩ := h
  refine ⟨fun e he l' hl hname => ?_, fun hno => ?_⟩
  · rcases mem_cons.1 he with rfl | he
    · exact absurd hname hne
    · exact h1 e he l' hl hname
  · rcases h2 fun e he => hno e (mem_cons_of_mem _ he) with
      ⟨hdone, e, he, hred⟩ | ⟨e, he, l', hl, hpre, hmax, hf⟩ | ⟨hnone, hf⟩
    · exact .inl ⟨hdone, e, mem_cons_of_mem _ he, hred⟩
    · refine .inr (.inl ⟨e, mem_cons_of_mem _ he, l', hl, hpre, fun e' he' hsome hpre' => ?_,
        hf⟩)
      rcases mem_cons.1 he' with rfl | he'
      · exact (hes e he).length_le
      · exact hmax e' he' hsome hpre'
    · refine .inr (.inl ⟨_, mem_cons_self, l, rfl, hu, fun e' he' hsome hpre' => ?_, hf⟩)
      rcases mem_cons.1 he' with rfl | he'
      · exact le_rfl
      · exact absurd hpre' (hnone e' he' hsome)

/-- A name of at most 255 bytes more than what is left out, in all of a queue. -/
inductive Fits : ℕ → List Queued → Prop
  | nil (plen : ℕ) : Fits plen []
  | cons {plen : ℕ} {exact inclusive : Option Location} {name : Bytes}
      {list rest : List Queued} (h : name.length ≤ plen + 255) (hlist : Fits name.length list)
      (hrest : Fits plen rest) : Fits plen (.mk exact inclusive name list :: rest)

theorem Fits.node {plen : ℕ} {ls list rs : List Queued} {exact inclusive : Option Location}
    {name : Bytes} (h : Fits plen (ls ++ .mk exact inclusive name list :: rs)) :
    Fits plen ls ∧ name.length ≤ plen + 255 ∧ Fits name.length list ∧ Fits plen rs := by
  induction ls with
  | nil =>
    cases h with
    | cons h hlist hrest => exact ⟨.nil _, h, hlist, hrest⟩
  | cons q ls ih =>
    cases h with
    | cons h hlist hrest =>
      obtain ⟨h1, h2, h3, h4⟩ := ih hrest
      exact ⟨.cons h hlist h1, h2, h3, h4⟩

/-- A node redirects only where its name ends with a slash. -/
theorem Entry.Good.slash {e : Entry} (h : e.Good)
    (hred : redirects e.exact e.inclusive = true) : e.name.getLast? = some SLASH := by
  rw [redirects, Bool.or_eq_true, Option.any_eq_true, Option.any_eq_true] at hred
  rcases hred with ⟨l, hl, hred⟩ | ⟨l, hl, hred⟩
  · exact (h.exact l hl).2 ▸ l.slash hred
  · exact (h.inclusive l hl).2 ▸ l.slash hred

section

variable {ls list rs : List Queued} {exact inclusive : Option Location} {name : Bytes}
  {e : Entry}

theorem mem_entriesOf_node : e ∈ entriesOf (ls ++ .mk exact inclusive name list :: rs)
    ↔ e ∈ entriesOf ls ∨ e = ⟨exact, inclusive, name⟩ ∨ e ∈ entriesOf list ∨ e ∈ entriesOf rs := by
  rw [entriesOf_append, entriesOf, Queued.entries]
  simp only [List.mem_append, mem_cons, or_assoc]

theorem mem_entriesOf_left (he : e ∈ entriesOf ls) :
    e ∈ entriesOf (ls ++ .mk exact inclusive name list :: rs) :=
  mem_entriesOf_node.2 (.inl he)

theorem mem_entriesOf_self : (⟨exact, inclusive, name⟩ : Entry)
    ∈ entriesOf (ls ++ .mk exact inclusive name list :: rs) :=
  mem_entriesOf_node.2 (.inr (.inl rfl))

theorem mem_entriesOf_list (he : e ∈ entriesOf list) :
    e ∈ entriesOf (ls ++ .mk exact inclusive name list :: rs) :=
  mem_entriesOf_node.2 (.inr (.inr (.inl he)))

theorem mem_entriesOf_right (he : e ∈ entriesOf rs) :
    e ∈ entriesOf (ls ++ .mk exact inclusive name list :: rs) :=
  mem_entriesOf_node.2 (.inr (.inr (.inr he)))

end

/-- **Where all names fit the search selects what it should.** -/
theorem findLoop_spec {plen : ℕ} {qs : List Queued} {t : Tree} (hb : Built plen qs t) :
    ∀ (p v : Bytes) (found : Found), p.length = plen → Forest p qs →
      (∀ e ∈ entriesOf qs, e.Good) → Fits plen qs →
      Selected (entriesOf qs) (p ++ v) found (findLoop t v found) := by
  induction hb with
  | null plen =>
    intro p v found _ _ _ _
    exact ⟨fun e he => absurd he not_mem_nil,
      fun _ => .inr (.inr ⟨fun e he => absurd he not_mem_nil, rfl⟩)⟩
  | @node plen ls rs list left right tree exact inclusive name hleft hright htree ihl ihr iht =>
    intro p v found hplen hforest hgood hfits
    have hnode := hforest.node
    obtain ⟨hfl, hfn, hft, hfr⟩ := hfits.node
    have hgoodq := hgood _ mem_entriesOf_self
    have hgoodl : ∀ e ∈ entriesOf ls, e.Good := fun e he => hgood e (mem_entriesOf_left he)
    have hgoodt : ∀ e ∈ entriesOf list, e.Good := fun e he => hgood e (mem_entriesOf_list he)
    have hgoodr : ∀ e ∈ entriesOf rs, e.Good := fun e he => hgood e (mem_entriesOf_right he)
    subst hplen
    have hstep := findLoop_node hnode.pre hgoodq.nulFree hfn left right tree exact inclusive
      (redirects exact inclusive) v found _ rfl
    generalize findLoop (.node left right tree exact inclusive (redirects exact inclusive)
      (uchar (name.length - p.length)) (name.drop p.length)) v found = f at hstep ⊢
    cases hstep with
    | left h hf =>
      rw [hf]
      refine (ihl p v found rfl hnode.left hgoodl hfl).mono (fun e he => mem_entriesOf_left he)
        fun e he => ?_
      have hlt : Precedes rank (p ++ v) name := .inr h
      rcases mem_entriesOf_node.1 he with he | rfl | he | he
      · exact .inl he
      · exact .inr (unrelated_of_not_pre h.not_pre')
      · exact .inr (hnode.unrelated_list (.inr h.not_pre') e he)
      · exact .inr (hnode.unrelated_after (.inr hlt) e he)
    | right h hf =>
      rw [hf]
      refine (ihr p v found rfl hnode.right hgoodr hfr).mono (fun e he => mem_entriesOf_right he)
        fun e he => ?_
      have hlt : Precedes rank name (p ++ v) := .inr h
      rcases mem_entriesOf_node.1 he with he | rfl | he | he
      · exact .inr (hnode.unrelated_before (.inr hlt) e he)
      · exact .inr (unrelated_of_not_pre h.not_pre)
      · exact .inr (hnode.unrelated_list (.inr h.not_pre) e he)
      · exact .inl he
    | tree w l hw hu hl hf =>
      have hpre : name <+: p ++ v := hu ▸ List.prefix_append name w
      have hne : name ≠ p ++ v := by
        intro he
        rw [← he] at hu
        exact hw (List.append_right_eq_self.1 hu.symm)
      have hlt : Precedes rank name (p ++ v) := .inl ⟨hpre, hne⟩
      have hlist := iht name w ⟨.again, some l⟩ rfl hnode.nested hgoodt hft
      rw [← hu] at hlist
      have hq := hlist.cons hpre hne (fun e he => (hnode.list_pre e he).1) exact found
      rw [hf]
      subst hl
      refine hq.mono (fun e he => (mem_cons.1 he).elim
        (fun h => h ▸ mem_entriesOf_self) mem_entriesOf_list)
        fun e he => ?_
      rcases mem_entriesOf_node.1 he with he | rfl | he | he
      · exact .inr (hnode.unrelated_before (.inr hlt) e he)
      · exact .inl mem_cons_self
      · exact .inl (mem_cons_of_mem _ he)
      · exact .inr (hnode.unrelated_beside (Option.some_ne_none l) hpre e he)
    | exactOnly w hw hu hl hf =>
      have hpre : name <+: p ++ v := hu ▸ List.prefix_append name w
      have hne : name ≠ p ++ v := by
        intro he
        rw [← he] at hu
        exact hw (List.append_right_eq_self.1 hu.symm)
      have hlt : Precedes rank name (p ++ v) := .inl ⟨hpre, hne⟩
      rw [hf]
      refine (ihr p v found rfl hnode.right hgoodr hfr).mono (fun e he => mem_entriesOf_right he)
        fun e he => ?_
      rcases mem_entriesOf_node.1 he with he | rfl | he | he
      · exact .inr (hnode.unrelated_before (.inr hlt) e he)
      · exact .inr ⟨fun _ => hne, fun h => absurd hl h⟩
      · rw [hnode.exact hl] at he
        exact absurd he not_mem_nil
      · exact .inl he
    | exact l hu hl hf =>
      have hq : Selected [⟨exact, inclusive, name⟩] (p ++ v) found f := by
        refine ⟨fun e he l' hl' _ => ?_, fun hno => ?_⟩
        · rw [mem_singleton.1 he] at hl'
          rw [hf, ← hl, ← hl']
        · exact absurd hu.symm (hno _ mem_cons_self (hl ▸ Option.some_ne_none l))
      refine hq.mono (fun e he => mem_singleton.1 he ▸ mem_entriesOf_self) fun e he => ?_
      rcases mem_entriesOf_node.1 he with he | rfl | he | he
      · exact .inr (hnode.unrelated_before (.inl hu.symm) e he)
      · exact .inl mem_cons_self
      · exact .inr (hnode.unrelated_list (.inl hu.symm) e he)
      · exact .inr (hnode.unrelated_after (.inl hu.symm) e he)
    | inclusive hu hl hf =>
      have hsome : inclusive ≠ none := hgoodq.nonempty.resolve_left (not_not.2 hl)
      obtain ⟨l, hl'⟩ := Option.ne_none_iff_exists'.1 hsome
      have hq : Selected [⟨exact, inclusive, name⟩] (p ++ v) found f := by
        refine ⟨fun e he l' hl'' _ => ?_, fun hno => .inr (.inl ?_)⟩
        · rw [mem_singleton.1 he] at hl''
          exact absurd (hl.symm.trans hl'').symm (Option.some_ne_none l')
        · refine ⟨_, mem_cons_self, l, hl', hu ▸ prefix_refl _, fun e' he' _ _ => ?_,
            by rw [hf, hl']⟩
          rw [mem_singleton.1 he']
      refine hq.mono (fun e he => mem_singleton.1 he ▸ mem_entriesOf_self) fun e he => ?_
      rcases mem_entriesOf_node.1 he with he | rfl | he | he
      · exact .inr (hnode.unrelated_before (.inl hu.symm) e he)
      · exact .inl mem_cons_self
      · exact .inr (hnode.unrelated_list (.inl hu.symm) e he)
      · exact .inr (hnode.unrelated_after (.inl hu.symm) e he)
    | shorter w hw hu hf =>
      have hnot : ¬ name <+: p ++ v := by
        intro h
        have := h.length_le
        rw [hu, List.length_append] at this
        exact hw (List.eq_nil_of_length_eq_zero (by omega))
      have hlt : Precedes rank (p ++ v) name :=
        .inl ⟨hu ▸ List.prefix_append _ w, fun he => hnot (he ▸ prefix_refl _)⟩
      have hunrelated : ∀ e ∈ entriesOf (ls ++ .mk exact inclusive name list :: rs),
          e ∈ entriesOf ls ∨ Unrelated (p ++ v) e := by
        intro e he
        rcases mem_entriesOf_node.1 he with he | rfl | he | he
        · exact .inl he
        · exact .inr (unrelated_of_not_pre hnot)
        · exact .inr (hnode.unrelated_list (.inr hnot) e he)
        · exact .inr (hnode.unrelated_after (.inr hlt) e he)
      rw [hf]
      have hleft := (ihl p v (if w.length = 1 ∧ redirects exact inclusive = true then
        ⟨.done, if exact.isSome then exact else inclusive⟩ else found) rfl hnode.left hgoodl
        hfl).mono (fun e he => mem_entriesOf_left he) hunrelated
      refine ⟨hleft.1, fun hno => ?_⟩
      rcases hleft.2 hno with h | h | ⟨hnone, hsame⟩
      · exact .inl h
      · exact .inr (.inl h)
      · rw [hsame]
        by_cases hred : w.length = 1 ∧ redirects exact inclusive = true
        · -- the name goes on with the slash with which it ends
          rw [if_pos hred]
          refine .inl ⟨rfl, _, mem_entriesOf_self, hred.2, ?_⟩
          obtain ⟨c, rfl⟩ := List.length_eq_one_iff.1 hred.1
          have hslash := hgoodq.slash hred.2
          rw [hu, List.getLast?_append, List.getLast?_singleton] at hslash
          rw [hu, Option.some.inj hslash]
        · rw [if_neg hred]
          exact .inr (.inr ⟨hnone, rfl⟩)

end LocationTree
