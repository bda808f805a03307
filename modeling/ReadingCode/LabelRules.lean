/-
# Rules for paths of labels

A rule has a path, a list of labels, and a value.  It matches what begins with its path, and
what is its path if it says so.  A list of rules is searched label by label: those that begin
with the first label, as far as they stand together, are searched for the rest, and the rule
that ends there is the answer if they have none.

This finds the longest rule that matches if rules that begin alike stand together
(`search_best`); if they do not, some rule is not found (`exists_lost`).
-/
import Mathlib.Data.List.Nodup
import Mathlib.Data.List.TakeWhile
import Mathlib.Data.List.Infix

namespace LabelRules

open List Option

/-! ## Lists -/

section

variable {A : Type*} {q : A → Bool} {l : List A}

theorem takeWhile_eq_filter (h : ∀ b c, [b, c].Sublist l → q c = true → q b = true) :
    l.takeWhile q = l.filter q := by
  induction l with
  | nil => rfl
  | cons x l ih =>
    have ih' := ih fun b c hbc => h b c (hbc.cons x)
    by_cases hx : q x = true
    · rw [takeWhile_cons_of_pos hx, filter_cons_of_pos hx, ih']
    · rw [takeWhile_cons_of_neg hx, filter_cons_of_neg hx, eq_comm, filter_eq_nil_iff]
      intro c hc hqc
      exact hx (h x c ((singleton_sublist.2 hc).cons_cons x) hqc)

/-- What stands together is found by going to its beginning. -/
theorem takeWhile_dropWhile_eq_filter
    (h : ∀ a b c, [a, b, c].Sublist l → q a = true → q c = true → q b = true) :
    (l.dropWhile fun x => !q x).takeWhile q = l.filter q := by
  induction l with
  | nil => rfl
  | cons x l ih =>
    by_cases hx : q x = true
    · rw [dropWhile_cons_of_neg (by simp [hx]), takeWhile_cons_of_pos hx, filter_cons_of_pos hx,
        takeWhile_eq_filter fun b c hbc hc => h x b c (hbc.cons_cons x) hx hc]
    · rw [dropWhile_cons_of_pos (by simp [hx]), filter_cons_of_neg hx,
        ih fun a b c habc => h a b c (habc.cons x)]

theorem takeWhile_congr {q' : A → Bool} (h : ∀ x ∈ l, q x = q' x) :
    l.takeWhile q = l.takeWhile q' ∧ l.dropWhile q = l.dropWhile q' := by
  induction l with
  | nil => exact ⟨rfl, rfl⟩
  | cons x l ih =>
    have hx := h x mem_cons_self
    obtain ⟨h1, h2⟩ := ih fun y hy => h y (mem_cons_of_mem _ hy)
    rw [takeWhile_cons, takeWhile_cons, dropWhile_cons, dropWhile_cons, hx, h1, h2]
    exact ⟨rfl, rfl⟩

theorem sublist_of_notMem_left {a : A} {s p d : List A} (h : (a :: s).Sublist (p ++ d))
    (ha : a ∉ p) : (a :: s).Sublist d := by
  obtain ⟨x, y, hxy, hx, hy⟩ := sublist_append_iff.1 h
  rcases x with _ | ⟨b, x⟩
  · exact (nil_append y ▸ hxy) ▸ hy
  · rw [cons_append, List.cons.injEq] at hxy
    exact absurd (hxy.1 ▸ hx.subset mem_cons_self) ha

theorem sublist_of_notMem_right {c : A} {s p d : List A} (h : (s ++ [c]).Sublist (p ++ d))
    (hc : c ∉ d) : (s ++ [c]).Sublist p := by
  have h' := h.reverse
  rw [reverse_append, reverse_append] at h'
  have hp := sublist_of_notMem_left h' (by rwa [mem_reverse])
  have hp' := hp.reverse
  simpa using hp'

/-- What is found so begins with the first and goes on without a gap. -/
theorem sublist_takeWhile_dropWhile {a b c : A} (h : [a, b, c].Sublist l) (hnodup : l.Nodup)
    (ha : q a = true) (hc : c ∈ (l.dropWhile fun x => !q x).takeWhile q) :
    [a, b, c].Sublist ((l.dropWhile fun x => !q x).takeWhile q) := by
  have hnodup' := hnodup.sublist (dropWhile_sublist fun x => !q x)
  rw [← takeWhile_append_dropWhile (p := fun x => !q x) (l := l)] at h
  have hd := sublist_of_notMem_left h fun hmem => by
    have := mem_takeWhile_imp hmem
    rw [ha] at this
    cases this
  generalize l.dropWhile (fun x => !q x) = d at hd hnodup' hc ⊢
  rw [← takeWhile_append_dropWhile (p := q) (l := d)] at hd hnodup'
  have hcd := (disjoint_of_nodup_append hnodup') hc
  exact sublist_of_notMem_right (s := [a, b]) hd hcd

end

/-! ## Rules -/

/-- A rule; `only` says something of where it matches, which is up to the search. -/
structure Rule (α V : Type*) where
  path : List α
  only : Bool
  value : V

section

variable {α V : Type*}

/-- A rule without its first label. -/
def Rule.tail (r : Rule α V) : Rule α V := { r with path := r.path.tail }

/-- What rules with the same first label ask for after it. -/
def below (run : List (Rule α V)) : List (Rule α V) :=
  (run.map Rule.tail).filter fun r => !r.path.isEmpty

/-- The rule that ends with its first label. -/
def own (run : List (Rule α V)) : Option (Rule α V) := run.find? fun r => r.path.tail.isEmpty

/-- Between rules that begin alike are only rules that begin so too. -/
def Adjacent (rules : List (Rule α V)) : Prop :=
  ∀ a b c, [a, b, c].Sublist rules → ∀ p : List α, p <+: a.path → p <+: c.path → p <+: b.path

/-- A rule matches what begins with its path, and its path itself if `last` says so. -/
def Matches (last : Bool → Bool) (r : Rule α V) (labels : List α) : Prop :=
  r.path <+: labels ∧ (r.path = labels → last r.only = true)

/-- The value of the longest rule that matches. -/
def Best (last : Bool → Bool) (rules : List (Rule α V)) (labels : List α) (v : Option V) : Prop :=
  (∃ r ∈ rules, Matches last r labels
      ∧ (∀ r' ∈ rules, Matches last r' labels → r'.path.length ≤ r.path.length)
      ∧ v = some r.value)
    ∨ ((∀ r ∈ rules, ¬ Matches last r labels) ∧ v = none)

theorem mem_below {run : List (Rule α V)} {r : Rule α V} :
    r ∈ below run ↔ r.path ≠ [] ∧ ∃ r' ∈ run, r'.tail = r := by
  simp [below, and_comm]

/-- A part of the rules below some is what is below a part of them. -/
theorem sublist_below {run s : List (Rule α V)} (h : s.Sublist (below run)) :
    ∃ s' : List (Rule α V), s'.Sublist run ∧ s'.map Rule.tail = s := by
  have hmap := h.trans filter_sublist
  obtain ⟨s', hs', rfl⟩ := sublist_map_iff.1 hmap
  exact ⟨s', hs', rfl⟩

end

/-! ## Searching -/

section

variable {α V : Type*} [DecidableEq α]

/-- Whether a rule begins with a label. -/
def Rule.headIs (h : α) (r : Rule α V) : Bool := decide (r.path.head? = some h)

/-- The first rules with a label that stand together. -/
def firstRun (h : α) (rules : List (Rule α V)) : List (Rule α V) :=
  (rules.dropWhile fun r => !r.headIs h).takeWhile (·.headIs h)

/-- The value that is found label by label. -/
def search (last : Bool → Bool) : List α → List (Rule α V) → Option V
  | [], _ => none
  | h :: t, rules =>
    let run := firstRun h rules
    (search last t (below run)).or
      ((own run).bind fun r => if t ≠ [] ∨ last r.only then some r.value else none)

variable {r : Rule α V} {h : α}

theorem headIs_iff : r.headIs h = true ↔ r.path = h :: r.tail.path := by
  rw [Rule.headIs, Rule.tail]
  rcases r.path with _ | ⟨x, t⟩
  · simp
  · simp [eq_comm]

theorem headIs_iff_pre : r.headIs h = true ↔ [h] <+: r.path := by
  rw [Rule.headIs]
  rcases r.path with _ | ⟨x, t⟩
  · simp
  · simp [eq_comm]

variable {last : Bool → Bool}

theorem matches_cons (hr : r.headIs h = true)
    (t : List α) : Matches last r (h :: t) ↔ Matches last r.tail t := by
  unfold Matches
  rw [headIs_iff.1 hr]
  simp [Rule.tail]

variable {t : List α}

theorem headIs_of_matches
    (hr : Matches last r (h :: t)) (hne : r.path ≠ []) : r.headIs h = true := by
  obtain ⟨x, p, hp⟩ := exists_cons_of_ne_nil hne
  have hpre := hr.1
  rw [hp, cons_prefix_cons] at hpre
  rw [headIs_iff_pre, hp, hpre.1, cons_prefix_cons]
  exact ⟨rfl, nil_prefix⟩

variable {rules : List (Rule α V)}

theorem Adjacent.firstRun_eq (hadj : Adjacent rules) (h : α) :
    firstRun h rules = rules.filter (·.headIs h) := by
  refine takeWhile_dropWhile_eq_filter fun a b c habc ha hc => ?_
  rw [headIs_iff_pre] at *
  exact hadj a b c habc [h] ha hc

theorem Adjacent.below (hadj : Adjacent rules) (h : α) :
    Adjacent (below (rules.filter (·.headIs h))) := by
  intro a b c habc p hpa hpc
  obtain ⟨s, hs, hmap⟩ := sublist_below habc
  obtain ⟨a', s1, rfl, rfl, h1⟩ := map_eq_cons_iff.1 hmap
  obtain ⟨b', s2, rfl, rfl, h2⟩ := map_eq_cons_iff.1 h1
  obtain ⟨c', s3, rfl, rfl, h3⟩ := map_eq_cons_iff.1 h2
  rw [map_eq_nil_iff] at h3
  subst h3
  have hhead : ∀ r ∈ [a', b', c'], r.path = h :: r.tail.path := fun r hr =>
    headIs_iff.1 (mem_filter.1 (hs.subset hr)).2
  have ha := hhead a' (by simp)
  have hb := hhead b' (by simp)
  have hc := hhead c' (by simp)
  have hp := hadj a' b' c' (hs.trans filter_sublist) (h :: p)
    (by rw [ha, cons_prefix_cons]; exact ⟨rfl, hpa⟩)
    (by rw [hc, cons_prefix_cons]; exact ⟨rfl, hpc⟩)
  rw [hb, cons_prefix_cons] at hp
  exact hp.2

variable {run : List (Rule α V)}

theorem nodup_below (hrun : ∀ r ∈ run, r.headIs h = true)
    (hnodup : (run.map Rule.path).Nodup) : ((below run).map Rule.path).Nodup := by
  have htail : (run.map fun r => r.tail.path).Nodup := by
    refine List.Nodup.of_map (h :: ·) ?_
    rw [List.map_map]
    refine (map_congr_left fun r hr => ?_) ▸ hnodup
    exact headIs_iff.1 (hrun r hr)
  have hsub : ((below run).map Rule.path).Sublist (run.map fun r => r.tail.path) := by
    have hmap : run.map (fun r => r.tail.path) = (run.map Rule.tail).map Rule.path := by
      rw [List.map_map]
      rfl
    rw [hmap]
    exact filter_sublist.map _
  exact htail.sublist hsub

/-- A rule that matches ends with its first label, or asks for more below it. -/
theorem cases_of_matches (hr : r ∈ rules) (hne : r.path ≠ []) (hm : Matches last r (h :: t)) :
    r ∈ rules.filter (·.headIs h) ∧ (r.path = [h]
      ∨ (r.tail ∈ LabelRules.below (rules.filter (·.headIs h)) ∧ Matches last r.tail t)) := by
  have hhead := headIs_of_matches hm hne
  have hrun := mem_filter.2 ⟨hr, hhead⟩
  refine ⟨hrun, ?_⟩
  by_cases htail : r.tail.path = []
  · left
    rw [headIs_iff.1 hhead, htail]
  · exact .inr ⟨mem_below.2 ⟨htail, r, hrun, rfl⟩, (matches_cons hhead t).1 hm⟩

theorem path_of_own (hr : own (rules.filter (·.headIs h)) = some r) : r ∈ rules ∧ r.path = [h] := by
  have hmem := mem_filter.1 (mem_of_find?_eq_some hr)
  have htail := find?_some hr
  refine ⟨hmem.1, ?_⟩
  rw [headIs_iff.1 hmem.2, Rule.tail, isEmpty_iff.1 htail]

/-- **The search finds the longest rule that matches.** -/
theorem search_best (last : Bool → Bool) (hadj : Adjacent rules)
    (hnodup : (rules.map Rule.path).Nodup) (hne : ∀ r ∈ rules, r.path ≠ []) (labels : List α) :
    Best last rules labels (search last labels rules) := by
  induction labels generalizing rules with
  | nil =>
    refine .inr ⟨fun r hr hm => hne r hr ?_, rfl⟩
    exact prefix_nil.1 hm.1
  | cons h t ih =>
    have hrun : ∀ r ∈ rules.filter (·.headIs h), r.headIs h = true := fun r hr =>
      (mem_filter.1 hr).2
    have hbest := ih (hadj.below h) (nodup_below hrun (hnodup.sublist (filter_sublist.map _)))
      fun r hr => (mem_below.1 hr).1
    rw [search, hadj.firstRun_eq h]
    rcases hbest with ⟨r, hr, hm, hmax, hv⟩ | ⟨hno, hv⟩
    · -- a rule below is longer than the one that ends here
      rw [hv]
      obtain ⟨-, r, hmem, rfl⟩ := mem_below.1 hr
      refine .inl ⟨r, (mem_filter.1 hmem).1, (matches_cons (hrun r hmem) t).2 hm,
        fun r' hr' hm' => ?_, rfl⟩
      rcases (cases_of_matches hr' (hne r' hr') hm').2 with hpath | ⟨hbelow, hmb⟩
      · rw [hpath, headIs_iff.1 (hrun r hmem), length_singleton, length_cons]
        omega
      · have hle := hmax _ hbelow hmb
        rw [headIs_iff.1 (hrun r hmem), headIs_iff.1 (headIs_of_matches hm' (hne r' hr')),
          length_cons, length_cons]
        omega
    · rw [hv]
      -- what matches ends here
      have hends : ∀ r ∈ rules, Matches last r (h :: t) → r.path = [h] := by
        intro r hr hm
        rcases (cases_of_matches hr (hne r hr) hm).2 with hpath | ⟨hbelow, hmb⟩
        · exact hpath
        · exact absurd hmb (hno _ hbelow)
      rcases hown : own (rules.filter (·.headIs h)) with _ | r
      · refine .inr ⟨fun r hr hm => ?_, rfl⟩
        have hmem := (cases_of_matches hr (hne r hr) hm).1
        have := find?_eq_none.1 hown r hmem
        rw [hends r hr hm] at this
        exact this rfl
      · obtain ⟨hr, hpath⟩ := path_of_own hown
        rw [bind_some]
        by_cases hlast : t ≠ [] ∨ last r.only = true
        · rw [if_pos hlast]
          refine .inl ⟨r, hr, ⟨?_, fun he => ?_⟩, fun r' hr' hm' => ?_, rfl⟩
          · rw [hpath, cons_prefix_cons]
            exact ⟨rfl, nil_prefix⟩
          · rw [hpath, List.cons.injEq] at he
            exact hlast.resolve_left (not_not.2 he.2.symm)
          · rw [hends r' hr' hm', hpath]
        · rw [if_neg hlast]
          rw [not_or, not_not] at hlast
          refine .inr ⟨fun r' hr' hm' => hlast.2 ?_, rfl⟩
          have hpath' := hends r' hr' hm'
          rw [inj_on_of_nodup_map hnodup hr hr' (hpath.trans hpath'.symm)]
          refine hm'.2 ?_
          rw [hpath', hlast.1]

/-! ## What a run has -/

theorem firstRun_sublist (h : α) (rules : List (Rule α V)) : (firstRun h rules).Sublist rules :=
  (takeWhile_sublist _).trans (dropWhile_sublist _)

theorem headIs_of_firstRun (hr : r ∈ firstRun h rules) : r.headIs h = true := by
  have hmem := mem_takeWhile_imp hr
  exact hmem

/-- A value that is found is that of a rule of the first run. -/
theorem exists_of_search {v : V} (hv : search last (h :: t) rules = some v) :
    ∃ r ∈ firstRun h rules, r.value = v := by
  induction t generalizing h rules with
  | nil =>
    obtain ⟨r, hr, hrv⟩ := bind_eq_some_iff.1 hv
    refine ⟨r, mem_of_find?_eq_some hr, ?_⟩
    rw [ite_none_right_eq_some] at hrv
    exact Option.some.inj hrv.2
  | cons h' t ih =>
    rw [search, or_eq_some_iff] at hv
    rcases hv with hv | ⟨-, hv⟩
    · obtain ⟨r, hr, hrv⟩ := ih hv
      obtain ⟨-, r, hmem, rfl⟩ := mem_below.1 ((firstRun_sublist _ _).subset hr)
      exact ⟨r, hmem, hrv⟩
    · obtain ⟨r, hr, hrv⟩ := bind_eq_some_iff.1 hv
      refine ⟨r, mem_of_find?_eq_some hr, ?_⟩
      rw [ite_none_right_eq_some] at hrv
      exact Option.some.inj hrv.2

/-- Rules of which none is a prefix of an earlier one. -/
def PrefixesFirst (rules : List (Rule α V)) : Prop :=
  rules.Pairwise fun a b => ¬ b.path <+: a.path

omit [DecidableEq α] in
theorem PrefixesFirst.nodup (h : PrefixesFirst rules) : (rules.map Rule.path).Nodup := by
  refine pairwise_map.2 (h.imp fun hab he => hab ?_)
  exact he ▸ prefix_refl _

theorem PrefixesFirst.below (hpre : PrefixesFirst run)
    (hrun : ∀ r ∈ run, r.headIs h = true) : PrefixesFirst (below run) := by
  refine List.Pairwise.filter _ (pairwise_map.2 ?_)
  refine hpre.imp_of_mem fun {a b} ha hb hab hpre' => hab ?_
  rw [headIs_iff.1 (hrun a ha), headIs_iff.1 (hrun b hb), cons_prefix_cons]
  exact ⟨rfl, hpre'⟩

/-! ## All runs -/

/-- Whether rules begin with the same label. -/
def sameHead (r r' : Rule α V) : Bool := decide (r'.path.head? = r.path.head?)

/-- The runs of rules, of which there are no more than `fuel`. -/
def runs : ℕ → List (Rule α V) → List (List (Rule α V))
  | 0, _ => []
  | _, [] => []
  | fuel + 1, r :: rules =>
    (r :: rules.takeWhile (sameHead r)) :: runs fuel (rules.dropWhile (sameHead r))

theorem sameHead_eq (hr : r.headIs h = true) : sameHead r = fun r' => r'.headIs h := by
  funext r'
  rw [Rule.headIs, decide_eq_true_iff] at hr
  rw [sameHead, Rule.headIs, hr]

theorem sameHead_of_not {r' : Rule α V} (hr : r.headIs h = false)
    (hr' : sameHead r r' = true) : r'.headIs h = false := by
  rw [sameHead, decide_eq_true_iff] at hr'
  rw [Rule.headIs] at hr ⊢
  rw [hr', hr]

/-- A run has rules with the same first label, in their order. -/
theorem mem_runs {fuel : ℕ} (hrun : run ∈ runs fuel rules) :
    run.Sublist rules ∧ ∃ r others, run = r :: others ∧ ∀ o ∈ others, sameHead r o = true := by
  induction fuel generalizing rules with
  | zero => exact absurd hrun not_mem_nil
  | succ fuel ih =>
    rcases rules with _ | ⟨r, rules⟩
    · exact absurd hrun not_mem_nil
    · rcases mem_cons.1 hrun with rfl | hrun
      · exact ⟨(takeWhile_sublist _).cons_cons r, r, _, rfl,
          fun o ho => mem_takeWhile_imp ho⟩
      · obtain ⟨hsub, h⟩ := ih hrun
        exact ⟨(hsub.trans (dropWhile_sublist _)).cons r, h⟩

/-- The first run with a label is the first of the runs with it. -/
theorem find_runs (fuel : ℕ) (h : α) (rules : List (Rule α V)) (hlen : rules.length ≤ fuel) :
    (runs fuel rules).find? (fun run => run.any (·.headIs h))
      = if (firstRun h rules).isEmpty then none else some (firstRun h rules) := by
  induction fuel generalizing rules with
  | zero =>
    rw [eq_nil_of_length_eq_zero (Nat.le_zero.1 hlen)]
    rfl
  | succ fuel ih =>
    rcases rules with _ | ⟨r, rules⟩
    · rfl
    · rw [runs, find?_cons]
      rcases hr : r.headIs h with _ | _
      · -- the run of `r` is passed over
        have hnone : (r :: rules.takeWhile (sameHead r)).any (·.headIs h) = false := by
          rw [any_cons, hr, Bool.false_or, List.any_eq_false]
          intro r' hr'
          rw [sameHead_of_not hr (mem_takeWhile_imp hr')]
          exact Bool.false_ne_true
        have hdrop : firstRun h (r :: rules) = firstRun h (rules.dropWhile (sameHead r)) := by
          rw [firstRun, dropWhile_cons_of_pos (by simp [hr])]
          congr 1
          conv_lhs => rw [← takeWhile_append_dropWhile (p := sameHead r) (l := rules)]
          rw [dropWhile_append_of_pos]
          intro r' hr'
          rw [sameHead_of_not hr (mem_takeWhile_imp hr')]
          rfl
        rw [hnone, hdrop]
        refine ih _ ?_
        have := (dropWhile_sublist (sameHead r) (l := rules)).length_le
        rw [length_cons] at hlen
        omega
      · have hrun : firstRun h (r :: rules) = r :: rules.takeWhile (sameHead r) := by
          rw [firstRun, dropWhile_cons_of_neg (by simp [hr]),
            takeWhile_cons_of_pos hr, sameHead_eq hr]
        rw [hrun, any_cons, hr]
        rfl

/-! ## Rules that do not stand together -/

/-- **If rules that begin alike do not stand together, some rule is not found** with a label
more than its path, whatever the label is, where the values tell the rules apart. -/
theorem exists_lost (last : Bool → Bool) (hnot : ¬ Adjacent rules)
    (hpre : PrefixesFirst rules) (hvalues : (rules.map Rule.value).Nodup) :
    ∃ r ∈ rules, ∀ x, search last (r.path ++ [x]) rules ≠ some r.value := by
  simp only [Adjacent, not_forall] at hnot
  obtain ⟨a, b, c, habc, p, hpa, hpc, hpb⟩ := hnot
  induction p generalizing rules a b c with
  | nil => exact absurd nil_prefix hpb
  | cons h p ih =>
    have hhead : ∀ r : Rule α V, h :: p <+: r.path → r.headIs h = true := fun r hr =>
      headIs_iff_pre.2 ((cons_prefix_cons.2 ⟨rfl, nil_prefix⟩).trans hr)
    have hnodup := List.Nodup.of_map _ hvalues
    by_cases hc : c ∈ firstRun h rules
    · have habc' := sublist_takeWhile_dropWhile habc hnodup (hhead a hpa) hc
      have hsub := firstRun_sublist h rules
      have hrun : ∀ r ∈ firstRun h rules, r.headIs h = true := fun r hr => headIs_of_firstRun hr
      have hpath : ∀ r ∈ [a, b, c], r.path = h :: r.tail.path := fun r hr =>
        headIs_iff.1 (hrun r (habc'.subset hr))
      have ha := hpath a (by simp)
      have hb := hpath b (by simp)
      have hc' := hpath c (by simp)
      rw [ha, cons_prefix_cons] at hpa
      rw [hc', cons_prefix_cons] at hpc
      rw [hb, cons_prefix_cons, not_and] at hpb
      have hp : p ≠ [] := by
        rintro rfl
        exact hpb rfl nil_prefix
      -- the rule between does not end here, or it would stand before the first
      have hbne : b.tail.path ≠ [] := by
        intro hnil
        have hab := rel_of_pairwise_cons (hpre.sublist habc) (by simp : b ∈ [b, c])
        rw [ha, hb, hnil, cons_prefix_cons] at hab
        exact hab ⟨rfl, nil_prefix⟩
      have hane : a.tail.path ≠ [] := fun hnil => hp (prefix_nil.1 (hnil ▸ hpa.2))
      have hcne : c.tail.path ≠ [] := fun hnil => hp (prefix_nil.1 (hnil ▸ hpc.2))
      have hsub' : [a.tail, b.tail, c.tail].Sublist (below (firstRun h rules)) := by
        have hfilter : (([a, b, c].map Rule.tail).filter fun r => !r.path.isEmpty).Sublist
            (LabelRules.below (firstRun h rules)) := (habc'.map Rule.tail).filter _
        simpa [hane, hbne, hcne] using hfilter
      have hbelow : ((below (firstRun h rules)).map Rule.value).Nodup := by
        have hmap : (firstRun h rules).map Rule.value
            = ((firstRun h rules).map Rule.tail).map Rule.value := by
          rw [List.map_map]
          rfl
        refine List.Nodup.sublist (filter_sublist.map _) ?_
        rw [← hmap]
        exact hvalues.sublist (hsub.map _)
      obtain ⟨r, hr, hlost⟩ :=
        ih (PrefixesFirst.below (hpre.sublist hsub) hrun) hbelow _ _ _ hsub' hpa.2 hpc.2 (hpb rfl)
      obtain ⟨hrne, r, hmem, rfl⟩ := mem_below.1 hr
      refine ⟨r, hsub.subset hmem, fun x hx => ?_⟩
      rw [headIs_iff.1 (hrun r hmem), cons_append, search, or_eq_some_iff] at hx
      rcases hx with hx | ⟨-, hx⟩
      · exact hlost x hx
      · obtain ⟨o, ho, hov⟩ := bind_eq_some_iff.1 hx
        rw [ite_none_right_eq_some] at hov
        have hown := mem_of_find?_eq_some ho
        have heq := inj_on_of_nodup_map hvalues (hsub.subset hown) (hsub.subset hmem)
          (Option.some.inj hov.2)
        have hnil := find?_some ho
        rw [heq] at hnil
        exact hrne (isEmpty_iff.1 hnil)
    · refine ⟨c, habc.subset (by simp), fun x hx => hc ?_⟩
      rw [headIs_iff.1 (hhead c hpc)] at hx
      obtain ⟨r, hr, hrv⟩ := exists_of_search hx
      rwa [← inj_on_of_nodup_map hvalues ((firstRun_sublist h rules).subset hr)
        (habc.subset (by simp)) hrv]

end

end LabelRules
