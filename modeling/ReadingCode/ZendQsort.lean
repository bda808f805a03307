/-
# The partition of `zend_sort`

The two searches of the partition meet before they leave the part of the array, whatever the
comparison answers: the elements before `i` and those from `j` on have been compared with the pivot,
and `i` is below `j`.
-/
import ReadingCode.ZendSort

open ArrayProgram

namespace ZendSort

open List

variable {σ α : Type} {S : Setting σ α} {le : α → α → Prop} {m m' : Memory σ α} {c c' : ℤ → α}
  {i j k pivot start stop : ℤ} {fuel bound : ℕ}

/-! ## The partition -/

/-- What `while (cmp(pivot, i) > 0)` passes is not above the pivot. -/
structure ScannedUp (S : Setting σ α) (le : α → α → Prop) (c : ℤ → α) (pivot i j : ℤ)
    (r : ℤ × Bool) : Prop where
  low : i ≤ r.1
  high : r.2 = false → r.1 < j
  done : r.2 = true → r.1 = j
  passed : S.Obeys le → ∀ x, i ≤ x → x < r.1 → le (c x) (c pivot)
  found : S.Obeys le → r.2 = false → le (c pivot) (c r.1)

theorem scanUp_spec (le : α → α → Prop) (hp : S.Inside pivot) (hi : 0 ≤ i) (hij : i < j)
    (hj : j < S.size) (hfuel : j - i < fuel) (s : σ) : Runs (scanUp S pivot j fuel i) ⟨s, c⟩
      fun r m' => m'.cells = c ∧ ScannedUp S le c pivot i j r := by
  induction fuel generalizing i s with
  | zero => omega
  | succ fuel ih =>
    apply Runs.branch le hp ⟨hi, by omega⟩
    · intro s hle
      by_cases hdone : i + 1 = j
      · rw [if_pos hdone]
        refine Runs.pure ⟨rfl, by omega, Bool.noConfusion, fun _ => hdone, ?_,
          fun _ => Bool.noConfusion⟩
        intro hobeys x hx hxi
        rw [show x = i by omega]
        exact hle hobeys
      · rw [if_neg hdone]
        refine (ih (by omega) (by omega) (by omega) s).mono fun r m' h => ⟨h.1, ?_⟩
        obtain ⟨-, h⟩ := h
        refine ⟨by have := h.low; omega, h.high, h.done, ?_, h.found⟩
        intro hobeys x hx hxr
        rcases lt_or_eq_of_le hx with hlt | rfl
        · exact h.passed hobeys x (by omega) hxr
        · exact hle hobeys
    · intro s hle
      exact Runs.pure ⟨rfl, le_rfl, fun _ => hij, Bool.noConfusion,
        fun _ x hx hxi => by omega, fun hobeys _ => hle hobeys⟩

/-- What `while (cmp(j, pivot) > 0)` passes is not below the pivot. -/
structure ScannedDown (S : Setting σ α) (le : α → α → Prop) (c : ℤ → α) (pivot i j : ℤ)
    (r : ℤ × Bool) : Prop where
  high : r.1 ≤ j
  low : r.2 = false → i < r.1
  done : r.2 = true → r.1 = i
  passed : S.Obeys le → ∀ x, r.1 < x → x ≤ j → le (c pivot) (c x)
  found : S.Obeys le → r.2 = false → le (c r.1) (c pivot)

theorem scanDown_spec (le : α → α → Prop) (hp : S.Inside pivot) (hi : 0 ≤ i) (hij : i < j)
    (hj : j < S.size) (hfuel : j - i < fuel) (s : σ) : Runs (scanDown S pivot i fuel j) ⟨s, c⟩
      fun r m' => m'.cells = c ∧ ScannedDown S le c pivot i j r := by
  induction fuel generalizing j s with
  | zero => omega
  | succ fuel ih =>
    apply Runs.branch le ⟨by omega, hj⟩ hp
    · intro s hle
      by_cases hdone : j - 1 = i
      · rw [if_pos hdone]
        refine Runs.pure ⟨rfl, by omega, Bool.noConfusion, fun _ => hdone, ?_,
          fun _ => Bool.noConfusion⟩
        intro hobeys x hx hxj
        rw [show x = j by omega]
        exact hle hobeys
      · rw [if_neg hdone]
        refine (ih (by omega) (by omega) (by omega) s).mono fun r m' h => ⟨h.1, ?_⟩
        obtain ⟨-, h⟩ := h
        refine ⟨by have := h.high; omega, h.low, h.done, ?_, h.found⟩
        intro hobeys x hx hxj
        rcases lt_or_eq_of_le hxj with hlt | rfl
        · exact h.passed hobeys x hx (by omega)
        · exact hle hobeys
    · intro s hle
      exact Runs.pure ⟨rfl, le_rfl, fun _ => hij, Bool.noConfusion,
        fun _ x hx hxj => by omega, fun hobeys _ => hle hobeys⟩

/-- The elements on both sides of the partition, as far as they have been looked at. -/
structure Parted (le : α → α → Prop) (c : ℤ → α) (pivot start stop i j : ℤ) : Prop where
  below : ∀ x, start ≤ x → x < i → le (c x) (c pivot)
  above : ∀ x, j ≤ x → x < stop → le (c pivot) (c x)

/-- What has been passed since goes to the side it was compared for. -/
theorem Parted.below_of (h : Parted le c pivot start stop i j)
    (hpassed : ∀ x, i ≤ x → x < k → le (c x) (c pivot)) :
    ∀ x, start ≤ x → x < k → le (c x) (c pivot) := by
  intro x hx hxk
  rcases lt_or_ge x i with hxi | hxi
  · exact h.below x hx hxi
  · exact hpassed x hxi hxk

theorem Parted.above_of (h : Parted le c pivot start stop i j)
    (hpassed : ∀ x, k < x → x < j → le (c pivot) (c x)) :
    ∀ x, k < x → x < stop → le (c pivot) (c x) := by
  intro x hx hxs
  rcases lt_or_ge x j with hxj | hxj
  · exact hpassed x hx hxj
  · exact h.above x hxj hxs

/-- Two elements on the wrong sides change places. -/
theorem parted_swap (hp : pivot < start) (hi : start ≤ i) (hij : i < j)
    (hbelow : ∀ x, start ≤ x → x < i → le (c x) (c pivot)) (hi' : le (c pivot) (c i))
    (hj' : le (c j) (c pivot)) (habove : ∀ x, j < x → x < stop → le (c pivot) (c x)) :
    Parted le (c ∘ Equiv.swap i j) pivot start stop (i + 1) j := by
  have hpivot : (c ∘ Equiv.swap i j) pivot = c pivot := comp_swap_of_ne c (by omega) (by omega)
  constructor
  · intro x hx hxi
    rw [hpivot]
    rcases lt_or_eq_of_le (Int.le_of_lt_add_one hxi) with hlt | rfl
    · rw [comp_swap_of_ne c (by omega) (by omega)]
      exact hbelow x hx hlt
    · rw [comp_swap_left]
      exact hj'
  · intro x hx hxs
    rw [hpivot]
    rcases lt_or_eq_of_le hx with hlt | rfl
    · rw [comp_swap_of_ne c (by omega) (by omega)]
      exact habove x hlt hxs
    · rw [comp_swap_right]
      exact hi'

/-- The partition ends with `i` between the two sides. -/
theorem partition_spec (le : α → α → Prop) (hp : 0 ≤ pivot) (hps : pivot < start) (hi : start ≤ i)
    (hij : i < j) (hj : j < stop) (hstop : stop ≤ S.size) (hfuel : j - i < fuel)
    (hbound : j - i < bound) (m : Memory σ α)
    (hparted : S.Obeys le → Parted le m.cells pivot start stop i j) :
    Runs (partition S bound pivot fuel i j) m fun r m' =>
      start ≤ r ∧ r < stop ∧ Permutes (Set.Ico start stop) m.cells m'.cells ∧
        (S.Obeys le → Parted le m'.cells pivot start stop r r) := by
  induction fuel generalizing i j m with
  | zero => omega
  | succ fuel ih =>
    have hpin : S.Inside pivot := ⟨hp, by omega⟩
    refine Runs.seq (scanUp_spec le hpin (by omega) hij (by omega) hbound m.state) ?_
    rintro up m1 ⟨hcells, hup⟩
    have hlow := hup.low
    have hbelow : S.Obeys le → ∀ x, start ≤ x → x < up.1 → le (m.cells x) (m.cells pivot) :=
      fun hobeys => (hparted hobeys).below_of (hup.passed hobeys)
    by_cases hdone : up.2 = true
    · rw [if_pos hdone]
      have heq := hup.done hdone
      refine Runs.pure ⟨by omega, by omega, by rw [hcells]; exact Permutes.refl _ _, ?_⟩
      intro hobeys
      rw [hcells, heq]
      refine ⟨?_, (hparted hobeys).above⟩
      rw [← heq]
      exact hbelow hobeys
    · rw [if_neg hdone]
      have hfalse : up.2 = false := Bool.eq_false_iff.mpr hdone
      have hhigh := hup.high hfalse
      have hfound : S.Obeys le → ∀ x, up.1 ≤ x → x ≤ up.1 → le (m.cells pivot) (m.cells x) := by
        intro hobeys x hx hxu
        rw [show x = up.1 by omega]
        exact hup.found hobeys hfalse
      by_cases hmeet : j - 1 = up.1
      · rw [if_pos hmeet]
        refine Runs.pure ⟨by omega, by omega, by rw [hcells]; exact Permutes.refl _ _, ?_⟩
        intro hobeys
        rw [hcells]
        refine ⟨hbelow hobeys, fun x hx hxs => ?_⟩
        rcases lt_or_ge x j with hxj | hxj
        · exact hfound hobeys x hx (by omega)
        · exact (hparted hobeys).above x hxj hxs
      · rw [if_neg hmeet]
        have hm1 : m1 = ⟨m1.state, m.cells⟩ := by rw [← hcells]
        rw [hm1]
        refine Runs.seq (scanDown_spec le hpin (by omega) (by omega) (by omega) (by omega)
          m1.state) ?_
        rintro down m2 ⟨hcells', hdown⟩
        have hhigh' := hdown.high
        have habove : S.Obeys le → ∀ x, down.1 < x → x < stop →
            le (m.cells pivot) (m.cells x) := fun hobeys =>
          (hparted hobeys).above_of fun x hx hxj => hdown.passed hobeys x hx (by omega)
        by_cases hdone' : down.2 = true
        · rw [if_pos hdone']
          have heq := hdown.done hdone'
          refine Runs.pure ⟨by omega, by omega, by rw [hcells']; exact Permutes.refl _ _, ?_⟩
          intro hobeys
          rw [hcells']
          refine ⟨hbelow hobeys, fun x hx hxs => ?_⟩
          rcases lt_or_ge up.1 x with hxu | hxu
          · exact habove hobeys x (by omega) hxs
          · exact hfound hobeys x hx hxu
        · rw [if_neg hdone']
          have hfalse' : down.2 = false := Bool.eq_false_iff.mpr hdone'
          have hlow' := hdown.low hfalse'
          have hm2 : m2 = ⟨m2.state, m.cells⟩ := by rw [← hcells']
          have hui : S.Inside up.1 := ⟨by omega, by omega⟩
          have hdi : S.Inside down.1 := ⟨by omega, by omega⟩
          rw [hm2]
          apply Runs.bind
          apply Runs.swap hui hdi
          have hper : Permutes (Set.Ico start stop) m.cells
              (m.cells ∘ Equiv.swap up.1 down.1) := by
            have humem : up.1 ∈ Set.Ico start stop := ⟨by omega, by omega⟩
            have hdmem : down.1 ∈ Set.Ico start stop := ⟨by omega, by omega⟩
            exact Permutes.swap humem hdmem
          have hparted' : S.Obeys le → Parted le (m.cells ∘ Equiv.swap up.1 down.1) pivot start
              stop (up.1 + 1) down.1 := fun hobeys =>
            parted_swap hps (by omega) hlow' (hbelow hobeys) (hup.found hobeys hfalse)
              (hdown.found hobeys hfalse') (habove hobeys)
          by_cases hnext : up.1 + 1 = down.1
          · rw [if_pos hnext]
            refine Runs.pure ⟨by omega, by omega, hper, fun hobeys => ?_⟩
            have hparted'' := hparted' hobeys
            rw [hnext] at hparted'' ⊢
            exact hparted''
          · rw [if_neg hnext]
            refine (ih (by omega) (by omega) (by omega) (by omega) (by omega) _ hparted').mono ?_
            rintro r m3 ⟨hr, hr', hper', hparted''⟩
            exact ⟨hr, hr', hper.trans hper', hparted''⟩

/-! ## The parts -/

/-- The element at `i - 1` is between the elements on both sides. -/
structure Divided (le : α → α → Prop) (c : ℤ → α) (start i stop : ℤ) : Prop where
  below : ∀ x ∈ Set.Ico start (i - 1), le (c x) (c (i - 1))
  above : ∀ x ∈ Set.Ico i stop, le (c (i - 1)) (c x)

/-- A part on one side is sorted. -/
theorem Divided.left (h : Divided le c start i stop)
    (hper : Permutes (Set.Ico start (i - 1)) c c') : Divided le c' start i stop := by
  have hk : c' (i - 1) = c (i - 1) := hper.eq fun hmem => lt_irrefl _ hmem.2
  constructor
  · rw [hk]
    exact hper.forall (R := fun x => le x (c (i - 1))) h.below
  · intro x hx
    rw [hk, hper.eq fun hmem => by have hlow := hx.1; have hhigh := hmem.2; omega]
    exact h.above x hx

theorem Divided.right (h : Divided le c start i stop) (hper : Permutes (Set.Ico i stop) c c') :
    Divided le c' start i stop := by
  have hk : c' (i - 1) = c (i - 1) := hper.eq fun hmem => by have hlow := hmem.1; omega
  constructor
  · intro x hx
    rw [hk, hper.eq fun hmem => by have hlow := hmem.1; have hhigh := hx.2; omega]
    exact h.below x hx
  · rw [hk]
    exact hper.forall (R := fun x => le (c (i - 1)) x) h.above

/-- Sorting one side leaves the other side as it is. -/
theorem Permutes.sortedOn {P : Set ℤ} (h : Permutes P c c') (hs : SortedOn le c i j)
    (hP : ∀ x ∈ P, ¬ (i ≤ x ∧ x < j)) : SortedOn le c' i j :=
  hs.congr fun x hx hxj => h.eq fun hmem => hP x hmem ⟨hx, hxj⟩

/-- Two sorted sides. -/
theorem Divided.sorted (hobeys : S.Obeys le) (h : Divided le c start i stop)
    (hleft : SortedOn le c start (i - 1)) (hright : SortedOn le c i stop) :
    SortedOn le c start stop := by
  refine hleft.glue hobeys.trans ?_ (fun x hx hxk => h.below x ⟨hx, hxk⟩) fun x hkx hx => ?_
  · exact hright.mono (by omega) le_rfl
  · exact h.above x ⟨by omega, hx⟩

variable {c'' : ℤ → α} {nmemb : ℕ}

/-- Sorting the left side and then the right one. -/
theorem Sorts.leftRight (hk : start ≤ i - 1) (hks : i - 1 < stop)
    (hleft : Sorts S le start (i - 1) c c') (hright : Sorts S le i stop c' c'')
    (hmid : S.Obeys le → Divided le c start i stop) : Sorts S le start stop c c'' where
  permutes := (hleft.permutes.mono (Set.Ico_subset_Ico le_rfl (by omega))).trans
    (hright.permutes.mono (Set.Ico_subset_Ico (by omega) le_rfl))
  sorted := by
    intro hobeys
    have hmid'' := ((hmid hobeys).left hleft.permutes).right hright.permutes
    refine hmid''.sorted hobeys ?_ (hright.sorted hobeys)
    exact Permutes.sortedOn hright.permutes (hleft.sorted hobeys)
      fun x hx hx' => by have hlow := hx.1; omega

/-- Sorting the right side and then the left one. -/
theorem Sorts.rightLeft (hk : start ≤ i - 1) (hks : i - 1 < stop)
    (hright : Sorts S le i stop c c') (hleft : Sorts S le start (i - 1) c' c'')
    (hmid : S.Obeys le → Divided le c start i stop) : Sorts S le start stop c c'' where
  permutes := (hright.permutes.mono (Set.Ico_subset_Ico (by omega) le_rfl)).trans
    (hleft.permutes.mono (Set.Ico_subset_Ico le_rfl (by omega)))
  sorted := by
    intro hobeys
    have hmid'' := ((hmid hobeys).right hright.permutes).left hleft.permutes
    refine hmid''.sorted hobeys (hleft.sorted hobeys) ?_
    exact Permutes.sortedOn hleft.permutes (hright.sorted hobeys)
      fun x hx hx' => by have hhigh := hx.2; omega

/-! ## `zend_sort` -/

/-- The median of three or five elements is between the first and the last. -/
theorem choosePivot_spec (le : α → α → Prop) (hn : 16 < nmemb) (hstart : 0 ≤ start)
    (hstop : start + nmemb ≤ S.size) (m : Memory σ α) :
    Runs (choosePivot S start nmemb) m fun _ m' =>
      Permutes (Set.Ico start (start + nmemb)) m.cells m'.cells ∧ (S.Obeys le →
        le (m'.cells start) (m'.cells (start + (nmemb / 2 : ℕ))) ∧
          le (m'.cells (start + (nmemb / 2 : ℕ))) (m'.cells (start + nmemb - 1))) := by
  unfold choosePivot
  split_ifs with hlarge
  · refine (zendSort5_spec le ?_ ?_ m).mono fun _ m' h => ⟨h.permutes.mono ?_, fun hobeys => ?_⟩
    · simp only [pairwise_cons, mem_cons, not_mem_nil, or_false, forall_eq_or_imp,
        forall_eq, false_implies, implies_true, List.Pairwise.nil, and_true]
      omega
    · intro x hx
      simp only [mem_cons, not_mem_nil, or_false] at hx
      exact ⟨by omega, by omega⟩
    · intro x hx
      simp only [Set.mem_ofPred_eq, mem_cons, not_mem_nil, or_false] at hx
      exact ⟨by omega, by omega⟩
    · have hd := h.descends hobeys
      simp only [Descends, pairwise_cons, mem_cons, not_mem_nil, or_false,
        forall_eq_or_imp, forall_eq] at hd
      exact ⟨hd.2.2.1.2, hd.1.2.1⟩
  · refine (zendSort3_spec le (by omega) (by omega) ⟨by omega, by omega⟩ ⟨by omega, by omega⟩
      ⟨by omega, by omega⟩ m).mono fun _ m' h => ⟨h.permutes.mono ?_, fun hobeys => ?_⟩
    · intro x hx
      simp only [Set.mem_ofPred_eq, mem_cons, not_mem_nil, or_false] at hx
      exact ⟨by omega, by omega⟩
    · have hd := h.descends hobeys
      simp only [Descends, pairwise_cons, mem_cons, not_mem_nil, or_false,
        forall_eq_or_imp, forall_eq] at hd
      exact ⟨hd.2.1, hd.1.1⟩

/-- The pivot goes between the two sides. -/
theorem Parted.divided (h : Parted le c (start + 1) (start + 1 + 1) stop i i)
    (hi : start + 1 + 1 ≤ i) (hfirst : le (c start) (c (start + 1))) :
    Divided le (c ∘ Equiv.swap (start + 1) (i - 1)) start i stop := by
  constructor
  · rintro x ⟨hx, hxi⟩
    rw [comp_swap_right]
    rcases lt_trichotomy x (start + 1) with hlt | rfl | hgt
    · rw [show x = start by omega, comp_swap_of_ne c (by omega) (by omega)]
      exact hfirst
    · rw [comp_swap_left]
      exact h.below (i - 1) (by omega) (by omega)
    · rw [comp_swap_of_ne c (by omega) (by omega)]
      exact h.below x (by omega) (by omega)
  · rintro x ⟨hx, hxs⟩
    rw [comp_swap_right, comp_swap_of_ne c (by omega) (by omega)]
    exact h.above x (by omega) hxs

/-- The element at `i - 1` divides the others in the end. -/
theorem divide_spec (le : α → α → Prop) (hn : 16 < nmemb) (hstart : 0 ≤ start)
    (hstop : start + nmemb ≤ S.size) (m : Memory σ α) :
    Runs (divide S start nmemb) m fun i m' => start + 1 + 1 ≤ i ∧ i < start + nmemb ∧
      Permutes (Set.Ico start (start + nmemb)) m.cells m'.cells ∧
        (S.Obeys le → Divided le m'.cells start i (start + nmemb)) := by
  have hin : ∀ x, start ≤ x → x < start + nmemb →
      S.Inside x ∧ x ∈ Set.Ico start (start + (nmemb : ℤ)) := fun x hx hx' =>
    ⟨⟨by omega, by omega⟩, hx, hx'⟩
  obtain ⟨hpivot, hpivot'⟩ := hin (start + 1) (by omega) (by omega)
  obtain ⟨hmid, hmid'⟩ := hin (start + (nmemb / 2 : ℕ)) (by omega) (by omega)
  refine Runs.seq (choosePivot_spec le hn hstart hstop m) ?_
  rintro - m1 ⟨hper1, hmedian⟩
  apply Runs.bind
  apply Runs.swap hpivot hmid
  have hfirst := comp_swap_of_ne m1.cells (k := start) (i := start + 1)
    (j := start + (nmemb / 2 : ℕ)) (by omega) (by omega)
  have hlast := comp_swap_of_ne m1.cells (k := start + nmemb - 1) (i := start + 1)
    (j := start + (nmemb / 2 : ℕ)) (by omega) (by omega)
  have hmiddle := comp_swap_left m1.cells (start + 1) (start + (nmemb / 2 : ℕ))
  have hper2 := Permutes.swap (c := m1.cells) hpivot' hmid'
  generalize m1.cells ∘ Equiv.swap (start + 1) (start + (nmemb / 2 : ℕ)) = c2
    at hfirst hlast hmiddle hper2
  have hparted : S.Obeys le → Parted le c2 (start + 1) (start + 1 + 1) (start + nmemb)
      (start + 1 + 1) (start + nmemb - 1) := by
    intro hobeys
    refine ⟨fun x hx hx' => by omega, fun x hx hx' => ?_⟩
    rw [show x = start + nmemb - 1 by omega, hmiddle, hlast]
    exact (hmedian hobeys).2
  refine Runs.seq (partition_spec le (by omega) (by omega) le_rfl (by omega) (by omega) hstop
    (by omega) (by omega) ⟨m1.state, c2⟩ hparted) ?_
  rintro i m3 ⟨hi, hi', hper3, hparted3⟩
  obtain ⟨hlow, hlow'⟩ := hin (i - 1) (by omega) (by omega)
  have hfirst3 : m3.cells start = c2 start := hper3.eq fun hmem => by have hle := hmem.1; omega
  have hpivot3 : m3.cells (start + 1) = c2 (start + 1) :=
    hper3.eq fun hmem => by have hle := hmem.1; omega
  apply Runs.bind
  apply Runs.swap hpivot hlow
  refine Runs.pure ⟨hi, hi', ?_, fun hobeys => (hparted3 hobeys).divided hi ?_⟩
  · have hsub : Set.Ico (start + 1 + 1) (start + (nmemb : ℤ)) ⊆ Set.Ico start (start + nmemb) :=
      Set.Ico_subset_Ico (by omega) le_rfl
    exact ((hper1.trans hper2).trans (hper3.mono hsub)).trans (Permutes.swap hpivot' hlow')
  · rw [hfirst3, hpivot3, hfirst, hmiddle]
    exact (hmedian hobeys).1

/-- `zend_sort` -/
theorem zendSort_spec (le : α → α → Prop) (hfuel : nmemb < fuel) (hstart : 0 ≤ start)
    (hstop : start + nmemb ≤ S.size) (m : Memory σ α) : Runs (zendSort S fuel start nmemb) m
      fun _ m' => Sorts S le start (start + nmemb) m.cells m'.cells := by
  induction fuel generalizing start nmemb m with
  | zero => omega
  | succ fuel ih =>
    rw [zendSort]
    by_cases hsmall : nmemb ≤ 16
    · rw [if_pos hsmall]
      exact zendInsertSort_spec le hstart hstop m
    · rw [if_neg hsmall]
      refine Runs.seq (divide_spec le (by omega) hstart hstop m) ?_
      rintro i m1 ⟨hi, hi', hper, hdivided⟩
      dsimp only
      -- the two calls, from any state of the array
      have hleft := ih (show (i - start - 1).toNat < fuel by omega) hstart (by omega)
      have hright := ih (show (start + nmemb - i).toNat < fuel by omega)
        (show 0 ≤ i by omega) (by omega)
      rw [show start + ((i - start - 1).toNat : ℤ) = i - 1 by omega] at hleft
      rw [show i + ((start + nmemb - i).toNat : ℤ) = start + nmemb by omega] at hright
      have hsorts : ∀ c'', Sorts S le start (start + nmemb) m1.cells c'' →
          Sorts S le start (start + nmemb) m.cells c'' :=
        fun _ h => ⟨hper.trans h.permutes, h.sorted⟩
      by_cases hless : i - 1 - start < start + nmemb - i
      · rw [if_pos hless]
        refine Runs.seq (hleft m1) fun _ m2 hl => (hright m2).mono fun _ m3 hr => ?_
        exact hsorts _ (hl.leftRight (by omega) (by omega) hr hdivided)
      · rw [if_neg hless]
        refine Runs.seq (hright m1) fun _ m2 hr => (hleft m2).mono fun _ m3 hl => ?_
        exact hsorts _ (hr.rightLeft (by omega) (by omega) hl hdivided)

/-!
# `zend_qsort`

The smaller part is sorted first, so that the part that has `k` others below it on the stack has at
most one of `2 ^ k` parts of all the elements, and the stack does not overflow.
-/

variable {σ α : Type} {S : Setting σ α} {le : α → α → Prop} {m m' : Memory σ α} {c c' : ℤ → α}
  {seg1 seg2 start last r n : ℤ} {fuel bound stackSize : ℕ} {p q : Part} {parts parts' : List Part}

/-! ## The partition -/

theorem segUp_spec (le : α → α → Prop) (hstart : 0 ≤ start) (hseg1 : start < seg1)
    (hseg : seg1 ≤ seg2 + 1) (hseg2 : seg2 < S.size) (hfuel : seg2 + 1 - seg1 < fuel) (s : σ) :
    Runs (segUp S start seg2 fuel seg1) ⟨s, c⟩ fun r m' => m'.cells = c ∧ seg1 ≤ r ∧ r ≤ seg2 + 1 ∧
      (S.Obeys le → ∀ x, seg1 ≤ x → x < r → le (c x) (c start)) ∧
      (S.Obeys le → r < seg2 → le (c start) (c r)) := by
  induction fuel generalizing seg1 s with
  | zero => omega
  | succ fuel ih =>
    rw [segUp]
    by_cases hlt : seg1 < seg2
    · rw [if_pos hlt]
      apply Runs.branch le ⟨hstart, by omega⟩ ⟨by omega, by omega⟩
      · intro s hle
        refine (ih (by omega) (by omega) (by omega) s).mono ?_
        rintro r m' ⟨hcells, hr, hr', hpassed, hfound⟩
        refine ⟨hcells, by omega, hr', fun hobeys x hx hxr => ?_, hfound⟩
        rcases lt_or_eq_of_le hx with hlt' | rfl
        · exact hpassed hobeys x (by omega) hxr
        · exact hle hobeys
      · intro s hle
        exact Runs.pure ⟨rfl, le_rfl, hseg, fun _ x hx hxr => by omega, fun hobeys _ => hle hobeys⟩
    · rw [if_neg hlt]
      exact Runs.pure ⟨rfl, le_rfl, hseg, fun _ x hx hxr => by omega, fun _ hr => absurd hr hlt⟩

theorem segDown_spec (le : α → α → Prop) (hstart : 0 ≤ start) (hseg1 : start < seg1)
    (hseg : seg1 ≤ seg2 + 1) (hseg2 : seg2 < S.size) (hfuel : seg2 + 1 - seg1 < fuel) (s : σ) :
    Runs (segDown S start seg1 fuel seg2) ⟨s, c⟩ fun r m' => m'.cells = c ∧ r ≤ seg2 ∧
      seg1 ≤ r + 1 ∧ (S.Obeys le → ∀ x, r < x → x ≤ seg2 → le (c start) (c x)) ∧
      (S.Obeys le → seg1 ≤ r → le (c r) (c start)) := by
  induction fuel generalizing seg2 s with
  | zero => omega
  | succ fuel ih =>
    rw [segDown]
    by_cases hle : seg2 ≥ seg1
    · rw [if_pos hle]
      apply Runs.branch le ⟨by omega, hseg2⟩ ⟨hstart, by omega⟩
      · intro s hle
        refine (ih (by omega) (by omega) (by omega) s).mono ?_
        rintro r m' ⟨hcells, hr, hr', hpassed, hfound⟩
        refine ⟨hcells, by omega, hr', fun hobeys x hx hxs => ?_, hfound⟩
        rcases lt_or_eq_of_le hxs with hlt' | rfl
        · exact hpassed hobeys x hx (by omega)
        · exact hle hobeys
      · intro s hle
        exact Runs.pure ⟨rfl, le_rfl, hseg, fun _ x hx hxs => by omega, fun hobeys _ => hle hobeys⟩
    · rw [if_neg hle]
      exact Runs.pure ⟨rfl, le_rfl, hseg, fun _ x hx hxs => by omega, fun _ hr => absurd hr hle⟩

/-- The loop ends with `seg2` at the last element that is not above the first one. -/
theorem segments_spec (le : α → α → Prop) (hstart : 0 ≤ start) (hseg1 : start < seg1)
    (hseg : seg1 ≤ seg2 + 1) (hseg2 : seg2 ≤ last) (hlast : last < S.size)
    (hfuel : seg2 + 1 - seg1 < fuel) (hbound : seg2 + 1 - seg1 < bound) (m : Memory σ α)
    (hparted : S.Obeys le → Parted le m.cells start (start + 1) (last + 1) seg1 (seg2 + 1)) :
    Runs (segments S bound start fuel seg1 seg2) m fun r m' => start ≤ r ∧ r ≤ last ∧
      Permutes (Set.Ico (start + 1) (last + 1)) m.cells m'.cells ∧
      (S.Obeys le → Parted le m'.cells start (start + 1) (last + 1) (r + 1) (r + 1)) := by
  induction fuel generalizing seg1 seg2 m with
  | zero => omega
  | succ fuel ih =>
    refine Runs.seq (segUp_spec le hstart hseg1 hseg (by omega) hbound m.state) ?_
    rintro r1 m1 ⟨hcells, hr1, hr1', hpassed1, hfound1⟩
    have hm1 : m1 = ⟨m1.state, m.cells⟩ := by rw [← hcells]
    rw [hm1]
    refine Runs.seq (segDown_spec le hstart (show start < r1 by omega) hr1' (by omega) (by omega)
      m1.state) ?_
    rintro r2 m2 ⟨hcells', hr2, hr2', hpassed2, hfound2⟩
    have hm2 : m2 = ⟨m2.state, m.cells⟩ := by rw [← hcells']
    rw [hm2]
    have hbelow : S.Obeys le → ∀ x, start + 1 ≤ x → x < r1 → le (m.cells x) (m.cells start) :=
      fun hobeys => (hparted hobeys).below_of (hpassed1 hobeys)
    have habove : S.Obeys le → ∀ x, r2 < x → x < last + 1 → le (m.cells start) (m.cells x) :=
      fun hobeys => (hparted hobeys).above_of fun x hx hxs => hpassed2 hobeys x hx (by omega)
    by_cases hmeet : r1 ≥ r2
    · rw [if_pos hmeet]
      refine Runs.pure ⟨by omega, by omega, Permutes.refl _ _, fun hobeys => ⟨?_, ?_⟩⟩
      · intro x hx hxr
        rcases lt_or_ge x r1 with hlt | hge
        · exact hbelow hobeys x hx hlt
        · obtain rfl : x = r2 := by omega
          exact hfound2 hobeys hge
      · intro x hx hxl
        exact habove hobeys x (by omega) hxl
    · rw [if_neg hmeet]
      have h1 : S.Inside r1 := ⟨by omega, by omega⟩
      have h2 : S.Inside r2 := ⟨by omega, by omega⟩
      have h1' : r1 ∈ Set.Ico (start + 1) (last + 1) := ⟨by omega, by omega⟩
      have h2' : r2 ∈ Set.Ico (start + 1) (last + 1) := ⟨by omega, by omega⟩
      apply Runs.bind
      apply Runs.swap h1 h2
      refine (ih (by omega) (by omega) (by omega) (by omega) (by omega) _ fun hobeys => ?_).mono ?_
      · rw [show r2 - 1 + 1 = r2 by omega]
        exact parted_swap (by omega) (by omega) (by omega) (hbelow hobeys)
          (hfound1 hobeys (by omega)) (hfound2 hobeys (by omega)) (habove hobeys)
      · rintro r m3 ⟨hr, hr', hper, hparted'⟩
        exact ⟨hr, hr', (Permutes.swap h1' h2').trans hper, hparted'⟩

/-- The first element goes between the two sides. -/
theorem Parted.divided_first (h : Parted le c start (start + 1) (last + 1) (r + 1) (r + 1))
    (hrs : start ≤ r) : Divided le (c ∘ Equiv.swap start r) start (r + 1) (last + 1) := by
  have hr : r + 1 - 1 = r := by omega
  constructor
  · rintro x ⟨hx, hxr⟩
    rw [hr] at hxr ⊢
    rw [comp_swap_right]
    rcases lt_or_eq_of_le hx with hlt | rfl
    · rw [comp_swap_of_ne c (by omega) (by omega)]
      exact h.below x (by omega) (by omega)
    · rw [comp_swap_left]
      exact h.below r (by omega) (by omega)
  · rintro x ⟨hx, hxl⟩
    rw [hr, comp_swap_right]
    rw [comp_swap_of_ne c (by omega) (by omega)]
    exact h.above x hx hxl

/-- The element at `seg2` divides the part in the end. -/
theorem split_spec (le : α → α → Prop) (hstart : 0 ≤ start) (hlt : start < last)
    (hlast : last < S.size) (m : Memory σ α) :
    Runs (split S start last) m fun r m' => start ≤ r ∧ r ≤ last ∧
      Permutes (Set.Ico start (last + 1)) m.cells m'.cells ∧
        (S.Obeys le → Divided le m'.cells start (r + 1) (last + 1)) := by
  have hin : ∀ x, start ≤ x → x ≤ last → S.Inside x ∧ x ∈ Set.Ico start (last + 1) :=
    fun x hx hx' => ⟨⟨by omega, by omega⟩, hx, by omega⟩
  obtain ⟨hfirst, hfirst'⟩ := hin start le_rfl (by omega)
  obtain ⟨hmid, hmid'⟩ := hin (start + (last - start) / 2) (by omega) (by omega)
  apply Runs.bind
  apply Runs.swap hfirst hmid
  refine Runs.seq (segments_spec le hstart (by omega) (by omega) le_rfl hlast (by omega) (by omega)
    ⟨m.state, m.cells ∘ Equiv.swap start (start + (last - start) / 2)⟩ fun _ =>
      ⟨fun x hx hx' => by omega, fun x hx hx' => by omega⟩) ?_
  rintro r m1 ⟨hr, hr', hper, hparted⟩
  obtain ⟨hlow, hlow'⟩ := hin r hr hr'
  apply Runs.bind
  apply Runs.swap hfirst hlow
  refine Runs.pure ⟨hr, hr', ?_, fun hobeys => (hparted hobeys).divided_first hr⟩
  have hsub : Set.Ico (start + 1) (last + 1) ⊆ Set.Ico start (last + 1) :=
    Set.Ico_subset_Ico (by omega) le_rfl
  exact ((Permutes.swap hfirst' hmid').trans (hper.mono hsub)).trans (Permutes.swap hfirst' hlow')

/-! ## The stack -/

/-- The positions of a part. -/
def Part.positions (p : Part) : Set ℤ := Set.Ico p.1 (p.2 + 1)

/-- How many they are. -/
def Part.size (p : Part) : ℤ := p.2 + 1 - p.1

/-- The parts that are still to be sorted, of `n` elements. -/
structure Pending (n : ℤ) (parts : List Part) : Prop where
  low : ∀ p ∈ parts, 0 ≤ p.1 ∧ 0 ≤ p.size
  high : ∀ p ∈ parts, p.2 < n
  disjoint : parts.Pairwise fun p q => ∀ x ∈ p.positions, x ∉ q.positions

/-- Elements that are not together in a part are in order. -/
def OrderedBut (le : α → α → Prop) (c : ℤ → α) (n : ℤ) (parts : List Part) : Prop :=
  ∀ a b, 0 ≤ a → a < b → b < n → (∀ p ∈ parts, ¬ (a ∈ p.positions ∧ b ∈ p.positions)) →
    le (c a) (c b)

/-- A part with `k` others below it has at most one of `2 ^ k` parts of the elements. -/
def Shallow (n : ℤ) : List Part → Prop
  | [] => True
  | p :: parts => p.size * 2 ^ parts.length ≤ n ∧ Shallow n parts

/-- What the loops have before them, in steps. -/
def work (parts : List Part) : ℤ := (parts.map fun p => 2 * p.size + 1).sum

theorem work_cons (p : Part) (parts : List Part) :
    work (p :: parts) = 2 * p.size + 1 + work parts := by
  unfold work
  rw [map_cons, sum_cons]

/-- A part has been divided: what is not together in the new parts is in order. -/
theorem OrderedBut.divide (hobeys : S.Obeys le) (hpend : Pending n (p :: parts))
    (ho : OrderedBut le c n (p :: parts)) (hper : Permutes p.positions c c')
    (hdiv : Divided le c' p.1 (r + 1) (p.2 + 1))
    (hleft : ∀ a b, p.1 ≤ a → a < b → b < r → ∃ q ∈ parts', a ∈ q.positions ∧ b ∈ q.positions)
    (hright : ∀ a b, r < a → a < b → b ≤ p.2 → ∃ q ∈ parts', a ∈ q.positions ∧ b ∈ q.positions)
    (hrest : ∀ q ∈ parts, q ∈ parts') : OrderedBut le c' n parts' := by
  have hr : r + 1 - 1 = r := by omega
  have hdisj := (pairwise_cons.mp hpend.disjoint).1
  intro a b ha hab hb hnot
  have hapart : ∀ q ∈ parts, ¬ (a ∈ q.positions ∧ b ∈ q.positions) :=
    fun q hq => hnot q (hrest q hq)
  by_cases hpa : a ∈ p.positions
  · obtain ⟨hpa1, hpa2⟩ := hpa
    by_cases hpb : b ∈ p.positions
    · -- on different sides of the pivot
      obtain ⟨hpb1, hpb2⟩ := hpb
      have hbelow : a < r → le (c' a) (c' r) := fun har => by
        have h := hdiv.below a ⟨hpa1, by omega⟩
        rwa [hr] at h
      have habove : r < b → le (c' r) (c' b) := fun hrb => by
        have h := hdiv.above b ⟨by omega, hpb2⟩
        rwa [hr] at h
      rcases lt_trichotomy a r with har | rfl | har
      · rcases lt_trichotomy b r with hbr | rfl | hbr
        · obtain ⟨q, hq, hab'⟩ := hleft a b hpa1 hab hbr
          exact absurd hab' (hnot q hq)
        · exact hbelow har
        · exact hobeys.trans (hbelow har) (habove hbr)
      · exact habove hab
      · obtain ⟨q, hq, hab'⟩ := hright a b har hab (by omega)
        exact absurd hab' (hnot q hq)
    · rw [hper.eq hpb]
      apply hper.forall (R := fun x => le x (c b)) ?_ a ⟨hpa1, hpa2⟩
      intro x hx
      have hxb : x < b := by
        have hx2 := hx.2
        by_contra hge
        exact hpb ⟨by omega, by omega⟩
      have hx1 := hx.1
      apply ho x b (le_trans (hpend.low p mem_cons_self).1 hx1) hxb hb
      intro q hq
      rcases mem_cons.mp hq with rfl | hq
      · exact fun h => hpb h.2
      · exact fun h => hdisj q hq x hx h.1
  · rw [hper.eq hpa]
    by_cases hpb : b ∈ p.positions
    · apply hper.forall (R := fun x => le (c a) x) ?_ b hpb
      intro x hx
      have hax : a < x := by
        have hx1 := hx.1
        have hb2 := hpb.2
        by_contra hge
        exact hpa ⟨by omega, by omega⟩
      have hx2 := hx.2
      have hhigh := hpend.high p mem_cons_self
      apply ho a x ha hax (by omega)
      intro q hq
      rcases mem_cons.mp hq with rfl | hq
      · exact fun h => hpa h.1
      · exact fun h => hdisj q hq x hx h.2
    · rw [hper.eq hpb]
      apply ho a b ha hab hb
      intro q hq
      rcases mem_cons.mp hq with rfl | hq
      · exact fun h => hpa h.1
      · exact hapart q hq

theorem Pending.tail (h : Pending n (p :: parts)) : Pending n parts where
  low := fun q hq => h.low q (mem_cons_of_mem p hq)
  high := fun q hq => h.high q (mem_cons_of_mem p hq)
  disjoint := (pairwise_cons.mp h.disjoint).2

/-- A smaller part in place of the first one. -/
theorem Pending.sub (h : Pending n (p :: parts)) (hlow : p.1 ≤ q.1) (hhigh : q.2 ≤ p.2)
    (hsize : 0 ≤ q.size) : Pending n (q :: parts) where
  low := by
    intro x hx
    rcases mem_cons.mp hx with rfl | hx
    · exact ⟨le_trans (h.low p mem_cons_self).1 hlow, hsize⟩
    · exact h.tail.low x hx
  high := by
    intro x hx
    rcases mem_cons.mp hx with rfl | hx
    · exact lt_of_le_of_lt hhigh (h.high p mem_cons_self)
    · exact h.tail.high x hx
  disjoint := by
    refine pairwise_cons.mpr ⟨fun q' hq' x hx => ?_, h.tail.disjoint⟩
    have hxp : x ∈ p.positions := ⟨le_trans hlow hx.1, by have hx2 := hx.2; omega⟩
    exact (pairwise_cons.mp h.disjoint).1 q' hq' x hxp

/-- Two smaller parts in place of the first one. -/
theorem Pending.push {q' : Part} (h : Pending n (q :: parts)) (h' : Pending n (q' :: parts))
    (hdisj : ∀ x ∈ q.positions, x ∉ q'.positions) : Pending n (q :: q' :: parts) where
  low := by
    intro x hx
    rcases mem_cons.mp hx with rfl | hx
    · exact h.low x mem_cons_self
    · exact h'.low x hx
  high := by
    intro x hx
    rcases mem_cons.mp hx with rfl | hx
    · exact h.high x mem_cons_self
    · exact h'.high x hx
  disjoint := by
    refine pairwise_cons.mpr ⟨fun x hx => ?_, h'.disjoint⟩
    rcases mem_cons.mp hx with rfl | hx
    · exact hdisj
    · exact (pairwise_cons.mp h.disjoint).1 x hx

theorem Pending.work_nonneg (h : Pending n parts) : 0 ≤ work parts := by
  induction parts with
  | nil => exact le_rfl
  | cons p parts ih =>
    have hsize := (h.low p mem_cons_self).2
    have hrest := ih h.tail
    rw [work_cons]
    omega

/-- There is room for one more part on the stack. -/
theorem Shallow.room (h : Shallow n (p :: parts)) (hsize : 2 ≤ p.size) (hn : n < 2 ^ stackSize) :
    parts.length < stackSize := by
  have hle := h.1
  have hpow : (0 : ℤ) < 2 ^ parts.length := pow_pos (by decide) _
  have hlt : (2 : ℤ) ^ parts.length < 2 ^ stackSize := by nlinarith
  exact (Nat.pow_lt_pow_iff_right (by decide : 1 < 2)).mp (by exact_mod_cast hlt)

/-- A smaller part in place of the first one. -/
theorem Shallow.sub (h : Shallow n (p :: parts)) (hsize : q.size ≤ p.size) :
    Shallow n (q :: parts) := by
  have hpow : (0 : ℤ) < 2 ^ parts.length := pow_pos (by decide) _
  exact ⟨le_trans (Int.mul_le_mul_of_nonneg_right hsize (le_of_lt hpow)) h.1, h.2⟩

/-- The larger of two parts goes on the stack. -/
theorem Shallow.push {q' : Part} (h : Shallow n (p :: parts)) (hsize : 2 * q.size ≤ p.size)
    (hsize' : q'.size ≤ p.size) : Shallow n (q :: q' :: parts) := by
  refine ⟨?_, h.sub hsize'⟩
  have hpow : (0 : ℤ) < 2 ^ parts.length := pow_pos (by decide) _
  calc q.size * (2 ^ parts.length * 2) = 2 * q.size * 2 ^ parts.length := by ring
    _ ≤ p.size * 2 ^ parts.length := Int.mul_le_mul_of_nonneg_right hsize (le_of_lt hpow)
    _ ≤ n := h.1

/-- What may be pending after a part has been divided at `r`. -/
structure Divides (n r : ℤ) (p : Part) (parts parts' : List Part) : Prop where
  pending : Pending n parts'
  shallow : Shallow n parts'
  work_lt : work parts' < work (p :: parts)
  left : ∀ a b, p.1 ≤ a → a < b → b < r → ∃ q ∈ parts', a ∈ q.positions ∧ b ∈ q.positions
  right : ∀ a b, r < a → a < b → b ≤ p.2 → ∃ q ∈ parts', a ∈ q.positions ∧ b ∈ q.positions
  rest : ∀ q ∈ parts, q ∈ parts'

/-- The part on the left of `r`, and the one on the right. -/
def Part.left (p : Part) (r : ℤ) : Part := (p.1, r - 1)

def Part.right (p : Part) (r : ℤ) : Part := (r + 1, p.2)

theorem Part.size_left (p : Part) (r : ℤ) : (p.left r).size = r - p.1 :=
  show r - 1 + 1 - p.1 = r - p.1 by omega

theorem Part.size_right (p : Part) (r : ℤ) : (p.right r).size = p.2 - r :=
  show p.2 + 1 - (r + 1) = p.2 - r by omega

theorem mem_left {a b : ℤ} (ha : p.1 ≤ a) (hab : a < b) (hb : b < r) :
    a ∈ (p.left r).positions ∧ b ∈ (p.left r).positions :=
  ⟨⟨ha, show a < r - 1 + 1 by omega⟩, le_of_lt (lt_of_le_of_lt ha hab),
    show b < r - 1 + 1 by omega⟩

theorem mem_right {a b : ℤ} (ha : r < a) (hab : a < b) (hb : b ≤ p.2) :
    a ∈ (p.right r).positions ∧ b ∈ (p.right r).positions :=
  ⟨⟨show r + 1 ≤ a by omega, show a < p.2 + 1 by omega⟩, show r + 1 ≤ b by omega,
    show b < p.2 + 1 by omega⟩

theorem not_mem_left_right {x : ℤ} (hl : x ∈ (p.left r).positions)
    (hr : x ∈ (p.right r).positions) : False := by
  have hhigh : x < r - 1 + 1 := hl.2
  have hlow : r + 1 ≤ x := hr.1
  omega

section Divides

variable (hpend : Pending n (p :: parts)) (hshallow : Shallow n (p :: parts)) (hr : p.1 ≤ r)
  (hr' : r ≤ p.2)

include hpend hr hr'

theorem pending_left : Pending n (p.left r :: parts) :=
  hpend.sub le_rfl (show r - 1 ≤ p.2 by omega) (by rw [Part.size_left]; omega)

theorem pending_right : Pending n (p.right r :: parts) :=
  hpend.sub (show p.1 ≤ r + 1 by omega) le_rfl (by rw [Part.size_right]; omega)

include hshallow

/-- The left part first, with the larger right one on the stack. -/
theorem divides_leftFirst (hless : r - p.1 ≤ p.2 - r) :
    Divides n r p parts (p.left r :: p.right r :: parts) where
  pending := (pending_left hpend hr hr').push (pending_right hpend hr hr')
    fun _ => not_mem_left_right
  shallow := hshallow.push (by rw [Part.size_left, Part.size]; omega)
    (by rw [Part.size_right, Part.size]; omega)
  work_lt := by
    rw [work_cons, work_cons, work_cons, Part.size_left, Part.size_right, Part.size]
    omega
  left := fun _ _ ha hab hb => ⟨_, mem_cons_self, mem_left ha hab hb⟩
  right := fun _ _ ha hab hb =>
    ⟨_, mem_cons_of_mem _ mem_cons_self, mem_right ha hab hb⟩
  rest := fun _ hq => mem_cons_of_mem _ (mem_cons_of_mem _ hq)

/-- The right part has at most one element. -/
theorem divides_left (hmany : ¬ r + 1 < p.2) : Divides n r p parts (p.left r :: parts) where
  pending := pending_left hpend hr hr'
  shallow := hshallow.sub (by rw [Part.size_left, Part.size]; omega)
  work_lt := by
    rw [work_cons, work_cons, Part.size_left, Part.size]
    omega
  left := fun _ _ ha hab hb => ⟨_, mem_cons_self, mem_left ha hab hb⟩
  right := fun a b ha hab hb => by omega
  rest := fun _ hq => mem_cons_of_mem _ hq

/-- The right part first, with the larger left one on the stack. -/
theorem divides_rightFirst (hless : ¬ r - p.1 ≤ p.2 - r) :
    Divides n r p parts (p.right r :: p.left r :: parts) where
  pending := (pending_right hpend hr hr').push (pending_left hpend hr hr')
    fun _ hx hx' => not_mem_left_right hx' hx
  shallow := hshallow.push (by rw [Part.size_right, Part.size]; omega)
    (by rw [Part.size_left, Part.size]; omega)
  work_lt := by
    rw [work_cons, work_cons, work_cons, Part.size_left, Part.size_right, Part.size]
    omega
  left := fun _ _ ha hab hb =>
    ⟨_, mem_cons_of_mem _ mem_cons_self, mem_left ha hab hb⟩
  right := fun _ _ ha hab hb => ⟨_, mem_cons_self, mem_right ha hab hb⟩
  rest := fun _ hq => mem_cons_of_mem _ (mem_cons_of_mem _ hq)

/-- The left part has at most one element. -/
theorem divides_right (hmany : ¬ r - 1 > p.1) : Divides n r p parts (p.right r :: parts) where
  pending := pending_right hpend hr hr'
  shallow := hshallow.sub (by rw [Part.size_right, Part.size]; omega)
  work_lt := by
    rw [work_cons, work_cons, Part.size_right, Part.size]
    omega
  left := fun a b ha hab hb => by omega
  right := fun _ _ ha hab hb => ⟨_, mem_cons_self, mem_right ha hab hb⟩
  rest := fun _ hq => mem_cons_of_mem _ hq

end Divides

/-- The loops sort what is pending. -/
theorem sortParts_spec (le : α → α → Prop) (hsize : (S.size : ℤ) < 2 ^ stackSize)
    (stack : List Part) (start last : ℤ) (m : Memory σ α)
    (hfuel : work ((start, last) :: stack) < fuel) (hpend : Pending S.size ((start, last) :: stack))
    (hshallow : Shallow S.size ((start, last) :: stack))
    (ho : S.Obeys le → OrderedBut le m.cells S.size ((start, last) :: stack)) :
    Runs (sortParts S stackSize fuel stack start last) m
      fun _ m' => Sorts S le 0 S.size m.cells m'.cells := by
  induction fuel generalizing stack start last m with
  | zero =>
    have hwork := hpend.work_nonneg
    omega
  | succ fuel ih =>
    obtain ⟨hlow, hpos⟩ := hpend.low _ mem_cons_self
    have hhigh := hpend.high _ mem_cons_self
    unfold sortParts
    by_cases hlt : start < last
    · rw [if_pos hlt]
      refine Runs.seq (split_spec le hlow hlt hhigh m) ?_
      rintro r m1 ⟨hr, hr', hper, hdiv⟩
      have hsub : Set.Ico start (last + 1) ⊆ Set.Ico 0 (S.size : ℤ) :=
        Set.Ico_subset_Ico hlow (by omega)
      -- what is done next, with any parts that keep what is needed
      have hnext : ∀ (q : Part) (stack' : List Part),
          Divides S.size r (start, last) stack (q :: stack') →
          Runs (sortParts S stackSize fuel stack' q.1 q.2) m1
            fun _ m' => Sorts S le 0 S.size m.cells m'.cells := by
        intro q stack' h
        have hwork := h.work_lt
        refine (ih stack' q.1 q.2 m1 (show work (q :: stack') < fuel by omega) h.pending h.shallow
          fun hobeys => ?_).mono ?_
        · exact (ho hobeys).divide hobeys hpend hper (hdiv hobeys) h.left h.right h.rest
        · intro _ m' hsorts
          exact ⟨(hper.mono hsub).trans hsorts.permutes, hsorts.sorted⟩
      have hroom : stack.length < stackSize :=
        hshallow.room (show 2 ≤ last + 1 - start by omega) hsize
      by_cases hless : r - start ≤ last - r
      · rw [if_pos hless]
        by_cases hmany : r + 1 < last
        · have hpush : push stackSize (r + 1, last) stack = some ((r + 1, last) :: stack) :=
            if_pos hroom
          rw [if_pos hmany, hpush]
          exact hnext _ _ (divides_leftFirst hpend hshallow hr hr' hless)
        · rw [if_neg hmany]
          exact hnext _ _ (divides_left hpend hshallow hr hr' hmany)
      · rw [if_neg hless]
        by_cases hmany : r - 1 > start
        · have hpush : push stackSize (start, r - 1) stack = some ((start, r - 1) :: stack) :=
            if_pos hroom
          rw [if_pos hmany, hpush]
          exact hnext _ _ (divides_rightFirst hpend hshallow hr hr' hless)
        · rw [if_neg hmany]
          exact hnext _ _ (divides_right hpend hshallow hr hr' hmany)
    · rw [if_neg hlt]
      have halone : ∀ a b, a < b → ¬ (a ∈ Part.positions (start, last) ∧
          b ∈ Part.positions (start, last)) := by
        rintro a b hab ⟨⟨ha, -⟩, ⟨-, hb⟩⟩
        omega
      cases stack with
      | nil =>
        refine Runs.pure ⟨Permutes.refl _ _, fun hobeys a b ha hab hb => ?_⟩
        apply ho hobeys a b ha hab hb
        intro p hp
        rw [mem_singleton.mp hp]
        exact halone a b hab
      | cons p stack =>
        have hdiff := work_cons (start, last) (p :: stack)
        refine ih stack p.1 p.2 m (show work (p :: stack) < fuel by omega) hpend.tail hshallow.2
          fun hobeys => ?_
        intro a b ha hab hb hnot
        apply ho hobeys a b ha hab hb
        intro p' hp'
        rcases mem_cons.mp hp' with rfl | hp'
        · exact halone a b hab
        · exact hnot p' hp'

/-- `zend_qsort` -/
theorem zendQsort_spec (le : α → α → Prop) (hsize : (S.size : ℤ) < 2 ^ stackSize) (m : Memory σ α) :
    Runs (zendQsort S stackSize) m fun _ m' => Sorts S le 0 S.size m.cells m'.cells := by
  have hall : Part.size (0, (S.size : ℤ) - 1) = S.size := show (S.size : ℤ) - 1 + 1 - 0 = _ by omega
  refine sortParts_spec le hsize [] 0 (S.size - 1) m ?_ ?_ ?_ ?_
  · rw [work_cons]
    unfold work
    rw [map_nil, sum_nil]
    omega
  · refine ⟨fun p hp => ?_, fun p hp => ?_, pairwise_singleton _ _⟩
    · rw [mem_singleton.mp hp, hall]
      exact ⟨le_rfl, Int.natCast_nonneg _⟩
    · rw [mem_singleton.mp hp]
      exact show (S.size : ℤ) - 1 < S.size by omega
  · refine ⟨?_, trivial⟩
    rw [hall, length_nil, pow_zero, mul_one]
  · intro _ a b ha hab hb hnot
    exact absurd ⟨⟨ha, show a < (S.size : ℤ) - 1 + 1 by omega⟩,
      show (0 : ℤ) ≤ b by omega, show b < (S.size : ℤ) - 1 + 1 by omega⟩
      (hnot _ mem_cons_self)

/-! ## The three functions -/

/-- What is asked of a sorting function: it ends with the elements of the array in another order,
and in that of the comparison when this is a total preorder. -/
def Correct (S : Setting σ α) (p : Prog σ α Unit) : Prop :=
  ∀ m, ∃ m', p m = some ((), m') ∧ Permutes (Set.Ico 0 (S.size : ℤ)) m.cells m'.cells ∧
    ∀ le : α → α → Prop, Std.Total le → IsTrans α le →
      (∀ s a b, (S.compare s a b).2 > 0 ↔ ¬ le a b) → SortedOn le m'.cells 0 S.size

theorem correct_of_sorts {p : Prog σ α Unit} (h : ∀ le m, Runs p m fun _ m' =>
    Sorts S le 0 S.size m.cells m'.cells) : Correct S p := by
  intro m
  obtain ⟨_, m', heq, hper, -⟩ := h (fun _ _ => True) m
  refine ⟨m', heq, hper, fun le htotal htrans hle => ?_⟩
  obtain ⟨_, m'', heq', -, hsorted⟩ := h le m
  have hsame : m' = m'' := congrArg Prod.snd (Option.some.inj (heq.symm.trans heq'))
  rw [hsame]
  exact hsorted (Setting.obeys htotal htrans hle)

/-- **Sorting.**  For every number of elements that a `size_t` of so many bits can have, and every
comparison, the three functions end, without leaving the array or the stack, with the elements in
another order; with a comparison by a total preorder they are sorted. -/
theorem sorting_functions {bits : ℕ} (nmemb : Fin (2 ^ bits)) (compare : σ → α → α → σ × ℤ) :
    Correct ⟨compare, nmemb⟩ (zendSort ⟨compare, nmemb⟩ (nmemb + 1) 0 nmemb) ∧
      Correct ⟨compare, nmemb⟩ (zendInsertSort ⟨compare, nmemb⟩ 0 nmemb) ∧
      Correct ⟨compare, nmemb⟩ (zendQsort ⟨compare, nmemb⟩ bits) := by
  have hstop : (0 : ℤ) + (nmemb : ℕ) = (nmemb : ℕ) := Int.zero_add _
  refine ⟨correct_of_sorts fun le m => ?_, correct_of_sorts fun le m => ?_,
    correct_of_sorts fun le m => ?_⟩
  · have h := zendSort_spec (S := ⟨compare, nmemb⟩) le (Nat.lt_succ_self nmemb) le_rfl
      (le_of_eq hstop) m
    rwa [hstop] at h
  · have h := zendInsertSort_spec (S := ⟨compare, nmemb⟩) le le_rfl (le_of_eq hstop) m
    rwa [hstop] at h
  · exact zendQsort_spec le (by exact_mod_cast nmemb.isLt) m

end ZendSort
