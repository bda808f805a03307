/-
# Versions in order

A version whose canonical form has no `#` and no dot at its end is a list of keys, and two of them
compare as the lists do when a key that is missing counts as 0.  Every other version breaks the
order.
-/
import ReadingCode.VersionCompare

namespace PhpVersioning

open List

open StrNatCmp

variable {lp lq c d : UInt8} {p s t v w u : Bytes}

/-! ## Lists of keys -/

/-- The comparison of two lists of keys. -/
def cmpKeys : List ℤ → List ℤ → ℤ
  | [], [] => 0
  | k :: _, [] => k.sign
  | [], l :: _ => -l.sign
  | k :: ks, l :: ls => if k = l then cmpKeys ks ls else (k - l).sign

/-- The order of keys, the other way round. -/
theorem cmpKeys_antisymm (ks ls : List ℤ) : cmpKeys ks ls = -cmpKeys ls ks := by
  induction ks generalizing ls with
  | nil =>
    cases ls with
    | nil => rfl
    | cons l ls => rfl
  | cons k ks ih =>
    cases ls with
    | nil => exact (Int.neg_neg _).symm
    | cons l ls =>
      rw [cmpKeys, cmpKeys]
      by_cases heq : k = l
      · rw [if_pos heq, if_pos heq.symm, ih]
      · rw [if_neg heq, if_neg (Ne.symm heq), ← Int.sign_neg, Int.neg_sub]

variable {k : ℤ}

/-- The first keys decide, or what follows. -/
theorem cmpKeys_cons_le {l : ℤ} {ks ls : List ℤ} :
    cmpKeys (k :: ks) (l :: ls) ≤ 0 ↔ k < l ∨ k = l ∧ cmpKeys ks ls ≤ 0 := by
  rw [cmpKeys]
  by_cases heq : k = l
  · simp [heq]
  · rw [if_neg heq, Int.sign_nonpos_iff]
    omega

/-- A list of keys that are not 0. -/
theorem cmpKeys_trans {ks ls ms : List ℤ} (hks : 0 ∉ ks) (hls : 0 ∉ ls) (hms : 0 ∉ ms)
    (h1 : cmpKeys ks ls ≤ 0) (h2 : cmpKeys ls ms ≤ 0) : cmpKeys ks ms ≤ 0 := by
  induction ls generalizing ks ms with
  | nil =>
    cases ks with
    | nil => exact h2
    | cons k ks =>
      cases ms with
      | nil => exact h1
      | cons m ms =>
        have hk : k ≤ 0 := Int.sign_nonpos_iff.mp h1
        have hm : -m.sign ≤ 0 := h2
        rw [← Int.sign_neg, Int.sign_nonpos_iff] at hm
        have hk0 := (ne_and_not_mem_of_not_mem_cons hks).1
        exact cmpKeys_cons_le.mpr (.inl (by omega))
  | cons l ls ih =>
    obtain ⟨hl, hls⟩ := ne_and_not_mem_of_not_mem_cons hls
    cases ks with
    | nil =>
      have hl0 : -l.sign ≤ 0 := h1
      rw [← Int.sign_neg, Int.sign_nonpos_iff] at hl0
      cases ms with
      | nil =>
        have hl1 : l ≤ 0 := Int.sign_nonpos_iff.mp h2
        omega
      | cons m ms =>
        have hlm := cmpKeys_cons_le.mp h2
        show -m.sign ≤ 0
        rw [← Int.sign_neg, Int.sign_nonpos_iff]
        omega
    | cons k ks =>
      obtain ⟨hk, hks⟩ := ne_and_not_mem_of_not_mem_cons hks
      have hkl := cmpKeys_cons_le.mp h1
      cases ms with
      | nil =>
        have hl0 : l ≤ 0 := Int.sign_nonpos_iff.mp h2
        show k.sign ≤ 0
        rw [Int.sign_nonpos_iff]
        omega
      | cons m ms =>
        obtain ⟨hm, hms⟩ := ne_and_not_mem_of_not_mem_cons hms
        have hlm := cmpKeys_cons_le.mp h2
        rw [cmpKeys_cons_le]
        rcases hkl with hkl | ⟨hkl, hrest1⟩
        · omega
        · rcases hlm with hlm | ⟨hlm, hrest2⟩
          · omega
          · exact .inr ⟨hkl.trans hlm, ih hks hls hms hrest1 hrest2⟩

/-! ## The key of a component -/

/-- The key of a component that does not begin with `#`. -/
def key (w : Bytes) : ℤ :=
  if startsWithDigit w then strtol w + 1
  else if formOrder w < 4 then formOrder w - 4
  else longMax + 2

theorem foldl_digits_nonneg {ds : Bytes} (hds : ∀ c ∈ ds, isdigit c = true) {n : ℤ}
    (hn : 0 ≤ n) : 0 ≤ ds.foldl (fun (n : ℤ) c => n * 10 + (c.toNat - 48)) n := by
  induction ds generalizing n with
  | nil => exact hn
  | cons c ds ih =>
    have hc : 48 ≤ c.toNat := (of_decide_eq_true (hds c mem_cons_self)).1
    have hnext : 0 ≤ n * 10 + (c.toNat - 48) := by omega
    exact ih (fun d hd => hds d (mem_cons_of_mem c hd)) hnext

/-- A component has no sign. -/
theorem strtol_nonneg (w : Bytes) : 0 ≤ strtol w :=
  le_min (foldl_digits_nonneg (fun _ hc => mem_takeWhile_imp hc) (Int.le_refl 0))
    (Int.natCast_nonneg _)

/-- A component is no more than the maximum. -/
theorem strtol_le (w : Bytes) : strtol w ≤ longMax := by
  unfold strtol
  omega

/-- Zero is left for the end of a version. -/
theorem key_ne_zero (w : Bytes) : key w ≠ 0 := by
  have hnum := strtol_nonneg w
  unfold key
  split_ifs <;> omega

/-- No key is below that of an unknown word. -/
theorem key_ge (w : Bytes) : -5 ≤ key w := by
  have hnum := strtol_nonneg w
  have hword := formOrder_le w
  unfold key
  split_ifs <;> omega

/-- A component against the end of a version. -/
theorem versusN_eq (hw : w.head? ≠ some 35) (ws : List Bytes) :
    versusN (w :: ws) = (key w).sign := by
  have hnum := strtol_nonneg w
  have hne := formOrder_ne hw
  rw [versusN]
  unfold key
  split_ifs
  · exact (Int.sign_eq_one_of_pos (by omega)).symm
  · rfl
  · rw [Int.sign_eq_one_of_pos (by omega), Int.sign_eq_one_of_pos (by omega)]

theorem sign_congr {l : ℤ} (hpos : 0 < k ↔ 0 < l) (hneg : k < 0 ↔ l < 0) : k.sign = l.sign := by
  rcases lt_trichotomy k 0 with hk | hk | hk
  · rw [Int.sign_eq_neg_one_of_neg hk, Int.sign_eq_neg_one_of_neg (hneg.mp hk)]
  · rw [hk, show l = 0 by omega]
  · rw [Int.sign_eq_one_of_pos hk, Int.sign_eq_one_of_pos (hpos.mp hk)]

/-- Two components are compared by their keys. -/
theorem compareComponents_eq (hw : w.head? ≠ some 35) (hu : u.head? ≠ some 35) :
    compareComponents w u = (key w - key u).sign := by
  have hnumw := strtol_nonneg w
  have hnumu := strtol_nonneg u
  have hlew := strtol_le w
  have hleu := strtol_le u
  have hwordw := formOrder_le w
  have hwordu := formOrder_le u
  have hnew := formOrder_ne hw
  have hneu := formOrder_ne hu
  unfold compareComponents compareSpecialVersionForms key
  rw [formOrder_hashN]
  by_cases hdw : startsWithDigit w = true
  · by_cases hdu : startsWithDigit u = true
    · rw [if_pos ⟨hdw, hdu⟩, if_pos hdw, if_pos hdu]
      exact sign_congr (by omega) (by omega)
    · rw [if_neg fun h => hdu h.2, if_neg fun h => h.1 hdw]
      split_ifs
      · exact sign_congr (by omega) (by omega)
      · exact sign_congr (by omega) (by omega)
  · by_cases hdu : startsWithDigit u = true
    · rw [if_neg fun h => hdw h.1, if_neg fun h => h.2 hdu]
      split_ifs
      · exact sign_congr (by omega) (by omega)
      · exact sign_congr (by omega) (by omega)
    · rw [if_neg fun h => hdw h.1, if_pos ⟨hdw, hdu⟩]
      split_ifs
      all_goals exact sign_congr (by omega) (by omega)

/-- The comparison of the components is the one of their keys, unless one begins with `#`, or the
last one is empty. -/
theorem cmpComps_eq (ws us : List Bytes) (hws : ∀ w ∈ ws, w.head? ≠ some 35)
    (hus : ∀ u ∈ us, u.head? ≠ some 35) (hw : ws ≠ []) (hu : us ≠ [])
    (hlastw : ws.getLast? ≠ some []) (hlastu : us.getLast? ≠ some []) :
    cmpComps ws us = cmpKeys (ws.map key) (us.map key) := by
  induction ws generalizing us with
  | nil => exact absurd rfl hw
  | cons w ws ih =>
    cases us with
    | nil => exact absurd rfl hu
    | cons u us =>
      obtain ⟨hw0, hws⟩ := forall_mem_cons.mp hws
      obtain ⟨hu0, hus⟩ := forall_mem_cons.mp hus
      have hcmp := compareComponents_eq hw0 hu0
      rw [map_cons, map_cons, cmpKeys]
      by_cases heq : key w = key u
      · rw [heq, Int.sub_self] at hcmp
        rw [if_pos heq]
        cases ws with
        | nil =>
          rw [cmpComps_of_right hcmp]
          cases us with
          | nil => rfl
          | cons u' us => exact congrArg (- ·) (versusN_eq (forall_mem_cons.mp hus).1 us)
        | cons w' ws =>
          cases us with
          | nil =>
            rw [cmpComps_of_left hcmp (cons_ne_nil w' ws) (.inl rfl)]
            exact versusN_eq (forall_mem_cons.mp hws).1 ws
          | cons u' us =>
            have hmorew : w' :: ws ≠ [[]] := fun h => hlastw (h ▸ rfl)
            have hmoreu : u' :: us ≠ [[]] := fun h => hlastu (h ▸ rfl)
            rw [cmpComps_of_more hcmp ⟨cons_ne_nil w' ws, cons_ne_nil u' us, hmorew, hmoreu⟩]
            exact ih _ hws hus (cons_ne_nil w' ws) (cons_ne_nil u' us) hlastw hlastu
      · have hne : compareComponents w u ≠ 0 := by
          rw [hcmp, Ne, Int.sign_eq_zero_iff_zero]
          omega
        rw [if_neg heq, cmpComps_of_ne hne, hcmp]

/-! ## The versions in question -/

/-- Whether the character `c` behind `lp` is written. -/
def keeps (lp c : UInt8) : Bool := isalnum c || (isdig lp && isndig c && !isspecialver c)

/-- Whether the last character is written. -/
def keepsLast : Bytes → Bool
  | [] => true
  | [c] => c != 46
  | [lp, c] => keeps lp c
  | _ :: lp :: c :: s => keepsLast (lp :: c :: s)

/-- No `#` at the beginning or directly behind a digit, and the last character is written: it is a
letter or a digit, the only character, or directly behind a digit and none of the separators. -/
def Ordered (s : Bytes) : Prop :=
  s.head? ≠ some 35 ∧ s.IsChain (fun lp c => ¬ (isdigit lp = true ∧ c = 35)) ∧ keepsLast s = true

instance (s : Bytes) : Decidable (Ordered s) := inferInstanceAs (Decidable (_ ∧ _ ∧ _))

/-- One test for digits. -/
theorem isdig_eq (c : UInt8) : isdig c = isdigit c := by
  grind [isdig, isdigit]

/-- A `#` is written behind a digit only. -/
theorem mem_emit_iff (lp lq c : UInt8) : 35 ∈ emit lp lq c ↔ isdigit lp = true ∧ c = 35 := by
  have hdots : (35 : UInt8) ∉ dotAfter lq := by
    unfold dotAfter
    split_ifs <;> simp
  by_cases hc : c = 35
  · have hemit : emit lp lq 35 = if isdig lp = true then dotAfter lq ++ [35] else dotAfter lq := by
      simp [emit, isspecialver, isdig, isndig, isdigit, isalnum, isalpha]
    rw [hc, hemit, isdig_eq]
    by_cases hdigit : isdigit lp = true
    · simp [hdigit]
    · simp [hdigit, hdots]
  · have hsingle : (35 : UInt8) ∉ [c] := fun h => hc (mem_singleton.mp h).symm
    have hnot : 35 ∉ emit lp lq c := by
      unfold emit
      split_ifs
      · exact hdots
      · rw [mem_append, not_or]
        exact ⟨hdots, hsingle⟩
      · exact hdots
      · exact hsingle
    exact iff_of_false hnot fun h => hc h.2

/-- A `#` in a canonical version. -/
theorem mem_canonFrom_iff (lp lq : UInt8) (p : Bytes) :
    35 ∈ canonFrom lp lq p ↔ ¬ (lp :: p).IsChain (fun lp c => ¬ (isdigit lp = true ∧ c = 35)) := by
  induction p generalizing lp lq with
  | nil => simp [canonFrom]
  | cons c p ih =>
    rw [canonFrom, mem_append, ih, mem_emit_iff, isChain_cons_cons, not_and_or, not_not]

theorem getLastD_dotAfter (lq : UInt8) : (dotAfter lq).getLastD lq = 46 := by
  unfold dotAfter
  split_ifs with h
  · rfl
  · exact not_not.mp h

theorem isalnum_of_isspecialver (h : isspecialver c = true) : isalnum c = false := by
  grind [isspecialver, isalpha, isalnum, isdigit]

theorem ne_dot_of_isalnum (h : isalnum c = true) : c ≠ 46 := by
  rintro rfl
  cases h

theorem getLastD_emit (lp lq c : UInt8) : (emit lp lq c).getLastD lq ≠ 46 ↔ keeps lp c = true := by
  unfold emit keeps
  by_cases hspecial : isspecialver c = true
  · rw [if_pos hspecial, getLastD_dotAfter, isalnum_of_isspecialver hspecial, hspecial]
    simp
  rw [if_neg hspecial, Bool.eq_false_iff.mpr hspecial]
  by_cases hchange : (isndig lp && isdig c || isdig lp && isndig c) = true
  · rw [if_pos hchange, getLastD_concat]
    rw [Bool.or_eq_true, Bool.and_eq_true, Bool.and_eq_true] at hchange
    rcases hchange with ⟨-, hdig⟩ | ⟨hlp, hndig⟩
    · have halnum : isalnum c = true := by
        rw [isalnum, ((Bool.and_eq_true _ _).mp hdig).1]
        rfl
      exact iff_of_true (ne_dot_of_isalnum halnum) (by rw [halnum]; rfl)
    · refine iff_of_true ?_ (by simp [hlp, hndig])
      exact bne_iff_ne.mp ((Bool.and_eq_true _ _).mp hndig).2
  · rw [if_neg hchange]
    rw [Bool.or_eq_true, not_or] at hchange
    rw [Bool.eq_false_iff.mpr hchange.2]
    by_cases halnum : isalnum c = true
    · rw [halnum]
      exact iff_of_true (ne_dot_of_isalnum halnum) rfl
    · rw [Bool.eq_false_iff.mpr halnum, Bool.not_false, if_pos rfl, getLastD_dotAfter]
      simp

theorem getLastD_append (xs ys : Bytes) (lq : UInt8) :
    (xs ++ ys).getLastD lq = ys.getLastD (xs.getLastD lq) := by
  induction xs generalizing lq with
  | nil => rfl
  | cons x xs ih => rw [cons_append, getLastD_cons, getLastD_cons, ih]

/-- Where the last character is written. -/
theorem getLastD_canonFrom (lp lq c : UInt8) (p : Bytes) :
    (canonFrom lp lq (c :: p)).getLastD lq ≠ 46 ↔ keepsLast (lp :: c :: p) = true := by
  induction p generalizing lp lq c with
  | nil =>
    rw [canonFrom, canonFrom, append_nil, getLastD_emit]
    rfl
  | cons d p ih =>
    rw [canonFrom, getLastD_append, ih]
    rfl

/-- Where no `#` is left. -/
theorem not_mem_prepared_iff (s : Bytes) : 35 ∉ prepared s ↔
      s.head? ≠ some 35 ∧ s.IsChain (fun lp c => ¬ (isdigit lp = true ∧ c = 35)) := by
  unfold prepared
  by_cases hhash : s.head? = some 35
  · rw [if_pos hhash]
    exact iff_of_false (fun h => h (mem_of_head? hhash)) fun h => h.1 hhash
  · rw [if_neg hhash, and_iff_right hhash]
    cases s with
    | nil => simp [canon]
    | cons c p =>
      have hc : 35 ≠ c := by
        rintro rfl
        exact hhash rfl
      rw [canon, mem_cons, not_or, and_iff_right hc, mem_canonFrom_iff, not_not]

/-- The canonical form has no `#`, and no dot at its end. -/
theorem ordered_iff (s : Bytes) :
    Ordered s ↔ 35 ∉ prepared s ∧ (prepared s).getLast? ≠ some 46 := by
  rw [not_mem_prepared_iff, and_assoc]
  refine and_congr_right fun hhash => and_congr_right fun _ => ?_
  rw [prepared, if_neg hhash]
  cases s with
  | nil => simp [canon, keepsLast]
  | cons c p =>
    rw [canon, getLast?_cons]
    cases p with
    | nil => simp [canonFrom, keepsLast]
    | cons d p =>
      rw [← getLastD_canonFrom c c d p, getLastD_eq_getLast?, Ne, Ne, Option.some_inj]

/-! ## The order of these versions -/

/-- The keys of a version.  The empty one is below all others. -/
def keys (s : Bytes) : List ℤ := if s = [] then [-6] else (comps (prepared s)).map key

theorem not_mem_keys (s : Bytes) : 0 ∉ keys s := by
  unfold keys
  split_ifs
  · decide
  · rw [mem_map]
    rintro ⟨w, -, hw⟩
    exact key_ne_zero w hw

/-- Components are of the bytes of the version. -/
theorem mem_of_mem_comps (hw : w ∈ comps v) : ∀ c ∈ w, c ∈ v := by
  induction v generalizing w with
  | nil =>
    rw [mem_singleton.mp hw]
    exact fun c hc => hc
  | cons d v ih =>
    by_cases hdot : d = 46
    · rw [hdot] at hw
      rcases mem_cons.mp hw with rfl | hw
      · exact fun c hc => nomatch hc
      · exact fun c hc => mem_cons_of_mem d (ih hw c hc)
    · obtain ⟨ws, hws⟩ := comps_head v
      rw [comps_cons hdot, hws] at hw
      rcases mem_cons.mp hw with rfl | hw
      · intro c hc
        rcases mem_cons.mp hc with rfl | hc
        · exact mem_cons_self
        · exact mem_cons_of_mem d ((takeWhile_sublist _).subset hc)
      · exact fun c hc => mem_cons_of_mem d (ih (hws ▸ mem_cons_of_mem _ hw) c hc)

/-- Without a dot behind it the last component is not empty. -/
theorem getLast?_comps (h : v ≠ []) (hlast : v.getLast? ≠ some 46) :
    (comps v).getLast? ≠ some [] := by
  induction v with
  | nil => exact absurd rfl h
  | cons d v ih =>
    obtain ⟨ws, hws⟩ := comps_head v
    by_cases hv : v = []
    · rw [hv] at hlast ⊢
      have hdot : d ≠ 46 := fun hd => hlast (hd ▸ rfl)
      rw [comps_cons hdot]
      simp [comps]
    · have hrest := ih hv (by rwa [getLast?_cons_of_ne_nil hv] at hlast)
      by_cases hdot : d = 46
      · rw [hdot, ← nil_append (46 :: v), comps_append,
          getLast?_append_of_ne_nil _ (comps_ne_nil v)]
        exact hrest
      · rw [comps_cons hdot, hws, modifyHead_cons]
        rw [hws] at hrest
        cases ws with
        | nil => simp
        | cons u us => rwa [getLast?_cons_cons] at hrest ⊢

variable {a b : Bytes}

/-- Versions are compared by their keys. -/
theorem cmpVersions_eq (ha : Ordered a) (hb : Ordered b) :
    cmpVersions a b = cmpKeys (keys a) (keys b) := by
  have hkeys : ∀ s : Bytes, s ≠ [] → ∃ k ks, keys s = k :: ks ∧ -5 ≤ k := by
    intro s hs
    obtain ⟨ws, hws⟩ := comps_head (prepared s)
    rw [keys, if_neg hs, hws]
    exact ⟨_, _, rfl, key_ge _⟩
  unfold cmpVersions
  by_cases hnila : a = []
  · rw [if_pos (.inl hnila)]
    by_cases hnilb : b = []
    · rw [hnila, hnilb]
      rfl
    · obtain ⟨k, ks, hk, hge⟩ := hkeys b hnilb
      have hcmp : cmpKeys [-6] (k :: ks) = -1 := by
        rw [cmpKeys, if_neg (by omega), Int.sign_eq_neg_one_of_neg (by omega)]
      rw [hk, keys, if_pos hnila, hcmp, if_neg fun h : a = [] ∧ b = [] => hnilb h.2,
        if_neg (not_not.mpr hnila)]
  · by_cases hnilb : b = []
    · obtain ⟨k, ks, hk, hge⟩ := hkeys a hnila
      have hcmp : cmpKeys (k :: ks) [-6] = 1 := by
        rw [cmpKeys, if_neg (by omega), Int.sign_eq_one_of_pos (by omega)]
      rw [if_pos (.inr hnilb), hk, keys, if_pos hnilb, hcmp,
        if_neg fun h : a = [] ∧ b = [] => hnila h.1, if_pos hnila]
    · rw [if_neg fun h => h.elim hnila hnilb, keys, keys, if_neg hnila, if_neg hnilb]
      obtain ⟨hhasha, hdota⟩ := (ordered_iff a).mp ha
      obtain ⟨hhashb, hdotb⟩ := (ordered_iff b).mp hb
      have hwords : ∀ s : Bytes, 35 ∉ prepared s →
          ∀ w ∈ comps (prepared s), w.head? ≠ some 35 := fun s hs w hw hhead =>
        hs (mem_of_mem_comps hw 35 (mem_of_head? hhead))
      exact cmpComps_eq _ _ (hwords a hhasha) (hwords b hhashb) (comps_ne_nil _) (comps_ne_nil _)
        (getLast?_comps (prepared_ne_nil hnila) hdota)
        (getLast?_comps (prepared_ne_nil hnilb) hdotb)

/-- That the comparison is an order at `a`, `b` and `c`: exchanging two versions changes the sign,
and not above is transitive. -/
def OrderAt (a b c : Bytes) : Prop :=
  (∃ r, versionCompare a b = some r ∧ versionCompare b a = some (-r)) ∧
    ∀ r1 r2 r, versionCompare a b = some r1 → versionCompare b c = some r2 →
      versionCompare a c = some r → r1 ≤ 0 → r2 ≤ 0 → r ≤ 0

/-- **Ordered versions** compare as in an order. -/
theorem orderAt_of_ordered {c : Bytes} (ha : Ordered (cstr a)) (hb : Ordered (cstr b))
    (hc : Ordered (cstr c)) : OrderAt a b c := by
  unfold OrderAt
  rw [versionCompare_eq, versionCompare_eq, versionCompare_eq, versionCompare_eq,
    cmpVersions_eq ha hb, cmpVersions_eq hb ha, cmpVersions_eq hb hc, cmpVersions_eq ha hc]
  refine ⟨⟨_, rfl, congrArg some (cmpKeys_antisymm _ _)⟩, ?_⟩
  intro r1 r2 r h1 h2 h hle1 hle2
  rw [← Option.some.inj h1] at hle1
  rw [← Option.some.inj h2] at hle2
  rw [← Option.some.inj h]
  exact cmpKeys_trans (not_mem_keys _) (not_mem_keys _) (not_mem_keys _) hle1 hle2

/-! ## Versions with a common beginning -/

/-- The comparison goes on behind two components that are equal. -/
def cmpRest (ws us : List Bytes) : ℤ :=
  if ws ≠ [] ∧ us ≠ [] ∧ ws ≠ [[]] ∧ us ≠ [[]] then cmpComps ws us
  else if ws ≠ [] then versusN ws
  else -versusN us

theorem cmpComps_of_eq (h : compareComponents w u = 0) (ws us : List Bytes) :
    cmpComps (w :: ws) (u :: us) = cmpRest ws us := by
  rw [cmpComps, if_neg (not_not.mpr h), cmpRest]

/-- A component is equal to itself. -/
theorem compareComponents_self (w : Bytes) : compareComponents w w = 0 := by
  unfold compareComponents compareSpecialVersionForms
  split_ifs with h1 h2 h3
  · rw [Int.sub_self]
    rfl
  · rw [Int.sub_self]
    rfl
  · exact absurd ⟨h3, h3⟩ h1
  · exact absurd ⟨h3, h3⟩ h2

variable {C D D' R : List Bytes}

/-- More on both sides. -/
theorem cmpRest_of_more (hD : D ≠ [] ∧ D ≠ [[]]) (hD' : D' ≠ [] ∧ D' ≠ [[]]) :
    cmpRest D D' = cmpComps D D' := if_pos ⟨hD.1, hD'.1, hD.2, hD'.2⟩

/-- Equal components in front do not count. -/
theorem cmpComps_append (hC : C ≠ []) (hD : D ≠ []) (hD' : D' ≠ []) :
    cmpComps (C ++ D) (C ++ D') = cmpRest D D' := by
  induction C with
  | nil => exact absurd rfl hC
  | cons w C ih =>
    rw [cons_append, cons_append, cmpComps_of_eq (compareComponents_self w)]
    by_cases hnil : C = []
    · rw [hnil]
      rfl
    · have hmore : ∀ E : List Bytes, E ≠ [] → C ++ E ≠ [] ∧ C ++ E ≠ [[]] := by
        intro E hE
        have hlenC := length_pos_of_ne_nil hnil
        have hlenE := length_pos_of_ne_nil hE
        refine ⟨fun h => ?_, fun h => ?_⟩
        all_goals
          have hlen := congrArg List.length h
          simp only [length_append, length_cons, length_nil] at hlen
          omega
      rw [cmpRest_of_more (hmore D hD) (hmore D' hD'), ih hnil]

theorem cmpComps_append_of_more (C : List Bytes) (hD : D ≠ [] ∧ D ≠ [[]])
    (hD' : D' ≠ [] ∧ D' ≠ [[]]) : cmpComps (C ++ D) (C ++ D') = cmpComps D D' := by
  by_cases hC : C = []
  · rw [hC]
    rfl
  · rw [cmpComps_append hC hD.1 hD'.1, cmpRest_of_more hD hD']

/-- A number against a word. -/
theorem compareComponents_digit_word (hw : startsWithDigit w = true)
    (hu : startsWithDigit u = false) : compareComponents w u = (4 - formOrder u).sign ∧
      compareComponents u w = (formOrder u - 4).sign := by
  unfold compareComponents compareSpecialVersionForms
  rw [hw, hu]
  exact ⟨rfl, rfl⟩

theorem sign_of_le_zero (h : k ≤ 0) : k.sign = -1 ∨ k.sign = 0 := by
  rcases Int.lt_or_eq_of_le h with hlt | rfl
  · exact .inl (Int.sign_eq_neg_one_of_neg hlt)
  · exact .inr rfl

/-- `z` is above no component. -/
theorem compareComponents_low (u : Bytes) :
    compareComponents [122] u = -1 ∨ compareComponents [122] u = 0 := by
  have hform : formOrder [122] = -1 := by decide
  by_cases hu : startsWithDigit u = true
  · rw [(compareComponents_digit_word hu rfl).2]
    exact .inl rfl
  · have hle := (formOrder_le u).1
    rw [compareComponents_of_words rfl (Bool.eq_false_iff.mpr hu)]
    exact sign_of_le_zero (by omega)

/-- `p` is below no component. -/
theorem compareComponents_high (u : Bytes) :
    compareComponents u [112] = -1 ∨ compareComponents u [112] = 0 := by
  have hform : formOrder [112] = 5 := by decide
  by_cases hu : startsWithDigit u = true
  · rw [(compareComponents_digit_word hu rfl).1]
    exact .inl rfl
  · have hle := (formOrder_le u).2
    rw [compareComponents_of_words (Bool.eq_false_iff.mpr hu) rfl]
    exact sign_of_le_zero (by omega)

variable {m : ℕ}

/-- `z` is below every component, and below a component that is missing. -/
theorem cmpRest_low (hm : R.length < m) : cmpRest (replicate m [122]) R = -1 := by
  induction R generalizing m with
  | nil =>
    obtain ⟨m, rfl⟩ := Nat.exists_eq_add_one.2 hm.pos
    rfl
  | cons u R ih =>
    obtain ⟨m, rfl⟩ := Nat.exists_eq_add_one.2 hm.pos
    rw [replicate_succ]
    by_cases hempty : u :: R = [[]]
    · rw [hempty]
      rfl
    · rw [cmpRest_of_more ⟨cons_ne_nil _ _, by simp⟩ ⟨cons_ne_nil _ _, hempty⟩]
      rcases compareComponents_low u with hlt | heq
      · rw [cmpComps_of_ne (by rw [hlt]; decide), hlt]
      · rw [cmpComps_of_eq heq]
        exact ih (Nat.lt_of_succ_lt_succ hm)

/-- `p` is not below any component, nor below a component that is missing. -/
theorem cmpRest_high (hm : R.length < m) : cmpRest R (replicate m [112]) = -1 := by
  induction R generalizing m with
  | nil =>
    obtain ⟨m, rfl⟩ := Nat.exists_eq_add_one.2 hm.pos
    rfl
  | cons u R ih =>
    obtain ⟨m, rfl⟩ := Nat.exists_eq_add_one.2 hm.pos
    rw [replicate_succ]
    by_cases hempty : u :: R = [[]]
    · rw [hempty]
      rfl
    · rw [cmpRest_of_more ⟨cons_ne_nil _ _, hempty⟩ ⟨cons_ne_nil _ _, by simp⟩]
      rcases compareComponents_high u with hlt | heq
      · rw [cmpComps_of_ne (by rw [hlt]; decide), hlt]
      · rw [cmpComps_of_eq heq]
        exact ih (Nat.lt_of_succ_lt_succ hm)

/-! ## The other versions -/

/-- The canonical version, in two parts. -/
theorem canonFrom_append (lp lq : UInt8) (p q : Bytes) : canonFrom lp lq (p ++ q) =
      canonFrom lp lq p ++ canonFrom (p.getLastD lp) ((canonFrom lp lq p).getLastD lq) q := by
  induction p generalizing lp lq with
  | nil => rfl
  | cons c p ih =>
    rw [cons_append, canonFrom, canonFrom, ih, append_assoc, getLastD_cons, getLastD_append]

/-- A canonical version that goes on. -/
theorem canon_append (hs : s ≠ []) (q : Bytes) :
    canon (s ++ q) = canon s ++ canonFrom (s.getLastD 0) ((canon s).getLastD 0) q := by
  cases s with
  | nil => exact absurd rfl hs
  | cons c p =>
    rw [cons_append, canon, canon, canonFrom_append, cons_append, getLastD_cons, getLastD_cons]

/-- A text without a null. -/
theorem cstr_of_not_mem (h : 0 ∉ s) : cstr s = s := by
  unfold cstr
  rw [takeWhile_eq_self_iff]
  intro c hc
  rw [bne_iff_ne]
  rintro rfl
  exact h hc

/-- On texts without a null. -/
theorem versionCompare_of_not_mem (ha : 0 ∉ a) (hb : 0 ∉ b) (hnila : a ≠ []) (hnilb : b ≠ []) :
    versionCompare a b = some (cmpComps (comps (prepared a)) (comps (prepared b))) := by
  rw [versionCompare_eq, cstr_of_not_mem ha, cstr_of_not_mem hb, cmpVersions,
    if_neg fun h => h.elim hnila hnilb]

theorem emit_letter (lp : UInt8) : emit lp 46 122 = [122] := by
  grind [emit, isspecialver, isdig, isndig, isdigit, isalnum, isalpha, dotAfter]

/-- A dot at the end of the canonical form breaks the order. -/
theorem not_orderAt_of_dot (hnul : 0 ∉ s) (hhash : 35 ∉ prepared s)
    (hdot : (prepared s).getLast? = some 46) :
    Ordered (s ++ [122]) ∧ ¬ OrderAt s (s ++ [122]) [] := by
  have hne : s ≠ [] := by
    rintro rfl
    cases hdot
  have hhead : s.head? ≠ some 35 := by
    rw [← head?_prepared]
    exact fun h => hhash (mem_of_head? h)
  have hcanon : prepared s = canon s := if_neg hhead
  have hhead' : (s ++ [122]).head? ≠ some 35 := by rwa [head?_append_of_ne_nil s hne]
  obtain ⟨y, hy⟩ := getLast?_eq_some_iff.mp hdot
  have hlonger : prepared (s ++ [122]) = y ++ [46, 122] := by
    have hlast : (canon s).getLastD 0 = 46 := by
      rw [getLastD_eq_getLast?, ← hcanon, hdot]
      rfl
    rw [prepared, if_neg hhead', canon_append hne, hlast, canonFrom, canonFrom, emit_letter,
      ← hcanon, hy]
    simp
  constructor
  · rw [ordered_iff, hlonger]
    rw [hy] at hhash
    constructor
    · simpa using hhash
    · simp
  · rintro ⟨⟨r, h1, h2⟩, -⟩
    have hnul' : 0 ∉ s ++ [122] := by simpa using hnul
    have hne' : s ++ [122] ≠ [] := by simp
    rw [versionCompare_of_not_mem hnul hnul' hne hne', hlonger, hy, comps_append, comps_append,
      cmpComps_append (comps_ne_nil y) (comps_ne_nil _) (comps_ne_nil _)] at h1
    rw [versionCompare_of_not_mem hnul' hnul hne' hne, hlonger, hy, comps_append, comps_append,
      cmpComps_append (comps_ne_nil y) (comps_ne_nil _) (comps_ne_nil _)] at h2
    have hr : cmpRest (comps []) (comps [122]) = -1 := rfl
    have hr' : cmpRest (comps [122]) (comps []) = -1 := rfl
    have h1' := Option.some.inj h1
    have h2' := Option.some.inj h2
    omega

/-- The components of `zzz…` or `ppp…`, with a dot before each of them. -/
def letters (y : UInt8) : ℕ → Bytes
  | 0 => []
  | m + 1 => 46 :: y :: letters y m

theorem emit_dot (lp lq : UInt8) : emit lp lq 46 = dotAfter lq := by
  have hdig : isdig 46 = false := rfl
  have hndig : isndig 46 = false := rfl
  rw [emit, hdig, hndig, Bool.and_false, Bool.and_false]
  rfl

theorem emit_behind_dot (h : isalnum c = true) : emit 46 46 c = [c] := by
  grind [emit, isspecialver, isdig, isndig, isdigit, isalnum, isalpha, dotAfter]

theorem isalnum_of_isalpha (h : isalpha c = true) : isalnum c = true := by
  rw [isalnum, h, Bool.or_true]

theorem isalnum_of_isdigit (h : isdigit c = true) : isalnum c = true := by
  rw [isalnum, h, Bool.true_or]

theorem canonFrom_dot (hc : isalnum c = true) (hlq : lq ≠ 46) (lp : UInt8) (p : Bytes) :
    canonFrom lp lq (46 :: c :: p) = 46 :: c :: canonFrom c c p := by
  rw [canonFrom, emit_dot, dotAfter, if_pos hlq]
  show [46] ++ (emit 46 46 c ++ canonFrom c ((emit 46 46 c).getLastD 46) p) = _
  rw [emit_behind_dot hc]
  rfl

variable {y : UInt8}

theorem canonFrom_letters {z : UInt8} (hy : isalnum y = true) (hz : z ≠ 46) (m : ℕ) :
    canonFrom z z (letters y m) = letters y m := by
  induction m generalizing z with
  | zero => rfl
  | succ m ih => rw [letters, canonFrom_dot hy hz, ih (ne_dot_of_isalnum hy)]

variable {x : UInt8}

/-- Letters between dots are components. -/
theorem comps_letters (hx : x ≠ 46) (hy : y ≠ 46) (m : ℕ) :
    comps (x :: letters y m) = [x] :: replicate m [y] := by
  induction m generalizing x with
  | zero => exact comps_of_not_mem (by simpa [letters] using hx.symm)
  | succ m ih =>
    have hsingle : comps [x] = [[x]] := comps_of_not_mem (by simpa using hx.symm)
    rw [letters, ← singleton_append, comps_append, hsingle, ih hy]
    rfl

/-- What is before the first `#` that begins a component: nothing, or a digit is at its end. -/
def BeforeHash (pre : Bytes) : Prop :=
  pre = [] ∨ ∃ l d, pre = l ++ [d] ∧ isdigit d = true

/-- Such a text, and a dot to separate it. -/
def withDot (pre : Bytes) : Bytes := if pre = [] then [] else pre ++ [46]

/-- Where a chain breaks first. -/
theorem exists_of_not_isChain {α : Type} {r : α → α → Prop} {l : List α} (h : ¬ l.IsChain r) :
    ∃ a x y b, l = a ++ x :: y :: b ∧ ¬ r x y ∧ (a ++ [x]).IsChain r := by
  induction l with
  | nil => exact absurd .nil h
  | cons x l ih =>
    cases l with
    | nil => exact absurd (.singleton x) h
    | cons y l =>
      by_cases hr : r x y
      · have hrest : ¬ (y :: l).IsChain r := fun hrest =>
          h (isChain_cons_cons.mpr ⟨hr, hrest⟩)
        obtain ⟨a, x', y', b, heq, hbreak, hchain⟩ := ih hrest
        refine ⟨x :: a, x', y', b, congrArg (x :: ·) heq, hbreak, ?_⟩
        rw [cons_append, isChain_cons]
        refine ⟨fun z hz => ?_, hchain⟩
        have hhead : (a ++ [x']).head? = some y := by
          cases a with
          | nil => exact congrArg some (List.cons.inj heq).1.symm
          | cons a0 a => exact congrArg some (List.cons.inj heq).1.symm
        rw [hhead] at hz
        rwa [← Option.some.inj hz]
      · exact ⟨[], x, y, l, rfl, hr, .singleton x⟩

/-- The first `#` that stays. -/
theorem exists_beforeHash (h : 35 ∈ prepared s) :
    ∃ pre post, s = pre ++ 35 :: post ∧ BeforeHash pre ∧ 35 ∉ prepared pre := by
  have hbad := mt (not_mem_prepared_iff s).mpr (not_not.mpr h)
  by_cases hhead : s.head? = some 35
  · obtain ⟨post, rfl⟩ := head?_eq_some_iff.mp hhead
    exact ⟨[], post, rfl, .inl rfl, not_mem_nil⟩
  · have hchain := fun hchain => hbad ⟨hhead, hchain⟩
    obtain ⟨a, d, y, post, rfl, hbreak, hpre⟩ := exists_of_not_isChain hchain
    obtain ⟨hd, rfl⟩ := not_not.mp hbreak
    have hheads : (a ++ [d]).head? = (a ++ d :: 35 :: post).head? := by
      cases a <;> rfl
    refine ⟨a ++ [d], post, ?_, .inr ⟨a, d, rfl, hd⟩, ?_⟩
    · rw [append_assoc]
      rfl
    · rw [not_mem_prepared_iff, hheads]
      exact ⟨hhead, hpre⟩

theorem emit_digit (hd : isdigit d = true) (lp lq : UInt8) : ∃ es, emit lp lq d = es ++ [d] := by
  have hspecial : isspecialver d = false := by
    grind [isspecialver, isdigit]
  rw [emit, hspecial, isalnum_of_isdigit hd]
  by_cases hchange : (isndig lp && isdig d || isdig lp && isndig d) = true
  · rw [if_pos hchange]
    exact ⟨dotAfter lq, rfl⟩
  · rw [if_neg hchange]
    exact ⟨[], rfl⟩

theorem emit_hash (hd : isdigit d = true) : emit d d 35 = [46, 35] := by
  grind [emit, isspecialver, isdig, isndig, isdigit, isalnum, isalpha, dotAfter]

/-- A digit at the end is written. -/
theorem canon_concat_digit (hd : isdigit d = true) (l : Bytes) :
    ∃ v, canon (l ++ [d]) = v ++ [d] := by
  cases l with
  | nil => exact ⟨[], rfl⟩
  | cons c l =>
    obtain ⟨es, hes⟩ := emit_digit hd ((c :: l).getLastD 0) ((canon (c :: l)).getLastD 0)
    refine ⟨canon (c :: l) ++ es, ?_⟩
    rw [canon_append (cons_ne_nil c l), canonFrom, canonFrom, hes]
    simp

theorem head?_ne_of_isdigit (hd : isdigit d = true) (p : Bytes) : (d :: p).head? ≠ some 35 := by
  intro h
  rw [Option.some.inj h] at hd
  cases hd

/-- The canonical forms of two versions with such a beginning. -/
theorem exists_lead {pre : Bytes} (hpre : BeforeHash pre) (hhash : 35 ∉ prepared pre) :
    ∃ lead, 35 ∉ lead ∧ (lead = [] ∨ ∃ l, lead = l ++ [46]) ∧
      (∀ post, ∃ post', prepared (pre ++ 35 :: post) = lead ++ 35 :: post') ∧
      ∀ x y m, isdigit x = true → isalnum y = true →
        prepared (withDot pre ++ x :: letters y m) = lead ++ x :: letters y m := by
  rcases hpre with rfl | ⟨l, d, rfl, hd⟩
  · refine ⟨[], not_mem_nil, .inl rfl, fun post => ⟨post, rfl⟩, fun x y m hx hy => ?_⟩
    show prepared (x :: letters y m) = x :: letters y m
    rw [prepared, if_neg (head?_ne_of_isdigit hx _), canon,
      canonFrom_letters hy (ne_dot_of_isalnum (isalnum_of_isdigit hx))]
  · have hne : l ++ [d] ≠ [] := by simp
    have hdot := ne_dot_of_isalnum (isalnum_of_isdigit hd)
    obtain ⟨v, hv⟩ := canon_concat_digit hd l
    have hhead := ((not_mem_prepared_iff _).mp hhash).1
    have hcanon : ∀ q, prepared (l ++ [d] ++ q) = v ++ [d] ++ canonFrom d d q := by
      intro q
      have hheads : (l ++ [d] ++ q).head? ≠ some 35 := by
        rwa [head?_append_of_ne_nil _ hne]
      rw [prepared, if_neg hheads, canon_append hne, hv, getLastD_concat, getLastD_concat]
    refine ⟨v ++ [d] ++ [46], ?_, .inr ⟨_, rfl⟩, fun post => ?_, fun x y m hx hy => ?_⟩
    · rw [prepared, if_neg hhead, hv] at hhash
      simpa using hhash
    · rw [hcanon, canonFrom, emit_hash hd]
      simp
    · have hx' := isalnum_of_isdigit hx
      rw [withDot, if_neg hne, append_assoc, hcanon, singleton_append,
        canonFrom_dot hx' hdot, canonFrom_letters hy (ne_dot_of_isalnum hx')]
      simp

theorem mem_letters (h : c ∈ letters y m) : c = 46 ∨ c = y := by
  induction m with
  | zero => cases h
  | succ m ih =>
    rcases mem_cons.mp h with h | h
    · exact .inl h
    · exact (mem_cons.mp h).elim .inr ih

theorem getLast?_letters (hx : x ≠ 46) (hy : y ≠ 46) (m : ℕ) :
    (x :: letters y m).getLast? ≠ some 46 := by
  induction m generalizing x with
  | zero => exact fun h => hx (Option.some.inj h)
  | succ m ih =>
    exact ih hy

/-- What begins with a lead, and goes on with a digit and with letters. -/
theorem ordered_letters {lead q : Bytes} (hlead : 35 ∉ lead) (hx : isdigit x = true)
    (hy : isalpha y = true) (hq : prepared q = lead ++ x :: letters y m) : Ordered q := by
  have hx46 := ne_dot_of_isalnum (isalnum_of_isdigit hx)
  have hy46 := ne_dot_of_isalnum (isalnum_of_isalpha hy)
  rw [ordered_iff, hq]
  constructor
  · rw [mem_append, not_or]
    refine ⟨hlead, fun h => ?_⟩
    rcases mem_cons.mp h with h | h
    · rw [← h] at hx
      cases hx
    · rcases mem_letters h with h | h
      · cases h
      · rw [← h] at hy
        cases hy
  · rw [getLast?_append_of_ne_nil _ (cons_ne_nil x _)]
    exact getLast?_letters hx46 hy46 m

theorem comps_lead {lead : Bytes} (hlead : lead = [] ∨ ∃ l, lead = l ++ [46]) :
    ∃ C, ∀ q, comps (lead ++ q) = C ++ comps q := by
  rcases hlead with rfl | ⟨l, rfl⟩
  · exact ⟨[], fun q => rfl⟩
  · refine ⟨comps l, fun q => ?_⟩
    rw [append_assoc]
    exact comps_append l q

/-- A `#` opens a component. -/
theorem comps_hash (post : Bytes) : ∃ w R, comps (35 :: post) = w :: R ∧ w.head? = some 35 := by
  obtain ⟨R, hR⟩ := comps_head (35 :: post)
  exact ⟨_, R, hR, rfl⟩

/-- A word that begins with `#` is equal to every number. -/
theorem compareComponents_hash (hw : w.head? = some 35) (hx : isdigit x = true) :
    compareComponents [x] w = 0 ∧ compareComponents w [x] = 0 := by
  have hword : startsWithDigit w = false := by
    rw [startsWithDigit, hw]
    rfl
  have hcmp := compareComponents_digit_word (w := [x]) hx hword
  rwa [formOrder_of_hash hw] at hcmp

theorem not_mem_withDot {pre : Bytes} (hpre : 0 ∉ pre) (hx : x ≠ 0) (hy : y ≠ 0)
    (m : ℕ) : 0 ∉ withDot pre ++ x :: letters y m := by
  rw [mem_append, mem_cons, not_or, not_or]
  refine ⟨?_, hx.symm, fun h => ?_⟩
  · unfold withDot
    split_ifs
    · exact not_mem_nil
    · simpa using hpre
  · rcases mem_letters h with h | h
    · cases h
    · exact hy h.symm

/-- A `#` at the beginning of a component breaks the order: what is behind it is between `6.z` and
`5.p`. -/
theorem not_orderAt_of_hash (hnul : 0 ∉ s) (hhash : 35 ∈ prepared s) :
    ∃ b c, 0 ∉ b ∧ 0 ∉ c ∧ Ordered b ∧ Ordered c ∧ ¬ OrderAt b s c := by
  obtain ⟨pre, post, rfl, hpre, hhash'⟩ := exists_beforeHash hhash
  obtain ⟨lead, hlead, hend, hs, hq⟩ := exists_lead hpre hhash'
  obtain ⟨post', hpost⟩ := hs post
  obtain ⟨C, hC⟩ := comps_lead hend
  obtain ⟨w, R, hR, hw⟩ := comps_hash post'
  have hlow := hq 54 122 (R.length + 1) rfl rfl
  have hhigh := hq 53 112 (R.length + 1) rfl rfl
  have hnulpre : 0 ∉ pre := fun h => hnul (mem_append_left _ h)
  have hnulq : ∀ x y m, x ≠ 0 → y ≠ 0 → 0 ∉ withDot pre ++ x :: letters y m :=
    fun x y m hx hy => not_mem_withDot hnulpre hx hy m
  refine ⟨withDot pre ++ 54 :: letters 122 (R.length + 1),
    withDot pre ++ 53 :: letters 112 (R.length + 1), hnulq 54 122 _ (by decide) (by decide),
    hnulq 53 112 _ (by decide) (by decide), ordered_letters hlead rfl rfl hlow,
    ordered_letters hlead rfl rfl hhigh, ?_⟩
  rintro ⟨-, htrans⟩
  have hneq : ∀ x y m, withDot pre ++ x :: letters y m ≠ [] := fun x y m => by simp
  have hnes : pre ++ 35 :: post ≠ [] := by simp
  have hmore : ∀ (v : Bytes) (us : List Bytes), v ≠ [] →
      v :: us ≠ [] ∧ v :: us ≠ [[]] := fun v us hv =>
    ⟨cons_ne_nil v us, fun h => hv (List.cons.inj h).1⟩
  have hwne : w ≠ [] := by
    rintro rfl
    cases hw
  have h1 : cmpComps (C ++ [54] :: replicate (R.length + 1) [122]) (C ++ w :: R) = -1 := by
    rw [cmpComps_append_of_more C (hmore _ _ (by decide)) (hmore _ _ hwne),
      cmpComps_of_eq (compareComponents_hash hw rfl).1]
    exact cmpRest_low (Nat.lt_succ_self _)
  have h2 : cmpComps (C ++ w :: R) (C ++ [53] :: replicate (R.length + 1) [112]) = -1 := by
    rw [cmpComps_append_of_more C (hmore _ _ hwne) (hmore _ _ (by decide)),
      cmpComps_of_eq (compareComponents_hash hw rfl).2]
    exact cmpRest_high (Nat.lt_succ_self _)
  have h3 : cmpComps (C ++ [54] :: replicate (R.length + 1) [122])
      (C ++ [53] :: replicate (R.length + 1) [112]) = 1 := by
    have hcmp : compareComponents [54] [53] = 1 := by decide
    rw [cmpComps_append_of_more C (hmore _ _ (by decide)) (hmore _ _ (by decide)),
      cmpComps_of_ne (by decide), hcmp]
  have hle := htrans (-1) (-1) 1 ?_ ?_ ?_ (by decide) (by decide)
  · exact absurd hle (by decide)
  · rw [versionCompare_of_not_mem (hnulq _ _ _ (by decide) (by decide)) hnul (hneq _ _ _) hnes,
      hlow, hpost, hC, hC, comps_letters (by decide) (by decide), hR, h1]
  · rw [versionCompare_of_not_mem hnul (hnulq _ _ _ (by decide) (by decide)) hnes (hneq _ _ _),
      hhigh, hpost, hC, hC, comps_letters (by decide) (by decide), hR, h2]
  · rw [versionCompare_of_not_mem (hnulq _ _ _ (by decide) (by decide))
      (hnulq _ _ _ (by decide) (by decide)) (hneq _ _ _) (hneq _ _ _), hlow, hhigh, hC, hC,
      comps_letters (by decide) (by decide), comps_letters (by decide) (by decide), h3]

/-- Only what is before a null is compared. -/
theorem versionCompare_cstr (a b : Bytes) : versionCompare (cstr a) b = versionCompare a b ∧
      versionCompare b (cstr a) = versionCompare b a := by
  have htwice : cstr (cstr a) = cstr a := takeWhile_idem
  rw [versionCompare_eq, versionCompare_eq, versionCompare_eq, versionCompare_eq, htwice]
  exact ⟨rfl, rfl⟩

/-- The order of texts up to a null. -/
theorem orderAt_cstr (a b c : Bytes) :
    (OrderAt (cstr a) b c ↔ OrderAt a b c) ∧ (OrderAt b (cstr a) c ↔ OrderAt b a c) := by
  unfold OrderAt
  simp only [(versionCompare_cstr a _).1, (versionCompare_cstr a _).2, and_self]

/-- The comparison always has a result.  It is an order on the versions that are `Ordered`, and each
other version breaks the order with two of these. -/
theorem versionCompare_order_iff (a : Bytes) : (∀ b, (versionCompare a b).isSome) ∧
      (Ordered (cstr a) ↔ ∀ b c, Ordered (cstr b) → Ordered (cstr c) →
        OrderAt a b c ∧ OrderAt b a c ∧ OrderAt b c a) := by
  refine ⟨fun b => by rw [versionCompare_eq]; rfl, fun ha b c hb hc => ?_, fun h => ?_⟩
  · exact ⟨orderAt_of_ordered ha hb hc, orderAt_of_ordered hb ha hc, orderAt_of_ordered hb hc ha⟩
  · have hnul : 0 ∉ cstr a := fun h => by simpa using mem_takeWhile_imp h
    by_contra hbad
    rw [ordered_iff, not_and_or, not_not, not_not] at hbad
    by_cases hhash : 35 ∈ prepared (cstr a)
    · obtain ⟨b, c, hb0, hc0, hb, hc, hnot⟩ := not_orderAt_of_hash hnul hhash
      rw [← cstr_of_not_mem hb0] at hb
      rw [← cstr_of_not_mem hc0] at hc
      exact hnot ((orderAt_cstr a b c).2.mpr (h b c hb hc).2.1)
    · obtain ⟨hb, hnot⟩ := not_orderAt_of_dot hnul hhash (hbad.resolve_left hhash)
      have hb0 : 0 ∉ cstr a ++ [122] := by simpa using hnul
      rw [← cstr_of_not_mem hb0] at hb
      exact hnot ((orderAt_cstr a _ _).1.mpr (h _ [] hb (by decide)).1)

/-- `1.` is below itself. -/
theorem versionCompare_dot : ¬ OrderAt [49, 46] [49, 46] [49, 46] := by
  rintro ⟨⟨r, h1, h2⟩, -⟩
  have h1' := Option.some.inj h1
  have h2' := Option.some.inj h2
  omega

end PhpVersioning
