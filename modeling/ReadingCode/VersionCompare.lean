/-
# Comparison of versions

`php_canonicalize_version` separates the numbers and the words of a version by dots.
`php_version_compare` compares two versions component by component, and a component that is missing
with the pseudo word `#N#`.
-/
import ReadingCode.BoundedMemory
import ReadingCode.StrNatCmp

open BoundedMemory StrNatCmp

namespace PhpVersioning

open List Option

/-! ## The canonical form -/

/-- `isalpha` -/
def isalpha (c : UInt8) : Bool := (65 ≤ c ∧ c ≤ 90) ∨ (97 ≤ c ∧ c ≤ 122)

/-- `isalnum` -/
def isalnum (c : UInt8) : Bool := isdigit c || isalpha c

/-- `isdig` -/
def isdig (c : UInt8) : Bool := isdigit c && c != 46

/-- `isndig` -/
def isndig (c : UInt8) : Bool := !isdigit c && c != 46

/-- `isspecialver` -/
def isspecialver (c : UInt8) : Bool := c == 45 || c == 95 || c == 43

/-- `if (lq != '.') *q++ = '.'`, where `lq` is the character before `q`. -/
def putDot (a : Area UInt8) : Option (Area UInt8) :=
  match a.written.getLast? with
  | none => none
  | some lq => if lq ≠ 46 then a.put 46 else some a

/-- A character behind `lp`. -/
def canonicalizeChar (lp c : UInt8) (a : Area UInt8) : Option (Area UInt8) :=
  if isspecialver c then putDot a
  else if (isndig lp && isdig c) || (isdig lp && isndig c) then (putDot a).bind fun a => a.put c
  else if !isalnum c then putDot a
  else a.put c

/-- `while (*p)`, with `lp` the character before `p`. -/
def canonicalizeLoop : UInt8 → Bytes → Area UInt8 → Option (Area UInt8)
  | _, [], a => some a
  | lp, c :: p, a => (canonicalizeChar lp c a).bind fun a => canonicalizeLoop c p a

/-- `php_canonicalize_version` -/
def phpCanonicalizeVersion : Bytes → Option Bytes
  | [] => some []
  | c :: p => do
    let a ← (Area.alloc (2 * (p.length + 1) + 1)).put c
    let a ← canonicalizeLoop c p a
    let _ ← a.put 0
    pure a.written

/-! ## Components -/

/-- `special_forms` -/
def specialForms : List (Bytes × ℤ) := [
  ([100, 101, 118], 0), ([97, 108, 112, 104, 97], 1), ([97], 1), ([98, 101, 116, 97], 2), ([98], 2),
  ([82, 67], 3), ([114, 99], 3), ([35], 4), ([112, 108], 5), ([112], 5)]

/-- The order of the first form that a word begins with. -/
def formOrder (form : Bytes) : ℤ :=
  match specialForms.find? fun pp => pp.1.isPrefixOf form with
  | some pp => pp.2
  | none => -1

/-- `compare_special_version_forms` -/
def compareSpecialVersionForms (form1 form2 : Bytes) : ℤ :=
  (formOrder form1 - formOrder form2).sign

/-- `"#N#"` -/
def hashN : Bytes := [35, 78, 35]

/-- `LONG_MAX` -/
def longMax : ℕ := 2 ^ 63 - 1

/-- `strtol` of a string that begins with a digit. -/
def strtol (s : Bytes) : ℤ :=
  min ((s.takeWhile isdigit).foldl (fun n c => n * 10 + (c.toNat - 48)) 0) longMax

/-- `isdigit(*p)` -/
def startsWithDigit (p : Bytes) : Bool := p.head?.any isdigit

/-- A component of each version. -/
def compareComponents (p1 p2 : Bytes) : ℤ :=
  if startsWithDigit p1 ∧ startsWithDigit p2 then (strtol p1 - strtol p2).sign
  else if ¬ startsWithDigit p1 ∧ ¬ startsWithDigit p2 then compareSpecialVersionForms p1 p2
  else if startsWithDigit p1 then compareSpecialVersionForms hashN p2
  else compareSpecialVersionForms p1 hashN

/-! ## The comparison -/

/-- `strchr(p, '.')`, from which on the component at `p` is cut off: the component, and what is
behind the dot. -/
def strchrDot : Bytes → Option (Bytes × Option Bytes)
  | [] => none
  | c :: p =>
    if c = 46 then some ([], some p)
    else if c = 0 then some ([], none)
    else (strchrDot p).map fun w => (c :: w.1, w.2)

/-- The pointers, whether `n1` and `n2` are no null pointers, and `compare`.  A pointer into a
string is what there is from it on, with the NUL at the end. -/
structure Versions where
  p1 : Bytes
  p2 : Bytes
  n1 : Bool
  n2 : Bool
  compare : ℤ

/-- `while (*p1 && *p2 && n1 && n2)`, which is left, too, when `compare` is not 0. -/
def compareLoop : Loop Versions where
  guard v := v.p1.head? ≠ some 0 ∧ v.p2.head? ≠ some 0 ∧ v.n1 ∧ v.n2 ∧ v.compare = 0
  body v := do
    let (w1, r1) ← strchrDot v.p1
    let (w2, r2) ← strchrDot v.p2
    let compare := compareComponents w1 w2
    if compare ≠ 0 then pure { v with n1 := r1.isSome, n2 := r2.isSome, compare := compare }
    else pure ⟨r1.getD v.p1, r2.getD v.p2, r1.isSome, r2.isSome, compare⟩

/-- The string at a pointer. -/
def cstr (p : Bytes) : Bytes := p.takeWhile (· != 0)

/-- `ver1` or `ver2` -/
def prepare (orig : Bytes) : Option Bytes :=
  if orig.head? = some 35 then some orig else phpCanonicalizeVersion orig

/-- `php_version_compare`, which calls itself when one version has more components. -/
def phpVersionCompare : ℕ → Bytes → Bytes → Option ℤ
  | 0, _, _ => none
  | fuel + 1, orig1, orig2 =>
    if orig1 = [] ∨ orig2 = [] then
      if orig1 = [] ∧ orig2 = [] then some 0 else some (if orig1 ≠ [] then 1 else -1)
    else do
      let ver1 ← prepare orig1
      let ver2 ← prepare orig2
      let v ← compareLoop.run (ver1.length + 1) ⟨ver1 ++ [0], ver2 ++ [0], true, true, 0⟩
      if v.compare ≠ 0 then pure v.compare
      else if v.n1 then do
        let c ← v.p1.head?
        if isdigit c then pure 1 else phpVersionCompare fuel (cstr v.p1) hashN
      else if v.n2 then do
        let c ← v.p2.head?
        if isdigit c then pure (-1) else phpVersionCompare fuel hashN (cstr v.p2)
      else pure 0

/-- `php_version_compare` for two texts, which end at a NUL. -/
def versionCompare (a b : Bytes) : Option ℤ :=
  phpVersionCompare (2 * (a.length + b.length) + 2) (cstr a) (cstr b)

/-! ## What is written -/

/-- The dot that is written behind `lq`. -/
def dotAfter (lq : UInt8) : Bytes := if lq ≠ 46 then [46] else []

/-- What is written for a character. -/
def emit (lp lq c : UInt8) : Bytes :=
  if isspecialver c then dotAfter lq
  else if (isndig lp && isdig c) || (isdig lp && isndig c) then dotAfter lq ++ [c]
  else if !isalnum c then dotAfter lq
  else [c]

/-- What is written for the rest of a version. -/
def canonFrom : UInt8 → UInt8 → Bytes → Bytes
  | _, _, [] => []
  | lp, lq, c :: p => emit lp lq c ++ canonFrom c ((emit lp lq c).getLastD lq) p

/-- The canonical form. -/
def canon : Bytes → Bytes
  | [] => []
  | c :: p => c :: canonFrom c c p

variable {lp lq c : UInt8} {p t v w : Bytes}

variable {a : Area UInt8} {u v1 v2 : Bytes} {us ws : List Bytes}

theorem putDot_eq (h : a.written.getLast? = some lq) : putDot a = a.putAll (dotAfter lq) := by
  unfold putDot dotAfter
  rw [h]
  dsimp only
  split_ifs
  · rw [Area.putAll_singleton]
  · rfl

theorem length_emit (lp lq c : UInt8) : (emit lp lq c).length ≤ 2 := by
  unfold emit dotAfter
  split_ifs <;> simp

theorem getLast?_append_emit {xs : Bytes} (h : xs.getLast? = some lq) (lp c : UInt8) :
    (xs ++ emit lp lq c).getLast? = some ((emit lp lq c).getLastD lq) := by
  rcases eq_nil_or_concat (emit lp lq c) with he | ⟨es, e, he⟩
  · simpa [he] using h
  · simp [he, ← append_assoc]

theorem canonicalizeChar_eq (h : a.written.getLast? = some lq) (lp c : UInt8) :
    canonicalizeChar lp c a = a.putAll (emit lp lq c) := by
  unfold canonicalizeChar emit
  split_ifs
  · exact putDot_eq h
  · rw [putDot_eq h, Area.putAll_append]
    simp only [Area.putAll_singleton]
  · exact putDot_eq h
  · rw [Area.putAll_singleton]

theorem canonicalizeLoop_eq (lp lq : UInt8) (p : Bytes) (a : Area UInt8)
    (h : a.written.getLast? = some lq) (hroom : 2 * p.length ≤ a.room) :
    canonicalizeLoop lp p a = a.putAll (canonFrom lp lq p) := by
  induction p generalizing lp lq a with
  | nil => rfl
  | cons c p ih =>
    have hlen := length_emit lp lq c
    rw [length_cons] at hroom
    rw [canonicalizeLoop, canonFrom, canonicalizeChar_eq h, Area.putAll_append,
      Area.putAll_of_le a _ (by omega)]
    exact ih c _ _ (getLast?_append_emit h lp c) (by simp only; omega)

theorem length_canonFrom (lp lq : UInt8) (p : Bytes) :
    (canonFrom lp lq p).length ≤ 2 * p.length := by
  induction p generalizing lp lq with
  | nil => exact Nat.le_refl 0
  | cons c p ih =>
    have hemit := length_emit lp lq c
    have hrest := ih c ((emit lp lq c).getLastD lq)
    rw [canonFrom, length_append, length_cons]
    omega

/-- The buffer suffices. -/
theorem phpCanonicalizeVersion_eq (v : Bytes) : phpCanonicalizeVersion v = some (canon v) := by
  cases v with
  | nil => rfl
  | cons c p =>
    have hlen := length_canonFrom c c p
    have hput : (Area.alloc (2 * (p.length + 1) + 1) : Area UInt8).put c =
        some ⟨[c], 2 * (p.length + 1)⟩ := rfl
    rw [phpCanonicalizeVersion, hput]
    simp only [bind_eq_bind, bind_some]
    rw [canonicalizeLoop_eq c c p _ rfl (by simp only; omega),
      Area.putAll_of_le _ _ (by simp only; omega), bind_some,
      Area.put_of_pos _ _ (by simp only; omega)]
    rfl

/-! ## The components of a version -/

/-- The components of a version. -/
def comps (v : Bytes) : List Bytes := v.splitOn 46

theorem comps_of_not_mem (h : 46 ∉ v) : comps v = [v] := splitOn_eq_singleton h

theorem comps_append (v t : Bytes) : comps (v ++ 46 :: t) = comps v ++ comps t :=
  splitOn_append_cons_self v t

theorem comps_ne_nil (v : Bytes) : comps v ≠ [] := splitOn_ne_nil 46 v

theorem comps_eq_nil_iff (v : Bytes) : comps v = [[]] ↔ v = [] := by
  constructor
  · intro h
    have hback : [46].intercalate (comps v) = v := intercalate_splitOn 46
    rw [h] at hback
    exact hback.symm
  · rintro rfl
    rfl

theorem comps_cons (hc : c ≠ 46) (v : Bytes) : comps (c :: v) = (comps v).modifyHead (c :: ·) := by
  rw [comps, splitOn_cons_eq_if_modifyHead, if_neg (by simpa using hc)]
  rfl

/-- What `strchr` finds in a version: the first component, and the rest if there is a dot. -/
theorem strchrDot_eq (hv : 0 ∉ v) :
    ∃ w, ∃ rest : Option Bytes, strchrDot (v ++ [0]) = some (w, rest.map (· ++ [0])) ∧
      comps v = w :: rest.elim [] comps ∧
      ∀ t ∈ rest, 0 ∉ t ∧ t.length < v.length ∧ t.count 46 < v.count 46 := by
  induction v with
  | nil => exact ⟨[], none, rfl, comps_of_not_mem not_mem_nil, fun t ht => by cases ht⟩
  | cons c v ih =>
    obtain ⟨hc, hrest⟩ := ne_and_not_mem_of_not_mem_cons hv
    by_cases hdot : c = 46
    · rw [hdot]
      refine ⟨[], some v, rfl, comps_append [] v, fun t ht => ?_⟩
      obtain rfl := Option.some.inj ht
      exact ⟨hrest, Nat.lt_succ_self _, by simp⟩
    · obtain ⟨w, rest, hstr, hcomps, hlen⟩ := ih hrest
      rw [cons_append, strchrDot, if_neg hdot, if_neg (Ne.symm hc), comps_cons hdot, hstr, hcomps]
      refine ⟨c :: w, rest, rfl, rfl, fun t ht => ?_⟩
      obtain ⟨ht0, hlt, hcount⟩ := hlen t ht
      exact ⟨ht0, Nat.lt_succ_of_lt hlt, by rwa [count_cons_of_ne hdot]⟩

/-- The rest of a version compared with `#N#`: its first component that does not begin with `#`. -/
def versusN : List Bytes → ℤ
  | [] => 0
  | w :: ws =>
    if startsWithDigit w then 1
    else if w.head? = some 35 then versusN ws
    else (formOrder w - 4).sign

/-- The comparison of the components.  It ends, too, before an empty component at the end. -/
def cmpComps : List Bytes → List Bytes → ℤ
  | w :: ws, u :: us =>
    if compareComponents w u ≠ 0 then compareComponents w u
    else if ws ≠ [] ∧ us ≠ [] ∧ ws ≠ [[]] ∧ us ≠ [[]] then cmpComps ws us
    else if ws ≠ [] then versusN ws
    else -versusN us
  | _, _ => 0

theorem cmpComps_of_ne (h : compareComponents w u ≠ 0)
    (ws us : List Bytes) : cmpComps (w :: ws) (u :: us) = compareComponents w u := by
  rw [cmpComps, if_pos h]

theorem cmpComps_of_more
    (h : compareComponents w u = 0) (hmore : ws ≠ [] ∧ us ≠ [] ∧ ws ≠ [[]] ∧ us ≠ [[]]) :
    cmpComps (w :: ws) (u :: us) = cmpComps ws us := by
  rw [cmpComps, if_neg (not_not.mpr h), if_pos hmore]

theorem cmpComps_of_left
    (h : compareComponents w u = 0) (hws : ws ≠ []) (hend : us = [] ∨ ws = [[]] ∨ us = [[]]) :
    cmpComps (w :: ws) (u :: us) = versusN ws := by
  rw [cmpComps, if_neg (not_not.mpr h), if_neg, if_pos hws]
  rintro ⟨-, h1, h2, h3⟩
  rcases hend with hend | hend | hend
  · exact h1 hend
  · exact h2 hend
  · exact h3 hend

theorem cmpComps_of_right (h : compareComponents w u = 0)
    (us : List Bytes) : cmpComps [w] (u :: us) = -versusN us := by
  rw [cmpComps, if_neg (not_not.mpr h), if_neg fun h => h.1 rfl]
  exact if_neg fun h => h rfl

/-- The loop is left. -/
theorem compareLoop_stop (fuel : ℕ) {v : Versions} (hv : v.n1 = false ∨ v.n2 = false ∨
    v.compare ≠ 0 ∨ v.p1.head? = some 0 ∨ v.p2.head? = some 0) :
    compareLoop.run fuel v = some v := by
  refine Loop.run_of_not_guard fuel (decide_eq_false ?_)
  rintro ⟨h1, h2, h3, h4, h5⟩
  rcases hv with h | h | h | h | h
  · rw [h] at h3
    cases h3
  · rw [h] at h4
    cases h4
  · exact h h5
  · exact h1 h
  · exact h2 h

/-- A round of the loop. -/
theorem compareLoop_round (fuel : ℕ) {w1 w2 : Bytes} {rest1 rest2 : Option Bytes}
    (hv1 : 0 ∉ v1) (hv2 : 0 ∉ v2) (hne1 : v1 ≠ []) (hne2 : v2 ≠ [])
    (hstr1 : strchrDot (v1 ++ [0]) = some (w1, rest1.map (· ++ [0])))
    (hstr2 : strchrDot (v2 ++ [0]) = some (w2, rest2.map (· ++ [0]))) :
    compareLoop.run (fuel + 1) ⟨v1 ++ [0], v2 ++ [0], true, true, 0⟩ =
      compareLoop.run fuel (if compareComponents w1 w2 ≠ 0 then
          ⟨v1 ++ [0], v2 ++ [0], rest1.isSome, rest2.isSome, compareComponents w1 w2⟩
        else ⟨(rest1.map (· ++ [0])).getD (v1 ++ [0]), (rest2.map (· ++ [0])).getD (v2 ++ [0]),
          rest1.isSome, rest2.isSome, compareComponents w1 w2⟩) := by
  have hfirst : ∀ v : Bytes, 0 ∉ v → v ≠ [] → (v ++ [0]).head? ≠ some 0 := by
    intro v hv hne
    obtain ⟨c, t, rfl⟩ := exists_cons_of_ne_nil hne
    exact fun h => hv (mem_cons.mpr (.inl (Option.some.inj h).symm))
  have hguard : compareLoop.guard ⟨v1 ++ [0], v2 ++ [0], true, true, 0⟩ = true :=
    decide_eq_true ⟨hfirst v1 hv1 hne1, hfirst v2 hv2 hne2, rfl, rfl, rfl⟩
  rw [Loop.run_of_guard fuel hguard]
  simp only [compareLoop, hstr1, hstr2, bind_eq_bind, bind_some, isSome_map]
  split_ifs <;> rfl

/-- The first components decide. -/
theorem compareLoop_of_ne (fuel : ℕ) {w1 w2 : Bytes}
    (hv1 : 0 ∉ v1) (hv2 : 0 ∉ v2) (hne1 : v1 ≠ []) (hne2 : v2 ≠ []) (hcomps1 : comps v1 = w1 :: ws)
    (hcomps2 : comps v2 = w2 :: us) (hcompare : compareComponents w1 w2 ≠ 0) :
    ∃ v, compareLoop.run (fuel + 1) ⟨v1 ++ [0], v2 ++ [0], true, true, 0⟩ = some v ∧
      v.compare = compareComponents w1 w2 := by
  obtain ⟨w1', rest1, hstr1, hcomps1', -⟩ := strchrDot_eq hv1
  obtain ⟨w2', rest2, hstr2, hcomps2', -⟩ := strchrDot_eq hv2
  obtain rfl : w1' = w1 := (List.cons.inj (hcomps1'.symm.trans hcomps1)).1
  obtain rfl : w2' = w2 := (List.cons.inj (hcomps2'.symm.trans hcomps2)).1
  rw [compareLoop_round fuel hv1 hv2 hne1 hne2 hstr1 hstr2, if_pos hcompare]
  exact ⟨_, compareLoop_stop fuel (.inr (.inr (.inl hcompare))), rfl⟩

/-- How the loop ends when it begins at `v1` and `v2`, and what the comparison of the rests is. -/
def Ends (v1 v2 : Bytes) (r : ℤ) (v : Versions) : Prop :=
  (v.compare ≠ 0 ∧ r = v.compare) ∨
  (v.compare = 0 ∧
    ((v.n1 = true ∧ ∃ t, v.p1 = t ++ [0] ∧ 0 ∉ t ∧ t.count 46 < v1.count 46 ∧
      r = versusN (comps t)) ∨
     (v.n1 = false ∧ v.n2 = true ∧ ∃ t, v.p2 = t ++ [0] ∧ 0 ∉ t ∧ t.count 46 < v2.count 46 ∧
      r = -versusN (comps t)) ∨
     (v.n1 = false ∧ v.n2 = false ∧ r = 0)))

theorem Ends.mono {t1 t2 : Bytes} {r : ℤ} {v : Versions} (h : Ends t1 t2 r v)
    (h1 : t1.count 46 ≤ v1.count 46) (h2 : t2.count 46 ≤ v2.count 46) : Ends v1 v2 r v := by
  rcases h with h | ⟨hc, ⟨hn, t, hp, ht, hlt, hr⟩ | ⟨hn1, hn2, t, hp, ht, hlt, hr⟩ | h⟩
  · exact .inl h
  · exact .inr ⟨hc, .inl ⟨hn, t, hp, ht, lt_of_lt_of_le hlt h1, hr⟩⟩
  · exact .inr ⟨hc, .inr (.inl ⟨hn1, hn2, t, hp, ht, lt_of_lt_of_le hlt h2, hr⟩)⟩
  · exact .inr ⟨hc, .inr (.inr h)⟩

theorem compareLoop_ends (fuel : ℕ) (v1 v2 : Bytes) (hv1 : 0 ∉ v1) (hv2 : 0 ∉ v2)
    (hne1 : v1 ≠ []) (hne2 : v2 ≠ []) (hfuel : v1.length ≤ fuel) :
    ∃ v, compareLoop.run fuel ⟨v1 ++ [0], v2 ++ [0], true, true, 0⟩ = some v ∧
      Ends v1 v2 (cmpComps (comps v1) (comps v2)) v := by
  induction fuel generalizing v1 v2 with
  | zero => exact absurd (length_eq_zero_iff.mp (Nat.le_zero.mp hfuel)) hne1
  | succ fuel ih =>
    obtain ⟨w1, rest1, hstr1, hcomps1, hrest1⟩ := strchrDot_eq hv1
    obtain ⟨w2, rest2, hstr2, hcomps2, hrest2⟩ := strchrDot_eq hv2
    rw [compareLoop_round fuel hv1 hv2 hne1 hne2 hstr1 hstr2, hcomps1, hcomps2]
    by_cases hcompare : compareComponents w1 w2 = 0
    · rw [hcompare]
      cases rest1 with
      | none =>
        refine ⟨_, compareLoop_stop fuel (.inl rfl), .inr ⟨rfl, .inr ?_⟩⟩
        have hright := cmpComps_of_right hcompare (rest2.elim [] comps)
        cases rest2 with
        | none => exact .inr ⟨rfl, rfl, hright⟩
        | some t2 =>
          obtain ⟨ht2, -, hlt2⟩ := hrest2 t2 rfl
          exact .inl ⟨rfl, rfl, t2, rfl, ht2, hlt2, hright⟩
      | some t1 =>
        obtain ⟨ht1, hlen1, hlt1⟩ := hrest1 t1 rfl
        cases rest2 with
        | none =>
          refine ⟨_, compareLoop_stop fuel (.inr (.inl rfl)), .inr ⟨rfl, .inl ⟨rfl, t1, rfl, ht1,
            hlt1, ?_⟩⟩⟩
          exact cmpComps_of_left hcompare (comps_ne_nil t1) (.inl rfl)
        | some t2 =>
          obtain ⟨ht2, -, hlt2⟩ := hrest2 t2 rfl
          by_cases hmore : t1 ≠ [] ∧ t2 ≠ []
          · obtain ⟨v, hrun, hends⟩ := ih t1 t2 ht1 ht2 hmore.1 hmore.2 (by omega)
            refine ⟨v, hrun, ?_⟩
            have hcomps := cmpComps_of_more hcompare ⟨comps_ne_nil t1, comps_ne_nil t2,
              (comps_eq_nil_iff t1).not.mpr hmore.1, (comps_eq_nil_iff t2).not.mpr hmore.2⟩
            rw [elim_some, elim_some, hcomps]
            exact hends.mono (le_of_lt hlt1) (le_of_lt hlt2)
          · have hempty : t1 = [] ∨ t2 = [] := by
              rwa [not_and_or, not_not, not_not] at hmore
            have hstopped : (t1 ++ [0]).head? = some 0 ∨ (t2 ++ [0]).head? = some 0 := by
              rcases hempty with rfl | rfl
              · exact .inl rfl
              · exact .inr rfl
            have hend : comps t2 = [] ∨ comps t1 = [[]] ∨ comps t2 = [[]] := by
              rw [comps_eq_nil_iff, comps_eq_nil_iff]
              exact .inr hempty
            exact ⟨_, compareLoop_stop fuel (.inr (.inr (.inr hstopped))), .inr ⟨rfl, .inl ⟨rfl, t1,
              rfl, ht1, hlt1, cmpComps_of_left hcompare (comps_ne_nil t1) hend⟩⟩⟩
    · rw [if_pos hcompare, cmpComps_of_ne hcompare]
      exact ⟨_, compareLoop_stop fuel (.inr (.inr (.inl hcompare))), .inl ⟨hcompare, rfl⟩⟩

/-! ## Words -/

theorem formOrder_of_hash (h : w.head? = some 35) : formOrder w = 4 := by
  cases w with
  | nil => cases h
  | cons c w =>
    obtain rfl : c = 35 := Option.some.inj h
    simp [formOrder, specialForms, find?, isPrefixOf]

theorem formOrder_ne (h : w.head? ≠ some 35) : formOrder w ≠ 4 := by
  unfold formOrder
  cases hfind : specialForms.find? fun pp => pp.1.isPrefixOf w with
  | none => decide
  | some pp =>
    have hmem := mem_of_find?_eq_some hfind
    have hword := find?_some hfind
    have hall : ∀ pp ∈ specialForms, pp.2 = 4 → pp.1 = [35] := by decide
    intro horder
    rw [hall pp hmem horder, isPrefixOf_iff_prefix] at hword
    obtain ⟨t, rfl⟩ := hword
    exact h rfl

theorem formOrder_le (w : Bytes) : -1 ≤ formOrder w ∧ formOrder w ≤ 5 := by
  unfold formOrder
  cases hfind : specialForms.find? fun pp => pp.1.isPrefixOf w with
  | none => decide
  | some pp =>
    have hmem := mem_of_find?_eq_some hfind
    have hall : ∀ pp ∈ specialForms, -1 ≤ pp.2 ∧ pp.2 ≤ 5 := by decide
    exact hall pp hmem

theorem isPrefixOf_takeWhile {name : Bytes} (hname : name.all isalpha = true)
    (s : Bytes) : name.isPrefixOf (s.takeWhile isalpha) = name.isPrefixOf s := by
  induction name generalizing s with
  | nil => rfl
  | cons c name ih =>
    obtain ⟨hc, hrest⟩ := (Bool.and_eq_true _ _).mp hname
    cases s with
    | nil => rfl
    | cons d s =>
      by_cases hd : isalpha d = true
      · rw [takeWhile_cons_of_pos hd, isPrefixOf_cons_cons, isPrefixOf_cons_cons, ih hrest]
      · have hne : (c == d) = false := beq_false_of_ne fun h => hd (h ▸ hc)
        rw [takeWhile_cons_of_neg hd, isPrefixOf_cons_cons, hne]
        rfl

/-- Only the letters behind the first character of a word matter. -/
theorem formOrder_takeWhile (c : UInt8) (s : Bytes) :
    formOrder (c :: s.takeWhile isalpha) = formOrder (c :: s) := by
  have hsame : ∀ pp ∈ specialForms,
      pp.1.isPrefixOf (c :: s.takeWhile isalpha) = pp.1.isPrefixOf (c :: s) := by
    intro pp hpp
    have hall : ∀ pp ∈ specialForms, pp.1.tail.all isalpha = true := by decide
    have htail := hall pp hpp
    obtain ⟨name, order⟩ := pp
    cases name with
    | nil => rfl
    | cons d name =>
      exact congrArg ((d == c) && ·) (isPrefixOf_takeWhile htail s)
  unfold formOrder
  rw [find?_congr hsame]

/-! ## The first component -/

/-- The version whose components are compared. -/
def prepared (orig : Bytes) : Bytes :=
  if orig.head? = some 35 then orig else canon orig

theorem prepare_eq (orig : Bytes) : prepare orig = some (prepared orig) := by
  unfold prepare prepared
  split_ifs
  · rfl
  · exact phpCanonicalizeVersion_eq orig

theorem comps_head (v : Bytes) : ∃ ws, comps v = v.takeWhile (· != 46) :: ws := by
  induction v with
  | nil => exact ⟨[], rfl⟩
  | cons c v ih =>
    by_cases hc : c = 46
    · rw [hc]
      exact ⟨comps v, comps_append [] v⟩
    · obtain ⟨ws, hws⟩ := ih
      rw [takeWhile_cons_of_pos (by simpa using hc), comps_cons hc, hws]
      exact ⟨ws, rfl⟩

theorem isalpha_of_isspecialver (h : isspecialver c = true) : isalpha c = false := by
  grind [isspecialver, isalpha]

theorem isalpha_of_isdig (h : isdig c = true) : isalpha c = false := by
  grind [isdig, isdigit, isalpha]

theorem isalpha_iff : isalpha c = true ↔ isalnum c = true ∧ isdig c = false := by
  grind [isdig, isdigit, isalpha, isalnum]

theorem isdigit_of_isalpha (h : isalpha c = true) : isdigit c = false ∧ c ≠ 46 := by
  grind [isdigit, isalpha]

/-- Behind a character of a word a letter is written as it is, and otherwise a dot is written. -/
theorem emit_of_word (hdigit : isdigit c = false) (hdot : c ≠ 46) (d : UInt8) :
    (isalpha d = true ∧ emit c c d = [d]) ∨ (isalpha d = false ∧ ∃ es, emit c c d = 46 :: es) := by
  have hndig : isndig c = true := by simp [isndig, hdigit, hdot]
  have hdig : isdig c = false := by simp [isdig, hdigit]
  have hdots : dotAfter c = [46] := if_pos hdot
  unfold emit
  rw [hndig, hdig, hdots]
  simp only [Bool.true_and, Bool.false_and, Bool.or_false]
  split_ifs with hspecial hd hother
  · exact .inr ⟨isalpha_of_isspecialver hspecial, [], rfl⟩
  · exact .inr ⟨isalpha_of_isdig hd, [d], rfl⟩
  · refine .inr ⟨Bool.eq_false_iff.mpr fun halpha => ?_, [], rfl⟩
    rw [(isalpha_iff.mp halpha).1] at hother
    cases hother
  · refine .inl ⟨isalpha_iff.mpr ⟨?_, Bool.eq_false_iff.mpr hd⟩, rfl⟩
    simpa using hother

/-- Behind a character of a word the component goes on with what there is of letters. -/
theorem takeWhile_canonFrom (hdigit : isdigit c = false) (hdot : c ≠ 46) (s : Bytes) :
    (canonFrom c c s).takeWhile (· != 46) = s.takeWhile isalpha := by
  induction s generalizing c with
  | nil => rfl
  | cons d s ih =>
    rcases emit_of_word hdigit hdot d with ⟨halpha, hemit⟩ | ⟨halpha, es, hemit⟩
    · obtain ⟨hd, hd46⟩ := isdigit_of_isalpha halpha
      rw [takeWhile_cons_of_pos halpha, canonFrom, hemit, singleton_append,
        takeWhile_cons_of_pos (by simpa using hd46)]
      exact congrArg (d :: ·) (ih hd hd46)
    · rw [takeWhile_cons_of_neg (by simp [halpha]), canonFrom, hemit, cons_append,
        takeWhile_cons_of_neg (by decide)]

theorem takeWhile_isalpha_takeWhile (s : Bytes) :
    (s.takeWhile (· != 46)).takeWhile isalpha = s.takeWhile isalpha := by
  induction s with
  | nil => rfl
  | cons c s ih =>
    by_cases hc : isalpha c = true
    · rw [takeWhile_cons_of_pos (by simpa using (isdigit_of_isalpha hc).2),
        takeWhile_cons_of_pos hc, takeWhile_cons_of_pos hc, ih]
    · rw [takeWhile_cons_of_neg hc]
      by_cases hdot : c = 46
      · rw [takeWhile_cons_of_neg (by simpa using hdot)]
        rfl
      · rw [takeWhile_cons_of_pos (by simpa using hdot), takeWhile_cons_of_neg hc]

theorem startsWithDigit_takeWhile (t : Bytes) :
    startsWithDigit (t.takeWhile (· != 46)) = startsWithDigit t := by
  cases t with
  | nil => rfl
  | cons c t =>
    by_cases hdot : c = 46
    · rw [hdot]
      rfl
    · rw [takeWhile_cons_of_pos (by simpa using hdot)]
      rfl

/-- The first word of a version has the same order in the canonical form. -/
theorem formOrder_canon (hdigit : startsWithDigit t = false) :
    formOrder ((canon t).takeWhile (· != 46)) = formOrder (t.takeWhile (· != 46)) := by
  cases t with
  | nil => rfl
  | cons c s =>
    by_cases hdot : c = 46
    · rw [hdot]
      rfl
    · rw [canon, takeWhile_cons_of_pos (by simpa using hdot),
        takeWhile_cons_of_pos (by simpa using hdot), takeWhile_canonFrom hdigit hdot,
        ← formOrder_takeWhile c (s.takeWhile (· != 46)), takeWhile_isalpha_takeWhile]

theorem head?_canon (t : Bytes) : (canon t).head? = t.head? := by
  cases t <;> rfl

theorem head?_prepared (t : Bytes) : (prepared t).head? = t.head? := by
  unfold prepared
  split_ifs
  · rfl
  · exact head?_canon t

theorem prepared_ne_nil (h : t ≠ []) : prepared t ≠ [] := by
  have hhead := head?_prepared t
  intro hnil
  rw [hnil] at hhead
  exact h (head?_eq_none_iff.mp hhead.symm)

theorem length_prepared (t : Bytes) : (prepared t).length ≤ 2 * t.length := by
  unfold prepared
  split_ifs
  · omega
  · cases t with
    | nil => exact Nat.le_refl 0
    | cons c p =>
      have hlen := length_canonFrom c c p
      rw [canon, length_cons, length_cons]
      omega

theorem not_mem_emit (hc : c ≠ 0) (lp lq : UInt8) : 0 ∉ emit lp lq c := by
  have hdots : (0 : UInt8) ∉ dotAfter lq := by
    unfold dotAfter
    split_ifs <;> simp
  have hsingle : (0 : UInt8) ∉ [c] := fun h => hc (mem_singleton.mp h).symm
  unfold emit
  split_ifs
  · exact hdots
  · rw [mem_append, not_or]
    exact ⟨hdots, hsingle⟩
  · exact hdots
  · exact hsingle

theorem not_mem_canonFrom (lp lq : UInt8) (h : 0 ∉ p) : 0 ∉ canonFrom lp lq p := by
  induction p generalizing lp lq with
  | nil => exact h
  | cons c p ih =>
    obtain ⟨hc, hrest⟩ := ne_and_not_mem_of_not_mem_cons h
    rw [canonFrom, mem_append, not_or]
    exact ⟨not_mem_emit hc.symm lp lq, ih _ _ hrest⟩

theorem not_mem_prepared (h : 0 ∉ t) : 0 ∉ prepared t := by
  unfold prepared
  split_ifs
  · exact h
  · cases t with
    | nil => exact h
    | cons c p =>
      obtain ⟨hc, hrest⟩ := ne_and_not_mem_of_not_mem_cons h
      rw [canon, mem_cons, not_or]
      exact ⟨hc, not_mem_canonFrom c c hrest⟩

/-! ## What the comparison is -/

/-- What the recursion has for a rest that is compared with `#N#`. -/
def RestsAt (fuel n : ℕ) : Prop :=
  ∀ t : Bytes, 0 ∉ t → startsWithDigit t = false → t.count 46 < n →
    phpVersionCompare fuel t hashN = some (versusN (comps t)) ∧
      phpVersionCompare fuel hashN t = some (-versusN (comps t))

theorem versusN_of_digit (hdigit : startsWithDigit t = true) : versusN (comps t) = 1 := by
  obtain ⟨ws, hws⟩ := comps_head t
  rw [hws, versusN, if_pos (by rwa [startsWithDigit_takeWhile])]

/-- After the loop. -/
theorem phpVersionCompare_of_ends {fuel : ℕ} {o1 o2 : Bytes} {r : ℤ} {v : Versions}
    (hne1 : o1 ≠ []) (hne2 : o2 ≠ []) (hrun : compareLoop.run ((prepared o1).length + 1)
      ⟨prepared o1 ++ [0], prepared o2 ++ [0], true, true, 0⟩ = some v)
    (hends : Ends (prepared o1) (prepared o2) r v)
    (hrest1 : v.compare = 0 → RestsAt fuel ((prepared o1).count 46))
    (hrest2 : v.compare = 0 → RestsAt fuel ((prepared o2).count 46)) :
    phpVersionCompare (fuel + 1) o1 o2 = some r := by
  have hne : ¬ (o1 = [] ∨ o2 = []) := fun h => h.elim hne1 hne2
  have hhead : ∀ t : Bytes,
      ∃ c, (t ++ [0]).head? = some c ∧ isdigit c = startsWithDigit t := by
    intro t
    cases t with
    | nil => exact ⟨0, rfl, rfl⟩
    | cons c t => exact ⟨c, rfl, rfl⟩
  have hcstr : ∀ t : Bytes, 0 ∉ t → cstr (t ++ [0]) = t := by
    intro t ht
    have hall : ∀ c ∈ t, (c != 0) = true := by
      intro c hc
      rw [bne_iff_ne]
      rintro rfl
      exact ht hc
    rw [cstr, takeWhile_append_of_pos hall]
    exact append_nil t
  rw [phpVersionCompare, if_neg hne, prepare_eq, prepare_eq]
  simp only [bind_eq_bind, bind_some, hrun]
  rcases hends with ⟨hcmp, rfl⟩ | ⟨hcmp, hends⟩
  · rw [if_pos hcmp]
    rfl
  rw [if_neg (not_not.mpr hcmp)]
  rcases hends with ⟨hn1, t, hp, ht, hlt, rfl⟩ | ⟨hn1, hn2, t, hp, ht, hlt, rfl⟩ | ⟨hn1, hn2, rfl⟩
  · obtain ⟨c, hc, hcd⟩ := hhead t
    rw [if_pos hn1, hp, hc, bind_some, hcd, hcstr t ht]
    by_cases hdigit : startsWithDigit t = true
    · rw [if_pos hdigit, versusN_of_digit hdigit]
      rfl
    · rw [if_neg hdigit]
      exact (hrest1 hcmp t ht (Bool.eq_false_iff.mpr hdigit) hlt).1
  · obtain ⟨c, hc, hcd⟩ := hhead t
    rw [hn1, if_pos hn2, hp, hc, bind_some, hcd, hcstr t ht]
    by_cases hdigit : startsWithDigit t = true
    · rw [if_pos hdigit, versusN_of_digit hdigit]
      rfl
    · rw [if_neg hdigit]
      exact (hrest2 hcmp t ht (Bool.eq_false_iff.mpr hdigit) hlt).2
  · rw [hn1, hn2]
    rfl

theorem comps_hashN : comps hashN = [hashN] := by decide

theorem formOrder_hashN : formOrder hashN = 4 := formOrder_of_hash rfl

theorem compareComponents_of_words (hw : startsWithDigit w = false)
    (hu : startsWithDigit u = false) :
    compareComponents w u = (formOrder w - formOrder u).sign := by
  unfold compareComponents
  rw [hw, hu]
  rfl

theorem versusN_of_hash (hw : w.head? = some 35) (ws : List Bytes) :
    versusN (w :: ws) = versusN ws := by
  cases w with
  | nil => cases hw
  | cons c w =>
    obtain rfl : c = 35 := Option.some.inj hw
    rfl

theorem versusN_of_word (hdigit : startsWithDigit w = false) (hw : w.head? ≠ some 35)
    (ws : List Bytes) : versusN (w :: ws) = (formOrder w - 4).sign := by
  rw [versusN, if_neg (by rw [hdigit]; decide), if_neg hw]

theorem head?_takeWhile_ne_hash (h : t.head? ≠ some 35) :
    (t.takeWhile (· != 46)).head? ≠ some 35 := by
  rw [head?_takeWhile]
  intro hhead
  exact h (filter_eq_some_iff.mp hhead).1

theorem sign_formOrder_ne (h : w.head? ≠ some 35) : (formOrder w - 4).sign ≠ 0 := by
  rw [Ne, Int.sign_eq_zero_iff_zero, Int.sub_eq_zero]
  exact formOrder_ne h

/-- A word that does not begin with `#` decides against `#N#`. -/
theorem compareComponents_hashN (hdigit : startsWithDigit t = false) (hhash : t.head? ≠ some 35) :
    ∃ w ws, comps (prepared t) = w :: ws ∧ compareComponents w hashN = versusN (comps t) ∧
      compareComponents hashN w = -versusN (comps t) ∧ versusN (comps t) ≠ 0 := by
  obtain ⟨ws, hws⟩ := comps_head (prepared t)
  obtain ⟨us, hus⟩ := comps_head t
  have hprepared : startsWithDigit ((prepared t).takeWhile (· != 46)) = false := by
    rw [startsWithDigit_takeWhile, startsWithDigit, head?_prepared]
    exact hdigit
  have horder :
      formOrder ((prepared t).takeWhile (· != 46)) = formOrder (t.takeWhile (· != 46)) := by
    rw [prepared, if_neg hhash]
    exact formOrder_canon hdigit
  have hword : versusN (comps t) = (formOrder (t.takeWhile (· != 46)) - 4).sign := by
    rw [hus, versusN_of_word (by rwa [startsWithDigit_takeWhile]) (head?_takeWhile_ne_hash hhash)]
  refine ⟨_, ws, hws, ?_, ?_, ?_⟩
  · rw [compareComponents_of_words hprepared rfl, horder, formOrder_hashN, hword]
  · rw [compareComponents_of_words rfl hprepared, horder, formOrder_hashN, hword, ← Int.sign_neg,
      Int.neg_sub]
  · rw [hword]
    exact sign_formOrder_ne (head?_takeWhile_ne_hash hhash)

/-- A word that begins with `#` and `#N#`: the rest decides. -/
theorem cmpComps_hashN (hw : w.head? = some 35) (ws : List Bytes) :
    cmpComps (w :: ws) [hashN] = versusN (w :: ws) ∧
      cmpComps [hashN] (w :: ws) = -versusN (w :: ws) := by
  have hdigit : startsWithDigit w = false := by
    rw [startsWithDigit, hw]
    rfl
  have hleft : compareComponents w hashN = 0 := by
    rw [compareComponents_of_words hdigit rfl, formOrder_of_hash hw]
    rfl
  have hright : compareComponents hashN w = 0 := by
    rw [compareComponents_of_words rfl hdigit, formOrder_of_hash hw]
    rfl
  rw [versusN_of_hash hw]
  refine ⟨?_, cmpComps_of_right hright ws⟩
  cases ws with
  | nil => exact cmpComps_of_right hleft []
  | cons u us => exact cmpComps_of_left hleft (cons_ne_nil u us) (.inl rfl)

theorem phpVersionCompare_hash {fuel : ℕ} (ht : 0 ∉ t) (hhash : t.head? = some 35)
    (hrests : RestsAt fuel (t.count 46)) :
    phpVersionCompare (fuel + 1) t hashN = some (versusN (comps t)) ∧
      phpVersionCompare (fuel + 1) hashN t = some (-versusN (comps t)) := by
  have hnil : t ≠ [] := by
    rintro rfl
    cases hhash
  have hprepared : prepared t = t := if_pos hhash
  have hnone : RestsAt fuel (hashN.count 46) := fun s _ _ hlt => absurd hlt (Nat.not_lt_zero _)
  obtain ⟨ws, hws⟩ := comps_head t
  have hw : (t.takeWhile (· != 46)).head? = some 35 := by
    rw [head?_takeWhile, hhash]
    rfl
  obtain ⟨hleft, hright⟩ := cmpComps_hashN hw ws
  rw [← hws] at hleft hright
  constructor
  · obtain ⟨v, hrun, hends⟩ := compareLoop_ends (t.length + 1) t hashN ht (by decide) hnil
      (by decide) (Nat.le_succ _)
    rw [← hleft]
    refine phpVersionCompare_of_ends hnil (by decide) (v := v) ?_ ?_ (fun _ => ?_) fun _ => hnone
    · rwa [hprepared]
    · rwa [hprepared]
    · rwa [hprepared]
  · obtain ⟨v, hrun, hends⟩ := compareLoop_ends (hashN.length + 1) hashN t (by decide) ht
      (by decide) hnil (Nat.le_succ _)
    rw [← hright]
    refine phpVersionCompare_of_ends (by decide) hnil (v := v) ?_ ?_ (fun _ => hnone) fun _ => ?_
    · rwa [hprepared]
    · rwa [hprepared]
    · rwa [hprepared]

theorem phpVersionCompare_word (fuel : ℕ) (ht : 0 ∉ t) (hnil : t ≠ [])
    (hdigit : startsWithDigit t = false) (hhash : t.head? ≠ some 35) :
    phpVersionCompare (fuel + 1) t hashN = some (versusN (comps t)) ∧
      phpVersionCompare (fuel + 1) hashN t = some (-versusN (comps t)) := by
  have hnot := not_mem_prepared ht
  have hne := prepared_ne_nil hnil
  obtain ⟨w, ws, hws, hleft, hright, hdecides⟩ := compareComponents_hashN hdigit hhash
  constructor
  · obtain ⟨v, hrun, hcmp⟩ := compareLoop_of_ne (prepared t).length hnot (by decide) hne
      (by decide) hws comps_hashN (hleft ▸ hdecides)
    rw [hleft] at hcmp
    have hv : v.compare ≠ 0 := hcmp ▸ hdecides
    exact phpVersionCompare_of_ends hnil (by decide) hrun (.inl ⟨hv, hcmp.symm⟩)
      (fun h => absurd h hv) fun h => absurd h hv
  · obtain ⟨v, hrun, hcmp⟩ := compareLoop_of_ne hashN.length (by decide) hnot (by decide) hne
      comps_hashN hws (hright ▸ Int.neg_ne_zero.mpr hdecides)
    rw [hright] at hcmp
    have hv : v.compare ≠ 0 := hcmp ▸ Int.neg_ne_zero.mpr hdecides
    exact phpVersionCompare_of_ends (by decide) hnil hrun (.inl ⟨hv, hcmp.symm⟩)
      (fun h => absurd h hv) fun h => absurd h hv

/-- The recursion needs a round for every dot at most. -/
theorem restsAt (fuel : ℕ) : RestsAt fuel fuel := by
  induction fuel with
  | zero => exact fun t _ _ hlt => absurd hlt (Nat.not_lt_zero _)
  | succ fuel ih =>
    intro t ht hdigit hlt
    by_cases hnil : t = []
    · rw [hnil]
      exact ⟨rfl, rfl⟩
    · by_cases hhash : t.head? = some 35
      · exact phpVersionCompare_hash ht hhash fun s hs hsd hslt => ih s hs hsd (by omega)
      · exact phpVersionCompare_word fuel ht hnil hdigit hhash

/-- The comparison of two texts without a NUL. -/
def cmpVersions (a b : Bytes) : ℤ :=
  if a = [] ∨ b = [] then if a = [] ∧ b = [] then 0 else if a ≠ [] then 1 else -1
  else cmpComps (comps (prepared a)) (comps (prepared b))

/-- The comparison has a result: no loop reads or writes outside of the strings, and the recursion
comes to an end. -/
theorem versionCompare_eq (a b : Bytes) :
    versionCompare a b = some (cmpVersions (cstr a) (cstr b)) := by
  have hcstr : ∀ t : Bytes, 0 ∉ cstr t := fun t h => by
    simpa using mem_takeWhile_imp h
  have hlen : ∀ t : Bytes, (prepared (cstr t)).count 46 ≤ 2 * t.length := by
    intro t
    have hcount := count_le_length (a := 46) (l := prepared (cstr t))
    have hprepared := length_prepared (cstr t)
    have htake : (cstr t).length ≤ t.length := (takeWhile_sublist _).length_le
    omega
  unfold versionCompare cmpVersions
  by_cases hnil : cstr a = [] ∨ cstr b = []
  · rw [if_pos hnil, phpVersionCompare, if_pos hnil]
    exact (apply_ite some _ _ _).symm
  · rw [if_neg hnil]
    rw [not_or] at hnil
    obtain ⟨v, hrun, hends⟩ := compareLoop_ends ((prepared (cstr a)).length + 1) _ _
      (not_mem_prepared (hcstr a)) (not_mem_prepared (hcstr b)) (prepared_ne_nil hnil.1)
      (prepared_ne_nil hnil.2) (Nat.le_succ _)
    refine phpVersionCompare_of_ends hnil.1 hnil.2 hrun hends (fun _ t ht hdigit hlt => ?_)
      fun _ t ht hdigit hlt => ?_
    · have := hlen a
      exact restsAt _ t ht hdigit (by omega)
    · have := hlen b
      exact restsAt _ t ht hdigit (by omega)

end PhpVersioning
