/-
# The text automaton works segment by segment

After a slash the output is the path made of the segments kept so far, and within a
segment it is that path, a slash and what has been read of the segment
(`textByte_of_ne`, `textByte_slash`).  Over a whole text this makes the automaton a walk
over the segments before the last one, with `..` taking off what `rewind` takes off, that
is with `parentSkippingEmpty` (`textRun_segments`).
-/
import ReadingCode.ComplexUri

namespace Uri

open List

/-! ## The output after a slash -/

theorem render_append (ss ss' : List Segment) : render (ss ++ ss') = render ss ++ render ss' := by
  induction ss with
  | nil => rfl
  | cons s ss ih => simp [render, ih]

/-- The path made of the segments kept so far, last byte first. -/
def base (st : List Segment) : Bytes := (render st.reverse).reverse

theorem base_cons (s : Segment) (st : List Segment) :
    base (s :: st) = s.reverse ++ SLASH :: base st := by
  simp [base, render_append, render]

/-- No segment holds a slash. -/
def SlashFree (ss : List Segment) : Prop := ∀ s ∈ ss, SLASH ∉ s

variable {ss : List Segment}

theorem slashFree_cons {s : Segment} : SlashFree (s :: ss) ↔ SLASH ∉ s ∧ SlashFree ss := by
  simp [SlashFree]

variable {st : List Segment}

/-- Dropping bytes back to a slash leaves the segments before the last. -/
theorem dropWhile_base (hst : SlashFree st) : (base st).dropWhile (· ≠ SLASH) = match st with
      | [] => []
      | _ :: st => SLASH :: base st := by
  cases st with
  | nil => rfl
  | cons s st =>
    have hs : ∀ c ∈ s.reverse, decide (c ≠ SLASH) = true := fun c hc => by
      have := (slashFree_cons.mp hst).1
      grind
    rw [base_cons, dropWhile_append_of_pos hs]
    simp

/-- `rewind` takes off a segment, and two when the last one is empty. -/
theorem rewind_base (hst : SlashFree st) : rewind (DOT :: DOT :: SLASH :: base st) =
      (parentSkippingEmpty st).map fun st => SLASH :: base st := by
  have hdrop : (DOT :: DOT :: SLASH :: base st).drop 4 = (base st).drop 1 := rfl
  rw [rewind, hdrop]
  cases st with
  | nil => rfl
  | cons s st =>
    obtain ⟨hs, hst'⟩ := slashFree_cons.mp hst
    rw [parentSkippingEmpty]
    by_cases hempty : s = []
    · subst hempty
      have hskip : (base ([] :: st)).drop 1 = base st := by rw [base_cons]; rfl
      rw [hskip, dropWhile_base hst']
      cases st <;> rfl
    · rw [if_neg hempty]
      have hskip : ((base (s :: st)).drop 1).dropWhile (· ≠ SLASH) = SLASH :: base st := by
        have hne : s.reverse ≠ [] := by simpa using hempty
        have htail : ∀ c ∈ s.reverse.tail, decide (c ≠ SLASH) = true := fun c hc => by
          have := mem_of_mem_tail hc
          grind
        rw [base_cons, drop_one, tail_append_of_ne_nil hne, dropWhile_append_of_pos htail]
        simp
      rw [hskip]
      rfl

/-! ## The output within a segment -/

/-- The state after the bytes `x` of a segment. -/
def stateOf (x : Segment) : Plain :=
  if x = [] then .slash else if x = [DOT] then .dot else if x = [DOT, DOT] then .dotDot
  else .usual

/-- `r->uri_ext` after the bytes `x` of a segment that starts at `start`. -/
def extOf (start : ℕ) (x : Segment) : Option ℕ :=
  if DOT ∈ x.drop (leadingDots x) then
    some (start + (x.length - (x.reverse.takeWhile (· ≠ DOT)).length))
  else none

/-- The output after the bytes `x` of a segment. -/
def textOf (st : List Segment) (x : Segment) : Text :=
  ⟨x.reverse ++ SLASH :: base st, extOf ((base st).length + 1) x⟩

@[simp] theorem stateOf_nil : stateOf [] = .slash := rfl

@[simp] theorem extOf_nil (start : ℕ) : extOf start [] = none := rfl

theorem textOf_nil (st : List Segment) : textOf st [] = ⟨SLASH :: base st, none⟩ := rfl

variable {x : Segment}

/-- The dots that open a segment stay the same from the third byte on. -/
theorem leadingDots_append (h : 3 ≤ x.length) (y : Segment) :
    leadingDots (x ++ y) = leadingDots x := by
  match x, h with
  | a :: b :: c :: x, _ => rfl

theorem leadingDots_le (x : Segment) : leadingDots x ≤ x.length := by
  match x with
  | [] => simp [leadingDots]
  | [a] => grind [leadingDots]
  | [a, b] => grind [leadingDots]
  | a :: b :: c :: x => grind [leadingDots]

variable {c : UInt8}

theorem mem_drop_leadingDots_append (x : Segment) (hc : c ≠ DOT) :
    DOT ∈ (x ++ [c]).drop (leadingDots (x ++ [c])) ↔ DOT ∈ x.drop (leadingDots x) := by
  match x with
  | [] => simp [leadingDots, hc, hc.symm]
  | [a] => by_cases ha : a = DOT <;> simp [leadingDots, ha, hc, hc.symm]
  | [a, b] =>
    by_cases ha : a = DOT <;> by_cases hb : b = DOT <;> simp [leadingDots, ha, hb, hc, hc.symm]
  | a :: b :: c' :: x =>
    rw [leadingDots_append (by simp), drop_append_of_le_length (leadingDots_le _)]
    simp [hc.symm]

theorem extOf_append_of_ne (start : ℕ) (x : Segment) (hc : c ≠ DOT) :
    extOf start (x ++ [c]) = extOf start x := by
  simp only [extOf, mem_drop_leadingDots_append x hc, reverse_append, reverse_singleton,
    singleton_append, length_append, length_singleton]
  rw [takeWhile_cons_of_pos (by simpa using hc), length_cons]
  simp only [Nat.add_sub_add_right]

theorem extOf_append_dot (start : ℕ) (hx : stateOf x = .usual) :
    extOf start (x ++ [DOT]) = some (start + (x.length + 1)) := by
  have hmem : DOT ∈ (x ++ [DOT]).drop (leadingDots (x ++ [DOT])) := by
    match x, hx with
    | [a], hx =>
      have ha : a ≠ DOT := fun h => by simp [h, stateOf] at hx
      simp [leadingDots, ha]
    | [a, b], hx =>
      have hab : ¬ (a = DOT ∧ b = DOT) := fun h => by simp [h, stateOf] at hx
      by_cases ha : a = DOT
      · have hb : b ≠ DOT := fun h => hab ⟨ha, h⟩
        simp [leadingDots, ha, hb]
      · simp [leadingDots, ha]
    | a :: b :: c :: x, _ =>
      rw [leadingDots_append (by simp), drop_append_of_le_length (leadingDots_le _)]
      simp
  rw [extOf, if_pos hmem]
  simp

theorem extOf_of_ne_usual (start : ℕ) (hx : stateOf x ≠ .usual) :
    extOf start x = none ∧ extOf start (x ++ [DOT]) = none := by
  have hcases : x = [] ∨ x = [DOT] ∨ x = [DOT, DOT] := by grind [stateOf]
  rcases hcases with rfl | rfl | rfl <;> exact ⟨rfl, rfl⟩

theorem textByte_of_ne (st : List Segment) (x : Segment) (hc : c ≠ SLASH) :
    textByte false (stateOf x) (textOf st x) c =
      some (stateOf (x ++ [c]), textOf st (x ++ [c])) := by
  have hu : (textOf st (x ++ [c])).u = c :: (textOf st x).u := by simp [textOf]
  have hstate : stateOf (x ++ [c]) =
      if c = DOT then match stateOf x with
        | .slash => .dot
        | .dot => .dotDot
        | _ => .usual
      else .usual := by
    match x with
    | [] => by_cases hd : c = DOT <;> simp [stateOf, hd]
    | [a] => by_cases ha : a = DOT <;> by_cases hd : c = DOT <;> simp [stateOf, ha, hd]
    | [a, b] => by_cases hab : a = DOT ∧ b = DOT <;> simp [stateOf, hab]
    | a :: b :: d :: x => simp [stateOf]
  by_cases hd : c = DOT
  · subst hd
    by_cases hx : stateOf x = .usual
    · have hext := extOf_append_dot ((base st).length + 1) hx
      have hlen : (textOf st x).u.length + 1 = (base st).length + 1 + (x.length + 1) := by
        simp [textOf]; omega
      simp only [textByte, if_neg hc, if_pos, hx, hstate, hlen]
      rw [← hu, ← hext]
      rfl
    · obtain ⟨hnone, hnone'⟩ := extOf_of_ne_usual ((base st).length + 1) hx
      have htext : textOf st (x ++ [DOT]) = (textOf st x).push DOT := by
        simp [textOf, Text.push, hnone, hnone']
      cases h : stateOf x <;> simp_all [textByte]
  · have htext : textOf st (x ++ [c]) = (textOf st x).push c := by
      simp [textOf, Text.push, extOf_append_of_ne _ _ hd]
    simp only [textByte, if_neg hc, if_neg hd, htext, hstate]

theorem textByte_slash (hst : SlashFree st) (x : Segment) :
    textByte false (stateOf x) (textOf st x) SLASH =
      (walk parentSkippingEmpty st [x]).map fun st => (.slash, textOf st []) := by
  by_cases h0 : x = []
  · subst h0
    simp [textByte, walk, textOf_nil, base_cons, Text.push]
  by_cases h1 : x = [DOT]
  · subst h1
    rfl
  by_cases h2 : x = [DOT, DOT]
  · subst h2
    have hstate : stateOf [DOT, DOT] = .dotDot := rfl
    have htext : textOf st [DOT, DOT] = ⟨DOT :: DOT :: SLASH :: base st, none⟩ := rfl
    have hne : ¬ ([DOT, DOT] : Segment) = [DOT] := by decide
    simp only [textByte, if_pos, hstate, htext, rewind_base hst, walk, if_neg hne, Option.map_map,
      textOf_nil]
    cases parentSkippingEmpty st <;> rfl
  · have hstate : stateOf x = .usual := by simp [stateOf, h0, h1, h2]
    simp [textByte, hstate, walk, h1, h2, base_cons, textOf]

/-! ## The output after a text -/

theorem split_ne_nil (E : Bytes) : split E ≠ [] := by
  cases E with
  | nil => simp [split]
  | cons c E =>
    rw [split]
    split_ifs
    · simp
    · split <;> simp

/-- Put bytes in front of the first segment. -/
def prepend (x : Segment) : List Segment → List Segment
  | [] => [x]
  | s :: ss => (x ++ s) :: ss

@[simp] theorem prepend_nil (h : ss ≠ []) : prepend [] ss = ss := by
  cases ss with
  | nil => exact absurd rfl h
  | cons s ss => rfl

theorem prepend_append (x y : Segment) (ss : List Segment) :
    prepend (x ++ y) ss = prepend x (prepend y ss) := by
  cases ss <;> simp [prepend]

theorem split_cons_of_ne (hc : c ≠ SLASH) (E : Bytes) : split (c :: E) = prepend [c] (split E) := by
  rw [split, if_neg hc]
  cases split E <;> rfl

theorem walk_cons (up : List Segment → Option (List Segment)) (st : List Segment) (s : Segment)
    (ss : List Segment) : walk up st (s :: ss) = (walk up st [s]).bind fun st => walk up st ss := by
  simp only [walk]
  split_ifs
  · rfl
  · cases up st <;> rfl
  · rfl

/-- What the automaton makes of segments: it walks over all but the last one, which is
left as it stands. -/
def endText (st ss : List Segment) : Option (Plain × Text) :=
  (walk parentSkippingEmpty st ss.dropLast).map fun st =>
    (stateOf (ss.getLast?.getD []), textOf st (ss.getLast?.getD []))

theorem endText_cons (st : List Segment) (s : Segment) (h : ss ≠ []) : endText st (s :: ss) =
      (walk parentSkippingEmpty st [s]).bind fun st => endText st ss := by
  rw [endText, dropLast_cons_of_ne_nil h, walk_cons, Option.map_bind]
  rw [getLast?_cons_of_ne_nil h]
  rfl

/-- A walk keeps segments that were there, and puts no dot segment among them. -/
theorem mem_of_walk {up : List Segment → Option (List Segment)}
    (hup : ∀ st st', up st = some st' → ∀ s ∈ st', s ∈ st) {st' : List Segment}
    (h : walk up st ss = some st') {s : Segment} (hs : s ∈ st') :
    s ∈ st ∨ (s ∈ ss ∧ ¬ IsDots s) := by
  induction ss generalizing st with
  | nil =>
    obtain rfl := Option.some.inj h
    exact .inl hs
  | cons a ss ih =>
    rw [walk] at h
    split_ifs at h with h1 h2
    · rcases ih h with hmem | ⟨hmem, hd⟩
      · exact .inl hmem
      · exact .inr ⟨mem_cons_of_mem _ hmem, hd⟩
    · obtain ⟨st1, hst1, hw⟩ := Option.bind_eq_some_iff.mp h
      rcases ih hw with hmem | ⟨hmem, hd⟩
      · exact .inl (hup st st1 hst1 s hmem)
      · exact .inr ⟨mem_cons_of_mem _ hmem, hd⟩
    · rcases ih h with hmem | ⟨hmem, hd⟩
      · rcases mem_cons.mp hmem with rfl | hmem
        · exact .inr ⟨mem_cons_self, fun hd => hd.elim h1 h2⟩
        · exact .inl hmem
      · exact .inr ⟨mem_cons_of_mem _ hmem, hd⟩

theorem parent_mem (st st' : List Segment) (h : parent st = some st') : ∀ s ∈ st', s ∈ st := by
  cases st with
  | nil => simp [parent] at h
  | cons a st =>
    obtain rfl := Option.some.inj h
    exact fun s hs => mem_cons_of_mem _ hs

theorem parentSkippingEmpty_mem (st st' : List Segment)
    (h : parentSkippingEmpty st = some st') : ∀ s ∈ st', s ∈ st := by
  cases st with
  | nil => simp [parentSkippingEmpty] at h
  | cons a st =>
    rw [parentSkippingEmpty] at h
    split_ifs at h with ha
    · exact fun s hs => mem_cons_of_mem _ (parent_mem st st' h s hs)
    · obtain rfl := Option.some.inj h
      exact fun s hs => mem_cons_of_mem _ hs

theorem textRun_split (hst : SlashFree st) (x : Segment) (hx : SLASH ∉ x) (E : Bytes) :
    textRun false (stateOf x) (textOf st x) E = endText st (prepend x (split E)) := by
  induction E generalizing st x with
  | nil => simp [textRun, split, prepend, endText, walk]
  | cons c E ih =>
    rw [textRun]
    by_cases hc : c = SLASH
    · subst hc
      have hsplit : prepend x (split (SLASH :: E)) = x :: split E := by
        simp [split, prepend]
      rw [hsplit, endText_cons _ _ (split_ne_nil E), textByte_slash hst]
      cases hw : walk parentSkippingEmpty st [x] with
      | none => rfl
      | some st' =>
        have hst' : SlashFree st' := fun s hs => by
          rcases mem_of_walk parentSkippingEmpty_mem hw hs with hs | ⟨hs, -⟩
          · exact hst s hs
          · rwa [mem_singleton.mp hs]
        simpa [split_ne_nil] using ih hst' [] (by simp)
    · rw [textByte_of_ne st x hc, split_cons_of_ne hc, ← prepend_append]
      exact ih hst (x ++ [c]) (by simp [hx, Ne.symm hc])

/-! ## Merging slashes -/

/-- Merging slashes changes one thing: a slash in `sw_slash` is skipped. -/
theorem textByte_merge {state : Plain} (h : ¬ (state = .slash ∧ c = SLASH))
    (t : Text) : textByte true state t c = textByte false state t c := by
  unfold textByte
  cases state <;> grind

theorem textByte_state {mergeSlashes : Bool} {state : Plain} {t : Text} {r : Plain × Text}
    (h : textByte mergeSlashes state t c = some r) : (r.1 == .slash) = (c == SLASH) := by
  unfold textByte at h
  by_cases hc : c = SLASH
  · cases state <;> grind [Option.map_eq_some_iff]
  · cases state <;> grind

/-- Merging slashes while running is collapsing them first. -/
theorem textRun_collapseFrom (state : Plain) (t : Text) (D : Bytes) :
    textRun true state t D = textRun false state t (collapseFrom (state == .slash) D) := by
  induction D generalizing state t with
  | nil => rfl
  | cons c D ih =>
    by_cases hskip : state = .slash ∧ c = SLASH
    · obtain ⟨rfl, rfl⟩ := hskip
      exact ih .slash t
    · have hkeep : collapseFrom (state == .slash) (c :: D) =
          c :: collapseFrom (c == SLASH) D := by
        by_cases hc : c = SLASH
        · subst hc
          have hstate : (state == .slash) = false := by simpa using hskip
          rw [hstate]
          rfl
        · simp [collapseFrom, hc, beq_eq_false_iff_ne.mpr hc]
      rw [textRun, textByte_merge hskip, hkeep, textRun]
      cases h : textByte false state t c with
      | none => rfl
      | some r =>
        rw [← textByte_state h]
        exact ih r.1 r.2

/-- **The text automaton walks over the segments.** -/
theorem textRun_segments (mergeSlashes : Bool) (D : Bytes) :
    textRun mergeSlashes .usual ⟨[], none⟩ (SLASH :: D) =
      endText [] (segments mergeSlashes (SLASH :: D)) := by
  have hstart : ∀ m, textRun m .usual ⟨[], none⟩ (SLASH :: D) =
      textRun m .slash (textOf [] []) D := fun _ => rfl
  have hfree : SlashFree [] := by simp [SlashFree]
  rw [hstart]
  cases mergeSlashes with
  | true =>
    rw [textRun_collapseFrom]
    have := textRun_split hfree [] (by simp) (collapseFrom true D)
    simpa [segments, collapse, collapseFrom, split_ne_nil] using this
  | false =>
    have := textRun_split hfree [] (by simp) D
    simpa [segments, collapse, split_ne_nil] using this

theorem textOf_uri (st : List Segment) (x : Segment) :
    (textOf st x).u.reverse = render (x :: st).reverse := by
  simp [textOf, base, render_append, render]

/-- The bytes after the last dot of a segment, when it lies in a part of it. -/
theorem takeWhile_reverse_drop {n : ℕ} (h : DOT ∈ x.drop n) :
    (x.drop n).reverse.takeWhile (· ≠ DOT) = x.reverse.takeWhile (· ≠ DOT) := by
  have hne : ((x.drop n).reverse.takeWhile (· ≠ DOT)).length ≠ (x.drop n).reverse.length := by
    intro hlen
    have hall := takeWhile_eq_self_iff.mp
      (( takeWhile_prefix (p := fun c => decide (c ≠ DOT))).eq_of_length hlen)
    exact absurd (hall DOT (mem_reverse.mpr h)) (by simp)
  conv_rhs => rw [← take_append_drop n x, reverse_append, takeWhile_append,
    if_neg hne]

theorem textOf_exten (st : List Segment) (x : Segment) : (textOf st x).exten = extension x := by
  have hu : (textOf st x).u.reverse = (base st).reverse ++ [SLASH] ++ x := by simp [textOf]
  simp only [Text.exten, hu]
  simp only [textOf, extOf, extension, afterLastDot]
  split_ifs with h
  · set w := x.reverse.takeWhile (· ≠ DOT) with hw
    have hskip : ((base st).reverse ++ [SLASH] ++ x).drop
        ((base st).length + 1 + (x.length - w.length)) = x.drop (x.length - w.length) := by
      rw [drop_append]
      simp
    have htake : w = x.reverse.take w.length :=
      prefix_iff_eq_take.mp ( takeWhile_prefix _)
    simp only [hskip]
    rw [takeWhile_reverse_drop h, ← hw]
    conv_rhs => rw [htake, take_reverse, reverse_reverse]
  · rfl

end Uri

/-!
# Where URI normalisation meets its reference

`ngx_http_parse_complex_uri` keeps the last segment as it stands, also when it is `.` or
`..`; it accepts an escape cut short by the end of the URI; and without merged slashes a
`..` after an empty segment takes off two segments.  `normalises_iff` says that these are
the only ways in which it departs from `normalise`, and exactly when they show.
-/

namespace Uri

open List Option

/-! ## Comparing walks -/

/-- Some `..` of the walk takes off an empty segment. -/
def RemovesEmpty : List Segment → List Segment → Prop
  | _, [] => False
  | st, s :: ss =>
    if s = [DOT] then RemovesEmpty st ss
    else if s = [DOT, DOT] then st.head? = some [] ∨ RemovesEmpty st.tail ss
    else RemovesEmpty (s :: st) ss

variable {c' ss st st' : List Segment}

theorem walk_eq_of_not_removesEmpty (h : ¬ RemovesEmpty st ss) :
    walk parentSkippingEmpty st ss = walk parent st ss := by
  induction ss generalizing st with
  | nil => rfl
  | cons s ss ih =>
    rw [RemovesEmpty] at h
    rw [walk, walk]
    split_ifs at h ⊢ with h1 h2
    · exact ih h
    · cases st with
      | nil => rfl
      | cons t st =>
        rw [not_or] at h
        rw [parentSkippingEmpty, if_neg (by simpa using h.1)]
        exact ih h.2
    · exact ih h

theorem length_parentSkippingEmpty
    (h : parentSkippingEmpty st = some st') : st'.length + 1 ≤ st.length := by
  rcases st with _ | ⟨s, _ | ⟨s', st⟩⟩ <;> grind [parentSkippingEmpty, parent]

/-- A walk that skips empty segments stays below one that does not. -/
theorem walk_length_le {c r : List Segment} {k : ℕ} (hlen : c.length + k ≤ r.length)
    (h : walk parentSkippingEmpty c ss = some c') :
    ∃ r', walk parent r ss = some r' ∧ c'.length + k ≤ r'.length := by
  induction ss generalizing c r with
  | nil =>
    obtain rfl := Option.some.inj h
    exact ⟨r, rfl, hlen⟩
  | cons s ss ih =>
    rw [walk] at h ⊢
    split_ifs at h ⊢ with h1 h2
    · exact ih hlen h
    · obtain ⟨c1, hc1, hw⟩ := bind_eq_some_iff.mp h
      have hdown := length_parentSkippingEmpty hc1
      cases r with
      | nil =>
        rw [length_nil] at hlen
        omega
      | cons t r =>
        simp only [length_cons] at hlen
        exact ih (c := c1) (r := r) (by omega) hw
    · exact ih (by simp only [length_cons]; omega) h

/-- Once an empty segment has been taken off it stays strictly below. -/
theorem walk_length_lt (hr : RemovesEmpty st ss) (h : walk parentSkippingEmpty st ss = some c') :
    ∃ r', walk parent st ss = some r' ∧ c'.length < r'.length := by
  induction ss generalizing st with
  | nil => exact absurd hr (by simp [RemovesEmpty])
  | cons s ss ih =>
    rw [RemovesEmpty] at hr
    rw [walk] at h ⊢
    split_ifs at hr h ⊢ with h1 h2
    · exact ih hr h
    · cases st with
      | nil => exact absurd h (by simp [parentSkippingEmpty])
      | cons t st =>
        by_cases ht : t = []
        · obtain ⟨c1, hc1, hw⟩ := bind_eq_some_iff.mp h
          rw [parentSkippingEmpty, if_pos ht] at hc1
          cases st with
          | nil => simp [parent] at hc1
          | cons t' st =>
            obtain rfl := Option.some.inj hc1
            exact walk_length_le (k := 1) (by simp) hw
        · rw [parentSkippingEmpty, if_neg ht] at h
          exact ih (hr.resolve_left (by simpa using ht)) h
    · exact ih hr h

theorem walk_eq_iff (ss : List Segment) : walk parentSkippingEmpty [] ss = walk parent [] ss ↔
      walk parent [] ss = none ∨ ¬ RemovesEmpty [] ss := by
  constructor
  · intro h
    by_contra hne
    rw [not_or, not_not] at hne
    cases hw : walk parentSkippingEmpty [] ss with
    | none => exact hne.1 (h ▸ hw)
    | some c' =>
      obtain ⟨r', hr', hlt⟩ := walk_length_lt hne.2 hw
      rw [hw, hr'] at h
      rw [Option.some.inj h] at hlt
      exact absurd hlt (lt_irrefl _)
  · rintro (h | h)
    · cases hw : walk parentSkippingEmpty [] ss with
      | none => exact h.symm
      | some c' =>
        obtain ⟨r', hr', -⟩ := walk_length_le (r := []) (k := 0) (by simp) hw
        rw [h] at hr'
        exact absurd hr' (by simp)
    · exact walk_eq_of_not_removesEmpty h

/-! ## The segments the parser keeps -/

/-- What the parser makes of the segments of a path: the last one stays. -/
def keptSegments (ss : List Segment) : Option (List Segment) :=
  (walk parentSkippingEmpty [] ss.dropLast).map fun st => (ss.getLast?.getD [] :: st).reverse

/-- The parser's segments are right: the path is refused by right, or neither ends in a
dot segment nor has a `..` that takes off an empty segment, or ends in a `..` that climbs
above the root and is refused for having climbed too high before. -/
def PathOk (ss : List Segment) : Prop :=
  walk parent [] ss.dropLast = none ∨
    (¬ IsDots (ss.getLast?.getD []) ∧ ¬ RemovesEmpty [] ss.dropLast) ∨
    (ss.getLast?.getD [] = [DOT, DOT] ∧ walk parent [] ss.dropLast = some [] ∧
      walk parentSkippingEmpty [] ss.dropLast = none)

theorem walk_append (up : List Segment → Option (List Segment)) (st ss ss' : List Segment) :
    walk up st (ss ++ ss') = (walk up st ss).bind fun st => walk up st ss' := by
  induction ss generalizing st with
  | nil => rfl
  | cons s ss ih =>
    rw [cons_append, walk_cons, walk_cons up st s ss, bind_assoc]
    simp only [ih]

theorem keptSegments_eq_iff (hss : ss ≠ []) : keptSegments ss = removeDots ss ↔ PathOk ss := by
  obtain ⟨inner, last, rfl⟩ := eq_nil_or_concat ss |>.resolve_left hss
  simp only [keptSegments, removeDots, PathOk, concat_eq_append, dropLast_concat,
    getLast?_concat, getD_some, walk_append]
  have hwalk := walk_eq_iff inner
  generalize walk parentSkippingEmpty [] inner = B at *
  generalize walk parent [] inner = A at *
  by_cases h1 : last = [DOT]
  · cases A <;> cases B <;> simp_all [IsDots, walk]
  by_cases h2 : last = [DOT, DOT]
  · cases A with
    | none => cases B <;> simp_all [IsDots, walk]
    | some a => cases a <;> cases B <;> simp_all [IsDots, walk, parent]
  · have hdots : ¬ IsDots last := fun h => h.elim h1 h2
    cases A <;> cases B <;> simp_all [walk]

/-! ## Segments can be read off a path -/

theorem slashFree_split (E : Bytes) : SlashFree (split E) := by
  induction E with
  | nil => simp [split, SlashFree]
  | cons c E ih =>
    by_cases hc : c = SLASH
    · subst hc
      exact slashFree_cons.mpr ⟨by simp, ih⟩
    · rw [split_cons_of_ne hc]
      cases hs : split E with
      | nil => exact absurd hs (split_ne_nil E)
      | cons s ss =>
        rw [hs, slashFree_cons] at ih
        exact slashFree_cons.mpr ⟨by simp [ih.1, Ne.symm hc], ih.2⟩

theorem split_append {s : Segment} (hs : SLASH ∉ s) (E : Bytes) :
    split (s ++ E) = prepend s (split E) := by
  induction s with
  | nil => rw [prepend_nil (split_ne_nil E)]; rfl
  | cons c s ih =>
    rw [mem_cons, not_or] at hs
    rw [cons_append, split_cons_of_ne (Ne.symm hs.1), ih hs.2, ← prepend_append]
    rfl

/-- A path determines its segments. -/
theorem split_render (hne : ss ≠ []) (hfree : SlashFree ss) : split (render ss).tail = ss := by
  induction ss with
  | nil => exact absurd rfl hne
  | cons s ss ih =>
    obtain ⟨hs, hss⟩ := slashFree_cons.mp hfree
    rw [render, tail_cons, split_append hs]
    cases ss with
    | nil => simp [render, split, prepend]
    | cons s' ss =>
      have hrest := ih (by simp) hss
      rw [render, tail_cons] at hrest
      simp [render, split, hrest, prepend]

theorem slashFree_walk {up : List Segment → Option (List Segment)}
    (hup : ∀ st st', up st = some st' → ∀ s ∈ st', s ∈ st)
    (hss : SlashFree ss) (h : walk up [] ss = some st') : SlashFree st' := fun s hs => by
  rcases mem_of_walk hup h hs with hs | ⟨hs, -⟩
  · simp at hs
  · exact hss s hs

theorem keptSegments_good {ks : List Segment} (hss : ss ≠ []) (hfree : SlashFree ss)
    (h : keptSegments ss = some ks) : ks ≠ [] ∧ SlashFree ks := by
  obtain ⟨inner, last, rfl⟩ := eq_nil_or_concat ss |>.resolve_left hss
  obtain ⟨st, hst, rfl⟩ := map_eq_some_iff.mp h
  simp only [concat_eq_append, dropLast_concat, getLast?_concat, getD_some] at *
  have hinner := slashFree_walk parentSkippingEmpty_mem
    (fun s hs => hfree s (mem_append_left _ hs)) hst
  refine ⟨by simp, fun s hs => ?_⟩
  rcases mem_cons.mp (mem_reverse.mp hs) with rfl | hs
  · exact hfree _ (by simp)
  · exact hinner s hs

/-- The reference keeps no dot segment. -/
theorem removeDots_good {rs : List Segment} (hss : ss ≠ []) (hfree : SlashFree ss)
    (h : removeDots ss = some rs) : rs ≠ [] ∧ SlashFree rs ∧ ∀ s ∈ rs, ¬ IsDots s := by
  obtain ⟨inner, last, rfl⟩ := eq_nil_or_concat ss |>.resolve_left hss
  obtain ⟨st, hst, rfl⟩ := map_eq_some_iff.mp h
  have hst' := slashFree_walk parent_mem hfree hst
  have hdots : ∀ s ∈ st, ¬ IsDots s := fun s hs => by
    rcases mem_of_walk parent_mem hst hs with hs | ⟨-, hd⟩
    · simp at hs
    · exact hd
  simp only [concat_eq_append, getLast?_concat]
  split_ifs with hlast
  · refine ⟨by simp, fun s hs => ?_, fun s hs => ?_⟩ <;>
      rcases mem_cons.mp (mem_reverse.mp hs) with rfl | hs
    · simp
    · exact hst' s hs
    · decide
    · exact hdots s hs
  · refine ⟨?_, fun s hs => hst' s (mem_reverse.mp hs),
      fun s hs => hdots s (mem_reverse.mp hs)⟩
    rw [IsDots, not_or] at hlast
    rw [concat_eq_append, walk_append] at hst
    obtain ⟨st1, -, hw⟩ := bind_eq_some_iff.mp hst
    simp only [walk, if_neg hlast.1, if_neg hlast.2] at hw
    rw [← Option.some.inj hw]
    simp

/-! ## The parser and the reference -/

/-- What is expected of the parser on a raw URI: it fails where the reference does, and
otherwise gives its path, extension and query, a path that begins with a slash and has no
dot segment. -/
def Normalises (mergeSlashes : Bool) (uriLen : ℕ) (raw : Bytes)
    (quotedUri plusInUri : Bool) : Prop :=
  match normalise mergeSlashes raw with
  | none => ngxHttpParseComplexUri false mergeSlashes uriLen raw quotedUri plusInUri = none
  | some n =>
    ∃ c, ngxHttpParseComplexUri false mergeSlashes uriLen raw quotedUri plusInUri = some c ∧
      c.uri = n.uri ∧ argsFrom raw c.args c.argsStart = n.args ∧ c.exten = n.exten ∧
      c.uri.head? = some SLASH ∧ ∀ s ∈ split c.uri.tail, ¬ IsDots s

/-- When the parser normalises: the segments of a path that decodes are right, and a URI
that ends within an escape is refused for what precedes it. -/
structure HoldsWhen (mergeSlashes : Bool) (raw : Bytes) : Prop where
  decoded : ∀ d, percentDecode (rawPath raw) = some d → PathOk (segments mergeSlashes d)
  truncated : ∀ d, rawPath raw = raw → CutEscape raw d →
    walk parentSkippingEmpty [] (segments mergeSlashes d).dropLast = none

theorem segments_ne_nil (mergeSlashes : Bool) (d : Bytes) : segments mergeSlashes d ≠ [] :=
  split_ne_nil _

theorem slashFree_segments (mergeSlashes : Bool) (d : Bytes) :
    SlashFree (segments mergeSlashes d) :=
  slashFree_split _

/-- What the parser returns on a URI that begins with a slash. -/
theorem ngxHttpParseComplexUri_segments (mergeSlashes : Bool) (uriLen : ℕ) (raw : Bytes)
    (quotedUri plusInUri : Bool) :
    match keptSegments (segments mergeSlashes (scan (SLASH :: raw)).1) with
    | none =>
      ngxHttpParseComplexUri false mergeSlashes uriLen (SLASH :: raw) quotedUri plusInUri = none
    | some ks =>
      if (scan (SLASH :: raw)).2 = .bad then
        ngxHttpParseComplexUri false mergeSlashes uriLen (SLASH :: raw) quotedUri plusInUri = none
      else
        ∃ c, ngxHttpParseComplexUri false mergeSlashes uriLen (SLASH :: raw) quotedUri plusInUri =
            some c ∧
          c.uri = render ks ∧ c.exten = extension (ks.getLast?.getD []) ∧
          argsFrom (SLASH :: raw) c.args c.argsStart = query (SLASH :: raw) := by
  have h := ngxHttpParseComplexUri_scan mergeSlashes uriLen (SLASH :: raw) quotedUri plusInUri
  have hd : (scan (SLASH :: raw)).1 = SLASH :: (scan raw).1 := by
    rw [scan_ordinary (by decide) (by decide) (by decide)]
  rw [hd, textRun_segments, ← hd] at h
  rw [keptSegments]
  rw [endText] at h
  cases hw : walk parentSkippingEmpty []
    (segments mergeSlashes (scan (SLASH :: raw)).1).dropLast with
  | none =>
    rw [hw] at h
    exact h
  | some st =>
    rw [hw] at h
    simp only [map_some, textOf_uri, textOf_exten] at h ⊢
    simpa using h

/-- Where the path decodes, normalising is a matter of the segments. -/
theorem normalises_iff_of_percentDecode {mergeSlashes : Bool} {uriLen : ℕ} {raw d : Bytes}
    {quotedUri plusInUri : Bool} (hd : percentDecode (rawPath (SLASH :: raw)) = some d) :
    Normalises mergeSlashes uriLen (SLASH :: raw) quotedUri plusInUri ↔
      keptSegments (segments mergeSlashes d) = removeDots (segments mergeSlashes d) := by
  have hparse := ngxHttpParseComplexUri_segments mergeSlashes uriLen raw quotedUri plusInUri
  obtain ⟨hscan, -, hbad⟩ := scan_of_percentDecode hd
  rw [hscan] at hparse
  have hnormal : normalise mergeSlashes (SLASH :: raw) =
      (removeDots (segments mergeSlashes d)).map fun rs =>
        ⟨render rs, query (SLASH :: raw), extension (rs.getLast?.getD [])⟩ := by
    rw [normalise, hd]
    rfl
  have hne := segments_ne_nil mergeSlashes d
  have hfree := slashFree_segments mergeSlashes d
  rw [Normalises, hnormal]
  cases hk : keptSegments (segments mergeSlashes d) with
  | none =>
    rw [hk] at hparse
    cases hr : removeDots (segments mergeSlashes d) with
    | none => simpa using hparse
    | some rs => simp [show _ = none from hparse]
  | some ks =>
    rw [hk] at hparse
    simp only [if_neg hbad] at hparse
    obtain ⟨c, hc, huri, hext, hargs⟩ := hparse
    obtain ⟨hks, hksfree⟩ := keptSegments_good hne hfree hk
    cases hr : removeDots (segments mergeSlashes d) with
    | none => simp [hc]
    | some rs =>
      obtain ⟨hrs, hrsfree, hdots⟩ := removeDots_good hne hfree hr
      have hsplit := split_render hrs hrsfree
      simp only [map_some, hc, Option.some.injEq, exists_eq_left', huri, hext, hargs]
      constructor
      · rintro ⟨hrender, -⟩
        rw [← split_render hks hksfree, hrender, hsplit]
      · rintro rfl
        rw [hsplit]
        refine ⟨rfl, trivial, rfl, ?_, hdots⟩
        cases ks with
        | nil => exact absurd rfl hks
        | cons s ks => rfl

/-- **Exactly when `ngx_http_parse_complex_uri` normalises**, for every URI that begins
with a slash. -/
theorem normalises_iff (mergeSlashes : Bool) (uriLen : ℕ) (raw : Bytes)
    (quotedUri plusInUri : Bool) :
    Normalises mergeSlashes uriLen (SLASH :: raw) quotedUri plusInUri ↔
      HoldsWhen mergeSlashes (SLASH :: raw) := by
  have hagree := scan_agrees (SLASH :: raw)
  have hcut : ∀ d, rawPath (SLASH :: raw) = SLASH :: raw → CutEscape (SLASH :: raw) d →
      scan (SLASH :: raw) = (d, .truncated) := fun d => scan_of_cutEscape
  cases hd : percentDecode (rawPath (SLASH :: raw)) with
  | some d =>
    obtain ⟨-, htrunc, -⟩ := scan_of_percentDecode hd
    rw [normalises_iff_of_percentDecode hd, keptSegments_eq_iff (segments_ne_nil mergeSlashes d)]
    constructor
    · refine fun hok => ⟨fun d' hd' => ?_, fun d' hraw hcut' => ?_⟩
      · rw [hd] at hd'
        rwa [← Option.some.inj hd']
      · exact absurd (congrArg Prod.snd (hcut d' hraw hcut')) htrunc
    · exact fun h => h.decoded d hd
  | none =>
    have hparse := ngxHttpParseComplexUri_segments mergeSlashes uriLen raw quotedUri plusInUri
    have hnormal : normalise mergeSlashes (SLASH :: raw) = none := by rw [normalise, hd]; rfl
    have hfail : Normalises mergeSlashes uriLen (SLASH :: raw) quotedUri plusInUri ↔
        ngxHttpParseComplexUri false mergeSlashes uriLen (SLASH :: raw) quotedUri plusInUri =
          none := by
      rw [Normalises, hnormal]
    rw [hfail]
    -- only an escape that is cut short or spoilt keeps the path from decoding
    cases hend : (scan (SLASH :: raw)).2 with
    | bad =>
      refine iff_of_true ?_ ⟨fun d' hd' => ?_, fun d' hraw hcut' => ?_⟩
      · cases hk : keptSegments (segments mergeSlashes (scan (SLASH :: raw)).1) <;>
          rw [hk] at hparse
        · exact hparse
        · simpa only [if_pos hend] using hparse
      · rw [hd] at hd'
        exact absurd hd' (by simp)
      · rw [hcut d' hraw hcut'] at hend
        exact absurd hend (by simp)
    | truncated =>
      rw [hend] at hagree
      obtain ⟨-, hraw, hcutD⟩ := hagree
      rw [keptSegments] at hparse
      constructor
      · refine fun hnone => ⟨fun d' hd' => ?_, fun d' hraw hcut' => ?_⟩
        · rw [hd] at hd'
          exact absurd hd' (by simp)
        · cases hw : walk parentSkippingEmpty [] (segments mergeSlashes d').dropLast with
          | none => rfl
          | some st =>
            rw [hcut d' hraw hcut', hw] at hparse
            simp [hnone] at hparse
      · intro h
        rw [h.truncated _ hraw hcutD] at hparse
        exact hparse
    | atEnd | query | fragment =>
      rw [hend] at hagree
      exact absurd (hd.symm.trans hagree) (by simp)

/-- `/a/..` -/
def dotDotUri : Bytes := [SLASH, 0x61, SLASH, DOT, DOT]

/-- A `..` that ends the path is kept: `/a/..` stays as it is, where the reference has `/`. -/
theorem not_normalises_dotDotUri : ¬ Normalises true 5 dotDotUri false false := by
  rintro ⟨c, hc, huri, -⟩
  rw [← Option.some.inj hc] at huri
  exact absurd huri (by decide)

end Uri
