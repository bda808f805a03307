/-
# `ngx_http_parse_unsafe_uri`

The check of `ngx_http_parse.c` on a URI that did not come through the request line.  The loop
before the unescaping looks for `..` in the URI as it is given, arguments and all, and cuts them
off only when it gets to them; the one after it has the path alone.  `ngx_unescape_uri` is called
with type 0.

The function errs in two ways (`Slips`): a last segment `..` in front of the arguments is not
seen when nothing is escaped, and nothing may be left after the unescaping.
-/
import ReadingCode.Bytes

namespace UnsafeUri

open List

/-! ## The function -/

/-- `ngx_path_separator(c)` -/
def separator (win32 : Bool) (c : UInt8) : Bool := c == SLASH || (win32 && c == BACKSLASH)

/-- The test for two dots at `p`, with a separator or the end behind them. -/
def dotsAt (win32 : Bool) : Bytes → Bool
  | [c0, c1] => c0 == DOT && c1 == DOT
  | c0 :: c1 :: c2 :: _ => c0 == DOT && c1 == DOT && separator win32 c2
  | _ => false

/-- The first loop: `quoted`, the path, and the arguments if there is a `?`.  Without a result it
is left by `goto unsafe`. -/
def scanUri (win32 : Bool) : Bool → Bytes →
    Option (Bool × Bytes × Option Bytes)
  | quoted, [] => some (quoted, [], none)
  | quoted, ch :: p =>
    if ch = PERCENT then (scanUri win32 true p).map fun r => (r.1, ch :: r.2.1, r.2.2)
    else if usual win32 ch then (scanUri win32 quoted p).map fun r => (r.1, ch :: r.2.1, r.2.2)
    else if ch = QUESTION then some (quoted, [], some p)
    else if ch = NUL then none
    else if separator win32 ch && dotsAt win32 p then none
    else (scanUri win32 quoted p).map fun r => (r.1, ch :: r.2.1, r.2.2)

/-- The states of `ngx_unescape_uri`. -/
inductive Sw where
  | usual
  | quoted
  | quotedSecond (decoded : ℕ)

/-- `ngx_unescape_uri` with type 0, from a state on.  A `%` and what is wrong with it are left
out, except that the byte after a `%` is copied. -/
def ngxUnescapeUri : Sw → Bytes → Bytes
  | _, [] => []
  | .usual, ch :: s =>
    if ch = PERCENT then ngxUnescapeUri .quoted s else ch :: ngxUnescapeUri .usual s
  | .quoted, ch :: s =>
    match hexDigit ch with
    | some d => ngxUnescapeUri (.quotedSecond d) s
    | none => ch :: ngxUnescapeUri .usual s
  | .quotedSecond d, ch :: s =>
    match hexDigit ch with
    | some d' => UInt8.ofNat (d * 16 + d') :: ngxUnescapeUri .usual s
    | none => ngxUnescapeUri .usual s

/-- The second loop; it is left by `goto unsafe` or not. -/
def scanUnescaped (win32 : Bool) : Bytes → Bool
  | [] => true
  | ch :: p =>
    if ch = NUL then false
    else if separator win32 ch && dotsAt win32 p then false
    else scanUnescaped win32 p

/-- `ngx_http_parse_unsafe_uri(r, uri, args, flags)`: for `NGX_OK` the URI and the arguments;
`alloc` says whether `ngx_pnalloc` succeeds. -/
def ngxHttpParseUnsafeUri (win32 alloc : Bool) (uri : Bytes) :
    Option (Bytes × Option Bytes) :=
  if uri = [] ∨ uri.head? = some QUESTION then none
  else if dotsAt win32 uri then none
  else
    match scanUri win32 false uri with
    | none => none
    | some (quoted, path, args) =>
      if quoted then
        if alloc then
          let uri := ngxUnescapeUri .usual path
          if dotsAt win32 uri then none
          else if scanUnescaped win32 uri then some (uri, args) else none
        else none
      else some (path, args)

/-! ## Segments -/

/-- The segments of a path. -/
def segments (win32 : Bool) : Bytes → List Bytes
  | [] => [[]]
  | c :: s =>
    if separator win32 c then [] :: segments win32 s
    else
      match segments win32 s with
      | [] => [[c]]
      | seg :: segs => (c :: seg) :: segs

/-- `..` -/
def dots : Bytes := [DOT, DOT]

/-- What a safe URI is. -/
def Safe (win32 : Bool) (uri : Bytes) : Prop :=
  uri ≠ [] ∧ NUL ∉ uri ∧ dots ∉ segments win32 uri

/-- The path of a URI. -/
def pathOf (uri : Bytes) : Bytes := uri.takeWhile fun c => !(c == QUESTION)

/-- Escapes that are cut short, or whose second digit is none, so that nothing comes of them. -/
def Vanishes : Bytes → Prop
  | [] => True
  | [c] => c = PERCENT
  | [c, h] => c = PERCENT ∧ (hexDigit h).isSome
  | c :: h :: x :: rest =>
    c = PERCENT ∧ (hexDigit h).isSome ∧ hexDigit x = none ∧ Vanishes rest

/-- The URIs that the function accepts and should not: nothing in the path is escaped, and of its
segments just the last is `..`, with arguments behind; or nothing is left of the path. -/
def Slips (win32 alloc : Bool) (uri : Bytes) : Prop :=
  pathOf uri ≠ [] ∧ NUL ∉ pathOf uri ∧
    ((PERCENT ∉ pathOf uri ∧ QUESTION ∈ uri ∧
        dots ∉ (segments win32 (pathOf uri)).dropLast ∧
        (segments win32 (pathOf uri)).getLast? = some dots) ∨
      (alloc = true ∧ PERCENT ∈ pathOf uri ∧ Vanishes (pathOf uri)))

section

variable {win32 : Bool} {c : UInt8} {s p : Bytes}

theorem segments_ne_nil (win32 : Bool) (s : Bytes) : segments win32 s ≠ [] := by
  cases s with
  | nil => exact cons_ne_nil _ _
  | cons c s =>
    rw [segments]
    split
    · exact cons_ne_nil _ _
    · split <;> exact cons_ne_nil _ _

theorem segments_cons_of_not (h : separator win32 c = false) :
    ∃ seg segs, segments win32 s = seg :: segs ∧ segments win32 (c :: s) = (c :: seg) :: segs := by
  rw [segments, h]
  rcases hs : segments win32 s with _ | ⟨seg, segs⟩
  · exact absurd hs (segments_ne_nil win32 s)
  · exact ⟨seg, segs, rfl, rfl⟩

/-- A segment of two dots is not the last, or nothing follows the path. -/
def Seen (e : Bool) : List Bytes → Prop
  | [] => False
  | seg :: segs => seg = dots ∧ (segs ≠ [] ∨ e = true) ∨ segs ≠ [] ∧ Seen e segs

variable {segs : List Bytes}

theorem seen_iff (e : Bool) (h : segs ≠ []) :
    Seen e segs ↔ dots ∈ segs.dropLast ∨ e = true ∧ segs.getLast? = some dots := by
  induction segs with
  | nil => exact absurd rfl h
  | cons seg segs ih =>
    cases segs with
    | nil => simp [Seen, and_comm]
    | cons seg' segs =>
      rw [Seen]
      grind

/-! ## What the loops see -/

/-- What there is before the first byte that ends the path. -/
def upTo (q : UInt8 → Bool) (s : Bytes) : Bytes := s.takeWhile fun c => !q c

/-- The URI begins with the word, and a separator or the end is behind it. -/
def begins (win32 : Bool) : Bytes → Bytes → Bool
  | [], [] => true
  | [], c :: _ => separator win32 c
  | _ :: _, [] => false
  | a :: w, c :: s => c == a && begins win32 w s

/-- The test after a separator, anywhere in the path. -/
def later (win32 : Bool) (q : UInt8 → Bool) : Bytes → Bool
  | [] => false
  | ch :: p => !q ch && (separator win32 ch && dotsAt win32 p || later win32 q p)

theorem dotsAt_eq (win32 : Bool) (s : Bytes) : dotsAt win32 s = begins win32 dots s := by
  match s with
  | [] => rfl
  | [c0] => simp [dotsAt, begins, dots]
  | [c0, c1] => simp [dotsAt, begins, dots]
  | c0 :: c1 :: c2 :: s => simp [dotsAt, begins, dots, Bool.and_assoc]

variable {q : UInt8 → Bool}

theorem upTo_cons_stop (h : q c = true) : upTo q (c :: s) = [] :=
  takeWhile_cons_of_neg (by simp [h])

theorem upTo_cons (h : q c = false) : upTo q (c :: s) = c :: upTo q s :=
  takeWhile_cons_of_pos (by simp [h])

theorem begins_iff (hsep : ∀ c, q c = true → separator win32 c = false) {w : Bytes}
    (hw : ∀ a ∈ w, q a = false ∧ separator win32 a = false) {seg : Bytes}
    (h : segments win32 (upTo q s) = seg :: segs) :
    begins win32 w s = true ↔ seg = w ∧ (segs ≠ [] ∨ s.any q = false) := by
  induction w generalizing s seg with
  | nil =>
    cases s with
    | nil =>
      obtain ⟨rfl, rfl⟩ := List.cons.inj h
      simp [begins]
    | cons c s =>
      rw [begins]
      cases hq : q c with
      | true =>
        rw [upTo_cons_stop hq] at h
        obtain ⟨rfl, rfl⟩ := List.cons.inj h
        simp [hsep c hq, hq]
      | false =>
        rw [upTo_cons hq] at h
        cases hs : separator win32 c with
        | true =>
          rw [segments, hs] at h
          obtain ⟨rfl, rfl⟩ := List.cons.inj h
          simp [segments_ne_nil]
        | false =>
          obtain ⟨seg', segs', -, h'⟩ := segments_cons_of_not (s := upTo q s) hs
          obtain ⟨rfl, rfl⟩ := List.cons.inj (h'.symm.trans h)
          simp
  | cons a w ih =>
    cases s with
    | nil =>
      obtain ⟨rfl, rfl⟩ := List.cons.inj h
      simp [begins]
    | cons c s =>
      rw [begins]
      by_cases hca : c = a
      · subst hca
        obtain ⟨hq, hs⟩ := hw c mem_cons_self
        rw [upTo_cons hq] at h
        obtain ⟨seg', segs', hseg, h'⟩ := segments_cons_of_not (s := upTo q s) hs
        obtain ⟨rfl, rfl⟩ := List.cons.inj (h'.symm.trans h)
        have := ih (fun a ha => hw a (mem_cons_of_mem c ha)) hseg
        simp [this, hq]
      · have hne : seg ≠ a :: w := by
          rintro rfl
          cases hq : q c with
          | true =>
            rw [upTo_cons_stop hq] at h
            exact absurd (List.cons.inj h).1 (by simp)
          | false =>
            rw [upTo_cons hq] at h
            cases hs : separator win32 c with
            | true =>
              rw [segments, hs] at h
              exact absurd (List.cons.inj h).1 (by simp)
            | false =>
              obtain ⟨seg', segs', -, h'⟩ := segments_cons_of_not (s := upTo q s) hs
              exact hca (List.cons.inj (List.cons.inj (h'.symm.trans h)).1).1
        simp [hca, hne]

/-- **The tests** see every segment of two dots, but for one that is followed by what ends the
path. -/
theorem seen_segments (win32 : Bool) (hsep : ∀ c, q c = true → separator win32 c = false)
    (hdot : q DOT = false) (s : Bytes) : Seen (!s.any q) (segments win32 (upTo q s)) ↔
      dotsAt win32 s = true ∨ later win32 q s = true := by
  have hdots : ∀ a ∈ dots, q a = false ∧ separator win32 a = false := by
    intro a ha
    obtain rfl : a = DOT := by simpa [dots] using ha
    exact ⟨hdot, by cases win32 <;> rfl⟩
  have hhead : ∀ {s : Bytes} {seg segs}, segments win32 (upTo q s) = seg :: segs →
      (dotsAt win32 s = true ↔ seg = dots ∧ (segs ≠ [] ∨ s.any q = false)) :=
    fun h => by rw [dotsAt_eq, begins_iff hsep hdots h]
  -- the segments after the first
  have htail : ∀ {seg segs}, segments win32 (upTo q s) = seg :: segs →
      (later win32 q s = true ↔ segs ≠ [] ∧ Seen (!s.any q) segs) := by
    induction s with
    | nil =>
      intro seg segs h
      obtain ⟨rfl, rfl⟩ := List.cons.inj h
      simp [later]
    | cons c s ih =>
      intro seg segs h
      rw [later, any_cons]
      cases hq : q c with
      | true =>
        rw [upTo_cons_stop hq] at h
        obtain ⟨rfl, rfl⟩ := List.cons.inj h
        simp
      | false =>
        rw [upTo_cons hq] at h
        cases hs : separator win32 c with
        | true =>
          rw [segments, hs] at h
          obtain ⟨rfl, rfl⟩ := List.cons.inj h
          rcases hp : segments win32 (upTo q s) with _ | ⟨seg', segs'⟩
          · exact absurd hp (segments_ne_nil _ _)
          · have h1 := hhead hp
            have h2 := ih hp
            rw [Seen]
            simp [h1, h2]
        | false =>
          obtain ⟨seg', segs', hp, h'⟩ := segments_cons_of_not (s := upTo q s) hs
          obtain ⟨rfl, rfl⟩ := List.cons.inj (h'.symm.trans h)
          have h2 := ih hp
          simp [h2]
  rcases hp : segments win32 (upTo q s) with _ | ⟨seg, segs⟩
  · exact absurd hp (segments_ne_nil _ _)
  · rw [Seen, hhead hp, htail hp, Bool.not_eq_true']

/-! ## The two loops -/

/-- The byte that ends the path. -/
def isQuestion (c : UInt8) : Bool := c == QUESTION

/-- **The loop before the unescaping.** -/
theorem scanUri_eq (win32 quoted : Bool) (s : Bytes) :
    (scanUri win32 quoted s).map (fun r => (r.1, r.2.1)) =
      if NUL ∈ upTo isQuestion s ∨ later win32 isQuestion s = true then none
      else some (quoted || decide (PERCENT ∈ upTo isQuestion s), upTo isQuestion s) := by
  induction s generalizing quoted with
  | nil => simp [scanUri, upTo, later]
  | cons c s ih =>
    have hu : c = QUESTION ∨ c = NUL ∨ separator win32 c = true →
        c ≠ PERCENT ∧ usual win32 c = false := by
      intro h
      simp only [separator, Bool.or_eq_true, Bool.and_eq_true, beq_iff_eq] at h
      rcases h with rfl | rfl | rfl | ⟨rfl, rfl⟩ <;> first | decide | cases win32 <;> decide
    by_cases hq : c = QUESTION
    · obtain ⟨hp, hu⟩ := hu (.inl hq)
      subst hq
      rw [scanUri, if_neg hp, hu, upTo_cons_stop (by rfl)]
      simp [later, isQuestion]
    have hq' : isQuestion c = false := by simpa [isQuestion] using hq
    rw [upTo_cons hq', later, hq']
    by_cases hn : c = NUL
    · obtain ⟨hp, hu⟩ := hu (.inr (.inl hn))
      rw [scanUri, if_neg hp, hu, if_neg hq]
      simp [hn]
    cases hd : separator win32 c && dotsAt win32 s with
    | true =>
      obtain ⟨hp, hu⟩ := hu (.inr (.inr ((Bool.and_eq_true _ _).mp hd).1))
      rw [scanUri, if_neg hp, hu, if_neg hq, hd]
      simp
    | false =>
      have hscan : scanUri win32 quoted (c :: s) =
          (scanUri win32 (quoted || decide (c = PERCENT)) s).map
            fun r => (r.1, c :: r.2.1, r.2.2) := by
        rw [scanUri]
        split_ifs <;> simp_all
      have ih := congrArg (Option.map fun r => (r.1, c :: r.2))
        (ih (quoted || decide (c = PERCENT)))
      rw [Option.map_map] at ih
      rw [hscan, Option.map_map]
      refine ih.trans ?_
      simp only [mem_cons, Ne.symm hn, false_or, Bool.not_false, Bool.true_and, Bool.false_or]
      split_ifs <;> simp [Bool.or_assoc, eq_comm]

theorem seen_true (h : segs ≠ []) : Seen true segs ↔ dots ∈ segs := by
  rw [seen_iff true h]
  conv_rhs => rw [← dropLast_append_getLast h]
  rw [getLast?_eq_getLast_of_ne_nil h]
  simp [eq_comm]

theorem Seen.mem {e : Bool} (h : Seen e segs) : dots ∈ segs := by
  have hne : segs ≠ [] := by
    rintro rfl
    exact h
  rw [seen_iff e hne] at h
  rcases h with h | ⟨-, h⟩
  · exact dropLast_subset _ h
  · exact mem_of_getLast? h

/-- **The loop after the unescaping.** -/
theorem safe_iff (h : s ≠ []) :
    Safe win32 s ↔ dotsAt win32 s = false ∧ scanUnescaped win32 s = true := by
  have hscan : scanUnescaped win32 s = true ↔
      NUL ∉ s ∧ later win32 (fun _ => false) s = false := by
    clear h
    induction s with
    | nil => simp [scanUnescaped, later]
    | cons c s ih =>
      rw [scanUnescaped, later]
      by_cases hc : c = NUL
      · simp [hc]
      · cases separator win32 c && dotsAt win32 s <;> simp [hc, ih, Ne.symm hc]
  have hseen := seen_segments (q := fun _ => false) win32 (by simp) rfl s
  have hup : ∀ s, upTo (fun _ => false) s = s := fun s => by
    induction s with
    | nil => rfl
    | cons c s ih => rw [upTo_cons rfl, ih]
  rw [show (!s.any fun _ => false) = true by simp, seen_true (segments_ne_nil _ _)] at hseen
  rw [Safe]
  grind

/-! ## Escapes that vanish -/

theorem ngxUnescapeUri_eq_nil (s : Bytes) : ngxUnescapeUri .usual s = [] ↔ Vanishes s := by
  match s with
  | [] => simp [ngxUnescapeUri, Vanishes]
  | [c] =>
    rw [ngxUnescapeUri, Vanishes]
    split_ifs with h <;> simp [ngxUnescapeUri, h]
  | [c, h] =>
    rw [ngxUnescapeUri, Vanishes]
    split_ifs with hc
    · rw [ngxUnescapeUri]
      cases hexDigit h <;> simp [ngxUnescapeUri, hc]
    · simp [hc]
  | c :: h :: x :: rest =>
    rw [ngxUnescapeUri, Vanishes]
    split_ifs with hc
    · rw [ngxUnescapeUri]
      cases hexDigit h with
      | none => simp
      | some d =>
        simp only [ngxUnescapeUri]
        cases hexDigit x with
        | none => simp [hc, ngxUnescapeUri_eq_nil rest]
        | some d' => simp
    · simp [hc]

/-- A segment of such a path begins with `%`, if with anything. -/
theorem Vanishes.segments (s : Bytes) (h : Vanishes s) :
    ∀ seg ∈ segments win32 s, seg = [] ∨ seg.head? = some PERCENT := by
  have hpercent : separator win32 PERCENT = false := by cases win32 <;> rfl
  have hhex : ∀ {h : UInt8}, (hexDigit h).isSome → separator win32 h = false := by
    intro h hh
    by_contra hsep
    simp only [separator, Bool.not_eq_false, Bool.or_eq_true, Bool.and_eq_true, beq_iff_eq] at hsep
    rcases hsep with rfl | ⟨-, rfl⟩ <;> exact absurd hh (by decide)
  match s with
  | [] => simp [UnsafeUri.segments]
  | [c] =>
    obtain rfl : c = PERCENT := h
    simp [UnsafeUri.segments, hpercent]
  | [c, d] =>
    obtain ⟨rfl, hd⟩ := h
    simp [UnsafeUri.segments, hpercent, hhex hd]
  | c :: d :: x :: rest =>
    obtain ⟨rfl, hd, -, hrest⟩ := h
    have ih := Vanishes.segments rest hrest
    obtain ⟨seg1, segs1, h1, h1'⟩ := segments_cons_of_not (s := d :: x :: rest) hpercent
    obtain ⟨seg2, segs2, h2, h2'⟩ := segments_cons_of_not (s := x :: rest) (hhex hd)
    rw [h1']
    obtain ⟨rfl, rfl⟩ := List.cons.inj (h2'.symm.trans h1)
    intro seg hseg
    rcases mem_cons.1 hseg with rfl | hseg'
    · exact .inr rfl
    · cases hx : separator win32 x with
      | true =>
        rw [UnsafeUri.segments, hx] at h2
        obtain ⟨rfl, rfl⟩ := List.cons.inj h2
        exact ih seg hseg'
      | false =>
        obtain ⟨seg3, segs3, h3, h3'⟩ := segments_cons_of_not (s := rest) hx
        obtain ⟨rfl, rfl⟩ := List.cons.inj (h3'.symm.trans h2)
        exact ih seg (h3 ▸ mem_cons_of_mem _ hseg')

theorem Vanishes.dots_notMem (h : Vanishes s) : dots ∉ UnsafeUri.segments win32 s := fun hmem => by
  rcases h.segments s dots hmem with h | h <;> exact absurd h (by decide)

end

theorem ngxHttpParseUnsafeUri_safe_iff (win32 alloc : Bool) (uri : Bytes) :
    (∀ u args, ngxHttpParseUnsafeUri win32 alloc uri = some (u, args) → Safe win32 u) ↔
      ¬ Slips win32 alloc uri := by
  have hseen := seen_segments (q := isQuestion) win32
    (by intro c hc; obtain rfl := beq_iff_eq.1 hc; cases win32 <;> rfl) rfl uri
  have hany : (!uri.any isQuestion) = decide (QUESTION ∉ uri) := by
    rw [Bool.eq_iff_iff]
    simp only [isQuestion, Bool.not_eq_true', any_eq_false, decide_eq_true_eq, beq_iff_eq]
    exact ⟨fun h hq => h _ hq rfl, fun h c hc heq => h (heq ▸ hc)⟩
  have hpath : upTo isQuestion uri = pathOf uri := rfl
  rw [hpath] at hseen
  have hsegs := segments_ne_nil win32 (pathOf uri)
  -- what the tests see does not slip through
  have hsafe : Seen (!uri.any isQuestion) (segments win32 (pathOf uri)) →
      ¬ Slips win32 alloc uri := by
    rintro hs ⟨-, -, ⟨-, hq, hdrop, -⟩ | ⟨-, -, hvan⟩⟩
    · rw [seen_iff _ hsegs, hany] at hs
      exact hs.elim hdrop fun h => of_decide_eq_true h.1 hq
    · exact hvan.dots_notMem hs.mem
  rw [ngxHttpParseUnsafeUri]
  by_cases hempty : uri = [] ∨ uri.head? = some QUESTION
  · rw [if_pos hempty]
    refine iff_of_true (by simp) fun h => h.1 ?_
    rcases hempty with rfl | hhead
    · rfl
    · obtain ⟨t, rfl⟩ : ∃ t, uri = QUESTION :: t := by
        cases uri <;> simp_all
      rfl
  rw [if_neg hempty]
  by_cases hdots : dotsAt win32 uri = true
  · rw [if_pos hdots]
    exact iff_of_true (by simp) (hsafe (hseen.2 (.inl hdots)))
  · rw [if_neg hdots]
    have hscan := scanUri_eq win32 false uri
    rw [hpath] at hscan
    by_cases hbad : NUL ∈ pathOf uri ∨ later win32 isQuestion uri = true
    · rw [if_pos hbad, Option.map_eq_none_iff] at hscan
      rw [hscan]
      refine iff_of_true (by simp) ?_
      exact hbad.elim (fun h hslip => hslip.2.1 h) fun h => hsafe (hseen.2 (.inr h))
    · rw [if_neg hbad] at hscan
      obtain ⟨⟨quoted, path, args⟩, hs, heq⟩ := Option.map_eq_some_iff.1 hscan
      obtain ⟨rfl, rfl⟩ := Prod.mk.inj heq
      rw [hs]
      obtain ⟨hnul, hlater⟩ := not_or.1 hbad
      have hne : pathOf uri ≠ [] := by
        cases uri with
        | nil => simp at hempty
        | cons c uri => simp_all [pathOf]
      have hnot : ¬ Seen (!uri.any isQuestion) (segments win32 (pathOf uri)) := by
        rw [hseen]
        simp [hdots, hlater]
      dsimp only
      by_cases hquoted : PERCENT ∈ pathOf uri
      · rw [if_pos (by simpa using hquoted)]
        have hvan := ngxUnescapeUri_eq_nil (pathOf uri)
        cases alloc with
        | false => exact iff_of_true (by simp) (by simp [Slips, hquoted])
        | true =>
          rw [if_pos rfl]
          by_cases hnil : ngxUnescapeUri .usual (pathOf uri) = []
          · refine iff_of_false (fun h => ?_)
              (not_not.2 ⟨hne, hnul, .inr ⟨rfl, hquoted, hvan.1 hnil⟩⟩)
            exact (h [] args (by simp [hnil, dotsAt, scanUnescaped])).1 rfl
          · refine iff_of_true (fun u args' h => ?_) ?_
            · split_ifs at h with h1 h2
              obtain ⟨rfl, -⟩ := Prod.mk.inj (Option.some.inj h)
              exact (safe_iff hnil).2 ⟨by simpa using h1, h2⟩
            · rintro ⟨-, -, ⟨h, -⟩ | ⟨-, -, h⟩⟩
              · exact h hquoted
              · exact hnil (hvan.2 h)
      · rw [if_neg (by simpa using hquoted)]
        rw [seen_iff _ hsegs, hany] at hnot
        have hmem := seen_true hsegs
        rw [seen_iff _ hsegs] at hmem
        constructor
        · rintro h ⟨-, -, ⟨-, -, -, hlast⟩ | ⟨-, hp, -⟩⟩
          · exact (h _ _ rfl).2.2 (hmem.1 (.inr ⟨rfl, hlast⟩))
          · exact hquoted hp
        · intro h u args' heq
          obtain ⟨rfl, -⟩ := Prod.mk.inj (Option.some.inj heq)
          refine ⟨hne, hnul, fun hd => ?_⟩
          rcases hmem.2 hd with hd | ⟨-, hlast⟩
          · exact hnot (.inl hd)
          · refine h ⟨hne, hnul, .inl ⟨hquoted, ?_, fun hd => hnot (.inl hd), hlast⟩⟩
            by_contra hq
            exact hnot (.inr ⟨decide_eq_true hq, hlast⟩)

/-- `/a/..?b` -/
theorem ngxHttpParseUnsafeUri_dots : ngxHttpParseUnsafeUri false true [47, 97, 47, 46, 46, 63, 98] =
        some ([47, 97, 47, 46, 46], some [98]) ∧ ¬ Safe false [47, 97, 47, 46, 46] ∧
      ngxHttpParseUnsafeUri false true [37] = some ([], none) := by
  refine ⟨by decide, fun h => absurd h.2.2 (by decide), by decide⟩

end UnsafeUri
