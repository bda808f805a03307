/-
# `ngx_http_range_parse`

The byte ranges of `ngx_http_range_filter_module.c`.  The header value is read from behind
`bytes=` on, and a NUL ends it; `readSpec` is what the loop reads up to the next comma, and
`Spec.range` what it makes of that.

A suffix that is longer than the content gives a range that begins before it.  The sum of the
sizes is to catch such ranges, but it is kept in an `off_t` and wraps.
-/
import ReadingCode.Decimal
import ReadingCode.Bytes

namespace ByteRanges

open List

open Decimal

/-! ## The parser -/

/-- `NGX_MAX_OFF_T_VALUE` -/
def maxOffT : ℕ := 9223372036854775807

abbrev COMMA : UInt8 := 0x2c

abbrev DASH : UInt8 := 0x2d

/-- What stands between two commas: `first-last`, `first-` or `-length`. -/
inductive Spec where
  | fromTo (first last : ℕ)
  | fromOn (first : ℕ)
  | suffix (length : ℕ)

/-- `ngx_http_range_t` -/
structure Range where
  start : ℤ
  «end» : ℤ
  deriving DecidableEq

/-- `*p` -/
def peek (p : Bytes) : UInt8 := p.headD NUL

/-- `while (*p == ' ') { p++; }` -/
def spaces (p : Bytes) : Bytes := p.dropWhile (· == SP)

/-- The loop over the digits of a number, with `cutoff` and `cutlim`. -/
def digits : ℕ → Bytes → Option (ℕ × Bytes)
  | n, [] => some (n, [])
  | n, c :: p =>
    if IsDigit c then
      if maxOffT / 10 ≤ n ∧ (maxOffT / 10 < n ∨ maxOffT % 10 < c.toNat - 48) then none
      else digits (n * 10 + (c.toNat - 48)) p
    else some (n, c :: p)

def readNumber (p : Bytes) : Option (ℕ × Bytes) :=
  if IsDigit (peek p) then digits 0 p else none

/-- `*p == ',' || *p == '\0'` -/
abbrev Ends (p : Bytes) : Prop := peek p = COMMA ∨ peek p = NUL

/-- The number behind a dash, up to the end. -/
def readEnd (p : Bytes) : Option (ℕ × Bytes) :=
  match readNumber p with
  | none => none
  | some (n, p) => if Ends (spaces p) then some (n, spaces p) else none

/-- One pass of the loop up to `found`; without a result it is
`NGX_HTTP_RANGE_NOT_SATISFIABLE`. -/
def readSpec (p : Bytes) : Option (Spec × Bytes) :=
  let p := spaces p
  if peek p = DASH then (readEnd p.tail).map fun r => (.suffix r.1, r.2)
  else
    match readNumber p with
    | none => none
    | some (first, p) =>
      let p := spaces p
      if peek p = DASH then
        let p := spaces p.tail
        if Ends p then some (.fromOn first, p)
        else (readEnd p).map fun r => (.fromTo first r.1, r.2)
      else none

/-- `start` and `end` at `found`. -/
def Spec.range (contentLength : ℕ) : Spec → Range
  | .fromTo first last => clamp first last
  | .fromOn first => ⟨first, contentLength⟩
  | .suffix length => clamp (contentLength - length) (contentLength - 1)
where
  clamp (start «end» : ℤ) : Range :=
    ⟨start, if «end» ≥ contentLength then contentLength else «end» + 1⟩

/-- The results but `NGX_OK`. -/
inductive Rc where
  | error
  | declined
  | notSatisfiable

/-- What the loop keeps: `ranges`, the array and `size`. -/
structure Ctx where
  left : ℕ
  ranges : List Range := []
  size : ℤ := 0

/-- An `off_t`. -/
def offT (x : ℤ) : ℤ := x.bmod (2 ^ 64)

/-- The statements at `found`; `alloc` says which of the calls of `ngx_array_push` succeed. -/
def Ctx.found (alloc : ℕ → Bool) (c : Ctx) (r : Range) : Except Rc Ctx :=
  if r.start < r.end then
    if alloc c.ranges.length then
      match c.left with
      | 0 => .error .declined
      | left + 1 => .ok ⟨left, c.ranges ++ [r], offT (c.size + (r.end - r.start))⟩
    else .error .error
  else .ok c

/-! ## What the header says -/

abbrev Blank (t : Bytes) : Prop := ∀ c ∈ t, c = SP

/-- A number that fits into an `off_t`. -/
def IsNumber (ds : Bytes) (n : ℕ) : Prop :=
  ds ≠ [] ∧ (∀ c ∈ ds, IsDigit c) ∧ value ds = n ∧ n ≤ maxOffT

/-- The text of a range, with something behind. -/
inductive Spells : Spec → Bytes → Bytes → Prop
  | fromTo {a b : ℕ} {ds es s1 s2 s3 s4 r : Bytes} (h1 : Blank s1) (hd : IsNumber ds a)
      (h2 : Blank s2) (h3 : Blank s3) (he : IsNumber es b) (h4 : Blank s4) :
      Spells (.fromTo a b) (s1 ++ (ds ++ (s2 ++ DASH :: (s3 ++ (es ++ (s4 ++ r)))))) r
  | fromOn {a : ℕ} {ds s1 s2 s3 r : Bytes} (h1 : Blank s1) (hd : IsNumber ds a)
      (h2 : Blank s2) (h3 : Blank s3) :
      Spells (.fromOn a) (s1 ++ (ds ++ (s2 ++ DASH :: (s3 ++ r)))) r
  | suffix {n : ℕ} {ds s1 s2 r : Bytes} (h1 : Blank s1) (hd : IsNumber ds n)
      (h2 : Blank s2) : Spells (.suffix n) (s1 ++ DASH :: (ds ++ (s2 ++ r))) r

section

variable {p r t ds : Bytes} {n m : ℕ}

theorem le_foldl_addDigit (n : ℕ) (ds : Bytes) : n ≤ ds.foldl addDigit n := by
  induction ds generalizing n with
  | nil => exact Nat.le_refl n
  | cons d ds ih =>
    refine le_trans ?_ (ih (addDigit n d))
    rw [addDigit]
    omega

theorem ne_of_isDigit {c : UInt8} (h : IsDigit c) : c ≠ SP ∧ c ≠ DASH ∧ c ≠ COMMA ∧ c ≠ NUL := by
  refine ⟨?_, ?_, ?_, ?_⟩ <;> rintro rfl <;> exact absurd h (by decide)

theorem digits_iff (hm : m ≤ maxOffT) :
    digits m p = some (n, r) ↔ ∃ ds, p = ds ++ r ∧ (∀ c ∈ ds, IsDigit c) ∧ ¬ IsDigit (peek r) ∧
      ds.foldl addDigit m = n ∧ n ≤ maxOffT := by
  induction p generalizing m with
  | nil =>
    constructor
    · rintro ⟨⟩
      exact ⟨[], rfl, by simp, by decide, rfl, hm⟩
    · rintro ⟨ds, heq, -, -, rfl, -⟩
      obtain ⟨rfl, rfl⟩ := append_eq_nil_iff.1 heq.symm
      rfl
  | cons c p ih =>
    rw [digits]
    by_cases hc : IsDigit c
    · have hcons : (∃ ds, c :: p = ds ++ r ∧ (∀ c ∈ ds, IsDigit c) ∧ ¬ IsDigit (peek r) ∧
          ds.foldl addDigit m = n ∧ n ≤ maxOffT) ↔
          ∃ ds, p = ds ++ r ∧ (∀ c ∈ ds, IsDigit c) ∧ ¬ IsDigit (peek r) ∧
            ds.foldl addDigit (m * 10 + (c.toNat - 48)) = n ∧ n ≤ maxOffT := by
        constructor
        · rintro ⟨_ | ⟨d, ds⟩, heq, hds, hr, hn, hle⟩
          · obtain rfl : c :: p = r := heq
            exact absurd hc hr
          · obtain ⟨rfl, rfl⟩ := List.cons.inj heq
            exact ⟨ds, rfl, fun c' hc' => hds c' (mem_cons_of_mem c hc'), hr, hn, hle⟩
        · rintro ⟨ds, rfl, hds, hr, hn, hle⟩
          exact ⟨c :: ds, rfl, forall_mem_cons.2 ⟨hc, hds⟩, hr, hn, hle⟩
      rw [if_pos hc, hcons]
      have hlt := toNat_sub_lt hc
      by_cases hcut : maxOffT / 10 ≤ m ∧ (maxOffT / 10 < m ∨ maxOffT % 10 < c.toNat - 48)
      · rw [if_pos hcut]
        refine iff_of_false (by simp) ?_
        rintro ⟨ds, -, -, -, rfl, hle⟩
        have := le_foldl_addDigit (m * 10 + (c.toNat - 48)) ds
        omega
      · rw [if_neg hcut]
        exact ih (by omega)
    · rw [if_neg hc]
      constructor
      · rintro ⟨⟩
        exact ⟨[], rfl, by simp, hc, rfl, hm⟩
      · rintro ⟨_ | ⟨d, ds⟩, heq, hds, -, rfl, -⟩
        · rw [heq]
          rfl
        · exact absurd (hds d mem_cons_self) ((List.cons.inj heq).1 ▸ hc)

theorem IsNumber.peek_append (h : IsNumber ds n) (r : Bytes) : IsDigit (peek (ds ++ r)) := by
  cases ds with
  | nil => exact absurd rfl h.1
  | cons d ds => exact h.2.1 d mem_cons_self

theorem readNumber_iff :
    readNumber p = some (n, r) ↔ ∃ ds, p = ds ++ r ∧ IsNumber ds n ∧ ¬ IsDigit (peek r) := by
  rw [readNumber]
  constructor
  · intro h
    split_ifs at h with hp
    obtain ⟨ds, rfl, hds, hr, hn, hle⟩ := (digits_iff (Nat.zero_le _)).1 h
    refine ⟨ds, rfl, ⟨?_, hds, hn, hle⟩, hr⟩
    rintro rfl
    exact hr hp
  · rintro ⟨ds, rfl, hnum, hr⟩
    rw [if_pos (hnum.peek_append r)]
    exact (digits_iff (Nat.zero_le _)).2 ⟨ds, rfl, hnum.2.1, hr, hnum.2.2.1, hnum.2.2.2⟩

theorem exists_spaces (p : Bytes) : ∃ t, Blank t ∧ p = t ++ spaces p :=
  ⟨p.takeWhile (· == SP), fun c hc => by simpa using mem_takeWhile_imp hc,
    takeWhile_append_dropWhile.symm⟩

theorem spaces_append (ht : Blank t) (hr : peek r ≠ SP) : spaces (t ++ r) = r := by
  rw [spaces, dropWhile_append_of_pos fun c hc => beq_iff_eq.2 (ht c hc)]
  cases r with
  | nil => rfl
  | cons c r => exact dropWhile_cons_of_neg (by simpa [peek] using hr)

/-- Behind spaces there is no digit but what is behind them. -/
theorem Blank.not_isDigit (ht : Blank t) (hr : ¬ IsDigit (peek r)) : ¬ IsDigit (peek (t ++ r)) := by
  cases t with
  | nil => exact hr
  | cons c t =>
    obtain rfl := ht c mem_cons_self
    exact (by decide : ¬ IsDigit SP)

theorem Ends.not_isDigit (h : Ends r) : ¬ IsDigit (peek r) := fun hd =>
  h.elim (ne_of_isDigit hd).2.2.1 (ne_of_isDigit hd).2.2.2

theorem Ends.ne_space (h : Ends r) : peek r ≠ SP := by
  rcases h with h | h <;> rw [h] <;> decide

theorem readEnd_iff : readEnd p = some (n, r) ↔
      ∃ ds t, p = ds ++ (t ++ r) ∧ IsNumber ds n ∧ Blank t ∧ Ends r := by
  rw [readEnd]
  constructor
  · intro h
    rcases hn : readNumber p with _ | ⟨n', q⟩
    · rw [hn] at h
      exact absurd h (by simp)
    · rw [hn] at h
      dsimp only at h
      split_ifs at h with hends
      obtain ⟨rfl, rfl⟩ := Prod.mk.inj (Option.some.inj h)
      obtain ⟨ds, rfl, hnum, -⟩ := readNumber_iff.1 hn
      obtain ⟨t, ht, heq⟩ := exists_spaces q
      exact ⟨ds, t, by rw [← heq], hnum, ht, hends⟩
  · rintro ⟨ds, t, rfl, hnum, ht, hends⟩
    rw [readNumber_iff.2 ⟨ds, rfl, hnum, Blank.not_isDigit ht hends.not_isDigit⟩]
    dsimp only
    rw [spaces_append ht hends.ne_space, if_pos hends]

/-- **One pass of the loop** reads what is spelled. -/
theorem readSpec_iff {spec : Spec} : readSpec p = some (spec, r) ↔ Spells spec p r ∧ Ends r := by
  rw [readSpec]
  constructor
  · intro h
    obtain ⟨s1, h1, hp⟩ := exists_spaces p
    generalize spaces p = q at h hp
    subst hp
    split_ifs at h with hdash
    · obtain ⟨⟨n, r'⟩, hr, heq⟩ := Option.map_eq_some_iff.1 h
      obtain ⟨rfl, rfl⟩ := Prod.mk.inj heq
      obtain ⟨ds, t, hq, hnum, ht, hends⟩ := readEnd_iff.1 hr
      obtain _ | ⟨c, q⟩ := q
      · exact absurd hdash (by decide)
      · obtain rfl : c = DASH := hdash
        obtain rfl : q = _ := hq
        exact ⟨.suffix h1 hnum ht, hends⟩
    · rcases hn : readNumber q with _ | ⟨a, q'⟩
      · rw [hn] at h
        exact absurd h (by simp)
      rw [hn] at h
      dsimp only at h
      obtain ⟨ds, rfl, hnum, -⟩ := readNumber_iff.1 hn
      obtain ⟨s2, h2, hq'⟩ := exists_spaces q'
      generalize spaces q' = u at h hq'
      subst hq'
      by_cases hdash' : peek u ≠ DASH
      · rw [if_neg hdash'] at h
        exact absurd h (by simp)
      rw [not_not] at hdash'
      rw [if_pos hdash'] at h
      obtain _ | ⟨c, u⟩ := u
      · exact absurd hdash' (by decide)
      obtain rfl : c = DASH := hdash'
      rw [tail_cons] at h
      obtain ⟨s3, h3, hu⟩ := exists_spaces u
      generalize spaces u = v at h hu
      subst hu
      split_ifs at h with hends
      · obtain ⟨rfl, rfl⟩ := Prod.mk.inj (Option.some.inj h)
        exact ⟨.fromOn h1 hnum h2 h3, hends⟩
      · obtain ⟨⟨n, r'⟩, hr, heq⟩ := Option.map_eq_some_iff.1 h
        obtain ⟨rfl, rfl⟩ := Prod.mk.inj heq
        obtain ⟨es, t, rfl, hnum', ht, hends⟩ := readEnd_iff.1 hr
        exact ⟨.fromTo h1 hnum h2 h3 hnum' ht, hends⟩
  · rintro ⟨hspells, hends⟩
    have hdash : ∀ q, ¬ IsDigit (peek (DASH :: q)) ∧ peek (DASH :: q) ≠ SP :=
      fun q => (by decide : ¬ IsDigit DASH ∧ DASH ≠ SP)
    -- the number in front of a dash
    have hfirst : ∀ {s1 s2 ds q : Bytes} {a : ℕ}, Blank s1 → IsNumber ds a → Blank s2 →
        spaces (s1 ++ (ds ++ (s2 ++ DASH :: q))) = ds ++ (s2 ++ DASH :: q) ∧
          peek (ds ++ (s2 ++ DASH :: q)) ≠ DASH ∧
          readNumber (ds ++ (s2 ++ DASH :: q)) = some (a, s2 ++ DASH :: q) ∧
          spaces (s2 ++ DASH :: q) = DASH :: q := by
      intro s1 s2 ds q a h1 hd h2
      obtain ⟨hsp, hne, -⟩ := ne_of_isDigit (hd.peek_append (s2 ++ DASH :: q))
      exact ⟨spaces_append h1 hsp, hne,
        readNumber_iff.2 ⟨ds, rfl, hd, Blank.not_isDigit h2 (hdash q).1⟩,
        spaces_append h2 (hdash q).2⟩
    cases hspells with
    | @fromTo a b ds es s1 s2 s3 s4 _ h1 hd h2 h3 he h4 =>
      obtain ⟨hs1, hne, hread, hs2⟩ := hfirst (q := s3 ++ (es ++ (s4 ++ r))) h1 hd h2
      obtain ⟨hsp, -, hcomma, hnul⟩ := ne_of_isDigit (he.peek_append (s4 ++ r))
      rw [hs1, if_neg hne, hread]
      dsimp only
      rw [hs2, tail_cons, spaces_append h3 hsp,
        if_neg (not_or.2 ⟨hcomma, hnul⟩), readEnd_iff.2 ⟨es, s4, rfl, he, h4, hends⟩]
      rfl
    | @fromOn a ds s1 s2 s3 _ h1 hd h2 h3 =>
      obtain ⟨hs1, hne, hread, hs2⟩ := hfirst (q := s3 ++ r) h1 hd h2
      rw [hs1, if_neg hne, hread]
      dsimp only
      rw [hs2, if_pos (by rfl), tail_cons, spaces_append h3 hends.ne_space, if_pos hends]
    | @suffix n ds s1 s2 _ h1 hd h2 =>
      rw [spaces_append h1 (hdash _).2, tail_cons, readEnd_iff.2 ⟨ds, s2, rfl, hd, h2, hends⟩]
      rfl

theorem Spells.length_le {spec : Spec} (h : Spells spec p r) : r.length ≤ p.length := by
  cases h <;> simp only [length_append, length_cons] <;> omega

end

/-! ## The loop -/

/-- The loop and what is behind it. -/
def parseLoop (alloc : ℕ → Bool) (contentLength : ℕ) (c : Ctx) (p : Bytes) :
    Except Rc Ctx :=
  match _hp : readSpec p with
  | none => .error .notSatisfiable
  | some (spec, r) =>
    match c.found alloc (spec.range contentLength) with
    | .error rc => .error rc
    | .ok c =>
      if _hr : peek r = COMMA then parseLoop alloc contentLength c r.tail
      else if c.ranges = [] then .error .notSatisfiable
      else if c.size > contentLength then .error .declined
      else .ok c
termination_by p.length
decreasing_by
  have hle := (readSpec_iff.1 _hp).1.length_le
  cases r with
  | nil => exact absurd _hr (by decide)
  | cons c r =>
    rw [length_cons] at hle
    exact hle

/-- `ngx_http_range_parse(r, ctx, ranges)` for a request whose ranges are not those of another;
`p` is the header value from behind `bytes=` on. -/
def ngxHttpRangeParse (alloc : ℕ → Bool) (contentLength ranges : ℕ) (p : Bytes) :
    Except Rc Ctx := parseLoop alloc contentLength ⟨ranges, [], 0⟩ p

/-- The texts of ranges with commas between them, up to the NUL. -/
inductive Header : List Spec → Bytes → Prop
  | last {spec : Spec} {p r : Bytes} (h : Spells spec p r) (hr : peek r = NUL) :
      Header [spec] p
  | more {spec : Spec} {specs : List Spec} {p r : Bytes} (h : Spells spec p (COMMA :: r))
      (hr : Header specs r) : Header (spec :: specs) p

/-- The number of bytes that a range asks for. -/
def Spec.bytes (contentLength : ℕ) : Spec → ℕ
  | .fromTo first last => min (last + 1) contentLength - first
  | .fromOn first => contentLength - first
  | .suffix length => length

/-- The range that a text stands for. -/
def Spec.meant (contentLength : ℕ) : Spec → Range
  | .fromTo first last => ⟨first, min (last + 1) contentLength⟩
  | .fromOn first => ⟨first, contentLength⟩
  | .suffix length => ⟨(contentLength - length : ℕ), contentLength⟩

/-- The ranges of a header that can be satisfied. -/
def satisfiable (contentLength : ℕ) (specs : List Spec) : List Range :=
  (specs.map (Spec.meant contentLength)).filter fun r => r.start < r.end

/-- The sum of the bytes of all ranges of a header. -/
def total (contentLength : ℕ) (specs : List Spec) : ℕ := (specs.map (Spec.bytes contentLength)).sum

/-- The number of the ranges that ask for anything. -/
def asked (contentLength : ℕ) (specs : List Spec) : ℕ :=
  specs.countP fun spec => 0 < spec.bytes contentLength

section

variable {alloc : ℕ → Bool} {len : ℕ} {c c' : Ctx} {p : Bytes} {specs : List Spec}

theorem Spec.range_spec (len : ℕ) (spec : Spec) :
    let r := spec.range len
    (r.start < r.end ↔ 0 < spec.bytes len) ∧
      (r.start < r.end → r.end - r.start = spec.bytes len) ∧
      (spec.bytes len ≤ len → (r.start < r.end ↔
        (spec.meant len).start < (spec.meant len).end) ∧
        (r.start < r.end → r = spec.meant len ∧ 0 ≤ r.start ∧ r.end ≤ len)) := by
  cases spec <;>
    simp only [Spec.range, Spec.range.clamp, Spec.bytes, Spec.meant, Range.mk.injEq] <;> grind

/-- The passes for the ranges of a header. -/
def founds (alloc : ℕ → Bool) (contentLength : ℕ) (c : Ctx) (specs : List Spec) : Except Rc Ctx :=
  specs.foldlM (fun c spec => c.found alloc (spec.range contentLength)) c

/-- The ranges that are recorded for a header. -/
def recorded (contentLength : ℕ) (specs : List Spec) : List Range :=
  (specs.map (Spec.range contentLength)).filter fun r => r.start < r.end

theorem founds_cons (spec : Spec) : founds alloc len c (spec :: specs) =
    (c.found alloc (spec.range len)).bind fun c => founds alloc len c specs :=
  foldlM_cons

theorem founds_iff (hc : offT c.size = c.size) : founds alloc len c specs = .ok c' ↔
      (∀ i < asked len specs, alloc (c.ranges.length + i) = true) ∧ asked len specs ≤ c.left ∧
        c' = ⟨c.left - asked len specs, c.ranges ++ recorded len specs,
          offT (c.size + total len specs)⟩ := by
  induction specs generalizing c with
  | nil =>
    have hnil : offT (c.size + total len []) = c.size := by
      rw [show total len [] = 0 from rfl, Nat.cast_zero, Int.add_zero, hc]
    rw [recorded, map_nil, filter_nil, append_nil, hnil]
    constructor
    · rintro ⟨⟩
      exact ⟨by simp [asked], Nat.zero_le _, rfl⟩
    · rintro ⟨-, -, rfl⟩
      rfl
  | cons spec specs ih =>
    obtain ⟨hlt, hlen, -⟩ := spec.range_spec len
    have htotal : total len (spec :: specs) =
      spec.bytes len + total len specs := rfl
    rw [founds_cons, Ctx.found, recorded, map_cons, htotal]
    by_cases hb : 0 < spec.bytes len
    · have hr := hlt.2 hb
      have hasked : asked len (spec :: specs) = asked len specs + 1 := by
        simp [asked, hb]
      rw [if_pos hr, hasked, filter_cons_of_pos (by simpa using hr),
        Nat.forall_lt_succ_left, hlen hr]
      cases halloc : alloc c.ranges.length with
      | false => simp [Except.bind]
      | true =>
        obtain ⟨left, ranges, size⟩ := c
        cases left with
        | zero => simp [Except.bind]
        | succ left =>
          refine (ih (by simp [offT])).trans ?_
          simp [recorded, offT, Int.add_assoc, Nat.add_assoc, Nat.add_comm 1]
    · have hr : ¬ (spec.range len).start < (spec.range len).end := hb ∘ hlt.1
      have hasked : asked len (spec :: specs) = asked len specs := by
        simp [asked, hb]
      rw [if_neg hr, hasked, filter_cons_of_neg (by simpa using hr), Nat.eq_zero_of_not_pos hb,
        Nat.zero_add]
      exact ih hc

theorem parseLoop_iff : parseLoop alloc len c p = .ok c' ↔
      ∃ specs, Header specs p ∧ founds alloc len c specs = .ok c' ∧
        c'.ranges ≠ [] ∧ c'.size ≤ len := by
  constructor
  · intro h
    fun_induction parseLoop alloc len c p with
    | case1 => exact absurd h (by simp)
    | case2 => exact absurd h (by simp)
    | case3 c p spec r hp c1 hfound hr ih =>
      obtain ⟨specs, hheader, hfounds, hend⟩ := ih h
      cases r with
      | nil => exact absurd hr (by decide)
      | cons b r =>
        obtain rfl : b = COMMA := hr
        refine ⟨spec :: specs, .more (readSpec_iff.1 hp).1 hheader, ?_, hend⟩
        rw [founds_cons, hfound]
        exact hfounds
    | case4 => exact absurd h (by simp)
    | case5 => exact absurd h (by simp)
    | case6 c p spec r hp c1 hfound hr hne hsize =>
      obtain rfl := Except.ok.inj h
      obtain ⟨hspells, hends⟩ := readSpec_iff.1 hp
      refine ⟨[spec], .last hspells (hends.resolve_left hr), ?_, hne, not_lt.1 hsize⟩
      rw [founds_cons, hfound]
      rfl
  · rintro ⟨specs, hheader, hfounds, hne, hsize⟩
    -- the loop finds what is spelled
    have hpass : ∀ {spec r specs p}, Spells spec p r → Ends r → ∀ {c},
        founds alloc len c (spec :: specs) = .ok c' →
        ∃ c1, founds alloc len c1 specs = .ok c' ∧
          parseLoop alloc len c p =
            if peek r = COMMA then parseLoop alloc len c1 r.tail
            else if c1.ranges = [] then .error .notSatisfiable
            else if c1.size > len then .error .declined
            else .ok c1 := by
      intro spec r specs p hspells hends c h
      rw [founds_cons] at h
      have hread := readSpec_iff.2 ⟨hspells, hends⟩
      cases hfound : c.found alloc (spec.range len) with
      | error rc =>
        rw [hfound] at h
        exact absurd h (by simp [Except.bind])
      | ok c1 =>
        rw [hfound] at h
        refine ⟨c1, h, ?_⟩
        rw [parseLoop]
        split
        · simp_all
        · simp_all
    induction hheader generalizing c with
    | last h hr =>
      obtain ⟨c1, hc, hloop⟩ := hpass h (.inr hr) hfounds
      obtain rfl := Except.ok.inj hc
      rw [hloop, if_neg (by rw [hr]; decide), if_neg hne, if_neg (not_lt.2 hsize)]
    | more h hr ih =>
      obtain ⟨c1, hc, hloop⟩ := hpass h (.inl rfl) hfounds
      rw [hloop]
      exact ih hc

/-- A header whose ranges ask for no more than there is: what is recorded is what is meant. -/
theorem recorded_of_total_le (h : total len specs ≤ len) :
    recorded len specs = satisfiable len specs ∧
      ∀ r ∈ recorded len specs, 0 ≤ r.start ∧ r.start < r.end ∧ r.end ≤ len := by
  induction specs with
  | nil => exact ⟨rfl, by simp [recorded]⟩
  | cons spec specs ih =>
    have htotal : total len (spec :: specs) =
      spec.bytes len + total len specs := rfl
    obtain ⟨-, -, hmeant⟩ := spec.range_spec len
    obtain ⟨hiff, heq⟩ := hmeant (by omega)
    obtain ⟨ih, hall⟩ := ih (by omega)
    rw [recorded, satisfiable] at ih ⊢
    rw [map_cons, map_cons]
    by_cases hr : (spec.range len).start < (spec.range len).end
    · obtain ⟨heq, hpos⟩ := heq hr
      rw [filter_cons_of_pos (by simpa using hr),
        filter_cons_of_pos (by simpa using hiff.1 hr), ih, heq]
      exact ⟨rfl, forall_mem_cons.2 ⟨heq ▸ ⟨hpos.1, hr, hpos.2⟩, ih ▸ hall⟩⟩
    · rw [filter_cons_of_neg (by simpa using hr), filter_cons_of_neg (by simpa using mt hiff.2 hr)]
      exact ⟨ih, hall⟩

/-- The sum of the lengths and the number of the recorded ranges. -/
theorem recorded_total (len : ℕ) (specs : List Spec) :
    ((recorded len specs).map fun r => r.end - r.start).sum = total len specs ∧
      (recorded len specs).length = asked len specs := by
  induction specs with
  | nil => exact ⟨rfl, rfl⟩
  | cons spec specs ih =>
    obtain ⟨hlt, hlen, -⟩ := spec.range_spec len
    have htotal : total len (spec :: specs) =
      spec.bytes len + total len specs := rfl
    obtain ⟨hsum, hnum⟩ := ih
    rw [recorded] at hsum hnum ⊢
    rw [map_cons, htotal]
    by_cases hr : (spec.range len).start < (spec.range len).end
    · rw [filter_cons_of_pos (by simpa using hr), map_cons, sum_cons, hsum, hlen hr,
        length_cons, hnum, asked, asked, countP_cons_of_pos (by simpa using hlt.1 hr)]
      exact ⟨(Nat.cast_add _ _).symm, rfl⟩
    · rw [filter_cons_of_neg (by simpa using hr), hsum, hnum, asked, asked,
        countP_cons_of_neg (by simpa using mt hlt.2 hr),
        Nat.eq_zero_of_not_pos (mt hlt.2 hr), zero_add]
      exact ⟨rfl, rfl⟩

end

/-- What a result is to be: the ranges are within the content and not too many, they are those of
the header that can be satisfied, and `size` is the sum of their lengths. -/
structure Right (contentLength ranges : ℕ) (p : Bytes) (c : Ctx) : Prop where
  within : ∀ r ∈ c.ranges, 0 ≤ r.start ∧ r.start < r.end ∧ r.end ≤ contentLength
  length_le : c.ranges.length ≤ ranges
  size_eq : c.size = (c.ranges.map fun r => r.end - r.start).sum
  size_le : c.size ≤ contentLength
  satisfiable : ∃ specs, Header specs p ∧ c.ranges = satisfiable contentLength specs

theorem ngxHttpRangeParse_right_iff {len : ℕ} (hmax : len ≤ maxOffT)
    (alloc : ℕ → Bool) (ranges : ℕ) (p : Bytes) :
    (∀ c, ngxHttpRangeParse alloc len ranges p = .ok c → Right len ranges p c) ↔
      ∀ specs, Header specs p → (∀ i < asked len specs, alloc i = true) → asked len specs ≤ ranges →
        offT (total len specs) ≤ len → total len specs ≤ len := by
  constructor
  · intro h specs hheader halloc hranges hoff
    by_cases hne : recorded len specs = []
    · have := (recorded_total len specs).1
      rw [hne] at this
      simp at this
      omega
    · have hright := h _ (parseLoop_iff.2 ⟨specs, hheader,
        (founds_iff (by rfl)).2 ⟨by simpa using halloc, hranges, rfl⟩, hne, by simpa using hoff⟩)
      have hsize := hright.size_eq.symm.trans_le hright.size_le
      rw [nil_append, (recorded_total len specs).1] at hsize
      exact_mod_cast hsize
  · intro h c hc
    obtain ⟨specs, hheader, hfounds, hne, hsize⟩ := parseLoop_iff.1 hc
    obtain ⟨halloc, hranges, rfl⟩ := (founds_iff (by rfl)).1 hfounds
    have hle := h specs hheader (by simpa using halloc) hranges (by simpa using hsize)
    have htotal : offT (0 + total len specs) = total len specs := by
      rw [Int.zero_add]
      have hmax' : maxOffT = 9223372036854775807 := rfl
      exact Int.bmod_eq_of_le (by omega) (by omega)
    obtain ⟨heq, hall⟩ := recorded_of_total_le hle
    obtain ⟨hsum, hnum⟩ := recorded_total len specs
    refine ⟨hall, hnum.trans_le hranges, ?_, hsize, specs, hheader, heq⟩
    rw [htotal, nil_append, hsum]

/-- `-9223372036854775807`, twice. -/
def suffixes : Bytes :=
  [45, 57, 50, 50, 51, 51, 55, 50, 48, 51, 54, 56, 53, 52, 55, 55, 53, 56, 48, 55, 44,
    45, 57, 50, 50, 51, 51, 55, 50, 48, 51, 54, 56, 53, 52, 55, 55, 53, 56, 48, 55]

/-- `5-`, of ten bytes. -/
theorem ngxHttpRangeParse_right_one :
    ngxHttpRangeParse (fun _ => true) 10 1 [53, 45] = .ok ⟨0, [⟨5, 10⟩], 5⟩ ∧
      Right 10 1 [53, 45] ⟨0, [⟨5, 10⟩], 5⟩ := by
  have hread : readSpec [53, 45] = some (.fromOn 5, []) := rfl
  have hparse : ngxHttpRangeParse (fun _ => true) 10 1 [53, 45] = .ok ⟨0, [⟨5, 10⟩], 5⟩ := by
    rw [ngxHttpRangeParse, parseLoop_iff]
    exact ⟨_, .last (readSpec_iff.1 hread).1 rfl, rfl, by simp, by decide⟩
  refine ⟨hparse, (ngxHttpRangeParse_right_iff (by decide) _ _ _).2 (fun specs hheader _ _ _ => ?_)
    _ hparse⟩
  cases hheader with
  | last h hr =>
    cases hread.symm.trans (readSpec_iff.2 ⟨h, .inr hr⟩)
    decide
  | more h hr => cases hread.symm.trans (readSpec_iff.2 ⟨h, .inl rfl⟩)

theorem ngxHttpRangeParse_wraps : ngxHttpRangeParse (fun _ => true) 10 2 suffixes =
        .ok ⟨0, [⟨-9223372036854775797, 10⟩, ⟨-9223372036854775797, 10⟩], -2⟩ ∧
      ¬ Right 10 2 suffixes ⟨0, [⟨-9223372036854775797, 10⟩, ⟨-9223372036854775797, 10⟩], -2⟩ := by
  have hfirst : readSpec suffixes = some (.suffix maxOffT, suffixes.drop 20) := rfl
  have hsecond : readSpec (suffixes.drop 20).tail = some (.suffix maxOffT, []) := rfl
  constructor
  · rw [ngxHttpRangeParse, parseLoop_iff]
    obtain ⟨hspells, -⟩ := readSpec_iff.1 hfirst
    obtain ⟨hspells', -⟩ := readSpec_iff.1 hsecond
    exact ⟨_, .more hspells (.last hspells' rfl), rfl, by simp, by decide⟩
  · intro h
    exact absurd (h.within _ mem_cons_self).1 (by decide)

end ByteRanges
