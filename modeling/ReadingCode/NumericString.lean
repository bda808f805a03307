/-
# Numeric strings

`_is_numeric_string_ex` says whether a text is a number, and whether that is an integer or a
double.  It goes through the text once, with a pointer, a count of the digits behind leading zeros
and the value so far as a `zend_long`; what is a double is left to `zend_strtod`, of which only the
end of the number matters here.

The text is the bytes of a string, with the terminating null behind them.
-/
import Mathlib.Data.BitVec
import ReadingCode.Decimal
import ReadingCode.ZendLong

open ZendLong Decimal

namespace NumericString

/-- The byte a pointer points to, which may be the null behind the text. -/
def peek (text : Bytes) : UInt8 := text.headD 0

/-- The result: 0, `IS_LONG` or `IS_DOUBLE`. -/
inductive NumberType where
  | none
  | long
  | double
  deriving DecidableEq, Repr

/-- The size of integers, which of the pointers are given, and `allow_errors`. -/
structure Call where
  size : LongSize
  lval : Bool
  dval : Bool
  oflowInfo : Bool
  allowErrors : ℤ
  deriving DecidableEq

/-- What the function returns, and what it stores where a pointer is given. -/
structure Result (w : LongSize) (D : Type) where
  type : NumberType
  lval : Option (BitVec w.bits)
  dval : Option D
  oflowInfo : Option ℤ
  /-- `E_NOTICE`, "A non well formed numeric value encountered" -/
  notice : Bool
  deriving DecidableEq

/-- The whitespace that may stand before a number. -/
def isSpace (b : UInt8) : Bool :=
  b = 32 || b = 9 || b = 10 || b = 13 || b = 11 || b = 12

/-- The bytes of `-` and `+`. -/
def isSign (b : UInt8) : Bool := b = 45 || b = 43

/-- The bytes of `e` and `E`. -/
def isExp (b : UInt8) : Bool := b = 101 || b = 69

/-- `strcmp`, with a second text that has no null in it. -/
def strcmp : Bytes → Bytes → ℤ
  | a, [] => (peek a).toNat
  | a, c :: b => if peek a ≠ c then (peek a).toNat - c.toNat else strcmp a.tail b

/-- `long_min_digits` -/
def longMinDigits : LongSize → Bytes
  | .four => [50, 49, 52, 55, 52, 56, 51, 54, 52, 56]
  | .eight => [57, 50, 50, 51, 51, 55, 50, 48, 51, 54, 56, 53, 52, 55, 55, 53, 56, 48, 56]

/-! ## The end of a double -/

/-- How long the digits at the beginning of a text are. -/
def digitRun (text : Bytes) : ℕ := (text.takeWhile fun b => decide (IsDigit b)).length

/-- How long the exponent at the beginning of a text is. -/
def exponentRun (text : Bytes) : ℕ :=
  if isExp (peek text) then
    let sign := if isSign (peek text.tail) then 1 else 0
    let n := digitRun (text.tail.drop sign)
    if n = 0 then 0 else 1 + sign + n
  else 0

/-- Where `zend_strtod` stops, for a text with a decimal number and no whitespace before it. -/
def strtodEnd (text : Bytes) : ℕ :=
  let sign := if isSign (peek text) then 1 else 0
  let whole := digitRun (text.drop sign)
  let point := text.drop (sign + whole)
  let fraction := if peek point = 46 then 1 + digitRun point.tail else 0
  if whole = 0 ∧ fraction ≤ 1 then 0
  else sign + whole + fraction + exponentRun (point.drop fraction)

/-! ## The loop -/

/-- The variables of the function; `ptr` counts from `str`. -/
structure Scan (w : LongSize) where
  ptr : ℕ
  /-- an `int` -/
  digits : ℤ
  dpOrE : ℤ
  tmpLval : BitVec w.bits
  type : NumberType
  deriving DecidableEq

variable {D : Type}

/-- `goto process_double`, when the loop is not gone on with: with a `dval` the number is read by
`zend_strtod`. -/
def processDouble (c : Call) (str : Bytes) (st : Scan c.size) : Scan c.size :=
  if c.dval then { st with type := .double, ptr := strtodEnd str } else { st with type := .double }

/-- The digits are checked on behind a point or an exponent. -/
def checksOn (c : Call) : Bool := !c.dval && decide (c.allowErrors ≠ 1)

/-- The loop, from `check_digits` on, with the text from `ptr` on; the flag says that it was left by
its condition or by `break`, and not through `process_double`. -/
def scan (c : Call) (str : Bytes) : Bytes → Scan c.size → Bool × Scan c.size
  | [], st => (true, st)
  | b :: rest, st =>
    if IsDigit b then
      let st := { st with
        tmpLval := addDigit st.tmpLval b, digits := Int.bmod (st.digits + 1) (2 ^ 32),
        ptr := st.ptr + 1 }
      if st.digits ≥ (MAX_LENGTH_OF_LONG c.size : ℤ) ∧ (c.dval ∨ c.allowErrors = 1) then (true, st)
      else scan c str rest st
    else if b = 46 ∧ st.dpOrE < 1 then
      if checksOn c then
        scan c str rest { st with type := .double, dpOrE := 1, ptr := st.ptr + 1 }
      else (false, processDouble c str st)
    else if isExp b ∧ st.dpOrE < 2 then
      match rest with
      | [] => (true, st)
      | b' :: rest' =>
        if isSign b' then
          if IsDigit (peek rest') then
            if checksOn c then
              scan c str rest' { st with type := .double, dpOrE := 2, ptr := st.ptr + 2 }
            else (false, processDouble c str { st with ptr := st.ptr + 1 })
          else (true, { st with ptr := st.ptr + 1 })
        else if IsDigit b' then
          if checksOn c then
            scan c str (b' :: rest') { st with type := .double, dpOrE := 2, ptr := st.ptr + 1 }
          else (false, processDouble c str st)
        else (true, st)
    else (true, st)

/-! ## The function -/

/-- `*str == '-' ? -1 : 1` -/
def overflowSign (str : Bytes) : ℤ := if peek str = 45 then -1 else 1

/-- The end of the function, from the comparison of `ptr` with the end of the text on. -/
def finish (strtod : Bytes → D) (c : Call) (str : Bytes) (oflow : ℤ)
    (st : Scan c.size) : Result c.size D :=
  let oflowInfo := fun n : ℤ => if c.oflowInfo then some n else none
  if st.ptr ≠ str.length ∧ c.allowErrors = 0 then ⟨.none, none, none, oflowInfo oflow, false⟩
  else
    let notice := decide (st.ptr ≠ str.length ∧ c.allowErrors = -1)
    if st.type = .long then
      let cmp := strcmp (str.drop (st.ptr - st.digits.toNat)) (longMinDigits c.size)
      if st.digits = (MAX_LENGTH_OF_LONG c.size : ℤ) - 1 ∧
          ¬ (cmp < 0 ∨ (cmp = 0 ∧ peek str = 45)) then
        ⟨.double, none, if c.dval then some (strtod str) else none,
          oflowInfo (overflowSign str), notice⟩
      else
        let tmpLval := if peek str = 45 then -st.tmpLval else st.tmpLval
        ⟨.long, if c.lval then some tmpLval else none, none, oflowInfo oflow, notice⟩
    else ⟨.double, none, if c.dval then some (strtod str) else none, oflowInfo oflow, notice⟩

/-- Behind the loop: too many digits. -/
def leave (strtod : Bytes → D) (c : Call) (str : Bytes) :
    Bool × Scan c.size → Result c.size D
  | (left, st) =>
    if left ∧ st.digits ≥ (MAX_LENGTH_OF_LONG c.size : ℤ) then
      finish strtod c str (overflowSign str) (processDouble c str st)
    else finish strtod c str 0 st

/-- The function behind the whitespace, which `str` begins after. -/
def isNumericTail (strtod : Bytes → D) (c : Call) (str : Bytes) : Result c.size D :=
  let no : Result c.size D := ⟨.none, none, none, if c.oflowInfo then some 0 else none, false⟩
  let sign := if isSign (peek str) then 1 else 0
  let ptr := str.drop sign
  if IsDigit (peek ptr) then
    let zeros := (ptr.takeWhile fun b => decide (b = 48)).length
    leave strtod c str (scan c str (ptr.drop zeros) ⟨sign + zeros, 0, 0, 0, .long⟩)
  else if peek ptr = 46 ∧ IsDigit (peek ptr.tail) then
    if checksOn c then
      leave strtod c str (scan c str ptr.tail ⟨sign + 1, 0, 1, 0, .double⟩)
    else leave strtod c str (false, processDouble c str ⟨sign, 0, 0, 0, .double⟩)
  else no

/-- `_is_numeric_string_ex` -/
def isNumericStringEx (strtod : Bytes → D) (c : Call) (text : Bytes) :
    Result c.size D :=
  if text = [] then ⟨.none, none, none, none, false⟩
  else isNumericTail strtod c (text.dropWhile isSpace)

/-- `is_numeric_string_ex`, with a `char` that has a sign. -/
def isNumericStringExInline (strtod : Bytes → D) (c : Call) (text : Bytes) :
    Result c.size D :=
  if peek text > 57 ∧ peek text < 128 then ⟨.none, none, none, none, false⟩
  else isNumericStringEx strtod c text

/-!
# The scan of a numeric string

The count of digits is an `int`; it stays small where the loop stops at too many digits, and wraps
where it does not.
-/

open List

variable {c : Call} {str ds rest : Bytes} {st : Scan c.size} {b : UInt8} {k : ℕ}

/-! ## Texts -/

/-- What stands behind the digits makes a fraction or an exponent. -/
def GoesOn (rest : Bytes) : Prop :=
  peek rest = 46 ∨ isExp (peek rest) ∧
    (IsDigit (peek rest.tail) ∨ isSign (peek rest.tail) ∧ IsDigit (peek rest.tail.tail))

/-- An exponent without digits: the loop has moved its pointer to the sign. -/
def SignedExp (rest : Bytes) : Prop := isExp (peek rest) ∧ isSign (peek rest.tail)

instance (rest : Bytes) : Decidable (GoesOn rest) := inferInstanceAs (Decidable (_ ∨ _))

instance (rest : Bytes) : Decidable (SignedExp rest) := inferInstanceAs (Decidable (_ ∧ _))

theorem not_isDigit_of_isExp (h : isExp b) : ¬ IsDigit b := by
  unfold isExp at h
  rw [Bool.or_eq_true, decide_eq_true_iff, decide_eq_true_iff] at h
  rcases h with rfl | rfl <;> decide

theorem not_isDigit_of_isSign (h : isSign b) : ¬ IsDigit b := by
  unfold isSign at h
  rw [Bool.or_eq_true, decide_eq_true_iff, decide_eq_true_iff] at h
  rcases h with rfl | rfl <;> decide

theorem isExp_ne_point (h : isExp b) : b ≠ 46 := by
  rintro rfl
  exact absurd h (by decide)

/-! ## Digits -/

/-- The loop stops at too many digits. -/
def Limited (c : Call) : Prop := c.dval ∨ c.allowErrors = 1

instance (c : Call) : Decidable (Limited c) := inferInstanceAs (Decidable (_ ∨ _))

/-- The variables after `k` more digits. -/
def Scan.add (st : Scan c.size) (ds : Bytes) : Scan c.size :=
  { st with
    ptr := st.ptr + ds.length
    digits := Int.bmod (st.digits + ds.length) (2 ^ 32)
    tmpLval := ds.foldl addDigit st.tmpLval }

theorem bmod_small {n : ℕ} (hn : n < 2 ^ 31) : Int.bmod n (2 ^ 32) = n := by
  rw [Int.bmod_def]
  split_ifs <;> omega

theorem max_length_le (w : LongSize) : MAX_LENGTH_OF_LONG w ≤ 20 := by
  cases w <;> decide

/-- Digits that do not stop the loop. -/
theorem scan_digits (hd : ∀ b ∈ ds, IsDigit b)
    (hgo : Limited c → st.digits = k ∧ k + ds.length < MAX_LENGTH_OF_LONG c.size)
    (hst : Int.bmod st.digits (2 ^ 32) = st.digits) :
    scan c str (ds ++ rest) st = scan c str rest (st.add ds) := by
  induction ds generalizing st k with
  | nil =>
    have hadd : st.add [] = st := by
      unfold Scan.add
      rw [length_nil, Int.natCast_zero, Int.add_zero, hst, add_zero, foldl_nil]
    rw [hadd, nil_append]
  | cons b ds ih =>
    have hb := hd b mem_cons_self
    have hds := fun c hc => hd c (mem_cons_of_mem b hc)
    have hmax := max_length_le c.size
    have hnext : Limited c → Int.bmod (st.digits + 1) (2 ^ 32) = (k + 1 : ℕ) ∧
        k + 1 + ds.length < MAX_LENGTH_OF_LONG c.size := by
      intro hlimited
      obtain ⟨hk, hlen⟩ := hgo hlimited
      rw [length_cons] at hlen
      rw [hk]
      exact ⟨bmod_small (n := k + 1) (by omega), by omega⟩
    have hno : ¬ (Int.bmod (st.digits + 1) (2 ^ 32) ≥ (MAX_LENGTH_OF_LONG c.size : ℤ) ∧
        (c.dval ∨ c.allowErrors = 1)) := by
      rintro ⟨hge, hlimited⟩
      obtain ⟨hk, hlen⟩ := hnext hlimited
      omega
    rw [cons_append, scan.eq_def]
    dsimp only
    rw [if_pos hb, if_neg hno, ih hds hnext Int.bmod_bmod]
    unfold Scan.add
    rw [length_cons, foldl_cons, Int.bmod_add_bmod, add_assoc, add_comm 1,
      Int.add_assoc, Int.natCast_succ, Int.add_comm 1]

/-- Digits that stop the loop. -/
theorem scan_limit (str rest : Bytes) (st : Scan c.size) (hd : ∀ b ∈ ds, IsDigit b)
    (hlimited : Limited c) (hlen : MAX_LENGTH_OF_LONG c.size ≤ ds.length) (hst : st.digits = 0) :
    ∃ st', scan c str (ds ++ rest) st = (true, st') ∧
      st'.digits = MAX_LENGTH_OF_LONG c.size ∧ st'.type = st.type := by
  have hpos : 0 < MAX_LENGTH_OF_LONG c.size := by cases c.size <;> decide
  have hmax := max_length_le c.size
  have hlt : MAX_LENGTH_OF_LONG c.size - 1 < ds.length := by omega
  have hsplit : ds = ds.take (MAX_LENGTH_OF_LONG c.size - 1) ++
      ds[MAX_LENGTH_OF_LONG c.size - 1] :: ds.drop (MAX_LENGTH_OF_LONG c.size - 1 + 1) := by
    rw [← drop_eq_getElem_cons hlt, take_append_drop]
  have htake : (ds.take (MAX_LENGTH_OF_LONG c.size - 1)).length
      = MAX_LENGTH_OF_LONG c.size - 1 := by
    rw [length_take, min_eq_left (by omega)]
  have hb := hd _ (getElem_mem hlt)
  rw [hsplit, append_assoc, cons_append,
    scan_digits (k := 0) (fun b hb => hd b (mem_of_mem_take hb))
      (fun _ => ⟨hst, by omega⟩) (by rw [hst]; rfl), scan.eq_def]
  dsimp only
  have hdigits : Int.bmod ((st.add (ds.take (MAX_LENGTH_OF_LONG c.size - 1))).digits + 1) (2 ^ 32)
      = MAX_LENGTH_OF_LONG c.size := by
    unfold Scan.add
    rw [hst, htake, Int.zero_add, Int.bmod_add_bmod]
    have hsum : ((MAX_LENGTH_OF_LONG c.size - 1 : ℕ) : ℤ) + 1
        = (MAX_LENGTH_OF_LONG c.size : ℕ) := by
      omega
    rw [hsum, bmod_small (by omega)]
  rw [if_pos hb, if_pos ⟨ge_of_eq hdigits, hlimited⟩]
  exact ⟨_, rfl, hdigits, rfl⟩

/-! ## Behind the digits -/

/-- What is no digit, fraction or exponent ends the loop. -/
theorem scan_rest (hdigit : ¬ IsDigit (peek rest)) (hgo : ¬ GoesOn rest) (hst : st.dpOrE < 2) :
    scan c str rest st = (true, { st with ptr := st.ptr + if SignedExp rest then 1 else 0 }) := by
  cases rest with
  | nil =>
    rfl
  | cons b rest =>
    have hpeek : peek (b :: rest) = b := rfl
    rw [hpeek] at hdigit
    obtain ⟨hpoint, hexp⟩ := not_or.mp hgo
    rw [scan.eq_def]
    dsimp only
    rw [if_neg hdigit, if_neg fun h => hpoint h.1]
    by_cases hb : isExp b
    · rw [if_pos ⟨hb, hst⟩]
      cases rest with
      | nil =>
        have hsigned : ¬ SignedExp [b] := fun h => absurd h.2 Bool.false_ne_true
        rw [if_neg hsigned]
        rfl
      | cons b' rest =>
        dsimp only
        by_cases hsign : isSign b'
        · have hno : ¬ IsDigit (peek rest) := fun h => hexp ⟨hb, .inr ⟨hsign, h⟩⟩
          have hsigned : SignedExp (b :: b' :: rest) := ⟨hb, hsign⟩
          rw [if_pos hsign, if_neg hno, if_pos hsigned]
        · have hno : ¬ IsDigit b' := fun h => hexp ⟨hb, .inl h⟩
          have hsigned : ¬ SignedExp (b :: b' :: rest) := fun h => hsign h.2
          rw [if_neg hsign, if_neg hno, if_neg hsigned]
          rfl
    · have hsigned : ¬ SignedExp (b :: rest) := fun h => hb h.1
      rw [if_neg fun h => hb h.1, if_neg hsigned]
      rfl

theorem processDouble_type (c : Call) (str : Bytes) (st : Scan c.size) :
    (processDouble c str st).type = .double := by
  unfold processDouble
  split_ifs <;> rfl

/-- A double stays one. -/
theorem scan_type (h : st.type = .double) : (scan c str rest st).2.type = .double := by
  fun_induction scan c str rest st with
  | case2 => exact h
  | case3 b rest st hb st' hgo ih => exact ih h
  | _ => simp_all [processDouble_type]

end NumericString

/-!
# Integers in numeric strings

When `_is_numeric_string_ex` is right about a text that is an integer, with or without something
behind it.  Digits that are one fewer than a `zend_long` may have characters are compared with those
of its minimum as texts: the comparison goes on into what is behind the digits, and begins one digit
late when an `e` and a sign are there.
-/

namespace NumericString

open List

variable {D : Type} {strtod : Bytes → D} {c : Call}
  {text sign digits rest : Bytes} {neg : Bool}

/-! ## Texts of integers -/

/-- A sign, or none. -/
def IsSignOf (neg : Bool) (sign : Bytes) : Prop :=
  sign = [45] ∧ neg = true ∨ (sign = [] ∨ sign = [43]) ∧ neg = false

/-- Whitespace, a sign and digits, and what is behind them. -/
def IntegerText (text : Bytes) (neg : Bool) (digits rest : Bytes) : Prop :=
  ∃ spaces sign, text = spaces ++ (sign ++ (digits ++ rest)) ∧ (∀ b ∈ spaces, isSpace b) ∧
    IsSignOf neg sign ∧ digits ≠ [] ∧ (∀ b ∈ digits, IsDigit b) ∧ ¬ IsDigit (peek rest)

/-- The integer. -/
def intValue (neg : Bool) (digits : Bytes) : ℤ :=
  if neg then -(value digits : ℤ) else value digits

/-- Something is behind the digits, and must not be. -/
def Refused (c : Call) (rest : Bytes) : Prop := c.allowErrors = 0 ∧ rest ≠ []

instance (c : Call) (rest : Bytes) : Decidable (Refused c rest) :=
  inferInstanceAs (Decidable (_ ∧ _))

/-- What the function has to answer for the text of an integer. -/
structure Meets (c : Call) (neg : Bool) (digits rest : Bytes) (r : Result c.size D) :
    Prop where
  accepted : ¬ Refused c rest → Fits c.size (intValue neg digits) → r.type = .long
  exact : r.type = .long → Fits c.size (intValue neg digits) ∧
    (c.lval → ∃ l, r.lval = some l ∧ l.toInt = intValue neg digits)
  overflow : c.oflowInfo → r.oflowInfo = some
    (if Fits c.size (intValue neg digits) then 0 else if neg then -1 else 1)
  refused : Refused c rest → r.type = .none

/-- The digits behind leading zeros. -/
def significant (digits : Bytes) : Bytes := digits.dropWhile fun b => decide (b = 48)

/-- How many of them the function counts, in an `int`. -/
def count (c : Call) (digits : Bytes) : ℤ :=
  if Limited c then min (significant digits).length (MAX_LENGTH_OF_LONG c.size)
  else Int.bmod (significant digits).length (2 ^ 32)

/-- How the last `MAX_LENGTH_OF_LONG - 1` digits and what is behind them compare with the digits of
the minimum: without the first of these digits when an `e` and a sign follow, and equal to them only
when the text ends, or has a null, behind them. -/
def ComparesBelow (w : LongSize) (neg : Bool) (digits rest : Bytes) : Prop :=
  let tail := value digits % 10 ^ (MAX_LENGTH_OF_LONG w - 1)
  if SignedExp rest then
    ((tail % 10 ^ (MAX_LENGTH_OF_LONG w - 2) : ℕ) : ℤ) < (ZEND_LONG_MAX w + 1) / 10
  else (tail : ℤ) < ZEND_LONG_MAX w + 1 ∨ (tail : ℤ) = ZEND_LONG_MAX w + 1 ∧ neg ∧ peek rest = 0

/-- The digits are taken for those of a `zend_long`. -/
def TakenForLong (c : Call) (neg : Bool) (digits rest : Bytes) : Prop :=
  count c digits < (MAX_LENGTH_OF_LONG c.size : ℤ) - 1 ∨
    count c digits = (MAX_LENGTH_OF_LONG c.size : ℤ) - 1 ∧ ComparesBelow c.size neg digits rest

/-- The condition under which the answer is right. -/
def AnswersRight (c : Call) (neg : Bool) (digits rest : Bytes) : Prop :=
  count c digits ≥ MAX_LENGTH_OF_LONG c.size ∨
    if Refused c rest then c.oflowInfo → Fits c.size (intValue neg digits)
    else (TakenForLong c neg digits rest ↔ Fits c.size (intValue neg digits))

/-- A text whose digits are counted and compared as they should be.  The count does not wrap; and
where there are as many digits as the minimum has, no `e` and sign are behind them, nothing is
behind those of the minimum itself, and no flag is asked for of what is refused and does not fit. -/
structure Plain (c : Call) (neg : Bool) (digits rest : Bytes) : Prop where
  counted : Limited c ∨ (significant digits).length < 2 ^ 31
  exponent : c.allowErrors ≠ 0 → (significant digits).length = MAX_LENGTH_OF_LONG c.size - 1 →
    ¬ SignedExp rest
  minimum : c.allowErrors ≠ 0 → neg → (value digits : ℤ) = ZEND_LONG_MAX c.size + 1 → peek rest = 0
  flag : Refused c rest → c.oflowInfo →
    (significant digits).length = MAX_LENGTH_OF_LONG c.size - 1 →
    Fits c.size (intValue neg digits)

/-! ## The beginning of the function -/

theorem takeWhile_eq_nil {p : UInt8 → Bool} (h : ¬ p (peek rest)) : rest.takeWhile p = [] := by
  cases rest with
  | nil => rfl
  | cons b rest => exact takeWhile_cons_of_neg h

theorem digitRun_append (hd : ∀ b ∈ digits, IsDigit b) (hr : ¬ IsDigit (peek rest)) :
    digitRun (digits ++ rest) = digits.length := by
  unfold digitRun
  rw [takeWhile_append_of_pos fun b hb => decide_eq_true (hd b hb),
    takeWhile_eq_nil (by rw [decide_eq_true_iff]; exact hr), append_nil]

theorem digitRun_eq_zero (hr : ¬ IsDigit (peek rest)) : digitRun rest = 0 :=
  digitRun_append (fun _ hb => absurd hb not_mem_nil) hr

/-- What does not go on has no exponent. -/
theorem exponentRun_eq_zero (h : ¬ GoesOn rest) : exponentRun rest = 0 := by
  unfold exponentRun
  by_cases hexp : isExp (peek rest)
  · rw [if_pos hexp]
    dsimp only
    have hno : digitRun (rest.tail.drop (if isSign (peek rest.tail) then 1 else 0)) = 0 := by
      by_cases hsign : isSign (peek rest.tail)
      · rw [if_pos hsign, drop_one]
        exact digitRun_eq_zero fun hd => h (.inr ⟨hexp, .inr ⟨hsign, hd⟩⟩)
      · rw [if_neg hsign]
        exact digitRun_eq_zero fun hd => h (.inr ⟨hexp, .inl hd⟩)
    rw [hno, if_pos rfl]
  · rw [if_neg hexp]

theorem peek_append (hne : digits ≠ []) (rest : Bytes) : peek (digits ++ rest) = peek digits := by
  cases digits with
  | nil => exact absurd rfl hne
  | cons b digits => rfl

theorem not_isSpace_of_isDigit {b : UInt8} (h : IsDigit b) : isSpace b = false := by
  have hlow := UInt8.le_iff_toNat_le.mp h.1
  have h48 : (48 : UInt8).toNat = 48 := rfl
  have hne : ∀ n : UInt8, n.toNat < 48 → decide (b = n) = false := by
    intro n hn
    rw [decide_eq_false_iff_not]
    rintro rfl
    omega
  unfold isSpace
  rw [hne 32 (by decide), hne 9 (by decide), hne 10 (by decide), hne 13 (by decide),
    hne 11 (by decide), hne 12 (by decide)]
  rfl

theorem isDigit_peek (hne : digits ≠ []) (hd : ∀ b ∈ digits, IsDigit b) :
    IsDigit (peek digits) := by
  cases digits with
  | nil => exact absurd rfl hne
  | cons b digits => exact hd b mem_cons_self

/-- What the first byte says of the sign. -/
theorem peek_sign (rest : Bytes) (hs : IsSignOf neg sign) (hne : digits ≠ [])
    (hd : ∀ b ∈ digits, IsDigit b) :
    (if isSign (peek (sign ++ (digits ++ rest))) then 1 else 0) = sign.length ∧
      (peek (sign ++ (digits ++ rest)) = 45 ↔ neg = true) ∧
      isSpace (peek (sign ++ (digits ++ rest))) = false := by
  rcases hs with ⟨rfl, rfl⟩ | ⟨rfl | rfl, rfl⟩
  · exact ⟨rfl, ⟨fun _ => rfl, fun _ => rfl⟩, rfl⟩
  · have hdigit := isDigit_peek hne hd
    rw [nil_append, peek_append hne]
    refine ⟨if_neg fun h => not_isDigit_of_isSign h hdigit, ⟨fun h => ?_, fun h => by cases h⟩,
      not_isSpace_of_isDigit hdigit⟩
    rw [h] at hdigit
    exact absurd hdigit (by decide)
  · exact ⟨rfl, ⟨fun h => absurd (show (43 : UInt8) = 45 from h) (by decide),
      fun h => by cases h⟩, rfl⟩

/-- Zeros, and digits that do not begin with one. -/
theorem zeros_append (digits : Bytes) :
    ∃ zeros, digits = zeros ++ significant digits ∧ (∀ b ∈ zeros, b = 48) ∧
      peek (significant digits) ≠ 48 := by
  refine ⟨digits.takeWhile fun b => decide (b = 48), ?_, fun b hb => ?_, ?_⟩
  · exact (takeWhile_append_dropWhile).symm
  · have hzero := mem_takeWhile_imp (p := fun b : UInt8 => decide (b = 48)) hb
    exact of_decide_eq_true hzero
  · unfold significant
    cases h : digits.dropWhile fun b => decide (b = 48) with
    | nil => decide
    | cons b rest =>
      have hb := head?_dropWhile_not (fun b => decide (b = 48)) digits
      rw [h] at hb
      exact of_decide_eq_false hb

/-- The function on the text of an integer, up to the loop. -/
theorem isNumericStringEx_eq (strtod : Bytes → D) (c : Call)
    (h : IntegerText text neg digits rest) : ∃ str base, isNumericStringEx strtod c text
        = leave strtod c str (scan c str (significant digits ++ rest) ⟨base, 0, 0, 0, .long⟩) ∧
      str.length = base + (significant digits).length + rest.length ∧
      str.drop base = significant digits ++ rest ∧ (peek str = 45 ↔ neg = true) ∧
      (¬ GoesOn rest → strtodEnd str = base + (significant digits).length) := by
  obtain ⟨spaces, sign, rfl, hspaces, hs, hne, hd, hr⟩ := h
  obtain ⟨zeros, hzeros, hall, hhead⟩ := zeros_append digits
  obtain ⟨hlen, hneg, hspace⟩ := peek_sign rest hs hne hd
  have hdigit := isDigit_peek hne hd
  generalize hsig : significant digits = sig at *
  have hdrop : (sign ++ (digits ++ rest)).drop (sign.length + zeros.length) = sig ++ rest := by
    rw [hzeros, append_assoc, ← append_assoc sign, ← length_append, drop_left]
  refine ⟨sign ++ (digits ++ rest), sign.length + zeros.length, ?_, ?_, hdrop, hneg, ?_⟩
  · have hspaces' : (spaces ++ (sign ++ (digits ++ rest))).dropWhile isSpace
        = sign ++ (digits ++ rest) := by
      rw [dropWhile_append_of_pos hspaces]
      cases hstr : sign ++ (digits ++ rest) with
      | nil => rfl
      | cons b str =>
        rw [hstr] at hspace
        exact dropWhile_cons_of_neg (by rw [show isSpace b = false from hspace]; decide)
    have htext : spaces ++ (sign ++ (digits ++ rest)) ≠ [] := by
      intro hnil
      exact hne (append_eq_nil_iff.mp (append_eq_nil_iff.mp
        (append_eq_nil_iff.mp hnil).2).2).1
    have hrun : ((digits ++ rest).takeWhile fun b => decide (b = 48)).length = zeros.length := by
      have hno : ¬ decide (peek (sig ++ rest) = 48) = true := by
        rw [decide_eq_true_iff]
        by_cases hnil : sig = []
        · rw [hnil, nil_append]
          intro h48
          rw [h48] at hr
          exact hr (by decide)
        · rw [peek_append hnil]
          exact hhead
      rw [hzeros, append_assoc, takeWhile_append_of_pos fun b hb => decide_eq_true (hall b
        hb), takeWhile_eq_nil hno, append_nil]
    unfold isNumericStringEx
    rw [if_neg htext, hspaces']
    unfold isNumericTail
    dsimp only
    rw [hlen, drop_left, if_pos (by rw [peek_append hne]; exact hdigit), hrun, hzeros,
      append_assoc, drop_left]
  · rw [length_append, length_append]
    have := congrArg List.length hzeros
    rw [length_append] at this
    omega
  · intro hgo
    have := congrArg List.length hzeros
    rw [length_append] at this
    unfold strtodEnd
    dsimp only
    rw [hlen, drop_left, digitRun_append hd hr, ← append_assoc, ← length_append,
      drop_left, if_neg fun h => hgo (.inl h), drop_zero, exponentRun_eq_zero hgo,
      if_neg, length_append]
    · omega
    · rintro ⟨hzero, -⟩
      exact hne (eq_nil_of_length_eq_zero hzero)

/-!
# The digits of a numeric string and those of the minimum

`strcmp` of digits with as many digits compares their values, and goes on behind them when these are
the same.
-/

variable {a b r s digits rest : Bytes} {w : LongSize} {neg : Bool} {k : ℕ}

/-! ## Values -/

theorem value_append (a b : Bytes) : value (a ++ b) = value a * 10 ^ b.length + value b := by
  induction b using reverseRecOn with
  | nil => rw [append_nil, length_nil, pow_zero, mul_one]; rfl
  | append_singleton b c ih =>
    rw [← append_assoc, value_concat, ih, value_concat, length_append, length_singleton]
    ring

/-- Zeros in front do not count. -/
theorem value_significant (digits : Bytes) : value (significant digits) = value digits := by
  obtain ⟨zeros, hzeros, hall, -⟩ := zeros_append digits
  have hzero : value zeros = 0 := by
    clear hzeros
    induction zeros with
    | nil => rfl
    | cons b zeros ih =>
      rw [value_cons, hall b mem_cons_self, ih fun b hb => hall b (mem_cons_of_mem _ hb)]
      exact zero_mul _
  rw [congrArg value hzeros, value_append, hzero, zero_mul, zero_add]

theorem isDigit_significant (h : ∀ b ∈ digits, IsDigit b) : ∀ b ∈ significant digits, IsDigit b :=
  fun b hb => h b ((dropWhile_sublist _).subset hb)

/-- The value of the last digits. -/
theorem value_drop (hd : ∀ b ∈ digits, IsDigit b) (hk : k ≤ digits.length) :
    value (digits.drop (digits.length - k)) = value digits % 10 ^ k := by
  have hlen : (digits.drop (digits.length - k)).length = k := by
    rw [length_drop]
    omega
  have hlt := value_lt fun b hb => hd b (mem_of_mem_drop (i := digits.length - k) hb)
  have happ := value_append (digits.take (digits.length - k)) (digits.drop (digits.length - k))
  rw [take_append_drop] at happ
  rw [hlen] at hlt happ
  rw [happ, mul_comm, Nat.mul_add_mod, Nat.mod_eq_of_lt hlt]

/-! ## Comparison -/

/-- `strcmp` of digits with as many digits. -/
theorem strcmp_digits (ha : ∀ x ∈ a, IsDigit x) (hb : ∀ x ∈ b, IsDigit x)
    (hlen : a.length = b.length) : (value a < value b → strcmp (a ++ r) (b ++ s) < 0) ∧
      (value b < value a → 0 < strcmp (a ++ r) (b ++ s)) ∧
      (value a = value b → strcmp (a ++ r) (b ++ s) = strcmp r s) := by
  induction a generalizing b with
  | nil =>
    rw [eq_nil_of_length_eq_zero hlen.symm]
    exact ⟨fun h => absurd h (lt_irrefl _), fun h => absurd h (lt_irrefl _), fun _ => rfl⟩
  | cons x a ih =>
    cases b with
    | nil => exact absurd hlen (Nat.succ_ne_zero _)
    | cons y b =>
      have htail := Nat.succ.inj hlen
      have ha' := fun x hx => ha x (mem_cons_of_mem _ hx)
      have hb' := fun x hx => hb x (mem_cons_of_mem _ hx)
      rw [value_cons, value_cons, htail]
      by_cases hxy : x = y
      · subst hxy
        have hstep : strcmp (x :: a ++ r) (x :: b ++ s) = strcmp (a ++ r) (b ++ s) := by
          exact if_neg fun h => h rfl
        rw [hstep]
        obtain ⟨hlt, hgt, heq⟩ := ih ha' hb' htail
        exact ⟨fun h => hlt (by omega), fun h => hgt (by omega), fun h => heq (by omega)⟩
      · have hstep : strcmp (x :: a ++ r) (y :: b ++ s) = x.toNat - y.toNat := by
          exact if_pos hxy
        have hx := UInt8.le_iff_toNat_le.mp (ha x mem_cons_self).1
        have hy := UInt8.le_iff_toNat_le.mp (hb y mem_cons_self).1
        have h48 : (48 : UInt8).toNat = 48 := rfl
        have hva := value_lt ha'
        have hvb := value_lt hb'
        rw [htail] at hva
        rw [hstep]
        -- the first digits decide
        have hfirst : ∀ {m n v u : ℕ}, m < n → v < 10 ^ b.length →
            m * 10 ^ b.length + v < n * 10 ^ b.length + u := by
          intro m n v u hmn hv
          calc m * 10 ^ b.length + v < (m + 1) * 10 ^ b.length := by rw [Nat.succ_mul]; omega
            _ ≤ n * 10 ^ b.length := Nat.mul_le_mul_right _ hmn
            _ ≤ n * 10 ^ b.length + u := Nat.le_add_right _ _
        rcases Nat.lt_or_gt_of_ne fun h => hxy (UInt8.toNat.inj h) with hlt | hgt
        · have hval := hfirst (m := x.toNat - 48) (n := y.toNat - 48) (u := value b) (by omega) hva
          exact ⟨fun _ => by omega, fun h => by omega, fun h => by omega⟩
        · have hval := hfirst (m := y.toNat - 48) (n := x.toNat - 48) (u := value a) (by omega) hvb
          exact ⟨fun h => by omega, fun _ => by omega, fun h => by omega⟩

/-! ## The digits of the minimum -/

theorem isDigit_longMinDigits (w : LongSize) : ∀ b ∈ longMinDigits w, IsDigit b := by
  rw [← forall_iff_forall_mem]
  cases w <;> decide

theorem length_longMinDigits (w : LongSize) :
    (longMinDigits w).length = MAX_LENGTH_OF_LONG w - 1 := by
  cases w <;> rfl

theorem value_longMinDigits (w : LongSize) :
    (value (longMinDigits w) : ℤ) = ZEND_LONG_MAX w + 1 := by
  cases w <;> rfl

theorem longMinDigits_eq (w : LongSize) : longMinDigits w = (longMinDigits w).dropLast ++ [56] := by
  cases w <;> rfl

theorem value_dropLast (w : LongSize) :
    (value (longMinDigits w).dropLast : ℤ) = (ZEND_LONG_MAX w + 1) / 10 := by
  cases w <;> rfl

/-- What the function compares is what `ComparesBelow` says. -/
theorem strcmp_longMinDigits (neg : Bool) (rest : Bytes) (hd : ∀ b ∈ digits, IsDigit b)
    (hlen : MAX_LENGTH_OF_LONG w - 1 ≤ digits.length) :
    let cmp := strcmp ((digits ++ rest).drop
      (digits.length + (if SignedExp rest then 1 else 0) - (MAX_LENGTH_OF_LONG w - 1)))
      (longMinDigits w)
    (cmp < 0 ∨ cmp = 0 ∧ neg = true) ↔ ComparesBelow w neg digits rest := by
  have hmax : 2 ≤ MAX_LENGTH_OF_LONG w := by cases w <;> decide
  dsimp only
  unfold ComparesBelow
  by_cases hexp : SignedExp rest
  · rw [if_pos hexp, if_pos hexp]
    have hk : MAX_LENGTH_OF_LONG w - 2 ≤ digits.length := by omega
    have hidx : digits.length + 1 - (MAX_LENGTH_OF_LONG w - 1)
        = digits.length - (MAX_LENGTH_OF_LONG w - 2) := by omega
    have hdvd : 10 ^ (MAX_LENGTH_OF_LONG w - 2) ∣ 10 ^ (MAX_LENGTH_OF_LONG w - 1) :=
      pow_dvd_pow 10 (by omega)
    obtain ⟨hlt, hgt, heq⟩ := strcmp_digits (r := rest) (s := [56])
      (a := digits.drop (digits.length - (MAX_LENGTH_OF_LONG w - 2)))
      (b := (longMinDigits w).dropLast) (fun b hb => hd b (mem_of_mem_drop hb))
      (fun b hb => isDigit_longMinDigits w b (mem_of_mem_dropLast hb))
      (by rw [length_drop, length_dropLast, length_longMinDigits]; omega)
    rw [hidx, drop_append_of_le_length (by omega), longMinDigits_eq,
      Nat.mod_mod_of_dvd _ hdvd, ← value_drop hd hk, ← value_dropLast]
    -- equal digits, and then the exponent against the last digit
    have hbehind : 0 < strcmp rest [56] := by
      have h69 : (56 : UInt8) < peek rest := by
        have h := hexp.1
        unfold isExp at h
        rw [Bool.or_eq_true, decide_eq_true_iff, decide_eq_true_iff] at h
        rcases h with h | h <;> rw [h] <;> decide
      have hnat := UInt8.lt_iff_toNat_lt.mp h69
      have hne : peek rest ≠ 56 := by
        intro heq
        rw [heq] at hnat
        omega
      rw [strcmp, if_pos hne]
      omega
    rw [Nat.cast_lt]
    rcases Nat.lt_trichotomy (value (digits.drop (digits.length - (MAX_LENGTH_OF_LONG w - 2))))
      (value (longMinDigits w).dropLast) with h | h | h
    · exact ⟨fun _ => h, fun _ => .inl (hlt h)⟩
    · exact ⟨fun hcmp => by omega, fun hval => by omega⟩
    · exact ⟨fun hcmp => by omega, fun hval => by omega⟩
  · rw [if_neg hexp, if_neg hexp]
    obtain ⟨hlt, hgt, heq⟩ := strcmp_digits (r := rest) (s := [])
      (a := digits.drop (digits.length - (MAX_LENGTH_OF_LONG w - 1)))
      (b := longMinDigits w) (fun b hb => hd b (mem_of_mem_drop hb))
      (isDigit_longMinDigits w) (by rw [length_drop, length_longMinDigits]; omega)
    rw [append_nil] at hlt hgt heq
    rw [add_zero, drop_append_of_le_length (by omega), ← value_drop hd hlen,
      ← value_longMinDigits, Nat.cast_lt, Nat.cast_inj]
    have hbehind : strcmp rest [] = (peek rest).toNat := by rw [strcmp.eq_def]
    have hnull : (peek rest).toNat = 0 ↔ peek rest = 0 :=
      ⟨fun h => UInt8.toNat.inj h, fun h => by rw [h]; rfl⟩
    rcases Nat.lt_trichotomy (value (digits.drop (digits.length - (MAX_LENGTH_OF_LONG w - 1))))
      (value (longMinDigits w)) with h | h | h
    · exact ⟨fun _ => .inl h, fun _ => .inl (hlt h)⟩
    · rw [heq h, hbehind, Nat.cast_eq_zero, hnull]
      constructor
      · rintro (hneg | ⟨h0, hneg⟩)
        · omega
        · exact .inr ⟨h, hneg, h0⟩
      · rintro (hval | ⟨-, hneg, h0⟩)
        · omega
        · exact .inr ⟨h0, hneg⟩
    · constructor
      · rintro (hcmp | ⟨hcmp, -⟩) <;> omega
      · rintro (hval | ⟨hval, -⟩) <;> omega

end NumericString

/-!
# When a numeric string is an integer

For a text that is an integer the answer of `_is_numeric_string_ex` is right exactly under
`AnswersRight`: too many digits are always noticed, fewer than those of the minimum are always
counted right, and in between the comparison of texts decides.
-/

namespace NumericString

open List

variable {D : Type} {strtod : Bytes → D} {c : Call} {text str digits rest : Bytes}
  {neg : Bool} {st : Scan c.size} {base : ℕ} {oflow : ℤ}

/-! ## Doubles -/

/-- A double is no integer behind the loop. -/
theorem finish_double (strtod : Bytes → D) (str : Bytes) (oflow : ℤ) (h : st.type = .double) :
    (finish strtod c str oflow st).type ≠ .long ∧
      (c.oflowInfo → (finish strtod c str oflow st).oflowInfo = some oflow) ∧
      (st.ptr ≠ str.length → c.allowErrors = 0 → (finish strtod c str oflow st).type = .none) := by
  unfold finish
  rw [h]
  by_cases hback : st.ptr ≠ str.length ∧ c.allowErrors = 0
  · rw [if_pos hback]
    exact ⟨NumberType.noConfusion, fun ho => if_pos ho, fun _ _ => rfl⟩
  · rw [if_neg hback]
    exact ⟨NumberType.noConfusion, fun ho => if_pos ho,
      fun hptr hallow => absurd ⟨hptr, hallow⟩ hback⟩

theorem leave_double {left : Bool} (h : st.type = .double) :
    (leave strtod c str (left, st)).type ≠ .long := by
  unfold leave
  dsimp only
  split_ifs
  · exact (finish_double strtod str _ (processDouble_type c str st)).1
  · exact (finish_double strtod str 0 h).1

/-- A fraction or an exponent makes a double. -/
theorem scan_goesOn (hgo : GoesOn rest) (hst : st.dpOrE = 0) :
    (scan c str rest st).2.type = .double := by
  cases rest with
  | nil => exact absurd hgo (by decide)
  | cons b rest =>
    have htail : (b :: rest).tail = rest := rfl
    unfold GoesOn at hgo
    rw [htail] at hgo
    have hdigit : ¬ IsDigit b := by
      rcases hgo with rfl | ⟨hb, -⟩
      · decide
      · exact not_isDigit_of_isExp hb
    rw [scan.eq_def]
    dsimp only
    rw [if_neg hdigit]
    rcases hgo with hb | ⟨hb, hgo⟩
    · rw [if_pos ⟨hb, by omega⟩]
      split_ifs
      · exact scan_type rfl
      · exact processDouble_type c str st
    · rw [if_neg fun h => isExp_ne_point hb h.1, if_pos ⟨hb, by omega⟩]
      cases rest with
      | nil => exact absurd hgo (by decide)
      | cons b' rest =>
        have hpeek' : peek (b' :: rest) = b' := rfl
        have htail' : (b' :: rest).tail = rest := rfl
        rw [hpeek', htail'] at hgo
        dsimp only
        rcases hgo with hb' | ⟨hb', hrest⟩
        · rw [if_neg fun h => not_isDigit_of_isSign h hb']
          split_ifs
          · exact scan_type rfl
          · exact processDouble_type c str st
        · split_ifs
          · exact scan_type rfl
          · exact processDouble_type c str _

/-! ## The count of digits -/

theorem count_of_lt (h : Limited c → (significant digits).length < MAX_LENGTH_OF_LONG c.size) :
    count c digits = Int.bmod (significant digits).length (2 ^ 32) := by
  have hmax := max_length_le c.size
  unfold count
  by_cases hlimited : Limited c
  · have hlt := h hlimited
    rw [bmod_small (by omega)]
    omega
  · rw [if_neg hlimited]

/-- The count is never too large. -/
theorem le_length_of_count {k : ℤ} (h : count c digits ≥ k) (hk : 0 ≤ k) :
    k ≤ (significant digits).length := by
  unfold count at h
  split_ifs at h
  · omega
  · rw [Int.bmod_def] at h
    split_ifs at h <;> omega

/-- The loop on the digits of an integer. -/
theorem scan_integer (hd : ∀ b ∈ digits, IsDigit b) (hr : ¬ IsDigit (peek rest))
    (hlt : Limited c → (significant digits).length < MAX_LENGTH_OF_LONG c.size)
    (hgo : ¬ GoesOn rest) : scan c str (significant digits ++ rest) ⟨base, 0, 0, 0, .long⟩
      = (true, ⟨base + (significant digits).length + if SignedExp rest then 1 else 0,
          count c digits, 0, (significant digits).foldl addDigit 0, .long⟩) := by
  rw [scan_digits (k := 0) (isDigit_significant hd)
    (fun h => ⟨rfl, by rw [zero_add]; exact hlt h⟩) rfl,
    scan_rest hr hgo (by decide : (0 : ℤ) < 2), count_of_lt hlt]
  unfold Scan.add
  rw [Int.zero_add]

/-! ## Too many digits -/

theorem canonical_significant (hd : ∀ b ∈ digits, IsDigit b) (hne : significant digits ≠ []) :
    Canonical (significant digits) where
  ne_nil := hne
  digits := isDigit_significant hd
  head := by
    intro h48
    obtain ⟨-, -, -, hhead⟩ := zeros_append digits
    cases hsig : significant digits with
    | nil => exact absurd hsig hne
    | cons b ds =>
      rw [hsig] at h48 hhead
      exact absurd (Option.some.inj h48) hhead

/-- As many digits as characters at most do not fit. -/
theorem not_fits_of_length (hd : ∀ b ∈ digits, IsDigit b)
    (hlen : MAX_LENGTH_OF_LONG c.size ≤ (significant digits).length) :
    ¬ Fits c.size (intValue neg digits) := by
  have hpow : ZEND_LONG_MAX c.size + 1 < 10 ^ (MAX_LENGTH_OF_LONG c.size - 1) := by
    cases c.size <;> decide
  have hpos : 2 ≤ MAX_LENGTH_OF_LONG c.size := by cases c.size <;> decide
  have hval : 10 ^ (MAX_LENGTH_OF_LONG c.size - 1) ≤ value digits := by
    rw [← value_significant]
    cases hsig : significant digits with
    | nil =>
      rw [hsig, length_nil] at hlen
      omega
    | cons b ds =>
      have hcanonical := canonical_significant hd (by rw [hsig]; exact cons_ne_nil b ds)
      rw [hsig, length_cons] at hlen
      rw [hsig] at hcanonical
      have hds : ds ≠ [] := by
        rintro rfl
        rw [length_nil] at hlen
        omega
      exact le_trans (Nat.pow_le_pow_right (by decide) (by omega)) (hcanonical.pow_le hds)
  have hcast : (10 : ℤ) ^ (MAX_LENGTH_OF_LONG c.size - 1) ≤ value digits := by
    exact_mod_cast hval
  apply not_fits_of_lt_abs
  unfold intValue
  rw [apply_ite abs, abs_neg, Nat.abs_cast]
  omega

/-- What does not fit is answered right by a double with the sign. -/
theorem meets_of_not_fits {r : Result c.size D} (hfits : ¬ Fits c.size (intValue neg digits))
    (htype : r.type ≠ .long)
    (hoflow : c.oflowInfo → r.oflowInfo = some (if neg = true then -1 else 1))
    (hrefused : Refused c rest → r.type = .none) : Meets c neg digits rest r where
  accepted := fun _ h => absurd h hfits
  exact := fun h => absurd h htype
  overflow := fun h => by rw [if_neg hfits]; exact hoflow h
  refused := hrefused

theorem overflowSign_eq (h : peek str = 45 ↔ neg = true) :
    overflowSign str = if neg = true then -1 else 1 := by
  unfold overflowSign
  by_cases hneg : neg = true
  · rw [if_pos (h.mpr hneg), if_pos hneg]
  · rw [if_neg fun h45 => hneg (h.mp h45), if_neg hneg]

/-- More digits than an integer can have are always noticed. -/
theorem meets_of_count (h : IntegerText text neg digits rest) (hgo : ¬ GoesOn rest)
    (hcount : count c digits ≥ MAX_LENGTH_OF_LONG c.size) :
    Meets c neg digits rest (isNumericStringEx strtod c text) := by
  obtain ⟨-, -, -, -, -, -, hd, hr⟩ := id h
  obtain ⟨str, base, heq, hlength, -, hneg, hend⟩ := isNumericStringEx_eq strtod c h
  have hlen := le_length_of_count hcount (Int.natCast_nonneg _)
  have hscan : ∃ st, scan c str (significant digits ++ rest) ⟨base, 0, 0, 0, .long⟩ = (true, st) ∧
      st.digits ≥ MAX_LENGTH_OF_LONG c.size ∧ (¬ Limited c →
        st.ptr = base + (significant digits).length + if SignedExp rest then 1 else 0) := by
    by_cases hlimited : Limited c
    · obtain ⟨st, hst, hdigits, -⟩ := scan_limit str rest ⟨base, 0, 0, 0, .long⟩
        (isDigit_significant hd) hlimited (by omega) rfl
      exact ⟨st, hst, ge_of_eq hdigits, fun hno => absurd hlimited hno⟩
    · exact ⟨_, scan_integer hd hr (fun hl => absurd hl hlimited) hgo, hcount, fun _ => rfl⟩
  obtain ⟨st, hst, hdigits, hptr⟩ := hscan
  rw [heq, hst]
  unfold leave
  dsimp only
  rw [if_pos ⟨rfl, hdigits⟩]
  obtain ⟨htype, hoflow, hback⟩ := finish_double strtod str (overflowSign str)
    (processDouble_type c str st)
  refine meets_of_not_fits (not_fits_of_length hd (by omega)) htype
    (fun ho => by rw [hoflow ho, overflowSign_eq hneg]) fun hrefused => ?_
  -- something is behind the number, wherever the number was taken to end
  have hrest : 0 < rest.length := length_pos_iff.mpr hrefused.2
  apply hback _ hrefused.1
  unfold processDouble
  by_cases hdval : c.dval = true
  · rw [if_pos hdval]
    dsimp only
    rw [hend hgo]
    omega
  · have hlimited : ¬ Limited c := by
      rintro (hl | hl)
      · exact hdval hl
      · exact absurd (hrefused.1.symm.trans hl) (by decide)
    rw [if_neg hdval, hptr hlimited]
    by_cases hexp : SignedExp rest
    · rw [if_pos hexp]
      cases rest with
      | nil => exact absurd rfl hrefused.2
      | cons b rest =>
        cases rest with
        | nil => exact absurd hexp.2 Bool.false_ne_true
        | cons b' rest => rw [hlength, length_cons, length_cons]; omega
    · rw [if_neg hexp]
      omega

end NumericString

/-!
# The answers of `_is_numeric_string_ex` for integers

With few enough digits the function compares texts or answers at once; together with the texts of
too many digits this says when an answer is right.
-/

namespace NumericString

open List

variable {D : Type} {strtod : Bytes → D} {c : Call} {text str digits rest : Bytes}
  {neg : Bool} {w : LongSize} {base : ℕ}

/-! ## The value -/

/-- The words of a `zend_long` give back what fits. -/
theorem toInt_ofInt_of_fits {n : ℤ} (h : Fits w n) : (BitVec.ofInt w.bits n).toInt = n := by
  have hmin := min_eq w
  have hmax := max_eq w
  have hpow : (2 : ℤ) ^ w.bits = ((2 ^ w.bits : ℕ) : ℤ) := by rfl
  obtain ⟨hlow, hhigh⟩ := h
  rw [BitVec.toInt_ofInt]
  exact Int.bmod_eq_of_le_mul_two (by omega) (by omega)

/-- The variable at the end is the integer, when that fits. -/
theorem toInt_tmpLval (h : Fits w (intValue neg digits)) (h45 : peek str = 45 ↔ neg = true) :
    BitVec.toInt (if peek str = 45 then -((significant digits).foldl addDigit (0 : BitVec w.bits))
      else (significant digits).foldl addDigit 0) = intValue neg digits := by
  have hfold : (significant digits).foldl addDigit (0 : BitVec w.bits)
      = BitVec.ofInt w.bits (value digits) := by
    have hcast := foldl_addDigit_cast (R := BitVec w.bits) (significant digits) 0
    rw [Nat.cast_zero] at hcast
    rw [hcast, ← value_significant]
    rfl
  unfold intValue at h ⊢
  rw [hfold]
  by_cases hneg : neg = true
  · rw [if_pos hneg] at h ⊢
    rw [if_pos (h45.mpr hneg), ← BitVec.ofInt_neg, toInt_ofInt_of_fits h]
  · rw [if_neg hneg] at h ⊢
    rw [if_neg fun h' => hneg (h45.mp h'), toInt_ofInt_of_fits h]

/-! ## The comparison -/

/-- The comparison of the function is `TakenForLong`, when there are not too many digits. -/
theorem compare_iff (hd : ∀ b ∈ digits, IsDigit b) (h45 : peek str = 45 ↔ neg = true)
    (hcount : count c digits < MAX_LENGTH_OF_LONG c.size)
    (hdrop : str.drop base = significant digits ++ rest) :
    let ptr := base + (significant digits).length + if SignedExp rest then 1 else 0
    let cmp := strcmp (str.drop (ptr - (count c digits).toNat)) (longMinDigits c.size)
    ¬ (count c digits = (MAX_LENGTH_OF_LONG c.size : ℤ) - 1 ∧
        ¬ (cmp < 0 ∨ (cmp = 0 ∧ peek str = 45))) ↔ TakenForLong c neg digits rest := by
  dsimp only
  by_cases heq : count c digits = (MAX_LENGTH_OF_LONG c.size : ℤ) - 1
  · have hlen := le_length_of_count (ge_of_eq heq)
      (by have hpos : 1 ≤ MAX_LENGTH_OF_LONG c.size := by cases c.size <;> decide
          omega)
    have hnat : (count c digits).toNat = MAX_LENGTH_OF_LONG c.size - 1 := by omega
    have hcompares : ComparesBelow c.size neg (significant digits) rest
        ↔ ComparesBelow c.size neg digits rest := by
      unfold ComparesBelow
      rw [value_significant]
    have hstrcmp := strcmp_longMinDigits neg rest (isDigit_significant hd)
      (show MAX_LENGTH_OF_LONG c.size - 1 ≤ (significant digits).length by omega)
    dsimp only at hstrcmp
    rw [← hdrop, drop_drop, hcompares] at hstrcmp
    have hidx : base + (significant digits).length + (if SignedExp rest then 1 else 0)
          - (MAX_LENGTH_OF_LONG c.size - 1)
        = base + ((significant digits).length + (if SignedExp rest then 1 else 0)
          - (MAX_LENGTH_OF_LONG c.size - 1)) := by omega
    rw [hnat, h45, hidx, hstrcmp]
    constructor
    · intro h
      exact .inr ⟨heq, by_contra fun hno => h ⟨heq, hno⟩⟩
    · rintro (hless | ⟨-, hbelow⟩) ⟨-, hno⟩
      · omega
      · exact hno hbelow
  · exact ⟨fun _ => .inl (by omega), fun _ h => heq h.1⟩

/-! ## The answer -/

variable {r : Result c.size D}

/-- With something behind the digits that must not be there the flag stays 0. -/
theorem meets_refused (hrefused : Refused c rest) (htype : r.type = .none)
    (hoflow : c.oflowInfo → r.oflowInfo = some 0) :
    Meets c neg digits rest r ↔ (c.oflowInfo → Fits c.size (intValue neg digits)) := by
  have hno : r.type ≠ .long := by
    rw [htype]
    exact NumberType.noConfusion
  constructor
  · intro h ho
    have hflag := h.overflow ho
    rw [hoflow ho, Option.some.injEq] at hflag
    by_contra hfits
    rw [if_neg hfits] at hflag
    omega
  · intro h
    refine ⟨fun hr _ => absurd hrefused hr, fun hl => absurd hl hno, fun ho => ?_, fun _ => htype⟩
    rw [hoflow ho, if_pos (h ho)]

/-- An integer is right when it fits. -/
theorem meets_long (hrefused : ¬ Refused c rest) (htype : r.type = .long)
    (hoflow : c.oflowInfo → r.oflowInfo = some 0)
    (hlval : Fits c.size (intValue neg digits) → c.lval →
      ∃ l, r.lval = some l ∧ l.toInt = intValue neg digits) :
    Meets c neg digits rest r ↔ Fits c.size (intValue neg digits) := by
  constructor
  · intro h
    exact (h.exact htype).1
  · intro hfits
    refine ⟨fun _ _ => htype, fun _ => ⟨hfits, hlval hfits⟩, fun ho => ?_,
      fun hr => absurd hr hrefused⟩
    rw [hoflow ho, if_pos hfits]

/-- A double with the sign is right when the integer does not fit. -/
theorem meets_double (hrefused : ¬ Refused c rest) (htype : r.type = .double)
    (hoflow : c.oflowInfo → r.oflowInfo = some (if neg = true then -1 else 1)) :
    Meets c neg digits rest r ↔ ¬ Fits c.size (intValue neg digits) := by
  have hno : r.type ≠ .long := by
    rw [htype]
    exact NumberType.noConfusion
  constructor
  · intro h hfits
    exact hno (h.accepted hrefused hfits)
  · intro hfits
    exact meets_of_not_fits hfits hno hoflow fun hr => absurd hr hrefused

/-- The answer, when there are not too many digits. -/
theorem meets_few (h : IntegerText text neg digits rest) (hgo : ¬ GoesOn rest)
    (hcount : count c digits < MAX_LENGTH_OF_LONG c.size) :
    Meets c neg digits rest (isNumericStringEx strtod c text) ↔
      if Refused c rest then c.oflowInfo → Fits c.size (intValue neg digits)
      else (TakenForLong c neg digits rest ↔ Fits c.size (intValue neg digits)) := by
  obtain ⟨-, -, -, -, -, -, hd, hr⟩ := id h
  obtain ⟨str, base, heq, hlength, hdrop, h45, -⟩ := isNumericStringEx_eq strtod c h
  have hlt : Limited c → (significant digits).length < MAX_LENGTH_OF_LONG c.size := by
    intro hlimited
    unfold count at hcount
    rw [if_pos hlimited] at hcount
    omega
  have hcompare := compare_iff hd h45 hcount hdrop
  have hflag : ∀ n : ℤ, c.oflowInfo → (if c.oflowInfo then some n else none) = some n :=
    fun _ ho => if_pos ho
  rw [heq, scan_integer hd hr hlt hgo]
  unfold leave
  dsimp only
  rw [if_neg fun hmany => absurd hmany.2 (not_le.mpr hcount)]
  unfold finish
  dsimp only
  have hback : (base + (significant digits).length + (if SignedExp rest then 1 else 0) ≠
      str.length ∧ c.allowErrors = 0) ↔ Refused c rest := by
    constructor
    · rintro ⟨hptr, hallow⟩
      refine ⟨hallow, ?_⟩
      rintro rfl
      rw [hlength] at hptr
      exact hptr rfl
    · rintro ⟨hallow, hrest⟩
      cases rest with
      | nil => exact absurd rfl hrest
      | cons b rest =>
        cases rest with
        | nil =>
          rw [if_neg fun hexp => absurd hexp.2 Bool.false_ne_true, hlength, length_singleton]
          omega
        | cons b' rest =>
          rw [hlength, length_cons, length_cons]
          split_ifs <;> omega
  by_cases hrefused : Refused c rest
  · rw [if_pos (hback.mpr hrefused), if_pos hrefused]
    exact meets_refused hrefused rfl (hflag 0)
  · rw [if_neg fun hptr => hrefused (hback.mp hptr), if_neg hrefused]
    by_cases htaken : TakenForLong c neg digits rest
    · rw [if_neg (hcompare.mpr htaken),
        meets_long hrefused rfl (hflag 0) fun hfits hl => ⟨_, if_pos hl, toInt_tmpLval hfits h45⟩]
      exact ⟨fun hfits => ⟨fun _ => hfits, fun _ => htaken⟩, fun hiff => hiff.mp htaken⟩
    · rw [if_pos (not_not.mp fun hno => htaken (hcompare.mp hno)), overflowSign_eq h45,
        meets_double hrefused rfl (hflag _)]
      exact ⟨fun hfits => ⟨fun ht => absurd ht htaken, fun hf => absurd hf hfits⟩,
        fun hiff hfits => htaken (hiff.mpr hfits)⟩

/-- Exactly when the answer for an integer is right. -/
theorem meets_iff (h : IntegerText text neg digits rest) (hgo : ¬ GoesOn rest) :
    Meets c neg digits rest (isNumericStringEx strtod c text) ↔ AnswersRight c neg digits rest := by
  by_cases hcount : count c digits ≥ MAX_LENGTH_OF_LONG c.size
  · exact ⟨fun _ => .inl hcount, fun _ => meets_of_count h hgo hcount⟩
  · rw [meets_few h hgo (not_le.mp hcount)]
    exact ⟨fun hright => .inr hright, fun hright => hright.resolve_left hcount⟩

/-- A fraction or an exponent behind the digits is never taken for an integer. -/
theorem type_goesOn (h : IntegerText text neg digits rest) (hgo : GoesOn rest) :
    (isNumericStringEx strtod c text).type ≠ .long := by
  obtain ⟨-, -, -, -, -, -, hd, hr⟩ := id h
  obtain ⟨str, base, heq, -⟩ := isNumericStringEx_eq strtod c h
  rw [heq]
  by_cases hlimit : Limited c ∧ MAX_LENGTH_OF_LONG c.size ≤ (significant digits).length
  · obtain ⟨st, hst, hdigits, -⟩ := scan_limit str rest ⟨base, 0, 0, 0, .long⟩
      (isDigit_significant hd) hlimit.1 hlimit.2 rfl
    rw [hst]
    unfold leave
    dsimp only
    rw [if_pos ⟨rfl, ge_of_eq hdigits⟩]
    exact (finish_double strtod str _ (processDouble_type c str st)).1
  · rw [scan_digits (k := 0) (isDigit_significant hd) (fun hl => ⟨rfl, by
      rw [zero_add]
      exact not_le.mp fun hle => hlimit ⟨hl, hle⟩⟩) rfl]
    exact leave_double (scan_goesOn hgo rfl)

/-! ## The result -/

/-- The inline function looks at the first byte before, and leaves integers to the other one. -/
theorem isNumericStringExInline_eq (h : IntegerText text neg digits rest) :
    isNumericStringExInline strtod c text = isNumericStringEx strtod c text := by
  obtain ⟨spaces, sign, rfl, hspaces, hs, hne, hd, -⟩ := h
  have hspace : ∀ b : UInt8, isSpace b → ¬ b > 57 := by
    intro b hb
    unfold isSpace at hb
    simp only [Bool.or_eq_true, decide_eq_true_iff] at hb
    rcases hb with ((((rfl | rfl) | rfl) | rfl) | rfl) | rfl <;> decide
  have hdigit : ∀ b : UInt8, IsDigit b → ¬ b > 57 := by
    intro b hb hgt
    have hle := UInt8.le_iff_toNat_le.mp hb.2
    have hlt := UInt8.lt_iff_toNat_lt.mp hgt
    omega
  have hpeek : ¬ peek (spaces ++ (sign ++ (digits ++ rest))) > 57 := by
    cases spaces with
    | cons b spaces => exact hspace b (hspaces b mem_cons_self)
    | nil =>
      rw [nil_append]
      rcases hs with ⟨rfl, -⟩ | ⟨rfl | rfl, -⟩
      · exact (by decide : ¬ (45 : UInt8) > 57)
      · rw [nil_append, peek_append hne]
        exact hdigit _ (isDigit_peek hne hd)
      · exact (by decide : ¬ (43 : UInt8) > 57)
  exact if_neg fun h => hpeek h.1

theorem value_lt_significant (hd : ∀ b ∈ digits, IsDigit b) :
    value digits < 10 ^ (significant digits).length := by
  rw [← value_significant]
  exact value_lt (isDigit_significant hd)

theorem fits_iff (w : LongSize) (neg : Bool) (digits : Bytes) : Fits w (intValue neg digits) ↔
    (value digits : ℤ) ≤ ZEND_LONG_MAX w ∨ (value digits : ℤ) = ZEND_LONG_MAX w + 1 ∧ neg := by
  have hmin := min_eq w
  have hmax := max_pos w
  unfold Fits intValue
  cases neg <;> simp <;> omega

/-- Fewer digits than those of the minimum fit. -/
theorem fits_of_length (hd : ∀ b ∈ digits, IsDigit b) (neg : Bool)
    (h : (significant digits).length < MAX_LENGTH_OF_LONG w - 1) :
    Fits w (intValue neg digits) := by
  have hpow : (10 : ℤ) ^ (MAX_LENGTH_OF_LONG w - 2) ≤ ZEND_LONG_MAX w := by cases w <;> decide
  have hlt : value digits < 10 ^ (MAX_LENGTH_OF_LONG w - 2) :=
    (value_lt_significant hd).trans_le (Nat.pow_le_pow_right (by decide) (by omega))
  have hcast : (value digits : ℤ) < 10 ^ (MAX_LENGTH_OF_LONG w - 2) := by exact_mod_cast hlt
  exact (fits_iff w neg digits).2 (.inl (by omega))

/-- As many digits as the minimum has are compared as numbers are. -/
theorem comparesBelow_iff (hd : ∀ b ∈ digits, IsDigit b)
    (hlen : (significant digits).length = MAX_LENGTH_OF_LONG w - 1) (hexp : ¬ SignedExp rest)
    (hmin : neg → (value digits : ℤ) = ZEND_LONG_MAX w + 1 → peek rest = 0) :
    ComparesBelow w neg digits rest ↔ Fits w (intValue neg digits) := by
  have hlt := value_lt_significant hd
  rw [hlen] at hlt
  unfold ComparesBelow
  dsimp only
  rw [if_neg hexp, Nat.mod_eq_of_lt hlt, fits_iff, Int.lt_add_one_iff]
  exact or_congr_right ⟨fun h => ⟨h.1, h.2.1⟩, fun h => ⟨h.1, h.2, hmin h.2 h.1⟩⟩

/-- A plain text is answered right. -/
theorem Plain.answersRight (h : Plain c neg digits rest) (hd : ∀ b ∈ digits, IsDigit b) :
    AnswersRight c neg digits rest := by
  have hmax := max_length_le c.size
  by_cases hmany : MAX_LENGTH_OF_LONG c.size ≤ (significant digits).length
  · left
    unfold count
    split_ifs with hlimited
    · omega
    · rw [bmod_small (h.counted.resolve_left hlimited)]
      omega
  have hcount : count c digits = (significant digits).length := by
    rw [count_of_lt fun _ => not_le.1 hmany, bmod_small (by omega)]
  right
  by_cases hfew : (significant digits).length < MAX_LENGTH_OF_LONG c.size - 1
  · have hfits := fits_of_length hd neg hfew
    split
    · exact fun _ => hfits
    · exact iff_of_true (.inl (by omega)) hfits
  have hlen : (significant digits).length = MAX_LENGTH_OF_LONG c.size - 1 := by omega
  split
  · rename_i hrefused
    exact fun ho => h.flag hrefused ho hlen
  · rename_i hrefused
    -- nothing is behind the digits, or it may be there
    have hplain : ¬ SignedExp rest ∧ (neg → (value digits : ℤ) = ZEND_LONG_MAX c.size + 1 →
        peek rest = 0) := by
      by_cases hrest : rest = []
      · subst hrest
        exact ⟨by decide, fun _ _ => rfl⟩
      · have hallow : c.allowErrors ≠ 0 := fun h0 => hrefused ⟨h0, hrest⟩
        exact ⟨h.exponent hallow hlen, h.minimum hallow⟩
    rw [← comparesBelow_iff hd hlen hplain.1 hplain.2]
    unfold TakenForLong
    rw [hcount]
    exact ⟨fun ht => (ht.resolve_left (by omega)).2, fun hb => .inr ⟨by omega, hb⟩⟩

/-- **Integers in numeric strings.**  Digits with a fraction or an exponent are never taken for an
integer.  Other digits are in a plain text, exactly when the integer fits, with its value and with
the flag for what is too large. -/
theorem isNumericStringEx_integer (strtod : Bytes → D) (c : Call)
    (h : IntegerText text neg digits rest) :
    isNumericStringExInline strtod c text = isNumericStringEx strtod c text ∧
      (GoesOn rest → (isNumericStringEx strtod c text).type ≠ .long) ∧
      (¬ GoesOn rest → Plain c neg digits rest →
        Meets c neg digits rest (isNumericStringEx strtod c text)) := by
  obtain ⟨-, -, -, -, -, -, hd, -⟩ := id h
  exact ⟨isNumericStringExInline_eq h, type_goesOn h,
    fun hgo hplain => (meets_iff h hgo).mpr (hplain.answersRight hd)⟩

/-- The smallest integer of eight bytes. -/
theorem isNumericStringEx_minimum :
    Meets ⟨.eight, true, true, true, 0⟩ true (longMinDigits .eight) []
      (isNumericStringEx (fun _ => ()) ⟨.eight, true, true, true, 0⟩
        (45 :: longMinDigits .eight)) :=
  (isNumericStringEx_integer (fun _ => ()) ⟨.eight, true, true, true, 0⟩
    (⟨[], [45], rfl, forall_mem_nil _, .inl ⟨rfl, rfl⟩, by decide,
      isDigit_longMinDigits .eight, by decide⟩ :
      IntegerText (45 :: longMinDigits .eight) true (longMinDigits .eight) [])).2.2
    (by decide) ⟨.inl (.inl rfl), fun _ _ => by decide, fun h => absurd rfl h,
      fun h => absurd rfl h.2⟩

/-- The digits of `1.5` are an integer that fits, and the text is a double. -/
theorem isNumericStringEx_fraction :
    IntegerText [49, 46, 53] false [49] [46, 53] ∧ Fits .eight (intValue false [49]) ∧
      (isNumericStringEx (fun _ => ()) ⟨.eight, true, true, true, 1⟩ [49, 46, 53]).type = .double ∧
      ¬ Meets ⟨.eight, true, true, true, 1⟩ false [49] [46, 53]
        (isNumericStringEx (fun _ => ()) ⟨.eight, true, true, true, 1⟩ [49, 46, 53]) := by
  have htype : (isNumericStringEx (fun _ => ()) ⟨.eight, true, true, true, 1⟩
      [49, 46, 53]).type = .double := by decide
  refine ⟨⟨[], [], rfl, forall_mem_nil _, .inr ⟨.inl rfl, rfl⟩, by decide,
    forall_mem_singleton.mpr (by decide), by decide⟩, by decide, htype, fun h => ?_⟩
  have hlong := h.accepted (by decide) (by decide)
  cases hlong

end NumericString
