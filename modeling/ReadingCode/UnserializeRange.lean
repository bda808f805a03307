/-
# unserialize() in a part of the memory

`php_var_unserialize` is given a cursor and the end `max` of what it may read, which can lie inside
a larger buffer: a custom unserializer of a class hands on a part of the text around it.  The
scanner and the checks of closing characters read the memory as it is, and only some places compare
with `max`.

The memory is the list of the bytes from the cursor on, the last `m` of which lie at `max` and
behind it.  What tables, classes and user code make of the values is a parameter, that answers from
everything that happened before; where a list ends there is no memory.
-/
import ReadingCode.ObjectSerializer

namespace UnserializeRange

open PhpVar PhpObject

/-! ## What happens -/

/-- The rules of the scanner: those of values without classes, a double, and the beginnings of
objects, with the count of the old syntax or the declared length of the name. -/
inductive Token
  | plain (t : PhpVar.Token)
  | double
  | stdObject (elements : BitVec 64)
  | object (custom : Bool) (len : BitVec 64)

/-- What is done with the tables, the classes and the custom unserializers.  The bytes from the end
of a name or behind a value on are counted. -/
inductive Event
  | push
  | backRef (id : BitVec 64)
  | copy (id : BitVec 64)
  | value (t : Token) (left : ℕ)
  | array (elements : BitVec 64)
  | key (t : Token) (left : ℕ)
  | className (name : Bytes) (left : ℕ)
  | object (elements : BitVec 64)
  | custom (data : Bytes)

/-- How many pointers to slots the memory has room for. -/
def maxSlots : ℕ := 2 ^ 61

/-- Whether something succeeds, after all that happened; `var_access` has no slot behind the last
one that there can be. -/
structure World where
  succeeds : List Event → Event → Bool
  slots : ∀ h id, maxSlots ≤ BitVec.toNat id →
    succeeds h (.backRef id) = false ∧ succeeds h (.copy id) = false

/-- Something happens, or ends with failure. -/
def World.tell (W : World) (h : List Event) (e : Event) : Option (List Event) :=
  if W.succeeds h e then some (e :: h) else none

/-! ## The scanner -/

section Scanner

variable (m : ℕ)

/-- `max - YYCURSOR` as a `size_t`. -/
def maxlen (r : Bytes) : BitVec 64 := BitVec.ofInt 64 (r.length - m)

/-- The loop of `unserialize_str`. -/
def unserializeStrLoop : ℕ → Bytes → Option (Bytes × Bytes)
  | 0, r => some ([], r)
  | len + 1, r =>
    if r.length ≤ m then none
    else
      match r with
      | [] => none
      | c :: r =>
        if c ≠ '\\'.toUInt8 then (unserializeStrLoop len r).map fun (s, r) => (c :: s, r)
        else
          match r with
          | a :: b :: r =>
            (hexDigit a).bind fun a => (hexDigit b).bind fun b =>
              (unserializeStrLoop len r).map fun (s, r) => (UInt8.ofNat (16 * a + b) :: s, r)
          | _ => none

/-- `unserialize_str`, where `end` is `max`. -/
def unserializeStr (len : ℕ) (r : Bytes) : Option (Bytes × Bytes) :=
  if r.length < m then none else unserializeStrLoop m len r

/-- The rules `s:` and `S:`: the declared length is compared with `max`, the closing quote and the
semicolon are read without. -/
def scanString (escaped : Bool) (r : Bytes) : Option (Token × Bytes) :=
  (scanUiv r).bind fun (len, r) => (expect ':' r).bind fun r => (expect '"' r).bind fun r =>
    if maxlen m r < len then none
    else
      (if escaped then unserializeStr m len.toNat r
        else some (r.take len.toNat, r.drop len.toNat)).bind fun (s, r) =>
          (expect '"' r).bind fun r => (expect ';' r).map fun r => (.plain (.str s), r)

/-- `[+-]?`. -/
def skipSign (r : Bytes) : Bytes :=
  if r.head? = some '-'.toUInt8 ∨ r.head? = some '+'.toUInt8 then r.drop 1 else r

/-- The digits of `iv` and `nv`, without the sign. -/
def scanDecimal (r : Bytes) : Option Bytes :=
  let digits := r.takeWhile fun b => decide (Decimal.IsDigit b)
  let r := r.dropWhile fun b => decide (Decimal.IsDigit b)
  match expect '.' r with
  | some r =>
    let fraction := r.takeWhile fun b => decide (Decimal.IsDigit b)
    if digits = [] ∧ fraction = [] then none
    else some (r.dropWhile fun b => decide (Decimal.IsDigit b))
  | none => if digits = [] then none else some r

/-- `iv | nv | nvexp`: there may be two signs before the exponent. -/
def scanNumber (r : Bytes) : Option Bytes :=
  (scanDecimal (skipSign r)).bind fun r =>
    match (expect 'e' r).or (expect 'E' r) with
    | some r => (scanIv (skipSign r)).map Prod.snd
    | none => some r

/-- The given characters must be next. -/
def expectAll : List Char → Bytes → Option Bytes
  | [], r => some r
  | c :: cs, r => (expect c r).bind (expectAll cs)

/-- The rules `d:`. -/
def scanDouble (r : Bytes) : Option Bytes :=
  (((expectAll ['N', 'A', 'N'] r).or (expectAll ['I', 'N', 'F'] r)).or
    ((expectAll ['-', 'I', 'N', 'F'] r).or (scanNumber r))).bind (expect ';')

/-- The rules that begin with the byte `c` and a colon, behind these. -/
def scanRule (c : UInt8) (r : Bytes) : Option (Token × Bytes) :=
  if c = 'R'.toUInt8 then
    (scanIv r).bind fun (id, r) => (expect ';' r).map fun r => (.plain (.backRef id), r)
  else if c = 'r'.toUInt8 then
    (scanIv r).bind fun (id, r) => (expect ';' r).map fun r => (.plain (.copy id), r)
  else if c = 'b'.toUInt8 then (scanBool r).map fun (t, r) => (.plain t, r)
  else if c = 'i'.toUInt8 then
    (scanIv r).bind fun (v, r) => (expect ';' r).map fun r => (.plain (.long v), r)
  else if c = 'd'.toUInt8 then (scanDouble r).map fun r => (.double, r)
  else if c = 's'.toUInt8 then scanString m false r
  else if c = 'S'.toUInt8 then scanString m true r
  else if c = 'a'.toUInt8 then
    (scanUiv r).bind fun (elements, r) => (expectAll [':', '{'] r).map fun r =>
      (.plain (.arr elements), r)
  else if c = 'o'.toUInt8 then
    (scanIv r).bind fun (elements, r) => (expectAll [':', '"'] r).map fun r =>
      (.stdObject elements, r)
  else if c = 'O'.toUInt8 ∨ c = 'C'.toUInt8 then
    (scanUiv r).bind fun (len, r) => (expectAll [':', '"'] r).map fun r =>
      (.object (c = 'C'.toUInt8) len, r)
  else none

/-- The rules of `php_var_unserialize_internal`. -/
def scan : Bytes → Option (Token × Bytes)
  | [] => none
  | c :: r =>
    if c = 'N'.toUInt8 then (expect ';' r).map fun r => (.plain .null, r)
    else (expect ':' r).bind fun r => scanRule m c r

end Scanner

/-! ## The values -/

/-- A byte of a class name, as in the call of `strspn`. -/
def isClassByte (b : UInt8) : Bool :=
  (48 ≤ b && b ≤ 57) || b == 95 || (97 ≤ b && b ≤ 122) || (65 ≤ b && b ≤ 90) || 127 ≤ b || b == 92

/-- Whether a token is an integer or a string. -/
def isKey : Token → Bool
  | .plain t => isPropertyKey t
  | _ => false

section Reader

variable (W : World) (m : ℕ)

/-- `process_nested_data`. -/
def processNestedData
    (unserialize : Bytes → List Event → Option (Bytes × List Event)) :
    ℕ → Bytes → List Event → Option (Bytes × List Event)
  | 0, r, h => some (r, h)
  | elements + 1, r, h =>
    if r.length ≤ m then none
    else
      (scan m r).bind fun (key, r) =>
        if isKey key then
          (W.tell h (.key key r.length)).bind fun h =>
            (unserialize r h).bind fun (r', h) =>
              if elements ≠ 0 ∧ lastRead r r' ≠ some ';'.toUInt8 ∧
                  lastRead r r' ≠ some '}'.toUInt8 then none
              else processNestedData unserialize elements r' h
        else none

/-- `finish_nested_data`, which does not compare with `max`. -/
def finishNestedData (r : Bytes) (h : List Event) : Option (Bytes × List Event) :=
  (expect '}' r).map fun r => (r, h)

/-- `object_common2`. -/
def objectCommon2 (unserialize : Bytes → List Event → Option (Bytes × List Event))
    (elements : BitVec 64) (r : Bytes) (h : List Event) :
    Option (Bytes × List Event) :=
  if elements.toInt < 0 then none
  else
    (W.tell h (.object elements)).bind fun h =>
      (processNestedData W m unserialize elements.toNat r h).bind fun (r, h) =>
        finishNestedData r h

/-- `object_common1` and `object_common2` of a class, with the cursor at the closing quote. -/
def objectCommon (unserialize : Bytes → List Event → Option (Bytes × List Event))
    (r : Bytes) (h : List Event) : Option (Bytes × List Event) :=
  if r.length ≤ m + 2 then none
  else
    let (elements, r) := parseIv2 (r.drop 2)
    objectCommon2 W m unserialize elements (r.drop 2) h

/-- `object_custom`, with the cursor at the closing quote. -/
def objectCustom (r : Bytes) (h : List Event) : Option (Bytes × List Event) :=
  let (datalen, r) := parseIv2 (r.drop 2)
  let r := r.drop 2
  if datalen.toInt < 0 ∨ (r.length : ℤ) - m ≤ datalen.toInt then none
  else
    (W.tell h (.custom (r.take datalen.toNat))).bind fun h =>
      finishNestedData (r.drop datalen.toNat) h

/-- The action of the rule for objects, with the cursor at the name of the class. -/
def unserializeObject (unserialize : Bytes → List Event → Option (Bytes × List Event))
    (custom : Bool) (len : BitVec 64) (r : Bytes) (h : List Event) :
    Option (Bytes × List Event) :=
  if maxlen m r < len ∨ len = 0 then none
  else
    let name := r.take len.toNat
    let r := r.drop len.toNat
    if expectAll ['"', ':'] r = none ∨ ¬ name.all isClassByte then none
    else
      (W.tell h (.className name r.length)).bind fun h =>
        if custom then objectCustom W m r h else objectCommon W m unserialize r h

/-- `php_var_unserialize_internal`. -/
def unserializeInternal : ℕ → Bytes → List Event → Option (Bytes × List Event)
  | 0, _, _ => none
  | fuel + 1, r, h =>
    if r.length ≤ m then none
    else
      (if r.head? = some 'R'.toUInt8 then some h else W.tell h .push).bind fun h =>
        (scan m r).bind fun (t, r') =>
          match t with
          | .plain (.backRef id) =>
            if (id - 1).toInt < 0 then none
            else (W.tell h (.backRef (id - 1))).map fun h => (r', h)
          | .plain (.copy id) =>
            if (id - 1).toInt < 0 then none
            else (W.tell h (.copy (id - 1))).map fun h => (r', h)
          | .plain (.arr elements) =>
            if elements.toInt < 0 then none
            else
              (W.tell h (.array elements)).bind fun h =>
                (processNestedData W m (unserializeInternal fuel) elements.toNat r' h).bind
                  fun (r, h) => finishNestedData r h
          | .stdObject elements =>
            if r.length ≤ m + 2 then none
            else objectCommon2 W m (unserializeInternal fuel) elements r' h
          | .object custom len => unserializeObject W m (unserializeInternal fuel) custom len r' h
          | t => (W.tell h (.value t r'.length)).map fun h => (r', h)

/-- `php_var_unserialize`; no text is nested deeper than it is long. -/
def varUnserialize (r : Bytes) : Option (Bytes × List Event) :=
  unserializeInternal W m (r.length + 1) r []

end Reader

/-! # What the scanner takes off the memory -/

open List Option

variable {m : ℕ} {r r' : Bytes} {t : Token}

/-! ## Parts of the rules -/

variable {c : Char} {v : BitVec 64}

theorem expect_eq_some : expect c r = some r' ↔ r = c.toUInt8 :: r' := by
  cases r with
  | nil => exact iff_of_false (fun h => by cases h) (fun h => by cases h)
  | cons b r =>
    rw [expect, List.cons.injEq]
    split
    · rename_i hb
      rw [Option.some.injEq]
      exact (and_iff_right hb).symm
    · rename_i hb
      exact iff_of_false (fun h => by cases h) fun h => hb h.1

/-- A character that is read. -/
theorem expect_suffix (h : expect c r = some r') : c.toUInt8 :: r' <:+ r := by
  rw [expect_eq_some.mp h]

theorem suffix_of_cons {c : UInt8} (h : c :: r' <:+ r) : r' <:+ r :=
  (suffix_cons c r').trans h

theorem expectAll_suffix {cs : List Char} (h : expectAll cs r = some r') : r' <:+ r := by
  induction cs generalizing r with
  | nil =>
    cases h
    exact suffix_refl _
  | cons c cs ih =>
    obtain ⟨r1, h1, h⟩ := bind_eq_some_iff.mp h
    exact (ih h).trans (suffix_of_cons (expect_suffix h1))

/-- Two characters that are read. -/
theorem expectAll_pair {d : Char} (h : expectAll [c, d] r = some r') : d.toUInt8 :: r' <:+ r := by
  obtain ⟨r1, h1, h⟩ := bind_eq_some_iff.mp h
  obtain ⟨r2, h2, h⟩ := bind_eq_some_iff.mp h
  cases h
  exact (expect_suffix h2).trans (suffix_of_cons (expect_suffix h1))

theorem scanDigits_suffix (h : scanDigits r = some (v, r')) : r' <:+ r := by
  rw [scanDigits] at h
  split at h
  · cases h
  · cases h
    exact dropWhile_suffix _

/-- Numbers without a sign. -/
theorem scanUiv_suffix (h : scanUiv r = some (v, r')) : r' <:+ r := by
  cases r with
  | nil => cases h
  | cons c r =>
    rw [scanUiv] at h
    split at h
    · exact (scanDigits_suffix h).trans (suffix_cons c r)
    · exact scanDigits_suffix h

/-- Numbers with a sign. -/
theorem scanIv_suffix (h : scanIv r = some (v, r')) : r' <:+ r := by
  cases r with
  | nil => cases h
  | cons c r =>
    rw [scanIv] at h
    split at h
    · obtain ⟨⟨v, r1⟩, h1, h⟩ := map_eq_some_iff.mp h
      cases h
      exact (scanDigits_suffix h1).trans (suffix_cons c r)
    · exact scanUiv_suffix h

theorem scanBool_suffix {t : PhpVar.Token} (h : scanBool r = some (t, r')) :
    (∃ b, t = .bool b) ∧ ';'.toUInt8 :: r' <:+ r := by
  cases r with
  | nil => cases h
  | cons c r =>
    rw [scanBool] at h
    split at h
    · obtain ⟨r1, h1, h⟩ := map_eq_some_iff.mp h
      cases h
      exact ⟨⟨_, rfl⟩, (expect_suffix h1).trans (suffix_cons c r)⟩
    · cases h

/-- The bytes of an escaped string. -/
theorem unserializeStrLoop_suffix {len : ℕ} {s : Bytes}
    (h : unserializeStrLoop m len r = some (s, r')) : r' <:+ r := by
  induction len generalizing r s with
  | zero =>
    cases h
    exact suffix_refl _
  | succ len ih =>
    unfold unserializeStrLoop at h
    split at h
    · cases h
    · cases r with
      | nil => cases h
      | cons c r =>
        dsimp only at h
        split at h
        · obtain ⟨⟨s1, r1⟩, h1, h⟩ := map_eq_some_iff.mp h
          cases h
          exact (ih h1).trans (suffix_cons c r)
        · split at h
          · obtain ⟨_, -, h⟩ := bind_eq_some_iff.mp h
            obtain ⟨_, -, h⟩ := bind_eq_some_iff.mp h
            obtain ⟨⟨s1, r1⟩, h1, h⟩ := map_eq_some_iff.mp h
            cases h
            exact (ih h1).trans ((suffix_cons _ _).trans
              ((suffix_cons _ _).trans (suffix_cons c _)))
          · cases h

/-- What a rule takes off, and that it ends with a semicolon if it is that of a whole value. -/
def Takes (t : Token) (r r' : Bytes) : Prop :=
  ∃ c, c :: r' <:+ r ∧ (match t with
    | .plain (.arr _) => True
    | .stdObject _ => True
    | .object _ _ => True
    | _ => c = ';'.toUInt8)

/-- Strings. -/
theorem scanString_takes {escaped : Bool} (h : scanString m escaped r = some (t, r')) :
    Takes t r r' := by
  obtain ⟨⟨len, r1⟩, h1, h⟩ := bind_eq_some_iff.mp h
  obtain ⟨r2, h2, h⟩ := bind_eq_some_iff.mp h
  obtain ⟨r3, h3, h⟩ := bind_eq_some_iff.mp h
  have hprefix : r3 <:+ r :=
    (suffix_of_cons (expect_suffix h3)).trans
      ((suffix_of_cons (expect_suffix h2)).trans (scanUiv_suffix h1))
  split at h
  · cases h
  · obtain ⟨⟨s, r4⟩, h4, h⟩ := bind_eq_some_iff.mp h
    obtain ⟨r5, h5, h⟩ := bind_eq_some_iff.mp h
    obtain ⟨r6, h6, h⟩ := map_eq_some_iff.mp h
    have hcontents : r4 <:+ r3 := by
      cases escaped with
      | false =>
        cases h4
        exact drop_suffix _ _
      | true =>
        rw [if_pos rfl, unserializeStr] at h4
        split at h4
        · cases h4
        · exact unserializeStrLoop_suffix h4
    cases h
    exact ⟨_, (expect_suffix h6).trans
      ((suffix_of_cons (expect_suffix h5)).trans (hcontents.trans hprefix)), rfl⟩

theorem skipSign_suffix (r : Bytes) : skipSign r <:+ r := by
  rw [skipSign]
  split
  · exact drop_suffix _ _
  · exact suffix_refl _

theorem scanDecimal_suffix (h : scanDecimal r = some r') : r' <:+ r := by
  have hdigits := dropWhile_suffix (l := r) fun b => decide (Decimal.IsDigit b)
  rw [scanDecimal] at h
  dsimp only at h
  split at h
  · rename_i r1 h1
    split at h
    · cases h
    · cases h
      exact (dropWhile_suffix _).trans ((suffix_of_cons (expect_suffix h1)).trans hdigits)
  · split at h
    · cases h
    · cases h
      exact hdigits

/-- Digits with a point or an exponent. -/
theorem scanNumber_suffix (h : scanNumber r = some r') : r' <:+ r := by
  obtain ⟨r1, h1, h⟩ := bind_eq_some_iff.mp h
  have hdecimal := (scanDecimal_suffix h1).trans (skipSign_suffix r)
  split at h
  · rename_i r2 h2
    obtain ⟨⟨v, r3⟩, h3, h⟩ := map_eq_some_iff.mp h
    cases h
    have hexponent : r2 <:+ r1 := by
      rcases or_eq_some_iff.mp h2 with h2 | ⟨-, h2⟩
      · exact suffix_of_cons (expect_suffix h2)
      · exact suffix_of_cons (expect_suffix h2)
    exact (scanIv_suffix h3).trans ((skipSign_suffix r2).trans (hexponent.trans hdecimal))
  · cases h
    exact hdecimal

/-- Floating point numbers. -/
theorem scanDouble_suffix (h : scanDouble r = some r') : ';'.toUInt8 :: r' <:+ r := by
  obtain ⟨r1, h1, h⟩ := bind_eq_some_iff.mp h
  refine (expect_suffix h).trans ?_
  rcases or_eq_some_iff.mp h1 with h1 | ⟨-, h1⟩
  · rcases or_eq_some_iff.mp h1 with h1 | ⟨-, h1⟩
    · exact expectAll_suffix h1
    · exact expectAll_suffix h1
  · rcases or_eq_some_iff.mp h1 with h1 | ⟨-, h1⟩
    · exact expectAll_suffix h1
    · exact scanNumber_suffix h1

/-! ## The rules -/

theorem Takes.mono {r1 r2 : Bytes} (h : Takes t r1 r') (hr : r1 <:+ r2) : Takes t r2 r' := by
  obtain ⟨c, hc, ht⟩ := h
  exact ⟨c, hc.trans hr, ht⟩

/-- A token is not empty. -/
theorem Takes.length_lt (h : Takes t r r') : r'.length < r.length := by
  obtain ⟨c, hc, -⟩ := h
  exact hc.length_le

/-- Every rule takes its token. -/
theorem scanRule_takes {c : UInt8} (h : scanRule m c r = some (t, r')) : Takes t r r' := by
  rcases ite_eq_iff.mp h with ⟨-, h⟩ | ⟨-, h⟩
  · obtain ⟨⟨id, r2⟩, h2, h⟩ := bind_eq_some_iff.mp h
    obtain ⟨r3, h3, h⟩ := map_eq_some_iff.mp h
    cases h
    exact ⟨_, (expect_suffix h3).trans (scanIv_suffix h2), rfl⟩
  rcases ite_eq_iff.mp h with ⟨-, h⟩ | ⟨-, h⟩
  · obtain ⟨⟨id, r2⟩, h2, h⟩ := bind_eq_some_iff.mp h
    obtain ⟨r3, h3, h⟩ := map_eq_some_iff.mp h
    cases h
    exact ⟨_, (expect_suffix h3).trans (scanIv_suffix h2), rfl⟩
  rcases ite_eq_iff.mp h with ⟨-, h⟩ | ⟨-, h⟩
  · obtain ⟨⟨b, r2⟩, h2, h⟩ := map_eq_some_iff.mp h
    cases h
    obtain ⟨⟨b', rfl⟩, hsuffix⟩ := scanBool_suffix h2
    exact ⟨_, hsuffix, rfl⟩
  rcases ite_eq_iff.mp h with ⟨-, h⟩ | ⟨-, h⟩
  · obtain ⟨⟨v, r2⟩, h2, h⟩ := bind_eq_some_iff.mp h
    obtain ⟨r3, h3, h⟩ := map_eq_some_iff.mp h
    cases h
    exact ⟨_, (expect_suffix h3).trans (scanIv_suffix h2), rfl⟩
  rcases ite_eq_iff.mp h with ⟨-, h⟩ | ⟨-, h⟩
  · obtain ⟨r2, h2, h⟩ := map_eq_some_iff.mp h
    cases h
    exact ⟨_, scanDouble_suffix h2, rfl⟩
  rcases ite_eq_iff.mp h with ⟨-, h⟩ | ⟨-, h⟩
  · exact scanString_takes h
  rcases ite_eq_iff.mp h with ⟨-, h⟩ | ⟨-, h⟩
  · exact scanString_takes h
  rcases ite_eq_iff.mp h with ⟨-, h⟩ | ⟨-, h⟩
  · obtain ⟨⟨elements, r2⟩, h2, h⟩ := bind_eq_some_iff.mp h
    obtain ⟨r3, h3, h⟩ := map_eq_some_iff.mp h
    cases h
    exact ⟨_, (expectAll_pair h3).trans (scanUiv_suffix h2), trivial⟩
  rcases ite_eq_iff.mp h with ⟨-, h⟩ | ⟨-, h⟩
  · obtain ⟨⟨elements, r2⟩, h2, h⟩ := bind_eq_some_iff.mp h
    obtain ⟨r3, h3, h⟩ := map_eq_some_iff.mp h
    cases h
    exact ⟨_, (expectAll_pair h3).trans (scanIv_suffix h2), trivial⟩
  rcases ite_eq_iff.mp h with ⟨-, h⟩ | ⟨-, h⟩
  · obtain ⟨⟨len, r2⟩, h2, h⟩ := bind_eq_some_iff.mp h
    obtain ⟨r3, h3, h⟩ := map_eq_some_iff.mp h
    cases h
    exact ⟨_, (expectAll_pair h3).trans (scanUiv_suffix h2), trivial⟩
  · cases h

/-- Every rule takes bytes off the front. -/
theorem scan_takes (h : scan m r = some (t, r')) : Takes t r r' := by
  cases r with
  | nil => cases h
  | cons c r =>
    rcases ite_eq_iff.mp h with ⟨-, h⟩ | ⟨-, h⟩
    · obtain ⟨r1, h1, h⟩ := map_eq_some_iff.mp h
      cases h
      exact ⟨_, (expect_suffix h1).trans (suffix_cons c r), rfl⟩
    · obtain ⟨r1, h1, h⟩ := bind_eq_some_iff.mp h
      exact (scanRule_takes h).mono
        ((suffix_of_cons (expect_suffix h1)).trans (suffix_cons c r))

end UnserializeRange

/-!
# The values that the memory spells

The format of serialized values says which bytes are a value, with the comparisons with `max` at the
beginning of each part.  The reader takes off what the format spells, whatever the tables and
classes answer, and with tables and classes that refuse nothing it takes off all of it.  So it stays
before `max` exactly when no value that is spelled runs over `max`.
-/

namespace UnserializeRange

open List

open PhpVar PhpObject

variable {m : ℕ} {r r' r1 r2 r3 : Bytes} {W : World} {h h' h1 h2 : List Event}

/-! ## The format -/

/-- A token that is a value by itself; a number of a value is one that there can be. -/
def isValue : Token → Bool
  | .plain (.backRef id) => (id - 1).toNat < maxSlots
  | .plain (.copy id) => (id - 1).toNat < maxSlots
  | .plain (.arr _) => false
  | .plain _ => true
  | .double => true
  | _ => false

/-- The name of a class, of the declared length, in front of its quote and a colon. -/
def IsName (m : ℕ) (len : BitVec 64) (r : Bytes) : Prop :=
  len ≤ maxlen m r ∧ len ≠ 0 ∧ expectAll ['"', ':'] (r.drop len.toNat) ≠ none ∧
    (r.take len.toNat).all isClassByte

/-- An array or an object of so many pairs begins with the bytes from `r` to `r'`; behind the count
of an object two bytes are skipped. -/
inductive Opens (m : ℕ) : ℕ → Bytes → Bytes → Prop
  | array {elements : BitVec 64} {r r' : Bytes} : m < r.length →
      scan m r = some (.plain (.arr elements), r') → 0 ≤ elements.toInt →
      Opens m elements.toNat r r'
  | stdObject {elements : BitVec 64} {r r' : Bytes} : m + 2 < r.length →
      scan m r = some (.stdObject elements, r') → 0 ≤ elements.toInt →
      Opens m elements.toNat r r'
  | object {len elements : BitVec 64} {r r1 r2 : Bytes} : m < r.length →
      scan m r = some (.object false len, r1) → IsName m len r1 →
      m + 2 < (r1.drop len.toNat).length →
      parseIv2 ((r1.drop len.toNat).drop 2) = (elements, r2) → 0 ≤ elements.toInt →
      Opens m elements.toNat r (r2.drop 2)

/-- The bytes from `r` to `r'` are a value, or so many pairs of a key and a value.  Every value and
every key begins before `max`, as does the count of an object, and the data of a custom object ends
before it. -/
inductive Spells (m : ℕ) : Option ℕ → Bytes → Bytes → Prop
  | plain {t : Token} {r r' : Bytes} : m < r.length → scan m r = some (t, r') → isValue t →
      Spells m none r r'
  | nested {n : ℕ} {r r1 r2 r' : Bytes} : Opens m n r r1 → Spells m (some n) r1 r2 →
      expect '}' r2 = some r' → Spells m none r r'
  | custom {len datalen : BitVec 64} {r r1 r2 r' : Bytes} : m < r.length →
      scan m r = some (.object true len, r1) → IsName m len r1 →
      parseIv2 ((r1.drop len.toNat).drop 2) = (datalen, r2) → 0 ≤ datalen.toInt →
      datalen.toInt < ((r2.drop 2).length : ℤ) - m →
      expect '}' ((r2.drop 2).drop datalen.toNat) = some r' → Spells m none r r'
  | nil (r : Bytes) : Spells m (some 0) r r
  | cons {n : ℕ} {key : Token} {r r1 r2 r' : Bytes} : m < r.length →
      scan m r = some (key, r1) → isKey key → Spells m none r1 r2 → Spells m (some n) r2 r' →
      Spells m (some (n + 1)) r r'

/-- A value is spelled that runs over `max`. -/
def RunsOver (m : ℕ) (r : Bytes) : Prop := ∃ r', Spells m none r r' ∧ r'.length < m

/-! ## The bytes of a value -/

theorem parseIv2_suffix (r : Bytes) : (parseIv2 r).2 <:+ r := by
  refine (dropWhile_suffix _).trans ?_
  split
  · exact drop_suffix _ _
  · exact suffix_refl _

theorem Opens.suffix {n : ℕ} (ho : Opens m n r r') : r' <:+ r := by
  cases ho with
  | array _ hscan =>
    obtain ⟨c, hc, -⟩ := scan_takes hscan
    exact suffix_of_cons hc
  | stdObject _ hscan =>
    obtain ⟨c, hc, -⟩ := scan_takes hscan
    exact suffix_of_cons hc
  | @object len elements r r1 r2 _ hscan _ _ hcount =>
    obtain ⟨c, hc, -⟩ := scan_takes hscan
    have hparse := parseIv2_suffix ((r1.drop len.toNat).drop 2)
    rw [hcount] at hparse
    exact (drop_suffix _ _).trans (hparse.trans ((drop_suffix _ _).trans ((drop_suffix _ _).trans
      (suffix_of_cons hc))))

variable {e : Event} {elements id len : BitVec 64} {k : Option ℕ} {n : ℕ} {t : Token}

/-- A value ends with a semicolon. -/
theorem takes_of_isValue (ht : Takes t r r') (hv : isValue t) : ';'.toUInt8 :: r' <:+ r := by
  obtain ⟨c, hc, hend⟩ := ht
  cases t with
  | plain t =>
    cases t with
    | arr _ => cases hv
    | _ =>
      cases hend
      exact hc
  | double =>
    cases hend
    exact hc
  | _ => cases hv

/-- A value ends with a semicolon or a brace. -/
def Closes (k : Option ℕ) (r r' : Bytes) : Prop :=
  match k with
  | none => ∃ c, (c = ';'.toUInt8 ∨ c = '}'.toUInt8) ∧ c :: r' <:+ r
  | some _ => r' <:+ r

/-- A value ends with its last brace. -/
theorem Spells.closes (hs : Spells m k r r') : Closes k r r' := by
  induction hs with
  | plain _ hscan hv => exact ⟨_, .inl rfl, takes_of_isValue (scan_takes hscan) hv⟩
  | nested ho _ hbrace ih =>
    exact ⟨_, .inr rfl, (expect_suffix hbrace).trans (ih.trans ho.suffix)⟩
  | @custom len datalen r r1 r2 r' _ hscan _ hcount _ _ hbrace =>
    obtain ⟨c, hc, -⟩ := scan_takes hscan
    have hparse := parseIv2_suffix ((r1.drop len.toNat).drop 2)
    rw [hcount] at hparse
    exact ⟨_, .inr rfl, (expect_suffix hbrace).trans ((drop_suffix _ _).trans
      ((drop_suffix _ _).trans (hparse.trans ((drop_suffix _ _).trans
        ((drop_suffix _ _).trans (suffix_of_cons hc))))))⟩
  | nil r => exact suffix_refl r
  | cons _ hscan _ _ _ ihv ihs =>
    obtain ⟨c, hc, -⟩ := scan_takes hscan
    obtain ⟨d, -, hd⟩ := ihv
    exact ihs.trans ((suffix_of_cons hd).trans (suffix_of_cons hc))

/-- Values do not go back. -/
theorem Spells.length_le (hs : Spells m k r r') : r'.length ≤ r.length := by
  have hc := hs.closes
  cases k with
  | none =>
    obtain ⟨c, -, hc⟩ := hc
    exact (suffix_of_cons hc).length_le
  | some n => exact List.IsSuffix.length_le hc

/-- The byte before the cursor. -/
theorem lastRead_of_suffix {c : UInt8} (hc : c :: r' <:+ r) : lastRead r r' = some c := by
  obtain ⟨pre, rfl⟩ := hc
  have hsplit : pre ++ c :: r' = (pre ++ [c]) ++ r' := by
    rw [append_assoc, singleton_append]
  rw [hsplit, lastRead_append, getLast?_append]
  rfl

/-!
# The reader and the values that the memory spells

With tables and classes that refuse nothing the reader accepts all that the format spells.
-/

open Option

variable {m : ℕ} {r r' r1 r2 r3 : Bytes} {W : World} {h h' h1 h2 : List Event}
  {u : Bytes → List Event → Option (Bytes × List Event)}

/-! ## Lengths that were accepted -/

/-- The contents of a string and the name of a class end before the last `k` bytes. -/
def Event.Fits (k : ℕ) : Event → Prop
  | .value (.plain (.str _)) left => k ≤ left + 2
  | .key (.plain (.str _)) left => k ≤ left + 2
  | .className _ left => k ≤ left
  | _ => True

theorem Event.Fits.mono {k l : ℕ} (he : e.Fits l) (hkl : k ≤ l) : e.Fits k := by
  unfold Event.Fits at he ⊢
  split at he
  · exact hkl.trans he
  · exact hkl.trans he
  · exact hkl.trans he
  · trivial

/-- All lengths that were accepted since `h` fit. -/
def Grows (k : ℕ) (h h' : List Event) : Prop := ∀ e ∈ h', e ∈ h ∨ e.Fits k

theorem Grows.refl (k : ℕ) (h : List Event) : Grows k h h := fun _ he => .inl he

/-- What one adds, and then another. -/
theorem Grows.trans {k l : ℕ} (hf : Grows l h h1) (hg : Grows k h1 h2) (hkl : k ≤ l) :
    Grows k h h2 := by
  intro e he
  rcases hg e he with he | he
  · exact (hf e he).imp_right fun hfit => hfit.mono hkl
  · exact .inr he

/-- What is told is on record. -/
theorem tell_eq_some (ht : W.tell h e = some h') : h' = e :: h := by
  unfold World.tell at ht
  split at ht
  · cases ht
    rfl
  · cases ht

theorem grows_tell {k : ℕ} (ht : W.tell h e = some h') (he : e.Fits k) : Grows k h h' := by
  rw [tell_eq_some ht]
  intro d hd
  rcases mem_cons.mp hd with rfl | hd
  · exact .inr he
  · exact .inl hd

/-! ## What is accepted is spelled -/

/-- A function that reads values. -/
def Sound (m : ℕ) (u : Bytes → List Event → Option (Bytes × List Event)) : Prop :=
  ∀ r h r' h', u r h = some (r', h') → Spells m none r r' ∧ Grows r'.length h h'

theorem fits_key (key : Token) (k : ℕ) : (Event.key key k).Fits k := by
  unfold Event.Fits
  split
  · rename_i heq
    cases heq
  · rename_i heq
    cases heq
    exact Nat.le_add_right _ 2
  · rename_i heq
    cases heq
  · trivial

theorem fits_value (t : Token) (k : ℕ) : (Event.value t k).Fits k := by
  unfold Event.Fits
  split
  · rename_i heq
    cases heq
    exact Nat.le_add_right _ 2
  · rename_i heq
    cases heq
  · rename_i heq
    cases heq
  · trivial

/-- The pairs of an array. -/
theorem processNestedData_sound (hu : Sound m u)
    (hp : processNestedData W m u n r h = some (r', h')) :
    Spells m (some n) r r' ∧ Grows r'.length h h' := by
  induction n generalizing r h with
  | zero =>
    cases hp
    exact ⟨.nil _, Grows.refl _ _⟩
  | succ n ih =>
    rw [processNestedData] at hp
    split at hp
    · cases hp
    · rename_i hlen
      obtain ⟨⟨key, r1⟩, hscan, hp⟩ := bind_eq_some_iff.mp hp
      dsimp only at hp
      split at hp
      · rename_i hkey
        obtain ⟨h1, htell, hp⟩ := bind_eq_some_iff.mp hp
        obtain ⟨⟨r2, h2⟩, hread, hp⟩ := bind_eq_some_iff.mp hp
        split at hp
        · cases hp
        · obtain ⟨hvalue, hgrows⟩ := hu r1 h1 r2 h2 hread
          obtain ⟨hrest, hgrows'⟩ := ih hp
          refine ⟨.cons (lt_of_not_ge hlen) hscan hkey hvalue hrest, ?_⟩
          exact ((grows_tell htell (fits_key key _)).trans hgrows hvalue.length_le).trans hgrows'
            hrest.length_le
      · cases hp

theorem finishNestedData_eq_some (hf : finishNestedData r h = some (r', h')) :
    expect '}' r = some r' ∧ h' = h := by
  obtain ⟨r1, hbrace, heq⟩ := map_eq_some_iff.mp hf
  cases heq
  exact ⟨hbrace, rfl⟩

theorem length_of_brace (hbrace : expect '}' r = some r') : r'.length ≤ r.length :=
  (suffix_of_cons (expect_suffix hbrace)).length_le

/-- The pairs of an array or of an object, and the brace. -/
theorem finish_sound (hu : Sound m u)
    (hp : ((processNestedData W m u n r h).bind fun (r, h) => finishNestedData r h)
      = some (r', h')) :
    (∃ r2, Spells m (some n) r r2 ∧ expect '}' r2 = some r') ∧ Grows r'.length h h' := by
  obtain ⟨⟨r2, h2⟩, hread, hf⟩ := bind_eq_some_iff.mp hp
  obtain ⟨hpairs, hgrows⟩ := processNestedData_sound hu hread
  obtain ⟨hbrace, rfl⟩ := finishNestedData_eq_some hf
  exact ⟨⟨r2, hpairs, hbrace⟩, hgrows.trans (Grows.refl _ _) (length_of_brace hbrace)⟩

/-- The pairs of an object. -/
theorem objectCommon2_sound (hu : Sound m u)
    (ho : objectCommon2 W m u elements r h = some (r', h')) :
    0 ≤ elements.toInt ∧ (∃ r2, Spells m (some elements.toNat) r r2 ∧ expect '}' r2 = some r') ∧
      Grows r'.length h h' := by
  rw [objectCommon2] at ho
  split at ho
  · cases ho
  · rename_i hpos
    obtain ⟨h1, htell, hp⟩ := bind_eq_some_iff.mp ho
    obtain ⟨hpairs, hgrows⟩ := finish_sound hu hp
    exact ⟨Int.not_lt.mp hpos, hpairs, (grows_tell htell trivial).trans hgrows le_rfl⟩

/-- What is behind a count is behind the name of the class. -/
theorem length_parseIv2_le (r : Bytes) (n : ℕ) :
    (((parseIv2 (r.drop 2)).2.drop 2).drop n).length ≤ r.length := by
  have hparse := (parseIv2_suffix (r.drop 2)).length_le
  rw [length_drop] at hparse
  rw [length_drop, length_drop]
  omega

/-- Objects. -/
theorem unserializeObject_sound (hu : Sound m u) {custom : Bool}
    (hlen : m < r.length) (hscan : scan m r = some (.object custom len, r1))
    (ho : unserializeObject W m u custom len r1 h = some (r', h')) :
    Spells m none r r' ∧ Grows r'.length h h' := by
  rw [unserializeObject] at ho
  split at ho
  · cases ho
  · rename_i hbound
    dsimp only at ho
    split at ho
    · cases ho
    · rename_i hquote
      rw [not_or] at hbound
      rw [not_or, not_not] at hquote
      have hname : IsName m len r1 :=
        ⟨BitVec.not_lt.mp hbound.1, hbound.2, hquote.1, hquote.2⟩
      obtain ⟨h1, htell, ho⟩ := bind_eq_some_iff.mp ho
      cases custom with
      | true =>
        rw [if_pos rfl, objectCustom] at ho
        dsimp only at ho
        split at ho
        · cases ho
        · rename_i hdata
          rw [not_or, Int.not_lt, Int.not_le] at hdata
          obtain ⟨h2, htell', hf⟩ := bind_eq_some_iff.mp ho
          obtain ⟨hbrace, rfl⟩ := finishNestedData_eq_some hf
          have hs : Spells m none r r' := .custom hlen hscan hname rfl hdata.1 hdata.2 hbrace
          have hle := (length_of_brace hbrace).trans (length_parseIv2_le _ _)
          exact ⟨hs, ((grows_tell htell le_rfl).trans (grows_tell htell' trivial)
            le_rfl).trans (Grows.refl r'.length _) hle⟩
      | false =>
        rw [if_neg (by decide), objectCommon] at ho
        split at ho
        · cases ho
        · rename_i hcount
          obtain ⟨hpos, ⟨r2, hpairs, hbrace⟩, hgrows⟩ := objectCommon2_sound hu ho
          have hs : Spells m none r r' :=
            .nested (.object hlen hscan hname (lt_of_not_ge hcount) rfl hpos) hpairs hbrace
          have hle := (length_of_brace hbrace).trans
            (hpairs.length_le.trans (length_parseIv2_le _ 0))
          exact ⟨hs, (grows_tell htell le_rfl).trans hgrows hle⟩

/-- Tokens that are values. -/
theorem value_sound (hlen : m < r.length) (hscan : scan m r = some (t, r1))
    (hv : isValue t) (ho : ((W.tell h (.value t r1.length)).map fun h => (r1, h)) = some (r', h')) :
    Spells m none r r' ∧ Grows r'.length h h' := by
  obtain ⟨h1, htell, heq⟩ := map_eq_some_iff.mp ho
  cases heq
  exact ⟨.plain hlen hscan hv, grows_tell htell (fits_value t _)⟩

/-- Tokens that refer back. -/
theorem backRef_sound (e : Event) {p : Prop} [Decidable p] (hlen : m < r.length)
    (hscan : scan m r = some (t, r1)) (hv : W.succeeds h e → isValue t) (he : e.Fits r1.length)
    (ho : (if p then none else (W.tell h e).map fun h => (r1, h)) = some (r', h')) :
    Spells m none r r' ∧ Grows r'.length h h' := by
  split at ho
  · cases ho
  · obtain ⟨h1, htell, heq⟩ := map_eq_some_iff.mp ho
    cases heq
    refine ⟨.plain hlen hscan (hv ?_), grows_tell htell he⟩
    by_contra hno
    rw [World.tell, if_neg hno] at htell
    cases htell

/-- A slot that is found is below the bound. -/
theorem slot_lt
    (hs : W.succeeds h (.backRef id) ∨ W.succeeds h (.copy id)) : id.toNat < maxSlots := by
  by_contra hle
  obtain ⟨h1, h2⟩ := W.slots h id (le_of_not_gt hle)
  rw [h1, h2] at hs
  rcases hs with hs | hs <;> cases hs

/-- Whatever is accepted is spelled, and the lengths in it fit. -/
theorem unserializeInternal_sound (fuel : ℕ) : Sound m (unserializeInternal W m fuel) := by
  induction fuel with
  | zero =>
    intro r h r' h' ho
    cases ho
  | succ fuel ih =>
    intro r h r' h' ho
    rw [unserializeInternal] at ho
    split at ho
    · cases ho
    · rename_i hlen
      replace hlen := lt_of_not_ge hlen
      obtain ⟨h1, hpush, ho⟩ := bind_eq_some_iff.mp ho
      obtain ⟨⟨t, r1⟩, hscan, ho⟩ := bind_eq_some_iff.mp ho
      have hgrows1 : Grows r'.length h h1 := by
        split at hpush
        · cases hpush
          exact Grows.refl _ _
        · exact grows_tell hpush trivial
      suffices hs : Spells m none r r' ∧ Grows r'.length h1 h' from
        ⟨hs.1, hgrows1.trans hs.2 le_rfl⟩
      cases t with
      | double => exact value_sound hlen hscan rfl ho
      | stdObject elements =>
        dsimp only at ho
        split at ho
        · cases ho
        · rename_i hcount
          obtain ⟨hpos, ⟨r2, hpairs, hbrace⟩, hgrows⟩ := objectCommon2_sound ih ho
          exact ⟨.nested (.stdObject (lt_of_not_ge hcount) hscan hpos) hpairs hbrace, hgrows⟩
      | object custom len => exact unserializeObject_sound ih hlen hscan ho
      | plain t =>
        cases t with
        | backRef id =>
          exact backRef_sound (.backRef (id - 1)) hlen hscan
            (fun hid => decide_eq_true (slot_lt (.inl hid))) trivial ho
        | copy id =>
          exact backRef_sound (.copy (id - 1)) hlen hscan
            (fun hid => decide_eq_true (slot_lt (.inr hid))) trivial ho
        | arr elements =>
          dsimp only at ho
          split at ho
          · cases ho
          · rename_i hpos
            obtain ⟨h2, htell, hp⟩ := bind_eq_some_iff.mp ho
            obtain ⟨⟨r2, hpairs, hbrace⟩, hgrows⟩ := finish_sound ih hp
            exact ⟨.nested (.array hlen hscan (Int.not_lt.mp hpos)) hpairs hbrace,
              (grows_tell htell trivial).trans hgrows le_rfl⟩
        | null => exact value_sound hlen hscan rfl ho
        | bool b => exact value_sound hlen hscan rfl ho
        | long v => exact value_sound hlen hscan rfl ho
        | str x => exact value_sound hlen hscan rfl ho

/-! ## What is spelled is accepted -/

/-- Tables and classes that refuse nothing, with as many slots as there can be. -/
def allow : World where
  succeeds := fun _ e =>
    match e with
    | .backRef id => id.toNat < maxSlots
    | .copy id => id.toNat < maxSlots
    | _ => true
  slots := fun _ _ hid => by simpa using hid

/-- What succeeds is told. -/
theorem tell_allow (h : List Event) (he : allow.succeeds h e) :
    allow.tell h e = some (e :: h) := if_pos he

/-- That a value or pairs are read from `r` to `r'`. -/
def Reads (m : ℕ) (k : Option ℕ) (r r' : Bytes) : Prop :=
  ∀ fuel, r.length < fuel → ∀ h, ∃ h',
    (match k with
      | none => unserializeInternal allow m fuel r h
      | some n => processNestedData allow m (unserializeInternal allow m fuel) n r h)
      = some (r', h')

theorem push_allow (r : Bytes) (h : List Event) :
    ∃ h1, (if r.head? = some 'R'.toUInt8 then some h else allow.tell h .push) = some h1 := by
  split
  · exact ⟨h, rfl⟩
  · exact ⟨.push :: h, rfl⟩

/-- The pairs are read, and the brace behind them. -/
theorem finish_allow {fuel : ℕ} (hpairs : Reads m (some n) r r2) (hfuel : r.length < fuel)
    (hbrace : expect '}' r2 = some r') (h : List Event) :
    ∃ h', ((processNestedData allow m (unserializeInternal allow m fuel) n r h).bind
      fun (r, h) => finishNestedData r h) = some (r', h') := by
  obtain ⟨h', hread⟩ := hpairs fuel hfuel h
  dsimp only at hread
  refine ⟨h', ?_⟩
  rw [hread, bind_some]
  dsimp only
  rw [finishNestedData, hbrace]
  rfl

/-- The pairs of an object are read. -/
theorem objectCommon2_allow {fuel : ℕ} (hpos : 0 ≤ elements.toInt)
    (hpairs : Reads m (some elements.toNat) r r2) (hfuel : r.length < fuel)
    (hbrace : expect '}' r2 = some r') (h : List Event) :
    ∃ h', objectCommon2 allow m (unserializeInternal allow m fuel) elements r h
      = some (r', h') := by
  rw [objectCommon2, if_neg (Int.not_lt.mpr hpos)]
  exact finish_allow hpairs hfuel hbrace _

/-- A class name is accepted. -/
theorem unserializeObject_allow (custom : Bool) (fuel : ℕ)
    (hname : IsName m len r) (h : List Event) :
    ∃ h1, unserializeObject allow m (unserializeInternal allow m fuel) custom len r h
      = if custom then objectCustom allow m (r.drop len.toNat) h1
        else objectCommon allow m (unserializeInternal allow m fuel) (r.drop len.toNat) h1 := by
  obtain ⟨hlen, hne, hquote, hbytes⟩ := hname
  have hbound : ¬ (maxlen m r < len ∨ len = 0) := not_or.mpr ⟨BitVec.not_lt.mpr hlen, hne⟩
  have hclass : ¬ (expectAll ['"', ':'] (r.drop len.toNat) = none ∨
      ¬ (r.take len.toNat).all isClassByte) := not_or.mpr ⟨hquote, not_not.mpr hbytes⟩
  refine ⟨.className (r.take len.toNat) (r.drop len.toNat).length :: h, ?_⟩
  rw [unserializeObject, if_neg hbound]
  rw [if_neg hclass, tell_allow h rfl, bind_some]

theorem slot_nonneg (hid : decide (id.toNat < maxSlots) = true) : 0 ≤ id.toInt := by
  have hlt := of_decide_eq_true hid
  simp only [maxSlots] at hlt
  rw [BitVec.toInt_eq_toNat_cond]
  omega

/-- What is spelled is read. -/
theorem Spells.reads (hs : Spells m k r r') : Reads m k r r' := by
  induction hs with
  | @plain t r r' hlen hscan hv =>
    intro fuel hfuel h
    obtain ⟨fuel, rfl⟩ := Nat.exists_eq_add_one.2 hfuel.pos
    obtain ⟨h1, hpush⟩ := push_allow r h
    dsimp only
    rw [unserializeInternal, if_neg (not_le_of_gt hlen), hpush, hscan]
    cases t with
    | plain t =>
      cases t with
      | arr _ => cases hv
      | backRef id =>
        refine ⟨.backRef (id - 1) :: h1, (if_neg (not_lt.mpr (slot_nonneg hv))).trans ?_⟩
        rw [tell_allow h1 (e := .backRef (id - 1)) hv]
        rfl
      | copy id =>
        refine ⟨.copy (id - 1) :: h1, (if_neg (not_lt.mpr (slot_nonneg hv))).trans ?_⟩
        rw [tell_allow h1 (e := .copy (id - 1)) hv]
        rfl
      | _ => exact ⟨_, rfl⟩
    | double => exact ⟨_, rfl⟩
    | _ => cases hv
  | @nested n r r1 r2 r' hopens _ hbrace ih =>
    intro fuel hfuel h
    cases hopens with
    | @array elements _ _ hlen hscan hpos =>
      obtain ⟨fuel, rfl⟩ := Nat.exists_eq_add_one.2 hfuel.pos
      obtain ⟨h1, hpush⟩ := push_allow r h
      have hlt := (scan_takes hscan).length_lt
      dsimp only
      rw [unserializeInternal, if_neg (not_le_of_gt hlen), hpush, bind_some, hscan, bind_some]
      dsimp only
      rw [if_neg (Int.not_lt.mpr hpos)]
      exact finish_allow ih (by omega) hbrace _
    | @stdObject elements _ _ hlen hscan hpos =>
      obtain ⟨fuel, rfl⟩ := Nat.exists_eq_add_one.2 hfuel.pos
      obtain ⟨h1, hpush⟩ := push_allow r h
      have hlt := (scan_takes hscan).length_lt
      dsimp only
      rw [unserializeInternal, if_neg (by omega), hpush, bind_some, hscan, bind_some]
      dsimp only
      rw [if_neg (not_le_of_gt hlen)]
      exact objectCommon2_allow hpos ih (by omega) hbrace _
    | @object len elements r r1 r2 hlen hscan hname hcount hparse hpos =>
      obtain ⟨fuel, rfl⟩ := Nat.exists_eq_add_one.2 hfuel.pos
      obtain ⟨h1, hpush⟩ := push_allow r h
      obtain ⟨h2, hobject⟩ := unserializeObject_allow false fuel hname h1
      have hlt := (scan_takes hscan).length_lt
      have hdrop := (drop_suffix len.toNat r1).length_le
      have hle := length_parseIv2_le (r1.drop len.toNat) 0
      rw [hparse, drop_zero] at hle
      dsimp only at hle ⊢
      rw [unserializeInternal, if_neg (not_le_of_gt hlen), hpush, bind_some, hscan, bind_some]
      dsimp only
      rw [hobject, objectCommon, if_neg (not_le_of_gt hcount), hparse]
      exact objectCommon2_allow hpos ih (by omega) hbrace _
  | @custom len datalen r r1 r2 r' hlen hscan hname hparse hpos hdata hbrace =>
    intro fuel hfuel h
    obtain ⟨fuel, rfl⟩ := Nat.exists_eq_add_one.2 hfuel.pos
    obtain ⟨h1, hpush⟩ := push_allow r h
    obtain ⟨h2, hobject⟩ := unserializeObject_allow true fuel hname h1
    have hfits : ¬ (datalen.toInt < 0 ∨ ((r2.drop 2).length : ℤ) - m ≤ datalen.toInt) := by omega
    dsimp only
    rw [unserializeInternal, if_neg (not_le_of_gt hlen), hpush, bind_some, hscan, bind_some]
    dsimp only
    rw [hobject, objectCustom, hparse]
    dsimp only
    rw [if_neg hfits, tell_allow h2 rfl, bind_some, finishNestedData, hbrace]
    exact ⟨_, rfl⟩
  | nil r => exact fun fuel _ h => ⟨h, rfl⟩
  | @cons n key r r1 r2 r' hlen hscan hkey hvalue _ ihv ihs =>
    intro fuel hfuel h
    have hfuel1 : r1.length < fuel := (scan_takes hscan).length_lt.trans hfuel
    obtain ⟨h2, hread⟩ := ihv fuel hfuel1 (.key key r1.length :: h)
    obtain ⟨h', hrest⟩ := ihs fuel (hvalue.length_le.trans_lt hfuel1) h2
    refine ⟨h', ?_⟩
    have hlast : ¬ (n ≠ 0 ∧ lastRead r1 r2 ≠ some ';'.toUInt8 ∧
        lastRead r1 r2 ≠ some '}'.toUInt8) := by
      obtain ⟨c, hc, hsuffix⟩ := hvalue.closes
      rw [lastRead_of_suffix hsuffix]
      rintro ⟨-, hsemi, hend⟩
      rcases hc with rfl | rfl
      · exact hsemi rfl
      · exact hend rfl
    dsimp only
    have htell : allow.tell h (.key key r1.length) = some (.key key r1.length :: h) :=
      tell_allow h rfl
    rw [processNestedData, if_neg (not_le_of_gt hlen), hscan]
    simp only [bind_some, hkey, if_true, htell, hread, if_neg hlast]
    exact hrest

/-! ## Staying before `max` -/

/-- Whatever the tables and the classes answer, a value that is accepted ends before `max`, as do
the strings and the names of classes in it. -/
def StaysInside (m : ℕ) (r : Bytes) : Prop :=
  ∀ (W : World) (r' : Bytes) (h : List Event), varUnserialize W m r = some (r', h) →
    m ≤ r'.length ∧ ∀ e ∈ h, e.Fits m

/-- The bytes from `r` to `r'` are a value without its last `n` closing braces: the last token of
it, or the beginning of an empty array or object, stands across `max`, or all of it is in front of
`max`. -/
inductive Crosses (m : ℕ) : ℕ → Bytes → Bytes → Prop
  | token {t : Token} {r r' : Bytes} : m < r.length → scan m r = some (t, r') → isValue t →
      r'.length < m → Crosses m 0 r r'
  | opening {r r' : Bytes} : Opens m 0 r r' → r'.length < m → Crosses m 1 r r'
  | closing {n : ℕ} {r r1 r' : Bytes} : Opens m n r r1 → Spells m (some n) r1 r' →
      r'.length = m → Crosses m 1 r r'
  | last {n depth : ℕ} {key : Token} {r r1 r2 r3 r' : Bytes} : Opens m (n + 1) r r1 →
      Spells m (some n) r1 r2 → m < r2.length → scan m r2 = some (key, r3) → isKey key →
      Crosses m depth r3 r' → Crosses m (depth + 1) r r'

/-- A value is begun in front of `max`, and the bytes from `max` on are the missing end of its last
token and the closing braces of all that is open. -/
def EndsBehind (m : ℕ) (r : Bytes) : Prop :=
  ∃ depth r', Crosses m depth r r' ∧ replicate depth '}'.toUInt8 <+: r'

theorem expect_brace (r : Bytes) : expect '}' ('}'.toUInt8 :: r) = some r := rfl

/-- One more pair at the end. -/
theorem Spells.snoc {key : Token} (hlen : m < r1.length)
    (hscan : scan m r1 = some (key, r2)) (hkey : isKey key) (hvalue : Spells m none r2 r3)
    (hs : Spells m k r r1) (hk : k = some n) : Spells m (some (n + 1)) r r3 := by
  induction hs generalizing n with
  | nil r =>
    cases hk
    exact .cons hlen hscan hkey hvalue (.nil r3)
  | cons hlen' hscan' hkey' hvalue' _ _ ihs =>
    cases hk
    exact .cons hlen' hscan' hkey' hvalue' (ihs hlen hscan rfl)
  | _ => cases hk

/-- With the missing braces the value is spelled. -/
theorem Crosses.spells {depth : ℕ} (hc : Crosses m depth r r1) :
    ∀ r', r1 = replicate depth '}'.toUInt8 ++ r' → Spells m none r r' ∧ r'.length < m := by
  induction hc with
  | token hlen hscan hv hover =>
    rintro r' rfl
    exact ⟨.plain hlen hscan hv, hover⟩
  | opening hopens hover =>
    rintro r' rfl
    exact ⟨.nested hopens (.nil _) (expect_brace r'), Nat.lt_of_succ_lt hover⟩
  | closing hopens hpairs hmax =>
    rintro r' rfl
    exact ⟨.nested hopens hpairs (expect_brace r'), Nat.lt_of_succ_le hmax.le⟩
  | last hopens hpairs hlen hscan hkey _ ih =>
    intro r' hr
    rw [replicate_succ', append_assoc, singleton_append] at hr
    obtain ⟨hvalue, hover⟩ := ih _ hr
    exact ⟨.nested hopens (.snoc hlen hscan hkey hvalue hpairs rfl) (expect_brace r'),
      Nat.lt_of_succ_lt hover⟩

/-- What crosses `max` in a value, or in so many pairs: the value of the last pair. -/
def CrossesIn (m : ℕ) (k : Option ℕ) (r r' : Bytes) : Prop :=
  match k with
  | none => ∃ depth, Crosses m depth r (replicate depth '}'.toUInt8 ++ r')
  | some 0 => r = r'
  | some (n + 1) => ∃ key r1 r2 depth, Spells m (some n) r r1 ∧ m < r1.length ∧
      scan m r1 = some (key, r2) ∧ isKey key ∧
      Crosses m depth r2 (replicate depth '}'.toUInt8 ++ r')

/-- The closing brace of pairs that run over `max` is the next one that is missing. -/
theorem CrossesIn.nested {n : ℕ} (hopens : Opens m n r r1) (hc : CrossesIn m (some n) r1 r2)
    (hbrace : r2 = '}'.toUInt8 :: r') (hover : r2.length < m) : CrossesIn m none r r' := by
  subst hbrace
  cases n with
  | zero =>
    cases hc
    exact ⟨1, .opening hopens hover⟩
  | succ n =>
    obtain ⟨key, r3, r4, depth, hpairs, hlen, hscan, hkey, hcross⟩ := hc
    refine ⟨depth + 1, ?_⟩
    rw [replicate_succ', append_assoc, singleton_append]
    exact .last hopens hpairs hlen hscan hkey hcross

/-- What ends behind `max` crosses it. -/
theorem Spells.crossesIn (hs : Spells m k r r') (hover : r'.length < m) : CrossesIn m k r r' := by
  induction hs with
  | plain hlen hscan hv => exact ⟨0, .token hlen hscan hv hover⟩
  | @nested n r r1 r2 r' hopens hpairs hbrace ih =>
    obtain rfl := expect_eq_some.mp hbrace
    rcases lt_or_eq_of_le (Nat.succ_le_of_lt hover) with hlt | hmax
    · exact (ih hlt).nested hopens rfl hlt
    · exact ⟨1, .closing hopens hpairs hmax⟩
  | custom _ _ _ _ hpos hdata hbrace =>
    -- the brace behind the data of a custom object may be at `max`, but not behind
    have hcons := congrArg length (expect_eq_some.mp hbrace)
    rw [length_drop, length_cons] at hcons
    rw [BitVec.toInt_eq_toNat_cond] at hpos hdata
    omega
  | nil r => rfl
  | @cons n key r r1 r2 r' hlen hscan hkey hvalue hrest ihv ihs =>
    have hc := ihs hover
    cases n with
    | zero =>
      cases hc
      obtain ⟨depth, hcross⟩ := ihv hover
      exact ⟨key, r, r1, depth, .nil r, hlen, hscan, hkey, hcross⟩
    | succ n =>
      obtain ⟨key', r3, r4, depth, hpairs, hlast⟩ := hc
      exact ⟨key', r3, r4, depth, .cons hlen hscan hkey hvalue hpairs, hlast⟩

/-- **The texts that are read past their end.** -/
theorem runsOver_iff (m : ℕ) (r : Bytes) : RunsOver m r ↔ EndsBehind m r := by
  constructor
  · rintro ⟨r', hs, hover⟩
    obtain ⟨depth, hcross⟩ := hs.crossesIn hover
    exact ⟨depth, _, hcross, prefix_append _ _⟩
  · rintro ⟨depth, r1, hcross, r', hr⟩
    exact ⟨r', hcross.spells r' hr.symm⟩

/-- The reader stays before `max` exactly when no value that is spelled runs over it. -/
theorem staysInside_iff_not_runsOver (m : ℕ) (r : Bytes) : StaysInside m r ↔ ¬ RunsOver m r := by
  constructor
  · rintro hinside ⟨r', hs, hover⟩
    obtain ⟨h', hread⟩ := hs.reads (r.length + 1) (Nat.lt_succ_self _) []
    exact absurd (hinside allow r' h' hread).1 (not_le_of_gt hover)
  · intro hover W r' h hread
    obtain ⟨hs, hgrows⟩ := unserializeInternal_sound _ r [] r' h hread
    have hle : m ≤ r'.length := le_of_not_gt fun hlt => hover ⟨r', hs, hlt⟩
    refine ⟨hle, fun e he => ?_⟩
    rcases hgrows e he with hnil | hfit
    · cases hnil
    · exact hfit.mono hle

/-- The reader stays before `max` exactly when the bytes at `max` are not the end of a value that is
begun in front of it. -/
theorem staysInside_iff (m : ℕ) (r : Bytes) : StaysInside m r ↔ ¬ EndsBehind m r :=
  (staysInside_iff_not_runsOver m r).trans (runsOver_iff m r).not

/-- The array `a:0:` in front of `max`, with braces behind: the closing brace at `max` is taken for
the end of the array. -/
theorem staysInside_array : ¬ StaysInside 1 (text ['a', ':', '0', ':', '{', '}']) := by
  intro hinside
  have hread : varUnserialize allow 1 (text ['a', ':', '0', ':', '{', '}'])
      = some ([], [.array 0, .push]) := rfl
  exact absurd (hinside allow _ _ hread).1 (by decide)

end UnserializeRange
