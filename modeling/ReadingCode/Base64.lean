/-
# Base64

`php_base64_encode` writes four characters for three bytes.  `php_base64_decode_ex` puts the bytes
together in the cells of its result, each of them in two steps, and counts in an `int`, which
wraps.
-/
import Mathlib.Tactic.IntervalCases
import ReadingCode.BoundedMemory
import ReadingCode.Bytes

open BoundedMemory

namespace PhpBase64

open List Option

/-! ## The tables -/

/-- `base64_table`, without the NUL in the end. -/
def base64Table : Bytes := [
  65, 66, 67, 68, 69, 70, 71, 72, 73, 74, 75, 76, 77,
  78, 79, 80, 81, 82, 83, 84, 85, 86, 87, 88, 89, 90,
  97, 98, 99, 100, 101, 102, 103, 104, 105, 106, 107, 108, 109,
  110, 111, 112, 113, 114, 115, 116, 117, 118, 119, 120, 121, 122,
  48, 49, 50, 51, 52, 53, 54, 55, 56, 57, 43, 47]

/-- `base64_pad` -/
def base64Pad : UInt8 := 61

/-- `base64_reverse_table`; it is -2 from 128 on. -/
def base64ReverseTable : List ℤ := [
  -2, -2, -2, -2, -2, -2, -2, -2, -2, -1, -1, -2, -2, -1, -2, -2,
  -2, -2, -2, -2, -2, -2, -2, -2, -2, -2, -2, -2, -2, -2, -2, -2,
  -1, -2, -2, -2, -2, -2, -2, -2, -2, -2, -2, 62, -2, -2, -2, 63,
  52, 53, 54, 55, 56, 57, 58, 59, 60, 61, -2, -2, -2, -2, -2, -2,
  -2, 0, 1, 2, 3, 4, 5, 6, 7, 8, 9, 10, 11, 12, 13, 14,
  15, 16, 17, 18, 19, 20, 21, 22, 23, 24, 25, -2, -2, -2, -2, -2,
  -2, 26, 27, 28, 29, 30, 31, 32, 33, 34, 35, 36, 37, 38, 39, 40,
  41, 42, 43, 44, 45, 46, 47, 48, 49, 50, 51, -2, -2, -2, -2, -2] ++ replicate 128 (-2)

/-- `base64_table[k]` -/
def encChar (k : UInt8) : UInt8 := base64Table.getD k.toNat 0

/-- `base64_reverse_table[ch]` -/
def decChar (c : UInt8) : ℤ := base64ReverseTable.getD c.toNat 0

/-! ## The encoder -/

/-- The loop of `php_base64_encode` and what is done for the tail. -/
def encodeLoop : Bytes → Area UInt8 → Option (Area UInt8)
  | x :: y :: z :: s, a => do
    let a ← a.put (encChar (x >>> 2))
    let a ← a.put (encChar (((x &&& 0x03) <<< 4) + (y >>> 4)))
    let a ← a.put (encChar (((y &&& 0x0f) <<< 2) + (z >>> 6)))
    let a ← a.put (encChar (z &&& 0x3f))
    encodeLoop s a
  | [x, y], a => do
    let a ← a.put (encChar (x >>> 2))
    let a ← a.put (encChar (((x &&& 0x03) <<< 4) + (y >>> 4)))
    let a ← a.put (encChar ((y &&& 0x0f) <<< 2))
    a.put base64Pad
  | [x], a => do
    let a ← a.put (encChar (x >>> 2))
    let a ← a.put (encChar ((x &&& 0x03) <<< 4))
    let a ← a.put base64Pad
    a.put base64Pad
  | [], a => some a

/-- `php_base64_encode`; the area has one byte more for the NUL. -/
def encode (s : Bytes) : Option Bytes := do
  let a ← encodeLoop s (Area.alloc ((s.length + 2) / 3 * 4 + 1))
  let _ ← a.put 0
  pure a.written

/-! ## The decoder -/

/-- The `int` that a number becomes. -/
def toInt (n : ℤ) : ℤ := (n + 0x80000000) % 0x100000000 - 0x80000000

/-- The variables of `php_base64_decode_ex`. -/
structure Decoder where
  i : ℤ
  j : ℤ
  padding : ℤ
  result : Bytes

/-- `ZSTR_VAL(result)[j] = x` -/
def setCell (mem : Bytes) (j : ℤ) (x : UInt8) : Option Bytes :=
  if 0 ≤ j then store mem j.toNat x else none

/-- `ZSTR_VAL(result)[j] |= x` -/
def orCell (mem : Bytes) (j : ℤ) (x : UInt8) : Option Bytes := do
  let c ← mem[j.toNat]?
  setCell mem j (c ||| x)

/-- The `switch`, and `i++`; a negative `i` has a negative remainder. -/
def putSextet (d : Decoder) (ch : UInt8) : Option Decoder := do
  let d ← match d.i.tmod 4 with
    | 0 => do
      pure { d with result := ← setCell d.result d.j (ch <<< 2) }
    | 1 => do
      let result ← orCell d.result d.j (ch >>> 4)
      let j := toInt (d.j + 1)
      pure { d with j, result := ← setCell result j ((ch &&& 0x0f) <<< 4) }
    | 2 => do
      let result ← orCell d.result d.j (ch >>> 2)
      let j := toInt (d.j + 1)
      pure { d with j, result := ← setCell result j ((ch &&& 0x03) <<< 6) }
    | 3 => do
      let result ← orCell d.result d.j ch
      pure { d with j := toInt (d.j + 1), result }
    | _ => pure d
  pure { d with i := toInt (d.i + 1) }

/-- A round of the loop. -/
def decodeChar (strict : Bool) (d : Decoder) (c : UInt8) : Except Failure Decoder :=
  if c = base64Pad then
    .ok { d with padding := toInt (d.padding + 1) }
  else
    let ch := decChar c
    if !strict then
      if ch < 0 then .ok d
      else orUndefined (putSextet d (UInt8.ofNat ch.toNat))
    else if ch = -1 then .ok d
    else if ch = -2 ∨ d.padding ≠ 0 then .error .err
    else orUndefined (putSextet d (UInt8.ofNat ch.toNat))

/-- `php_base64_decode_ex`; before it is written the result holds whatever `mem` has. -/
def decodeEx (mem : ℕ → UInt8) (str : Bytes) (strict : Bool) :
    Except Failure Bytes := do
  let d ← str.foldlM (decodeChar strict) ⟨0, 0, 0, (List.range (str.length + 1)).map mem⟩
  if strict ∧ d.i.tmod 4 = 1 then .error .err
  else if strict ∧ d.padding ≠ 0 ∧
      (d.padding > 2 ∨ (toInt (d.i + d.padding)).tmod 4 ≠ 0) then .error .err
  else do
    let result ← orUndefined (setCell d.result d.j 0)
    pure (result.take d.j.toNat)

/-! ## The characters -/

/-- The letters, the digits, `+` and `/`. -/
def IsAlphabet (c : UInt8) : Prop :=
  (65 ≤ c ∧ c ≤ 90) ∨ (97 ≤ c ∧ c ≤ 122) ∨ (48 ≤ c ∧ c ≤ 57) ∨ c = 43 ∨ c = 47

/-- The tabulator, the ends of lines and the space. -/
def IsSpace (c : UInt8) : Prop := c = 9 ∨ c = 10 ∨ c = 13 ∨ c = 32

instance (c : UInt8) : Decidable (IsAlphabet c) := by
  unfold IsAlphabet
  infer_instance

instance (c : UInt8) : Decidable (IsSpace c) := by
  unfold IsSpace
  infer_instance

theorem decChar_cases (c : UInt8) : (IsAlphabet c ∧ c ≠ base64Pad ∧ ¬ IsSpace c ∧ 0 ≤ decChar c) ∨
    (¬ IsAlphabet c ∧ c ≠ base64Pad ∧ IsSpace c ∧ decChar c = -1) ∨
    (¬ IsAlphabet c ∧ c = base64Pad ∧ ¬ IsSpace c ∧ decChar c = -2) ∨
    (¬ IsAlphabet c ∧ c ≠ base64Pad ∧ ¬ IsSpace c ∧ decChar c = -2) := by
  obtain ⟨⟨n⟩⟩ := c
  revert n
  decide +kernel

/-- Six bits that a character stands for. -/
def sextet (c : UInt8) : UInt8 := UInt8.ofNat (decChar c).toNat

/-- A character of the alphabet stands for its place in it. -/
theorem encChar_spec (k : UInt8) (h : k < 64) :
    IsAlphabet (encChar k) ∧ sextet (encChar k) = k := by
  obtain ⟨⟨n⟩⟩ := k
  revert n
  decide +kernel

/-- How many characters of a text are in the alphabet. -/
def alphabetCount (t : Bytes) : ℕ := t.countP fun c => IsAlphabet c

/-- How many are pad characters. -/
def padCount (t : Bytes) : ℕ := t.count base64Pad

/-! ## Bytes from sextets -/

/-- The bytes that are complete, and the cell behind them, when a sextet is added to `i`; where
`i` is negative as an `int` only the first one of four changes a cell. -/
def addSextet (i : ℕ) (out : Bytes) (cell ch : UInt8) : Bytes × UInt8 :=
  if i % 4 = 0 then (out, ch <<< 2)
  else if 2 ^ 31 ≤ i % 2 ^ 32 then (out, cell)
  else match i % 4 with
    | 1 => (out ++ [cell ||| (ch >>> 4)], (ch &&& 0x0f) <<< 4)
    | 2 => (out ++ [cell ||| (ch >>> 2)], (ch &&& 0x03) <<< 6)
    | _ => (out ++ [cell ||| ch], 0)

/-- The sextets of a text are added one after the other. -/
def addSextets : ℕ → Bytes → UInt8 → Bytes → Bytes
  | _, out, _, [] => out
  | i, out, cell, c :: t =>
    if IsAlphabet c then
      addSextets (i + 1) (addSextet i out cell (sextet c)).1 (addSextet i out cell (sextet c)).2 t
    else addSextets i out cell t

/-- How many bytes are complete after `i` sextets. -/
def completed (i : ℕ) : ℕ :=
  3 * 2 ^ 29 * (i / 2 ^ 32) + (min (i % 2 ^ 32) (2 ^ 31) - (min (i % 2 ^ 32) (2 ^ 31) + 3) / 4)

/-- The most sextets after which there are no more complete bytes than an `int` holds. -/
def maxSextets : ℕ := 2 ^ 32 + 715827882

theorem completed_max : completed maxSextets = 2 ^ 31 - 1 := by
  norm_num [completed, maxSextets]

/-- A byte is complete with each sextet but the first of four, unless `i` is negative. -/
theorem completed_succ (i : ℕ) : completed (i + 1) =
    completed i + if i % 4 = 0 ∨ 2 ^ 31 ≤ i % 2 ^ 32 then 0 else 1 := by
  simp only [completed]
  split <;> omega

theorem completed_le (i : ℕ) : completed i ≤ i := by
  simp only [completed]
  omega

theorem completed_lt {i : ℕ} (h : i ≤ maxSextets) : completed i < 2 ^ 31 := by
  simp only [maxSextets] at h
  simp only [completed]
  omega

/-- The decoder after `i` sextets: the bytes that are complete are in front, and the cell behind
them has the bits of the next one.  `size` is the length of the text. -/
structure Holds (size i : ℕ) (d : Decoder) (out : Bytes) (cell : UInt8) : Prop where
  i_eq : d.i = toInt i
  j_eq : d.j = out.length
  length_eq : out.length = completed i
  result : ∃ c rest, d.result = out ++ c :: rest ∧ (i % 4 ≠ 0 → c = cell)
  size_eq : d.result.length = size + 1

theorem setCell_append (out rest : Bytes) (c x : UInt8) :
    setCell (out ++ c :: rest) out.length x = some (out ++ x :: rest) := by
  rw [setCell, if_pos (Int.natCast_nonneg _), Int.toNat_natCast, store_append]

theorem orCell_append (out rest : Bytes) (c x : UInt8) :
    orCell (out ++ c :: rest) out.length x = some (out ++ (c ||| x) :: rest) := by
  rw [orCell, Int.toNat_natCast, getElem?_append_right (Nat.le_refl _), Nat.sub_self]
  exact setCell_append out rest c (c ||| x)

/-- The cell behind the complete bytes is the one that follows. -/
theorem setCell_next (out rest : Bytes) (c r x : UInt8) :
    setCell (out ++ c :: r :: rest) (out.length + 1) x = some ((out ++ [c]) ++ x :: rest) := by
  rw [← setCell_append (out ++ [c]) rest r x, length_append, append_assoc]
  rfl

/-- The next one of an `int`. -/
theorem toInt_succ (i : ℕ) : toInt (toInt i + 1) = toInt (i + 1 : ℕ) := by
  simp only [toInt]
  omega

/-- A small number is an `int`. -/
theorem toInt_of_lt {i : ℕ} (h : i < 2 ^ 31) : toInt i = i := by
  simp only [toInt]
  omega

/-- The place of a sextet among four, as the code has it. -/
theorem tmod_toInt (i : ℕ) : (toInt i).tmod 4 =
    if i % 2 ^ 32 < 2 ^ 31 then ((i % 4 : ℕ) : ℤ) else -(((4 - i % 4) % 4 : ℕ) : ℤ) := by
  split
  · rw [Int.tmod_eq_emod_of_nonneg (by simp only [toInt]; omega)]
    simp only [toInt]
    omega
  · rw [← neg_neg (toInt i), Int.neg_tmod, Int.tmod_eq_emod_of_nonneg (by simp only [toInt]; omega)]
    simp only [toInt]
    omega

variable {d : Decoder} {size i : ℕ} {out : Bytes} {cell : UInt8}

/-- A sextet behind the most that are possible is put in front of the buffer. -/
theorem putSextet_none {ch : UInt8} (h : Holds size maxSextets d out cell) :
    putSextet d ch = none := by
  obtain ⟨i, j, padding, result⟩ := d
  obtain ⟨rfl, rfl, hlen, ⟨c, rest, rfl, -⟩, -⟩ := h
  have h2 : (toInt maxSextets).tmod 4 = 2 := by decide
  have hj : toInt (out.length + 1) = -2 ^ 31 := by
    rw [hlen, completed_max]
    norm_num [toInt]
  simp only [putSextet, h2, orCell_append, hj, setCell, bind_eq_bind, bind_some]
  rfl

/-- A byte is complete. -/
theorem Holds.next {padding : ℤ} {rest : Bytes} {b y : UInt8}
    (hle : out.length + 1 = completed (i + 1))
    (hcell : (i + 1) % 4 ≠ 0 → y = cell) (hlen : out.length + (rest.length + 1 + 1) = size + 1) :
    Holds size (i + 1) ⟨toInt (i + 1 : ℕ), out.length + 1, padding, (out ++ [b]) ++ y :: rest⟩
      (out ++ [b]) cell := by
  refine ⟨rfl, by simp, by simpa using hle, ⟨y, rest, rfl, hcell⟩, ?_⟩
  simp only [length_append, length_cons, length_nil]
  omega

/-- A sextet goes to the cell that its place tells. -/
theorem putSextet_spec (ch : UInt8)
    (h : Holds size i d out cell) (hi : i < maxSextets) (hsize : i < size) :
    ∃ d', putSextet d ch = some d' ∧ d'.padding = d.padding ∧
      Holds size (i + 1) d' (addSextet i out cell ch).1 (addSextet i out cell ch).2 := by
  obtain ⟨i', j, padding, result⟩ := d
  obtain ⟨hi', hj, hle, ⟨c, rest, hresult, hcell⟩, hlen⟩ := h
  simp only at hi' hj hresult hlen
  subst hj hresult
  rw [length_append, length_cons] at hlen
  have hleft := completed_le i
  have hcount := completed_succ i
  have hmax := completed_lt (i := i + 1) hi
  have hplace := tmod_toInt i
  obtain ⟨r, rest, rfl⟩ : ∃ r rest', rest = r :: rest' :=
    exists_cons_of_ne_nil (ne_nil_of_length_pos (by omega))
  by_cases h0 : i % 4 = 0
  · have hadd : addSextet i out cell ch = (out, ch <<< 2) := if_pos h0
    have h4 : (toInt i).tmod 4 = 0 := by rw [hplace]; split <;> omega
    rw [if_pos (.inl h0)] at hcount
    refine ⟨⟨toInt (i + 1 : ℕ), out.length, padding, out ++ (ch <<< 2) :: r :: rest⟩, ?_, rfl, ?_⟩
    · simp [putSextet, hi', h4, setCell_append, toInt_succ]
    · rw [hadd]
      exact ⟨rfl, rfl, hle.trans hcount.symm, ⟨_, _, rfl, fun _ => rfl⟩, by simpa using hlen⟩
  by_cases hneg : 2 ^ 31 ≤ i % 2 ^ 32
  · have hadd : addSextet i out cell ch = (out, cell) := by rw [addSextet, if_neg h0, if_pos hneg]
    have h4 : (toInt i).tmod 4 = -1 ∨ (toInt i).tmod 4 = -2 ∨ (toInt i).tmod 4 = -3 := by
      rw [hplace, if_neg (by omega)]
      omega
    rw [if_pos (.inr hneg)] at hcount
    refine ⟨⟨toInt (i + 1 : ℕ), out.length, padding, out ++ c :: r :: rest⟩, ?_, rfl, ?_⟩
    · rcases h4 with h4 | h4 | h4 <;> simp [putSextet, hi', h4, toInt_succ]
    · rw [hadd]
      exact ⟨rfl, rfl, hle.trans hcount.symm, ⟨_, _, rfl, fun _ => hcell h0⟩, by simpa using hlen⟩
  obtain rfl : c = cell := hcell h0
  rw [if_pos (not_le.1 hneg)] at hplace
  rw [if_neg (by omega)] at hcount
  have hsuccj : toInt (out.length + 1) = out.length + 1 :=
    toInt_of_lt (i := out.length + 1) (by omega)
  have hnext : out.length + 1 = completed (i + 1) := by omega
  have h4 : i % 4 = 1 ∨ i % 4 = 2 ∨ i % 4 = 3 := by omega
  rcases h4 with h4 | h4 | h4 <;> rw [h4] at hplace
  · have hadd : addSextet i out c ch = (out ++ [c ||| (ch >>> 4)], (ch &&& 0x0f) <<< 4) := by
      simp only [addSextet, h4, if_neg hneg, one_ne_zero, if_false]
    refine ⟨⟨toInt (i + 1 : ℕ), out.length + 1, padding,
      (out ++ [c ||| (ch >>> 4)]) ++ ((ch &&& 0x0f) <<< 4) :: rest⟩, ?_, rfl, ?_⟩
    · simp only [putSextet, hi', hplace, Nat.cast_one, orCell_append, hsuccj, setCell_next,
        toInt_succ, bind_eq_bind, bind_some, Option.pure_def]
    · rw [hadd]
      exact .next hnext (fun _ => rfl) hlen
  · have hadd : addSextet i out c ch = (out ++ [c ||| (ch >>> 2)], (ch &&& 0x03) <<< 6) := by
      simp only [addSextet, h4, if_neg hneg, OfNat.ofNat_ne_zero, if_false]
    refine ⟨⟨toInt (i + 1 : ℕ), out.length + 1, padding,
      (out ++ [c ||| (ch >>> 2)]) ++ ((ch &&& 0x03) <<< 6) :: rest⟩, ?_, rfl, ?_⟩
    · simp only [putSextet, hi', hplace, Nat.cast_ofNat, orCell_append, hsuccj, setCell_next,
        toInt_succ, bind_eq_bind, bind_some, Option.pure_def]
    · rw [hadd]
      exact .next hnext (fun _ => rfl) hlen
  · have hadd : addSextet i out c ch = (out ++ [c ||| ch], 0) := by
      simp only [addSextet, h4, if_neg hneg, OfNat.ofNat_ne_zero, if_false]
    refine ⟨⟨toInt (i + 1 : ℕ), out.length + 1, padding, (out ++ [c ||| ch]) ++ r :: rest⟩, ?_, rfl,
      ?_⟩
    · simp only [putSextet, hi', hplace, Nat.cast_ofNat, orCell_append, hsuccj, toInt_succ,
        bind_eq_bind, bind_some, Option.pure_def, append_assoc, singleton_append]
    · rw [hadd]
      exact .next hnext (fun h => absurd (by omega) h) hlen

/-! ## The loop -/

variable {strict : Bool}

theorem decodeChar_pad (d : Decoder) :
    decodeChar strict d base64Pad = .ok { d with padding := toInt (d.padding + 1) } :=
  if_pos rfl

variable {c : UInt8}

theorem decodeChar_alphabet (h : IsAlphabet c) (hpad : strict = true → d.padding = 0) :
    decodeChar strict d c = orUndefined (putSextet d (sextet c)) := by
  rcases decChar_cases c with ⟨-, hne, -, hpos⟩ | ⟨hno, -⟩ | ⟨hno, -⟩ | ⟨hno, -⟩
  · rw [decodeChar, if_neg hne]
    cases strict with
    | false => simp only [Bool.not_false, if_true, if_neg (not_lt.mpr hpos)]; rfl
    | true =>
      simp only [Bool.not_true, Bool.false_eq_true, if_false, hpad rfl, ne_eq, not_true, or_false]
      rw [if_neg (by omega), if_neg (by omega)]
      rfl
  · exact absurd h hno
  · exact absurd h hno
  · exact absurd h hno

/-- What the decoders that are not strict pass over, and space. -/
theorem decodeChar_skip (h : ¬ IsAlphabet c) (hpad : c ≠ base64Pad)
    (hstrict : strict = true → IsSpace c) : decodeChar strict d c = .ok d := by
  rcases decChar_cases c with ⟨hyes, -⟩ | ⟨-, -, -, hch⟩ | ⟨-, rfl, -⟩ | ⟨-, -, hno, hch⟩
  · exact absurd hyes h
  · rw [decodeChar, if_neg hpad, hch]
    cases strict <;> rfl
  · exact absurd rfl hpad
  · cases strict with
    | false => rw [decodeChar, if_neg hpad, hch]; rfl
    | true => exact absurd (hstrict rfl) hno

/-- A character that is not of the text, and one behind a pad character. -/
theorem decodeChar_err (hpad : c ≠ base64Pad) (hspace : ¬ IsSpace c)
    (h : IsAlphabet c → d.padding ≠ 0) : decodeChar true d c = .error .err := by
  rcases decChar_cases c with ⟨hyes, -, -, hpos⟩ | ⟨-, -, hyes, -⟩ | ⟨-, rfl, -⟩ | ⟨-, -, -, hch⟩
  · rw [decodeChar, if_neg hpad]
    have h1 : decChar c ≠ -1 := by omega
    simp [h1, h hyes]
  · exact absurd hyes hspace
  · exact absurd rfl hpad
  · rw [decodeChar, if_neg hpad, hch]
    rfl

theorem alphabetCount_cons (h : IsAlphabet c) (t : Bytes) :
    alphabetCount (c :: t) = alphabetCount t + 1 := by
  simp [alphabetCount, h]

theorem alphabetCount_cons_not (h : ¬ IsAlphabet c) (t : Bytes) :
    alphabetCount (c :: t) = alphabetCount t := by
  simp [alphabetCount, h]

theorem Holds.pad (h : Holds size i d out cell) (padding : ℤ) :
    Holds size i { d with padding } out cell :=
  ⟨h.i_eq, h.j_eq, h.length_eq, h.result, h.size_eq⟩

/-- The loop without `strict` adds the sextets of the text, and has no result when there are more
complete bytes than an `int` holds. -/
theorem foldlM_lenient (t : Bytes) (i : ℕ) (d : Decoder) (out : Bytes) (cell : UInt8)
    (h : Holds size i d out cell) (hsize : i + t.length ≤ size) (hi : i ≤ maxSextets) :
    (i + alphabetCount t ≤ maxSextets → ∃ d' cell', t.foldlM (decodeChar false) d = .ok d' ∧
      Holds size (i + alphabetCount t) d' (addSextets i out cell t) cell') ∧
    (¬ i + alphabetCount t ≤ maxSextets → t.foldlM (decodeChar false) d = .error .undefined) := by
  induction t generalizing i d out cell with
  | nil => exact ⟨fun _ => ⟨d, cell, rfl, h⟩, fun hno => absurd hi hno⟩
  | cons c t ih =>
    rw [length_cons] at hsize
    rw [foldlM_cons, addSextets]
    by_cases hc : IsAlphabet c
    · rw [decodeChar_alphabet hc (by simp), if_pos hc, alphabetCount_cons hc, ← add_assoc,
        add_right_comm]
      rcases hi.lt_or_eq with hmax | rfl
      · obtain ⟨d', hput, -, hd'⟩ := putSextet_spec (sextet c) h hmax (by omega)
        rw [hput]
        exact ih (i + 1) d' _ _ hd' (by omega) hmax
      · rw [putSextet_none h]
        exact ⟨fun hb => by omega, fun _ => rfl⟩
    · rw [alphabetCount_cons_not hc, if_neg hc]
      by_cases hpad : c = base64Pad
      · subst hpad
        rw [decodeChar_pad]
        exact ih i _ out cell (h.pad _) (by omega) hi
      · rw [decodeChar_skip hc hpad (by simp)]
        exact ih i d out cell h (by omega) hi

/-- What `strict` makes of a text: how many pad characters there are, if nothing else is wrong; a
multiple of `m` of them counts as none. -/
def strictScan (m : ℕ) : ℕ → Bytes → Option ℕ
  | p, [] => some p
  | p, c :: t =>
    if c = base64Pad then strictScan m (p + 1) t
    else if IsSpace c then strictScan m p t
    else if IsAlphabet c ∧ p % m = 0 then strictScan m p t
    else none

theorem foldlM_strict (t : Bytes) (i p : ℕ) (d : Decoder) (out : Bytes) (cell : UInt8)
    (h : Holds size i d out cell) (hp : d.padding = toInt p) (hsize : i + t.length ≤ size)
    (hi : i + alphabetCount t ≤ maxSextets) : (∀ p', strictScan (2 ^ 32) p t = some p' → ∃ d' cell',
      t.foldlM (decodeChar true) d = .ok d' ∧ d'.padding = toInt p' ∧
      Holds size (i + alphabetCount t) d' (addSextets i out cell t) cell') ∧
    (strictScan (2 ^ 32) p t = none → t.foldlM (decodeChar true) d = .error .err) := by
  induction t generalizing i p d out cell with
  | nil =>
    exact ⟨fun p' hs => ⟨d, cell, rfl, Option.some.inj hs ▸ hp, h⟩, fun hs => by cases hs⟩
  | cons c t ih =>
    have hzero : d.padding = 0 ↔ p % 2 ^ 32 = 0 := by
      rw [hp]
      simp only [toInt]
      omega
    rw [length_cons] at hsize
    rw [foldlM_cons, addSextets, strictScan]
    by_cases hpad : c = base64Pad
    · subst hpad
      have hno : ¬ IsAlphabet base64Pad := by decide
      rw [alphabetCount_cons_not hno] at hi ⊢
      rw [decodeChar_pad, if_pos rfl, if_neg hno, hp, toInt_succ]
      exact ih i (p + 1) _ out cell (h.pad _) rfl (by omega) hi
    · rw [if_neg hpad]
      by_cases hspace : IsSpace c
      · have hno : ¬ IsAlphabet c := by
          rcases hspace with rfl | rfl | rfl | rfl <;> decide
        rw [alphabetCount_cons_not hno] at hi ⊢
        rw [decodeChar_skip hno hpad (fun _ => hspace), if_pos hspace, if_neg hno]
        exact ih i p d out cell h hp (by omega) hi
      · rw [if_neg hspace]
        by_cases hc : IsAlphabet c ∧ p % 2 ^ 32 = 0
        · rw [alphabetCount_cons hc.1, ← add_assoc, add_right_comm] at hi ⊢
          obtain ⟨d', hput, hd'p, hd'⟩ := putSextet_spec (sextet c) h (by omega) (by omega)
          rw [decodeChar_alphabet hc.1 (fun _ => hzero.2 hc.2), hput, if_pos hc, if_pos hc.1]
          exact ih (i + 1) p d' _ _ hd' (hd'p.trans hp) (by omega) hi
        · rw [if_neg hc, decodeChar_err hpad hspace fun hc' hp' => hc ⟨hc', hzero.1 hp'⟩]
          exact ⟨fun p' hs => absurd hs (by simp), fun _ => rfl⟩

/-- The texts that `strict` asks for: characters of the alphabet and then pad characters, with space
anywhere. -/
def WellFormed (t : Bytes) : Prop :=
  ∃ alpha k, t.filter (fun c => ¬ IsSpace c) = alpha ++ replicate k base64Pad ∧
    (∀ c ∈ alpha, IsAlphabet c) ∧ alpha.length % 4 ≠ 1 ∧
    (k = 0 ∨ (k ≤ 2 ∧ (alpha.length + k) % 4 = 0))

theorem strictScan_iff (t : Bytes) (p p' : ℕ) : strictScan 0 p t = some p' ↔
    ∃ alpha k, t.filter (fun c => ¬ IsSpace c) = alpha ++ replicate k base64Pad ∧
      (∀ c ∈ alpha, IsAlphabet c) ∧ alpha.length = alphabetCount t ∧ (p ≠ 0 → alpha = []) ∧
      p' = p + k := by
  have hpadno : ¬ IsAlphabet base64Pad := by decide
  induction t generalizing p with
  | nil =>
    constructor
    · intro h
      exact ⟨[], 0, rfl, by simp, rfl, fun _ => rfl, (Option.some.inj h).symm⟩
    · rintro ⟨alpha, k, h, -, -, -, rfl⟩
      obtain ⟨-, hk⟩ := append_eq_nil_iff.mp h.symm
      obtain rfl : k = 0 := by simpa using hk
      rfl
  | cons c t ih =>
    rw [strictScan]
    by_cases hpad : c = base64Pad
    · subst hpad
      have hfilter : (base64Pad :: t).filter (fun c => ¬ IsSpace c)
          = base64Pad :: t.filter (fun c => ¬ IsSpace c) := by
        rw [filter_cons_of_pos]
        decide
      rw [hfilter]
      refine (ih (p + 1)).trans ?_
      constructor
      · rintro ⟨alpha, k, h, halpha, hlen, hnil, rfl⟩
        obtain rfl := hnil (Nat.succ_ne_zero p)
        exact ⟨[], k + 1, by rw [h]; rfl, by simp, hlen, fun _ => rfl, by omega⟩
      · rintro ⟨alpha, k, h, halpha, hlen, hnil, rfl⟩
        obtain rfl : alpha = [] := by
          cases alpha with
          | nil => rfl
          | cons a alpha =>
            rw [cons_append, List.cons.injEq] at h
            exact absurd (halpha a mem_cons_self) (h.1 ▸ hpadno)
        cases k with
        | zero => exact absurd h (by simp)
        | succ k =>
          rw [nil_append, replicate_succ, List.cons.injEq] at h
          exact ⟨[], k, h.2, by simp, hlen, fun _ => rfl, by omega⟩
    · rw [if_neg hpad]
      by_cases hspace : IsSpace c
      · have hno : ¬ IsAlphabet c := by
          rcases hspace with rfl | rfl | rfl | rfl <;> decide
        have hcount : alphabetCount (c :: t) = alphabetCount t := by simp [alphabetCount, hno]
        rw [if_pos hspace, hcount, filter_cons_of_neg (by simpa using hspace)]
        exact ih p
      · rw [if_neg hspace, filter_cons_of_pos (by simpa using hspace)]
        by_cases hc : IsAlphabet c
        · have hcount : alphabetCount (c :: t) = alphabetCount t + 1 := by simp [alphabetCount, hc]
          rw [hcount]
          constructor
          · intro h
            obtain ⟨hp, h⟩ : p = 0 ∧ strictScan 0 p t = some p' := by
              split_ifs at h with hcp
              exact ⟨by simpa using hcp.2, h⟩
            obtain ⟨alpha, k, h, halpha, hlen, -, hk⟩ := (ih p).mp h
            refine ⟨c :: alpha, k, by rw [h, cons_append], ?_, by rw [length_cons, hlen],
              fun hne => absurd hp hne, hk⟩
            intro x hx
            rcases mem_cons.mp hx with rfl | hx
            · exact hc
            · exact halpha x hx
          · rintro ⟨alpha, k, h, halpha, hlen, hnil, hk⟩
            cases alpha with
            | nil => exact absurd hlen (by simp)
            | cons a alpha =>
              have hp : p = 0 := by
                by_contra hne
                exact absurd (hnil hne) (by simp)
              rw [cons_append, List.cons.injEq] at h
              rw [if_pos ⟨hc, by rw [hp]⟩]
              exact (ih p).mpr ⟨alpha, k, h.2, fun x hx => halpha x (mem_cons_of_mem _ hx),
                by simpa using hlen, fun hne => absurd hp hne, hk⟩
        · rw [if_neg fun h => hc h.1]
          constructor
          · intro h
            exact absurd h (by simp)
          · rintro ⟨alpha, k, h, halpha, -⟩
            exfalso
            -- a character of neither kind is at the front
            cases alpha with
            | nil =>
              cases k with
              | zero => exact absurd h (by simp)
              | succ k =>
                rw [nil_append, replicate_succ, List.cons.injEq] at h
                exact hpad h.1
            | cons a alpha =>
              rw [cons_append, List.cons.injEq] at h
              exact hc (h.1 ▸ halpha a mem_cons_self)

theorem not_isSpace (h : IsAlphabet c) : ¬ IsSpace c := by
  rintro (rfl | rfl | rfl | rfl)
  · exact absurd h (by decide)
  · exact absurd h (by decide)
  · exact absurd h (by decide)
  · exact absurd h (by decide)

variable {t : Bytes}

theorem length_eq_alphabetCount {alpha : Bytes} {k : ℕ}
    (h : t.filter (fun c => ¬ IsSpace c) = alpha ++ replicate k base64Pad)
    (halpha : ∀ c ∈ alpha, IsAlphabet c) : alpha.length = alphabetCount t := by
  have hsame : alphabetCount t = alphabetCount (t.filter fun c => ¬ IsSpace c) := by
    rw [alphabetCount, alphabetCount, countP_filter]
    congr 1
    funext c
    by_cases hc : IsAlphabet c
    · simp [hc, not_isSpace hc]
    · simp [hc]
  have hpads : (replicate k base64Pad).countP (fun c => IsAlphabet c) = 0 := by
    rw [countP_eq_zero]
    intro c hc
    rw [eq_of_mem_replicate hc]
    decide
  rw [hsame, h, alphabetCount, countP_append, hpads, add_zero, eq_comm, countP_eq_length]
  intro c hc
  simpa using halpha c hc

/-- A text is well formed when nothing is wrong with its characters and their numbers. -/
theorem wellFormed_iff (t : Bytes) : WellFormed t ↔ ∃ p, strictScan 0 0 t = some p ∧
    alphabetCount t % 4 ≠ 1 ∧ (p = 0 ∨ (p ≤ 2 ∧ (alphabetCount t + p) % 4 = 0)) := by
  constructor
  · rintro ⟨alpha, k, h, halpha, h1, hk⟩
    have hlen := length_eq_alphabetCount h halpha
    refine ⟨k, (strictScan_iff t 0 k).mpr ⟨alpha, k, h, halpha, hlen, ?_, (zero_add k).symm⟩,
      hlen ▸ h1, hlen ▸ hk⟩
    exact fun h0 => absurd rfl h0
  · rintro ⟨p, hscan, h1, hp⟩
    obtain ⟨alpha, k, h, halpha, hlen, -, rfl⟩ := (strictScan_iff t 0 p).mp hscan
    rw [zero_add] at hp
    exact ⟨alpha, k, h, halpha, hlen ▸ h1, hlen ▸ hp⟩

/-! ## Any text -/

/-- What the counts make of a text: a multiple of `2 ^ 32` pad characters is none, and a count that
is negative as an `int` is neither one more than a multiple of four nor more than two. -/
def LooksRight (t : Bytes) : Prop :=
  (∀ u c v, t = u ++ c :: v → c = base64Pad ∨ IsSpace c ∨ IsAlphabet c ∧ 2 ^ 32 ∣ padCount u) ∧
    (alphabetCount t % 4 ≠ 1 ∨ 2 ^ 31 ≤ alphabetCount t % 2 ^ 32) ∧
    (2 ^ 32 ∣ padCount t ∨ (padCount t % 2 ^ 32 ≤ 2 ∨ 2 ^ 31 ≤ padCount t % 2 ^ 32) ∧
      4 ∣ alphabetCount t + padCount t)

/-- What the code finds on its way through a text. -/
theorem strictScan_code (t : Bytes) (p p' : ℕ) : strictScan (2 ^ 32) p t = some p' ↔
    (∀ u c v, t = u ++ c :: v →
      c = base64Pad ∨ IsSpace c ∨ IsAlphabet c ∧ 2 ^ 32 ∣ p + padCount u) ∧
    p' = p + padCount t := by
  induction t generalizing p with
  | nil => simp [strictScan, padCount, eq_comm]
  | cons a t ih =>
    -- the first character, and the others behind it
    have hsplit : (∀ u c v, a :: t = u ++ c :: v →
        c = base64Pad ∨ IsSpace c ∨ IsAlphabet c ∧ 2 ^ 32 ∣ p + padCount u) ↔
        (a = base64Pad ∨ IsSpace a ∨ IsAlphabet a ∧ 2 ^ 32 ∣ p) ∧
          ∀ u c v, t = u ++ c :: v →
            c = base64Pad ∨ IsSpace c ∨ IsAlphabet c ∧ 2 ^ 32 ∣ p + padCount (a :: u) := by
      constructor
      · intro h
        exact ⟨h [] a t rfl, fun u c v hv => h (a :: u) c v (by rw [hv]; rfl)⟩
      · rintro ⟨h1, h2⟩ u c v hv
        cases u with
        | nil =>
          obtain ⟨rfl, rfl⟩ := List.cons.inj hv
          exact h1
        | cons b u =>
          obtain ⟨rfl, rfl⟩ := List.cons.inj hv
          exact h2 u c v rfl
    rw [hsplit, strictScan]
    by_cases hpad : a = base64Pad
    · subst hpad
      have hcount : ∀ u, padCount (base64Pad :: u) = padCount u + 1 := fun u => count_cons_self
      simp only [if_true, ih, hcount, true_or, true_and, add_assoc, add_comm 1]
    · have hcount : ∀ u, padCount (a :: u) = padCount u := fun u => count_cons_of_ne hpad
      rw [if_neg hpad]
      simp only [hcount, hpad, false_or, and_assoc]
      by_cases hspace : IsSpace a
      · rw [if_pos hspace, ih]
        simp only [hspace, true_or, true_and]
      · by_cases hc : IsAlphabet a ∧ p % 2 ^ 32 = 0
        · rw [if_neg hspace, if_pos hc, ih]
          simp only [hc.1, Nat.dvd_of_mod_eq_zero hc.2, and_self, or_true, true_and]
        · rw [if_neg hspace, if_neg hc, Nat.dvd_iff_mod_eq_zero]
          simp only [hspace, hc, false_or, false_and, reduceCtorEq]

theorem strictScan_mono {m : ℕ} (t : Bytes) (p p' : ℕ) (h : strictScan 0 p t = some p') :
    strictScan m p t = some p' := by
  induction t generalizing p with
  | nil => exact h
  | cons c t ih =>
    rw [strictScan] at h ⊢
    split_ifs at h with h1 h2 h3
    · rw [if_pos h1, ih _ h]
    · rw [if_neg h1, if_pos h2, ih _ h]
    · obtain rfl : p = 0 := by simpa using h3.2
      rw [if_neg h1, if_neg h2, if_pos ⟨h3.1, Nat.zero_mod m⟩, ih _ h]

theorem strictScan_of_lt (t : Bytes) (p p' : ℕ) (h : strictScan (2 ^ 32) p t = some p')
    (hlt : p' < 2 ^ 32) : strictScan 0 p t = some p' := by
  induction t generalizing p with
  | nil => exact h
  | cons c t ih =>
    rw [strictScan] at h ⊢
    split_ifs at h with h1 h2 h3
    · rw [if_pos h1, ih _ h]
    · rw [if_neg h1, if_pos h2, ih _ h]
    · have hsum := ((strictScan_code t p p').1 h).2
      have hmod := h3.2
      obtain rfl : p = 0 := by omega
      rw [if_neg h1, if_neg h2, if_pos ⟨h3.1, rfl⟩, ih _ h]

/-- A text that is well formed looks right. -/
theorem WellFormed.looksRight (h : WellFormed t) : LooksRight t := by
  obtain ⟨p, hscan, h1, hp⟩ := (wellFormed_iff t).1 h
  obtain ⟨hchars, rfl⟩ := (strictScan_code t 0 p).1 (strictScan_mono t 0 p hscan)
  simp only [zero_add] at hchars hp
  exact ⟨hchars, .inl h1, by omega⟩

theorem holds_start (mem : ℕ → UInt8) (n : ℕ) :
    Holds n 0 ⟨0, 0, 0, (List.range (n + 1)).map mem⟩ [] 0 := by
  refine ⟨rfl, rfl, rfl, ⟨mem 0, ((List.range n).map Nat.succ).map mem, ?_, ?_⟩, by simp⟩
  · rw [range_succ_eq_map]
    rfl
  · intro h
    exact absurd rfl h

/-- The string in the end. -/
theorem setCell_nul (h : Holds size i d out cell) :
    ∃ result, setCell d.result d.j 0 = some result ∧ result.take d.j.toNat = out := by
  obtain ⟨c, rest, hresult, -⟩ := h.result
  refine ⟨out ++ 0 :: rest, ?_, ?_⟩
  · rw [hresult, h.j_eq, setCell_append]
  · rw [h.j_eq, Int.toNat_natCast, take_left]

/-- Without `strict` all sextets are put together, as long as the bytes can be counted. -/
theorem decodeEx_lenient (mem : ℕ → UInt8) (t : Bytes) :
    (alphabetCount t ≤ maxSextets → decodeEx mem t false = .ok (addSextets 0 [] 0 t) ∧
      (addSextets 0 [] 0 t).length = completed (alphabetCount t)) ∧
    (¬ alphabetCount t ≤ maxSextets → decodeEx mem t false = .error .undefined) := by
  have hloop := foldlM_lenient t 0 _ [] 0 (holds_start mem t.length) (by simp) (Nat.zero_le _)
  simp only [Nat.zero_add] at hloop
  constructor
  · intro h
    obtain ⟨d, cell, hrun, hd⟩ := hloop.1 h
    obtain ⟨result, hstore, htake⟩ := setCell_nul hd
    refine ⟨?_, hd.length_eq⟩
    simp only [decodeEx, hrun, bind, Except.bind, hstore, orUndefined, pure, Except.pure, htake,
      Bool.false_eq_true, false_and, if_false]
  · intro h
    simp only [decodeEx, hloop.2 h, bind, Except.bind]

/-- With `strict` the text that looks right is decoded, and another one is an error. -/
theorem decodeEx_strict (mem : ℕ → UInt8) (t : Bytes) (h : alphabetCount t ≤ maxSextets) :
    (LooksRight t → decodeEx mem t true = .ok (addSextets 0 [] 0 t)) ∧
      (¬ LooksRight t → decodeEx mem t true = .error .err) := by
  have hloop := foldlM_strict t 0 0 _ [] 0 (holds_start mem t.length) rfl (by simp)
    (by simpa using h)
  have hscan := strictScan_code t 0
  simp only [zero_add] at hloop hscan
  cases hs : strictScan (2 ^ 32) 0 t with
  | none =>
    have herr : decodeEx mem t true = .error .err := by
      simp only [decodeEx, hloop.2 hs, bind, Except.bind]
    refine ⟨fun hl => ?_, fun _ => herr⟩
    rw [(hscan _).2 ⟨hl.1, rfl⟩] at hs
    cases hs
  | some p =>
    obtain ⟨hchars, rfl⟩ := (hscan p).1 hs
    obtain ⟨d, cell, hrun, hpadding, hd⟩ := hloop.1 _ hs
    obtain ⟨result, hstore, htake⟩ := setCell_nul hd
    have h1 : d.i.tmod 4 = 1 ↔
        ¬ (alphabetCount t % 4 ≠ 1 ∨ 2 ^ 31 ≤ alphabetCount t % 2 ^ 32) := by
      rw [hd.i_eq, tmod_toInt]
      split <;> omega
    have hsum : toInt (d.i + d.padding) = toInt (alphabetCount t + padCount t : ℕ) := by
      rw [hd.i_eq, hpadding]
      simp only [toInt]
      omega
    have h2 : (d.padding ≠ 0 ∧ (d.padding > 2 ∨ (toInt (d.i + d.padding)).tmod 4 ≠ 0)) ↔
        ¬ (2 ^ 32 ∣ padCount t ∨ (padCount t % 2 ^ 32 ≤ 2 ∨ 2 ^ 31 ≤ padCount t % 2 ^ 32) ∧
          4 ∣ alphabetCount t + padCount t) := by
      have h4 : (toInt (d.i + d.padding)).tmod 4 ≠ 0 ↔ ¬ 4 ∣ alphabetCount t + padCount t := by
        rw [hsum, tmod_toInt]
        split <;> omega
      rw [h4, hpadding]
      simp only [toInt]
      omega
    simp only [decodeEx, hrun, bind, Except.bind, hstore, orUndefined, pure, Except.pure, htake,
      true_and, h1, h2]
    constructor
    · rintro ⟨-, hi, hp⟩
      rw [if_neg (not_not.2 hi), if_neg (not_not.2 hp)]
    · intro hno
      by_cases hi : alphabetCount t % 4 ≠ 1 ∨ 2 ^ 31 ≤ alphabetCount t % 2 ^ 32
      · rw [if_neg (not_not.2 hi), if_pos fun hp => hno ⟨hchars, hi, hp⟩]
      · rw [if_pos hi]

/-! ## The round trip -/

/-- The characters for three bytes. -/
def groupText (x y z : UInt8) : Bytes :=
  [encChar (x >>> 2), encChar (((x &&& 0x03) <<< 4) + (y >>> 4)),
    encChar (((y &&& 0x0f) <<< 2) + (z >>> 6)), encChar (z &&& 0x3f)]

/-- The text for a string. -/
def encText : Bytes → Bytes
  | x :: y :: z :: s => groupText x y z ++ encText s
  | [x, y] => [encChar (x >>> 2), encChar (((x &&& 0x03) <<< 4) + (y >>> 4)),
      encChar ((y &&& 0x0f) <<< 2), base64Pad]
  | [x] => [encChar (x >>> 2), encChar ((x &&& 0x03) <<< 4), base64Pad, base64Pad]
  | [] => []

theorem encodeLoop_eq (s : Bytes) (a : Area UInt8) : encodeLoop s a = a.putAll (encText s) := by
  induction s using encText.induct generalizing a with
  | case1 x y z s ih =>
    simp only [encodeLoop, encText, groupText, Area.putAll_append, Area.putAll, bind_eq_bind,
      bind_assoc, bind_some, ih]
  | case2 x y =>
    simp only [encodeLoop, encText, Area.putAll, bind_eq_bind, bind_fun_some]
  | case3 x =>
    simp only [encodeLoop, encText, Area.putAll, bind_eq_bind, bind_fun_some]
  | case4 => rfl

theorem length_encText (s : Bytes) : (encText s).length = (s.length + 2) / 3 * 4 := by
  induction s using encText.induct with
  | case1 x y z s ih =>
    rw [encText, length_append, groupText]
    simp only [length_cons, length_nil]
    omega
  | case2 x y => simp [encText]
  | case3 x => simp [encText]
  | case4 => rfl

/-- The text fits the area. -/
theorem encode_eq (s : Bytes) : encode s = some (encText s) := by
  have hlen := length_encText s
  rw [encode, encodeLoop_eq, Area.putAll_of_le _ _ (by simp only [Area.alloc]; omega)]
  simp only [Area.alloc, hlen, Nat.add_sub_cancel_left]
  rfl

theorem add_eq_or (x y : UInt8) :
    ((x &&& 0x03) <<< 4) + (y >>> 4) = ((x &&& 0x03) <<< 4) ||| (y >>> 4) ∧
      ((x &&& 0x0f) <<< 2) + (y >>> 6) = ((x &&& 0x0f) <<< 2) ||| (y >>> 6) := by
  constructor
  · apply UInt8.eq_of_toBitVec_eq
    apply BitVec.add_eq_or_of_and_eq_zero
    ext i hi
    interval_cases i <;> simp
  · apply UInt8.eq_of_toBitVec_eq
    apply BitVec.add_eq_or_of_and_eq_zero
    ext i hi
    interval_cases i <;> simp

theorem sextet_bounds (x : UInt8) : x >>> 2 < 64 ∧ x &&& 0x3f < 64 ∧
    ((x &&& 0x03) <<< 4).toNat ≤ 48 ∧ (x >>> 4).toNat ≤ 15 ∧
    ((x &&& 0x0f) <<< 2).toNat ≤ 60 ∧ (x >>> 6).toNat ≤ 3 := by
  obtain ⟨⟨n⟩⟩ := x
  revert n
  decide +kernel

/-- The sextets of a group, and what is put together of them. -/
theorem second_lt (x y : UInt8) : ((x &&& 0x03) <<< 4) + (y >>> 4) < 64 := by
  obtain ⟨-, -, hx, -⟩ := sextet_bounds x
  obtain ⟨-, -, -, hy, -⟩ := sextet_bounds y
  rw [UInt8.lt_iff_toNat_lt, UInt8.toNat_add]
  have h64 : (64 : UInt8).toNat = 64 := rfl
  omega

theorem third_lt (x y : UInt8) : ((x &&& 0x0f) <<< 2) + (y >>> 6) < 64 := by
  obtain ⟨-, -, -, -, hx, -⟩ := sextet_bounds x
  obtain ⟨-, -, -, -, -, hy⟩ := sextet_bounds y
  rw [UInt8.lt_iff_toNat_lt, UInt8.toNat_add]
  have h64 : (64 : UInt8).toNat = 64 := rfl
  omega

theorem join_first (x y : UInt8) :
    (x >>> 2) <<< 2 ||| (((x &&& 0x03) <<< 4) + (y >>> 4)) >>> 4 = x := by
  rw [(add_eq_or x y).1]
  apply UInt8.eq_of_toBitVec_eq
  ext i hi
  interval_cases i <;> simp

theorem join_second (x y z : UInt8) : ((((x &&& 0x03) <<< 4) + (y >>> 4)) &&& 0x0f) <<< 4 |||
      (((y &&& 0x0f) <<< 2) + (z >>> 6)) >>> 2 = y := by
  rw [(add_eq_or x y).1, (add_eq_or y z).2]
  apply UInt8.eq_of_toBitVec_eq
  ext i hi
  interval_cases i <;> simp

theorem join_third (y z : UInt8) :
    ((((y &&& 0x0f) <<< 2) + (z >>> 6)) &&& 0x03) <<< 6 ||| (z &&& 0x3f) = z := by
  rw [(add_eq_or y z).2]
  apply UInt8.eq_of_toBitVec_eq
  ext i hi
  interval_cases i <;> simp

theorem addSextets_encChar {k : UInt8} (h : k < 64) : addSextets i out cell (encChar k :: t) =
      addSextets (i + 1) (addSextet i out cell k).1 (addSextet i out cell k).2 t := by
  obtain ⟨hk, hsextet⟩ := encChar_spec k h
  rw [addSextets, if_pos hk, hsextet]

theorem addSextets_pad : addSextets i out cell (base64Pad :: t) = addSextets i out cell t := by
  rw [addSextets, if_neg (by decide)]

/-- The first three characters of a group give two bytes. -/
theorem addSextets_three (hi : i % 4 = 0) (hmax : i + 3 ≤ 2 ^ 31) (x y z : UInt8) (out : Bytes)
    (cell : UInt8) (t : Bytes) :
    addSextets i out cell (encChar (x >>> 2) :: encChar (((x &&& 0x03) <<< 4) + (y >>> 4)) ::
      encChar (((y &&& 0x0f) <<< 2) + (z >>> 6)) :: t) =
    addSextets (i + 3) (out ++ [x, y]) (((((y &&& 0x0f) <<< 2) + (z >>> 6)) &&& 0x03) <<< 6) t := by
  have h1 : (i + 1) % 4 = 1 := by omega
  have h2 : (i + 1 + 1) % 4 = 2 := by omega
  have hn1 : ¬ 2 ^ 31 ≤ (i + 1) % 2 ^ 32 := by omega
  have hn2 : ¬ 2 ^ 31 ≤ (i + 1 + 1) % 2 ^ 32 := by omega
  rw [addSextets_encChar (sextet_bounds x).1, addSextets_encChar (second_lt x y),
    addSextets_encChar (third_lt y z)]
  simp only [addSextet, hi, h1, h2, if_neg hn1, if_neg hn2, join_first, join_second, append_assoc,
    cons_append, nil_append, if_true, one_ne_zero, OfNat.ofNat_ne_zero, if_false]

/-- What is decoded of the text is the string, as long as `i` does not wrap before its end. -/
theorem addSextets_encText (s : Bytes) : ∀ (i : ℕ) (out : Bytes) (cell : UInt8),
    i % 4 = 0 → 3 * i + 4 * s.length ≤ 3 * 2 ^ 31 →
    addSextets i out cell (encText s) = out ++ s := by
  induction s using encText.induct with
  | case1 x y z s ih =>
    intro i out cell hi hmax
    rw [length_cons, length_cons, length_cons] at hmax
    have h3 : (i + 3) % 4 = 3 := by omega
    have hn3 : ¬ 2 ^ 31 ≤ (i + 3) % 2 ^ 32 := by omega
    rw [encText, groupText]
    simp only [cons_append, nil_append]
    rw [addSextets_three hi (by omega), addSextets_encChar (sextet_bounds z).2.1]
    simp only [addSextet, h3, if_neg hn3, join_third, OfNat.ofNat_ne_zero, if_false]
    rw [ih (i + 3 + 1) _ _ (by omega) (by omega)]
    simp only [append_assoc, cons_append, nil_append]
  | case2 x y =>
    intro i out cell hi hmax
    rw [length_cons, length_cons] at hmax
    have h0 : (y &&& 0x0f) <<< 2 = ((y &&& 0x0f) <<< 2) + ((0 : UInt8) >>> 6) := by simp
    rw [encText, h0, addSextets_three hi (by omega), addSextets_pad, addSextets]
  | case3 x =>
    intro i out cell hi hmax
    rw [length_singleton] at hmax
    have h1 : (i + 1) % 4 = 1 := by omega
    have hn1 : ¬ 2 ^ 31 ≤ (i + 1) % 2 ^ 32 := by omega
    have h0 : (x &&& 0x03) <<< 4 = ((x &&& 0x03) <<< 4) + ((0 : UInt8) >>> 4) := by simp
    rw [encText, h0, addSextets_encChar (sextet_bounds x).1, addSextets_encChar (second_lt x 0),
      addSextets_pad, addSextets_pad, addSextets]
    simp only [addSextet, hi, h1, if_neg hn1, join_first, if_true, one_ne_zero, if_false]
  | case4 =>
    intro i out cell hi _
    rw [encText, addSextets, append_nil]

/-- The text is characters of the alphabet and at most two pad characters. -/
theorem encText_spec (s : Bytes) : ∃ alpha k, encText s = alpha ++ replicate k base64Pad ∧
    (∀ c ∈ alpha, IsAlphabet c) ∧ alpha.length = (4 * s.length + 2) / 3 ∧ k ≤ 2 ∧
      (alpha.length + k) % 4 = 0 := by
  have hchar : ∀ k : UInt8, k < 64 → IsAlphabet (encChar k) := fun k hk => (encChar_spec k hk).1
  induction s using encText.induct with
  | case1 x y z s ih =>
    obtain ⟨alpha, k, htext, halpha, hlen, hk, hmod⟩ := ih
    refine ⟨groupText x y z ++ alpha, k, by rw [encText, htext, append_assoc], ?_, ?_, hk, ?_⟩
    · intro c hc
      rcases mem_append.mp hc with hc | hc
      · simp only [groupText, mem_cons, not_mem_nil, or_false] at hc
        rcases hc with rfl | rfl | rfl | rfl
        · exact hchar _ (sextet_bounds x).1
        · exact hchar _ (second_lt x y)
        · exact hchar _ (third_lt y z)
        · exact hchar _ (sextet_bounds z).2.1
      · exact halpha c hc
    · simp only [length_append, groupText, length_cons, length_nil, hlen]
      omega
    · simp only [length_append, groupText, length_cons, length_nil]
      omega
  | case2 x y =>
    have h0 : (y &&& 0x0f) <<< 2 = ((y &&& 0x0f) <<< 2) + ((0 : UInt8) >>> 6) := by simp
    refine ⟨[encChar (x >>> 2), encChar (((x &&& 0x03) <<< 4) + (y >>> 4)),
      encChar ((y &&& 0x0f) <<< 2)], 1, rfl, ?_, by simp, by omega, by simp⟩
    intro c hc
    simp only [mem_cons, not_mem_nil, or_false] at hc
    rcases hc with rfl | rfl | rfl
    · exact hchar _ (sextet_bounds x).1
    · exact hchar _ (second_lt x y)
    · exact hchar _ (h0 ▸ third_lt y 0)
  | case3 x =>
    have h0 : (x &&& 0x03) <<< 4 = ((x &&& 0x03) <<< 4) + ((0 : UInt8) >>> 4) := by simp
    refine ⟨[encChar (x >>> 2), encChar ((x &&& 0x03) <<< 4)], 2, rfl, ?_, by simp, by omega,
      by simp⟩
    intro c hc
    simp only [mem_cons, not_mem_nil, or_false] at hc
    rcases hc with rfl | rfl
    · exact hchar _ (sextet_bounds x).1
    · exact hchar _ (h0 ▸ second_lt x 0)
  | case4 => exact ⟨[], 0, rfl, by simp, rfl, by omega, rfl⟩

/-- The text of a string is well formed, and has four characters of the alphabet for three bytes. -/
theorem wellFormed_encText (s : Bytes) : WellFormed (encText s) ∧
    alphabetCount (encText s) = (4 * s.length + 2) / 3 ∧ padCount (encText s) ≤ 2 := by
  obtain ⟨alpha, k, htext, halpha, hlen, hk, hmod⟩ := encText_spec s
  have hfilter : (encText s).filter (fun c => ¬ IsSpace c)
      = alpha ++ replicate k base64Pad := by
    rw [htext, filter_eq_self]
    intro c hc
    rcases mem_append.mp hc with hc | hc
    · simpa using not_isSpace (halpha c hc)
    · rw [eq_of_mem_replicate hc]
      decide
  refine ⟨⟨alpha, k, hfilter, halpha, by omega, by omega⟩, ?_, ?_⟩
  · rw [← length_eq_alphabetCount hfilter halpha, hlen]
  · have hnone : alpha.count base64Pad = 0 := by
      rw [count_eq_zero]
      intro hmem
      exact absurd (halpha _ hmem) (by decide)
    rw [padCount, htext, count_append, count_replicate_self]
    omega

/-! ## When the decoder is right -/

/-- The string is read back, with and without `strict`. -/
def RoundTrip (s : Bytes) : Prop :=
  ∃ t, encode s = some t ∧ ∀ (mem : ℕ → UInt8) (strict : Bool), decodeEx mem t strict = .ok s

/-- The decoder writes inside of its buffer only, and with `strict` it is successful just when the
text is well formed. -/
def Accepts (t : Bytes) : Prop :=
  ∀ mem : ℕ → UInt8, (∀ strict, decodeEx mem t strict ≠ .error .undefined) ∧
    ((∃ r, decodeEx mem t true = .ok r) ↔ WellFormed t)

theorem roundTrip_iff (s : Bytes) : RoundTrip s ↔ s.length ≤ 3 * 2 ^ 29 := by
  obtain ⟨hwf, hcount, -⟩ := wellFormed_encText s
  constructor
  · rintro ⟨t, ht, hdecode⟩
    obtain rfl := Option.some.inj ((encode_eq s).symm.trans ht)
    have hs := hdecode (fun _ => 0) false
    by_contra hlong
    obtain ⟨hyes, hno⟩ := decodeEx_lenient (fun _ => 0) (encText s)
    by_cases hmax : alphabetCount (encText s) ≤ maxSextets
    · -- some bytes are dropped while `i` is negative
      obtain ⟨heq, hlen⟩ := hyes hmax
      rw [heq] at hs
      rw [Except.ok.inj hs, hcount] at hlen
      simp only [maxSextets, hcount] at hmax
      simp only [completed] at hlen
      omega
    · rw [hno hmax] at hs
      exact absurd hs (by simp)
  · intro hshort
    have hmax : alphabetCount (encText s) ≤ maxSextets := by
      simp only [maxSextets]
      omega
    have hsum : addSextets 0 [] 0 (encText s) = s :=
      addSextets_encText s 0 [] 0 rfl (by omega)
    refine ⟨encText s, encode_eq s, fun mem strict => ?_⟩
    cases strict with
    | false => rw [((decodeEx_lenient mem _).1 hmax).1, hsum]
    | true => rw [(decodeEx_strict mem _ hmax).1 hwf.looksRight, hsum]

theorem accepts_iff (t : Bytes) :
    Accepts t ↔ alphabetCount t ≤ maxSextets ∧ (LooksRight t → WellFormed t) := by
  constructor
  · intro h
    have hmax : alphabetCount t ≤ maxSextets := by
      by_contra hno
      exact (h fun _ => 0).1 false ((decodeEx_lenient _ _).2 hno)
    exact ⟨hmax, fun hl => (h fun _ => 0).2.1 ⟨_, (decodeEx_strict _ t hmax).1 hl⟩⟩
  · rintro ⟨hmax, hright⟩ mem
    obtain ⟨hyes, hno⟩ := decodeEx_strict mem t hmax
    have hlenient := ((decodeEx_lenient mem t).1 hmax).1
    by_cases hl : LooksRight t
    · refine ⟨fun strict => ?_, fun _ => hright hl, fun _ => ⟨_, hyes hl⟩⟩
      cases strict with
      | false => rw [hlenient]; simp
      | true => rw [hyes hl]; simp
    · refine ⟨fun strict => ?_, fun ⟨r, hr⟩ => ?_, fun h => absurd h.looksRight hl⟩
      · cases strict with
        | false => rw [hlenient]; simp
        | true => rw [hno hl]; simp
      · rw [hno hl] at hr
        exact absurd hr (by simp)

/-- The decoder gives back the strings whose texts have no more than `2 ^ 31` characters of the
alphabet.  It does what it should with a text unless there are more complete bytes than an `int`
holds or the counts, as they wrap, make a text look right that is not. -/
theorem decode_encode_iff (s t : Bytes) : RoundTrip s ∧ Accepts t ↔
    s.length ≤ 3 * 2 ^ 29 ∧ alphabetCount t ≤ 2 ^ 32 + 715827882 ∧
      (LooksRight t → WellFormed t) := by
  rw [roundTrip_iff, accepts_iff]
  rfl

/-- A text with no more than `2 ^ 31` characters of the alphabet and fewer pad characters does not
look right if it is not. -/
theorem wellFormed_of_counts (h : LooksRight t) (ha : alphabetCount t ≤ 2 ^ 31)
    (hp : padCount t < 2 ^ 31) : WellFormed t := by
  obtain ⟨hchars, h1, h2⟩ := h
  have hscan := (strictScan_code t 0 (padCount t)).2 (by simpa using hchars)
  exact (wellFormed_iff t).2 ⟨padCount t, strictScan_of_lt t 0 _ hscan (by omega), by omega,
    by omega⟩

/-- Of `3 * 2 ^ 29 + 3` zeros the last three are not read back. -/
theorem not_roundTrip_zeros : ¬ RoundTrip (replicate (3 * 2 ^ 29 + 3) 0) := by
  rw [roundTrip_iff, length_replicate]
  omega

end PhpBase64
