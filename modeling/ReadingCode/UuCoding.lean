/-
# uuencode

`php_uuencode` writes lines of 45 bytes, each with its length in front and three bytes as four
characters.  `php_uudecode` believes the length and goes on in groups of four.  Only six bits of a
character count, so that `char` may be taken as unsigned.
-/
import Mathlib.Tactic.IntervalCases
import ReadingCode.BoundedMemory
import ReadingCode.Bytes

open BoundedMemory

namespace PhpUu

open List Option Function

/-! ## The encoder -/

/-- `PHP_UU_ENC` -/
def uuEnc (c : UInt8) : UInt8 := if c ≠ 0 then (c &&& 0o77) + 32 else 96

/-- `PHP_UU_ENC_C2`, of the bytes at `c` and `c + 1` -/
def uuEncC2 (c c' : UInt8) : UInt8 :=
  uuEnc (((c <<< 4) &&& (0o60 : UInt8)) ||| ((c' >>> 4) &&& (0o17 : UInt8)))

/-- `PHP_UU_ENC_C3`, of the bytes at `c + 1` and `c + 2` -/
def uuEncC3 (c' c'' : UInt8) : UInt8 :=
  uuEnc (((c' <<< 2) &&& (0o74 : UInt8)) ||| ((c'' >>> 6) &&& (3 : UInt8)))

/-- `PHP_UU_DEC` -/
def uuDec (c : UInt8) : UInt8 := (c - 32) &&& 0o77

/-- The byte `k` places behind the cursor; behind the string is its NUL. -/
def byteAt (s : Bytes) (k : ℕ) : Option UInt8 := (s ++ [0])[k]?

/-- The loop over the groups of a line, `left` bytes of which are to be written. -/
def encodeGroups : Bytes → ℕ → Area UInt8 → Option (Bytes × Area UInt8)
  | s, 0, a => some (s, a)
  | x :: y :: z :: s, left + 1, a => do
    let a ← a.put (uuEnc (x >>> 2))
    let a ← a.put (uuEncC2 x y)
    let a ← a.put (uuEncC3 y z)
    let a ← a.put (uuEnc (z &&& 0o77))
    encodeGroups s (left + 1 - 3) a
  | _, _ + 1, _ => none

/-- The bytes to be encoded, the length of the line, and what was written. -/
structure Encoder where
  s : Bytes
  len : ℕ
  a : Area UInt8

/-- A round of the loop over the lines. -/
def encodeLine (st : Encoder) : Option Encoder := do
  let len := if st.s.length < st.len then st.s.length else st.len
  let left := if st.s.length < st.len ∧ len % 3 ≠ 0 then len / 3 * 3 else len
  let a ← st.a.put (uuEnc (UInt8.ofNat len))
  let (s, a) ← encodeGroups st.s left a
  let a ← if len = 45 then a.put 10 else some a
  pure { s, len, a }

/-- `while ((s + 3) < e)` -/
def encodeLines : Loop Encoder where
  guard st := 3 < st.s.length
  body := encodeLine

/-- The bytes that are left, of which there are three at most, with a line of their own if none has
begun. -/
def encodeTail (st : Encoder) : Option Encoder :=
  if st.s = [] then some st
  else do
    let a ← if st.len = 45 then st.a.put (uuEnc (UInt8.ofNat st.s.length)) else some st.a
    let len := if st.len = 45 then 0 else st.len
    let x ← byteAt st.s 0
    let y ← byteAt st.s 1
    let a ← a.put (uuEnc (x >>> 2))
    let a ← a.put (uuEncC2 x y)
    let a ← if 1 < st.s.length then do a.put (uuEncC3 y (← byteAt st.s 2)) else a.put (uuEnc 0)
    let a ← if 2 < st.s.length then do a.put (uuEnc ((← byteAt st.s 2) &&& 0o77))
      else a.put (uuEnc 0)
    pure { st with len, a }

/-- `php_uuencode`; the area of `zend_string_safe_alloc` has a byte more for the NUL. -/
def uuencode (src : Bytes) : Option Bytes := do
  let st ← encodeLines.run src.length ⟨src, 45, Area.alloc (src.length / 2 * 3 + 46 + 1)⟩
  let st ← encodeTail st
  let a ← if st.len < 45 then st.a.put 10 else some st.a
  let a ← a.put (uuEnc 0)
  let a ← a.put 10
  let _ ← a.put 0
  pure a.written

/-! ## The decoder -/

/-- The loop over the groups of a line, `left` characters of which are to be read; a group that the
text ends in is an error. -/
def decodeGroups : Bytes → ℕ → Area UInt8 → Except Failure (Bytes × Area UInt8)
  | s, 0, a => .ok (s, a)
  | w :: x :: y :: z :: s, left + 1, a => do
    let a ← orUndefined (a.put (uuDec w <<< 2 ||| uuDec x >>> 4))
    let a ← orUndefined (a.put (uuDec x <<< 4 ||| uuDec y >>> 2))
    let a ← orUndefined (a.put (uuDec y <<< 6 ||| uuDec z))
    decodeGroups s (left + 1 - 4) a
  | _, _ + 1, _ => .error .err

/-- `len == 45 ? 60 : (int) floor(len * 1.33)` -/
def lineChars (len : ℕ) : ℕ := if len = 45 then 60 else 133 * len / 100

/-- The text to be read, the lengths that it told so far, and what was written. -/
structure Decoder where
  s : Bytes
  total : ℕ
  a : Area UInt8

/-- The loop over the lines of a text of `srcLen` characters. -/
def decodeLines (srcLen : ℕ) : ℕ → Decoder → Except Failure Decoder
  | _, ⟨[], total, a⟩ => .ok ⟨[], total, a⟩
  | 0, ⟨_ :: _, _, _⟩ => .error .undefined
  | fuel + 1, ⟨c :: s, total, a⟩ =>
    let len := (uuDec c).toNat
    if len ≤ 0 then .ok ⟨s, total, a⟩
    else if srcLen < len then .error .err
    else if s.length < lineChars len then .error .err
    else do
      let (s, a) ← decodeGroups s (lineChars len) a
      if len < 45 then .ok ⟨s, total + len, a⟩
      else decodeLines srcLen fuel ⟨s.drop 1, total + len, a⟩

/-- What is written behind the lines when they told more bytes than they had. -/
def decodeRest (d : Decoder) : Except Failure (Area UInt8) :=
  if d.total ≤ d.a.written.length then .ok d.a
  else do
    let w ← orUndefined d.s[0]?
    let x ← orUndefined d.s[1]?
    let a ← orUndefined (d.a.put (uuDec w <<< 2 ||| uuDec x >>> 4))
    if d.total ≤ 1 then .ok a
    else
      let y ← orUndefined d.s[2]?
      let a ← orUndefined (a.put (uuDec x <<< 4 ||| uuDec y >>> 2))
      if d.total ≤ 2 then .ok a
      else
        let z ← orUndefined d.s[3]?
        orUndefined (a.put (uuDec y <<< 6 ||| uuDec z))

/-- `php_uudecode`; the area has `(size_t) ceil(src_len * 0.75)` bytes and one for the NUL.  A
double has that number exactly for all texts that memory has room for. -/
def uudecode (src : Bytes) : Except Failure Bytes := do
  let size := (3 * src.length + 3) / 4
  let d ← decodeLines src.length src.length ⟨src, 0, Area.alloc size⟩
  let a ← decodeRest d
  if a.written.length < d.total ∨ size < d.total then .error .undefined
  else pure (a.written.take d.total)

/-! ## Characters -/

/-- Six bits are read back. -/
@[simp] theorem uuDec_uuEnc (c : UInt8) : uuDec (uuEnc c) = c &&& (0o77 : UInt8) := by
  obtain ⟨⟨n⟩⟩ := c
  revert n
  decide +kernel

theorem uuDec_lt (c : UInt8) : (uuDec c).toNat < 64 :=
  lt_of_le_of_lt Nat.and_le_right (by decide)

variable {a : Area UInt8} {n size : ℕ} {s : Bytes}

/-- The length of a line is read back. -/
theorem uuDec_length (h : n < 64) : (uuDec (uuEnc (UInt8.ofNat n))).toNat = n := by
  interval_cases n <;> rfl

theorem dec_first (x y : UInt8) :
    uuDec (uuEnc (x >>> 2)) <<< 2 ||| uuDec (uuEncC2 x y) >>> 4 = x := by
  rw [uuEncC2]
  apply UInt8.eq_of_toBitVec_eq
  ext i hi
  interval_cases i <;> simp

theorem dec_second (x y z : UInt8) :
    uuDec (uuEncC2 x y) <<< 4 ||| uuDec (uuEncC3 y z) >>> 2 = y := by
  rw [uuEncC2, uuEncC3]
  apply UInt8.eq_of_toBitVec_eq
  ext i hi
  interval_cases i <;> simp

theorem dec_third (y z : UInt8) : uuDec (uuEncC3 y z) <<< 6 ||| uuDec (uuEnc (z &&& 0o77)) = z := by
  rw [uuEncC3]
  apply UInt8.eq_of_toBitVec_eq
  ext i hi
  interval_cases i <;> simp

/-! ## The text -/

/-- Three bytes as four characters. -/
def groupCode (x y z : UInt8) : Bytes :=
  [uuEnc (x >>> 2), uuEncC2 x y, uuEncC3 y z, uuEnc (z &&& 0o77)]

/-- The characters for the bytes of a line. -/
def codeGroups : Bytes → Bytes
  | x :: y :: z :: s => groupCode x y z ++ codeGroups s
  | [x, y] => groupCode x y 0
  | [x] => groupCode x 0 0
  | [] => []

/-- The bytes of a line and those that complete the last group. -/
def padded : Bytes → Bytes
  | x :: y :: z :: s => x :: y :: z :: padded s
  | [x, y] => [x, y, 0]
  | [x] => [x, 0, 0]
  | [] => []

/-- A line. -/
def lineCode (s : Bytes) : Bytes :=
  uuEnc (UInt8.ofNat s.length) :: (codeGroups s ++ [10])

/-- The lines of a text, and the empty one behind them. -/
def uuText (s : Bytes) : Bytes :=
  if s = [] then [uuEnc 0, 10]
  else lineCode (s.take 45) ++ uuText (s.drop 45)
termination_by s.length
decreasing_by
  have : 0 < s.length := length_pos_of_ne_nil ‹_›
  rw [length_drop]
  omega

theorem codeGroups_append (s t : Bytes) (hmod : s.length % 3 = 0) :
    codeGroups (s ++ t) = codeGroups s ++ codeGroups t := by
  induction s using codeGroups.induct with
  | case1 x y z s ih =>
    simp only [cons_append, codeGroups, append_assoc]
    rw [ih (by simp only [length_cons] at hmod; omega)]
  | case2 x y => simp at hmod
  | case3 x => simp at hmod
  | case4 => rfl

theorem length_codeGroups : ∀ s : Bytes, (codeGroups s).length = 4 * ((s.length + 2) / 3)
  | [] => rfl
  | [_] => by simp [codeGroups, groupCode]
  | [_, _] => by simp [codeGroups, groupCode]
  | x :: y :: z :: s => by
    rw [codeGroups, length_append, length_codeGroups s, groupCode]
    simp only [length_cons, length_nil]
    omega

theorem padded_eq : ∀ s : Bytes, ∃ pad, padded s = s ++ pad ∧
    (padded s).length = 3 * ((s.length + 2) / 3)
  | [] => ⟨[], rfl, rfl⟩
  | [_] => ⟨[0, 0], rfl, by simp [padded]⟩
  | [_, _] => ⟨[0], rfl, by simp [padded]⟩
  | x :: y :: z :: s => by
    obtain ⟨pad, hpad, hlen⟩ := padded_eq s
    refine ⟨pad, by rw [padded, hpad]; rfl, ?_⟩
    rw [padded]
    simp only [length_cons, hlen]
    omega

theorem length_uuText_le (s : Bytes) : (uuText s).length ≤ s.length / 2 * 3 + 46 := by
  induction s using uuText.induct with
  | case1 => rw [uuText]; decide
  | case2 s hs ih =>
    rw [uuText, if_neg hs]
    rw [length_drop] at ih
    simp only [length_append, lineCode, length_cons, length_codeGroups, length_take, length_nil]
    by_cases h45 : 45 ≤ s.length
    · omega
    · have hnil : s.drop 45 = [] := drop_eq_nil_of_le (by omega)
      rw [hnil, uuText, if_pos rfl]
      simp only [length_cons, length_nil]
      omega

/-! ## What is written -/

theorem putAll_group {B : Type} (a : Area UInt8) (x y z : UInt8) (f : Area UInt8 → Option B) :
    ((a.put (uuEnc (x >>> 2))).bind fun a => (a.put (uuEncC2 x y)).bind fun a =>
      (a.put (uuEncC3 y z)).bind fun a => (a.put (uuEnc (z &&& 0o77))).bind f)
      = (a.putAll (groupCode x y z)).bind f := by
  simp only [groupCode, Area.putAll, Option.bind_assoc, bind_some]

/-- The groups of a line of which the length is a multiple of three. -/
theorem encodeGroups_eq (s : Bytes) (left : ℕ) (a : Area UInt8) (hle : left ≤ s.length)
    (hmod : left % 3 = 0) : encodeGroups s left a =
      (a.putAll (codeGroups (s.take left))).map fun a => (s.drop left, a) := by
  induction s, left, a using encodeGroups.induct with
  | case1 s a => rw [encodeGroups]; rfl
  | case2 x y z s left a ih =>
    obtain ⟨k, rfl⟩ : ∃ k, left = k + 2 := ⟨left - 2, by omega⟩
    have hk : k ≤ s.length := by
      simp only [length_cons] at hle
      omega
    rw [encodeGroups]
    simp only [bind_eq_bind, putAll_group, take_succ_cons, drop_succ_cons,
      codeGroups, Area.putAll_append]
    rw [map_bind]
    congr 1
    funext b
    exact ih b hk (by omega)
  | case3 s n a hne =>
    match s with
    | [] | [_] | [_, _] =>
      simp only [length_cons, length_nil] at hle
      omega
    | x :: y :: z :: s => exact absurd rfl (hne x y z s)

/-- What is done behind the loop over the lines. -/
def encodeEnd (st : Encoder) : Option (Area UInt8) := do
  let st ← encodeTail st
  let a ← if st.len < 45 then st.a.put 10 else some st.a
  let a ← a.put (uuEnc 0)
  a.put 10

/-- One to three bytes behind the lines, when a line of their own is begun for them and when they
are the end of one. -/
theorem encodeTail_eq (s : Bytes) (len : ℕ) (a : Area UInt8) (hne : s ≠ [])
    (hle : s.length ≤ 3) : encodeTail ⟨s, len, a⟩ =
      (a.putAll ((if len = 45 then [uuEnc (UInt8.ofNat s.length)] else []) ++ codeGroups s)).map
        fun a => ⟨s, if len = 45 then 0 else len, a⟩ := by
  have h0 : uuEncC3 0 0 = uuEnc 0 := by decide
  match s with
  | [] => exact absurd rfl hne
  | [x] | [x, y] | [x, y, z] =>
    by_cases h : len = 45 <;>
      simp [encodeTail, byteAt, h, h0, Area.putAll, codeGroups, groupCode, map_eq_bind,
        Option.bind_assoc]
  | _ :: _ :: _ :: _ :: _ =>
    simp only [length_cons] at hle
    omega

theorem uuText_of_lt (hne : s ≠ []) (h : s.length < 45) :
    uuText s = lineCode s ++ [uuEnc 0, 10] := by
  have hnil : s.drop 45 = [] := drop_eq_nil_of_le (by omega)
  rw [uuText, if_neg hne, take_of_length_le (by omega), hnil, uuText, if_pos rfl]

theorem encodeLine_full (s : Bytes) (a : Area UInt8) (h : 45 ≤ s.length) : encodeLine ⟨s, 45, a⟩ =
      (a.putAll (lineCode (s.take 45))).map fun a => ⟨s.drop 45, 45, a⟩ := by
  have hline : ∀ b, encodeGroups s 45 b = _ := fun b => encodeGroups_eq s 45 b h rfl
  have htake : (s.take 45).length = 45 := by rw [length_take, min_eq_left h]
  simp only [encodeLine, lineCode, htake, not_lt.mpr h, false_and, if_false, if_true, hline,
    Area.putAll, Area.putAll_append, bind_eq_bind, map_eq_bind, Option.bind_assoc,
    comp_def, bind_some, Option.pure_def]

/-- The last line, but for the bytes that are no group. -/
theorem encodeLine_last (s : Bytes) (a : Area UInt8) (h : s.length < 45) : encodeLine ⟨s, 45, a⟩ =
      (a.putAll (uuEnc (UInt8.ofNat s.length) :: codeGroups (s.take (s.length / 3 * 3)))).map
        fun a => ⟨s.drop (s.length / 3 * 3), s.length, a⟩ := by
  have hline : ∀ b, encodeGroups s (s.length / 3 * 3) b = _ :=
    fun b => encodeGroups_eq s _ b (Nat.div_mul_le_self _ _) (Nat.mul_mod_left _ _)
  have hleft : (if s.length < 45 ∧ s.length % 3 ≠ 0 then s.length / 3 * 3 else s.length)
      = s.length / 3 * 3 := by
    split_ifs with hmod
    · rfl
    · omega
  simp only [encodeLine, if_pos h, hleft, hline, if_neg h.ne, Area.putAll, bind_eq_bind,
    map_eq_bind, Option.bind_assoc, comp_def, bind_some, Option.pure_def]

/-- The end of a line that has begun. -/
theorem encodeEnd_last (s : Bytes) (len : ℕ) (a : Area UInt8) (hle : s.length ≤ 3)
    (hlen : len < 45) :
    encodeEnd ⟨s, len, a⟩ = a.putAll (codeGroups s ++ ([10] ++ [uuEnc 0, 10])) := by
  rw [encodeEnd]
  by_cases hnil : s = []
  · subst hnil
    simp [encodeTail, codeGroups, Area.putAll, hlen]
  · rw [encodeTail_eq s len a hnil hle]
    simp [Area.putAll, Area.putAll_append, map_eq_bind, Option.bind_assoc, hlen, hlen.ne]

/-- The lines of the text are written one after the other. -/
theorem encodeLines_eq (fuel : ℕ) (s : Bytes) (a : Area UInt8) (hfuel : s.length ≤ fuel) :
    (encodeLines.run fuel ⟨s, 45, a⟩).bind encodeEnd = a.putAll (uuText s) := by
  induction fuel using Nat.strong_induction_on generalizing s a with
  | _ fuel ih =>
    by_cases hmore : 3 < s.length
    · obtain ⟨fuel, rfl⟩ : ∃ k, fuel = k + 1 := ⟨fuel - 1, by omega⟩
      have hguard : encodeLines.guard ⟨s, 45, a⟩ = true := by simpa [encodeLines] using hmore
      have hne : s ≠ [] := ne_nil_of_length_pos (by omega)
      have hbody : encodeLines.body ⟨s, 45, a⟩ = encodeLine ⟨s, 45, a⟩ := rfl
      rw [Loop.run_of_guard _ hguard, hbody]
      by_cases hfull : 45 ≤ s.length
      · rw [encodeLine_full s a hfull, uuText, if_neg hne, Area.putAll_append, Option.bind_assoc,
          bind_map]
        congr 1
        funext b
        refine ih fuel (Nat.lt_succ_self _) (s.drop 45) b ?_
        rw [length_drop]
        omega
      · -- at most two bytes are left behind the groups of the last line
        have hdrop : (s.drop (s.length / 3 * 3)).length ≤ 2 := by
          rw [length_drop]
          omega
        have hdone : ∀ b, encodeLines.run fuel ⟨s.drop (s.length / 3 * 3), s.length, b⟩
            = some ⟨s.drop (s.length / 3 * 3), s.length, b⟩ := fun b =>
          Loop.run_of_not_guard _ (by simp only [encodeLines, decide_eq_false_iff_not]; omega)
        have hsplit : codeGroups s = codeGroups (s.take (s.length / 3 * 3)) ++
            codeGroups (s.drop (s.length / 3 * 3)) := by
          rw [← codeGroups_append _ _ (by rw [length_take]; omega), take_append_drop]
        rw [encodeLine_last s a (by omega), uuText_of_lt hne (by omega), lineCode, hsplit,
          Option.bind_assoc, bind_map]
        simp only [comp_def, hdone, bind_some,
          fun b => encodeEnd_last _ s.length b (Nat.le_succ_of_le hdrop) (by omega)]
        rw [← Area.putAll_append]
        simp only [cons_append, append_assoc]
    · rw [Loop.run_of_not_guard _ (by simpa [encodeLines] using hmore), bind_some, encodeEnd]
      by_cases hnil : s = []
      · rw [hnil, uuText]
        simp [encodeTail, Area.putAll]
      · rw [encodeTail_eq s 45 a hnil (by omega), uuText_of_lt hnil (by omega)]
        simp [lineCode, Area.putAll, Area.putAll_append, map_eq_bind, Option.bind_assoc]

/-- The text fits the area. -/
theorem uuencode_eq (s : Bytes) : uuencode s = some (uuText s) := by
  have hlen := length_uuText_le s
  obtain ⟨k, hk⟩ : ∃ k, s.length / 2 * 3 + 46 + 1 - (uuText s).length = k + 1 :=
    ⟨s.length / 2 * 3 + 46 - (uuText s).length, by omega⟩
  have hlines := encodeLines_eq s.length s (Area.alloc (s.length / 2 * 3 + 46 + 1)) le_rfl
  rw [Area.putAll_of_le _ _ (Nat.le_succ_of_le hlen)] at hlines
  have hunfold : uuencode s =
      ((encodeLines.run s.length ⟨s, 45, Area.alloc (s.length / 2 * 3 + 46 + 1)⟩).bind
        encodeEnd).bind fun a => (a.put 0).map fun _ => a.written := by
    simp only [uuencode, encodeEnd, bind_eq_bind, Option.bind_assoc, Option.pure_def,
      map_eq_bind, comp_def]
    congr 1
    funext st
    congr 1
    funext st
    split_ifs <;> simp only [Option.bind_assoc, bind_some]
  rw [hunfold, hlines]
  simp only [Area.alloc, hk]
  rfl

/-! ## What is read -/

theorem decodeGroups_cons (w x y z : UInt8) (s : Bytes) (left : ℕ) (a : Area UInt8)
    (hleft : left ≠ 0) (hroom : 3 ≤ a.room) :
    decodeGroups (w :: x :: y :: z :: s) left a = decodeGroups s (left - 4)
      ⟨a.written ++ [uuDec w <<< 2 ||| uuDec x >>> 4, uuDec x <<< 4 ||| uuDec y >>> 2,
        uuDec y <<< 6 ||| uuDec z], a.room - 3⟩ := by
  obtain ⟨left, rfl⟩ : ∃ k, left = k + 1 := ⟨left - 1, by omega⟩
  rw [decodeGroups, Area.orUndefined_put a _ (by omega),
    Area.orUndefined_put _ _ (by simp only; omega), Area.orUndefined_put _ _ (by simp only; omega)]
  simp only [append_assoc, cons_append, nil_append, Nat.sub_sub]

theorem decodeGroups_groupCode (x y z : UInt8) (s : Bytes) (left : ℕ) (a : Area UInt8)
    (hleft : left ≠ 0) (hroom : 3 ≤ a.room) : decodeGroups (groupCode x y z ++ s) left a =
      decodeGroups s (left - 4) ⟨a.written ++ [x, y, z], a.room - 3⟩ := by
  rw [groupCode]
  simp only [cons_append, nil_append]
  rw [decodeGroups_cons _ _ _ _ _ _ _ hleft hroom, dec_first, dec_second, dec_third]

/-- Groups are read back, with what completes the last one. -/
theorem decodeGroups_codeGroups (rest s : Bytes) (left : ℕ) (a : Area UInt8)
    (hleft : (left + 3) / 4 = (s.length + 2) / 3) (hroom : (padded s).length ≤ a.room) :
    decodeGroups (codeGroups s ++ rest) left a =
      .ok (rest, ⟨a.written ++ padded s, a.room - (padded s).length⟩) := by
  induction s using codeGroups.induct generalizing left a with
  | case1 x y z s ih =>
    simp only [length_cons, padded] at hleft hroom
    have hsub : a.room - 3 - (padded s).length = a.room - ((padded s).length + 1 + 1 + 1) := by
      omega
    rw [codeGroups, append_assoc, decodeGroups_groupCode _ _ _ _ _ _ (by omega) (by omega),
      ih _ _ (by omega) (by simp only; omega)]
    simp only [padded, append_assoc, cons_append, nil_append, length_cons, hsub]
  | case2 x y | case3 x =>
    simp only [padded, length_cons, length_nil] at hleft hroom
    have h0 : left - 4 = 0 := by omega
    rw [codeGroups, decodeGroups_groupCode _ _ _ _ _ _ (by omega) (by omega), h0, decodeGroups]
    simp only [padded, length_cons, length_nil]
  | case4 =>
    simp only [length_nil] at hleft
    have h0 : left = 0 := by omega
    rw [h0, codeGroups, decodeGroups]
    simp [padded]

/-- A line of at most 45 bytes has the characters that are asked for. -/
theorem lineChars_spec (h : n ≤ 45) : (lineChars n + 3) / 4 = (n + 2) / 3 := by
  interval_cases n <;> rfl

/-- The characters that are asked for a line give as many bytes as it told. -/
theorem le_lineChars (h : n < 64) : n ≤ 3 * ((lineChars n + 3) / 4) := by
  interval_cases n <;> decide

theorem decodeLines_line {srcLen fuel : ℕ} {rest : Bytes} {total : ℕ}
    (hne : s ≠ []) (h45 : s.length ≤ 45) (hsrc : (lineCode s ++ rest).length ≤ srcLen)
    (hroom : 3 * (lineCode s ++ rest).length ≤ 4 * a.room) :
    decodeLines srcLen (fuel + 1) ⟨lineCode s ++ rest, total, a⟩ =
      if s.length < 45 then .ok ⟨10 :: rest, total + s.length,
        ⟨a.written ++ padded s, a.room - (padded s).length⟩⟩
      else decodeLines srcLen fuel ⟨rest, total + s.length,
        ⟨a.written ++ padded s, a.room - (padded s).length⟩⟩ := by
  obtain ⟨pad, hpad, hpadlen⟩ := padded_eq s
  have hpos : 0 < s.length := length_pos_of_ne_nil hne
  have hlines := lineChars_spec h45
  have hlen : (lineCode s ++ rest).length = 4 * ((s.length + 2) / 3) + rest.length + 2 := by
    simp only [lineCode, cons_append, length_cons, length_append, length_codeGroups, length_nil]
    omega
  have htext : lineCode s ++ rest =
      uuEnc (UInt8.ofNat s.length) :: (codeGroups s ++ 10 :: rest) := by
    simp only [lineCode, cons_append, append_assoc, nil_append]
  have hgroups := decodeGroups_codeGroups (10 :: rest) s (lineChars s.length) a hlines (by omega)
  have hfits : ¬ (codeGroups s ++ 10 :: rest).length < lineChars s.length := by
    rw [length_append, length_codeGroups]
    omega
  rw [htext, decodeLines]
  simp only [uuDec_length (show s.length < 64 by omega), not_le.mpr hpos, if_false,
    if_neg (show ¬ srcLen < s.length by omega), if_neg hfits, hgroups]
  rfl

/-- The lines of a text are read back. -/
theorem decodeLines_uuText (srcLen : ℕ) (s : Bytes) (fuel total : ℕ) (a : Area UInt8)
    (hfuel : (uuText s).length ≤ fuel) (hsrc : (uuText s).length ≤ srcLen)
    (hroom : 3 * (uuText s).length ≤ 4 * a.room) :
    ∃ rest pad room, decodeLines srcLen fuel ⟨uuText s, total, a⟩ =
      .ok ⟨rest, total + s.length, ⟨a.written ++ s ++ pad, room⟩⟩ ∧
        s.length + pad.length + room = a.room := by
  induction s using uuText.induct generalizing fuel total a with
  | case1 =>
    rw [uuText] at hfuel ⊢
    obtain ⟨fuel, rfl⟩ : ∃ k, fuel = k + 1 := ⟨fuel - 1, by simp at hfuel; omega⟩
    exact ⟨[10], [], a.room, by simp [decodeLines], by simp⟩
  | case2 s hs ih =>
    have hpos : 0 < s.length := length_pos_of_ne_nil hs
    have htake : (s.take 45).length = min 45 s.length := length_take
    have hne : s.take 45 ≠ [] := ne_nil_of_length_pos (by omega)
    obtain ⟨pad, hpad, hpadlen⟩ := padded_eq (s.take 45)
    rw [uuText, if_neg hs] at hfuel hsrc hroom ⊢
    have hline : (lineCode (s.take 45)).length = 4 * (((s.take 45).length + 2) / 3) + 2 := by
      simp only [lineCode, length_cons, length_append, length_codeGroups, length_nil]
    obtain ⟨fuel, rfl⟩ : ∃ k, fuel = k + 1 :=
      ⟨fuel - 1, by rw [length_append] at hfuel; omega⟩
    rw [decodeLines_line hne (by omega) hsrc hroom]
    rw [length_append] at hfuel hsrc hroom
    split_ifs with hshort
    · -- the last line
      have hall : s.take 45 = s := take_of_length_le (by omega)
      rw [hall] at hpad hpadlen ⊢
      refine ⟨_, pad, _, by rw [hpad, append_assoc], ?_⟩
      rw [hpad] at hpadlen
      rw [length_append] at hpadlen ⊢
      omega
    · have hfull : padded (s.take 45) = s.take 45 := by
        have := congrArg List.length hpad
        rw [length_append] at this
        have hnil : pad = [] := eq_nil_of_length_eq_zero (by omega)
        rw [hpad, hnil, append_nil]
      obtain ⟨rest, pad', room, hread, hcount⟩ := ih fuel (total + (s.take 45).length)
        ⟨a.written ++ padded (s.take 45), a.room - (padded (s.take 45)).length⟩ (by omega)
        (by omega) (by simp only; omega)
      refine ⟨rest, pad', room, ?_, ?_⟩
      · rw [hread, hfull, append_assoc a.written, take_append_drop, length_drop, add_assoc]
        congr 3
        omega
      · simp only [hfull, length_drop] at hcount
        omega

/-- What was encoded is decoded. -/
theorem uudecode_uuText (s : Bytes) : uudecode (uuText s) = .ok s := by
  obtain ⟨rest, pad, room, hread, hcount⟩ := decodeLines_uuText (uuText s).length s
    (uuText s).length 0 (Area.alloc ((3 * (uuText s).length + 3) / 4)) le_rfl
    le_rfl (by simp only [Area.alloc]; omega)
  have hsize : (Area.alloc ((3 * (uuText s).length + 3) / 4) : Area UInt8).room
      = (3 * (uuText s).length + 3) / 4 := rfl
  have hwritten : (Area.alloc ((3 * (uuText s).length + 3) / 4) : Area UInt8).written ++ s ++ pad
      = s ++ pad := rfl
  rw [hwritten, zero_add] at hread
  have hle : s.length ≤ (s ++ pad).length := by rw [length_append]; omega
  have hok : ¬ ((s ++ pad).length < s.length ∨ (3 * (uuText s).length + 3) / 4 < s.length) := by
    omega
  have hrest : decodeRest ⟨rest, s.length, ⟨s ++ pad, room⟩⟩ = .ok ⟨s ++ pad, room⟩ := by
    rw [decodeRest, if_pos hle]
  simp only [uudecode, hread, bind, Except.bind, hrest, if_neg hok, take_left]
  rfl

/-! ## Any text -/

/-- The area has room for what is still to be read. -/
def Fits (size : ℕ) (s : Bytes) (a : Area UInt8) : Prop :=
  3 * s.length ≤ 4 * a.room ∧ a.written.length + a.room = size

theorem Fits.written_le (h : Fits size s a) : a.written.length ≤ size :=
  h.2 ▸ Nat.le_add_right _ _

/-- The groups of a line are written within the area, as many of them as the line has. -/
theorem decodeGroups_fits (s : Bytes) (left : ℕ) (a : Area UInt8)
    (h : Fits size s a) : decodeGroups s left a = .error .err ∨
      ∃ s' a', decodeGroups s left a = .ok (s', a') ∧ Fits size s' a' ∧ s'.length ≤ s.length ∧
        a'.written.length = a.written.length + 3 * ((left + 3) / 4) := by
  induction s, left, a using decodeGroups.induct with
  | case1 s a => exact .inr ⟨s, a, by rw [decodeGroups], h, le_rfl, by simp⟩
  | case2 w x y z s left a ih =>
    obtain ⟨hroom, hsize⟩ := h
    simp only [length_cons] at hroom
    rw [decodeGroups_cons _ _ _ _ _ _ _ (Nat.succ_ne_zero _) (by omega)]
    have hfits : Fits size s ⟨a.written ++ [uuDec w <<< 2 ||| uuDec x >>> 4,
        uuDec x <<< 4 ||| uuDec y >>> 2, uuDec y <<< 6 ||| uuDec z], a.room - 3⟩ := by
      constructor
      · simp only
        omega
      · simp only [length_append, length_cons, length_nil]
        omega
    rcases ih _ hfits with herr | ⟨s', a', hread, ha', hle, hlen⟩
    · exact .inl herr
    · refine .inr ⟨s', a', hread, ha', ?_, ?_⟩
      · simp only [length_cons]
        omega
      · simp only [length_append, length_cons, length_nil] at hlen
        omega
  | case3 s left a hne =>
    refine .inl ?_
    match s with
    | [] | [_] | [_, _] | [_, _, _] => rfl
    | w :: x :: y :: z :: s => exact absurd rfl (hne w x y z s)

/-- The lines are read without an access outside of a buffer, and are no shorter than they told. -/
theorem decodeLines_fits (srcLen fuel : ℕ) (s : Bytes) (total : ℕ) (a : Area UInt8)
    (h : Fits size s a) (hfuel : s.length ≤ fuel) (htotal : total ≤ a.written.length) :
    decodeLines srcLen fuel ⟨s, total, a⟩ = .error .err ∨
      ∃ d, decodeLines srcLen fuel ⟨s, total, a⟩ = .ok d ∧ d.total ≤ d.a.written.length ∧
        d.a.written.length ≤ size := by
  induction fuel generalizing s total a with
  | zero =>
    obtain rfl := eq_nil_of_length_eq_zero (Nat.le_zero.mp hfuel)
    exact .inr ⟨⟨[], total, a⟩, by rw [decodeLines], htotal, h.written_le⟩
  | succ fuel ih =>
    match s with
    | [] => exact .inr ⟨⟨[], total, a⟩, by rw [decodeLines], htotal, h.written_le⟩
    | c :: s =>
      obtain ⟨hroom, hsize⟩ := id h
      simp only [length_cons] at hroom hfuel
      rw [decodeLines]
      by_cases hzero : (uuDec c).toNat ≤ 0
      · exact .inr ⟨⟨s, total, a⟩, if_pos hzero, htotal, h.written_le⟩
      rw [if_neg hzero]
      by_cases hsrc : srcLen < (uuDec c).toNat
      · exact .inl (if_pos hsrc)
      rw [if_neg hsrc]
      by_cases hshort : s.length < lineChars (uuDec c).toNat
      · exact .inl (if_pos hshort)
      rw [if_neg hshort]
      have hfits : Fits size s a := ⟨by omega, hsize⟩
      rcases decodeGroups_fits s (lineChars (uuDec c).toNat) a hfits with
        herr | ⟨s', a', hread, ha', hle, hlen⟩
      · exact .inl (by rw [herr]; rfl)
      · have hmany := le_lineChars (uuDec_lt c)
        have htotal' : total + (uuDec c).toNat ≤ a'.written.length := by omega
        rw [hread]
        split_ifs with h45
        · exact .inr ⟨_, rfl, htotal', ha'.written_le⟩
        · have hdrop : (s'.drop 1).length ≤ s'.length := by
            rw [length_drop]
            exact Nat.sub_le _ _
          exact ih (s'.drop 1) _ a' ⟨by have := ha'.1; omega, ha'.2⟩ (by omega) htotal'

/-- Whatever the text, the decoder reads and writes inside of its buffers or returns an error. -/
theorem uudecode_defined (text : Bytes) : uudecode text ≠ .error .undefined := by
  have hfits : Fits ((3 * text.length + 3) / 4) text (Area.alloc ((3 * text.length + 3) / 4)) := by
    constructor
    · simp only [Area.alloc]
      omega
    · simp [Area.alloc]
  rcases decodeLines_fits text.length text.length text 0 (Area.alloc ((3 * text.length + 3) / 4))
    hfits (Nat.le_refl _) (Nat.zero_le _) with herr | ⟨d, hread, htotal, hsize⟩
  · simp [uudecode, herr, bind, Except.bind]
  · have hok : ¬ (d.a.written.length < d.total ∨ (3 * text.length + 3) / 4 < d.total) := by omega
    have hrest : decodeRest d = .ok d.a := by rw [decodeRest, if_pos htotal]
    simp only [uudecode, hread, bind, Except.bind, hrest, if_neg hok]
    exact fun h => by cases h

/-- What is encoded is decoded again; and whatever the text, the decoder reads only bytes of it and
writes only inside its buffer, or returns an error. -/
theorem uudecode_uuencode (s text : Bytes) :
    (∃ t, uuencode s = some t ∧ uudecode t = .ok s) ∧ uudecode text ≠ .error .undefined :=
  ⟨⟨uuText s, uuencode_eq s, uudecode_uuText s⟩, uudecode_defined text⟩

end PhpUu
