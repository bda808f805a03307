/-
# Quoted-printable

`php_quot_print_encode` breaks a line before a character for which no room is left, and
`quoted_printable_decode` joins the lines again.  `php_quot_print_decode` counts the bytes of its
result before it decodes.
-/
import ReadingCode.BoundedMemory
import ReadingCode.PostVars

open BoundedMemory PhpVariables

namespace PhpQuotPrint

open List Option Function

/-! ## The encoder -/

/-- `PHP_QPRINT_MAXL` -/
def maxl : ℕ := 75

/-- `iscntrl` -/
def iscntrl (c : UInt8) : Bool := c < 32 || c == 127

/-- `hex` -/
def hex : Bytes := [48, 49, 50, 51, 52, 53, 54, 55, 56, 57, 65, 66, 67, 68, 69, 70]

/-- The bytes that are written as `=` and two digits; `next` is the byte at `str`. -/
def escaped (c next : UInt8) : Bool :=
  iscntrl c || c == 0x7f || c &&& 0x80 != 0 || c == 61 || (c == 32 && next == 13)

/-- Whether a line is broken before `=` and two digits, with which `lp` is the length of the line:
for the first byte of a character of UTF-8 the whole of it is to fit. -/
def breaks (lp : ℕ) (c : UInt8) : Bool :=
  (lp > maxl && c ≤ 0x7f) || (c > 0x7f && c ≤ 0xdf && lp + 3 > maxl)
    || (c > 0xdf && c ≤ 0xef && lp + 6 > maxl) || (c > 0xef && c ≤ 0xf4 && lp + 9 > maxl)

/-- `=` and the end of the line. -/
def softBreak (a : Area UInt8) : Option (Area UInt8) := do
  let a ← a.put 61
  let a ← a.put 13
  a.put 10

/-- A byte that does not begin a CR LF, with `lp` before and after it. -/
def encodeByte (lp : ℕ) (a : Area UInt8) (c next : UInt8) : Option (ℕ × Area UInt8) :=
  if escaped c next then do
    let lp := lp + 3
    let (lp, a) ← if breaks lp c then (softBreak a).map fun a => (3, a) else some (lp, a)
    let a ← a.put 61
    let a ← a.put (hex.getD (c >>> 4).toNat 0)
    let a ← a.put (hex.getD (c &&& 0xf).toNat 0)
    pure (lp, a)
  else do
    let lp := lp + 1
    let (lp, a) ← if lp > maxl then (softBreak a).map fun a => (1, a) else some (lp, a)
    let a ← a.put c
    pure (lp, a)

/-- `while (length--)`; behind the string is its NUL. -/
def encodeLoop : ℕ → Bytes → Area UInt8 → Option (Area UInt8)
  | _, [], a => some a
  | lp, [c], a => do
    let (_, a) ← encodeByte lp a c 0
    pure a
  | lp, c :: next :: s, a =>
    if c = 13 ∧ next = 10 then do
      let a ← a.put 13
      let a ← a.put next
      encodeLoop 0 s a
    else do
      let (lp, a) ← encodeByte lp a c next
      encodeLoop lp (next :: s) a

/-- `php_quot_print_encode` -/
def quotPrintEncode (s : Bytes) : Option Bytes := do
  let n := s.length
  let a ← encodeLoop 0 s (Area.alloc (3 * (n + (3 * n / (maxl - 9) + 1)) + 1))
  let _ ← a.put 0
  pure a.written

/-! ## `quoted_printable_decode` -/

/-- The tabulator and the space. -/
def isBlank (c : UInt8) : Bool := c == 32 || c == 9

/-- Two digits at the front. -/
def twoDigits : Bytes → Option (UInt8 × Bytes)
  | h :: l :: r => if isxdigit h ∧ isxdigit l then some (htoi h l, r) else none
  | _ => none

/-- A round of the loop at the byte `c`, in front of `r`: what is written, and what is left of the
text.  A soft line break may have blanks at the end of the line. -/
def decodeRound (c : UInt8) (r : Bytes) : Bytes × Bytes :=
  if c ≠ 61 then ([c], r)
  else
    match twoDigits r with
    | some (b, r') => ([b], r')
    | none =>
      match r.dropWhile isBlank with
      | [] => ([], [])
      | x :: r' =>
        if x = 0 then ([], x :: r')
        else if x = 13 ∧ r'.head? = some 10 then ([], r'.tail)
        else if x = 13 ∨ x = 10 then ([], r')
        else ([c], r)

/-- What is left of the text, and what was written. -/
structure Reading where
  r : Bytes
  a : Area UInt8

/-- `while (str_in[i])` -/
def decodeLoop : Loop Reading where
  guard st := st.r.headD 0 ≠ 0
  body st :=
    match st.r with
    | [] => none
    | c :: r => (st.a.putAll (decodeRound c r).1).map fun a => ⟨(decodeRound c r).2, a⟩

/-- `quoted_printable_decode` -/
def quotedPrintableDecode (text : Bytes) : Option Bytes := do
  let st ← decodeLoop.run text.length ⟨text, Area.alloc (text.length + 1)⟩
  let _ ← st.a.put 0
  pure st.a.written

/-! ## `php_quot_print_decode` -/

/-- `hexval_tbl`: 16 is the end of a line, 32 a blank, and 64 anything else that is no digit. -/
def hexvalTbl : List ℕ := [
  64, 64, 64, 64, 64, 64, 64, 64, 64, 32, 16, 64, 64, 16, 64, 64,
  64, 64, 64, 64, 64, 64, 64, 64, 64, 64, 64, 64, 64, 64, 64, 64,
  32, 64, 64, 64, 64, 64, 64, 64, 64, 64, 64, 64, 64, 64, 64, 64,
  0, 1, 2, 3, 4, 5, 6, 7, 8, 9, 64, 64, 64, 64, 64, 64,
  64, 10, 11, 12, 13, 14, 15, 64, 64, 64, 64, 64, 64, 64, 64, 64,
  64, 64, 64, 64, 64, 64, 64, 64, 64, 64, 64, 64, 64, 64, 64, 64,
  64, 10, 11, 12, 13, 14, 15, 64, 64, 64, 64, 64, 64, 64, 64, 64,
  64, 64, 64, 64, 64, 64, 64, 64, 64, 64, 64, 64, 64, 64, 64, 64] ++ replicate 128 64

/-- `hexval_tbl[c]` -/
def hexval (c : UInt8) : ℕ := hexvalTbl.getD c.toNat 64

/-- `n -= k` of a `size_t`, which is not to go below zero. -/
def sub (n k : ℕ) : Except Failure ℕ := if k ≤ n then .ok (n - k) else .error .undefined

/-- `*p`, where `p` is followed by these cells. -/
def at0 (p : Bytes) : Except Failure UInt8 := orUndefined p.head?

/-- The first loop: the size of the buffer. -/
def bufSize : Bytes → ℕ → ℕ → Except Failure ℕ
  | [], i, size => if i > 1 then .error .undefined else .ok size
  | [c], i, size => if i > 1 ∧ c ≠ 0 then .error .undefined else .ok size
  | c :: d :: p, i, size =>
    if i > 1 ∧ c ≠ 0 then
      if c = 61 then do
        let size ← sub size 2
        let i ← sub i 1
        let i ← sub i 1
        bufSize p i size
      else do
        let i ← sub i 1
        bufSize (d :: p) i size
    else .ok size

/-- The cells from `p1` on, how many characters are left, and what was written. -/
structure Quot where
  p : Bytes
  i : ℕ
  a : Area UInt8

/-- `while (h_nbl == 32)`: blanks behind an equals sign. -/
def skipBlanks : Bytes → ℕ → Except Failure (Bytes × ℕ)
  | [], _ => .error .undefined
  | c :: p, i =>
    if hexval c = 32 then do
      let i ← sub i 1
      if i = 0 then .error .err
      else
        let h ← at0 p
        if hexval h = 64 then .error .err
        else skipBlanks p i
    else .ok (c :: p, i)

/-- A round of the second loop behind an equals sign. -/
def decodeEscape (st : Quot) : Except Failure Quot := do
  let h ← at0 st.p
  if hexval h < 16 then
    let i ← sub st.i 1
    if i = 0 then .error .err
    else
      let l ← at0 st.p.tail
      if 16 ≤ hexval l then .error .err
      else
        let a ← orUndefined (st.a.put (UInt8.ofNat (hexval h <<< 4 ||| hexval l)))
        let i ← sub i 1
        pure ⟨st.p.tail.tail, i, a⟩
  else if hexval h < 64 then
    let (p, i) ← skipBlanks st.p st.i
    let c ← at0 p
    let (p, i) ← if c = 13 ∧ 2 ≤ i then do
        let d ← at0 p.tail
        if d = 10 then do
          let i ← sub i 1
          pure (p.tail, i)
        else pure (p, i)
      else pure (p, i)
    let i ← sub i 1
    pure ⟨p.tail, i, st.a⟩
  else .error .err

/-- The second loop. -/
def quotLoop (us : Bool) : ℕ → Quot → Except Failure (Area UInt8)
  | 0, st => if st.i = 0 then .ok st.a else .error .undefined
  | fuel + 1, st =>
    if st.i = 0 then .ok st.a
    else do
      let c ← at0 st.p
      if c = 0 then .ok st.a
      else if c = 61 then
        let i ← sub st.i 1
        if i = 0 then .ok st.a
        else
          let d ← at0 st.p.tail
          if d = 0 then .ok st.a
          else
            let st ← decodeEscape ⟨st.p.tail, i, st.a⟩
            quotLoop us fuel st
      else
        let a ← orUndefined (st.a.put (if us ∧ c = 95 then 32 else c))
        let i ← sub st.i 1
        quotLoop us fuel ⟨st.p.tail, i, a⟩

/-- `php_quot_print_decode`; `us` is `replace_us_by_ws`. -/
def quotPrintDecode (str : Bytes) (us : Bool) : Except Failure Bytes := do
  let size ← bufSize (str ++ [0]) str.length str.length
  let a ← quotLoop us str.length ⟨str ++ [0], str.length, Area.alloc (size + 1)⟩
  let _ ← orUndefined (a.put 0)
  pure a.written

/-! ## What is written -/

/-- The line is broken before a byte. -/
def breaksBefore (lp : ℕ) (c next : UInt8) : Bool :=
  if escaped c next then breaks (lp + 3) c else lp + 1 > maxl

/-- The length of the line behind a byte. -/
def lpAfter (lp : ℕ) (c next : UInt8) : ℕ :=
  (if breaksBefore lp c next then 0 else lp) + if escaped c next then 3 else 1

/-- The characters for a byte. -/
def code (c next : UInt8) : Bytes :=
  if escaped c next then [61, hex.getD (c >>> 4).toNat 0, hex.getD (c &&& 0xf).toNat 0] else [c]

/-- What is written for a byte. -/
def piece (lp : ℕ) (c next : UInt8) : Bytes :=
  (if breaksBefore lp c next then [61, 13, 10] else []) ++ code c next

/-- The text for a string when the line has `lp` characters. -/
def qpText : ℕ → Bytes → Bytes
  | _, [] => []
  | lp, [c] => piece lp c 0
  | lp, c :: next :: s =>
    if c = 13 ∧ next = 10 then 13 :: 10 :: qpText 0 s
    else piece lp c next ++ qpText (lpAfter lp c next) (next :: s)

theorem encodeByte_eq (lp : ℕ) (a : Area UInt8) (c next : UInt8) :
    encodeByte lp a c next = (a.putAll (piece lp c next)).map fun a => (lpAfter lp c next, a) := by
  unfold encodeByte piece lpAfter breaksBefore code
  by_cases he : escaped c next = true
  · by_cases hb : breaks (lp + 3) c = true
    · simp [softBreak, Area.putAll, map_eq_bind, bind_assoc, comp_def, he, hb]
    · simp [Area.putAll, map_eq_bind, bind_assoc, comp_def, he, hb]
  · by_cases hb : lp + 1 > maxl
    · simp [softBreak, Area.putAll, map_eq_bind, bind_assoc, comp_def, he, hb]
    · simp [Area.putAll, map_eq_bind, comp_def, he, hb]

theorem encodeLoop_eq (lp : ℕ) (s : Bytes) (a : Area UInt8) :
    encodeLoop lp s a = a.putAll (qpText lp s) := by
  induction lp, s using qpText.induct generalizing a with
  | case1 lp => rfl
  | case2 lp c =>
    rw [encodeLoop, encodeByte_eq, qpText]
    cases a.putAll (piece lp c 0) <;> rfl
  | case3 lp c next s hcrlf ih =>
    obtain ⟨rfl, rfl⟩ := hcrlf
    simp [encodeLoop, qpText, Area.putAll, ih]
  | case4 lp c next s hcrlf ih =>
    rw [encodeLoop, if_neg hcrlf, encodeByte_eq, qpText, if_neg hcrlf, Area.putAll_append]
    cases a.putAll (piece lp c next) with
    | none => rfl
    | some b => exact ih b

/-! ### The buffer -/

theorem length_code (c next : UInt8) : (code c next).length = if escaped c next then 3 else 1 := by
  unfold code
  split_ifs <;> rfl

variable {c next : UInt8}

/-- A line of fewer than 64 characters is never broken. -/
theorem le_of_breaksBefore {lp : ℕ} (h : breaksBefore lp c next = true) : 64 ≤ lp := by
  unfold breaksBefore breaks maxl at h
  split_ifs at h
  · simp only [Bool.or_eq_true, Bool.and_eq_true, decide_eq_true_eq] at h
    omega
  · have hlp := of_decide_eq_true h
    omega

/-- What a byte takes, and what it leaves to the breaks of later lines. -/
theorem length_piece_le (lp : ℕ) (c next : UInt8) :
    22 * (piece lp c next).length + 3 * ((lpAfter lp c next + 2) / 3) ≤
      69 + 3 * ((lp + 2) / 3) := by
  unfold piece lpAfter
  rw [length_append, length_code]
  by_cases hb : breaksBefore lp c next = true
  · have hlp := le_of_breaksBefore hb
    rw [if_pos hb, length_cons, length_cons, length_singleton]
    split_ifs <;> omega
  · rw [if_neg hb, length_nil]
    split_ifs <;> omega

theorem length_qpText_le (lp : ℕ) (s : Bytes) :
    22 * (qpText lp s).length ≤ 69 * s.length + 3 * ((lp + 2) / 3) := by
  induction lp, s using qpText.induct with
  | case1 lp => simp [qpText]
  | case2 lp c =>
    have hpiece := length_piece_le lp c 0
    rw [qpText, length_singleton]
    omega
  | case3 lp c next s hcrlf ih =>
    rw [qpText, if_pos hcrlf]
    simp only [length_cons]
    omega
  | case4 lp c next s hcrlf ih =>
    have hpiece := length_piece_le lp c next
    rw [qpText, if_neg hcrlf, length_append]
    simp only [length_cons] at ih ⊢
    omega

theorem quotPrintEncode_eq (s : Bytes) : quotPrintEncode s = some (qpText 0 s) := by
  have hlen := length_qpText_le 0 s
  unfold quotPrintEncode
  simp only [encodeLoop_eq, maxl]
  rw [Area.putAll_of_le _ _ (by simp only [Area.alloc]; omega)]
  simp only [Area.alloc, nil_append, bind_eq_bind, bind_some]
  rw [Area.put_of_pos _ _ (by simp only; omega)]
  rfl

/-! ### The round trip -/

theorem length_twoDigits {r r' : Bytes} {b : UInt8} (h : twoDigits r = some (b, r')) :
    r'.length + 2 = r.length := by
  unfold twoDigits at h
  split at h
  · split_ifs at h
    obtain ⟨-, rfl⟩ := Prod.mk.inj (Option.some.inj h)
    rfl
  · exact absurd h (by simp)

/-- A round takes a byte at least, and writes no more than it takes. -/
theorem decodeRound_le (c : UInt8) (r : Bytes) : (decodeRound c r).2.length ≤ r.length ∧
      (decodeRound c r).1.length + (decodeRound c r).2.length ≤ r.length + 1 := by
  unfold decodeRound
  by_cases hc : c ≠ 61
  · rw [if_pos hc]
    exact ⟨le_rfl, by simp only [length_singleton]; omega⟩
  rw [if_neg hc]
  cases hdigits : twoDigits r with
  | some d =>
    have hlen := length_twoDigits hdigits
    simp only [length_singleton]
    omega
  | none =>
    have hlen := length_dropWhile_le isBlank r
    cases hblanks : r.dropWhile isBlank with
    | nil => simp
    | cons x r' =>
      rw [hblanks, length_cons] at hlen
      have htail : r'.tail.length ≤ r'.length := by simp
      simp only
      split_ifs <;> simp only [length_cons, length_nil] <;> omega

/-- What is read from a text, up to a NUL. -/
def decoded : Bytes → Bytes
  | [] => []
  | c :: r => if c = 0 then [] else (decodeRound c r).1 ++ decoded (decodeRound c r).2
termination_by r => r.length
decreasing_by exact Nat.lt_succ_of_le (decodeRound_le c r).1

theorem decoded_cons (r : Bytes) (hc : c ≠ 0) :
    decoded (c :: r) = (decodeRound c r).1 ++ decoded (decodeRound c r).2 := by
  rw [decoded, if_neg hc]

/-- A byte that is no control character and no equals sign stands for itself. -/
theorem ne_of_not_escaped (h : ¬escaped c next = true) : c ≠ 61 ∧ c ≠ 0 := by
  unfold escaped iscntrl at h
  refine ⟨?_, ?_⟩ <;> rintro rfl <;> simp at h

theorem decoded_softBreak (r : Bytes) : decoded (61 :: 13 :: 10 :: r) = decoded r := by
  have hdigits : twoDigits (13 :: 10 :: r) = none := rfl
  have hblanks : (13 :: 10 :: r : Bytes).dropWhile isBlank = 13 :: 10 :: r := rfl
  rw [decoded_cons _ (by decide), decodeRound, hdigits, hblanks]
  simp

theorem decoded_code (c next : UInt8) (r : Bytes) :
    decoded (code c next ++ r) = c :: decoded r := by
  unfold code
  by_cases he : escaped c next = true
  · obtain ⟨-, hhigh, hlow, hval⟩ := digits_spec hex rfl c
    rw [if_pos he, cons_append, cons_append, cons_append, decoded_cons _ (by decide), decodeRound,
      if_neg (by decide), twoDigits, if_pos ⟨hhigh, hlow⟩, hval]
    rfl
  · obtain ⟨hne, hnul⟩ := ne_of_not_escaped he
    rw [if_neg he, cons_append, decoded_cons _ hnul, decodeRound, if_pos hne]
    rfl

theorem decoded_piece (lp : ℕ) (c next : UInt8) (r : Bytes) :
    decoded (piece lp c next ++ r) = c :: decoded r := by
  unfold piece
  split_ifs
  · rw [append_assoc, cons_append, cons_append, cons_append, nil_append,
      decoded_softBreak, decoded_code]
  · exact decoded_code c next r

theorem decoded_qpText (lp : ℕ) (s : Bytes) : decoded (qpText lp s) = s := by
  have hnil : decoded [] = [] := by rw [decoded]
  induction lp, s using qpText.induct with
  | case1 lp => exact hnil
  | case2 lp c => rw [qpText, ← append_nil (piece lp c 0), decoded_piece, hnil]
  | case3 lp c next s hcrlf ih =>
    obtain ⟨rfl, rfl⟩ := hcrlf
    rw [qpText, if_pos ⟨rfl, rfl⟩, decoded_cons _ (by decide), decodeRound, if_pos (by decide),
      decoded_cons _ (by decide), decodeRound, if_pos (by decide), ih]
    rfl
  | case4 lp c next s hcrlf ih => rw [qpText, if_neg hcrlf, decoded_piece, ih]

/-! ### The loop of the decoder -/

/-- What the loop has written and what it will write do not change, and it writes no more than it
reads. -/
structure Reads (text : Bytes) (st : Reading) : Prop where
  rest : st.a.written ++ decoded st.r = decoded text
  room : st.a.written.length + st.a.room = text.length + 1
  le : st.a.written.length + st.r.length ≤ text.length

theorem Reads.start (text : Bytes) : Reads text ⟨text, Area.alloc (text.length + 1)⟩ :=
  ⟨rfl, by simp [Area.alloc], by simp [Area.alloc]⟩

variable {st : Reading}

/-- A round. -/
theorem Reads.body {text : Bytes} (h : Reads text st) (hg : decodeLoop.guard st = true) :
    ∃ st', decodeLoop.body st = some st' ∧ Reads text st' ∧ st'.r.length < st.r.length := by
  obtain ⟨r, a⟩ := st
  obtain ⟨hrest, hroom, hle⟩ := h
  cases r with
  | nil => exact absurd hg (by simp [decodeLoop])
  | cons c r =>
    have hc : c ≠ 0 := of_decide_eq_true hg
    obtain ⟨hlt, hsize⟩ := decodeRound_le c r
    simp only [length_cons] at hle hroom hrest
    have hput := Area.putAll_of_le a (decodeRound c r).1 (by omega)
    refine ⟨⟨(decodeRound c r).2, ⟨a.written ++ (decodeRound c r).1,
      a.room - (decodeRound c r).1.length⟩⟩, ?_, ⟨?_, ?_, ?_⟩, ?_⟩
    · simp only [decodeLoop, hput, map_some]
    · rw [← hrest, decoded_cons r hc, append_assoc]
    · simp only [length_append]
      omega
    · simp only [length_append]
      omega
    · exact Nat.lt_succ_of_le hlt

/-- In every state of a run no more was written than was read. -/
theorem Reads.of_reaches {text : Bytes}
    (h : decodeLoop.Reaches ⟨text, Area.alloc (text.length + 1)⟩ st) : Reads text st := by
  refine h.keeps ?_ (Reads.start text)
  rintro st st' hst ⟨hg, hbody⟩
  obtain ⟨u, hu, hreads, -⟩ := hst.body hg
  rw [hbody] at hu
  rwa [Option.some.inj hu]

theorem decoded_of_not_guard (h : decodeLoop.guard st = false) : decoded st.r = [] := by
  obtain ⟨r, a⟩ := st
  cases r with
  | nil => rw [decoded]
  | cons c r =>
    have hc : c = 0 := not_not.mp (of_decide_eq_false h)
    rw [decoded, if_pos hc]

theorem quotedPrintableDecode_eq (text : Bytes) :
    quotedPrintableDecode text = some (decoded text) := by
  obtain ⟨st, hrun, hst, hg⟩ := Loop.run_of_measure (P := Reads text)
    (fun st => st.r.length) (fun st hst hg => hst.body hg) text.length _ (Reads.start text)
    le_rfl
  have hwritten := hst.rest
  rw [decoded_of_not_guard hg, append_nil] at hwritten
  have hput := Area.put_of_pos st.a 0 (by have := hst.room; have := hst.le; omega)
  simp only [quotedPrintableDecode, hrun, hput, bind_eq_bind, bind_some, hwritten]
  rfl

/-! ### The lines -/

/-- The lines of a text, of which the first has begun. -/
def linesFrom (line : Bytes) : Bytes → List Bytes
  | [] => [line]
  | [c] => [line ++ [c]]
  | c :: d :: t =>
    if c = 13 ∧ d = 10 then line :: linesFrom [] t else linesFrom (line ++ [c]) (d :: t)

/-- The lines of a text, which end with CR LF. -/
def lines (text : Bytes) : List Bytes := linesFrom [] text

/-- No line is longer than 76 characters. -/
def Fits (line text : Bytes) : Prop := ∀ l ∈ linesFrom line text, l.length ≤ 76

theorem linesFrom_cons (line t : Bytes) (hc : c ≠ 13) :
    linesFrom line (c :: t) = linesFrom (line ++ [c]) t := by
  cases t with
  | nil => rfl
  | cons d t => rw [linesFrom, if_neg fun h => hc h.1]

theorem ne_cr_of_isxdigit (h : isxdigit c = true) : c ≠ 13 := by
  rintro rfl
  cases h

theorem ne_cr_of_not_escaped (h : ¬escaped c next = true) : c ≠ 13 := by
  rintro rfl
  simp [escaped, iscntrl] at h

theorem linesFrom_code (line t : Bytes) (c next : UInt8) :
    linesFrom line (code c next ++ t) = linesFrom (line ++ code c next) t := by
  unfold code
  by_cases he : escaped c next = true
  · obtain ⟨-, hhigh, hlow, -⟩ := digits_spec hex rfl c
    rw [if_pos he, cons_append, cons_append, cons_append, linesFrom_cons line _ (by decide),
      linesFrom_cons _ _ (ne_cr_of_isxdigit hhigh), linesFrom_cons _ _ (ne_cr_of_isxdigit hlow)]
    simp
  · rw [if_neg he, cons_append, nil_append, linesFrom_cons _ _ (ne_cr_of_not_escaped he)]

/-- The line in which a byte ends. -/
def lineAfter (line : Bytes) (c next : UInt8) : Bytes :=
  (if breaksBefore line.length c next then [] else line) ++ code c next

theorem length_lineAfter (line : Bytes) (c next : UInt8) :
    (lineAfter line c next).length = lpAfter line.length c next := by
  rw [lineAfter, lpAfter, length_append, length_code]
  split_ifs <;> rfl

/-- The line that is broken before a byte takes an equals sign more. -/
theorem fits_piece (line t : Bytes) (c next : UInt8) : Fits line (piece line.length c next ++ t) ↔
      (breaksBefore line.length c next = true → line.length ≤ 75) ∧
        Fits (lineAfter line c next) t := by
  unfold Fits piece lineAfter
  by_cases hb : breaksBefore line.length c next = true
  · have hcrlf : linesFrom (line ++ [61]) (13 :: 10 :: (code c next ++ t)) =
        (line ++ [61]) :: linesFrom [] (code c next ++ t) := rfl
    rw [if_pos hb, if_pos hb, append_assoc, cons_append, cons_append,
      cons_append, nil_append, linesFrom_cons line _ (by decide), hcrlf, linesFrom_code,
      forall_mem_cons, length_append]
    exact and_congr ⟨fun h _ => Nat.le_of_succ_le_succ h, fun h => Nat.succ_le_succ (h hb)⟩ Iff.rfl
  · rw [if_neg hb, if_neg hb, nil_append, linesFrom_code]
    exact ⟨fun h => ⟨fun hb' => absurd hb' hb, h⟩, fun h => h.2⟩

/-- A line ends here. -/
def endsLine : Bytes → Bool
  | [] => true
  | [_] => false
  | c :: d :: _ => c = 13 ∧ d = 10

/-- Before a byte above 0xF4 no line is broken, so that it needs room behind `lp` characters: for an
equals sign, too, unless it is the last of the line. -/
def HasRoom (lp : ℕ) (c : UInt8) (last : Bool) : Prop :=
  c ≤ 0xf4 ∨ lp + 3 ≤ maxl ∨ (lp + 3 = maxl + 1 ∧ last = true)

/-- Every byte of a string has room, where the line has `lp` characters before the first one. -/
def AllHaveRoom : ℕ → Bytes → Prop
  | _, [] => True
  | lp, [c] => HasRoom lp c true
  | lp, c :: next :: s =>
    if c = 13 ∧ next = 10 then AllHaveRoom 0 s
    else HasRoom lp c (endsLine (next :: s)) ∧ AllHaveRoom (lpAfter lp c next) (next :: s)

theorem le_of_not_escaped (h : ¬escaped c next = true) : c ≤ 0x7f := by
  have hhigh : ¬c &&& 0x80 ≠ 0 := by
    intro hc
    simp [escaped, hc] at h
  clear h
  obtain ⟨⟨n⟩⟩ := c
  revert n
  decide +kernel

theorem hasRoom_iff {lp : ℕ} (hlp : lp ≤ 75) (c next : UInt8) (last : Bool) :
    HasRoom lp c last ↔ lpAfter lp c next ≤ 75 ∨ (lpAfter lp c next = 76 ∧ last = true) := by
  unfold HasRoom lpAfter breaksBefore maxl
  by_cases he : escaped c next = true
  · simp only [he, if_true, breaks, maxl, Bool.or_eq_true, Bool.and_eq_true, decide_eq_true_eq,
      UInt8.le_iff_toNat_le, UInt8.lt_iff_toNat_lt, gt_iff_lt, UInt8.reduceToNat]
    cases last with
    | false =>
      simp only [Bool.false_eq_true, and_false, or_false]
      split_ifs <;> omega
    | true =>
      simp only [and_true]
      split_ifs <;> omega
  · have hle := le_of_not_escaped he
    simp only [he, UInt8.le_iff_toNat_le, UInt8.reduceToNat, decide_eq_true_eq, Bool.false_eq_true,
      if_false] at hle ⊢
    split_ifs <;> omega

/-- In a line that is too long already no byte has room. -/
theorem fits_byte_iff (lp : ℕ) (c next : UInt8) (last : Bool) :
    (breaksBefore lp c next = true → lp ≤ 75) ∧
        (lpAfter lp c next ≤ 75 ∨ (lpAfter lp c next = 76 ∧ last = true)) ↔
      lp ≤ 75 ∧ HasRoom lp c last := by
  by_cases hlp : lp ≤ 75
  · rw [hasRoom_iff hlp c next]
    exact and_congr_left' ⟨fun _ => hlp, fun _ _ => hlp⟩
  · have hlong : ¬breaksBefore lp c next = true → lp + 1 ≤ lpAfter lp c next := by
      intro hb
      rw [lpAfter]
      split_ifs <;> omega
    constructor
    · rintro ⟨hb, hafter⟩
      have hle := hlong fun h => hlp (hb h)
      omega
    · exact fun h => absurd h.1 hlp

/-- The lines of the text for a string fit when each of its bytes has room. -/
theorem fits_qpText_iff (line s : Bytes) : Fits line (qpText line.length s) ↔
      (line.length ≤ 75 ∨ (line.length = 76 ∧ endsLine s = true)) ∧ AllHaveRoom line.length s := by
  generalize hlp : line.length = lp
  induction lp, s using qpText.induct generalizing line with
  | case1 lp =>
    simp only [Fits, qpText, linesFrom, forall_mem_singleton, endsLine, AllHaveRoom, and_true]
    omega
  | case2 lp c =>
    subst hlp
    have hpiece := fits_piece line [] c 0
    have hlast : Fits (lineAfter line c 0) [] ↔
        lpAfter line.length c 0 ≤ 75 ∨ (lpAfter line.length c 0 = 76 ∧ true = true) := by
      rw [Fits, linesFrom, forall_mem_singleton, length_lineAfter]
      simp only [and_true]
      omega
    rw [append_nil, hlast, fits_byte_iff] at hpiece
    rw [qpText, hpiece, AllHaveRoom]
    simp [endsLine]
  | case3 lp c next s hcrlf ih =>
    subst hlp
    have hends : endsLine (c :: next :: s) = true := decide_eq_true hcrlf
    have hrest := ih [] rfl
    rw [qpText, if_pos hcrlf, AllHaveRoom, if_pos hcrlf, hends, Fits, linesFrom,
      if_pos ⟨rfl, rfl⟩, forall_mem_cons, ← Fits, hrest]
    have hle : line.length ≤ 76 ↔ line.length ≤ 75 ∨ line.length = 76 := by omega
    simp [hle]
  | case4 lp c next s hcrlf ih =>
    subst hlp
    have hends : endsLine (c :: next :: s) = false := decide_eq_false hcrlf
    have hrest := ih (lineAfter line c next) (length_lineAfter line c next)
    rw [qpText, if_neg hcrlf, fits_piece, hrest, ← and_assoc, fits_byte_iff, hends, AllHaveRoom,
      if_neg hcrlf, and_assoc]
    simp

theorem lines_qpText_iff (s : Bytes) :
    (∀ l ∈ lines (qpText 0 s), l.length ≤ 76) ↔ AllHaveRoom 0 s := by
  have hfits := fits_qpText_iff [] s
  exact hfits.trans ⟨fun h => h.2, fun h => ⟨Or.inl (Nat.zero_le _), h⟩⟩

/-! ### `php_quot_print_decode` in its buffer -/

/-- How many bytes the buffer is given for a text. -/
def counted : Bytes → ℕ
  | [] => 0
  | [_] => 1
  | c :: d :: t =>
    if c = 0 then t.length + 2 else if c = 61 then counted t else 1 + counted (d :: t)

/-- An equals sign and the byte behind it take two from the length, which has them. -/
theorem bufSize_eq (s : Bytes) (b : ℕ) :
    bufSize (s ++ [0]) s.length (b + s.length) = .ok (b + counted s) := by
  induction s using counted.induct generalizing b with
  | case1 => rfl
  | case2 c => simp [bufSize, counted]
  | case3 d t => simp [bufSize, counted]
  | case4 d t hc ih =>
    have hread : bufSize (61 :: d :: (t ++ [0])) (t.length + 2) (b + (t.length + 2)) =
        bufSize (t ++ [0]) t.length (b + t.length) := by
      rfl
    rw [counted, if_neg hc, if_pos rfl, ← ih b]
    exact hread
  | case5 c d t hnul hc ih =>
    have hmany : t.length + 2 > 1 ∧ c ≠ 0 := ⟨by omega, hnul⟩
    have hread : bufSize (c :: d :: (t ++ [0])) (t.length + 2) (b + (t.length + 2)) =
        bufSize (d :: (t ++ [0])) (t.length + 1) (b + 1 + (t.length + 1)) := by
      rw [bufSize, if_pos hmany, if_neg hc, Nat.add_right_comm b 1]
      rfl
    rw [counted, if_neg hnul, if_neg hc, ← Nat.add_assoc, ← ih (b + 1)]
    exact hread

theorem counted_le (s : Bytes) : counted s ≤ s.length := by
  induction s using counted.induct with
  | case1 => exact Nat.le_refl _
  | case2 c => exact Nat.le_refl _
  | case3 d t => simp [counted]
  | case4 d t hc ih =>
    exact Nat.le_trans ih (Nat.le_add_right _ 2)
  | case5 c d t hnul hc ih =>
    rw [counted, if_neg hnul, if_neg hc, Nat.add_comm]
    exact Nat.succ_le_succ ih

/-- A byte that is no equals sign is counted. -/
theorem counted_cons (t : Bytes) (hnul : c ≠ 0) (hc : c ≠ 61) :
    counted (c :: t) = 1 + counted t := by
  cases t with
  | nil => rfl
  | cons d t => rw [counted, if_neg hnul, if_neg hc]

theorem counted_le_cons (t : Bytes) (hc : c ≠ 61) : counted t ≤ counted (c :: t) := by
  by_cases hnul : c = 0
  · have hle := counted_le t
    cases t with
    | nil => exact Nat.zero_le _
    | cons d t =>
      rw [counted, if_pos hnul]
      exact Nat.le_succ_of_le hle
  · rw [counted_cons t hnul hc]
    omega

theorem hexval_digit (h : hexval c < 16) : c ≠ 0 ∧ c ≠ 61 := by
  constructor <;> rintro rfl <;> exact absurd h (by decide)

theorem hexval_ne (h : hexval c ≠ 64) : c ≠ 61 := by
  rintro rfl
  exact h (by decide)

/-- The text `rest` is left, with the NUL behind it. -/
def Quot.at (rest : Bytes) (a : Area UInt8) : Quot := ⟨rest ++ [0], rest.length, a⟩

/-- The buffer has room for what was counted, and for a NUL. -/
def Quot.Counted (n : ℕ) (st : Quot) : Prop :=
  ∃ rest a, st = Quot.at rest a ∧ rest.length ≤ n ∧ counted rest + 1 ≤ a.room

theorem sub_one (n : ℕ) : sub (n + 1) 1 = .ok n := rfl

/-- Behind a blank. -/
theorem skipBlanks_of_blank {d : UInt8} (hd : hexval d = 32) (h : UInt8) (p : Bytes) (n : ℕ) :
    skipBlanks (d :: h :: p) (n + 2) =
      if hexval h = 64 then .error .err else skipBlanks (h :: p) (n + 1) := by
  rw [skipBlanks, if_pos hd]
  rfl

theorem skipBlanks_defined (d : UInt8) (t : Bytes) (hd : hexval d ≠ 64) :
    Defined (fun p => ∃ x r, p = (x :: (r ++ [0]), r.length + 1) ∧
      r.length ≤ t.length ∧ counted r ≤ counted t)
      (skipBlanks (d :: (t ++ [0])) (t.length + 1)) := by
  induction t generalizing d with
  | nil =>
    by_cases hblank : hexval d = 32
    · rw [skipBlanks, if_pos hblank]
      exact Defined.err
    · rw [skipBlanks, if_neg hblank]
      exact Defined.ok ⟨d, [], rfl, le_rfl, le_rfl⟩
  | cons h t ih =>
    by_cases hblank : hexval d = 32
    · rw [cons_append, length_cons, skipBlanks_of_blank hblank]
      by_cases hh : hexval h = 64
      · rw [if_pos hh]
        exact Defined.err
      · rw [if_neg hh]
        refine (ih h hh).mono ?_
        rintro p ⟨x, r, rfl, hlen, hcount⟩
        exact ⟨x, r, rfl, Nat.le_succ_of_le hlen,
          le_trans hcount (counted_le_cons t (hexval_ne hh))⟩
    · rw [skipBlanks, if_neg hblank]
      exact Defined.ok ⟨d, h :: t, rfl, le_rfl, le_rfl⟩

/-- Behind an equals sign. -/
theorem decodeEscape_defined (d : UInt8) (t : Bytes) (a : Area UInt8)
    (hroom : counted t + 1 ≤ a.room) :
    Defined (Quot.Counted t.length) (decodeEscape (Quot.at (d :: t) a)) := by
  unfold decodeEscape Quot.at
  simp only [cons_append, at0, head?_cons, orUndefined, ok_bind, length_cons, tail_cons, sub_one]
  by_cases hdigit : hexval d < 16
  · rw [if_pos hdigit]
    cases t with
    | nil => exact Defined.err
    | cons l t =>
      simp only [cons_append, head?_cons, ok_bind, tail_cons]
      by_cases hl : 16 ≤ hexval l
      · rw [if_pos hl]
        exact Defined.err
      · obtain ⟨hnul, hne⟩ := hexval_digit (lt_of_not_ge hl)
        rw [counted_cons t hnul hne] at hroom
        rw [if_neg hl, Area.put_of_pos a _ (by omega)]
        exact Defined.ok ⟨t, _, rfl, Nat.le_succ _, by simp only; omega⟩
  rw [if_neg hdigit]
  by_cases hsoft : hexval d < 64
  · rw [if_pos hsoft]
    refine (skipBlanks_defined d t (ne_of_lt hsoft)).bind ?_
    rintro p ⟨x, r, rfl, hlen, hcount⟩
    simp only [head?_cons, ok_bind, tail_cons]
    by_cases hcr : x = 13 ∧ 2 ≤ r.length + 1
    · rw [if_pos hcr]
      cases r with
      | nil => exact absurd hcr.2 (by decide)
      | cons y r =>
        simp only [cons_append, head?_cons, ok_bind]
        by_cases hlf : y = 10
        · rw [hlf] at hcount
          have hle := counted_le_cons r (show (10 : UInt8) ≠ 61 by decide)
          rw [if_pos hlf]
          exact Defined.ok ⟨r, a, rfl, Nat.le_of_succ_le hlen, by omega⟩
        · rw [if_neg hlf]
          exact Defined.ok ⟨y :: r, a, rfl, hlen, by omega⟩
    · rw [if_neg hcr]
      exact Defined.ok ⟨r, a, rfl, hlen, by omega⟩
  · rw [if_neg hsoft]
    exact Defined.err

/-- The second loop reads only bytes of the text, and writes only in the buffer. -/
theorem quotLoop_defined (us : Bool) (fuel : ℕ) (rest : Bytes) (a : Area UInt8)
    (hfuel : rest.length ≤ fuel) (hroom : counted rest + 1 ≤ a.room) :
    Defined (fun a => 0 < a.room) (quotLoop us fuel (Quot.at rest a)) := by
  induction fuel generalizing rest a with
  | zero =>
    obtain rfl := length_eq_zero_iff.mp (Nat.le_zero.mp hfuel)
    exact Defined.ok (lt_of_lt_of_le (Nat.succ_pos _) hroom)
  | succ fuel ih =>
    have hpos : 0 < a.room := lt_of_lt_of_le (Nat.succ_pos _) hroom
    cases rest with
    | nil => exact Defined.ok hpos
    | cons c t =>
      simp only [quotLoop, Quot.at, length_cons, at0, cons_append, head?_cons,
        orUndefined, ok_bind, tail_cons, sub_one]
      by_cases hnul : c = 0
      · rw [if_pos hnul]
        exact Defined.ok hpos
      rw [if_neg hnul]
      by_cases hc : c = 61
      · rw [if_pos hc]
        cases t with
        | nil => exact Defined.ok hpos
        | cons d t =>
          simp only [length_cons, if_neg (Nat.succ_ne_zero _), cons_append, head?_cons, ok_bind]
          by_cases hd : d = 0
          · rw [if_pos hd]
            exact Defined.ok hpos
          · rw [if_neg hd]
            rw [hc] at hroom
            refine (decodeEscape_defined d t a hroom).bind ?_
            rintro st ⟨rest, a, rfl, hlen, hroom⟩
            simp only [length_cons] at hfuel
            exact ih rest a (by omega) hroom
      · rw [counted_cons t hnul hc] at hroom
        rw [if_neg hc, Area.put_of_pos a _ hpos]
        exact ih t _ (Nat.le_of_succ_le_succ hfuel) (by simp only; omega)

theorem quotPrintDecode_defined (str : Bytes) (us : Bool) :
    quotPrintDecode str us ≠ .error .undefined := by
  have hsize := bufSize_eq str 0
  rw [Nat.zero_add, Nat.zero_add] at hsize
  have hloop := quotLoop_defined us str.length str (Area.alloc (counted str + 1)) (Nat.le_refl _)
    (Nat.le_refl _)
  refine Defined.ne_undefined (P := fun _ => True) ?_
  unfold quotPrintDecode
  rw [hsize]
  refine hloop.bind fun a ha => ?_
  rw [Area.put_of_pos a 0 ha]
  trivial

/-! ### Coding -/

/-- What is encoded is decoded again; whatever the texts, `quoted_printable_decode` writes no more
than it has read, and `php_quot_print_decode` reads and writes only where it may and takes from its
length only what it has; and no line is too long, exactly when every byte above 0xF4 has room in its
line, before which the encoder never breaks one. -/
theorem quotPrintEncode_ok_iff (s : Bytes) :
    (∃ t, quotPrintEncode s = some t ∧ quotedPrintableDecode t = some s ∧
        ∀ l ∈ lines t, l.length ≤ 76) ∧
      (∀ text st, decodeLoop.Reaches ⟨text, Area.alloc (text.length + 1)⟩ st →
        st.a.written.length ≤ text.length - st.r.length) ∧
      (∀ text, (quotedPrintableDecode text).isSome) ∧
      (∀ text us, quotPrintDecode text us ≠ .error .undefined) ↔ AllHaveRoom 0 s := by
  have hle : ∀ text st, decodeLoop.Reaches ⟨text, Area.alloc (text.length + 1)⟩ st →
      st.a.written.length ≤ text.length - st.r.length :=
    fun text st hst => Nat.le_sub_of_add_le (Reads.of_reaches hst).le
  have hsome : ∀ text, (quotedPrintableDecode text).isSome := by
    intro text
    rw [quotedPrintableDecode_eq]
    rfl
  constructor
  · rintro ⟨⟨t, ht, -, hlines⟩, -⟩
    rw [quotPrintEncode_eq] at ht
    rw [← Option.some.inj ht] at hlines
    exact (lines_qpText_iff s).mp hlines
  · intro h
    refine ⟨⟨qpText 0 s, quotPrintEncode_eq s, ?_, (lines_qpText_iff s).mpr h⟩, hle, hsome,
      quotPrintDecode_defined⟩
    rw [quotedPrintableDecode_eq, decoded_qpText]

/-- The byte 0xFF is written as three characters, and never begins a new line. -/
theorem lines_replicate_ff :
    ∃ t, quotPrintEncode (replicate 26 0xff) = some t ∧ ¬ ∀ l ∈ lines t, l.length ≤ 76 :=
  ⟨qpText 0 (replicate 26 0xff), quotPrintEncode_eq _, by decide⟩

end PhpQuotPrint
