/-
# The head of a request

`ngx_http_parse_header_line` of `ngx_http_parse.c`, and the calls that read the head of a
request: `ngx_http_parse_request_line` until the line is there, then
`ngx_http_parse_header_line` for one header after the other.  Where a parser refuses a byte
the fields that it has set before are kept here too.

Both parsers have their place in a word of states in locals, which they load from `r` and
store back; the header parser does so with the hash of the name.
-/
import ReadingCode.HashTable
import ReadingCode.RequestLine
import ReadingCode.Transducer

namespace RequestHead

open RequestLine (SwState word lineByte)
open HashTable (ngxHash)

/-! ## The request -/

/-- The fields of `r` that the two parsers set, less `r->state`. -/
structure Head where
  line : RequestLine.Request
  httpVersion : ℕ
  headerNameStart : Option ℕ
  headerNameEnd : Option ℕ
  headerStart : Option ℕ
  headerEnd : Option ℕ
  invalidHeader : Bool
  headerHash : ℕ
  lowcaseIndex : ℕ
  lowcaseHeader : Bytes
  deriving DecidableEq, Repr

/-- `NGX_HTTP_LC_HEADER_LEN` -/
def lcHeaderLen : ℕ := 32

/-- A request that has just been created. -/
def Head.init : Head :=
  ⟨.init, 0, none, none, none, none, false, 0, 0, List.replicate lcHeaderLen 0⟩

/-! ## `ngx_http_parse_request_line`, with the fields it leaves -/

/-- What the parser sets before it refuses a byte. -/
def refused (state : SwState) (r : RequestLine.Request) (p : ℕ) : RequestLine.Request :=
  match state with
  | .start => { r with requestStart := some p }
  | .hostStart => { r with hostStart := some p, hostEnd := some p }
  | .host => { r with hostEnd := some p }
  | .hostEnd => { r with hostEnd := some p }
  | .checkUriHttp09 => { r with marks := { r.marks with spaceInUri := true } }
  | .http09 => { r with marks := { r.marks with spaceInUri := true } }
  | .almostDone => { r with requestEnd := some (p - 1) }
  | _ => r

/-- The codes that end the reading of a head with an error. -/
inductive Rc where
  | invalidMethod
  | invalidRequest
  | invalid09Method
  | invalidHeader
  deriving DecidableEq, Repr

/-- What a call returns: `NGX_AGAIN`, `NGX_OK`, `NGX_HTTP_PARSE_HEADER_DONE` or an error; `pos`
is `b->pos`, and `rest` what lies after it. -/
inductive Call (S : Type) where
  | again (state : S) (r : Head) (pos : ℕ)
  | ok (r : Head) (pos : ℕ) (rest : Bytes)
  | headerDone (r : Head) (pos : ℕ)
  | error (rc : Rc) (r : Head)
  deriving DecidableEq, Repr

/-- What is set at the label `done:` of the request line. -/
def lineDone (r : Head) (line : RequestLine.Request) (p : ℕ) : Head :=
  { r with
    line := { line with requestEnd := some (line.requestEnd.getD p) }
    httpVersion := line.httpMajor * 1000 + line.httpMinor }

/-- The loop, `p` the offset of the byte at hand. -/
def requestLineLoop (win32 : Bool) (data : Bytes) :
    SwState → Head → ℕ → Bytes → Call SwState
  | state, r, p, [] => .again state r p
  | state, r, p, ch :: rest =>
    match lineByte win32 data state r.line p ch with
    | .next state line => requestLineLoop win32 data state { r with line := line } (p + 1) rest
    | .done line =>
      let r := lineDone r line p
      if r.httpVersion = 9 ∧ r.line.method ≠ .get then .error .invalid09Method r
      else .ok r (p + 1) rest
    | .invalidMethod => .error .invalidMethod { r with line := refused state r.line p }
    | .invalidRequest => .error .invalidRequest { r with line := refused state r.line p }

/-- What a call returns, less the fields that an error leaves. -/
def Call.result : Call SwState → Option RequestLine.Result
  | .again state r pos => some (.again state r.line pos)
  | .ok r pos _ => some (.ok r.line r.httpVersion pos)
  | .headerDone _ _ => none
  | .error .invalidMethod _ => some .invalidMethod
  | .error .invalidRequest _ => some .invalidRequest
  | .error .invalid09Method _ => some .invalid09Method
  | .error .invalidHeader _ => none

/-- It is the parser of the request line, with more of what it leaves. -/
theorem result_requestLineLoop (win32 : Bool) (data rest : Bytes) :
    ∀ (state : SwState) (r : Head) (p : ℕ), (requestLineLoop win32 data state r p rest).result
        = some (RequestLine.requestLineLoop win32 data state r.line p rest) := by
  induction rest with
  | nil => exact fun _ _ _ => rfl
  | cons ch rest ih =>
    intro state r p
    rw [requestLineLoop, RequestLine.requestLineLoop]
    cases lineByte win32 data state r.line p ch with
    | next state line => exact ih state { r with line := line } (p + 1)
    | done line =>
      dsimp only [RequestLine.finish]
      by_cases h09 : (lineDone r line p).httpVersion = 9 ∧ (lineDone r line p).line.method ≠ .get
      · rw [if_pos h09]
        exact congrArg some (if_pos h09).symm
      · rw [if_neg h09]
        exact congrArg some (if_neg h09).symm
    | invalidMethod => rfl
    | invalidRequest => rfl

/-! ## `ngx_http_parse_header_line` -/

/-- The parser's `state`. -/
inductive HeaderSw where
  | start
  | name
  | spaceBeforeValue
  | value
  | spaceAfterValue
  | ignoreLine
  | almostDone
  | headerAlmostDone
  deriving DecidableEq, Repr

/-- What the parser is called with: `allow_underscores`, and whether there is an
`r->upstream`. -/
structure Conf where
  allowUnderscores : Bool
  upstream : Bool
  deriving DecidableEq, Repr

/-- `lowcase[]` -/
def lowcase (ch : UInt8) : UInt8 :=
  if 0x61 ≤ ch ∧ ch ≤ 0x7A then ch
  else if 0x41 ≤ ch ∧ ch ≤ 0x5A then ch ||| 0x20
  else if 0x30 ≤ ch ∧ ch ≤ 0x39 then ch
  else if ch = 0x2D then ch
  else 0

/-- `'_'` -/
abbrev UNDERSCORE : UInt8 := 0x5F

/-- `':'` -/
abbrev COLON : UInt8 := 0x3A

/-- The locals of the parser besides `p`. -/
structure Locals where
  state : HeaderSw
  hash : ℕ
  i : ℕ
  deriving DecidableEq, Repr

/-- What a byte does: `goto done` is `done`, `goto header_done` is `headerDone`. -/
inductive HeaderStep where
  | next (l : Locals) (r : Head)
  | done (l : Locals) (r : Head)
  | headerDone (r : Head)
  | invalid (r : Head)
  deriving DecidableEq, Repr

/-- `case sw_start` -/
def startByte (conf : Conf) (l : Locals) (r : Head) (p : ℕ) (ch : UInt8) : HeaderStep :=
  let r := { r with headerNameStart := some p, invalidHeader := false }
  if ch = CR then .next { l with state := .headerAlmostDone } { r with headerEnd := some p }
  else if ch = LF then .headerDone { r with headerEnd := some p }
  else
    let l := { l with state := .name }
    let first := fun c : UInt8 => HeaderStep.next { l with hash := ngxHash 0 c, i := 1 }
      { r with lowcaseHeader := r.lowcaseHeader.set 0 c }
    if lowcase ch ≠ 0 then first (lowcase ch)
    else if ch = UNDERSCORE then
      if conf.allowUnderscores then first ch else .next l { r with invalidHeader := true }
    else if ch = NUL then .invalid r
    else .next l { r with invalidHeader := true }

/-- `case sw_name`.  `data` is the buffer from its start. -/
def nameByte (conf : Conf) (data : Bytes) (l : Locals) (r : Head) (p : ℕ) (ch : UInt8) :
    HeaderStep :=
  let more := fun c : UInt8 =>
    HeaderStep.next { l with hash := ngxHash l.hash c, i := (l.i + 1) &&& (lcHeaderLen - 1) }
      { r with lowcaseHeader := r.lowcaseHeader.set l.i c }
  let noValue := { r with headerNameEnd := some p, headerStart := some p, headerEnd := some p }
  let nameStart := r.headerNameStart.getD 0
  if lowcase ch ≠ 0 then more (lowcase ch)
  else if ch = UNDERSCORE then
    if conf.allowUnderscores then more ch else .next l { r with invalidHeader := true }
  else if ch = COLON then
    .next { l with state := .spaceBeforeValue } { r with headerNameEnd := some p }
  else if ch = CR then .next { l with state := .almostDone } noValue
  else if ch = LF then .done l noValue
  else if ch = SLASH ∧ conf.upstream ∧ p - nameStart = 4
      ∧ (data.drop nameStart).take 4 = word "HTTP" then
    .next { l with state := .ignoreLine } r
  else if ch = NUL then .invalid r
  else .next l { r with invalidHeader := true }

/-- `case sw_space_before_value` -/
def spaceBeforeValueByte (l : Locals) (r : Head) (p : ℕ) (ch : UInt8) : HeaderStep :=
  let noValue := { r with headerStart := some p, headerEnd := some p }
  if ch = SP then .next l r
  else if ch = CR then .next { l with state := .almostDone } noValue
  else if ch = LF then .done l noValue
  else if ch = NUL then .invalid r
  else .next { l with state := .value } { r with headerStart := some p }

/-- `case sw_value` -/
def valueByte (l : Locals) (r : Head) (p : ℕ) (ch : UInt8) : HeaderStep :=
  if ch = SP then .next { l with state := .spaceAfterValue } { r with headerEnd := some p }
  else if ch = CR then .next { l with state := .almostDone } { r with headerEnd := some p }
  else if ch = LF then .done l { r with headerEnd := some p }
  else if ch = NUL then .invalid r
  else .next l r

/-- `case sw_space_after_value` -/
def spaceAfterValueByte (l : Locals) (r : Head) (ch : UInt8) : HeaderStep :=
  if ch = SP then .next l r
  else if ch = CR then .next { l with state := .almostDone } r
  else if ch = LF then .done l r
  else if ch = NUL then .invalid r
  else .next { l with state := .value } r

/-- The `switch (state)`. -/
def headerByte (conf : Conf) (data : Bytes) (l : Locals) (r : Head) (p : ℕ) (ch : UInt8) :
    HeaderStep :=
  match l.state with
  | .start => startByte conf l r p ch
  | .name => nameByte conf data l r p ch
  | .spaceBeforeValue => spaceBeforeValueByte l r p ch
  | .value => valueByte l r p ch
  | .spaceAfterValue => spaceAfterValueByte l r ch
  | .ignoreLine => .next { l with state := if ch = LF then .start else .ignoreLine } r
  | .almostDone => if ch = LF then .done l r else if ch = CR then .next l r else .invalid r
  | .headerAlmostDone => if ch = LF then .headerDone r else .invalid r

/-- The hash and the index are stored back. -/
def Head.store (r : Head) (l : Locals) : Head :=
  { r with headerHash := l.hash, lowcaseIndex := l.i }

/-- The loop, `p` the offset of the byte at hand. -/
def headerLineLoop (conf : Conf) (data : Bytes) :
    Locals → Head → ℕ → Bytes → Call HeaderSw
  | l, r, p, [] => .again l.state (r.store l) p
  | l, r, p, ch :: rest =>
    match headerByte conf data l r p ch with
    | .next l r => headerLineLoop conf data l r (p + 1) rest
    | .done l r => .ok (r.store l) (p + 1) rest
    | .headerDone r => .headerDone r (p + 1)
    | .invalid r => .error .invalidHeader r

/-- `ngx_http_parse_header_line(r, b, allow_underscores)`, `rest` being what lies between
`b->pos` and `b->last`. -/
def ngxHttpParseHeaderLine (conf : Conf) (data : Bytes) (state : HeaderSw) (r : Head)
    (pos : ℕ) (rest : Bytes) : Call HeaderSw :=
  headerLineLoop conf data ⟨state, r.headerHash, r.lowcaseIndex⟩ r pos rest

/-! ## Reading a head -/

/-- The parser that is called, with `r->state`. -/
inductive Stage where
  | line (state : SwState)
  | header (state : HeaderSw)
  deriving DecidableEq, Repr

/-- How the reading of a head stands: it waits for more, or it has ended. -/
inductive Session where
  | waiting (stage : Stage) (r : Head) (pos : ℕ)
  | done (r : Head) (pos : ℕ)
  | failed (rc : Rc) (r : Head)
  deriving DecidableEq, Repr

/-- The calls on a buffer until all of it is read: the fields at the end of each header, and
how the reading stands.  No more than `fuel` calls are made. -/
def calls (win32 : Bool) (conf : Conf) (data : Bytes) :
    ℕ → Stage → Head → ℕ → Bytes → List Head × Session
  | 0, stage, r, pos, _ => ([], .waiting stage r pos)
  | fuel + 1, .line state, r, pos, rest =>
    match requestLineLoop win32 data state r pos rest with
    | .again state r pos => ([], .waiting (.line state) r pos)
    | .ok r pos rest => calls win32 conf data fuel (.header .start) r pos rest
    | .headerDone r pos => ([], .done r pos)
    | .error rc r => ([], .failed rc r)
  | fuel + 1, .header state, r, pos, rest =>
    match ngxHttpParseHeaderLine conf data state r pos rest with
    | .again state r pos => ([], .waiting (.header state) r pos)
    | .ok r pos rest =>
      let c := calls win32 conf data fuel (.header .start) r pos rest
      (r :: c.1, c.2)
    | .headerDone r pos => ([], .done r pos)
    | .error rc r => ([], .failed rc r)

/-- The calls on a buffer that grows with each read.  Each call that returns `NGX_OK` has read
a byte at least. -/
def reads (win32 : Bool) (conf : Conf) :
    Bytes → Session → List Bytes → List Head × Session
  | data, .waiting stage r pos, read :: more =>
    let rest := (data ++ read).drop pos
    let c := calls win32 conf (data ++ read) (rest.length + 1) stage r pos rest
    let d := reads win32 conf (data ++ read) c.2 more
    (c.1 ++ d.1, d.2)
  | _, session, _ => ([], session)

/-- The head of a request, as it comes in. -/
def readHead (win32 : Bool) (conf : Conf) (rs : List Bytes) : List Head × Session :=
  reads win32 conf [] (.waiting (.line .start) .init 0) rs

/-!
# A head does not depend on how it comes in

One byte at a time the parsers are a transducer that emits the fields at the end of each header.
The header parser stores the hash of a name back only where a call returns `NGX_AGAIN` or `NGX_OK`,
the transducer at every byte, which tells the two apart where a call ends otherwise.
-/

open Transducer

open List

/-! ## The buffer beyond the byte at hand -/

theorem take_drop_take {A : Type*} (s : List A) (m p : ℕ) :
    ((s.take p).drop m).take (p - m) = (s.drop m).take (p - m) := by
  rw [drop_take, take_take, min_self]

/-- The request line parser looks back only. -/
theorem lineByte_take (win32 : Bool) (data : Bytes) (state : SwState)
    (r : RequestLine.Request) (p : ℕ) (ch : UInt8) :
    lineByte win32 data state r p ch = lineByte win32 (data.take p) state r p ch := by
  simp only [lineByte, RequestLine.methodByte, take_drop_take]

/-- So does the header parser. -/
theorem headerByte_take (conf : Conf) (data : Bytes) (l : Locals) (r : Head) (p : ℕ)
    (ch : UInt8) : headerByte conf data l r p ch = headerByte conf (data.take p) l r p ch := by
  have hword : (p - r.headerNameStart.getD 0 = 4
      ∧ (data.drop (r.headerNameStart.getD 0)).take 4 = word "HTTP")
        = (p - r.headerNameStart.getD 0 = 4
      ∧ ((data.take p).drop (r.headerNameStart.getD 0)).take 4 = word "HTTP") := by
    refine propext (and_congr_right fun h => ?_)
    have htake := take_drop_take data (r.headerNameStart.getD 0) p
    rw [h] at htake
    rw [htake]
  simp only [headerByte, nameByte, hword]

/-! ## The stored hash -/

/-- A step with the hash and the index stored in the fields. -/
def HeaderStep.store (l : Locals) : HeaderStep → HeaderStep
  | .next l' r => .next l' (r.store l)
  | .done l' r => .done l' (r.store l)
  | .headerDone r => .headerDone (r.store l)
  | .invalid r => .invalid (r.store l)

theorem HeaderStep.store_ite (l : Locals) (c : Prop) [Decidable c] (a b : HeaderStep) :
    (if c then a else b).store l = if c then a.store l else b.store l := apply_ite ..

@[simp] theorem Head.store_store (r : Head) (l l' : Locals) : (r.store l).store l' = r.store l' :=
  rfl

/-- No byte looks at the fields in which the hash and the index are stored, or sets them. -/
theorem headerByte_store (conf : Conf) (data : Bytes) (l l' : Locals) (r : Head) (p : ℕ)
    (ch : UInt8) :
    headerByte conf data l (r.store l') p ch = (headerByte conf data l r p ch).store l' := by
  rcases l with ⟨state, hash, i⟩
  cases state
  · simp only [headerByte, startByte, HeaderStep.store_ite]
    rfl
  · simp only [headerByte, nameByte, HeaderStep.store_ite]
    rfl
  · simp only [headerByte, spaceBeforeValueByte, HeaderStep.store_ite]
    rfl
  · simp only [headerByte, valueByte, HeaderStep.store_ite]
    rfl
  · simp only [headerByte, spaceAfterValueByte, HeaderStep.store_ite]
    rfl
  · rfl
  · simp only [headerByte, HeaderStep.store_ite]
    rfl
  · simp only [headerByte, HeaderStep.store_ite]
    rfl

/-! ## The transducer -/

/-- What has been read, the parser at work with its state, and the fields. -/
structure Reader where
  seen : Bytes
  stage : Stage
  r : Head

/-- How the reading ends for good. -/
inductive Ended where
  | done (r : Head) (pos : ℕ)
  | failed (rc : Rc) (r : Head)

/-- One byte of the request line. -/
def lineStep (win32 : Bool) (seen : Bytes) (state : SwState) (r : Head) (ch : UInt8) :
    Move Reader Head Ended :=
  match lineByte win32 seen state r.line seen.length ch with
  | .next state line => .next ⟨seen ++ [ch], .line state, { r with line := line }⟩ []
  | .done line =>
    let r := lineDone r line seen.length
    if r.httpVersion = 9 ∧ r.line.method ≠ .get then .halt (.failed .invalid09Method r)
    else .next ⟨seen ++ [ch], .header .start, r⟩ []
  | .invalidMethod =>
    .halt (.failed .invalidMethod { r with line := refused state r.line seen.length })
  | .invalidRequest =>
    .halt (.failed .invalidRequest { r with line := refused state r.line seen.length })

/-- One byte of a header, the hash being stored at once. -/
def headerStep (conf : Conf) (seen : Bytes) (state : HeaderSw) (r : Head) (ch : UInt8) :
    Move Reader Head Ended :=
  match headerByte conf seen ⟨state, r.headerHash, r.lowcaseIndex⟩ r seen.length ch with
  | .next l r => .next ⟨seen ++ [ch], .header l.state, r.store l⟩ []
  | .done l r => .next ⟨seen ++ [ch], .header .start, r.store l⟩ [r.store l]
  | .headerDone r => .halt (.done r (seen.length + 1))
  | .invalid r => .halt (.failed .invalidHeader r)

/-- One byte of the head. -/
def readStep (win32 : Bool) (conf : Conf) : Reader → UInt8 → Move Reader Head Ended
  | ⟨seen, .line state, r⟩, ch => lineStep win32 seen state r ch
  | ⟨seen, .header state, r⟩, ch => headerStep conf seen state r ch

/-! ## What is compared -/

/-- The fields without the hash of the name and its index. -/
def Head.withoutHash (r : Head) : Head := { r with headerHash := 0, lowcaseIndex := 0 }

/-- Two readings of a head stand alike.  The hash that is left behind where the reading has
ended in a header is not compared; at the end of the head it is, unless there is an upstream. -/
def Session.Agree (conf : Conf) : Session → Session → Prop
  | .waiting stage r pos, .waiting stage' r' pos' => stage = stage' ∧ r = r' ∧ pos = pos'
  | .done r pos, .done r' pos' =>
    r.withoutHash = r'.withoutHash ∧ pos = pos' ∧ (conf.upstream = false → r = r')
  | .failed rc r, .failed rc' r' =>
    rc = rc' ∧ r.withoutHash = r'.withoutHash ∧ (rc ≠ .invalidHeader → r = r')
  | _, _ => False

theorem Session.Agree.refl (conf : Conf) (s : Session) : s.Agree conf s := by
  cases s with
  | waiting stage r pos => exact ⟨rfl, rfl, rfl⟩
  | done r pos => exact ⟨rfl, rfl, fun _ => rfl⟩
  | failed rc r => exact ⟨rfl, rfl, fun _ => rfl⟩

variable {conf : Conf} {l : Locals} {r : Head}

theorem Session.Agree.symm {s t : Session} (h : s.Agree conf t) : t.Agree conf s := by
  cases s <;> cases t <;> try exact h.elim
  · exact ⟨h.1.symm, h.2.1.symm, h.2.2.symm⟩
  · exact ⟨h.1.symm, h.2.1.symm, fun hup => (h.2.2 hup).symm⟩
  · exact ⟨h.1.symm, h.2.1.symm, fun hrc => (h.2.2 (h.1 ▸ hrc)).symm⟩

theorem Session.Agree.trans {s t u : Session} (h : s.Agree conf t)
    (h' : t.Agree conf u) : s.Agree conf u := by
  cases s <;> cases t <;> try exact h.elim
  all_goals cases u <;> try exact h'.elim
  · exact ⟨h.1.trans h'.1, h.2.1.trans h'.2.1, h.2.2.trans h'.2.2⟩
  · exact ⟨h.1.trans h'.1, h.2.1.trans h'.2.1, fun hup => (h.2.2 hup).trans (h'.2.2 hup)⟩
  · exact ⟨h.1.trans h'.1, h.2.1.trans h'.2.1, fun hrc => (h.2.2 hrc).trans (h'.2.2 (h.1 ▸ hrc))⟩

/-- How a run of the transducer stands. -/
def report : Ending Reader UInt8 Ended → Session
  | .live s => .waiting s.stage s.r s.seen.length
  | .halted (.done r pos) _ => .done r pos
  | .halted (.failed rc r) _ => .failed rc r

/-! ## The hash at the end of the head -/

/-- Without an upstream no line is ignored, and where the head may end the locals are what
is stored. -/
def Clean (conf : Conf) (l : Locals) (r : Head) : Prop :=
  conf.upstream = false → l.state ≠ .ignoreLine
    ∧ (l.state = .start ∨ l.state = .headerAlmostDone → r.store l = r)

theorem clean_load (conf : Conf) {state : HeaderSw} (r : Head)
    (h : conf.upstream = false → state ≠ .ignoreLine) :
    Clean conf ⟨state, r.headerHash, r.lowcaseIndex⟩ r :=
  fun hup => ⟨h hup, fun _ => rfl⟩

theorem Head.store_eq_self : r.store l = r ↔ l.hash = r.headerHash ∧ l.i = r.lowcaseIndex := by
  constructor
  · intro h
    exact ⟨congrArg Head.headerHash h, congrArg Head.lowcaseIndex h⟩
  · rintro ⟨hhash, hindex⟩
    simp only [Head.store, hhash, hindex]

theorem Clean.headerByte {data : Bytes} {l' : Locals} {r' : Head} {p : ℕ}
    {ch : UInt8} (h : Clean conf l r) (hstep : headerByte conf data l r p ch = .next l' r') :
    Clean conf l' r' := by
  intro hup
  obtain ⟨h1, h2⟩ := h hup
  rcases l with ⟨state, hash, i⟩
  cases state with
  | start =>
    simp only [RequestHead.headerByte, startByte] at hstep
    split_ifs at hstep <;> cases hstep
    · have hstored := Head.store_eq_self.1 (h2 (.inl rfl))
      exact ⟨by simp, fun _ => Head.store_eq_self.2 hstored⟩
    all_goals exact ⟨by simp, by simp⟩
  | name =>
    simp only [RequestHead.headerByte, nameByte, hup] at hstep
    split_ifs at hstep <;> first | exact absurd ‹_ ∧ _› (by simp) | cases hstep
    all_goals exact ⟨by simp, by simp⟩
  | spaceBeforeValue =>
    simp only [RequestHead.headerByte, spaceBeforeValueByte] at hstep
    split_ifs at hstep <;> cases hstep
    all_goals exact ⟨by simp, by simp⟩
  | value =>
    simp only [RequestHead.headerByte, valueByte] at hstep
    split_ifs at hstep <;> cases hstep
    all_goals exact ⟨by simp, by simp⟩
  | spaceAfterValue =>
    simp only [RequestHead.headerByte, spaceAfterValueByte] at hstep
    split_ifs at hstep <;> cases hstep
    all_goals exact ⟨by simp, by simp⟩
  | ignoreLine => exact absurd rfl h1
  | almostDone =>
    simp only [RequestHead.headerByte] at hstep
    split_ifs at hstep
    cases hstep
    exact ⟨by simp, by simp⟩
  | headerAlmostDone =>
    simp only [RequestHead.headerByte] at hstep
    split_ifs at hstep

/-- The head ends where it may end. -/
theorem state_of_headerDone {data : Bytes} {r' : Head} {p : ℕ}
    {ch : UInt8} (hstep : headerByte conf data l r p ch = .headerDone r') :
    l.state = .start ∨ l.state = .headerAlmostDone := by
  rcases l with ⟨state, hash, i⟩
  cases state with
  | start => exact .inl rfl
  | headerAlmostDone => exact .inr rfl
  | name =>
    simp only [headerByte, nameByte] at hstep
    split_ifs at hstep
  | spaceBeforeValue =>
    simp only [headerByte, spaceBeforeValueByte] at hstep
    split_ifs at hstep
  | value =>
    simp only [headerByte, valueByte] at hstep
    split_ifs at hstep
  | spaceAfterValue =>
    simp only [headerByte, spaceAfterValueByte] at hstep
    split_ifs at hstep
  | ignoreLine => cases hstep
  | almostDone =>
    simp only [headerByte] at hstep
    split_ifs at hstep

/-! ## One call -/

section

variable (win32 : Bool) (conf : Conf)

/-- A call on `rest` is what the transducer does with it: it goes on where the call waits or
returns `NGX_OK`, and ends as the call does. -/
def CallSpec {S : Type} (wrap : S → Stage) (emit : Head → List Head) (seen rest : Bytes)
    (o : Outcome Reader UInt8 Head Ended) : Call S → Prop
  | .again state r pos =>
    o = ([], .live ⟨seen ++ rest, wrap state, r⟩) ∧ pos = (seen ++ rest).length
  | .ok r pos left =>
    ∃ u, rest = u ++ left ∧ left.length < rest.length ∧ pos = (seen ++ u).length
      ∧ o = (emit r ++ (run (readStep win32 conf) ⟨seen ++ u, .header .start, r⟩ left).1,
          (run (readStep win32 conf) ⟨seen ++ u, .header .start, r⟩ left).2)
  | .headerDone r pos => o.1 = [] ∧ (Session.done r pos).Agree conf (report o.2)
  | .error rc r => o.1 = [] ∧ (Session.failed rc r).Agree conf (report o.2)

variable {win32 conf}

/-- A byte on which the transducer goes on leaves the rest of the call. -/
theorem CallSpec.cons {S : Type} {wrap : S → Stage} {emit : Head → List Head}
    {seen rest : Bytes} {ch : UInt8} {s s' : Reader} {c : Call S}
    (hstep : readStep win32 conf s ch = .next s' [])
    (h : CallSpec win32 conf wrap emit (seen ++ [ch]) rest (run (readStep win32 conf) s' rest) c) :
    CallSpec win32 conf wrap emit seen (ch :: rest)
    (run (readStep win32 conf) s (ch :: rest)) c := by
  rw [run_cons_next _ hstep]
  cases c with
  | again state r pos =>
    rw [CallSpec, ← append_cons] at h
    exact h
  | ok r pos left =>
    obtain ⟨u, hrest, hleft, hpos, ho⟩ := h
    rw [← append_cons] at hpos ho
    refine ⟨ch :: u, by rw [hrest, cons_append], ?_, hpos, ho⟩
    rw [length_cons]
    omega
  | headerDone r pos => exact h
  | error rc r => exact h

variable (win32 conf)

theorem requestLineLoop_spec (rest : Bytes) : ∀ (seen : Bytes) (state : SwState) (r : Head),
      CallSpec win32 conf Stage.line (fun _ => []) seen rest
        (run (readStep win32 conf) ⟨seen, .line state, r⟩ rest)
        (requestLineLoop win32 (seen ++ rest) state r seen.length rest) := by
  induction rest with
  | nil =>
    intro seen state r
    refine ⟨?_, by rw [append_nil]⟩
    rw [run_nil, append_nil]
  | cons ch rest ih =>
    intro seen state r
    have hbyte : lineByte win32 (seen ++ ch :: rest) state r.line seen.length ch
        = lineByte win32 seen state r.line seen.length ch := by
      rw [lineByte_take, take_left]
    rw [requestLineLoop, hbyte]
    cases hline : lineByte win32 seen state r.line seen.length ch with
    | next state' line =>
      have hstep : readStep win32 conf ⟨seen, .line state, r⟩ ch
          = .next ⟨seen ++ [ch], .line state', { r with line := line }⟩ [] := by
        simp only [readStep, lineStep, hline]
      have hrest := ih (seen ++ [ch]) state' { r with line := line }
      rw [← append_cons, length_append] at hrest
      exact CallSpec.cons hstep hrest
    | done line =>
      dsimp only
      split_ifs with h09
      · have hstep : readStep win32 conf ⟨seen, .line state, r⟩ ch
            = .halt (.failed .invalid09Method (lineDone r line seen.length)) := by
          simp only [readStep, lineStep, hline, if_pos h09]
        rw [run_cons_halt _ hstep]
        exact ⟨rfl, Session.Agree.refl ..⟩
      · have hstep : readStep win32 conf ⟨seen, .line state, r⟩ ch
            = .next ⟨seen ++ [ch], .header .start, lineDone r line seen.length⟩ [] := by
          simp only [readStep, lineStep, hline, if_neg h09]
        rw [run_cons_next _ hstep]
        exact ⟨[ch], rfl, by simp, by simp, rfl⟩
    | invalidMethod =>
      have hstep : readStep win32 conf ⟨seen, .line state, r⟩ ch
          = .halt (.failed .invalidMethod { r with line := refused state r.line seen.length }) := by
        simp only [readStep, lineStep, hline]
      rw [run_cons_halt _ hstep]
      exact ⟨rfl, Session.Agree.refl ..⟩
    | invalidRequest =>
      have hstep : readStep win32 conf ⟨seen, .line state, r⟩ ch
          = .halt (.failed .invalidRequest { r with line := refused state r.line seen.length
          }) := by
        simp only [readStep, lineStep, hline]
      rw [run_cons_halt _ hstep]
      exact ⟨rfl, Session.Agree.refl ..⟩

theorem headerLineLoop_spec (rest : Bytes) :
    ∀ (seen : Bytes) (l : Locals) (r : Head), Clean conf l r →
      CallSpec win32 conf Stage.header (fun r => [r]) seen rest
        (run (readStep win32 conf) ⟨seen, .header l.state, r.store l⟩ rest)
        (headerLineLoop conf (seen ++ rest) l r seen.length rest) := by
  induction rest with
  | nil =>
    intro seen l r _
    refine ⟨?_, by rw [append_nil]⟩
    rw [run_nil, append_nil]
  | cons ch rest ih =>
    intro seen l r hclean
    have hbyte : headerByte conf (seen ++ ch :: rest) l r seen.length ch
        = headerByte conf seen l r seen.length ch := by
      rw [headerByte_take, take_left]
    -- the transducer has the locals in the fields
    have hstored : headerByte conf seen ⟨l.state, (r.store l).headerHash, (r.store l).lowcaseIndex⟩
        (r.store l) seen.length ch = (headerByte conf seen l r seen.length ch).store l :=
      headerByte_store conf seen l l r seen.length ch
    rw [headerLineLoop, hbyte]
    cases hheader : headerByte conf seen l r seen.length ch with
    | next l' r' =>
      have hstep : readStep win32 conf ⟨seen, .header l.state, r.store l⟩ ch
          = .next ⟨seen ++ [ch], .header l'.state, r'.store l'⟩ [] := by
        simp only [readStep, headerStep, hstored, hheader, HeaderStep.store, Head.store_store]
      have hrest := ih (seen ++ [ch]) l' r' (hclean.headerByte hheader)
      rw [← append_cons, length_append] at hrest
      exact CallSpec.cons hstep hrest
    | done l' r' =>
      have hstep : readStep win32 conf ⟨seen, .header l.state, r.store l⟩ ch
          = .next ⟨seen ++ [ch], .header .start, r'.store l'⟩ [r'.store l'] := by
        simp only [readStep, headerStep, hstored, hheader, HeaderStep.store, Head.store_store]
      rw [run_cons_next _ hstep]
      exact ⟨[ch], rfl, by simp, by simp, rfl⟩
    | headerDone r' =>
      have hstep : readStep win32 conf ⟨seen, .header l.state, r.store l⟩ ch
          = .halt (.done (r'.store l) (seen.length + 1)) := by
        simp only [readStep, headerStep, hstored, hheader, HeaderStep.store]
      rw [run_cons_halt _ hstep]
      refine ⟨rfl, rfl, rfl, fun hup => ?_⟩
      have hr := (hclean hup).2 (state_of_headerDone hheader)
      have hsame := headerByte_store conf seen l l r seen.length ch
      rw [hr, hheader] at hsame
      exact HeaderStep.headerDone.inj hsame
    | invalid r' =>
      have hstep : readStep win32 conf ⟨seen, .header l.state, r.store l⟩ ch
          = .halt (.failed .invalidHeader (r'.store l)) := by
        simp only [readStep, headerStep, hstored, hheader, HeaderStep.store]
      rw [run_cons_halt _ hstep]
      exact ⟨rfl, rfl, rfl, fun h => absurd rfl h⟩

variable {win32 conf}

/-! ## All calls -/

/-- Without an upstream no line is ignored. -/
def StageOk (conf : Conf) (stage : Stage) : Prop :=
  conf.upstream = false → stage ≠ .header .ignoreLine

theorem StageOk.state {stage : Stage} {state : HeaderSw} (h : StageOk conf stage)
    (hstage : stage = .header state) : conf.upstream = false → state ≠ .ignoreLine := by
  intro hup hstate
  rw [hstate] at hstage
  exact h hup hstage

/-- The transducer keeps what it has read, and ignores no line without an upstream. -/
theorem readStep_next {s s' : Reader} {v out} {ch : UInt8}
    (h : s.seen = v ∧ StageOk conf s.stage) (hstep : readStep win32 conf s ch = .next s' out) :
    s'.seen = v ++ [ch] ∧ StageOk conf s'.stage := by
  obtain ⟨seen, stage, r⟩ := s
  obtain ⟨rfl, hok⟩ := h
  cases stage with
  | line state =>
    simp only [readStep, lineStep] at hstep
    split at hstep
    · cases hstep
      exact ⟨rfl, fun _ => by simp⟩
    · split_ifs at hstep
      cases hstep
      exact ⟨rfl, fun _ => by simp⟩
    · cases hstep
    · cases hstep
  | header state =>
    simp only [readStep, headerStep] at hstep
    split at hstep
    · rename_i hbyte
      cases hstep
      have hclean := (clean_load conf r (hok.state rfl)).headerByte hbyte
      refine ⟨rfl, fun hup hstage => (hclean hup).1 ?_⟩
      exact Stage.header.inj hstage
    · cases hstep
      exact ⟨rfl, fun _ => by simp⟩
    · cases hstep
    · cases hstep

/-- The calls on a buffer are a run of the transducer. -/
theorem calls_spec (win32 : Bool) (fuel : ℕ) :
    ∀ (stage : Stage) (r : Head) (seen rest : Bytes), rest.length < fuel → StageOk conf stage →
      (calls win32 conf (seen ++ rest) fuel stage r seen.length rest).1
          = (run (readStep win32 conf) ⟨seen, stage, r⟩ rest).1
        ∧ (calls win32 conf (seen ++ rest) fuel stage r seen.length rest).2.Agree conf
          (report (run (readStep win32 conf) ⟨seen, stage, r⟩ rest).2) := by
  induction fuel with
  | zero => exact fun _ _ _ _ h => absurd h (Nat.not_lt_zero _)
  | succ fuel ih =>
    intro stage r seen rest hfuel hok
    cases stage with
    | line state =>
      have hcall := requestLineLoop_spec win32 conf rest seen state r
      rw [calls]
      cases hc : requestLineLoop win32 (seen ++ rest) state r seen.length rest with
      | again state' r' pos =>
        rw [hc] at hcall
        obtain ⟨ho, hpos⟩ := hcall
        rw [ho]
        exact ⟨rfl, rfl, rfl, hpos⟩
      | ok r' pos left =>
        rw [hc] at hcall
        obtain ⟨u, hrest, hleft, hpos, ho⟩ := hcall
        rw [ho, hrest, ← append_assoc, hpos]
        exact ih _ _ _ _ (by omega) fun _ => by simp
      | headerDone r' pos =>
        rw [hc] at hcall
        exact ⟨hcall.1.symm, hcall.2⟩
      | error rc r' =>
        rw [hc] at hcall
        exact ⟨hcall.1.symm, hcall.2⟩
    | header state =>
      have hcall := headerLineLoop_spec win32 conf rest seen
        ⟨state, r.headerHash, r.lowcaseIndex⟩ r (clean_load conf r (hok.state rfl))
      have hload : r.store ⟨state, r.headerHash, r.lowcaseIndex⟩ = r := rfl
      rw [hload] at hcall
      rw [calls, ngxHttpParseHeaderLine]
      cases hc : headerLineLoop conf (seen ++ rest) ⟨state, r.headerHash, r.lowcaseIndex⟩ r
        seen.length rest with
      | again state' r' pos =>
        rw [hc] at hcall
        obtain ⟨ho, hpos⟩ := hcall
        rw [ho]
        exact ⟨rfl, rfl, rfl, hpos⟩
      | ok r' pos left =>
        rw [hc] at hcall
        obtain ⟨u, hrest, hleft, hpos, ho⟩ := hcall
        have hcalls := ih (.header .start) r' (seen ++ u) left (by omega) fun _ => by simp
        rw [ho, hrest, ← append_assoc, hpos]
        exact ⟨congrArg (r' :: ·) hcalls.1, hcalls.2⟩
      | headerDone r' pos =>
        rw [hc] at hcall
        exact ⟨hcall.1.symm, hcall.2⟩
      | error rc r' =>
        rw [hc] at hcall
        exact ⟨hcall.1.symm, hcall.2⟩

theorem reads_done (data : Bytes) (r : Head) (pos : ℕ) (rs : List Bytes) :
    reads win32 conf data (.done r pos) rs = ([], .done r pos) := by
  cases rs <;> rfl

theorem reads_failed (data : Bytes) (rc : Rc) (r : Head) (rs : List Bytes) :
    reads win32 conf data (.failed rc r) rs = ([], .failed rc r) := by
  cases rs <;> rfl

/-- The calls on a buffer that grows are a run over all that comes in. -/
theorem reads_spec (win32 : Bool) (rs : List Bytes) :
    ∀ (seen : Bytes) (stage : Stage) (r : Head), StageOk conf stage →
      (reads win32 conf seen (.waiting stage r seen.length) rs).1
          = (feed (readStep win32 conf) ⟨seen, stage, r⟩ rs).1
        ∧ (reads win32 conf seen (.waiting stage r seen.length) rs).2.Agree conf
          (report (feed (readStep win32 conf) ⟨seen, stage, r⟩ rs).2) := by
  induction rs with
  | nil => exact fun _ _ _ _ => ⟨rfl, rfl, rfl, rfl⟩
  | cons read more ih =>
    intro seen stage r hok
    obtain ⟨hout, hagree⟩ := calls_spec win32 (read.length + 1) stage r seen read
      (Nat.lt_succ_self _) hok
    rw [reads, drop_left, feed]
    cases hrun : run (readStep win32 conf) ⟨seen, stage, r⟩ read with
    | mk out ending =>
      rw [hrun] at hout hagree
      cases ending with
      | live s =>
        obtain ⟨hseen, hok'⟩ := live_of_run (readStep win32 conf)
          (P := fun s v => s.seen = v ∧ StageOk conf s.stage)
          (fun _ _ _ _ _ h hstep => readStep_next h hstep) ⟨rfl, hok⟩ hrun
        obtain ⟨seen', stage', r'⟩ := s
        dsimp only at hseen hok'
        cases hcalls : (calls win32 conf (seen ++ read) (read.length + 1) stage r seen.length
          read).2 with
        | waiting stage'' r'' pos =>
          rw [hcalls] at hagree
          obtain ⟨rfl, rfl, rfl⟩ := hagree
          rw [hout, hseen]
          obtain ⟨h1, h2⟩ := ih (seen ++ read) stage'' r'' hok'
          exact ⟨congrArg (out ++ ·) h1, h2⟩
        | done r'' pos =>
          rw [hcalls] at hagree
          exact hagree.elim
        | failed rc r'' =>
          rw [hcalls] at hagree
          exact hagree.elim
      | halted e left =>
        cases hcalls : (calls win32 conf (seen ++ read) (read.length + 1) stage r seen.length
          read).2 with
        | waiting stage'' r'' pos =>
          rw [hcalls] at hagree
          cases e <;> exact hagree.elim
        | done r'' pos =>
          rw [hcalls] at hagree
          rw [hout, reads_done, append_nil]
          cases e with
          | done r' pos' => exact ⟨rfl, hagree⟩
          | failed rc r' => exact hagree.elim
        | failed rc r'' =>
          rw [hcalls] at hagree
          rw [hout, reads_failed, append_nil]
          cases e with
          | done r' pos' => exact hagree.elim
          | failed rc' r' => exact ⟨rfl, hagree⟩

end

/-! ## The head -/

/-- **A head that comes in pieces is read as it is read in one piece**: the same headers with
the same fields, hash included, and the same end. -/
theorem readHead_flatten (win32 : Bool) (conf : Conf) (rs : List Bytes) :
    (readHead win32 conf rs).1 = (readHead win32 conf [rs.flatten]).1
      ∧ (readHead win32 conf rs).2.Agree conf (readHead win32 conf [rs.flatten]).2 := by
  have hok : StageOk conf (.line .start) := fun _ => by simp
  obtain ⟨h1, h2⟩ := reads_spec win32 rs [] (.line .start) .init hok
  obtain ⟨h3, h4⟩ := reads_spec win32 [rs.flatten] [] (.line .start) .init hok
  have hfeed : feed (readStep win32 conf) ⟨[], .line .start, .init⟩ [rs.flatten]
      = feed (readStep win32 conf) ⟨[], .line .start, .init⟩ rs := by
    rw [feed_eq_run_flatten, feed_eq_run_flatten, flatten_singleton]
  rw [hfeed] at h3 h4
  exact ⟨h1.trans h3.symm, h2.trans h4.symm⟩

/-- The fields as they are left. -/
def Session.head : Session → Head
  | .waiting _ r _ => r
  | .done r _ => r
  | .failed _ r => r

/-- A header that is refused after its first byte, with a cut between the two. -/
def nulAfterName : List Bytes := [word "GET / HTTP/1.0\na", [NUL]]

/-- A line `HTTP/` in a header and the end of the header, cut between them. -/
def cutStatusLine : List Bytes := [word "GET / HTTP/1.0\nHTTP/\n", word "\n"]

/-- The hash of the name is left behind only where a call has ended before the error, and, when a
response is read, before the end of the header. -/
theorem headerHash_nulAfterName :
    ((readHead false ⟨false, false⟩ nulAfterName).2.head.headerHash = 97
      ∧ (readHead false ⟨false, false⟩ [nulAfterName.flatten]).2.head.headerHash = 0)
    ∧ (readHead false ⟨false, true⟩ cutStatusLine).2.head.headerHash = 3213448
      ∧ (readHead false ⟨false, true⟩ [cutStatusLine.flatten]).2.head.headerHash = 0 := by
  decide

end RequestHead
