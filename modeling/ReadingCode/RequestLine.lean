/-
# `ngx_http_parse_request_line` and `ngx_http_parse_uri`

The two parsers that find the URI of a request (`ngx_http_parse.c`): the one for HTTP/1,
which scans the whole request line, and the one for the `:path` of HTTP/2.  Both decide
on the way whether the URI may be taken as it stands: they set `complex_uri` or
`quoted_uri` where it may not.  What the two do with a byte of the URI in the same words
is one definition here (`UriMarks`); where they differ each has its own.

Pointers into the buffer are offsets from its start.
-/
import ReadingCode.ComplexUri

namespace RequestLine

/-! ## Marks on a URI -/

/-- The fields of `r` that either parser sets while it reads the URI. -/
structure UriMarks where
  uriExt : Option ℕ
  argsStart : Option ℕ
  complexUri : Bool
  quotedUri : Bool
  plusInUri : Bool
  spaceInUri : Bool
  deriving DecidableEq, Repr

/-- The marks of a request that has just been created. -/
def UriMarks.none : UriMarks := ⟨Option.none, Option.none, false, false, false, false⟩

/-- The states in which a parser is inside a URI. -/
inductive UriSw where
  | afterSlashInUri
  | checkUri
  | uri
  deriving DecidableEq, Repr

/-- `case sw_after_slash_in_uri` for a byte that is not usual, less the cases in which the
two parsers differ: they check `/.`, `//`, `%` and, on Windows, `\`. -/
def afterSlashInUri (win32 : Bool) (m : UriMarks) (p : ℕ) (ch : UInt8) : UriSw × UriMarks :=
  if ch = DOT then (.uri, { m with complexUri := true })
  else if ch = PERCENT then (.uri, { m with quotedUri := true })
  else if ch = SLASH then (.uri, { m with complexUri := true })
  else if win32 ∧ ch = BACKSLASH then (.uri, { m with complexUri := true })
  else if ch = QUESTION then (.uri, { m with argsStart := some (p + 1) })
  else if ch = HASH then (.uri, { m with complexUri := true })
  else if ch = PLUS then (.afterSlashInUri, { m with plusInUri := true })
  else (.checkUri, m)

/-- `case sw_check_uri` likewise: they check `/`, `%` and, on Windows, `\`. -/
def checkUri (win32 : Bool) (m : UriMarks) (p : ℕ) (ch : UInt8) : UriSw × UriMarks :=
  if ch = SLASH then
    if win32 ∧ m.uriExt = some p then (.uri, { m with complexUri := true })
    else (.afterSlashInUri, { m with uriExt := Option.none })
  else if ch = DOT then (.checkUri, { m with uriExt := some (p + 1) })
  else if win32 ∧ ch = BACKSLASH then (.afterSlashInUri, { m with complexUri := true })
  else if ch = PERCENT then (.uri, { m with quotedUri := true })
  else if ch = QUESTION then (.uri, { m with argsStart := some (p + 1) })
  else if ch = HASH then (.uri, { m with complexUri := true })
  else if ch = PLUS then (.checkUri, { m with plusInUri := true })
  else (.checkUri, m)

/-- `case sw_uri` likewise. -/
def inUri (m : UriMarks) (ch : UInt8) : UriSw × UriMarks :=
  if ch = HASH then (.uri, { m with complexUri := true }) else (.uri, m)

/-- A byte of a URI in any of the three states. -/
def uriByte (win32 : Bool) (state : UriSw) (m : UriMarks) (p : ℕ) (ch : UInt8) :
    UriSw × UriMarks :=
  match state with
  | .afterSlashInUri =>
    if usual win32 ch then (.checkUri, m) else afterSlashInUri win32 m p ch
  | .checkUri => if usual win32 ch then (.checkUri, m) else checkUri win32 m p ch
  | .uri => if usual win32 ch then (.uri, m) else inUri m ch

/-! ## `ngx_http_parse_uri` -/

/-- A space, which here belongs to the URI. -/
def spaceByte (state : UriSw) (m : UriMarks) : UriSw × UriMarks :=
  match state with
  | .afterSlashInUri => (.checkUri, { m with spaceInUri := true })
  | .checkUri => (.checkUri, { m with spaceInUri := true })
  | .uri => (.uri, { m with spaceInUri := true })

/-- The loop of `ngx_http_parse_uri` from its second byte on, `p` the offset of the byte
at hand. -/
def parseUriLoop (win32 : Bool) : UriSw → UriMarks → ℕ → Bytes → UriMarks
  | _, m, _, [] => m
  | state, m, p, ch :: rest =>
    let r := if ch = SP then spaceByte state m else uriByte win32 state m p ch
    parseUriLoop win32 r.1 r.2 (p + 1) rest

/-- `ngx_http_parse_uri(r)` on a request without marks; `none` is `NGX_ERROR`.  The URI is
all of `raw`. -/
def ngxHttpParseUri (win32 : Bool) (raw : Bytes) : Option Uri.RawUri :=
  match raw with
  | [] => some ⟨[], none, none, false, false, false, false⟩
  | ch :: rest =>
    if ch ≠ SLASH then none
    else
      let m := parseUriLoop win32 .afterSlashInUri .none 1 rest
      some ⟨raw, m.argsStart, m.uriExt, m.complexUri, m.quotedUri, m.plusInUri, m.spaceInUri⟩

/-! ## `ngx_http_parse_request_line` -/

/-- The parser's `state`. -/
inductive SwState where
  | start
  | method
  | spacesBeforeUri
  | schema
  | schemaSlash
  | schemaSlashSlash
  | hostStart
  | host
  | hostEnd
  | hostIpLiteral
  | port
  | hostHttp09
  | inUri (state : UriSw)
  | checkUriHttp09
  | http09
  | httpH
  | httpHT
  | httpHTT
  | httpHTTP
  | firstMajorDigit
  | majorDigit
  | firstMinorDigit
  | minorDigit
  | spacesAfterDigit
  | almostDone
  deriving DecidableEq, Repr

/-- `r->method`. -/
inductive Method where
  | unknown
  | get
  | head
  | post
  | put
  | delete
  | mkcol
  | copy
  | move
  | options
  | propfind
  | proppatch
  | lock
  | unlock
  | patch
  | trace
  deriving DecidableEq, Repr

/-- The fields of `r` that the parser sets. -/
structure Request where
  requestStart : Option ℕ
  requestEnd : Option ℕ
  methodEnd : Option ℕ
  method : Method
  schemaStart : Option ℕ
  schemaEnd : Option ℕ
  hostStart : Option ℕ
  hostEnd : Option ℕ
  portEnd : Option ℕ
  uriStart : Option ℕ
  uriEnd : Option ℕ
  marks : UriMarks
  httpProtocol : Option ℕ
  httpMajor : ℕ
  httpMinor : ℕ
  deriving DecidableEq, Repr

/-- A request that has just been created. -/
def Request.init : Request where
  requestStart := none
  requestEnd := none
  methodEnd := none
  method := .unknown
  schemaStart := none
  schemaEnd := none
  hostStart := none
  hostEnd := none
  portEnd := none
  uriStart := none
  uriEnd := none
  marks := .none
  httpProtocol := none
  httpMajor := 0
  httpMinor := 0

/-- The bytes of an ASCII word. -/
def word (s : String) : Bytes := s.toList.map fun c => UInt8.ofNat c.toNat

/-- The methods that the `switch (p - m)` knows, by their names. -/
def methods : List (Bytes × Method) :=
  [(word "GET", .get), (word "PUT", .put), (word "POST", .post), (word "COPY", .copy),
    (word "MOVE", .move), (word "LOCK", .lock), (word "HEAD", .head), (word "MKCOL", .mkcol),
    (word "PATCH", .patch), (word "TRACE", .trace), (word "DELETE", .delete),
    (word "UNLOCK", .unlock), (word "OPTIONS", .options), (word "PROPFIND", .propfind),
    (word "PROPPATCH", .proppatch)]

/-- What a byte does: `goto done` is `done`. -/
inductive Step where
  | next (state : SwState) (r : Request)
  | done (r : Request)
  | invalidMethod
  | invalidRequest
  deriving DecidableEq, Repr

/-- `c = ch | 0x20; c >= 'a' && c <= 'z'` -/
def isLetter (ch : UInt8) : Bool := 0x61 ≤ ch ||| 0x20 ∧ ch ||| 0x20 ≤ 0x7a

/-- `ch >= '0' && ch <= '9'` -/
def isDigit (ch : UInt8) : Bool := 0x30 ≤ ch ∧ ch ≤ 0x39

/-- `(ch < 'A' || ch > 'Z') && ch != '_' && ch != '-'` does not hold. -/
def isMethodByte (ch : UInt8) : Bool := (0x41 ≤ ch ∧ ch ≤ 0x5a) ∨ ch = 0x5f ∨ ch = 0x2d

/-- `case sw_start` -/
def startByte (r : Request) (p : ℕ) (ch : UInt8) : Step :=
  let r := { r with requestStart := some p }
  if ch = CR ∨ ch = LF then .next .start r
  else if isMethodByte ch then .next .method r
  else .invalidMethod

/-- `case sw_method`.  `data` is the buffer from its start. -/
def methodByte (data : Bytes) (r : Request) (p : ℕ) (ch : UInt8) : Step :=
  if ch = SP then
    let m := r.requestStart.getD 0
    let r := { r with methodEnd := some (p - 1) }
    match methods.lookup ((data.drop m).take (p - m)) with
    | some method => .next .spacesBeforeUri { r with method := method }
    | none => .next .spacesBeforeUri r
  else if isMethodByte ch then .next .method r
  else .invalidMethod

/-- `case sw_spaces_before_uri` -/
def spacesBeforeUriByte (r : Request) (p : ℕ) (ch : UInt8) : Step :=
  if ch = SLASH then .next (.inUri .afterSlashInUri) { r with uriStart := some p }
  else if isLetter ch then .next .schema { r with schemaStart := some p }
  else if ch = SP then .next .spacesBeforeUri r
  else .invalidRequest

/-- `case sw_schema` -/
def schemaByte (r : Request) (p : ℕ) (ch : UInt8) : Step :=
  if isLetter ch then .next .schema r
  else if ch = 0x3a then .next .schemaSlash { r with schemaEnd := some p }
  else .invalidRequest

/-- A state that goes on with one byte only. -/
def expect (c : UInt8) (state : SwState) (r : Request) (ch : UInt8) : Step :=
  if ch = c then .next state r else .invalidRequest

/-- The single `/` taken from the request line when there is no path. -/
def slashOfSchema (r : Request) : Request :=
  { r with uriStart := r.schemaEnd.map (· + 1), uriEnd := r.schemaEnd.map (· + 2) }

/-- `case sw_host_end` -/
def hostEndByte (r : Request) (p : ℕ) (ch : UInt8) : Step :=
  let r := { r with hostEnd := some p }
  if ch = 0x3a then .next .port r
  else if ch = SLASH then .next (.inUri .afterSlashInUri) { r with uriStart := some p }
  else if ch = SP then .next .hostHttp09 (slashOfSchema r)
  else .invalidRequest

/-- `case sw_host`, which falls through to `sw_host_end`. -/
def hostByte (r : Request) (p : ℕ) (ch : UInt8) : Step :=
  if isLetter ch then .next .host r
  else if isDigit ch ∨ ch = DOT ∨ ch = 0x2d then .next .host r
  else hostEndByte r p ch

/-- `case sw_host_start`, which falls through to `sw_host`. -/
def hostStartByte (r : Request) (p : ℕ) (ch : UInt8) : Step :=
  let r := { r with hostStart := some p }
  if ch = 0x5b then .next .hostIpLiteral r else hostByte r p ch

/-- `case sw_host_ip_literal` -/
def hostIpLiteralByte (r : Request) (ch : UInt8) : Step :=
  if isDigit ch then .next .hostIpLiteral r
  else if isLetter ch then .next .hostIpLiteral r
  else if ch = 0x3a then .next .hostIpLiteral r
  else if ch = 0x5d then .next .hostEnd r
  else if ch ∈ word "-._~" then .next .hostIpLiteral r
  else if ch ∈ word "!$&'()*+,;=" then .next .hostIpLiteral r
  else .invalidRequest

/-- `case sw_port` -/
def portByte (r : Request) (p : ℕ) (ch : UInt8) : Step :=
  if isDigit ch then .next .port r
  else if ch = SLASH then
    .next (.inUri .afterSlashInUri) { r with portEnd := some p, uriStart := some p }
  else if ch = SP then .next .hostHttp09 (slashOfSchema { r with portEnd := some p })
  else .invalidRequest

/-- `space+` after the URI: `state` is the state itself. -/
def http09Byte (state : SwState) (r : Request) (p : ℕ) (ch : UInt8) (otherwise : Step) : Step :=
  if ch = SP then .next state r
  else if ch = CR then .next .almostDone { r with httpMinor := 9 }
  else if ch = LF then .done { r with httpMinor := 9 }
  else if ch = 0x48 then .next .httpH { r with httpProtocol := some p }
  else otherwise

/-- The state after a space in the URI, which ends the URI for the time being. -/
def spaceState : UriSw → SwState
  | .afterSlashInUri => .checkUriHttp09
  | .checkUri => .checkUriHttp09
  | .uri => .http09

/-- The three states inside the URI. -/
def uriLineByte (win32 : Bool) (state : UriSw) (r : Request) (p : ℕ) (ch : UInt8) : Step :=
  if ch = SP then .next (spaceState state) { r with uriEnd := some p }
  else if ch = CR then .next .almostDone { r with uriEnd := some p, httpMinor := 9 }
  else if ch = LF then .done { r with uriEnd := some p, httpMinor := 9 }
  else if ch = NUL then .invalidRequest
  else
    let u := uriByte win32 state r.marks p ch
    .next (.inUri u.1) { r with marks := u.2 }

/-- `case sw_check_uri_http_09` and `case sw_http_09`: any other byte shows that the space
was part of the URI, and `p--` has the byte looked at again in `state`. -/
def spaceInUriByte (win32 : Bool) (state : UriSw) (r : Request) (p : ℕ) (ch : UInt8) : Step :=
  http09Byte (spaceState state) r p ch
    (uriLineByte win32 state { r with marks := { r.marks with spaceInUri := true } } p ch)

/-- A further digit of a version number. -/
def versionDigit (n : ℕ) (ch : UInt8) : Option ℕ :=
  if isDigit ch ∧ n ≤ 99 then some (n * 10 + (ch.toNat - 0x30)) else none

/-- `case sw_first_major_digit` -/
def firstMajorDigitByte (r : Request) (ch : UInt8) : Step :=
  if 0x31 ≤ ch ∧ ch ≤ 0x39 then .next .majorDigit { r with httpMajor := ch.toNat - 0x30 }
  else .invalidRequest

/-- `case sw_major_digit` -/
def majorDigitByte (r : Request) (ch : UInt8) : Step :=
  if ch = DOT then .next .firstMinorDigit r
  else
    match versionDigit r.httpMajor ch with
    | some n => .next .majorDigit { r with httpMajor := n }
    | none => .invalidRequest

/-- `case sw_first_minor_digit` -/
def firstMinorDigitByte (r : Request) (ch : UInt8) : Step :=
  if isDigit ch then .next .minorDigit { r with httpMinor := ch.toNat - 0x30 }
  else .invalidRequest

/-- `case sw_minor_digit` -/
def minorDigitByte (r : Request) (ch : UInt8) : Step :=
  if ch = CR then .next .almostDone r
  else if ch = LF then .done r
  else if ch = SP then .next .spacesAfterDigit r
  else
    match versionDigit r.httpMinor ch with
    | some n => .next .minorDigit { r with httpMinor := n }
    | none => .invalidRequest

/-- `case sw_spaces_after_digit` -/
def spacesAfterDigitByte (r : Request) (ch : UInt8) : Step :=
  if ch = SP then .next .spacesAfterDigit r
  else if ch = CR then .next .almostDone r
  else if ch = LF then .done r
  else .invalidRequest

/-- `case sw_almost_done` -/
def almostDoneByte (r : Request) (p : ℕ) (ch : UInt8) : Step :=
  if ch = LF then .done { r with requestEnd := some (p - 1) } else .invalidRequest

/-- The `switch (state)`. -/
def lineByte (win32 : Bool) (data : Bytes) (state : SwState) (r : Request) (p : ℕ)
    (ch : UInt8) : Step :=
  match state with
  | .start => startByte r p ch
  | .method => methodByte data r p ch
  | .spacesBeforeUri => spacesBeforeUriByte r p ch
  | .schema => schemaByte r p ch
  | .schemaSlash => expect SLASH .schemaSlashSlash r ch
  | .schemaSlashSlash => expect SLASH .hostStart r ch
  | .hostStart => hostStartByte r p ch
  | .host => hostByte r p ch
  | .hostEnd => hostEndByte r p ch
  | .hostIpLiteral => hostIpLiteralByte r ch
  | .port => portByte r p ch
  | .hostHttp09 => http09Byte .hostHttp09 r p ch .invalidRequest
  | .inUri state => uriLineByte win32 state r p ch
  | .checkUriHttp09 => spaceInUriByte win32 .checkUri r p ch
  | .http09 => spaceInUriByte win32 .uri r p ch
  | .httpH => expect 0x54 .httpHT r ch
  | .httpHT => expect 0x54 .httpHTT r ch
  | .httpHTT => expect 0x50 .httpHTTP r ch
  | .httpHTTP => expect SLASH .firstMajorDigit r ch
  | .firstMajorDigit => firstMajorDigitByte r ch
  | .majorDigit => majorDigitByte r ch
  | .firstMinorDigit => firstMinorDigitByte r ch
  | .minorDigit => minorDigitByte r ch
  | .spacesAfterDigit => spacesAfterDigitByte r ch
  | .almostDone => almostDoneByte r p ch

/-- What the parser returns; `pos` is `b->pos`. -/
inductive Result where
  | ok (r : Request) (httpVersion : ℕ) (pos : ℕ)
  | again (state : SwState) (r : Request) (pos : ℕ)
  | invalidMethod
  | invalidRequest
  | invalid09Method
  deriving DecidableEq, Repr

/-- At the label `done:`. -/
def finish (r : Request) (p : ℕ) : Result :=
  let r := { r with requestEnd := some (r.requestEnd.getD p) }
  let httpVersion := r.httpMajor * 1000 + r.httpMinor
  if httpVersion = 9 ∧ r.method ≠ .get then .invalid09Method else .ok r httpVersion (p + 1)

/-- The loop, `p` the offset of the byte at hand. -/
def requestLineLoop (win32 : Bool) (data : Bytes) :
    SwState → Request → ℕ → Bytes → Result
  | state, r, p, [] => .again state r p
  | state, r, p, ch :: rest =>
    match lineByte win32 data state r p ch with
    | .next state r => requestLineLoop win32 data state r (p + 1) rest
    | .done r => finish r p
    | .invalidMethod => .invalidMethod
    | .invalidRequest => .invalidRequest

/-- `ngx_http_parse_request_line(r, b)`: `data` is the buffer up to `b->last`, `pos` is
`b->pos`. -/
def ngxHttpParseRequestLine (win32 : Bool) (data : Bytes) (state : SwState) (r : Request)
    (pos : ℕ) : Result :=
  requestLineLoop win32 data state r pos (data.drop pos)

/-- The calls of `ngx_http_process_request_line` on a buffer that grows with each read,
until one of them does not return `NGX_AGAIN`. -/
def requestLineReads (win32 : Bool) (data : Bytes) (state : SwState) (r : Request)
    (pos : ℕ) : List Bytes → Result
  | [] => .again state r pos
  | read :: reads =>
    match ngxHttpParseRequestLine win32 (data ++ read) state r pos with
    | .again state r pos => requestLineReads win32 (data ++ read) state r pos reads
    | result => result

/-- The URI that the parser has found, as `ngx_http_process_request_uri` sees it. -/
def Request.rawUri (r : Request) (data : Bytes) : Uri.RawUri :=
  let uriStart := r.uriStart.getD 0
  { raw := (data.take (r.uriEnd.getD 0)).drop uriStart
    argsStart := r.marks.argsStart.map (· - uriStart)
    uriExt := r.marks.uriExt.map (· - uriStart)
    complexUri := r.marks.complexUri
    quotedUri := r.marks.quotedUri
    plusInUri := r.marks.plusInUri
    spaceInUri := r.marks.spaceInUri }

/-!
# The fast path of URI parsing agrees with the slow one

Where `complex_uri` and `quoted_uri` stay clear, the parsers of `RequestLine` and
`ngx_http_parse_complex_uri` read the path in step (`PathRead`): `sw_after_slash_in_uri` goes with
`sw_slash` (or with `sw_usual` after a `+`), `sw_check_uri` with `sw_usual`.
-/

open Uri

open List

/-! ## Reading a path in step -/

/-- The slow parser has read `x` without changing it and is now in the state `st`. -/
structure PathRead (win32 : Bool) (x : Bytes) (st : Plain) (ext : Option ℕ) : Prop where
  state : st = .usual ∨ st = .slash
  lastDot : x.getLast? = some DOT → ext = some x.length
  loop : ∀ mergeSlashes uriLen size quoted plus rest, ∃ plus',
    complexLoop win32 mergeSlashes uriLen size (.plain .usual) ⟨[], none, quoted, plus⟩
        (x ++ rest) =
      complexLoop win32 mergeSlashes uriLen size (.plain st) ⟨x.reverse, ext, quoted, plus'⟩ rest

theorem pathRead_nil (win32 : Bool) : PathRead win32 [] .usual none where
  state := .inl rfl
  lastDot h := by simp at h
  loop _ _ _ _ plus _ := ⟨plus, rfl⟩

variable {x : Bytes} {st : Plain} {ext : Option ℕ}

variable {ch : UInt8} {pre : Bytes} {r : Request} {win32 : Bool}

/-- A byte that the slow parser copies. -/
theorem PathRead.snoc {st' : Plain} {ext' : Option ℕ}
    (h : PathRead win32 x st ext) (hst : st' = .usual ∨ st' = .slash)
    (hdot : ch = DOT → ext' = some (x.length + 1))
    (hstep : ∀ mergeSlashes pathEnd quoted plus, ∃ plus',
      plainByte win32 mergeSlashes pathEnd st ⟨x.reverse, ext, quoted, plus⟩ ch =
        .next st' ⟨ch :: x.reverse, ext', quoted, plus'⟩) :
    PathRead win32 (x ++ [ch]) st' ext' where
  state := hst
  lastDot hlast := by
    rw [getLast?_concat] at hlast
    rw [hdot (Option.some.inj hlast), length_append, length_singleton]
  loop mergeSlashes uriLen size quoted plus rest := by
    obtain ⟨plus1, h1⟩ := h.loop mergeSlashes uriLen size quoted plus (ch :: rest)
    obtain ⟨plus2, h2⟩ := hstep mergeSlashes (size - rest.length == uriLen) quoted plus1
    refine ⟨plus2, ?_⟩
    rw [append_assoc, singleton_append, h1, complexLoop, h2, reverse_append]
    rfl

/-- The bytes that are ordinary for the slow parser. -/
def Ordinary (win32 : Bool) (ch : UInt8) : Prop :=
  ch ≠ SLASH ∧ ch ≠ DOT ∧ ch ≠ PERCENT ∧ ch ≠ QUESTION ∧ ch ≠ HASH ∧
    ¬ (win32 = true ∧ ch = BACKSLASH)

theorem ordinary_of_usual (h : usual win32 ch = true) : Ordinary win32 ch := by
  rw [usual_eq] at h
  unfold special at h
  unfold Ordinary
  grind

theorem PathRead.ordinary (h : PathRead win32 x st ext)
    (hch : Ordinary win32 ch) : PathRead win32 (x ++ [ch]) .usual ext := by
  refine h.snoc (.inl rfl) (fun hd => absurd hd hch.2.1) fun mergeSlashes pathEnd quoted plus =>
    ⟨if usual win32 ch = false ∧ ch = PLUS then true else plus, ?_⟩
  obtain ⟨h1, h2, h3, h4, h5, h6⟩ := hch
  rcases h.state with rfl | rfl
  · simp only [plainByte, usualByte, Out.push]
    grind
  · simp only [plainByte, slashByte, ordinaryByte, Out.push]
    grind

theorem PathRead.dot (h : PathRead win32 x .usual ext) :
    PathRead win32 (x ++ [DOT]) .usual (some (x.length + 1)) :=
  h.snoc (.inl rfl) (fun _ => rfl) fun mergeSlashes pathEnd quoted plus =>
    ⟨plus, by
      have husual : usual win32 DOT = false := by cases win32 <;> decide
      simp only [plainByte, usualByte, Out.push, husual]
      grind⟩

/-- On Windows a slash must not follow a dot, which it would remove. -/
theorem PathRead.slash (h : PathRead win32 x .usual ext)
    (hext : win32 = true → ext ≠ some x.length) : PathRead win32 (x ++ [SLASH]) .slash none := by
  refine h.snoc (.inr rfl) (fun hd => absurd hd (by decide))
    fun mergeSlashes pathEnd quoted plus => ⟨plus, ?_⟩
  have hdrop : dropDot win32 x.reverse = x.reverse := by
    cases win32 with
    | false => rfl
    | true =>
      have hlast : x.getLast? ≠ some DOT := fun hd => hext rfl (h.lastDot hd)
      rw [← head?_reverse] at hlast
      unfold dropDot
      grind
  have husual : usual win32 SLASH = false := by cases win32 <;> decide
  simp only [plainByte, usualByte, Out.push, husual, hdrop]
  grind

/-! ## A parser on the way through a URI -/

/-- What a parser that has read the bytes `x` of a URI, from the offset `start` on, has
recorded where the URI is neither complex nor quoted. -/
def InStep (win32 : Bool) (start : ℕ) (x : Bytes) (state : UriSw)
    (argsStart uriExt : Option ℕ) : Prop :=
  match state with
  | .afterSlashInUri => argsStart = none ∧ uriExt = none ∧ ∃ st, PathRead win32 x st none
  | .checkUri =>
    argsStart = none ∧ ∃ ext, uriExt = ext.map (start + ·) ∧ PathRead win32 x .usual ext
  | .uri =>
    ∃ path args st ext, x = path ++ QUESTION :: args ∧ HASH ∉ args ∧
      argsStart = some (start + path.length + 1) ∧ uriExt = ext.map (start + ·) ∧
      PathRead win32 path st ext

/-- A parser on its way through a URI. -/
structure Tracks (win32 : Bool) (start : ℕ) (x : Bytes) (state : UriSw) (m : UriMarks) :
    Prop where
  slash : x.head? = some SLASH
  inStep : m.complexUri = false → m.quotedUri = false →
    InStep win32 start x state m.argsStart m.uriExt

theorem tracks_slash (win32 : Bool) (start : ℕ) :
    Tracks win32 start [SLASH] .afterSlashInUri .none where
  slash := rfl
  inStep _ _ := ⟨rfl, rfl, .slash, (pathRead_nil win32).slash (by simp)⟩

theorem head?_append_of_some {y : Bytes} {c : UInt8} (h : x.head? = some c) :
    (x ++ y).head? = some c := by
  rw [head?_append, h]
  rfl

variable {state : UriSw} {m : UriMarks} {p : ℕ}

/-- A flag that has been set stays set. -/
theorem uriByte_flags (hc : (uriByte win32 state m p ch).2.complexUri = false)
    (hq : (uriByte win32 state m p ch).2.quotedUri = false) :
    m.complexUri = false ∧ m.quotedUri = false := by
  unfold uriByte afterSlashInUri checkUri inUri at hc hq
  cases state <;> grind

/-- What `sw_after_slash_in_uri` does with a byte that sets no flag. -/
theorem uriByte_afterSlash (hc : (uriByte win32 .afterSlashInUri m p ch).2.complexUri = false)
    (hq : (uriByte win32 .afterSlashInUri m p ch).2.quotedUri = false) :
    (Ordinary win32 ch ∧ uriByte win32 .afterSlashInUri m p ch = (.checkUri, m)) ∨
      (Ordinary win32 ch ∧
        uriByte win32 .afterSlashInUri m p ch = (.afterSlashInUri, { m with plusInUri := true })) ∨
      (ch = QUESTION ∧
        uriByte win32 .afterSlashInUri m p ch = (.uri, { m with argsStart := some (p + 1) })) := by
  by_cases hu : usual win32 ch = true
  · exact .inl ⟨ordinary_of_usual hu, by simp [uriByte, hu]⟩
  · simp only [uriByte, if_neg hu] at hc hq ⊢
    unfold afterSlashInUri at hc hq ⊢
    split_ifs at hc hq ⊢ <;> simp_all [Ordinary]

/-- What `sw_check_uri` does with a byte that sets no flag. -/
theorem uriByte_checkUri (hc : (uriByte win32 .checkUri m p ch).2.complexUri = false)
    (hq : (uriByte win32 .checkUri m p ch).2.quotedUri = false) :
    (Ordinary win32 ch ∧ uriByte win32 .checkUri m p ch = (.checkUri, m)) ∨ (Ordinary win32 ch ∧
        uriByte win32 .checkUri m p ch = (.checkUri, { m with plusInUri := true })) ∨
      (ch = DOT ∧
        uriByte win32 .checkUri m p ch = (.checkUri, { m with uriExt := some (p + 1) })) ∨
      (ch = SLASH ∧ (win32 = true → m.uriExt ≠ some p) ∧
        uriByte win32 .checkUri m p ch = (.afterSlashInUri, { m with uriExt := none })) ∨
      (ch = QUESTION ∧
        uriByte win32 .checkUri m p ch = (.uri, { m with argsStart := some (p + 1) })) := by
  by_cases hu : usual win32 ch = true
  · exact .inl ⟨ordinary_of_usual hu, by simp [uriByte, hu]⟩
  · simp only [uriByte, if_neg hu] at hc hq ⊢
    unfold checkUri at hc hq ⊢
    split_ifs at hc hq ⊢ <;> simp_all [Ordinary]

/-- What `sw_uri` does with a byte that sets no flag. -/
theorem uriByte_uri (hc : (uriByte win32 .uri m p ch).2.complexUri = false) :
    ch ≠ HASH ∧ uriByte win32 .uri m p ch = (.uri, m) := by
  by_cases hu : usual win32 ch = true
  · exact ⟨(ordinary_of_usual hu).2.2.2.2.1, by simp [uriByte, hu]⟩
  · simp only [uriByte, if_neg hu] at hc ⊢
    unfold inUri at hc ⊢
    grind

variable {start : ℕ}

/-- The `?` that ends the path. -/
theorem inStep_question (h : PathRead win32 x st ext) :
    InStep win32 start (x ++ [QUESTION]) .uri (some (start + x.length + 1)) (ext.map (start + ·)) :=
  ⟨x, [], st, ext, rfl, by simp, rfl, rfl, h⟩

theorem Tracks.uriByte (h : Tracks win32 start x state m) (ch : UInt8) :
    Tracks win32 start (x ++ [ch]) (uriByte win32 state m (start + x.length) ch).1
      (uriByte win32 state m (start + x.length) ch).2 where
  slash := head?_append_of_some h.slash
  inStep hc hq := by
    obtain ⟨hc0, hq0⟩ := uriByte_flags hc hq
    have hin := h.inStep hc0 hq0
    cases state with
    | afterSlashInUri =>
      obtain ⟨hargs, hext, st, hread⟩ := hin
      rcases uriByte_afterSlash hc hq with ⟨hch, he⟩ | ⟨hch, he⟩ | ⟨rfl, he⟩ <;> rw [he]
      · exact ⟨hargs, none, hext, hread.ordinary hch⟩
      · exact ⟨hargs, hext, .usual, hread.ordinary hch⟩
      · rw [hext]
        exact inStep_question hread
    | checkUri =>
      obtain ⟨hargs, ext, hext, hread⟩ := hin
      rcases uriByte_checkUri hc hq with
        ⟨hch, he⟩ | ⟨hch, he⟩ | ⟨rfl, he⟩ | ⟨rfl, hdot, he⟩ | ⟨rfl, he⟩ <;> rw [he]
      · exact ⟨hargs, ext, hext, hread.ordinary hch⟩
      · exact ⟨hargs, ext, hext, hread.ordinary hch⟩
      · exact ⟨hargs, some (x.length + 1), rfl, hread.dot⟩
      · refine ⟨hargs, rfl, .slash, hread.slash fun hw hd => hdot hw ?_⟩
        rw [hext, hd]
        rfl
      · rw [hext]
        exact inStep_question hread
    | uri =>
      obtain ⟨path, args, st, ext, rfl, hhash, hargs, hext, hread⟩ := hin
      obtain ⟨hch, he⟩ := uriByte_uri hc
      rw [he]
      exact ⟨path, args ++ [ch], st, ext, by simp, by simp [hhash, Ne.symm hch], hargs, hext, hread⟩

/-- A space is an ordinary byte; the parsers go on after it as they do after one. -/
theorem Tracks.space (h : Tracks win32 start x state m) :
    Tracks win32 start (x ++ [SP]) (spaceByte state m).1 m where
  slash := head?_append_of_some h.slash
  inStep hc hq := by
    have hin := h.inStep hc hq
    have hsp : Ordinary win32 SP := by unfold Ordinary; cases win32 <;> decide
    cases state with
    | afterSlashInUri =>
      obtain ⟨hargs, hext, st, hread⟩ := hin
      exact ⟨hargs, none, hext, hread.ordinary hsp⟩
    | checkUri =>
      obtain ⟨hargs, ext, hext, hread⟩ := hin
      exact ⟨hargs, ext, hext, hread.ordinary hsp⟩
    | uri =>
      obtain ⟨path, args, st, ext, rfl, hhash, hargs, hext, hread⟩ := hin
      exact ⟨path, args ++ [SP], st, ext, by simp, by simp [hhash, show HASH ≠ SP by decide],
        hargs, hext, hread⟩

theorem Tracks.spaceInUri (h : Tracks win32 start x state m) (b : Bool) :
    Tracks win32 start x state { m with spaceInUri := b } :=
  ⟨h.slash, h.inStep⟩

/-! ## The request's URI -/

/-- What the phases read of the URI: `r->uri`, `r->args` and `r->exten`. -/
def uriArgsExten (u : RequestUri) : Bytes × Bytes × Bytes := (u.uri, u.args, u.exten)

/-- Taking the URI as it stands gives what the slow parser gives. -/
def Agrees (win32 mergeSlashes : Bool) (r : RawUri) : Prop :=
  (ngxHttpProcessRequestUri win32 mergeSlashes r).map uriArgsExten =
    (ngxHttpProcessRequestUri win32 mergeSlashes { r with complexUri := true }).map uriArgsExten

instance (win32 mergeSlashes : Bool) (r : RawUri) : Decidable (Agrees win32 mergeSlashes r) :=
  inferInstanceAs (Decidable (_ = _))

/-- The URI as the request has it, relative to its start. -/
def rawUri (start : ℕ) (x : Bytes) (m : UriMarks) : RawUri where
  raw := x
  argsStart := m.argsStart.map (· - start)
  uriExt := m.uriExt.map (· - start)
  complexUri := m.complexUri
  quotedUri := m.quotedUri
  plusInUri := m.plusInUri
  spaceInUri := m.spaceInUri

/-- `r->exten` where the URI is taken as it stands. -/
def extenOf (path : Bytes) : Option ℕ → Bytes
  | some e => path.drop e
  | none => []

/-- The slow parser on a path that it copies. -/
theorem PathRead.parse
    (h : PathRead win32 x st ext) (mergeSlashes : Bool) (uriLen : ℕ) (quoted plus : Bool) :
    ∃ plus', ngxHttpParseComplexUri win32 mergeSlashes uriLen x quoted plus =
      some ⟨x, extenOf x ext, [], none, quoted, plus'⟩ := by
  obtain ⟨plus', hloop⟩ := h.loop mergeSlashes uriLen x.length quoted plus []
  rw [append_nil] at hloop
  refine ⟨plus', ?_⟩
  rw [ngxHttpParseComplexUri, hloop]
  simp only [complexLoop, Out.exten, reverse_reverse]
  cases ext <;> rfl

/-- The slow parser on such a path and a query. -/
theorem PathRead.parse_query (h : PathRead win32 x st ext) {args : Bytes}
    (hargs : HASH ∉ args) (mergeSlashes : Bool) (uriLen : ℕ) (quoted plus : Bool) :
    ∃ plus', ngxHttpParseComplexUri win32 mergeSlashes uriLen (x ++ QUESTION :: args) quoted plus =
      some ⟨x, extenOf x ext, [], some (x.length + 1), quoted, plus'⟩ := by
  obtain ⟨plus', hloop⟩ := h.loop mergeSlashes uriLen (x ++ QUESTION :: args).length quoted plus
    (QUESTION :: args)
  have hquestion : ∀ pathEnd o, plainByte win32 mergeSlashes pathEnd st o QUESTION = .args o :=
    fun _ _ => by rcases h.state with rfl | rfl <;> cases win32 <;> rfl
  have hlen : (x ++ QUESTION :: args).length - args.length = x.length + 1 := by
    simp; omega
  refine ⟨plus', ?_⟩
  rw [ngxHttpParseComplexUri, hloop]
  simp only [complexLoop, hquestion, if_neg hargs, hlen, Out.exten, reverse_reverse]
  cases ext <;> rfl

theorem Tracks.agrees
    (h : Tracks win32 start x state m) (hc : m.complexUri = false) (hq : m.quotedUri = false)
    (mergeSlashes : Bool) : Agrees win32 mergeSlashes (rawUri start x m) := by
  have hin := h.inStep hc hq
  have hext : ∀ ext : Option ℕ, (ext.map (start + ·)).map (· - start) = ext := fun ext => by
    cases ext <;> simp
  -- while the path is being read there are no arguments
  have hpath : ∀ st ext, PathRead win32 x st ext → m.argsStart = none →
      m.uriExt = ext.map (start + ·) → Agrees win32 mergeSlashes (rawUri start x m) := by
    intro st ext hread hargs hm
    obtain ⟨plus', hslow⟩ := hread.parse mergeSlashes x.length false m.plusInUri
    simp only [Agrees, ngxHttpProcessRequestUri, rawUri, hc, hq, hargs, hm, hext, Option.map_none,
      hslow]
    cases ext <;> simp [uriArgsExten, extenOf, argsFrom]
  cases state with
  | afterSlashInUri =>
    obtain ⟨hargs, hm, st, hread⟩ := hin
    exact hpath st none hread hargs hm
  | checkUri =>
    obtain ⟨hargs, ext, hm, hread⟩ := hin
    exact hpath .usual ext hread hargs hm
  | uri =>
    obtain ⟨path, args, st, ext, rfl, hhash, hargs, hm, hread⟩ := hin
    obtain ⟨plus', hslow⟩ := hread.parse_query hhash mergeSlashes path.length false m.plusInUri
    have hstart : start + path.length + 1 - start = path.length + 1 := by omega
    simp only [Agrees, ngxHttpProcessRequestUri, rawUri, hc, hq, hargs, hm, hext, Option.map_some,
      hstart, Nat.add_sub_cancel, hslow, take_left]
    cases ext <;> simp [uriArgsExten, extenOf]

/-! ## `ngx_http_parse_uri` -/

theorem tracks_parseUriLoop (h : Tracks win32 0 x state m) (rest : Bytes) :
    ∃ state', Tracks win32 0 (x ++ rest) state' (parseUriLoop win32 state m x.length rest) := by
  induction rest generalizing x state m with
  | nil => exact ⟨state, by rwa [append_nil]⟩
  | cons ch rest ih =>
    rw [parseUriLoop]
    have hlen : x.length + 1 = (x ++ [ch]).length := by simp
    have hcat : x ++ ch :: rest = x ++ [ch] ++ rest := by simp
    rw [hlen, hcat]
    split_ifs with hsp
    · subst hsp
      have hmarks : (spaceByte state m).2 = { m with spaceInUri := true } := by cases state <;> rfl
      rw [hmarks]
      exact ih (h.space.spaceInUri true)
    · have hstep := h.uriByte ch
      rw [zero_add] at hstep
      exact ih hstep

theorem rawUri_zero (x : Bytes) (m : UriMarks) : rawUri 0 x m =
      ⟨x, m.argsStart, m.uriExt, m.complexUri, m.quotedUri, m.plusInUri, m.spaceInUri⟩ := by
  simp [rawUri]

/-- A `:path` that is taken as it stands. -/
theorem ngxHttpParseUri_agrees {raw : Bytes} {r : RawUri}
    (h : ngxHttpParseUri win32 raw = some r) (hc : r.complexUri = false)
    (hq : r.quotedUri = false) (mergeSlashes : Bool) : Agrees win32 mergeSlashes r := by
  unfold ngxHttpParseUri at h
  cases raw with
  | nil =>
    rw [← Option.some.inj h]
    cases win32 <;> cases mergeSlashes <;> decide
  | cons ch rest =>
    simp only at h
    split_ifs at h with hch
    rw [not_not] at hch
    subst hch
    obtain ⟨state, htracks⟩ := tracks_parseUriLoop (tracks_slash win32 0) rest
    have hr := Option.some.inj h
    rw [← rawUri_zero] at hr
    rw [← hr] at hc hq ⊢
    exact htracks.agrees hc hq mergeSlashes

/-! ## `ngx_http_parse_request_line` -/

/-- The URI lies between `r->uri_start` and `r->uri_end`. -/
def UriFound (win32 : Bool) (pre : Bytes) (r : Request) : Prop :=
  ∃ pre0 x y state, pre = pre0 ++ x ++ y ∧ r.uriStart = some pre0.length ∧
    r.uriEnd = some (pre0.length + x.length) ∧ Tracks win32 pre0.length x state r.marks

/-- The parser is inside the URI. -/
def InUri (win32 : Bool) (pre : Bytes) (state : UriSw) (r : Request) : Prop :=
  ∃ pre0 x, pre = pre0 ++ x ∧ r.uriStart = some pre0.length ∧
    Tracks win32 pre0.length x state r.marks

/-- What holds of the request once the bytes `pre` have led to `state`. -/
def LineInv (win32 : Bool) (pre : Bytes) (state : SwState) (r : Request) : Prop :=
  match state with
  | .start | .method | .spacesBeforeUri | .schema => r.marks = .none
  | .schemaSlash => r.marks = .none ∧ ∃ s, r.schemaEnd = some s ∧ pre.length = s + 1
  | .schemaSlashSlash | .hostStart | .host | .hostEnd | .hostIpLiteral | .port =>
    r.marks = .none ∧ ∃ s, r.schemaEnd = some s ∧ pre[s + 1]? = some SLASH
  | .inUri state => InUri win32 pre state r
  | .checkUriHttp09 => UriFound win32 pre r ∧ InUri win32 pre .checkUri r
  | .http09 => UriFound win32 pre r ∧ InUri win32 pre .uri r
  | _ => UriFound win32 pre r

theorem UriFound.snoc (h : UriFound win32 pre r) (ch : UInt8) : UriFound win32 (pre ++ [ch]) r := by
  obtain ⟨pre0, x, y, state, rfl, hstart, hend, htracks⟩ := h
  exact ⟨pre0, x, y ++ [ch], state, by simp, hstart, hend, htracks⟩

/-- A byte at which the URI begins. -/
theorem inUri_start (hm : r.marks = .none) :
    InUri win32 (pre ++ [SLASH]) .afterSlashInUri { r with uriStart := some pre.length } :=
  ⟨pre, [SLASH], rfl, rfl, by rw [hm]; exact tracks_slash win32 _⟩

/-- The URI that is a slash of the schema's. -/
theorem uriFound_slashOfSchema {s : ℕ}
    (hm : r.marks = .none) (hs : r.schemaEnd = some s) (hslash : pre[s + 1]? = some SLASH) :
    UriFound win32 pre (slashOfSchema r) := by
  obtain ⟨hlt, hget⟩ := List.getElem?_eq_some_iff.mp hslash
  have hlen : (pre.take (s + 1)).length = s + 1 := by simp; omega
  refine ⟨pre.take (s + 1), [SLASH], pre.drop (s + 2), .afterSlashInUri, ?_, ?_, ?_, ?_⟩
  · rw [← hget, append_assoc, singleton_append, getElem_cons_drop, take_append_drop]
  · simp [slashOfSchema, hs, hlen]
  · simp [slashOfSchema, hs, hlen]
  · show Tracks win32 _ _ _ r.marks
    rw [hm]
    exact tracks_slash win32 _

/-- The invariant after a byte. -/
def StepInv (win32 : Bool) (pre : Bytes) : Step → Prop
  | .next state r => LineInv win32 pre state r
  | .done r => UriFound win32 pre r
  | _ => True

section Steps

variable {win32 : Bool} {pre : Bytes} {r : Request} (ch : UInt8)

theorem startByte_inv (h : r.marks = .none) :
    StepInv win32 (pre ++ [ch]) (startByte r pre.length ch) := by
  unfold startByte
  split_ifs <;> simp only [StepInv, LineInv, h]

theorem methodByte_inv (h : r.marks = .none) (data : Bytes) :
    StepInv win32 (pre ++ [ch]) (methodByte data r pre.length ch) := by
  unfold methodByte
  simp only
  split_ifs
  · split <;> simp only [StepInv, LineInv, h]
  · simp only [StepInv, LineInv, h]
  · trivial

theorem spacesBeforeUriByte_inv (h : r.marks = .none) :
    StepInv win32 (pre ++ [ch]) (spacesBeforeUriByte r pre.length ch) := by
  unfold spacesBeforeUriByte
  split_ifs with hch
  · rw [hch]
    exact inUri_start h
  · simp only [StepInv, LineInv, h]
  · simp only [StepInv, LineInv, h]
  · trivial

theorem schemaByte_inv (h : r.marks = .none) :
    StepInv win32 (pre ++ [ch]) (schemaByte r pre.length ch) := by
  unfold schemaByte
  split_ifs
  · simp only [StepInv, LineInv, h]
  · exact ⟨h, pre.length, rfl, by simp⟩
  · trivial

theorem expect_inv {c : UInt8} {state : SwState}
    (h : ch = c → LineInv win32 (pre ++ [ch]) state r) :
    StepInv win32 (pre ++ [ch]) (expect c state r ch) := by
  unfold expect
  split_ifs with hch
  · exact h hch
  · trivial

/-- The schema's second slash has been read. -/
def SchemaRead (pre : Bytes) (r : Request) : Prop :=
  r.marks = .none ∧ ∃ s, r.schemaEnd = some s ∧ pre[s + 1]? = some SLASH

theorem SchemaRead.snoc (h : SchemaRead pre r) : SchemaRead (pre ++ [ch]) r := by
  obtain ⟨hm, s, hs, hslash⟩ := h
  obtain ⟨hlt, -⟩ := List.getElem?_eq_some_iff.mp hslash
  exact ⟨hm, s, hs, by rwa [getElem?_append_left hlt]⟩

theorem schemaRead_slash {s : ℕ} (hm : r.marks = .none) (hs : r.schemaEnd = some s)
    (hlen : pre.length = s + 1) : SchemaRead (pre ++ [SLASH]) r :=
  ⟨hm, s, hs, by rw [← hlen, getElem?_concat_length]⟩

theorem hostEndByte_inv (h : SchemaRead pre r) :
    StepInv win32 (pre ++ [ch]) (hostEndByte r pre.length ch) := by
  unfold hostEndByte
  split_ifs with h1 h2
  · exact h.snoc ch
  · rw [h2]
    exact inUri_start h.1
  · obtain ⟨hm, s, hs, hslash⟩ := h.snoc ch
    exact uriFound_slashOfSchema (r := { r with hostEnd := some pre.length }) hm hs hslash
  · trivial

theorem hostByte_inv (h : SchemaRead pre r) :
    StepInv win32 (pre ++ [ch]) (hostByte r pre.length ch) := by
  unfold hostByte
  split_ifs
  · exact h.snoc ch
  · exact h.snoc ch
  · exact hostEndByte_inv ch h

theorem hostStartByte_inv (h : SchemaRead pre r) :
    StepInv win32 (pre ++ [ch]) (hostStartByte r pre.length ch) := by
  have h' : SchemaRead pre { r with hostStart := some pre.length } := h
  unfold hostStartByte
  split_ifs
  · exact h'.snoc ch
  · exact hostByte_inv ch h'

theorem hostIpLiteralByte_inv (h : SchemaRead pre r) :
    StepInv win32 (pre ++ [ch]) (hostIpLiteralByte r ch) := by
  unfold hostIpLiteralByte
  split_ifs
  case neg => trivial
  all_goals exact h.snoc ch

theorem portByte_inv (h : SchemaRead pre r) :
    StepInv win32 (pre ++ [ch]) (portByte r pre.length ch) := by
  unfold portByte
  split_ifs with h1 h2
  · exact h.snoc ch
  · rw [h2]
    exact inUri_start (r := { r with portEnd := some pre.length }) h.1
  · obtain ⟨hm, s, hs, hslash⟩ := h.snoc ch
    exact uriFound_slashOfSchema (r := { r with portEnd := some pre.length }) hm hs hslash
  · trivial

/-- A byte in one of the three states inside the URI. -/
theorem uriLineByte_inv (h : InUri win32 pre state r) :
    StepInv win32 (pre ++ [ch]) (uriLineByte win32 state r pre.length ch) := by
  obtain ⟨pre0, x, rfl, hstart, htracks⟩ := h
  have hfound : ∀ r' : Request, r'.uriStart = r.uriStart → r'.marks = r.marks →
      r'.uriEnd = some (pre0 ++ x).length → UriFound win32 (pre0 ++ x ++ [ch]) r' :=
    fun r' h1 h2 h3 => ⟨pre0, x, [ch], state, rfl, by rw [h1, hstart],
      by rw [h3, length_append], by rw [h2]; exact htracks⟩
  unfold uriLineByte
  split_ifs with h1
  · subst h1
    have hin : InUri win32 (pre0 ++ x ++ [SP]) (spaceByte state r.marks).1
        { r with uriEnd := some (pre0 ++ x).length } :=
      ⟨pre0, x ++ [SP], by simp, hstart, htracks.space⟩
    cases state <;> exact ⟨hfound _ rfl rfl rfl, hin⟩
  · exact hfound _ rfl rfl rfl
  · exact hfound _ rfl rfl rfl
  · trivial
  · refine ⟨pre0, x ++ [ch], by simp, hstart, ?_⟩
    rw [length_append]
    exact htracks.uriByte ch

/-- A byte after a space in the URI. -/
theorem spaceInUriByte_inv (hstate : state ≠ .afterSlashInUri)
    (hfound : UriFound win32 pre r) (h : InUri win32 pre state r) :
    StepInv win32 (pre ++ [ch]) (spaceInUriByte win32 state r pre.length ch) := by
  unfold spaceInUriByte http09Byte
  split_ifs with h1
  · subst h1
    obtain ⟨pre0, x, rfl, hstart, htracks⟩ := h
    have hin : InUri win32 (pre0 ++ x ++ [SP]) (spaceByte state r.marks).1 r :=
      ⟨pre0, x ++ [SP], by simp, hstart, htracks.space⟩
    cases state with
    | afterSlashInUri => exact absurd rfl hstate
    | checkUri => exact ⟨hfound.snoc SP, hin⟩
    | uri => exact ⟨hfound.snoc SP, hin⟩
  · exact hfound.snoc ch
  · exact hfound.snoc ch
  · exact hfound.snoc ch
  · obtain ⟨pre0, x, hpre, hstart, htracks⟩ := h
    exact uriLineByte_inv ch ⟨pre0, x, hpre, hstart, htracks.spaceInUri true⟩

theorem hostHttp09_inv (h : UriFound win32 pre r) :
    StepInv win32 (pre ++ [ch]) (http09Byte .hostHttp09 r pre.length ch .invalidRequest) := by
  have h' := h.snoc ch
  unfold http09Byte
  split_ifs
  case neg => trivial
  all_goals exact h'

/-- The states of the version leave the URI alone. -/
theorem version_inv (h : UriFound win32 pre r) :
    StepInv win32 (pre ++ [ch]) (firstMajorDigitByte r ch) ∧
      StepInv win32 (pre ++ [ch]) (majorDigitByte r ch) ∧
      StepInv win32 (pre ++ [ch]) (firstMinorDigitByte r ch) ∧
      StepInv win32 (pre ++ [ch]) (minorDigitByte r ch) ∧
      StepInv win32 (pre ++ [ch]) (spacesAfterDigitByte r ch) ∧
      StepInv win32 (pre ++ [ch]) (almostDoneByte r pre.length ch) := by
  have h' := h.snoc ch
  unfold firstMajorDigitByte majorDigitByte firstMinorDigitByte minorDigitByte
    spacesAfterDigitByte almostDoneByte
  refine ⟨?_, ?_, ?_, ?_, ?_, ?_⟩ <;> repeat' split
  all_goals first | exact h' | trivial

/-- **A byte keeps the invariant.** -/
theorem lineByte_inv {state : SwState} (h : LineInv win32 pre state r) (data : Bytes) :
    StepInv win32 (pre ++ [ch]) (lineByte win32 data state r pre.length ch) := by
  cases state with
  | start => exact startByte_inv ch h
  | method => exact methodByte_inv ch h data
  | spacesBeforeUri => exact spacesBeforeUriByte_inv ch h
  | schema => exact schemaByte_inv ch h
  | schemaSlash =>
    obtain ⟨hm, s, hs, hlen⟩ := h
    exact expect_inv ch fun hch => by
      rw [hch]
      exact schemaRead_slash hm hs hlen
  | schemaSlashSlash => exact expect_inv ch fun _ => SchemaRead.snoc ch h
  | hostStart => exact hostStartByte_inv ch h
  | host => exact hostByte_inv ch h
  | hostEnd => exact hostEndByte_inv ch h
  | hostIpLiteral => exact hostIpLiteralByte_inv ch h
  | port => exact portByte_inv ch h
  | hostHttp09 => exact hostHttp09_inv ch h
  | inUri state => exact uriLineByte_inv ch h
  | checkUriHttp09 => exact spaceInUriByte_inv ch (by simp) h.1 h.2
  | http09 => exact spaceInUriByte_inv ch (by simp) h.1 h.2
  | httpH | httpHT | httpHTT | httpHTTP => exact expect_inv ch fun _ => UriFound.snoc h ch
  | firstMajorDigit => exact (version_inv ch h).1
  | majorDigit => exact (version_inv ch h).2.1
  | firstMinorDigit => exact (version_inv ch h).2.2.1
  | minorDigit => exact (version_inv ch h).2.2.2.1
  | spacesAfterDigit => exact (version_inv ch h).2.2.2.2.1
  | almostDone => exact (version_inv ch h).2.2.2.2.2

end Steps

/-- The invariant of a result on the buffer `data`. -/
def ResultInv (win32 : Bool) (data : Bytes) : Result → Prop
  | .ok r _ _ => UriFound win32 data r
  | .again state r pos => LineInv win32 data state r ∧ pos = data.length
  | _ => True

variable {r : Request} {win32 : Bool}

theorem UriFound.append
    (h : UriFound win32 pre r) (rest : Bytes) : UriFound win32 (pre ++ rest) r := by
  obtain ⟨pre0, x, y, state, rfl, hstart, hend, htracks⟩ := h
  exact ⟨pre0, x, y ++ rest, state, by simp, hstart, hend, htracks⟩

variable {data : Bytes}

/-- **A call keeps the invariant**, by induction on the bytes. -/
theorem requestLineLoop_inv {rest : Bytes} {state : SwState} (h : LineInv win32 pre state r) :
    ResultInv win32 (pre ++ rest) (requestLineLoop win32 data state r pre.length rest) := by
  induction rest generalizing pre state r with
  | nil => exact ⟨by rwa [append_nil], by rw [append_nil]⟩
  | cons ch rest ih =>
    have hstep := lineByte_inv ch h data
    have hcat : pre ++ ch :: rest = pre ++ [ch] ++ rest := by simp
    rw [requestLineLoop, hcat]
    cases he : lineByte win32 data state r pre.length ch with
    | next state1 r1 =>
      rw [he] at hstep
      have hlen : pre.length + 1 = (pre ++ [ch]).length := by simp
      simp only [hlen]
      exact ih hstep
    | done r1 =>
      rw [he] at hstep
      simp only [finish]
      split_ifs
      · trivial
      · exact UriFound.append hstep rest
    | invalidMethod => trivial
    | invalidRequest => trivial

/-- **The calls on a growing buffer keep the invariant**, by induction on the reads. -/
theorem requestLineReads_inv {state : SwState}
    (h : LineInv win32 data state r) (reads : List Bytes) : ResultInv win32 (data ++ reads.flatten)
      (requestLineReads win32 data state r data.length reads) := by
  induction reads generalizing data state r with
  | nil => exact ⟨by simpa using h, by simp⟩
  | cons read reads ih =>
    have hcall : ResultInv win32 (data ++ read)
        (requestLineLoop win32 (data ++ read) state r data.length read) := requestLineLoop_inv h
    have hdrop : (data ++ read).drop data.length = read := drop_left
    rw [requestLineReads, ngxHttpParseRequestLine, hdrop, flatten_cons, ← append_assoc]
    cases he : requestLineLoop win32 (data ++ read) state r data.length read with
    | ok r1 httpVersion pos =>
      rw [he] at hcall
      exact UriFound.append hcall reads.flatten
    | again state1 r1 pos =>
      rw [he] at hcall
      obtain ⟨hinv, rfl⟩ := hcall
      exact ih hinv
    | invalidMethod => trivial
    | invalidRequest => trivial
    | invalid09Method => trivial

/-- What the request has of the URI that was found. -/
theorem UriFound.rawUri (h : UriFound win32 data r) :
    ∃ start x state, Tracks win32 start x state r.marks ∧
      r.rawUri data = RequestLine.rawUri start x r.marks := by
  obtain ⟨pre0, x, y, state, rfl, hstart, hend, htracks⟩ := h
  refine ⟨pre0.length, x, state, htracks, ?_⟩
  have hraw : ((pre0 ++ x ++ y).take (pre0.length + x.length)).drop pre0.length = x := by
    rw [← length_append, take_left, drop_left]
  simp only [Request.rawUri, hstart, hend, Option.getD_some, hraw]
  rfl

theorem uriFound_of_ok {reads : List Bytes} {httpVersion pos : ℕ}
    (h : requestLineReads win32 [] .start .init 0 reads = .ok r httpVersion pos) :
    UriFound win32 reads.flatten r := by
  have hinit : LineInv win32 [] .start .init := rfl
  have hinv := requestLineReads_inv hinit reads
  rw [length_nil, h] at hinv
  exact hinv

/-- The URI of an accepted request line begins with a slash. -/
theorem requestLineReads_slash {win32 : Bool} {reads : List Bytes} {r : Request}
    {httpVersion pos : ℕ}
    (h : requestLineReads win32 [] .start .init 0 reads = .ok r httpVersion pos) :
    ∃ raw, (r.rawUri reads.flatten).raw = SLASH :: raw := by
  obtain ⟨start, x, state, htracks, hr⟩ := (uriFound_of_ok h).rawUri
  rw [hr]
  obtain ⟨raw, hraw⟩ := head?_eq_some_iff.mp htracks.slash
  exact ⟨raw, hraw⟩

/-- **The fast path agrees with the slow path**: a URI that either parser leaves neither
complex nor quoted gives the same `uri`, `args` and `exten` as it stands. -/
theorem uriFastPath_agrees (win32 mergeSlashes : Bool) : (∀ reads r httpVersion pos,
      requestLineReads win32 [] .start .init 0 reads = .ok r httpVersion pos →
      r.marks.complexUri = false → r.marks.quotedUri = false →
      Agrees win32 mergeSlashes (r.rawUri reads.flatten)) ∧
    (∀ raw r, ngxHttpParseUri win32 raw = some r → r.complexUri = false → r.quotedUri = false →
      Agrees win32 mergeSlashes r) := by
  refine ⟨fun reads r httpVersion pos h hc hq => ?_, fun raw r h hc hq => ?_⟩
  · obtain ⟨start, x, state, htracks, hr⟩ := (uriFound_of_ok h).rawUri
    rw [hr]
    exact htracks.agrees hc hq mergeSlashes
  · exact ngxHttpParseUri_agrees h hc hq mergeSlashes

/-- `GET /a` in two reads. -/
def shortReads : List Bytes := [[0x47, 0x45, 0x54, SP, SLASH], [0x61, LF]]

/-- The request that `shortReads` makes. -/
def shortRequest : Request :=
  { Request.init with
    requestStart := some 0
    requestEnd := some 6
    methodEnd := some 2
    method := .get
    uriStart := some 4
    uriEnd := some 6
    httpMinor := 9 }

theorem shortReads_ok :
    requestLineReads false [] .start .init 0 shortReads = .ok shortRequest 9 7 := by
  decide

/-- `GET /a`, and `/a?` as a `:path`. -/
theorem uriFastPath_agrees_short : Agrees false true (shortRequest.rawUri shortReads.flatten) ∧
      Agrees false true ⟨[SLASH, 0x61, QUESTION], some 3, none, false, false, false, false⟩ :=
  ⟨(uriFastPath_agrees false true).1 shortReads shortRequest 9 7 shortReads_ok rfl rfl,
    (uriFastPath_agrees false true).2 [SLASH, 0x61, QUESTION] _ (by decide) rfl rfl⟩

/-- The URI of `shortReads`. -/
theorem requestLineReads_slash_short :
    ∃ raw, (shortRequest.rawUri shortReads.flatten).raw = SLASH :: raw :=
  requestLineReads_slash shortReads_ok

end RequestLine
