/-
# `ngx_http_parse_complex_uri` and `ngx_http_process_request_uri`

The slow path of URI parsing (`ngx_http_parse.c`) and the function that chooses between
it and the fast path (`ngx_http_request.c`).  The raw URI is the list of bytes from
`r->uri_start` to `r->uri_end`, and pointers into it are offsets.  The output buffer
`r->uri.data` is kept reversed: the byte at `u - 1` is the head, so that `u--` and the
rewinding of `..` drop bytes from the front.

`win32` stands for `NGX_WIN32`.
-/
import Mathlib
import ReadingCode.Bytes

namespace Uri

/-! ## State and output -/

/-- The four states that look at bytes of the path itself. -/
inductive Plain where
  | usual
  | slash
  | dot
  | dotDot
  deriving DecidableEq, Repr

/-- The parser's `state`.  Within an escape it comes with `quoted_state` and, after the
first digit, with `decoded`. -/
inductive Sw where
  | plain (state : Plain)
  | quoted (quotedState : Plain)
  | quotedSecond (quotedState : Plain) (decoded : ℕ)
  deriving DecidableEq, Repr

/-- The output: the bytes from `r->uri.data` up to `u`, last first; `r->uri_ext` as an
offset into `r->uri.data`; the two flags the parser may set. -/
structure Out where
  u : Bytes
  uriExt : Option ℕ
  quotedUri : Bool
  plusInUri : Bool
  deriving DecidableEq, Repr

/-- `*u++ = ch`. -/
def Out.push (o : Out) (ch : UInt8) : Out := { o with u := ch :: o.u }

/-- The rewinding in `sw_dot_dot`: `u -= 5`, then back to the slash before; `none` when
`u` falls below `r->uri.data`. -/
def rewind (u : Bytes) : Option Bytes :=
  match (u.drop 4).dropWhile (· ≠ SLASH) with
  | [] => none
  | u => some u

/-! ## One byte of the path -/

/-- What a plain state does with `ch`: `next` and `quote` fetch another byte. -/
inductive PlainExit where
  | next (state : Plain) (o : Out)
  | quote (quotedState : Plain) (o : Out)
  | args (o : Out)
  | done (o : Out)
  | invalid
  deriving DecidableEq, Repr

/-- On Windows a slash or backslash in `sw_usual` removes a single trailing dot. -/
def dropDot (win32 : Bool) (u : Bytes) : Bytes :=
  if win32 then
    match u with
    | a :: b :: rest => if a = DOT ∧ b ≠ DOT then b :: rest else a :: b :: rest
    | u => u
  else u

/-- `case sw_usual`.  `pathEnd` is `p == r->uri_start + r->uri.len`. -/
def usualByte (win32 pathEnd : Bool) (o : Out) (ch : UInt8) : PlainExit :=
  if usual win32 ch then .next .usual (o.push ch)
  else if win32 ∧ ch = BACKSLASH then
    let o := { o with u := dropDot win32 o.u, uriExt := none }
    if pathEnd then .next .usual o else .next .slash (o.push SLASH)
  else if ch = SLASH then
    .next .slash ({ o with u := dropDot win32 o.u, uriExt := none }.push ch)
  else if ch = PERCENT then .quote .usual o
  else if ch = QUESTION then .args o
  else if ch = HASH then .done o
  else if ch = DOT then .next .usual ({ o with uriExt := some (o.u.length + 1) }.push ch)
  else if ch = PLUS then .next .usual ({ o with plusInUri := true }.push ch)
  else .next .usual (o.push ch)

/-- The `default:` of the other three states: an ordinary byte of a segment. -/
def ordinaryByte (o : Out) (ch : UInt8) : PlainExit :=
  .next .usual ((if ch = PLUS then { o with plusInUri := true } else o).push ch)

/-- `case sw_slash`. -/
def slashByte (win32 mergeSlashes : Bool) (o : Out) (ch : UInt8) : PlainExit :=
  if usual win32 ch then .next .usual (o.push ch)
  else if win32 ∧ ch = BACKSLASH then .next .slash o
  else if ch = SLASH then .next .slash (if mergeSlashes then o else o.push ch)
  else if ch = DOT then .next .dot (o.push ch)
  else if ch = PERCENT then .quote .slash o
  else if ch = QUESTION then .args o
  else if ch = HASH then .done o
  else ordinaryByte o ch

/-- `case sw_dot`. -/
def dotByte (win32 : Bool) (o : Out) (ch : UInt8) : PlainExit :=
  if usual win32 ch then .next .usual (o.push ch)
  else if (win32 ∧ ch = BACKSLASH) ∨ ch = SLASH then .next .slash { o with u := o.u.tail }
  else if ch = DOT then .next .dotDot (o.push ch)
  else if ch = PERCENT then .quote .dot o
  else if ch = QUESTION then .args o
  else if ch = HASH then .done o
  else ordinaryByte o ch

/-- `case sw_dot_dot`. -/
def dotDotByte (win32 : Bool) (o : Out) (ch : UInt8) : PlainExit :=
  if usual win32 ch then .next .usual (o.push ch)
  else if (win32 ∧ ch = BACKSLASH) ∨ ch = SLASH then
    match rewind o.u with
    | some u => .next .slash { o with u := u }
    | none => .invalid
  else if ch = PERCENT then .quote .dotDot o
  else if ch = QUESTION then .args o
  else if ch = HASH then .done o
  else ordinaryByte o ch

/-- One byte in a plain state. -/
def plainByte (win32 mergeSlashes pathEnd : Bool) (state : Plain) (o : Out) (ch : UInt8) :
    PlainExit :=
  match state with
  | .usual => usualByte win32 pathEnd o ch
  | .slash => slashByte win32 mergeSlashes o ch
  | .dot => dotByte win32 o ch
  | .dotDot => dotDotByte win32 o ch

/-- A decoded byte: `%` and `#` (in the branch of a decimal digit), `?` (in that of a
letter) stand for themselves, NUL is refused, any other byte goes to the state the
escape began in. -/
def decodedByte (win32 mergeSlashes pathEnd : Bool) (state : Plain) (o : Out) (ch : UInt8) :
    PlainExit :=
  if ch = PERCENT ∨ ch = HASH ∨ ch = QUESTION then .next .usual (o.push ch)
  else if ch = NUL then .invalid
  else
    plainByte win32 mergeSlashes pathEnd state
      (if ch = PLUS then { o with plusInUri := true } else o) ch

/-! ## The whole URI -/

/-- How the `while` loop ends; `args` with the bytes after the `?`. -/
inductive UriExit where
  | args (o : Out) (rest : Bytes)
  | done (o : Out)
  | invalid
  deriving DecidableEq, Repr

/-- The `while (p <= r->uri_end)` loop, over the bytes still to be looked at.  `uriLen`
is `r->uri.len` on entry and `size` the length of the raw URI, so that `p`, one past the
current byte, has the offset `size - rest.length`. -/
def complexLoop (win32 mergeSlashes : Bool) (uriLen size : ℕ) :
    Sw → Out → Bytes → UriExit
  | _, o, [] => .done o
  | .plain state, o, ch :: rest =>
    match plainByte win32 mergeSlashes (size - rest.length == uriLen) state o ch with
    | .next state o => complexLoop win32 mergeSlashes uriLen size (.plain state) o rest
    | .quote quotedState o =>
      complexLoop win32 mergeSlashes uriLen size (.quoted quotedState) o rest
    | .args o => .args o rest
    | .done o => .done o
    | .invalid => .invalid
  | .quoted quotedState, o, ch :: rest =>
    match hexDigit ch with
    | some d =>
      complexLoop win32 mergeSlashes uriLen size (.quotedSecond quotedState d)
        { o with quotedUri := true } rest
    | none => .invalid
  | .quotedSecond quotedState decoded, o, ch :: rest =>
    match hexDigit ch with
    | some d =>
      match decodedByte win32 mergeSlashes (size - rest.length == uriLen) quotedState o
          (UInt8.ofNat (decoded * 16 + d)) with
      | .next state o => complexLoop win32 mergeSlashes uriLen size (.plain state) o rest
      | .quote quotedState o =>
        complexLoop win32 mergeSlashes uriLen size (.quoted quotedState) o rest
      | .args o => .args o rest
      | .done o => .done o
      | .invalid => .invalid
    | none => .invalid

/-- What the parser leaves in the request. -/
structure ComplexUri where
  uri : Bytes
  exten : Bytes
  args : Bytes
  argsStart : Option ℕ
  quotedUri : Bool
  plusInUri : Bool
  deriving DecidableEq, Repr

/-- `r->exten` at the labels `done:` and `args:`: from `r->uri_ext` to `u`, where set. -/
def Out.exten (o : Out) : Bytes :=
  match o.uriExt with
  | some e => o.u.reverse.drop e
  | none => []

/-- `ngx_http_parse_complex_uri(r, merge_slashes)` on the raw URI; `none` is
`NGX_HTTP_PARSE_INVALID_REQUEST`. -/
def ngxHttpParseComplexUri (win32 mergeSlashes : Bool) (uriLen : ℕ) (raw : Bytes)
    (quotedUri plusInUri : Bool) : Option ComplexUri :=
  match complexLoop win32 mergeSlashes uriLen raw.length (.plain .usual)
      ⟨[], none, quotedUri, plusInUri⟩ raw with
  | .done o => some ⟨o.u.reverse, o.exten, [], none, o.quotedUri, o.plusInUri⟩
  | .args o rest =>
    -- the arguments end at a fragment; without one they are left to the caller
    if HASH ∈ rest then
      some ⟨o.u.reverse, o.exten, rest.takeWhile (· ≠ HASH), none, o.quotedUri, o.plusInUri⟩
    else
      some ⟨o.u.reverse, o.exten, [], some (raw.length - rest.length), o.quotedUri, o.plusInUri⟩
  | .invalid => none

/-! ## The caller -/

/-- What the request-line parsers record about the URI. -/
structure RawUri where
  /-- the bytes from `r->uri_start` to `r->uri_end` -/
  raw : Bytes
  argsStart : Option ℕ
  uriExt : Option ℕ
  complexUri : Bool
  quotedUri : Bool
  plusInUri : Bool
  spaceInUri : Bool
  deriving DecidableEq, Repr

/-- The request's URI after `ngx_http_process_request_uri`. -/
structure RequestUri where
  uri : Bytes
  exten : Bytes
  args : Bytes
  unparsedUri : Bytes
  validUnparsedUri : Bool
  quotedUri : Bool
  plusInUri : Bool
  deriving DecidableEq, Repr

/-- `r->args`: what follows `r->args_start`, if it is set. -/
def argsFrom (raw : Bytes) (args : Bytes) (argsStart : Option ℕ) : Bytes :=
  match argsStart with
  | some a => if raw.length > a then raw.drop a else args
  | none => args

/-- `ngx_http_process_request_uri(r)`; `none` is the error that ends the request.  (The
Windows build goes on to check the result of either path for stream names and trailing
dots and spaces.) -/
def ngxHttpProcessRequestUri (win32 mergeSlashes : Bool) (r : RawUri) : Option RequestUri :=
  let uriLen :=
    match r.argsStart with
    | some a => a - 1
    | none => r.raw.length
  if r.complexUri ∨ r.quotedUri then
    (ngxHttpParseComplexUri win32 mergeSlashes uriLen r.raw r.quotedUri r.plusInUri).map fun c =>
      { uri := c.uri
        exten := c.exten
        args := argsFrom r.raw c.args c.argsStart
        unparsedUri := r.raw
        validUnparsedUri := !r.spaceInUri
        quotedUri := c.quotedUri
        plusInUri := c.plusInUri }
  else
    some
      { uri := r.raw.take uriLen
        exten :=
          match r.uriExt with
          | some e => (r.raw.take uriLen).drop e
          | none => []
        args := argsFrom r.raw [] r.argsStart
        unparsedUri := r.raw
        validUnparsedUri := !r.spaceInUri
        quotedUri := r.quotedUri
        plusInUri := r.plusInUri }

/-!
# What a normalised URI is

The reference on the whole string: cut the raw URI at `?` or `#`, percent-decode the path, collapse
the runs of slashes if they are to be merged, and remove the segments `.` and `..`.  `walk` takes as
a parameter how many segments `..` takes off, so that a walk that goes wrong can be compared.
-/

/-! ## The path and the query -/

/-- The raw path: what precedes the first `?` or `#`. -/
def rawPath (raw : Bytes) : Bytes := raw.takeWhile fun c => c ≠ QUESTION ∧ c ≠ HASH

/-- The query: what follows the `?` that ends the path, up to a fragment. -/
def query (raw : Bytes) : Bytes :=
  match raw.dropWhile fun c => c ≠ QUESTION ∧ c ≠ HASH with
  | [] => []
  | c :: rest => if c = QUESTION then rest.takeWhile (· ≠ HASH) else []

/-- Percent-decoding; `none` when a `%` is not followed by two hex digits or when an
escape stands for NUL. -/
def percentDecode : Bytes → Option Bytes
  | [] => some []
  | c :: rest =>
    if c = PERCENT then
      match rest with
      | h1 :: h2 :: rest =>
        match hexDigit h1, hexDigit h2 with
        | some d1, some d2 =>
          if d1 * 16 + d2 = 0 then none
          else (percentDecode rest).map (UInt8.ofNat (d1 * 16 + d2) :: ·)
        | _, _ => none
      | _ => none
    else (percentDecode rest).map (c :: ·)

/-- The path with an escape cut short by its end: it decodes up to there. -/
def CutEscape (path decoded : Bytes) : Prop :=
  ∃ p t, path = p ++ t ∧ percentDecode p = some decoded ∧
    (t = [PERCENT] ∨ ∃ h d, t = [PERCENT, h] ∧ hexDigit h = some d)

/-- Collapse runs of slashes; `prev` says that a slash has just been read. -/
def collapseFrom (prev : Bool) : Bytes → Bytes
  | [] => []
  | c :: rest =>
    if c = SLASH then
      if prev then collapseFrom true rest else c :: collapseFrom true rest
    else c :: collapseFrom false rest

/-- Collapse runs of slashes, if they are to be merged. -/
def collapse (mergeSlashes : Bool) (path : Bytes) : Bytes :=
  if mergeSlashes then collapseFrom false path else path

/-! ## Segments -/

/-- A path segment. -/
abbrev Segment := Bytes

/-- The segments of a text, separated by slashes; never empty. -/
def split : Bytes → List Segment
  | [] => [[]]
  | c :: rest =>
    if c = SLASH then [] :: split rest
    else
      match split rest with
      | s :: ss => (c :: s) :: ss
      | [] => [[c]]

/-- The path made of some segments. -/
def render : List Segment → Bytes
  | [] => []
  | s :: ss => SLASH :: (s ++ render ss)

/-- The segments `.` and `..`. -/
def IsDots (s : Segment) : Prop := s = [DOT] ∨ s = [DOT, DOT]

instance (s : Segment) : Decidable (IsDots s) := inferInstanceAs (Decidable (_ ∨ _))

/-- What `..` leaves of the segments before it (last first), `none` above the root. -/
def parent : List Segment → Option (List Segment)
  | [] => none
  | _ :: st => some st

/-- The same when an empty segment is taken off together with the one before it. -/
def parentSkippingEmpty : List Segment → Option (List Segment)
  | [] => none
  | s :: st => if s = [] then parent st else some st

/-- Walk over segments: drop `.`, let `..` take off segments, keep the others. -/
def walk (up : List Segment → Option (List Segment)) :
    List Segment → List Segment → Option (List Segment)
  | st, [] => some st
  | st, s :: ss =>
    if s = [DOT] then walk up st ss
    else if s = [DOT, DOT] then (up st).bind fun st => walk up st ss
    else walk up (s :: st) ss

/-- Remove the dot segments.  A last segment `.` or `..` leaves an empty one, for the
slash the path then ends with. -/
def removeDots (ss : List Segment) : Option (List Segment) :=
  (walk parent [] ss).map fun st =>
    match ss.getLast? with
    | some s => if IsDots s then ([] :: st).reverse else st.reverse
    | none => []

/-- The dots that open a segment, up to three of them, belong to its name, as the states for dots
have it.  `ngx_http_set_exten` takes only the first one for a part of the name: there `/..foo` has
the extension `foo`, which is none here. -/
def leadingDots : Segment → ℕ
  | a :: b :: c :: _ =>
    if a = DOT then if b = DOT then if c = DOT then 3 else 2 else 1 else 0
  | a :: b :: [] => if a = DOT then if b = DOT then 2 else 1 else 0
  | a :: [] => if a = DOT then 1 else 0
  | [] => 0

/-- What follows the last dot, if there is one. -/
def afterLastDot (s : Bytes) : Bytes :=
  if DOT ∈ s then (s.reverse.takeWhile (· ≠ DOT)).reverse else []

/-- The extension of a segment, in the sense of this parser. -/
def extension (s : Segment) : Bytes := afterLastDot (s.drop (leadingDots s))

/-! ## The reference -/

/-- A normalised URI. -/
structure Normal where
  uri : Bytes
  args : Bytes
  exten : Bytes
  deriving DecidableEq, Repr

/-- The segments of a decoded path, which begins with a slash. -/
def segments (mergeSlashes : Bool) (decoded : Bytes) : List Segment :=
  split (collapse mergeSlashes decoded).tail

/-- **The reference**: `none` when an escape is malformed or stands for NUL, or when a
`..` climbs above the root. -/
def normalise (mergeSlashes : Bool) (raw : Bytes) : Option Normal :=
  (percentDecode (rawPath raw)).bind fun decoded =>
    (removeDots (segments mergeSlashes decoded)).map fun ss =>
      { uri := render ss
        args := query raw
        exten := extension (ss.getLast?.getD []) }

/-!
# The parser as an automaton on decoded text

Decoding and normalising are entangled in `ngx_http_parse_complex_uri`: a decoded byte is
sent back to the state its escape began in.  Here the two are pulled apart.  `scan` cuts
and decodes the raw URI, `textRun` is what the four plain states do with the decoded
text, and `complexLoop_scan` says that the parser is the one after the other.
-/

open List

/-! ## Text -/

/-- The output without its flags. -/
structure Text where
  u : Bytes
  uriExt : Option ℕ
  deriving DecidableEq, Repr

def Out.text (o : Out) : Text := ⟨o.u, o.uriExt⟩

/-- `*u++ = ch`. -/
def Text.push (t : Text) (c : UInt8) : Text := { t with u := c :: t.u }

/-- What the plain states do with a byte of text: only slashes and dots matter. -/
def textByte (mergeSlashes : Bool) (state : Plain) (t : Text) (c : UInt8) :
    Option (Plain × Text) :=
  if c = SLASH then
    match state with
    | .usual => some (.slash, ⟨SLASH :: t.u, none⟩)
    | .slash => some (.slash, if mergeSlashes then t else t.push SLASH)
    | .dot => some (.slash, { t with u := t.u.tail })
    | .dotDot => (rewind t.u).map fun u => (.slash, { t with u := u })
  else if c = DOT then
    match state with
    | .usual => some (.usual, ⟨DOT :: t.u, some (t.u.length + 1)⟩)
    | .slash => some (.dot, t.push DOT)
    | .dot => some (.dotDot, t.push DOT)
    | .dotDot => some (.usual, t.push DOT)
  else some (.usual, t.push c)

/-- The plain states over a text; `none` is the error of a `..` above the root. -/
def textRun (mergeSlashes : Bool) (state : Plain) (t : Text) :
    Bytes → Option (Plain × Text)
  | [] => some (state, t)
  | c :: rest =>
    (textByte mergeSlashes state t c).bind fun r => textRun mergeSlashes r.1 r.2 rest

/-- The exit of a plain state is that of a byte of text. -/
def PlainExit.IsText (e : PlainExit) (r : Option (Plain × Text)) : Prop :=
  match e with
  | .next state o => r = some (state, o.text)
  | .invalid => r = none
  | _ => False

variable {c : UInt8}

/-- A byte other than `%`, `?` and `#` is text for every plain state. -/
theorem plainByte_isText (mergeSlashes pathEnd : Bool) (state : Plain) (o : Out)
    (h : c ≠ PERCENT ∧ c ≠ QUESTION ∧ c ≠ HASH) :
    (plainByte false mergeSlashes pathEnd state o c).IsText
      (textByte mergeSlashes state o.text c) := by
  have hu : usual false c = true ↔ special false c = false := by simp [usual_eq]
  cases state <;>
    simp only [plainByte, usualByte, slashByte, dotByte, dotDotByte, textByte, ordinaryByte,
      dropDot, Out.push, Text.push, Out.text, special] at * <;>
    grind [PlainExit.IsText, Out.text]

/-- Every decoded byte except NUL is text. -/
theorem decodedByte_isText (mergeSlashes pathEnd : Bool) (state : Plain) (o : Out) (h : c ≠ NUL) :
    (decodedByte false mergeSlashes pathEnd state o c).IsText
      (textByte mergeSlashes state o.text c) := by
  unfold decodedByte
  by_cases hp : c = PERCENT ∨ c = HASH ∨ c = QUESTION
  · rw [if_pos hp]
    have hs : c ≠ SLASH := by rcases hp with rfl | rfl | rfl <;> decide
    have hd : c ≠ DOT := by rcases hp with rfl | rfl | rfl <;> decide
    simp [PlainExit.IsText, textByte, hs, hd, Out.push, Out.text, Text.push]
  · rw [if_neg hp, if_neg h]
    have htext : (if c = PLUS then { o with plusInUri := true } else o).text = o.text := by
      split <;> rfl
    rw [← htext]
    exact plainByte_isText mergeSlashes pathEnd state _ (by grind)

/-! ## Cutting and decoding -/

/-- What the path of a raw URI ends with: the end of the URI, a query, a fragment, the
end of the URI within an escape, or a byte that spoils an escape. -/
inductive PathEnd where
  | atEnd
  | query (rest : Bytes)
  | fragment
  | truncated
  | bad
  deriving DecidableEq, Repr

/-- The decoded path and what it ends with. -/
def scan : Bytes → Bytes × PathEnd
  | [] => ([], .atEnd)
  | c :: rest =>
    if c = PERCENT then
      match rest with
      | [] => ([], .truncated)
      | h1 :: rest =>
        match hexDigit h1 with
        | none => ([], .bad)
        | some d1 =>
          match rest with
          | [] => ([], .truncated)
          | h2 :: rest =>
            match hexDigit h2 with
            | none => ([], .bad)
            | some d2 =>
              if d1 * 16 + d2 = 0 then ([], .bad)
              else (UInt8.ofNat (d1 * 16 + d2) :: (scan rest).1, (scan rest).2)
    else if c = QUESTION then ([], .query rest)
    else if c = HASH then ([], .fragment)
    else (c :: (scan rest).1, (scan rest).2)

/-- How the loop ends after a path that is not refused. -/
def UriExit.IsAfter (e : UriExit) (pathEnd : PathEnd) (t : Text) : Prop :=
  match pathEnd with
  | .query rest => ∃ o, e = .args o rest ∧ o.text = t
  | .bad => e = .invalid
  | _ => ∃ o, e = .done o ∧ o.text = t

variable {d1 d2 : ℕ}

theorem hexDigit_byte_ne_nul {c1 c2 : UInt8} (h1 : hexDigit c1 = some d1)
    (h2 : hexDigit c2 = some d2) (h : d1 * 16 + d2 ≠ 0) : UInt8.ofNat (d1 * 16 + d2) ≠ NUL := by
  have hd1 := hexDigit_lt h1
  have hd2 := hexDigit_lt h2
  intro he
  have := congrArg UInt8.toNat he
  simp [UInt8.toNat_ofNat'] at this
  omega

theorem PlainExit.IsText.cases {e : PlainExit} {r : Option (Plain × Text)} (h : e.IsText r) :
    (∃ state o, e = .next state o ∧ r = some (state, o.text)) ∨ (e = .invalid ∧ r = none) := by
  cases e with
  | next state o => exact .inl ⟨state, o, rfl, h⟩
  | invalid => exact .inr ⟨rfl, h⟩
  | quote | args | done => exact absurd h (by simp [PlainExit.IsText])

theorem plainByte_percent (mergeSlashes pathEnd : Bool) (state : Plain) (o : Out) :
    plainByte false mergeSlashes pathEnd state o PERCENT = .quote state o := by
  cases state <;> rfl

theorem plainByte_question (mergeSlashes pathEnd : Bool) (state : Plain) (o : Out) :
    plainByte false mergeSlashes pathEnd state o QUESTION = .args o := by
  cases state <;> rfl

theorem plainByte_hash (mergeSlashes pathEnd : Bool) (state : Plain) (o : Out) :
    plainByte false mergeSlashes pathEnd state o HASH = .done o := by
  cases state <;> rfl

/-- **The parser scans and runs on the text**: it refuses what its plain states refuse,
and otherwise ends as the path does. -/
theorem complexLoop_scan (mergeSlashes : Bool) (uriLen size : ℕ) (raw : Bytes)
    (state : Plain) (o : Out) : match textRun mergeSlashes state o.text (scan raw).1 with
    | none => complexLoop false mergeSlashes uriLen size (.plain state) o raw = .invalid
    | some r =>
      (complexLoop false mergeSlashes uriLen size (.plain state) o raw).IsAfter (scan raw).2
        r.2 := by
  fun_induction scan raw generalizing state o with
  | case1 => simp [textRun, complexLoop, UriExit.IsAfter]
  | case2 => simp [textRun, complexLoop, UriExit.IsAfter, plainByte_percent]
  | case3 h1 rest hh => simp [textRun, complexLoop, UriExit.IsAfter, plainByte_percent, hh]
  | case4 h1 d1 hh =>
    simp [textRun, complexLoop, UriExit.IsAfter, plainByte_percent, hh, Out.text]
  | case5 h1 d1 hh h2 rest hh2 =>
    simp [textRun, complexLoop, UriExit.IsAfter, plainByte_percent, hh, hh2]
  | case6 h1 d1 hh h2 rest d2 hh2 hz =>
    have hnul : UInt8.ofNat (d1 * 16 + d2) = NUL := by rw [hz]; rfl
    have hdec : ∀ pathEnd o, decodedByte false mergeSlashes pathEnd state o NUL = .invalid :=
      fun _ _ => rfl
    simp [textRun, complexLoop, UriExit.IsAfter, plainByte_percent, hh, hh2, hnul, hdec]
  | case7 h1 d1 hh h2 rest d2 hh2 hz ih =>
    have hb := hexDigit_byte_ne_nul hh hh2 hz
    rw [textRun, complexLoop, plainByte_percent]
    simp only [complexLoop, hh, hh2]
    rcases (decodedByte_isText mergeSlashes (size - rest.length == uriLen) state
      { o with quotedUri := true } hb).cases with ⟨state', o', he, hr⟩ | ⟨he, hr⟩
    · have hr' : textByte mergeSlashes state o.text (UInt8.ofNat (d1 * 16 + d2)) =
        some (state', o'.text) := hr
      rw [he, hr']
      exact ih state' o'
    · have hr' : textByte mergeSlashes state o.text (UInt8.ofNat (d1 * 16 + d2)) = none := hr
      rw [he, hr']
      rfl
  | case8 rest => simp [textRun, complexLoop, UriExit.IsAfter, plainByte_question]
  | case9 rest => simp [textRun, complexLoop, UriExit.IsAfter, plainByte_hash]
  | case10 c rest hp hq hh ih =>
    rw [textRun, complexLoop]
    rcases (plainByte_isText mergeSlashes (size - rest.length == uriLen) state o
      ⟨hp, hq, hh⟩).cases with ⟨state', o', he, hr⟩ | ⟨he, hr⟩
    · rw [he, hr]
      exact ih state' o'
    · rw [he, hr]
      rfl

/-! ## The scan and the reference -/

theorem rawPath_cons_of_ne (hq : c ≠ QUESTION) (hh : c ≠ HASH) (rest : Bytes) :
    rawPath (c :: rest) = c :: rawPath rest := by
  simp [rawPath, hq, hh]

theorem rawPath_cons_of_stop (h : ¬ (c ≠ QUESTION ∧ c ≠ HASH)) (rest : Bytes) :
    rawPath (c :: rest) = [] := by
  simp only [rawPath, takeWhile_cons, h, decide_false]
  rfl

theorem hexDigit_ne_of_some {d : ℕ} (h : hexDigit c = some d) : c ≠ QUESTION ∧ c ≠ HASH := by
  constructor <;> rintro rfl <;> exact absurd h (by simp [show hexDigit QUESTION = none from rfl,
    show hexDigit HASH = none from rfl])

variable {h1 h2 : UInt8}

theorem rawPath_escape (hh1 : hexDigit h1 = some d1) (hh2 : hexDigit h2 = some d2) (rest : Bytes) :
    rawPath (PERCENT :: h1 :: h2 :: rest) = PERCENT :: h1 :: h2 :: rawPath rest := by
  rw [rawPath_cons_of_ne (by decide) (by decide),
    rawPath_cons_of_ne (hexDigit_ne_of_some hh1).1 (hexDigit_ne_of_some hh1).2,
    rawPath_cons_of_ne (hexDigit_ne_of_some hh2).1 (hexDigit_ne_of_some hh2).2]

theorem scan_ordinary (hp : c ≠ PERCENT) (hq : c ≠ QUESTION) (hh : c ≠ HASH)
    (rest : Bytes) : scan (c :: rest) = (c :: (scan rest).1, (scan rest).2) := by
  rw [scan.eq_def]
  simp only [if_neg hp, if_neg hq, if_neg hh]

theorem scan_escape (hh1 : hexDigit h1 = some d1)
    (hh2 : hexDigit h2 = some d2) (hz : d1 * 16 + d2 ≠ 0) (rest : Bytes) :
    scan (PERCENT :: h1 :: h2 :: rest) =
      (UInt8.ofNat (d1 * 16 + d2) :: (scan rest).1, (scan rest).2) := by
  simp only [scan, if_pos, hh1, hh2, if_neg hz]

theorem percentDecode_ordinary (hp : c ≠ PERCENT) (rest : Bytes) :
    percentDecode (c :: rest) = (percentDecode rest).map (c :: ·) := by
  rw [percentDecode.eq_def]
  simp only [if_neg hp]

theorem percentDecode_escape (hh1 : hexDigit h1 = some d1)
    (hh2 : hexDigit h2 = some d2) (hz : d1 * 16 + d2 ≠ 0) (rest : Bytes) :
    percentDecode (PERCENT :: h1 :: h2 :: rest) =
      (percentDecode rest).map (UInt8.ofNat (d1 * 16 + d2) :: ·) := by
  simp only [percentDecode, if_pos, hh1, hh2, if_neg hz]

variable {d : Bytes}

/-- Scanning past a stretch that decodes. -/
theorem scan_append {p t : Bytes} (hd : percentDecode p = some d)
    (hp : ∀ c ∈ p, c ≠ QUESTION ∧ c ≠ HASH) : scan (p ++ t) = (d ++ (scan t).1, (scan t).2) := by
  fun_induction percentDecode p generalizing d with
  | case1 => simp_all
  | case2 h1 h2 rest d1 d2 hh2 hh1 hz => exact absurd hd (by simp)
  | case3 h1 h2 rest d1 d2 hh2 hh1 hz ih =>
    obtain ⟨d', hd', rfl⟩ := Option.map_eq_some_iff.mp hd
    rw [cons_append, cons_append, cons_append, scan_escape hh1 hh2 hz,
      ih hd' fun c hc => hp c (by simp [hc])]
    rfl
  | case4 => exact absurd hd (by simp)
  | case5 => exact absurd hd (by simp)
  | case6 c rest hc ih =>
    obtain ⟨d', hd', rfl⟩ := Option.map_eq_some_iff.mp hd
    obtain ⟨hq, hh⟩ := hp c (by simp)
    rw [cons_append, scan_ordinary hc hq hh, ih hd' fun c hc => hp c (by simp [hc])]
    rfl

/-- What a scan says about the reference's path. -/
def PathEnd.Agrees (pathEnd : PathEnd) (raw decoded : Bytes) : Prop :=
  match pathEnd with
  | .truncated => percentDecode (rawPath raw) = none ∧ rawPath raw = raw ∧ CutEscape raw decoded
  | .bad => percentDecode (rawPath raw) = none
  | _ => percentDecode (rawPath raw) = some decoded

variable {raw : Bytes}

/-- Agreement is kept when a stretch that decodes is put in front. -/
theorem PathEnd.Agrees.cons {pathEnd : PathEnd} {p decoded : Bytes}
    (hraw : ∀ r, rawPath (p ++ r) = p ++ rawPath r)
    (hdec : ∀ r, percentDecode (p ++ r) = (percentDecode r).map (c :: ·))
    (h : pathEnd.Agrees raw decoded) : pathEnd.Agrees (p ++ raw) (c :: decoded) := by
  cases pathEnd with
  | truncated =>
    obtain ⟨hnone, heq, q, t, rfl, hq, ht⟩ := h
    refine ⟨by rw [hraw, hdec, hnone]; rfl, by rw [hraw, heq], p ++ q, t, ?_, ?_, ht⟩
    · rw [append_assoc]
    · rw [hdec, hq]
      rfl
  | bad => exact (congrArg percentDecode (hraw raw)).trans ((hdec _).trans (by rw [h]; rfl))
  | atEnd | query | fragment =>
    exact (congrArg percentDecode (hraw raw)).trans ((hdec _).trans (by rw [h]; rfl))

theorem scan_agrees (raw : Bytes) : (scan raw).2.Agrees raw (scan raw).1 := by
  fun_induction scan raw with
  | case1 => rfl
  | case2 => exact ⟨rfl, rfl, [], [PERCENT], rfl, rfl, .inl rfl⟩
  | case3 h1 rest hh =>
    show percentDecode (rawPath _) = none
    rw [rawPath_cons_of_ne (by decide) (by decide)]
    by_cases hq : h1 ≠ QUESTION ∧ h1 ≠ HASH
    · rw [rawPath_cons_of_ne hq.1 hq.2]
      cases rawPath rest <;> simp [percentDecode, hh]
    · rw [rawPath_cons_of_stop hq]
      rfl
  | case4 h1 d1 hh =>
    have hraw : rawPath [PERCENT, h1] = [PERCENT, h1] := by
      rw [rawPath_cons_of_ne (by decide) (by decide),
        rawPath_cons_of_ne (hexDigit_ne_of_some hh).1 (hexDigit_ne_of_some hh).2]
      rfl
    refine ⟨by rw [hraw]; rfl, hraw, [], [PERCENT, h1], rfl, rfl, .inr ⟨h1, d1, rfl, hh⟩⟩
  | case5 h1 d1 hh h2 rest hh2 =>
    show percentDecode (rawPath _) = none
    rw [rawPath_cons_of_ne (by decide) (by decide),
      rawPath_cons_of_ne (hexDigit_ne_of_some hh).1 (hexDigit_ne_of_some hh).2]
    by_cases hq : h2 ≠ QUESTION ∧ h2 ≠ HASH
    · rw [rawPath_cons_of_ne hq.1 hq.2]
      simp [percentDecode, hh, hh2]
    · rw [rawPath_cons_of_stop hq]
      rfl
  | case6 h1 d1 hh h2 rest d2 hh2 hz =>
    show percentDecode (rawPath _) = none
    rw [rawPath_escape hh hh2]
    simp only [percentDecode, if_pos, hh, hh2, hz]
  | case7 h1 d1 hh h2 rest d2 hh2 hz ih =>
    exact .cons (p := [PERCENT, h1, h2]) (fun r => rawPath_escape hh hh2 r)
      (fun r => percentDecode_escape hh hh2 hz r) ih
  | case8 rest => rfl
  | case9 rest => rfl
  | case10 c rest hp hq hh ih =>
    exact .cons (p := [c]) (fun r => rawPath_cons_of_ne hq hh r)
      (fun r => percentDecode_ordinary hp r) ih

/-- A path that decodes is what the scan reads. -/
theorem scan_of_percentDecode (h : percentDecode (rawPath raw) = some d) :
    (scan raw).1 = d ∧ (scan raw).2 ≠ .truncated ∧ (scan raw).2 ≠ .bad := by
  have hagree := scan_agrees raw
  cases hs : (scan raw).2 <;> rw [hs] at hagree <;> simp_all [PathEnd.Agrees]

/-- A URI that ends within an escape is scanned up to there. -/
theorem scan_of_cutEscape (hraw : rawPath raw = raw)
    (h : CutEscape raw d) : scan raw = (d, .truncated) := by
  obtain ⟨p, t, rfl, hp, ht⟩ := h
  have hall : ∀ c ∈ p ++ t, c ≠ QUESTION ∧ c ≠ HASH := fun c hc => by
    rw [← hraw] at hc
    simpa using mem_takeWhile_imp hc
  rw [scan_append hp fun c hc => hall c (mem_append_left _ hc)]
  rcases ht with rfl | ⟨c, k, rfl, hk⟩
  · simp [scan]
  · simp [scan, hk]

/-- The bytes from the end of the path on. -/
def afterPath (raw : Bytes) : Bytes := raw.dropWhile fun c => c ≠ QUESTION ∧ c ≠ HASH

theorem rawPath_append_afterPath (raw : Bytes) : rawPath raw ++ afterPath raw = raw :=
  takeWhile_append_dropWhile

/-- What the end of the path says about the bytes from there on. -/
def PathEnd.Leaves (pathEnd : PathEnd) (rest : Bytes) : Prop :=
  match pathEnd with
  | .query q => rest = QUESTION :: q
  | .fragment => rest.head? = some HASH
  | .bad => True
  | _ => rest = []

theorem afterPath_cons_of_ne (hq : c ≠ QUESTION) (hh : c ≠ HASH)
    (rest : Bytes) : afterPath (c :: rest) = afterPath rest := by
  simp [afterPath, hq, hh]

theorem scan_leaves (raw : Bytes) : (scan raw).2.Leaves (afterPath raw) := by
  fun_induction scan raw with
  | case1 => rfl
  | case2 => rfl
  | case3 => trivial
  | case4 h1 d1 hh =>
    rw [afterPath_cons_of_ne (by decide) (by decide),
      afterPath_cons_of_ne (hexDigit_ne_of_some hh).1 (hexDigit_ne_of_some hh).2]
    rfl
  | case5 => trivial
  | case6 => trivial
  | case7 h1 d1 hh h2 rest d2 hh2 hz ih =>
    rw [afterPath_cons_of_ne (by decide) (by decide),
      afterPath_cons_of_ne (hexDigit_ne_of_some hh).1 (hexDigit_ne_of_some hh).2,
      afterPath_cons_of_ne (hexDigit_ne_of_some hh2).1 (hexDigit_ne_of_some hh2).2]
    exact ih
  | case8 rest => rfl
  | case9 rest => rfl
  | case10 c rest hp hq hh ih =>
    rw [afterPath_cons_of_ne hq hh]
    exact ih

theorem query_eq (raw : Bytes) : query raw = match afterPath raw with
      | [] => []
      | c :: rest => if c = QUESTION then rest.takeWhile (· ≠ HASH) else [] := rfl

/-- The query that goes with an end of the path. -/
def PathEnd.query? : PathEnd → Option Bytes
  | .query rest => some (rest.takeWhile (· ≠ HASH))
  | .bad => none
  | _ => some []

theorem query_of_leaves {q : Bytes} {pathEnd : PathEnd}
    (h : pathEnd.Leaves (afterPath raw)) (hq : pathEnd.query? = some q) : query raw = q := by
  cases pathEnd with
  | query rest =>
    rw [← Option.some.inj hq]
    simp only [query_eq, show afterPath raw = QUESTION :: rest from h, if_pos]
  | bad => simp [PathEnd.query?] at hq
  | fragment =>
    obtain ⟨rest, hrest⟩ := head?_eq_some_iff.mp h
    rw [← Option.some.inj hq]
    simp only [query_eq, hrest, if_neg (show HASH ≠ QUESTION by decide)]
  | atEnd | truncated =>
    rw [← Option.some.inj hq]
    simp only [query_eq, show afterPath raw = [] from h]

/-- `r->args` as the caller takes it, with the offset that the parser leaves. -/
theorem argsFrom_append (p rest : Bytes) :
    argsFrom (p ++ QUESTION :: rest) [] (some ((p ++ QUESTION :: rest).length - rest.length)) =
      rest := by
  have hlen : (p ++ QUESTION :: rest).length - rest.length = (p ++ [QUESTION]).length := by
    simp; omega
  have hdrop : (p ++ QUESTION :: rest).drop (p ++ [QUESTION]).length = rest := by
    rw [append_cons p QUESTION rest, drop_left]
  simp only [argsFrom, hlen, hdrop]
  cases rest <;> simp

/-- `r->exten` of a text. -/
def Text.exten (t : Text) : Bytes :=
  match t.uriExt with
  | some e => t.u.reverse.drop e
  | none => []

/-- **What the parser returns**, in terms of the scan and of the text run. -/
theorem ngxHttpParseComplexUri_scan (mergeSlashes : Bool) (uriLen : ℕ) (raw : Bytes)
    (quotedUri plusInUri : Bool) : match textRun mergeSlashes .usual ⟨[], none⟩ (scan raw).1 with
    | none => ngxHttpParseComplexUri false mergeSlashes uriLen raw quotedUri plusInUri = none
    | some r =>
      if (scan raw).2 = .bad then
        ngxHttpParseComplexUri false mergeSlashes uriLen raw quotedUri plusInUri = none
      else
        ∃ c, ngxHttpParseComplexUri false mergeSlashes uriLen raw quotedUri plusInUri = some c ∧
          c.uri = r.2.u.reverse ∧ c.exten = r.2.exten ∧
          argsFrom raw c.args c.argsStart = query raw := by
  have hloop := complexLoop_scan mergeSlashes uriLen raw.length raw .usual
    ⟨[], none, quotedUri, plusInUri⟩
  have hleaves := scan_leaves raw
  have hquery := fun q => query_of_leaves (q := q) hleaves
  have hcat := rawPath_append_afterPath raw
  simp only [Out.text] at hloop
  unfold ngxHttpParseComplexUri
  cases hrun : textRun mergeSlashes .usual ⟨[], none⟩ (scan raw).1 with
  | none =>
    rw [hrun] at hloop
    simp only [hloop]
  | some r =>
    rw [hrun] at hloop
    simp only at hloop ⊢
    cases hend : (scan raw).2 with
    | bad =>
      rw [hend] at hloop
      have hloop' : complexLoop false mergeSlashes uriLen raw.length (.plain .usual)
        ⟨[], none, quotedUri, plusInUri⟩ raw = .invalid := hloop
      simp [hloop']
    | query rest =>
      rw [hend] at hloop hquery hleaves
      obtain ⟨o, ho, htext⟩ := hloop
      have hrest : afterPath raw = QUESTION :: rest := hleaves
      have hraw : raw = rawPath raw ++ QUESTION :: rest := by rw [← hrest, hcat]
      have hquery := hquery _ rfl
      rw [ho, ← htext]
      by_cases hh : HASH ∈ rest
      · refine ⟨_, if_pos hh, rfl, rfl, ?_⟩
        rw [hquery]
        rfl
      · refine ⟨_, if_neg hh, rfl, rfl, ?_⟩
        have htake : rest.takeWhile (· ≠ HASH) = rest := by
          rw [takeWhile_eq_self_iff]
          intro c hc
          have hne : c ≠ HASH := fun h => hh (h ▸ hc)
          simpa using hne
        rw [hquery, htake]
        have := argsFrom_append (rawPath raw) rest
        rwa [← hraw] at this
    | atEnd | truncated | fragment =>
      rw [hend] at hloop hquery
      obtain ⟨o, ho, htext⟩ := hloop
      rw [ho, ← htext]
      exact ⟨_, rfl, rfl, rfl, (hquery _ rfl).symm⟩

end Uri
