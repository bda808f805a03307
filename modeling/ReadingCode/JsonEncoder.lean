/-
# The scanner and the grammar of JSON

`php_json_scan` reads the tokens and the grammar of `json_parser.y` says which of them are a value.
The contents of strings, the values of numbers and the actions of the grammar, which limit the depth
and the names of properties, are left out: the second pass over a string only copies what the first
one accepted, and the rules for errors and for closing brackets of the wrong kind end the parser.
-/
import ReadingCode.NumericString
import ReadingCode.VarUnserializer

namespace PhpJson

open Decimal

/-- `php_json_error_code`, without `PHP_JSON_ERROR_NONE`. -/
inductive ErrorCode
  | depth
  | stateMismatch
  | ctrlChar
  | syntaxError
  | utf8
  | recursion
  | infOrNan
  | unsupportedType
  | invalidPropertyName
  | utf16
  deriving DecidableEq

/-- The tokens of the parser. -/
inductive Token
  | lbrace
  | rbrace
  | lbracket
  | rbracket
  | colon
  | comma
  | nul
  | isTrue
  | isFalse
  | int
  | double
  | string
  | estring
  | eoi
  | error (code : ErrorCode)
  deriving DecidableEq

/-- The byte of a character. -/
abbrev byte (c : Char) : UInt8 := c.toUInt8

/-! ## UTF-8 -/

/-- `[lo-hi]`, one byte. -/
def takeRange (lo hi : UInt8) : Bytes → Option Bytes
  | [] => none
  | b :: r => if lo ≤ b ∧ b ≤ hi then some r else none

/-- `UTF8T{n}` -/
def takeTails : ℕ → Bytes → Option Bytes
  | 0, r => some r
  | n + 1, r => (takeRange 0x80 0xbf r).bind (takeTails n)

/-- The rule `UTF8`. -/
def takeUtf8 : Bytes → Option Bytes
  | [] => none
  | c :: r =>
    if c ≤ 0x7f then some r
    else if 0xc2 ≤ c ∧ c ≤ 0xdf then takeTails 1 r
    else if c = 0xe0 then (takeRange 0xa0 0xbf r).bind (takeTails 1)
    else if 0xe1 ≤ c ∧ c ≤ 0xec then takeTails 2 r
    else if c = 0xed then (takeRange 0x80 0x9f r).bind (takeTails 1)
    else if 0xee ≤ c ∧ c ≤ 0xef then takeTails 2 r
    else if c = 0xf0 then (takeRange 0x90 0xbf r).bind (takeTails 2)
    else if 0xf1 ≤ c ∧ c ≤ 0xf3 then takeTails 3 r
    else if c = 0xf4 then (takeRange 0x80 0x8f r).bind (takeTails 2)
    else none

/-! ## Strings -/

/-- `HEX{4}`, as the first digit, the second one and the rest. -/
def takeHex : Bytes → Option (ℕ × ℕ × Bytes)
  | a :: b :: c :: d :: r =>
    match hexDigit a, hexDigit b, hexDigit c, hexDigit d with
    | some a, some b, some _, some _ => some (a, b, r)
    | _, _, _, _ => none
  | _ => none

/-- `ESCSYM` -/
def isEscSym (c : UInt8) : Bool :=
  c = byte '"' || c = byte '\\' || c = byte '/' || c = byte 'b' || c = byte 'f' || c = byte 'n' ||
    c = byte 'r' || c = byte 't'

/-- The second half of `UTF16_4`. -/
def takeLowSurrogate : Bytes → Option Bytes
  | b :: c :: r =>
    if b = byte '\\' ∧ c = byte 'u' then
      (takeHex r).bind fun (a, b, r) => if a = 13 ∧ 12 ≤ b then some r else none
    else none
  | _ => none

/-- The rules behind a backslash in a string: `UTF16_1` to `UTF16_4`, `UCS2`, `ESC` and `ESCPREF`.
The longest match decides, so that `UCS2` is left with the surrogates that are no pair. -/
def scanEscape : Bytes → Except ErrorCode Bytes
  | [] => .error .syntaxError
  | c :: r =>
    if isEscSym c then .ok r
    else if c = byte 'u' then
      match takeHex r with
      | none => .error .syntaxError
      | some (a, b, r) =>
        -- a surrogate: only a high one with a low one behind it is a character
        if a = 13 ∧ 8 ≤ b then
          match (if b < 12 then takeLowSurrogate r else none) with
          | some r => .ok r
          | none => .error .utf16
        else .ok r
    else .error .syntaxError

/-- The condition `STR_P1`: the rest behind the closing quote. -/
def scanStr : ℕ → Bytes → Except ErrorCode Bytes
  | 0, _ => .error .syntaxError
  | _ + 1, [] => .error .ctrlChar
  | fuel + 1, c :: r =>
    if c < 0x20 then .error .ctrlChar
    else if c = byte '"' then .ok r
    else if c = byte '\\' then
      match scanEscape r with
      | .error code => .error code
      | .ok r => scanStr fuel r
    else
      match takeUtf8 (c :: r) with
      | some r => scanStr fuel r
      | none => .error .utf8

/-- A string, behind the opening quote. -/
def scanString (r : Bytes) : Token × Bytes :=
  match scanStr (r.length + 1) r with
  | .ok r' => (if r.head? = some (byte '"') then .estring else .string, r')
  | .error code => (.error code, r)

/-! ## Numbers -/

/-- `DIGIT*` -/
def dropDigits (r : Bytes) : Bytes := r.dropWhile fun b => decide (IsDigit b)

/-- `UINT` -/
def scanUint : Bytes → Option (Bytes × Bytes)
  | [] => none
  | c :: r =>
    if c = byte '0' then some ([c], r)
    else if IsDigit c then some (c :: r.takeWhile fun b => decide (IsDigit b), dropDigits r)
    else none

/-- `"." DIGIT+` -/
def scanFraction : Bytes → Option Bytes
  | b :: c :: r => if b = byte '.' ∧ IsDigit c then some (dropDigits r) else none
  | _ => none

/-- `[+-]? DIGIT+` -/
def scanSigned : Bytes → Option Bytes
  | [] => none
  | c :: r =>
    if c = byte '+' ∨ c = byte '-' then
      match r with
      | [] => none
      | d :: r => if IsDigit d then some (dropDigits r) else none
    else if IsDigit c then some (dropDigits r) else none

/-- `[eE] [+-]? DIGIT+` -/
def scanExponent : Bytes → Option Bytes
  | [] => none
  | c :: r => if c = byte 'e' ∨ c = byte 'E' then scanSigned r else none

/-- The token of the rule `INT`, with the option `PHP_JSON_BIGINT_AS_STRING`. -/
def intToken (bigintAsString negative : Bool) (digits : Bytes) : Token :=
  let minDigits := NumericString.longMinDigits .eight
  let bigint := minDigits.length < digits.length ∨ digits.length = minDigits.length ∧
    ¬ (digits < minDigits ∨ digits = minDigits ∧ negative)
  if bigint then if bigintAsString then .string else .double else .int

/-- The rules `INT`, `FLOAT` and `EXP`, behind the sign. -/
def scanNumber (bigintAsString negative : Bool) (r : Bytes) : Option (Token × Bytes) :=
  (scanUint r).map fun (digits, r) =>
    match scanFraction r with
    | some r => (.double, (scanExponent r).getD r)
    | none =>
      match scanExponent r with
      | some r => (.double, r)
      | none => (intToken bigintAsString negative digits, r)

/-! ## Tokens -/

/-- The rest behind the given characters. -/
def takeAll : List Char → Bytes → Option Bytes
  | [], r => some r
  | _ :: _, [] => none
  | c :: cs, b :: r => if b = byte c then takeAll cs r else none

/-- The rules `CTRL`, `UTF8` and `ANY` outside of strings. -/
def scanOther (c : UInt8) (r : Bytes) : Token × Bytes :=
  if c < 0x20 then (.error .ctrlChar, r)
  else
    match takeUtf8 (c :: r) with
    | some r => (.error .syntaxError, r)
    | none => (.error .utf8, r)

/-- A word, behind its first letter. -/
def scanWord (t : Token) (cs : List Char) (c : UInt8) (r : Bytes) : Token × Bytes :=
  match takeAll cs r with
  | some r => (t, r)
  | none => scanOther c r

/-- The rules of the condition `JS` without whitespace. -/
def scanToken (bigintAsString : Bool) (c : UInt8) (r : Bytes) : Token × Bytes :=
  if c = byte '{' then (.lbrace, r)
  else if c = byte '}' then (.rbrace, r)
  else if c = byte '[' then (.lbracket, r)
  else if c = byte ']' then (.rbracket, r)
  else if c = byte ':' then (.colon, r)
  else if c = byte ',' then (.comma, r)
  else if c = byte 'n' then scanWord .nul ['u', 'l', 'l'] c r
  else if c = byte 't' then scanWord .isTrue ['r', 'u', 'e'] c r
  else if c = byte 'f' then scanWord .isFalse ['a', 'l', 's', 'e'] c r
  else if c = byte '"' then scanString r
  else
    match (if c = byte '-' then scanNumber bigintAsString true r
      else scanNumber bigintAsString false (c :: r)) with
    | some (t, r) => (t, r)
    | none => scanOther c r

/-- `WS` and `NL`. -/
def isWs (c : UInt8) : Bool := c = 0x20 || c = 0x09 || c = 0x0d || c = 0x0a

/-- `php_json_scan`, with the end of the text for the NUL byte at the limit. -/
def scan (bigintAsString : Bool) : Bytes → Token × Bytes
  | [] => (.eoi, [])
  | c :: r => if isWs c then scan bigintAsString r else scanToken bigintAsString c r

/-- The tokens of a text. -/
inductive Lex (bigintAsString : Bool) : Bytes → List Token → Prop
  | eoi {r r' : Bytes} : scan bigintAsString r = (.eoi, r') → Lex bigintAsString r []
  | token {r r' : Bytes} {t : Token} {ts : List Token} :
      scan bigintAsString r = (t, r') → t ≠ .eoi → (∀ code, t ≠ .error code) →
      Lex bigintAsString r' ts → Lex bigintAsString r (t :: ts)

/-! ## The grammar -/

/-- The nonterminals of the grammar, but for the errors. -/
inductive Symbol
  | object
  | members
  | member
  | pair
  | array
  | elements
  | element
  | key
  | value

/-- The rules of the grammar. -/
inductive Derives : Symbol → List Token → Prop
  | object {ts : List Token} : Derives .members ts → Derives .object (.lbrace :: (ts ++ [.rbrace]))
  | noMembers : Derives .members []
  | members {ts : List Token} : Derives .member ts → Derives .members ts
  | firstMember {ts : List Token} : Derives .pair ts → Derives .member ts
  | nextMember {ts us : List Token} :
      Derives .member ts → Derives .pair us → Derives .member (ts ++ .comma :: us)
  | pair {ts us : List Token} :
      Derives .key ts → Derives .value us → Derives .pair (ts ++ .colon :: us)
  | array {ts : List Token} :
      Derives .elements ts → Derives .array (.lbracket :: (ts ++ [.rbracket]))
  | noElements : Derives .elements []
  | elements {ts : List Token} : Derives .element ts → Derives .elements ts
  | firstElement {ts : List Token} : Derives .value ts → Derives .element ts
  | nextElement {ts us : List Token} :
      Derives .element ts → Derives .value us → Derives .element (ts ++ .comma :: us)
  | stringKey : Derives .key [.string]
  | estringKey : Derives .key [.estring]
  | objectValue {ts : List Token} : Derives .object ts → Derives .value ts
  | arrayValue {ts : List Token} : Derives .array ts → Derives .value ts
  | stringValue : Derives .value [.string]
  | estringValue : Derives .value [.estring]
  | intValue : Derives .value [.int]
  | doubleValue : Derives .value [.double]
  | nulValue : Derives .value [.nul]
  | trueValue : Derives .value [.isTrue]
  | falseValue : Derives .value [.isFalse]

/-- The scanner and the grammar accept a text as one value. -/
def Accepts (bigintAsString : Bool) (text : Bytes) : Prop :=
  ∃ ts, Lex bigintAsString text ts ∧ Derives .value ts

/-!
# json_encode()

`php_json_encode_zval` writes a value piece by piece, each function deciding on its own what it
writes where something cannot be encoded.  Arrays and objects are tables at addresses; the counts
that stop a recursion are taken back after each element, so they are passed down here.  An object
whose class implements `JsonSerializable` comes with what its method returns.
-/

open PhpVar (Key text)

/-! ## Values -/

/-- What `zend_dtoa` returns for a finite number. -/
structure Dtoa where
  digits : Bytes
  decpt : ℤ
  sign : Bool
  ne_nil : digits ≠ []
  isDigits : ∀ b ∈ digits, Decimal.IsDigit b
  canonical : digits.head? = some (byte '0') → digits = [byte '0'] ∧ decpt = 1

/-- A `double`. -/
inductive Double
  | finite (d : Dtoa)
  | infOrNan

/-- The types of values; the other ones cannot be encoded. -/
inductive Zval
  | null
  | bool (b : Bool)
  | long (v : BitVec 64)
  | double (d : Double)
  | string (s : Bytes)
  | array (a : ℕ)
  | object (o : ℕ)
  | reference (r : ℕ)
  | other

/-- What becomes of a call of `jsonSerialize`. -/
inductive Outcome
  | returned (v : Zval)
  | failed

/-- The tables with the values behind `IS_INDIRECT`, the tables of the objects, the classes that
implement `JsonSerializable`, and the references. -/
structure Heap where
  buckets : ℕ → List (Key × Option Zval)
  packed : ℕ → Bool
  applyProtection : ℕ → Bool
  properties : ℕ → Option ℕ
  jsonSerialize : ℕ → Option Outcome
  refval : ℕ → Zval

namespace Heap

variable (H : Heap)

/-- `ZVAL_DEREF` -/
def deref : Zval → Zval
  | .reference r => H.refval r
  | v => v

/-- `HASH_OF` -/
def hashOf : Zval → Option ℕ
  | .array a => some a
  | .object o => H.properties o
  | _ => none

/-- `PHP_JSON_HASH_APPLY_PROTECTION_INC` -/
def protect (count : ℕ → ℕ) (data : Zval) : ℕ → ℕ :=
  match H.hashOf data with
  | some a => if H.applyProtection a then Function.update count a (count a + 1) else count
  | none => count

/-- What `ZEND_HASH_FOREACH_KEY_VAL_IND` goes through. -/
def elements (a : ℕ) : List (Key × Zval) :=
  (H.buckets a).filterMap fun e => e.2.map fun v => (e.1, v)

end Heap

/-- The options. -/
structure Options where
  hexTag : Bool
  hexAmp : Bool
  hexApos : Bool
  hexQuot : Bool
  forceObject : Bool
  numericCheck : Bool
  unescapedSlashes : Bool
  prettyPrint : Bool
  unescapedUnicode : Bool
  partialOutputOnError : Bool
  preserveZeroFraction : Bool
  unescapedLineTerminators : Bool

/-- The options, the depth that is allowed, `serialize_precision` and `zend_strtod`. -/
structure Settings where
  options : Options
  maxDepth : ℤ
  precision : ℤ
  strtod : Bytes → Double

/-- `php_json_encoder`, and whether an exception is pending. -/
structure Encoder where
  depth : ℕ
  errorCode : Option ErrorCode
  exception : Bool

/-- What is appended to the buffer, whether the result is `SUCCESS`, and the encoder. -/
structure Output where
  text : Bytes
  success : Bool
  encoder : Encoder

/-! ## Numbers -/

/-- The exponential format of `php_gcvt`, behind the sign. -/
def gcvtExponential (d : Dtoa) : Bytes :=
  let decpt := d.decpt - 1
  d.digits.take 1 ++ byte '.' ::
    ((if d.digits.drop 1 = [] then [byte '0'] else d.digits.drop 1) ++ byte 'e' ::
      (if decpt < 0 then byte '-' else byte '+') :: Decimal.print decpt.natAbs)

/-- The standard format of `php_gcvt` with zeros behind the point. -/
def gcvtSmall (d : Dtoa) : Bytes :=
  byte '0' :: byte '.' :: (List.replicate d.decpt.natAbs (byte '0') ++ d.digits)

/-- The standard format of `php_gcvt`. -/
def gcvtStandard (d : Dtoa) : Bytes :=
  let n := d.decpt.toNat
  d.digits.take n ++ (List.replicate (n - d.digits.length) (byte '0') ++
    if d.digits.drop n = [] then []
    else (if n = 0 then [byte '0'] else []) ++ byte '.' :: d.digits.drop n)

/-- `php_gcvt` of a finite number with the point and the exponent of `json_encode`. -/
def gcvt (precision : ℤ) (d : Dtoa) : Bytes :=
  let ndigit := if 0 ≤ precision then precision else 17
  (if d.sign then [byte '-'] else []) ++
    if (0 ≤ d.decpt ∧ ndigit < d.decpt) ∨ d.decpt < -3 then gcvtExponential d
    else if d.decpt < 0 then gcvtSmall d
    else gcvtStandard d

/-- `PHP_DOUBLE_MAX_LENGTH`, which is `3 + DBL_MANT_DIG - DBL_MIN_EXP`. -/
def PHP_DOUBLE_MAX_LENGTH : ℕ := 3 + 53 + 1021

/-- `php_json_encode_double` -/
def encodeDouble (S : Settings) (o : Options) (d : Dtoa) : Bytes :=
  let num := gcvt S.precision d
  if o.preserveZeroFraction ∧ byte '.' ∉ num ∧ num.length < PHP_DOUBLE_MAX_LENGTH - 2 then
    num ++ [byte '.', byte '0']
  else num

/-! ## Strings -/

/-- `utf8_trail` -/
def utf8Trail (b : UInt8) : Bool := 0x80 ≤ b ∧ b ≤ 0xbf

/-- A character of two bytes, behind the first one. -/
def utf8Two (c : UInt8) : Bytes → Option (ℕ × Bytes)
  | c1 :: r =>
    let us := c.toNat % 32 * 64 + c1.toNat % 64
    if utf8Trail c1 ∧ ¬ us < 0x80 then some (us, r) else none
  | _ => none

/-- A character of three bytes. -/
def utf8Three (c : UInt8) : Bytes → Option (ℕ × Bytes)
  | c1 :: c2 :: r =>
    let us := c.toNat % 16 * 4096 + c1.toNat % 64 * 64 + c2.toNat % 64
    if utf8Trail c1 ∧ utf8Trail c2 ∧ ¬ us < 0x800 ∧ ¬ (0xd800 ≤ us ∧ us ≤ 0xdfff) then
      some (us, r)
    else none
  | _ => none

/-- A character of four bytes. -/
def utf8Four (c : UInt8) : Bytes → Option (ℕ × Bytes)
  | c1 :: c2 :: c3 :: r =>
    let us := c.toNat % 8 * 262144 + c1.toNat % 64 * 4096 + c2.toNat % 64 * 64 + c3.toNat % 64
    if utf8Trail c1 ∧ utf8Trail c2 ∧ utf8Trail c3 ∧ ¬ (us < 0x10000 ∨ 0x10ffff < us) then
      some (us, r)
    else none
  | _ => none

/-- `php_next_utf8_char`: the character and what is behind it. -/
def nextUtf8Char : Bytes → Option (ℕ × Bytes)
  | [] => none
  | c :: r =>
    if c < 0x80 then some (c.toNat, r)
    else if c < 0xc2 then none
    else if c < 0xe0 then utf8Two c r
    else if c < 0xf0 then utf8Three c r
    else if c < 0xf5 then utf8Four c r
    else none

/-- `php_json_utf8_to_utf16` without a buffer: whether a text is UTF-8. -/
def utf8Valid : ℕ → Bytes → Bool
  | _, [] => true
  | 0, _ :: _ => false
  | fuel + 1, c :: r =>
    match nextUtf8Char (c :: r) with
    | some (_, r) => utf8Valid fuel r
    | none => false

/-- `digits[n]` -/
def hexChar (n : ℕ) : UInt8 := if n < 10 then UInt8.ofNat (48 + n) else UInt8.ofNat (87 + n)

/-- `\u` and four digits. -/
def unicodeEscape (us : ℕ) : Bytes :=
  [byte '\\', byte 'u', hexChar (us / 4096 % 16), hexChar (us / 256 % 16), hexChar (us / 16 % 16),
    hexChar (us % 16)]

/-- A character of several bytes, the first three of which are given. -/
def escapeUtf8 (o : Options) (bytes : Bytes) (us : ℕ) : Bytes :=
  if o.unescapedUnicode ∧ (o.unescapedLineTerminators ∨ us < 0x2028 ∨ 0x2029 < us) then bytes
  else if 0x10000 ≤ us then
    unicodeEscape (0xd800 + (us - 0x10000) / 1024) ++ unicodeEscape (0xdc00 + (us - 0x10000) % 1024)
  else unicodeEscape us

/-- The `switch` for the other bytes. -/
def escapeByte (o : Options) (us : UInt8) : Bytes :=
  if us = byte '"' then if o.hexQuot then unicodeEscape 0x22 else [byte '\\', byte '"']
  else if us = byte '\\' then [byte '\\', byte '\\']
  else if us = byte '/' then if o.unescapedSlashes then [byte '/'] else [byte '\\', byte '/']
  else if us = 0x08 then [byte '\\', byte 'b']
  else if us = 0x0c then [byte '\\', byte 'f']
  else if us = 0x0a then [byte '\\', byte 'n']
  else if us = 0x0d then [byte '\\', byte 'r']
  else if us = 0x09 then [byte '\\', byte 't']
  else if us = byte '<' then if o.hexTag then text ['\\', 'u', '0', '0', '3', 'C'] else [byte '<']
  else if us = byte '>' then if o.hexTag then text ['\\', 'u', '0', '0', '3', 'E'] else [byte '>']
  else if us = byte '&' then if o.hexAmp then unicodeEscape 0x26 else [byte '&']
  else if us = byte '\'' then if o.hexApos then unicodeEscape 0x27 else [byte '\'']
  else if byte ' ' ≤ us then [us]
  else unicodeEscape us.toNat

/-- The loop of `php_json_escape_string`, unless a character is not UTF-8. -/
def escapeLoop (o : Options) : ℕ → Bytes → Option Bytes
  | _, [] => some []
  | 0, _ :: _ => none
  | fuel + 1, c :: r =>
    -- U+2028 and U+2029 begin with this byte
    if 0x80 ≤ c ∧ (¬ o.unescapedUnicode ∨ c = 0xe2) then
      (nextUtf8Char (c :: r)).bind fun (us, r') =>
        (escapeLoop o fuel r').map fun t => escapeUtf8 o ((c :: r).take 3) us ++ t
    else (escapeLoop o fuel r).map fun t => escapeByte o c ++ t

/-- The number that `PHP_JSON_NUMERIC_CHECK` writes for a string. -/
def numericText (S : Settings) (o : Options) (s : Bytes) : Option Bytes :=
  let call : NumericString.Call := ⟨.eight, true, true, false, 0⟩
  match NumericString.isNumericStringExInline S.strtod call s with
  | ⟨.long, some p, _, _, _⟩ => some (PhpVar.printLong p)
  | ⟨.double, _, some (.finite d), _, _⟩ => some (encodeDouble S o d)
  | _ => none

/-- `php_json_escape_string`: what is appended, and whether the string was encoded. -/
def escapeString (S : Settings) (o : Options) (s : Bytes) : Bytes × Bool :=
  let invalid := (if o.partialOutputOnError then text ['n', 'u', 'l', 'l'] else [], false)
  if s = [] then (text ['"', '"'], true)
  else
    -- a string that is INF as a number stays a string
    match (if o.numericCheck then numericText S o s else none) with
    | some number => (number, true)
    | none =>
      if o.unescapedUnicode ∧ ¬ utf8Valid s.length s then invalid
      else
        match escapeLoop o s.length s with
        | some body => (byte '"' :: (body ++ [byte '"']), true)
        -- the buffer is set back to where the string began
        | none => invalid

/-- `encoder->error_code = PHP_JSON_ERROR_UTF8` when a string was not encoded. -/
def Encoder.escaped (enc : Encoder) (success : Bool) : Encoder :=
  if success then enc else { enc with errorCode := some .utf8 }

/-! ## Arrays and objects -/

/-- `PHP_JSON_OUTPUT_ARRAY` and `PHP_JSON_OUTPUT_OBJECT` -/
inductive OutputType
  | array
  | object
  deriving DecidableEq

/-- Whether the keys are the numbers from `idx` on. -/
def isSequence : ℕ → List Key → Bool
  | _, [] => true
  | idx, .int h :: keys => h = BitVec.ofNat 64 idx && isSequence (idx + 1) keys
  | _, .str _ :: _ => false

/-- `php_json_determine_array_type` -/
def determineArrayType (H : Heap) (a : ℕ) : OutputType :=
  if H.buckets a = [] ∨ H.packed a ∨ isSequence 0 ((H.buckets a).map Prod.fst) then .array
  else .object

/-- Whether a value is written as an array or as an object. -/
def outputType (o : Options) (H : Heap) : Zval → OutputType
  | .array a => if o.forceObject then .object else determineArrayType H a
  | _ => .object

/-- `Z_TYPE_P(val) == IS_OBJECT`, of an array or an object. -/
def isObject : Zval → Bool
  | .array _ => false
  | _ => true

/-- `php_json_pretty_print_char` -/
def prettyPrintChar (o : Options) (c : UInt8) : Bytes := if o.prettyPrint then [c] else []

/-- `php_json_pretty_print_char` of a newline and `php_json_pretty_print_indent`. -/
def prettyPrintIndent (o : Options) (depth : ℕ) : Bytes :=
  if o.prettyPrint then 0x0a :: List.replicate (4 * depth) 0x20 else []

/-- A private or protected member of an object. -/
def isHidden (key : Key) : Bool :=
  match key with
  | .str s => s.head? = some 0
  | .int _ => false

/-- The key of a member, with the colon. -/
def encodeKey (S : Settings) (key : Key) (enc : Encoder) : Bytes × Encoder :=
  let o := S.options
  let (keyText, enc) := match key with
    | .str s =>
      -- the result is not looked at any further
      let (t, success) := escapeString S { o with numericCheck := false } s
      (t, enc.escaped success)
    | .int h => (byte '"' :: (PhpVar.printLong h ++ [byte '"']), enc)
  (keyText ++ byte ':' :: prettyPrintChar o (byte ' '), enc)

section Array

variable (S : Settings) (H : Heap)
  (encode : (ℕ → ℕ) → Zval → Encoder → Option Output)

/-- The loop of `php_json_encode_array`; `isObject` says that the value is an object. -/
def encodeElements (count : ℕ → ℕ) (r : OutputType) (isObject : Bool) :
    Bool → List (Key × Zval) → Encoder → Option (Bool × Output)
  | needComma, [], enc => some (needComma, ⟨[], true, enc⟩)
  | needComma, (key, data) :: es, enc =>
    -- the comma waits for the next member that is written
    if r = .object ∧ isObject ∧ isHidden key then
      encodeElements count r isObject needComma es enc
    else
      let data := H.deref data
      let comma := (if needComma then [byte ','] else []) ++ prettyPrintIndent S.options enc.depth
      let (keyText, enc) := if r = .object then encodeKey S key enc else ([], enc)
      -- only the result of the value is looked at
      (encode (H.protect count data) data enc).bind fun out =>
        if ¬ out.success ∧ ¬ S.options.partialOutputOnError then
          some (true, ⟨comma ++ keyText ++ out.text, false, out.encoder⟩)
        else
          (encodeElements count r isObject true es out.encoder).map fun (needComma, rest) =>
            (needComma, { rest with text := comma ++ keyText ++ out.text ++ rest.text })

/-- The end of `php_json_encode_array`, behind the loop: `out` is what the loop wrote. -/
def closeArray (r : OutputType) (needComma : Bool) (out : Output) : Output :=
  let o := S.options
  let opening := if r = .array then byte '[' else byte '{'
  let closing := if r = .array then byte ']' else byte '}'
  let enc := out.encoder
  if ¬ out.success then { out with text := opening :: out.text }
  else
    -- the depth is only looked at behind the last element
    let exceeded := decide (S.maxDepth < enc.depth)
    let enc := if exceeded then { enc with errorCode := some .depth } else enc
    if exceeded ∧ ¬ o.partialOutputOnError then ⟨opening :: out.text, false, enc⟩
    else
      let enc := { enc with depth := enc.depth - 1 }
      let newline := if needComma then prettyPrintIndent o enc.depth else []
      ⟨opening :: (out.text ++ (newline ++ [closing])), true, enc⟩

/-- `php_json_encode_array` -/
def encodeArray (count : ℕ → ℕ) (val : Zval) (enc : Encoder) : Option Output :=
  let r := outputType S.options H val
  let myht := H.hashOf val
  if myht.any fun a => 1 < count a then
    -- here `null` is written without the option for partial output, too
    some ⟨text ['n', 'u', 'l', 'l'], false, { enc with errorCode := some .recursion }⟩
  else
    (encodeElements S H encode count r (isObject val) false (myht.elim [] H.elements)
      { enc with depth := enc.depth + 1 }).map fun (needComma, out) =>
        closeArray S r needComma out

/-- `null` for something that cannot be encoded, with the option for partial output. -/
def encodeNothing (o : Options) (enc : Encoder) : Output :=
  ⟨if o.partialOutputOnError then text ['n', 'u', 'l', 'l'] else [], false, enc⟩

/-- `php_json_encode_serializable_object` -/
def encodeSerializableObject (count : ℕ → ℕ) (o : ℕ) (outcome : Outcome) (enc : Encoder) :
    Option Output :=
  if (H.properties o).any fun a => 1 < count a then
    some (encodeNothing S.options { enc with errorCode := some .recursion })
  else
    match outcome with
    | .failed => some (encodeNothing S.options { enc with exception := true })
    | .returned retval =>
      match retval with
      | .object o' =>
        -- a method that returns its object is not called again
        if o' = o then encodeArray S H encode count retval enc else encode count retval enc
      | _ => encode count retval enc

end Array

/-- `php_json_encode_zval` -/
def encodeZval (S : Settings) (H : Heap) : ℕ → (ℕ → ℕ) → Zval → Encoder → Option Output
  | 0, _, _, _ => none
  | fuel + 1, count, val, enc =>
    match val with
    | .null => some ⟨text ['n', 'u', 'l', 'l'], true, enc⟩
    | .bool true => some ⟨text ['t', 'r', 'u', 'e'], true, enc⟩
    | .bool false => some ⟨text ['f', 'a', 'l', 's', 'e'], true, enc⟩
    | .long v => some ⟨PhpVar.printLong v, true, enc⟩
    | .double (.finite d) => some ⟨encodeDouble S S.options d, true, enc⟩
    -- the result is `SUCCESS` all the same
    | .double .infOrNan => some ⟨[byte '0'], true, { enc with errorCode := some .infOrNan }⟩
    | .string s =>
      let (t, success) := escapeString S S.options s
      some ⟨t, success, enc.escaped success⟩
    | .object o =>
      match H.jsonSerialize o with
      | some outcome => encodeSerializableObject S H (encodeZval S H fuel) count o outcome enc
      | none => encodeArray S H (encodeZval S H fuel) count val enc
    | .array _ => encodeArray S H (encodeZval S H fuel) count val enc
    | .reference r => encodeZval S H fuel count (H.refval r) enc
    | .other =>
      some (encodeNothing S.options { enc with errorCode := some .unsupportedType })

/-- `json_encode`, with the counts of the tables before: the text, if there is one. -/
def jsonEncode (S : Settings) (H : Heap) (count : ℕ → ℕ) (fuel : ℕ) (val : Zval) :
    Option (Option Bytes) :=
  (encodeZval S H fuel count val ⟨0, none, false⟩).map fun out =>
    if out.encoder.exception ∨
        out.encoder.errorCode ≠ none ∧ ¬ S.options.partialOutputOnError then none
    else some out.text

end PhpJson

/-!
# UTF-8 in the encoder and in the scanner

A character that `php_next_utf8_char` accepts is one that the scanner takes off as a whole.
-/

namespace PhpJson

open List Option
open UInt8 (le_iff_toNat_le lt_iff_toNat_lt reduceToNat)

variable {c : UInt8} {r r' : Bytes} {us : ℕ}

/-! ## Characters -/

/-- A character of several bytes: the scanner takes it off as well. -/
structure CharSplit (c : UInt8) (r r' : Bytes) (us : ℕ) (tail : Bytes) : Prop where
  split : r = tail ++ r'
  tails : ∀ b ∈ tail, 0x80 ≤ b ∧ b ≤ 0xbf
  take : ∀ rest, takeUtf8 (c :: (tail ++ rest)) = some rest
  lt : us < 0x110000
  noSurrogate : ¬ (0xd800 ≤ us ∧ us ≤ 0xdfff)
  three : c = 0xe2 → tail.length = 2

variable {b : UInt8}

/-- The bytes behind the first one. -/
theorem utf8Trail_iff : utf8Trail b = true ↔ 0x80 ≤ b ∧ b ≤ 0xbf := by
  rw [utf8Trail, decide_eq_true_iff]

/-- ASCII is one byte. -/
theorem nextUtf8Char_ascii (hc : c < 0x80) (r : Bytes) :
    nextUtf8Char (c :: r) = some (c.toNat, r) := by
  rw [nextUtf8Char, if_pos hc]

/-- One byte of several. -/
theorem takeTails_cons (hb : 0x80 ≤ b ∧ b ≤ 0xbf) (n : ℕ) (r : Bytes) :
    takeTails (n + 1) (b :: r) = takeTails n r := by
  rw [takeTails, takeRange, if_pos hb, bind_some]

/-- A byte in its range. -/
theorem takeRange_cons {lo hi : UInt8} (hb : lo ≤ b ∧ b ≤ hi) (r : Bytes) :
    takeRange lo hi (b :: r) = some r := by
  rw [takeRange, if_pos hb]

/-- Characters of two bytes. -/
theorem takeUtf8_two (hlow : 194 ≤ c.toNat) (hhigh : c.toNat ≤ 223) (r : Bytes) :
    takeUtf8 (c :: r) = takeTails 1 r := by
  rw [takeUtf8, if_neg (by simp only [le_iff_toNat_le, reduceToNat]; omega),
    if_pos (by simp only [le_iff_toNat_le, reduceToNat]; omega)]

/-- The range that the second byte of a character of three bytes has. -/
theorem takeUtf8_three {c1 c2 : UInt8} (hlow : 224 ≤ c.toNat) (hhigh : c.toNat ≤ 239)
    (h1 : 0x80 ≤ c1 ∧ c1 ≤ 0xbf) (h2 : 0x80 ≤ c2 ∧ c2 ≤ 0xbf) (h0 : c.toNat = 224 → 160 ≤ c1.toNat)
    (hd : c.toNat = 237 → c1.toNat ≤ 159) (r : Bytes) : takeUtf8 (c :: c1 :: c2 :: r) = some r := by
  have h1' := h1
  simp only [le_iff_toNat_le, reduceToNat] at h1'
  have htwo : takeTails 2 (c1 :: c2 :: r) = some r := by
    rw [takeTails_cons h1, takeTails_cons h2, takeTails]
  rw [takeUtf8, if_neg (by simp only [le_iff_toNat_le, reduceToNat]; omega),
    if_neg (by simp only [le_iff_toNat_le, reduceToNat]; omega)]
  by_cases he0 : c = 0xe0
  · have hrange : (0xa0 : UInt8) ≤ c1 ∧ c1 ≤ 0xbf := by
      have hc1 := h0 (by rw [he0]; rfl)
      simp only [le_iff_toNat_le, reduceToNat]
      omega
    rw [if_pos he0, takeRange_cons hrange, bind_some, takeTails_cons h2, takeTails]
  rw [if_neg he0]
  by_cases he1 : 0xe1 ≤ c ∧ c ≤ 0xec
  · rw [if_pos he1, htwo]
  rw [if_neg he1]
  by_cases hed : c = 0xed
  · have hrange : (0x80 : UInt8) ≤ c1 ∧ c1 ≤ 0x9f := by
      have hc1 := hd (by rw [hed]; rfl)
      simp only [le_iff_toNat_le, reduceToNat]
      omega
    rw [if_pos hed, takeRange_cons hrange, bind_some, takeTails_cons h2, takeTails]
  have hee : 0xee ≤ c ∧ c ≤ 0xef := by
    simp only [le_iff_toNat_le, ← UInt8.toNat_inj, reduceToNat] at he0 he1 hed ⊢
    omega
  rw [if_neg hed, if_pos hee, htwo]

/-- The range of the second byte of four. -/
theorem takeUtf8_four {c1 c2 c3 : UInt8} (hlow : 240 ≤ c.toNat) (hhigh : c.toNat ≤ 244)
    (h1 : 0x80 ≤ c1 ∧ c1 ≤ 0xbf) (h2 : 0x80 ≤ c2 ∧ c2 ≤ 0xbf) (h3 : 0x80 ≤ c3 ∧ c3 ≤ 0xbf)
    (h0 : c.toNat = 240 → 144 ≤ c1.toNat) (h4 : c.toNat = 244 → c1.toNat ≤ 143)
    (r : Bytes) : takeUtf8 (c :: c1 :: c2 :: c3 :: r) = some r := by
  have h1' := h1
  simp only [le_iff_toNat_le, reduceToNat] at h1'
  have htwo : takeTails 2 (c2 :: c3 :: r) = some r := by
    rw [takeTails_cons h2, takeTails_cons h3, takeTails]
  rw [takeUtf8, if_neg (by simp only [le_iff_toNat_le, reduceToNat]; omega),
    if_neg (by simp only [le_iff_toNat_le, reduceToNat]; omega),
    if_neg (by simp only [← UInt8.toNat_inj, reduceToNat]; omega),
    if_neg (by simp only [le_iff_toNat_le, reduceToNat]; omega),
    if_neg (by simp only [← UInt8.toNat_inj, reduceToNat]; omega),
    if_neg (by simp only [le_iff_toNat_le, reduceToNat]; omega)]
  by_cases hf0 : c = 0xf0
  · have hrange : (0x90 : UInt8) ≤ c1 ∧ c1 ≤ 0xbf := by
      have hc1 := h0 (by rw [hf0]; rfl)
      simp only [le_iff_toNat_le, reduceToNat]
      omega
    rw [if_pos hf0, takeRange_cons hrange, bind_some, htwo]
  rw [if_neg hf0]
  by_cases hf1 : 0xf1 ≤ c ∧ c ≤ 0xf3
  · rw [if_pos hf1, takeTails_cons h1, htwo]
  have hf4 : c = 0xf4 := by
    simp only [le_iff_toNat_le, ← UInt8.toNat_inj, reduceToNat] at hf0 hf1 ⊢
    omega
  have hrange : (0x80 : UInt8) ≤ c1 ∧ c1 ≤ 0x8f := by
    have hc1 := h4 (by rw [hf4]; rfl)
    simp only [le_iff_toNat_le, reduceToNat]
    omega
  rw [if_neg hf1, if_pos hf4, takeRange_cons hrange, bind_some, htwo]

/-- A character of two bytes. -/
theorem charSplit_two (hc2 : ¬ c < 0xc2) (he0 : c < 0xe0) (h : utf8Two c r = some (us, r')) :
    ∃ tail, CharSplit c r r' us tail := by
  match r with
  | [] => cases h
  | c1 :: r =>
    rcases ite_eq_iff.mp h with ⟨⟨h1, -⟩, h⟩ | ⟨-, h⟩
    · cases h
      have htail := utf8Trail_iff.mp h1
      simp only [lt_iff_toNat_lt, reduceToNat] at hc2 he0
      refine ⟨[c1], rfl, ?_, fun rest => ?_, by omega, by omega, ?_⟩
      · exact forall_mem_singleton.mpr htail
      · rw [takeUtf8_two (by omega) (by omega), singleton_append, takeTails_cons htail, takeTails]
      · rintro rfl
        simp only [reduceToNat] at he0
        omega
    · cases h

/-- A character of three bytes. -/
theorem charSplit_three (he0 : ¬ c < 0xe0) (hf0 : c < 0xf0)
    (h : utf8Three c r = some (us, r')) : ∃ tail, CharSplit c r r' us tail := by
  match r with
  | [] => cases h
  | [_] => cases h
  | c1 :: c2 :: r =>
    rcases ite_eq_iff.mp h with ⟨⟨h1, h2, hlong, hsur⟩, h⟩ | ⟨-, h⟩
    · cases h
      have htail1 := utf8Trail_iff.mp h1
      have htail2 := utf8Trail_iff.mp h2
      have hn1 := htail1
      simp only [lt_iff_toNat_lt, le_iff_toNat_le, reduceToNat] at he0 hf0 hn1
      refine ⟨[c1, c2], rfl, ?_, fun rest => ?_, by omega, hsur, fun _ => rfl⟩
      · exact forall_mem_cons.mpr ⟨htail1, forall_mem_singleton.mpr htail2⟩
      · exact takeUtf8_three (by omega) (by omega) htail1 htail2 (by omega) (by omega) rest
    · cases h

/-- A character of four bytes. -/
theorem charSplit_four (hf0 : ¬ c < 0xf0) (hf5 : c < 0xf5)
    (h : utf8Four c r = some (us, r')) : ∃ tail, CharSplit c r r' us tail := by
  match r with
  | [] => cases h
  | [_] => cases h
  | [_, _] => cases h
  | c1 :: c2 :: c3 :: r =>
    rcases ite_eq_iff.mp h with ⟨⟨h1, h2, h3, hrange⟩, h⟩ | ⟨-, h⟩
    · cases h
      have htail1 := utf8Trail_iff.mp h1
      have htail2 := utf8Trail_iff.mp h2
      have htail3 := utf8Trail_iff.mp h3
      have hn1 := htail1
      simp only [lt_iff_toNat_lt, le_iff_toNat_le, reduceToNat] at hf0 hf5 hn1
      refine ⟨[c1, c2, c3], rfl, ?_, fun rest => ?_, by omega, by omega, ?_⟩
      · exact forall_mem_cons.mpr ⟨htail1, forall_mem_cons.mpr
          ⟨htail2, forall_mem_singleton.mpr htail3⟩⟩
      · exact takeUtf8_four (by omega) (by omega) htail1 htail2 htail3 (by omega) (by omega) rest
      · rintro rfl
        simp only [reduceToNat] at hf0
        omega
    · cases h

/-- Every character that is not ASCII. -/
theorem charSplit_of_next (hc : ¬ c < 0x80) (h : nextUtf8Char (c :: r) = some (us, r')) :
    ∃ tail, CharSplit c r r' us tail := by
  rw [nextUtf8Char, if_neg hc] at h
  rcases ite_eq_iff.mp h with ⟨-, h⟩ | ⟨hc2, h⟩
  · cases h
  rcases ite_eq_iff.mp h with ⟨he0, h⟩ | ⟨he0, h⟩
  · exact charSplit_two hc2 he0 h
  rcases ite_eq_iff.mp h with ⟨hf0, h⟩ | ⟨hf0, h⟩
  · exact charSplit_three he0 hf0 h
  rcases ite_eq_iff.mp h with ⟨hf5, h⟩ | ⟨hf5, h⟩
  · exact charSplit_four hf0 hf5 h
  · cases h

/-! ## Texts -/

/-- A text that is UTF-8: one character behind the other. -/
inductive Utf8 : Bytes → Prop
  | nil : Utf8 []
  | char {c : UInt8} {r r' : Bytes} {us : ℕ} :
      nextUtf8Char (c :: r) = some (us, r') → Utf8 r' → Utf8 (c :: r)

/-- A character is not empty. -/
theorem length_next_lt (h : nextUtf8Char (c :: r) = some (us, r')) :
    r'.length < (c :: r).length := by
  by_cases hc : c < 0x80
  · rw [nextUtf8Char_ascii hc] at h
    cases h
    exact Nat.lt_succ_self _
  · obtain ⟨tail, hs⟩ := charSplit_of_next hc h
    rw [hs.split, length_cons, length_append]
    omega

/-- The check of a text is that it is UTF-8. -/
theorem utf8Valid_iff {n : ℕ} {s : Bytes} (hn : s.length ≤ n) : utf8Valid n s = true ↔ Utf8 s := by
  induction n generalizing s with
  | zero =>
    have hnil : s = [] := eq_nil_of_length_eq_zero (Nat.le_zero.mp hn)
    subst hnil
    exact iff_of_true rfl .nil
  | succ n ih =>
    cases s with
    | nil => exact iff_of_true rfl .nil
    | cons c r =>
      rw [utf8Valid]
      constructor
      · intro h
        split at h
        · rename_i us r' hnext
          have hlt := length_next_lt hnext
          exact .char hnext ((ih (by omega)).mp h)
        · cases h
      · rintro (_ | ⟨hnext, hrest⟩)
        have hlt := length_next_lt hnext
        rw [hnext]
        exact (ih (by omega)).mpr hrest

end PhpJson
