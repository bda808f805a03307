/-
# Tokens of a value

A list of members or elements is its items with a comma between them.  In front of a colon stands
a string in everything that the grammar derives, and a text has only one sequence of tokens, so
that a text with `null` as a key is no value.
-/
import ReadingCode.JsonTokens

namespace PhpJson

open List

variable {B : Bool} {r r' : Bytes} {t : Token} {ts us : List Token} {s : Symbol}

/-! ## Lists with commas -/

/-- The tokens of items, with a comma in front of the first one if there are some before. -/
def joinTokens : Bool → List (List Token) → List Token
  | _, [] => []
  | needComma, item :: items =>
    (if needComma then [.comma] else []) ++ item ++ joinTokens true items

variable {items : List (List Token)}

/-- A rule of the grammar with a list, a comma and an item. -/
theorem derives_append_join {list item : Symbol}
    (hnext : ∀ ts us, Derives list ts → Derives item us → Derives list (ts ++ .comma :: us))
    (h : Derives list ts) (hitems : ∀ i ∈ items, Derives item i) :
    Derives list (ts ++ joinTokens true items) := by
  induction items generalizing ts with
  | nil =>
    rw [joinTokens, append_nil]
    exact h
  | cons i items ih =>
    rw [forall_mem_cons] at hitems
    have hjoin := ih (hnext ts i h hitems.1) hitems.2
    rw [append_assoc] at hjoin
    exact hjoin

theorem derives_elements (hitems : ∀ i ∈ items, Derives .value i) :
    Derives .elements (joinTokens false items) := by
  cases items with
  | nil => exact .noElements
  | cons i items =>
    rw [forall_mem_cons] at hitems
    exact .elements
      (derives_append_join (fun _ _ => .nextElement) (.firstElement hitems.1) hitems.2)

theorem derives_members (hitems : ∀ i ∈ items, Derives .pair i) :
    Derives .members (joinTokens false items) := by
  cases items with
  | nil => exact .noMembers
  | cons i items =>
    rw [forall_mem_cons] at hitems
    exact .members
      (derives_append_join (fun _ _ => .nextMember) (.firstMember hitems.1) hitems.2)

/-! ## `null` as a key -/

/-- Somewhere `null` stands in front of a colon. -/
def HasNulKey (ts : List Token) : Prop := [Token.nul, .colon] <:+: ts

theorem HasNulKey.mono (h : HasNulKey ts) (hts : ts <:+: us) : HasNulKey us := h.trans hts

theorem hasNulKey_joinTokens {i : List Token} (hi : i ∈ items)
    (h : HasNulKey i) (needComma : Bool) : HasNulKey (joinTokens needComma items) := by
  induction items generalizing needComma with
  | nil => cases hi
  | cons j items ih =>
    rcases mem_cons.mp hi with rfl | hi
    · exact h.mono (infix_append _ _ _)
    · exact (ih hi true).mono (suffix_append _ _).isInfix

/-- The first token, and the ones behind it. -/
theorem hasNulKey_cons (h : HasNulKey (t :: ts)) :
    t = .nul ∧ ts.head? = some .colon ∨ HasNulKey ts := by
  rcases infix_cons_iff.mp h with ⟨us, hus⟩ | h
  · cases hus
    exact .inl ⟨rfl, rfl⟩
  · exact .inr h

/-- A token that is neither `null` nor a colon keeps what is on its sides apart. -/
theorem hasNulKey_append_cons (hnul : t ≠ .nul) (hcolon : t ≠ .colon)
    (h : HasNulKey (ts ++ t :: us)) : HasNulKey ts ∨ HasNulKey us := by
  induction ts with
  | nil =>
    rcases hasNulKey_cons h with ⟨h, -⟩ | h
    · exact absurd h hnul
    · exact .inr h
  | cons u ts ih =>
    rcases hasNulKey_cons h with ⟨rfl, hhead⟩ | h
    · cases ts with
      | nil =>
        cases hhead
        exact absurd rfl hcolon
      | cons v ts =>
        cases hhead
        exact .inl ⟨[], ts, rfl⟩
    · exact (ih h).imp_left fun hts => hts.mono (suffix_cons u ts).isInfix

/-- Nothing that is derived begins with a colon, and none of its keys is `null`. -/
structure NoNulKey (ts : List Token) : Prop where
  head : ts.head? ≠ some .colon
  keys : ¬ HasNulKey ts

theorem noNulKey_nil : NoNulKey [] :=
  ⟨by decide, fun ⟨_, _, h⟩ => by simp at h⟩

theorem noNulKey_single (ht : t ≠ .colon) : NoNulKey [t] := by
  refine ⟨fun h => ht (Option.some.inj h), fun h => ?_⟩
  rcases hasNulKey_cons h with ⟨-, h⟩ | h
  · cases h
  · exact noNulKey_nil.keys h

theorem NoNulKey.comma (hts : NoNulKey ts) (hus : NoNulKey us) : NoNulKey (ts ++ .comma :: us) := by
  refine ⟨?_, fun h => ?_⟩
  · cases ts with
    | nil =>
      intro h
      cases h
    | cons t ts => exact hts.head
  · exact (hasNulKey_append_cons (by decide) (by decide) h).elim hts.keys hus.keys

/-- Something between braces or brackets. -/
theorem NoNulKey.enclosed (hts : NoNulKey ts) {opening closing : Token}
    (hopening : opening ≠ .nul ∧ opening ≠ .colon) (hclosing : closing ≠ .nul ∧ closing ≠ .colon) :
    NoNulKey (opening :: (ts ++ [closing])) := by
  refine ⟨fun h => hopening.2 (Option.some.inj h), fun h => ?_⟩
  rcases hasNulKey_cons h with ⟨h, -⟩ | h
  · exact hopening.1 h
  · exact (hasNulKey_append_cons hclosing.1 hclosing.2 h).elim hts.keys noNulKey_nil.keys

theorem NoNulKey.pair {key : Token} (hkey : key ≠ .nul ∧ key ≠ .colon) (hts : NoNulKey ts) :
    NoNulKey (key :: .colon :: ts) := by
  refine ⟨fun h => hkey.2 (Option.some.inj h), fun h => ?_⟩
  rcases hasNulKey_cons h with ⟨h, -⟩ | h
  · exact hkey.1 h
  · rcases hasNulKey_cons h with ⟨h, -⟩ | h
    · cases h
    · exact hts.keys h

theorem isKey_of_derives (h : Derives .key ts) : ts = [.string] ∨ ts = [.estring] := by
  cases h with
  | stringKey => exact .inl rfl
  | estringKey => exact .inr rfl

theorem noNulKey_of_derives (h : Derives s ts) : NoNulKey ts := by
  induction h with
  | object _ ih => exact ih.enclosed (by decide) (by decide)
  | array _ ih => exact ih.enclosed (by decide) (by decide)
  | noMembers => exact noNulKey_nil
  | noElements => exact noNulKey_nil
  | members _ ih => exact ih
  | elements _ ih => exact ih
  | firstMember _ ih => exact ih
  | firstElement _ ih => exact ih
  | objectValue _ ih => exact ih
  | arrayValue _ ih => exact ih
  | nextMember _ _ ihts ihus => exact ihts.comma ihus
  | nextElement _ _ ihts ihus => exact ihts.comma ihus
  | pair hkey _ _ ih =>
    rcases isKey_of_derives hkey with rfl | rfl
    · exact ih.pair (by decide)
    · exact ih.pair (by decide)
  | stringKey => exact noNulKey_single (by decide)
  | estringKey => exact noNulKey_single (by decide)
  | stringValue => exact noNulKey_single (by decide)
  | estringValue => exact noNulKey_single (by decide)
  | intValue => exact noNulKey_single (by decide)
  | doubleValue => exact noNulKey_single (by decide)
  | nulValue => exact noNulKey_single (by decide)
  | trueValue => exact noNulKey_single (by decide)
  | falseValue => exact noNulKey_single (by decide)

/-! ## The tokens of a text -/

theorem lex_unique (h : Lex B r ts) (h' : Lex B r us) : ts = us := by
  induction h generalizing us with
  | eoi hscan =>
    cases h' with
    | eoi _ => rfl
    | token hscan' heoi' _ _ =>
      rw [hscan] at hscan'
      cases hscan'
      exact absurd rfl heoi'
  | token hscan heoi _ _ ih =>
    cases h' with
    | eoi hscan' =>
      rw [hscan] at hscan'
      cases hscan'
      exact absurd rfl heoi
    | token hscan' _ _ hrest =>
      rw [hscan] at hscan'
      cases hscan'
      rw [ih hrest]

theorem not_accepts_of_hasNulKey (h : Lex B r ts) (hkey : HasNulKey ts) : ¬ Accepts B r := by
  rintro ⟨us, hlex, hderives⟩
  rw [lex_unique h hlex] at hkey
  exact (noNulKey_of_derives hderives).keys hkey

end PhpJson

/-!
# The pieces of an output

What the encoder appends is read as tokens that do not depend on what comes behind, as long as that
does not go on with a number.  A string is read as a string or as a number; with an error there is
`null` in its place, which stands for a value but not for a key.
-/

namespace PhpJson

open List

open PhpVar (Key text)

variable {B : Bool} {S : Settings} {o : Options} {s t u : Bytes} {P Q : List Token → Prop}

/-! ## Reading -/

/-- In front of what does not go on with a number, `t` is read as tokens with `P`. -/
def Reads (B : Bool) (t : Bytes) (P : List Token → Prop) : Prop :=
  ∀ rest us, Delim rest → Lex B rest us → ∃ ts, P ts ∧ Lex B (t ++ rest) (ts ++ us)

theorem Reads.mono (h : Reads B t P) (hPQ : ∀ ts, P ts → Q ts) : Reads B t Q := by
  intro rest us hrest hlex
  obtain ⟨ts, hts, hlex⟩ := h rest us hrest hlex
  exact ⟨ts, hPQ ts hts, hlex⟩

/-- A text that is one value. -/
theorem accepts_of_reads (h : Reads B t (Derives .value)) : Accepts B t := by
  obtain ⟨ts, hts, hlex⟩ := h [] [] (fun b hb => by cases hb) (.eoi rfl)
  rw [append_nil, append_nil] at hlex
  exact ⟨ts, hlex, hts⟩

theorem not_accepts_of_reads (h : Reads B t HasNulKey) : ¬ Accepts B t := by
  obtain ⟨ts, hts, hlex⟩ := h [] [] (fun b hb => by cases hb) (.eoi rfl)
  rw [append_nil, append_nil] at hlex
  exact not_accepts_of_hasNulKey hlex hts

theorem reads_nul : Reads B (text ['n', 'u', 'l', 'l']) (Derives .value) :=
  fun _ _ _ hlex => ⟨[.nul], .nulValue, lex_nul hlex⟩

theorem reads_true : Reads B (text ['t', 'r', 'u', 'e']) (Derives .value) :=
  fun _ _ _ hlex => ⟨[.isTrue], .trueValue, lex_true hlex⟩

theorem reads_false : Reads B (text ['f', 'a', 'l', 's', 'e']) (Derives .value) :=
  fun _ _ _ hlex => ⟨[.isFalse], .falseValue, lex_false hlex⟩

theorem derives_of_isNumber {t : Token} (ht : IsNumber t) : Derives .value [t] := by
  rcases ht with rfl | rfl | rfl
  · exact .intValue
  · exact .doubleValue
  · exact .stringValue

theorem reads_number (h : IsNumberText t) : Reads B t (Derives .value) := by
  intro rest us hrest hlex
  obtain ⟨t, ht, hlex⟩ := lex_isNumberText h hrest hlex
  exact ⟨[t], derives_of_isNumber ht, hlex⟩

/-! ## Strings -/

/-- A text between quotes. -/
def IsQuoted (t : Bytes) : Prop :=
  ∃ body, t = byte '"' :: (body ++ [byte '"']) ∧ ∀ rest, Ends (body ++ byte '"' :: rest) rest

variable {us : List Token}

theorem lex_quoted (ht : IsQuoted t) {rest : Bytes} (h : Lex B rest us) :
    ∃ k, IsString k ∧ Lex B (t ++ rest) (k :: us) := by
  obtain ⟨body, rfl, hends⟩ := ht
  rw [cons_append, append_assoc]
  exact lex_string (hends rest) h

theorem reads_quoted (ht : IsQuoted t) : Reads B t (Derives .value) := by
  intro rest us _ hlex
  obtain ⟨k, hk, hlex⟩ := lex_quoted ht hlex
  rcases hk with rfl | rfl
  · exact ⟨[.string], .stringValue, hlex⟩
  · exact ⟨[.estring], .estringValue, hlex⟩

theorem isQuoted_nil : IsQuoted (text ['"', '"']) := ⟨[], rfl, ends_quote⟩

theorem isNumberText_numericText (h : numericText S o s = some t) : IsNumberText t := by
  rw [numericText] at h
  split at h
  · cases h
    exact isNumberText_printLong _
  · cases h
    exact isNumberText_encodeDouble S o _
  · cases h

/-- What stands for a string that is not UTF-8. -/
def invalidString (o : Options) : Bytes :=
  if o.partialOutputOnError then text ['n', 'u', 'l', 'l'] else []

/-- A string without a numeric check. -/
theorem escapeString_of_not_numeric (hnumeric : (if o.numericCheck then numericText S o s else none)
    = none) : (Utf8 s → ∃ t, escapeString S o s = (t, true) ∧ IsQuoted t) ∧
    (¬ Utf8 s → escapeString S o s = (invalidString o, false)) := by
  have hiff : utf8Valid s.length s = true ↔ Utf8 s := utf8Valid_iff le_rfl
  by_cases hnil : s = []
  · rw [hnil]
    exact ⟨fun _ => ⟨_, rfl, isQuoted_nil⟩, fun h => absurd .nil h⟩
  rw [escapeString, if_neg hnil, hnumeric]
  dsimp only
  constructor
  · intro hutf8
    obtain ⟨body, hbody⟩ := exists_escapeLoop (o := o) hutf8 le_rfl
    rw [if_neg fun h => h.2 (hiff.mpr hutf8), hbody]
    exact ⟨_, rfl, body, rfl, ends_escapeLoop (fun _ => hutf8) hbody⟩
  · intro hutf8
    split
    · rfl
    · rename_i hcond
      cases hloop : escapeLoop o s.length s with
      | none => rfl
      | some body =>
        -- the loop only gives up on a character when it looks at all of them
        by_cases hu : o.unescapedUnicode
        · exact absurd ⟨hu, fun h => hutf8 (hiff.mp h)⟩ hcond
        · exact absurd (utf8_of_escapeLoop hu hloop) hutf8

theorem escapeString_key (hnumeric : o.numericCheck = false) (hutf8 : Utf8 s) :
    ∃ t, escapeString S o s = (t, true) ∧ IsQuoted t :=
  (escapeString_of_not_numeric (if_neg (by rw [hnumeric]; decide))).1 hutf8

theorem escapeString_badKey (hnumeric : o.numericCheck = false) (hutf8 : ¬ Utf8 s) :
    escapeString S o s = (invalidString o, false) :=
  (escapeString_of_not_numeric (if_neg (by rw [hnumeric]; decide))).2 hutf8

/-- A string that is a value: there is a text, or an error without the option for it. -/
theorem reads_escapeString (S : Settings) (o : Options) (s : Bytes)
    (h : (escapeString S o s).2 = true ∨ o.partialOutputOnError) :
    Reads B (escapeString S o s).1 (Derives .value) := by
  cases hnumber : (if o.numericCheck then numericText S o s else none) with
  | some number =>
    by_cases hnil : s = []
    · rw [escapeString, if_pos hnil]
      exact reads_quoted isQuoted_nil
    · rw [escapeString, if_neg hnil, hnumber]
      split at hnumber
      · exact reads_number (isNumberText_numericText hnumber)
      · cases hnumber
  | none =>
    obtain ⟨hvalid, hinvalid⟩ := escapeString_of_not_numeric hnumber
    by_cases hutf8 : Utf8 s
    · obtain ⟨t, ht, hquoted⟩ := hvalid hutf8
      rw [ht]
      exact reads_quoted hquoted
    · rw [hinvalid hutf8] at h ⊢
      have hpart := h.resolve_left Bool.false_ne_true
      rw [invalidString, if_pos hpart]
      exact reads_nul

/-! ## Keys -/

theorem plain_digit {b : UInt8} (hb : Decimal.IsDigit b) : Plain b ∧ b < 0x80 := by
  have hne : ∀ c : UInt8, ¬ Decimal.IsDigit c → b ≠ c := by
    rintro c hc rfl
    exact hc hb
  obtain ⟨hlow, hhigh⟩ := hb
  simp only [UInt8.le_iff_toNat_le] at hlow hhigh
  refine ⟨⟨?_, hne _ (by decide), hne _ (by decide)⟩, ?_⟩
  · simp only [UInt8.lt_iff_toNat_lt, UInt8.reduceToNat] at hlow ⊢
    omega
  · simp only [UInt8.lt_iff_toNat_lt, UInt8.reduceToNat] at hhigh ⊢
    omega

/-- Between quotes, bytes that need no escape end at the quote. -/
theorem isQuoted_plain {body : Bytes} (h : ∀ b ∈ body, Plain b ∧ b < 0x80) :
    IsQuoted (byte '"' :: (body ++ [byte '"'])) := by
  refine ⟨body, rfl, fun rest => ?_⟩
  induction body with
  | nil => exact ends_quote rest
  | cons b body ih =>
    rw [forall_mem_cons] at h
    exact ends_ascii h.1.1 h.1.2 (ih h.2)

theorem isQuoted_printLong (h : BitVec 64) :
    IsQuoted (byte '"' :: (PhpVar.printLong h ++ [byte '"'])) := by
  have hdigits : ∀ n, ∀ b ∈ Decimal.print n, Plain b ∧ b < 0x80 :=
    fun n b hb => plain_digit (Decimal.isDigit_of_mem_print hb)
  refine isQuoted_plain ?_
  rw [PhpVar.printLong]
  split
  · exact forall_mem_cons.mpr ⟨by decide, hdigits _⟩
  · exact hdigits _

/-- A key that is not UTF-8. -/
def BadKey : Key → Prop
  | .int _ => False
  | .str s => ¬ Utf8 s

/-- An error in which `json_encode` returns no text. -/
def Fails (S : Settings) (enc : Encoder) : Prop :=
  enc.exception = true ∨ enc.errorCode ≠ none ∧ ¬ S.options.partialOutputOnError

theorem isWs_prettyPrintChar {c : UInt8} (hc : isWs c = true) :
    ∀ b ∈ prettyPrintChar o c, isWs b = true := by
  rw [prettyPrintChar]
  split
  · exact forall_mem_singleton.mpr hc
  · exact forall_mem_nil _

theorem isWs_prettyPrintIndent (o : Options) (depth : ℕ) :
    ∀ b ∈ prettyPrintIndent o depth, isWs b = true := by
  rw [prettyPrintIndent]
  split
  · refine forall_mem_cons.mpr ⟨by decide, fun b hb => ?_⟩
    rw [eq_of_mem_replicate hb]
    decide
  · exact forall_mem_nil _

/-- The tokens of a key with its colon. -/
def KeyTokens (bad : Prop) (ts : List Token) : Prop :=
  (¬ bad → ∃ k, IsString k ∧ ts = [k, .colon]) ∧ (bad → ts = [.nul, .colon])

theorem Fails.escaped {enc : Encoder} (h : Fails S enc) (success : Bool) :
    Fails S (enc.escaped success) := by
  rw [Encoder.escaped]
  split
  · exact h
  · exact h.imp_right fun hcode => ⟨Option.some_ne_none _, hcode.2⟩

theorem fails_encodeKey (key : Key) {enc : Encoder} (h : Fails S enc) :
    Fails S (encodeKey S key enc).2 := by
  cases key with
  | int h' => exact h
  | str s => exact h.escaped _

/-- A key and its colon, whatever comes behind. -/
theorem lex_encodeKey (key : Key) (enc : Encoder) (h : ¬ Fails S (encodeKey S key enc).2)
    {rest : Bytes} (hlex : Lex B rest us) :
    ∃ ts, KeyTokens (S.options.partialOutputOnError ∧ BadKey key) ts ∧
      Lex B ((encodeKey S key enc).1 ++ rest) (ts ++ us) := by
  have hcolon := lex_colon (lex_whitespace (isWs_prettyPrintChar (o := S.options)
    (by decide : isWs (byte ' ') = true)) hlex)
  cases key with
  | int h' =>
    obtain ⟨k, hk, hlex⟩ := lex_quoted (isQuoted_printLong h') hcolon
    refine ⟨[k, .colon], ⟨fun _ => ⟨k, hk, rfl⟩, fun hbad => hbad.2.elim⟩, ?_⟩
    rw [encodeKey]
    rw [append_assoc]
    exact hlex
  | str s =>
    rw [encodeKey] at h ⊢
    by_cases hutf8 : Utf8 s
    · obtain ⟨t, ht, hquoted⟩ :=
        escapeString_key (S := S) (o := { S.options with numericCheck := false }) rfl hutf8
      obtain ⟨k, hk, hlex⟩ := lex_quoted hquoted hcolon
      rw [ht, append_assoc]
      exact ⟨[k, .colon], ⟨fun _ => ⟨k, hk, rfl⟩, fun hbad => absurd hutf8 hbad.2⟩, hlex⟩
    · -- the error is ignored: only the text that stands for the string is left
      rw [escapeString_badKey (S := S) (o := { S.options with numericCheck := false }) rfl hutf8]
        at h ⊢
      have hpart : S.options.partialOutputOnError = true := by
        by_contra hn
        exact h (.inr ⟨Option.some_ne_none _, hn⟩)
      rw [invalidString, if_pos hpart]
      exact ⟨[.nul, .colon], ⟨fun hn => absurd ⟨hpart, hutf8⟩ hn, fun _ => rfl⟩, lex_nul hcolon⟩

end PhpJson

/-!
# The keys that are written

Which string keys `json_encode` writes for a value: those of every array and object that it enters
and writes as an object, without the private and protected members of objects.
-/

namespace PhpJson

open PhpVar (Key text)

variable {S : Settings} {H : Heap} {count : ℕ → ℕ} {val : Zval} {a o : ℕ}

/-- The table of an array or object that is not in the middle of a recursion. -/
inductive Enters (H : Heap) (count : ℕ → ℕ) : Zval → ℕ → Prop
  | array {a : ℕ} : count a ≤ 1 → Enters H count (.array a) a
  | object {o a : ℕ} : H.jsonSerialize o = none → H.properties o = some a → count a ≤ 1 →
      Enters H count (.object o) a
  | itself {o a : ℕ} : H.jsonSerialize o = some (.returned (.object o)) →
      H.properties o = some a → count a ≤ 1 → Enters H count (.object o) a

/-- A member that is left out. -/
def Skipped (r : OutputType) (isObject : Bool) (key : Key) : Prop :=
  r = .object ∧ isObject ∧ isHidden key

/-- A key is written for a value, with the given counts of the tables that are open. -/
inductive Writes (S : Settings) (H : Heap) : (ℕ → ℕ) → Zval → Bytes → Prop
  | reference {count : ℕ → ℕ} {r : ℕ} {k : Bytes} :
      Writes S H count (H.refval r) k → Writes S H count (.reference r) k
  | serialized {count : ℕ → ℕ} {o : ℕ} {v : Zval} {k : Bytes} :
      H.jsonSerialize o = some (.returned v) → v ≠ .object o →
      (∀ a, H.properties o = some a → count a ≤ 1) →
      Writes S H count v k → Writes S H count (.object o) k
  | key {count : ℕ → ℕ} {val data : Zval} {a : ℕ} {k : Bytes} :
      Enters H count val a → (.str k, data) ∈ H.elements a →
      ¬ Skipped (outputType S.options H val) (isObject val) (.str k) →
      outputType S.options H val = .object → Writes S H count val k
  | element {count : ℕ → ℕ} {val data : Zval} {a : ℕ} {key : Key} {k : Bytes} :
      Enters H count val a → (key, data) ∈ H.elements a →
      ¬ Skipped (outputType S.options H val) (isObject val) key →
      Writes S H (H.protect count (H.deref data)) (H.deref data) k → Writes S H count val k

/-- A key that is not UTF-8 is written. -/
def WritesBadKey (S : Settings) (H : Heap) (count : ℕ → ℕ) (val : Zval) : Prop :=
  ∃ k, Writes S H count val k ∧ ¬ Utf8 k

/-- One element has such a key or such a value. -/
def BadElement (S : Settings) (H : Heap) (count : ℕ → ℕ) (r : OutputType) (isObject : Bool)
    (e : Key × Zval) : Prop :=
  ¬ Skipped r isObject e.1 ∧ (r = .object ∧ BadKey e.1 ∨
    WritesBadKey S H (H.protect count (H.deref e.2)) (H.deref e.2))

/-- Such an element is written for an array or object, whatever its class does. -/
def BadArray (S : Settings) (H : Heap) (count : ℕ → ℕ) (val : Zval) : Prop :=
  ∃ a, H.hashOf val = some a ∧ count a ≤ 1 ∧
    ∃ e ∈ H.elements a, BadElement S H count (outputType S.options H val) (isObject val) e

theorem Enters.hashOf (h : Enters H count val a) : H.hashOf val = some a ∧ count a ≤ 1 := by
  cases h with
  | array hcount => exact ⟨rfl, hcount⟩
  | object _ hprops hcount => exact ⟨hprops, hcount⟩
  | itself _ hprops hcount => exact ⟨hprops, hcount⟩

/-- A value that only writes what the elements of its table do. -/
theorem writesBadKey_iff_badArray
    (henters : ∀ a, H.hashOf val = some a → count a ≤ 1 → Enters H count val a)
    (hreference : ∀ r, val ≠ .reference r)
    (hitself : ∀ o v, val = .object o → H.jsonSerialize o = some (.returned v) → v = .object o) :
    WritesBadKey S H count val ↔ BadArray S H count val := by
  constructor
  · rintro ⟨k, hw, hk⟩
    cases hw with
    | reference _ => exact absurd rfl (hreference _)
    | serialized hs hne _ _ => exact absurd (hitself _ _ rfl hs) hne
    | key h he hshown hr => exact ⟨_, h.hashOf.1, h.hashOf.2, _, he, hshown, .inl ⟨hr, hk⟩⟩
    | element h he hshown hw =>
      exact ⟨_, h.hashOf.1, h.hashOf.2, _, he, hshown, .inr ⟨k, hw, hk⟩⟩
  · rintro ⟨a, ha, hcount, ⟨key, data⟩, he, hshown, ⟨hr, hkey⟩ | ⟨k, hw, hk⟩⟩
    · cases key with
      | int n => exact hkey.elim
      | str k => exact ⟨k, .key (henters a ha hcount) he hshown hr, hkey⟩
    · exact ⟨k, .element (henters a ha hcount) he hshown hw, hk⟩

theorem writesBadKey_array : WritesBadKey S H count (.array a) ↔ BadArray S H count (.array a) := by
  refine writesBadKey_iff_badArray (fun b hb hcount => ?_) nofun nofun
  cases hb
  exact .array hcount

theorem writesBadKey_object (hs : H.jsonSerialize o = none) :
    WritesBadKey S H count (.object o) ↔ BadArray S H count (.object o) := by
  refine writesBadKey_iff_badArray (fun a ha hcount => .object hs ha hcount) nofun ?_
  rintro o' v ⟨⟩ hs'
  rw [hs] at hs'
  cases hs'

/-- An object whose method returns the object. -/
theorem writesBadKey_itself (hs : H.jsonSerialize o = some (.returned (.object o))) :
    WritesBadKey S H count (.object o) ↔ BadArray S H count (.object o) := by
  refine writesBadKey_iff_badArray (fun a ha hcount => .itself hs ha hcount) nofun ?_
  rintro o' v ⟨⟩ hs'
  rw [hs] at hs'
  cases hs'
  rfl

theorem Enters.serialized (h : Enters H count (.object o) a) :
    H.jsonSerialize o = none ∨ H.jsonSerialize o = some (.returned (.object o)) := by
  cases h with
  | object hs _ _ => exact .inl hs
  | itself hs _ _ => exact .inr hs

/-- An object whose method returns something else. -/
theorem writesBadKey_serialized {v : Zval} (hs : H.jsonSerialize o = some (.returned v))
    (hne : v ≠ .object o) (hcount : ∀ a, H.properties o = some a → count a ≤ 1) :
    WritesBadKey S H count (.object o) ↔ WritesBadKey S H count v := by
  have hno : ∀ a, ¬ Enters H count (.object o) a := by
    intro a h
    rcases h.serialized with h | h
    · rw [hs] at h
      cases h
    · rw [hs] at h
      cases h
      exact hne rfl
  constructor
  · rintro ⟨k, hw, hk⟩
    cases hw with
    | serialized hs' _ _ hw =>
      rw [hs] at hs'
      cases hs'
      exact ⟨k, hw, hk⟩
    | key henters _ _ _ => exact absurd henters (hno _)
    | element henters _ _ _ => exact absurd henters (hno _)
  · rintro ⟨k, hw, hk⟩
    exact ⟨k, .serialized hs hne hcount hw, hk⟩

theorem writesBadKey_reference {r : ℕ} :
    WritesBadKey S H count (.reference r) ↔ WritesBadKey S H count (H.refval r) := by
  constructor
  · rintro ⟨k, hw, hk⟩
    cases hw with
    | reference hw => exact ⟨k, hw, hk⟩
    | key henters _ _ _ => cases henters
    | element henters _ _ _ => cases henters
  · rintro ⟨k, hw, hk⟩
    exact ⟨k, .reference hw, hk⟩

/-- An object in the middle of a recursion. -/
theorem not_writesBadKey_recursion (ha : H.properties o = some a) (hcount : 1 < count a) :
    ¬ WritesBadKey S H count (.object o) := by
  have hno : ∀ b, ¬ Enters H count (.object o) b := by
    intro b h
    obtain ⟨hb, hle⟩ := h.hashOf
    have hab : a = b := Option.some.inj (ha.symm.trans hb)
    rw [← hab] at hle
    omega
  rintro ⟨k, hw, -⟩
  cases hw with
  | serialized _ _ hle _ =>
    have ha' := hle a ha
    omega
  | key henters _ _ _ => exact hno _ henters
  | element henters _ _ _ => exact hno _ henters

/-- A value that is no array, object or reference. -/
theorem not_writesBadKey (hval : ∀ a, ¬ Enters H count val a) (hobject : ∀ o, val ≠ .object o)
    (hreference : ∀ r, val ≠ .reference r) : ¬ WritesBadKey S H count val := by
  rintro ⟨k, hw, -⟩
  cases hw with
  | reference _ => exact hreference _ rfl
  | serialized _ _ _ _ => exact hobject _ rfl
  | key henters _ _ _ => exact hval _ henters
  | element henters _ _ _ => exact hval _ henters

/-!
# The output of json_encode()

Errors are kept to the end; with the option for partial output the text of an error stands for a
value, except for a key.
-/

open List Option

variable {B : Bool} {S : Settings} {H : Heap} {count : ℕ → ℕ} {enc : Encoder} {out : Output}
  {bad : Prop} {ts us : List Token}

/-! ## What is promised -/

/-- The tokens of a value; `bad` says that there is a key that is not UTF-8. -/
def ValueTokens (bad : Prop) (ts : List Token) : Prop :=
  (¬ bad → Derives .value ts) ∧ (bad → HasNulKey ts)

/-- What an output is read as, unless there is no text. -/
structure Spec (B : Bool) (S : Settings) (bad : Prop) (enc : Encoder) (out : Output) : Prop where
  sticky : Fails S enc → Fails S out.encoder
  failure : ¬ out.success → ¬ S.options.partialOutputOnError → Fails S out.encoder
  reads : ¬ Fails S out.encoder →
    Reads B out.text (ValueTokens (S.options.partialOutputOnError ∧ bad))

/-- What the function for the values inside has to do. -/
def Encodes (B : Bool) (S : Settings) (H : Heap)
    (encode : (ℕ → ℕ) → Zval → Encoder → Option Output) : Prop :=
  ∀ count val enc out, encode count val enc = some out →
    Spec B S (WritesBadKey S H count val) enc out

variable {p : Prop}

theorem valueTokens_of_derives (hbad : ¬ bad) (h : Derives .value ts) : ValueTokens (p ∧ bad) ts :=
  ⟨fun _ => h, fun hn => absurd hn.2 hbad⟩

theorem Spec.congr {bad' : Prop} (h : Spec B S bad enc out) (hiff : bad' ↔ bad) :
    Spec B S bad' enc out := by
  rw [hiff]
  exact h

variable {t : Bytes}

/-- Something that is encoded without an error. -/
theorem spec_plain (hbad : ¬ bad) (h : Reads B t (Derives .value)) :
    Spec B S bad enc ⟨t, true, enc⟩ :=
  ⟨id, fun hn => absurd rfl hn, fun _ => h.mono fun _ hts => valueTokens_of_derives hbad hts⟩

theorem fails_of_error {code : ErrorCode} (hcode : enc.errorCode = some code)
    (hpart : ¬ S.options.partialOutputOnError) : Fails S enc :=
  .inr ⟨by rw [hcode]; exact some_ne_none _, hpart⟩

theorem Fails.withError (h : Fails S enc) (code : ErrorCode) :
    Fails S { enc with errorCode := some code } :=
  h.imp_right fun hn => ⟨some_ne_none code, hn.2⟩

/-- Something that is not encoded, with an error for it. -/
theorem spec_error {success : Bool} (code : ErrorCode) (hbad : ¬ bad)
    (h : S.options.partialOutputOnError → Reads B t (Derives .value)) :
    Spec B S bad enc ⟨t, success, { enc with errorCode := some code }⟩ := by
  refine ⟨fun hfails => hfails.withError code, fun _ hpart => fails_of_error rfl hpart,
    fun hfails => ?_⟩
  have hpart : S.options.partialOutputOnError = true := by
    by_contra hn
    exact hfails (fails_of_error rfl hn)
  exact (h hpart).mono fun _ hts => valueTokens_of_derives hbad hts

theorem spec_encodeNothing (code : ErrorCode) (hbad : ¬ bad) :
    Spec B S bad enc (encodeNothing S.options { enc with errorCode := some code }) := by
  refine spec_error code hbad fun hpart => ?_
  rw [if_pos hpart]
  exact reads_nul

/-! ## The loop over the elements -/

/-- What an item of an array or object is derived from. -/
def itemSymbol : OutputType → Symbol
  | .array => .value
  | .object => .pair

/-- The tokens of the items of an array or object. -/
def Items (r : OutputType) (bad : Prop) (items : List (List Token)) : Prop :=
  (¬ bad → ∀ i ∈ items, Derives (itemSymbol r) i) ∧ (bad → ∃ i ∈ items, HasNulKey i)

/-- What the output of the loop is read as, unless there is no text. -/
structure LoopSpec (B : Bool) (S : Settings) (r : OutputType) (needComma : Bool) (bad : Prop)
    (enc : Encoder) (out : Output) : Prop where
  sticky : Fails S enc → Fails S out.encoder
  failure : ¬ out.success → Fails S out.encoder
  starts : needComma → out.text = [] ∨ out.text.head? = some (byte ',')
  reads : ¬ Fails S out.encoder → ∀ rest us, Delim rest → Lex B rest us →
    ∃ items, Items r (S.options.partialOutputOnError ∧ bad) items ∧
      Lex B (out.text ++ rest) (joinTokens needComma items ++ us)

/-- The tokens in front of the value of an item. -/
def ItemKey (r : OutputType) (bad : Prop) (ts : List Token) : Prop :=
  match r with
  | .array => ts = []
  | .object => KeyTokens bad ts

/-- The key of an item, where there are keys. -/
def itemKey (S : Settings) (r : OutputType) (key : Key) (enc : Encoder) : Bytes × Encoder :=
  if r = .object then encodeKey S key enc else ([], enc)

theorem fails_itemKey (r : OutputType) (key : Key) (h : Fails S enc) :
    Fails S (itemKey S r key enc).2 := by
  cases r with
  | array => exact h
  | object => exact fails_encodeKey key h

variable {rest : Bytes}

theorem lex_itemKey (r : OutputType) (key : Key) (h : ¬ Fails S (itemKey S r key enc).2)
    (hlex : Lex B rest us) :
    ∃ ts, ItemKey r (S.options.partialOutputOnError ∧ BadKey key) ts ∧
      Lex B ((itemKey S r key enc).1 ++ rest) (ts ++ us) := by
  cases r with
  | array => exact ⟨[], rfl, hlex⟩
  | object => exact lex_encodeKey key enc h hlex

variable {r : OutputType}

/-- A key and a value are an item, and `null` as a key stays one. -/
theorem item_of_key {badKey badValue : Prop}
    (hkey : ItemKey r (p ∧ badKey) ts) (hvalue : ValueTokens (p ∧ badValue) us) :
    (¬ (p ∧ (r = .object ∧ badKey ∨ badValue)) → Derives (itemSymbol r) (ts ++ us)) ∧
    (p ∧ (r = .object ∧ badKey ∨ badValue) → HasNulKey (ts ++ us)) := by
  have hright : p ∧ badValue → HasNulKey (ts ++ us) := fun h =>
    (hvalue.2 h).mono (suffix_append ts us).isInfix
  cases r with
  | array =>
    cases hkey
    refine ⟨fun h => hvalue.1 fun hn => h ⟨hn.1, .inr hn.2⟩, ?_⟩
    rintro ⟨hp, ⟨h, -⟩ | h⟩
    · cases h
    · exact hright ⟨hp, h⟩
  | object =>
    constructor
    · intro h
      obtain ⟨k, hk, rfl⟩ := hkey.1 fun hn => h ⟨hn.1, .inl ⟨rfl, hn.2⟩⟩
      have hvalue := hvalue.1 fun hn => h ⟨hn.1, .inr hn.2⟩
      rcases hk with rfl | rfl
      · exact .pair .stringKey hvalue
      · exact .pair .estringKey hvalue
    · rintro ⟨hp, ⟨-, h⟩ | h⟩
      · rw [hkey.2 ⟨hp, h⟩]
        exact ⟨[], us, rfl⟩
      · exact hright ⟨hp, h⟩

/-- A comma, if there is one, and whitespace. -/
theorem lex_separator (needComma : Bool) (o : Options) (depth : ℕ) (h : Lex B rest us) :
    Lex B ((if needComma then [byte ','] else []) ++ (prettyPrintIndent o depth ++ rest))
      ((if needComma then [.comma] else []) ++ us) := by
  have hws := lex_whitespace (isWs_prettyPrintIndent o depth) h
  cases needComma with
  | true => exact lex_comma hws
  | false => exact hws

/-- What comes behind an item. -/
theorem delim_append (ht : t = [] ∨ t.head? = some (byte ','))
    (hrest : Delim rest) : Delim (t ++ rest) := by
  rcases ht with rfl | ht
  · exact hrest
  · intro b hb
    have hcomma : b = byte ',' := by
      cases t with
      | nil => cases ht
      | cons c t =>
        cases ht
        cases hb
        rfl
    rw [hcomma]
    decide

theorem items_cons {bad' : Prop} {i : List Token} {items : List (List Token)}
    (hi : (¬ (p ∧ bad) → Derives (itemSymbol r) i) ∧ (p ∧ bad → HasNulKey i))
    (h : Items r (p ∧ bad') items) : Items r (p ∧ (bad ∨ bad')) (i :: items) := by
  constructor
  · intro hn
    exact forall_mem_cons.mpr
      ⟨hi.1 fun hp => hn ⟨hp.1, .inl hp.2⟩, h.1 fun hp => hn ⟨hp.1, .inr hp.2⟩⟩
  · rintro ⟨hp, hbad | hbad⟩
    · exact ⟨i, mem_cons_self, hi.2 ⟨hp, hbad⟩⟩
    · obtain ⟨j, hj, hnul⟩ := h.2 ⟨hp, hbad⟩
      exact ⟨j, mem_cons_of_mem i hj, hnul⟩

section Array

variable {encode : (ℕ → ℕ) → Zval → Encoder → Option Output} {r : OutputType} {io : Bool}

variable {needComma : Bool} {key : Key} {data : Zval} {es : List (Key × Zval)}

theorem encodeElements_skipped (h : Skipped r io key) :
    encodeElements S H encode count r io needComma ((key, data) :: es) enc =
      encodeElements S H encode count r io needComma es enc := by
  exact if_pos h

/-- What one round of the loop writes. -/
def itemText (S : Settings) (r : OutputType) (needComma : Bool) (key : Key) (enc : Encoder)
    (val : Output) : Bytes :=
  (if needComma then [byte ','] else []) ++ prettyPrintIndent S.options enc.depth ++
    (itemKey S r key enc).1 ++ val.text

/-- One round of the loop that writes something. -/
theorem encodeElements_shown (h : ¬ Skipped r io key) :
    encodeElements S H encode count r io needComma ((key, data) :: es) enc =
      (encode (H.protect count (H.deref data)) (H.deref data) (itemKey S r key enc).2).bind
        fun val => if ¬ val.success ∧ ¬ S.options.partialOutputOnError then
            some (true, ⟨itemText S r needComma key enc val, false, val.encoder⟩) else
            (encodeElements S H encode count r io true es val.encoder).map fun x =>
              (x.1, { x.2 with text := itemText S r needComma key enc val ++ x.2.text }) := by
  have hskip : ¬ (r = .object ∧ io = true ∧ isHidden key = true) := h
  rw [encodeElements, if_neg hskip]
  rfl

/-- Elements with a key or a value that is not UTF-8. -/
def BadElements (S : Settings) (H : Heap) (count : ℕ → ℕ) (r : OutputType) (io : Bool)
    (es : List (Key × Zval)) : Prop := ∃ e ∈ es, BadElement S H count r io e

theorem badElements_skipped (h : Skipped r io key) :
    BadElements S H count r io ((key, data) :: es) ↔ BadElements S H count r io es := by
  rw [BadElements, exists_mem_cons_iff]
  exact or_iff_right fun hbad => hbad.1 h

theorem badElements_shown (h : ¬ Skipped r io key) :
    BadElements S H count r io ((key, data) :: es) ↔ (r = .object ∧ BadKey key ∨
        WritesBadKey S H (H.protect count (H.deref data)) (H.deref data)) ∨
      BadElements S H count r io es := by
  rw [BadElements, exists_mem_cons_iff]
  exact or_congr_left (and_iff_right h)

/-- The loop writes its items with commas between them. -/
theorem loopSpec_encodeElements (hencode : Encodes B S H encode) {needComma' : Bool}
    (h : encodeElements S H encode count r io needComma es enc = some (needComma', out)) :
    LoopSpec B S r needComma (BadElements S H count r io es) enc out := by
  induction es generalizing needComma enc out with
  | nil =>
    cases h
    refine ⟨id, fun hn => absurd rfl hn, fun _ => .inl rfl, fun _ rest us _ hlex => ?_⟩
    refine ⟨[], ⟨fun _ => forall_mem_nil _, ?_⟩, hlex⟩
    rintro ⟨-, e, he, -⟩
    cases he
  | cons e es ih =>
    obtain ⟨key, data⟩ := e
    by_cases hskip : Skipped r io key
    · rw [encodeElements_skipped hskip] at h
      rw [badElements_skipped hskip]
      exact ih h
    rw [badElements_shown hskip]
    rw [encodeElements_shown hskip] at h
    obtain ⟨val, hval, h⟩ := bind_eq_some_iff.mp h
    have hspec := hencode _ _ _ _ hval
    have hstarts : ∀ t, needComma → itemText S r needComma key enc val ++ t = [] ∨
        (itemText S r needComma key enc val ++ t).head? = some (byte ',') := by
      intro t hcomma
      rw [itemText, if_pos hcomma]
      exact .inr rfl
    split at h
    · -- the loop is left with an error
      rename_i hcond
      cases h
      have hfails := hspec.failure hcond.1 hcond.2
      have hstarts := hstarts []
      rw [append_nil] at hstarts
      exact ⟨fun _ => hfails, fun _ => hfails, hstarts, fun hn => absurd hfails hn⟩
    · obtain ⟨⟨needComma', out'⟩, hloop, h⟩ := map_eq_some_iff.mp h
      cases h
      have hrest := ih hloop
      refine ⟨fun hfails => hrest.sticky (hspec.sticky (fails_itemKey r key hfails)),
        hrest.failure, hstarts _, fun hgood rest us hdelim hlex => ?_⟩
      -- the rest of the items, the value, the key and the separator, from the end on
      have hgoodValue : ¬ Fails S val.encoder := fun hn => hgood (hrest.sticky hn)
      have hgoodKey : ¬ Fails S (itemKey S r key enc).2 := fun hn => hgoodValue (hspec.sticky hn)
      obtain ⟨items, hitems, hlexItems⟩ := hrest.reads hgood rest us hdelim hlex
      obtain ⟨vs, hvs, hlexValue⟩ :=
        hspec.reads hgoodValue _ _ (delim_append (hrest.starts rfl) hdelim) hlexItems
      obtain ⟨ks, hks, hlexKey⟩ := lex_itemKey r key hgoodKey hlexValue
      refine ⟨(ks ++ vs) :: items, items_cons (item_of_key hks hvs) hitems, ?_⟩
      have hlexItem := lex_separator needComma S.options enc.depth hlexKey
      rw [itemText, joinTokens]
      simp only [append_assoc] at hlexItem ⊢
      exact hlexItem

/-! ## Arrays and objects -/

/-- The brackets or braces around the items. -/
theorem valueTokens_enclosed {items : List (List Token)} (h : Items r bad items) :
    ValueTokens bad ((if r = .array then Token.lbracket else .lbrace) ::
      (joinTokens false items ++ [if r = .array then Token.rbracket else .rbrace])) := by
  have hbad : bad → HasNulKey (joinTokens false items) := by
    intro hb
    obtain ⟨i, hi, hnul⟩ := h.2 hb
    exact hasNulKey_joinTokens hi hnul false
  refine ⟨fun hn => ?_, fun hb => (hbad hb).mono (infix_append [_] _ [_])⟩
  cases r with
  | array => exact .arrayValue (.array (derives_elements (h.1 hn)))
  | object => exact .objectValue (.object (derives_members (h.1 hn)))

theorem lex_opening (h : Lex B rest ts) :
    Lex B ((if r = .array then byte '[' else byte '{') :: rest)
      ((if r = .array then Token.lbracket else .lbrace) :: ts) := by
  cases r with
  | array => exact lex_lbracket h
  | object => exact lex_lbrace h

theorem lex_closing (h : Lex B rest ts) :
    Lex B ((if r = .array then byte ']' else byte '}') :: rest)
      ((if r = .array then Token.rbracket else .rbrace) :: ts) := by
  cases r with
  | array => exact lex_rbracket h
  | object => exact lex_rbrace h

/-- Behind the items stands whitespace or the end of the array or object. -/
theorem delim_closing (newline : Bool) (o : Options) (depth : ℕ) (rest : Bytes) :
    Delim ((if newline then prettyPrintIndent o depth else []) ++
      (if r = .array then byte ']' else byte '}') :: rest) := by
  have hclosing : Delim ((if r = .array then byte ']' else byte '}') :: rest) := by
    rintro b ⟨⟩
    cases r <;> decide
  cases newline with
  | false => exact hclosing
  | true =>
    rw [if_pos rfl, prettyPrintIndent]
    split
    · rintro b ⟨⟩
      decide
    · exact hclosing

theorem lex_newline (newline : Bool) (o : Options) (depth : ℕ) (h : Lex B rest ts) :
    Lex B ((if newline then prettyPrintIndent o depth else []) ++ rest) ts := by
  cases newline with
  | false => exact h
  | true => exact lex_whitespace (isWs_prettyPrintIndent o depth) h

/-- The text of an array or object. -/
theorem reads_enclosed (newline : Bool) (depth : ℕ)
    (h : LoopSpec B S r false bad enc out) (hgood : ¬ Fails S out.encoder) :
    Reads B ((if r = .array then byte '[' else byte '{') ::
      (out.text ++ ((if newline then prettyPrintIndent S.options depth else []) ++
        [if r = .array then byte ']' else byte '}'])))
      (ValueTokens (S.options.partialOutputOnError ∧ bad)) := by
  intro rest us _ hlex
  obtain ⟨items, hitems, hlexItems⟩ := h.reads hgood _ _
    (delim_closing newline S.options depth rest)
    (lex_newline newline S.options depth (lex_closing (r := r) hlex))
  refine ⟨_, valueTokens_enclosed hitems, ?_⟩
  have hlexAll := lex_opening (r := r) hlexItems
  simp only [cons_append, append_assoc, nil_append] at hlexAll ⊢
  exact hlexAll

theorem spec_closeArray (needComma : Bool) (h : LoopSpec B S r false bad enc out) :
    Spec B S bad enc (closeArray S r needComma out) := by
  unfold closeArray
  dsimp only
  by_cases hsuccess : out.success = true
  · rw [if_neg (not_not.mpr hsuccess)]
    by_cases hexceeded : S.maxDepth < out.encoder.depth
    · rw [decide_eq_true hexceeded]
      split
      · rename_i hcond
        have hfails : Fails S { out.encoder with errorCode := some .depth } :=
          fails_of_error rfl hcond.2
        exact ⟨fun _ => hfails, fun _ _ => hfails, fun hn => absurd hfails hn⟩
      · refine ⟨fun hfails => (h.sticky hfails).withError .depth, fun hn => absurd rfl hn,
          fun hgood => ?_⟩
        exact reads_enclosed needComma _ h fun hn => hgood (hn.withError .depth)
    · rw [decide_eq_false hexceeded]
      exact ⟨h.sticky, fun hn => absurd rfl hn, fun hgood => reads_enclosed needComma _ h hgood⟩
  · rw [if_pos hsuccess]
    have hfails := h.failure hsuccess
    exact ⟨fun _ => hfails, fun _ _ => hfails, fun hn => absurd hfails hn⟩

theorem badArray_iff (h : ¬ (H.hashOf val).any (fun a => 1 < count a) = true) :
    BadArray S H count val ↔ BadElements S H count (outputType S.options H val) (isObject val)
      ((H.hashOf val).elim [] H.elements) := by
  cases ha : H.hashOf val with
  | none =>
    constructor
    · rintro ⟨a, ha', -⟩
      rw [ha] at ha'
      cases ha'
    · rintro ⟨e, he, -⟩
      cases he
  | some a =>
    rw [ha, any_some, decide_eq_true_iff] at h
    constructor
    · rintro ⟨a', ha', -, hbad⟩
      rw [ha] at ha'
      cases ha'
      exact hbad
    · intro hbad
      exact ⟨a, ha, by omega, hbad⟩

theorem spec_encodeArray (hencode : Encodes B S H encode)
    (h : encodeArray S H encode count val enc = some out) :
    Spec B S (BadArray S H count val) enc out := by
  rw [encodeArray] at h
  split at h
  · -- in the middle of a recursion
    rename_i hrecursion
    cases h
    refine spec_error .recursion ?_ fun _ => reads_nul
    rintro ⟨a, ha, hcount, -⟩
    rw [ha, any_some, decide_eq_true_iff] at hrecursion
    omega
  · rename_i hrecursion
    obtain ⟨⟨needComma, out'⟩, hloop, h⟩ := map_eq_some_iff.mp h
    cases h
    have hspec := spec_closeArray needComma (loopSpec_encodeElements hencode hloop)
    exact Spec.congr ⟨hspec.sticky, hspec.failure, hspec.reads⟩ (badArray_iff hrecursion)

/-! ## Values -/

theorem spec_encodeSerializableObject (hencode : Encodes B S H encode) {outcome : Outcome}
    (hs : H.jsonSerialize o = some outcome)
    (h : encodeSerializableObject S H encode count o outcome enc = some out) :
    Spec B S (WritesBadKey S H count (.object o)) enc out := by
  unfold encodeSerializableObject at h
  split at h
  · rename_i hrecursion
    cases h
    refine spec_encodeNothing .recursion ?_
    cases ha : H.properties o with
    | none =>
      rw [ha] at hrecursion
      cases hrecursion
    | some a =>
      rw [ha, any_some, decide_eq_true_iff] at hrecursion
      exact not_writesBadKey_recursion ha hrecursion
  · rename_i hrecursion
    have hcount : ∀ a, H.properties o = some a → count a ≤ 1 := by
      intro a ha
      rw [ha, any_some, decide_eq_true_iff] at hrecursion
      omega
    cases outcome with
    | failed =>
      -- there is an exception, so that there is no text
      cases h
      exact ⟨fun _ => .inl rfl, fun _ _ => .inl rfl, fun hn => absurd (.inl rfl) hn⟩
    | returned v =>
      by_cases hv : v = .object o
      · subst hv
        dsimp only at h
        rw [if_pos rfl] at h
        exact (spec_encodeArray hencode h).congr (writesBadKey_itself hs)
      · have hencoded : encode count v enc = some out := by
          cases v with
          | object o' =>
            dsimp only at h
            rw [if_neg fun ho => hv (by rw [ho])] at h
            exact h
          | _ => exact h
        exact (hencode _ _ _ _ hencoded).congr (writesBadKey_serialized hs hv hcount)

end Array

theorem spec_string (s : Bytes) (hbad : ¬ bad) :
    Spec B S bad enc ⟨(escapeString S S.options s).1, (escapeString S S.options s).2,
      enc.escaped (escapeString S S.options s).2⟩ := by
  have herror : ¬ (escapeString S S.options s).2 = true → ¬ S.options.partialOutputOnError →
      Fails S (enc.escaped (escapeString S S.options s).2) := by
    intro hsuccess hpart
    rw [Encoder.escaped, if_neg hsuccess]
    exact fails_of_error rfl hpart
  refine ⟨fun hfails => hfails.escaped _, herror, fun hgood => ?_⟩
  have hwritten : (escapeString S S.options s).2 = true ∨ S.options.partialOutputOnError := by
    by_contra hn
    rw [not_or] at hn
    exact hgood (herror hn.1 hn.2)
  exact (reads_escapeString S S.options s hwritten).mono fun _ => valueTokens_of_derives hbad

theorem spec_encodeZval (fuel : ℕ) : Encodes B S H (encodeZval S H fuel) := by
  induction fuel with
  | zero =>
    intro count val enc out h
    cases h
  | succ fuel ih =>
    intro count val enc out h
    unfold encodeZval at h
    cases val with
    | null =>
      cases h
      exact spec_plain (not_writesBadKey nofun nofun nofun) reads_nul
    | bool b =>
      cases b with
      | true =>
        cases h
        exact spec_plain (not_writesBadKey nofun nofun nofun) reads_true
      | false =>
        cases h
        exact spec_plain (not_writesBadKey nofun nofun nofun) reads_false
    | long v =>
      cases h
      exact spec_plain (not_writesBadKey nofun nofun nofun)
        (reads_number (isNumberText_printLong v))
    | double d =>
      cases d with
      | finite d =>
        cases h
        exact spec_plain (not_writesBadKey nofun nofun nofun)
          (reads_number (isNumberText_encodeDouble S S.options d))
      | infOrNan =>
        cases h
        exact spec_error .infOrNan (not_writesBadKey nofun nofun nofun)
          fun _ => reads_number (isNumberText_print false 0)
    | string s =>
      cases h
      exact spec_string s (not_writesBadKey nofun nofun nofun)
    | object o =>
      dsimp only at h
      split at h
      · rename_i outcome hs
        exact spec_encodeSerializableObject ih hs h
      · rename_i hs
        exact (spec_encodeArray ih h).congr (writesBadKey_object hs)
    | array a => exact (spec_encodeArray ih h).congr writesBadKey_array
    | reference r =>
      have hspec := ih _ _ _ _ h
      exact hspec.congr writesBadKey_reference
    | other =>
      cases h
      exact spec_encodeNothing .unsupportedType (not_writesBadKey nofun nofun nofun)

/-! ## The text -/

/-- A text of `json_encode` is one value for the scanner and the grammar of the module, unless there
is an option for partial output and a key that is not UTF-8: this one is written as `null`. -/
theorem jsonEncode_accepted_iff {fuel : ℕ} {val : Zval} {t : Bytes}
    (h : jsonEncode S H count fuel val = some (some t)) :
    Accepts B t ↔ ¬ (S.options.partialOutputOnError ∧ ∃ k, Writes S H count val k ∧ ¬ Utf8 k) := by
  obtain ⟨out, hout, h⟩ := map_eq_some_iff.mp h
  have hspec : Spec B S (WritesBadKey S H count val) _ out := spec_encodeZval fuel _ _ _ _ hout
  split at h
  · cases h
  · rename_i hgood
    cases h
    have hreads := hspec.reads hgood
    constructor
    · intro haccepts hbad
      exact not_accepts_of_reads (hreads.mono fun _ hts => hts.2 hbad) haccepts
    · intro hbad
      exact accepts_of_reads (hreads.mono fun _ hts => hts.1 hbad)

/-- An array with one member. -/
def oneMember (key : Bytes) : Heap where
  buckets := fun _ => [(.str key, some (.long 1))]
  packed := fun _ => false
  applyProtection := fun _ => true
  properties := fun _ => none
  jsonSerialize := fun _ => none
  refval := fun _ => .null

/-- No options but the one for partial output. -/
def onlyPartial (partialOutputOnError : Bool) : Settings where
  options :=
    { hexTag := false
      hexAmp := false
      hexApos := false
      hexQuot := false
      forceObject := false
      numericCheck := false
      unescapedSlashes := false
      prettyPrint := false
      unescapedUnicode := false
      partialOutputOnError := partialOutputOnError
      preserveZeroFraction := false
      unescapedLineTerminators := false }
  maxDepth := 512
  precision := 17
  strtod := fun _ => .infOrNan

theorem accepts_oneMember : Accepts false (text ['{', '"', 'a', '"', ':', '1', '}']) ↔
      ¬ ((onlyPartial false).options.partialOutputOnError ∧
        ∃ k, Writes (onlyPartial false) (oneMember (text ['a'])) (fun _ => 0) (.array 0) k ∧
          ¬ Utf8 k) := by
  have h : jsonEncode (onlyPartial false) (oneMember (text ['a'])) (fun _ => 0) 2 (.array 0) =
      some (some (text ['{', '"', 'a', '"', ':', '1', '}'])) := rfl
  exact jsonEncode_accepted_iff h

theorem not_accepts_nulKey :
    ¬ ∀ (B : Bool) (S : Settings) (H : Heap) (count : ℕ → ℕ) (fuel : ℕ) (val : Zval)
      (t : Bytes), jsonEncode S H count fuel val = some (some t) → Accepts B t := by
  intro h
  have haccepts : Accepts false (text ['{', 'n', 'u', 'l', 'l', ':', '1', '}']) :=
    h false (onlyPartial true) (oneMember [0xff]) (fun _ => 0) 2 (.array 0) _ rfl
  have hend : Lex false [byte '}'] [.rbrace] := lex_rbrace (.eoi rfl)
  have hone : Lex false [byte '1', byte '}'] [.int, .rbrace] :=
    lex_cons rfl rfl (by decide) (fun _ => by simp) hend
  exact not_accepts_of_hasNulKey (lex_lbrace (lex_nul (lex_colon hone)))
    ⟨[.lbrace], [.int, .rbrace], rfl⟩ haccepts

end PhpJson
