/-
# Strings of JSON

What `php_json_escape_string` writes between the quotes is read by the scanner up to the closing
quote, if the string is UTF-8.
-/
import Mathlib
import ReadingCode.JsonEncoder

namespace PhpJson

open List Option

open PhpVar (Key text)

variable {o : Options} {c : UInt8} {r r' r1 s t body rest : Bytes} {us fuel : ℕ}

/-! ## Steps of the scanner -/

/-- The string that `r` is in the middle of ends in front of `r'`. -/
def Ends (r r' : Bytes) : Prop := ∀ fuel, r.length < fuel → scanStr fuel r = .ok r'

/-- The quote behind a string. -/
theorem ends_quote (r : Bytes) : Ends (byte '"' :: r) r := by
  intro fuel hfuel
  obtain ⟨fuel, rfl⟩ := Nat.exists_eq_add_one.2 hfuel.pos
  rw [scanStr, if_neg (by decide), if_pos rfl]

/-- A byte of a string that is neither a control character nor one that has to be escaped. -/
def Plain (c : UInt8) : Prop := ¬ c < 0x20 ∧ c ≠ byte '"' ∧ c ≠ byte '\\'

instance (c : UInt8) : Decidable (Plain c) := inferInstanceAs (Decidable (_ ∧ _))

theorem plain_of_not_lt (hc : ¬ c < 0x80) : Plain c := by
  refine ⟨fun h => hc (UInt8.lt_trans h (by decide)), ?_, ?_⟩
  · rintro rfl
    exact hc (by decide)
  · rintro rfl
    exact hc (by decide)

/-- A character in a string. -/
theorem ends_char (hc : Plain c) (htake : takeUtf8 (c :: r) = some r1) (hlen : r1.length ≤ r.length)
    (h : Ends r1 r') : Ends (c :: r) r' := by
  intro fuel hfuel
  obtain ⟨fuel, rfl⟩ := Nat.exists_eq_add_one.2 hfuel.pos
  rw [length_cons] at hfuel
  rw [scanStr, if_neg hc.1, if_neg hc.2.1, if_neg hc.2.2, htake]
  exact h fuel (by omega)

/-- An ASCII character in a string. -/
theorem ends_ascii (hc : Plain c) (h80 : c < 0x80) (h : Ends r r') : Ends (c :: r) r' := by
  have hle : c ≤ 0x7f := by
    simp only [UInt8.lt_iff_toNat_lt, UInt8.le_iff_toNat_le, UInt8.reduceToNat] at h80 ⊢
    omega
  refine ends_char hc ?_ le_rfl h
  rw [takeUtf8, if_pos hle]

/-- An escape in a string. -/
theorem ends_escape (hescape : scanEscape r = .ok r1) (hlen : r1.length ≤ r.length)
    (h : Ends r1 r') : Ends (byte '\\' :: r) r' := by
  intro fuel hfuel
  obtain ⟨fuel, rfl⟩ := Nat.exists_eq_add_one.2 hfuel.pos
  rw [length_cons] at hfuel
  rw [scanStr, hescape]
  exact h fuel (by omega)

/-- A backslash and a character of `ESCSYM`. -/
theorem ends_escSym (hc : isEscSym c = true) (h : Ends r r') : Ends (byte '\\' :: c :: r) r' := by
  refine ends_escape ?_ (Nat.le_succ _) h
  rw [scanEscape, if_pos hc]

/-! ## Escapes with four digits -/

/-- A digit is read back. -/
theorem hexDigit_hexChar {n : ℕ} (hn : n < 16) : hexDigit (hexChar n) = some n := by
  have hall : ∀ n < 16, hexDigit (hexChar n) = some n := by decide
  exact hall n hn

/-- Four digits are read back. -/
theorem takeHex_hexChar {a b c d : ℕ} (ha : a < 16) (hb : b < 16) (hc : c < 16) (hd : d < 16)
    (r : Bytes) :
    takeHex (hexChar a :: hexChar b :: hexChar c :: hexChar d :: r) = some (a, b, r) := by
  rw [takeHex, hexDigit_hexChar ha, hexDigit_hexChar hb, hexDigit_hexChar hc, hexDigit_hexChar hd]

/-- The escape of a character that is no surrogate. -/
theorem ends_unicodeEscape (hus : us < 0x10000) (hsur : ¬ (0xd800 ≤ us ∧ us ≤ 0xdfff))
    (h : Ends r r') : Ends (unicodeEscape us ++ r) r' := by
  have hhex := takeHex_hexChar (r := r) (Nat.mod_lt (us / 4096) (by decide : 0 < 16))
    (Nat.mod_lt (us / 256) (by decide : 0 < 16)) (Nat.mod_lt (us / 16) (by decide : 0 < 16))
    (Nat.mod_lt us (by decide : 0 < 16))
  have hno : ¬ (us / 4096 % 16 = 13 ∧ 8 ≤ us / 256 % 16) := by omega
  have hescape : scanEscape (byte 'u' :: hexChar (us / 4096 % 16) :: hexChar (us / 256 % 16) ::
      hexChar (us / 16 % 16) :: hexChar (us % 16) :: r) = .ok r := by
    rw [scanEscape, if_neg (by decide), if_pos rfl, hhex]
    dsimp only
    rw [if_neg hno]
  exact ends_escape hescape (Nat.le_add_right r.length 5) h

/-- The escapes of two surrogates that are a pair. -/
theorem ends_surrogates {hi lo : ℕ} (hhi : hi < 1024) (hlo : lo < 1024) (h : Ends r r') :
    Ends (unicodeEscape (0xd800 + hi) ++ (unicodeEscape (0xdc00 + lo) ++ r)) r' := by
  have hhex := takeHex_hexChar (Nat.mod_lt ((0xd800 + hi) / 4096) (by decide : 0 < 16))
    (Nat.mod_lt ((0xd800 + hi) / 256) (by decide : 0 < 16))
    (Nat.mod_lt ((0xd800 + hi) / 16) (by decide : 0 < 16))
    (Nat.mod_lt (0xd800 + hi) (by decide : 0 < 16)) (unicodeEscape (0xdc00 + lo) ++ r)
  have hhex' := takeHex_hexChar (Nat.mod_lt ((0xdc00 + lo) / 4096) (by decide : 0 < 16))
    (Nat.mod_lt ((0xdc00 + lo) / 256) (by decide : 0 < 16))
    (Nat.mod_lt ((0xdc00 + lo) / 16) (by decide : 0 < 16))
    (Nat.mod_lt (0xdc00 + lo) (by decide : 0 < 16)) r
  have hfirst : (0xd800 + hi) / 4096 % 16 = 13 ∧ 8 ≤ (0xd800 + hi) / 256 % 16 := by omega
  have hhigh : (0xd800 + hi) / 256 % 16 < 12 := by omega
  have hsecond : (0xdc00 + lo) / 4096 % 16 = 13 ∧ 12 ≤ (0xdc00 + lo) / 256 % 16 := by omega
  have hlow : takeLowSurrogate (unicodeEscape (0xdc00 + lo) ++ r) = some r := by
    change takeLowSurrogate (byte '\\' :: byte 'u' :: _) = _
    change (takeHex (_ :: _ :: _ :: _ :: r)).bind _ = _
    rw [hhex']
    exact if_pos hsecond
  have hescape : scanEscape (byte 'u' :: hexChar ((0xd800 + hi) / 4096 % 16) ::
      hexChar ((0xd800 + hi) / 256 % 16) :: hexChar ((0xd800 + hi) / 16 % 16) ::
      hexChar ((0xd800 + hi) % 16) :: (unicodeEscape (0xdc00 + lo) ++ r)) = .ok r := by
    rw [scanEscape, if_neg (by decide), if_pos rfl, hhex]
    dsimp only
    rw [if_pos hfirst, if_pos hhigh, hlow]
  exact ends_escape hescape (Nat.le_add_right r.length 11) h

/-! ## What the encoder writes for a character -/

variable {ep fp ip tail : Bytes}

/-- What is written for a character. -/
theorem ends_escapeUtf8 (hc : ¬ c < 0x80) (hs : CharSplit c r r' us tail)
    (hraw : o.unescapedUnicode → c = 0xe2) (h : Ends (t ++ rest) s) :
    Ends (escapeUtf8 o ((c :: r).take 3) us ++ (t ++ rest)) s := by
  rw [escapeUtf8]
  split
  · rename_i hunescaped
    have hthree := hs.three (hraw hunescaped.1)
    have htake : (c :: r).take 3 = c :: tail := by
      rw [hs.split, take_succ_cons, take_append_of_le_length (by omega),
        take_of_length_le (by omega)]
    rw [htake]
    exact ends_char (plain_of_not_lt hc) (hs.take (t ++ rest))
      (suffix_append tail (t ++ rest)).length_le h
  · split
    · have hlt := hs.lt
      exact ends_surrogates (by omega) (by omega) h
    · exact ends_unicodeEscape (by omega) hs.noSurrogate h

/-- A byte of a character of several bytes stays as it is. -/
theorem escapeByte_of_not_lt (hc : ¬ c < 0x80) : escapeByte o c = [c] := by
  have hne : ∀ b : UInt8, b < 0x80 → c ≠ b := by
    rintro b hb rfl
    exact hc hb
  have hspace : byte ' ' ≤ c := by
    have h20 : ¬ c < byte ' ' := (plain_of_not_lt hc).1
    exact UInt8.not_lt.mp h20
  rw [escapeByte, if_neg (hne _ (by decide)), if_neg (hne _ (by decide)),
    if_neg (hne _ (by decide)), if_neg (hne _ (by decide)), if_neg (hne _ (by decide)),
    if_neg (hne _ (by decide)), if_neg (hne _ (by decide)), if_neg (hne _ (by decide)),
    if_neg (hne _ (by decide)), if_neg (hne _ (by decide)), if_neg (hne _ (by decide)),
    if_neg (hne _ (by decide)), if_pos hspace]

/-- What is written for an ASCII character. -/
theorem ends_escapeByte (hc : c < 0x80) (h : Ends r r') : Ends (escapeByte o c ++ r) r' := by
  rw [escapeByte]
  by_cases hquote : c = byte '"'
  · rw [if_pos hquote]
    split
    · exact ends_unicodeEscape (by decide) (by decide) h
    · exact ends_escSym (by decide) h
  rw [if_neg hquote]
  by_cases hback : c = byte '\\'
  · rw [if_pos hback]
    exact ends_escSym (by decide) h
  rw [if_neg hback]
  by_cases hslash : c = byte '/'
  · rw [if_pos hslash]
    split
    · exact ends_ascii (by decide) (by decide) h
    · exact ends_escSym (by decide) h
  rw [if_neg hslash]
  by_cases h8 : c = 0x08
  · rw [if_pos h8]
    exact ends_escSym (by decide) h
  rw [if_neg h8]
  by_cases hff : c = 0x0c
  · rw [if_pos hff]
    exact ends_escSym (by decide) h
  rw [if_neg hff]
  by_cases hlf : c = 0x0a
  · rw [if_pos hlf]
    exact ends_escSym (by decide) h
  rw [if_neg hlf]
  by_cases hcr : c = 0x0d
  · rw [if_pos hcr]
    exact ends_escSym (by decide) h
  rw [if_neg hcr]
  by_cases htab : c = 0x09
  · rw [if_pos htab]
    exact ends_escSym (by decide) h
  rw [if_neg htab]
  by_cases hlt : c = byte '<'
  · rw [if_pos hlt]
    split
    · exact ends_escape (r := text ['u', '0', '0', '3', 'C'] ++ r) rfl
        (Nat.le_add_right r.length 5) h
    · exact ends_ascii (by decide) (by decide) h
  rw [if_neg hlt]
  by_cases hgt : c = byte '>'
  · rw [if_pos hgt]
    split
    · exact ends_escape (r := text ['u', '0', '0', '3', 'E'] ++ r) rfl
        (Nat.le_add_right r.length 5) h
    · exact ends_ascii (by decide) (by decide) h
  rw [if_neg hgt]
  by_cases hamp : c = byte '&'
  · rw [if_pos hamp]
    split
    · exact ends_unicodeEscape (by decide) (by decide) h
    · exact ends_ascii (by decide) (by decide) h
  rw [if_neg hamp]
  by_cases hapos : c = byte '\''
  · rw [if_pos hapos]
    split
    · exact ends_unicodeEscape (by decide) (by decide) h
    · exact ends_ascii (by decide) (by decide) h
  rw [if_neg hapos]
  have hnat := hc
  simp only [UInt8.lt_iff_toNat_lt, UInt8.reduceToNat] at hnat
  by_cases hspace : byte ' ' ≤ c
  · rw [if_pos hspace]
    exact ends_ascii ⟨UInt8.not_lt.mpr hspace, hquote, hback⟩ hc h
  · rw [if_neg hspace]
    exact ends_unicodeEscape (by omega) (by omega) h

/-! ## The loop -/

/-- In a text that is UTF-8, the bytes of a character behind the first one stay as they are. -/
theorem escapeLoop_tail (hu : o.unescapedUnicode)
    (htail : ∀ b ∈ tail, 0x80 ≤ b ∧ b ≤ 0xbf) (h : escapeLoop o fuel (tail ++ s) = some body) :
    ∃ fuel' t, escapeLoop o fuel' s = some t ∧ body = tail ++ t := by
  induction tail generalizing fuel body with
  | nil => exact ⟨fuel, body, h, rfl⟩
  | cons b tail ih =>
    rw [forall_mem_cons] at htail
    have h80 : ¬ b < 0x80 := UInt8.not_lt.mpr htail.1.1
    have hne : b ≠ 0xe2 := by
      rintro rfl
      exact absurd htail.1.2 (by decide)
    cases fuel with
    | zero => cases h
    | succ fuel =>
      rw [cons_append, escapeLoop, if_neg fun hc => hc.2.elim (fun hn => hn hu) hne] at h
      obtain ⟨t, ht, rfl⟩ := map_eq_some_iff.mp h
      obtain ⟨fuel', t', ht', rfl⟩ := ih htail.2 ht
      refine ⟨fuel', t', ht', ?_⟩
      rw [escapeByte_of_not_lt h80]
      rfl

/-- What the loop writes ends at the quote behind it. -/
theorem ends_escapeLoop (hvalid : o.unescapedUnicode → Utf8 s) (h : escapeLoop o fuel s = some body)
    (rest : Bytes) : Ends (body ++ byte '"' :: rest) rest := by
  induction hlen : s.length using Nat.strongRecOn generalizing s fuel body with
  | ind len ih =>
    subst hlen
    cases s with
    | nil =>
      have hnil : body = [] := by
        cases fuel <;> cases h <;> rfl
      rw [hnil]
      exact ends_quote rest
    | cons c r =>
      cases fuel with
      | zero => cases h
      | succ fuel =>
        rw [escapeLoop] at h
        by_cases hc : c < 0x80
        · -- a byte of its own
          have hnot : ¬ (0x80 ≤ c ∧ (¬ o.unescapedUnicode ∨ c = 0xe2)) :=
            fun hn => UInt8.not_lt.mpr hn.1 hc
          rw [if_neg hnot] at h
          obtain ⟨t, ht, rfl⟩ := map_eq_some_iff.mp h
          have hrest : o.unescapedUnicode → Utf8 r := by
            intro hu
            obtain _ | ⟨hnext, hr⟩ := hvalid hu
            rw [nextUtf8Char_ascii hc] at hnext
            cases hnext
            exact hr
          rw [append_assoc]
          exact ends_escapeByte hc (ih r.length (Nat.lt_succ_self _) hrest ht rfl)
        · by_cases hmulti : ¬ o.unescapedUnicode ∨ c = 0xe2
          · -- a character that is looked at
            rw [if_pos ⟨UInt8.not_lt.mp hc, hmulti⟩] at h
            obtain ⟨⟨us, r'⟩, hnext, h⟩ := bind_eq_some_iff.mp h
            obtain ⟨t, ht, rfl⟩ := map_eq_some_iff.mp h
            obtain ⟨tail, hs⟩ := charSplit_of_next hc hnext
            have hrest : o.unescapedUnicode → Utf8 r' := by
              intro hu
              obtain _ | ⟨hnext', hr⟩ := hvalid hu
              rw [hnext] at hnext'
              cases hnext'
              exact hr
            have hlt := length_next_lt hnext
            rw [append_assoc]
            exact ends_escapeUtf8 hc hs (fun hu => hmulti.resolve_left fun hn => hn hu)
              (ih r'.length hlt hrest ht rfl)
          · -- a character whose bytes are copied one by one
            rw [if_neg fun hn => hmulti hn.2] at h
            rw [not_or, not_not] at hmulti
            obtain _ | @⟨_, _, r', us, hnext, hr⟩ := hvalid hmulti.1
            obtain ⟨tail, hs⟩ := charSplit_of_next hc hnext
            obtain ⟨t, ht, rfl⟩ := map_eq_some_iff.mp h
            rw [hs.split] at ht
            obtain ⟨fuel', t', ht', rfl⟩ := escapeLoop_tail hmulti.1 hs.tails ht
            have hend := ih r'.length (length_next_lt hnext) (fun _ => hr) ht' rfl
            rw [escapeByte_of_not_lt hc, singleton_append, cons_append, append_assoc]
            exact ends_char (plain_of_not_lt hc) (hs.take _)
              (suffix_append tail _).length_le hend

/-! ## Which texts are escaped -/

/-- Bytes that are copied need one round of the loop each. -/
theorem exists_escapeLoop_tail (hu : o.unescapedUnicode)
    (htail : ∀ b ∈ tail, 0x80 ≤ b ∧ b ≤ 0xbf) (h : ∃ t, escapeLoop o fuel s = some t) :
    ∃ body, escapeLoop o (tail.length + fuel) (tail ++ s) = some body := by
  induction tail with
  | nil =>
    rw [length_nil, zero_add]
    exact h
  | cons b tail ih =>
    rw [forall_mem_cons] at htail
    have hne : b ≠ 0xe2 := by
      rintro rfl
      exact absurd htail.1.2 (by decide)
    obtain ⟨t, ht⟩ := ih htail.2
    rw [length_cons, Nat.succ_add, cons_append, escapeLoop,
      if_neg fun hc => hc.2.elim (fun hn => hn hu) hne, ht]
    exact ⟨_, rfl⟩

/-- UTF-8 can be escaped. -/
theorem exists_escapeLoop (hs : Utf8 s) (hfuel : s.length ≤ fuel) :
    ∃ body, escapeLoop o fuel s = some body := by
  induction hs generalizing fuel with
  | nil =>
    cases fuel with
    | zero => exact ⟨[], rfl⟩
    | succ fuel => exact ⟨[], rfl⟩
  | @char c r r' us hnext hr ih =>
    obtain ⟨fuel, rfl⟩ := Nat.exists_eq_add_one.2 (Nat.zero_lt_of_lt hfuel)
    rw [length_cons] at hfuel
    have hlt := length_next_lt hnext
    rw [length_cons] at hlt
    rw [escapeLoop]
    split
    · have hrest : ∃ t, escapeLoop o fuel r' = some t := ih (by omega)
      obtain ⟨t, ht⟩ := hrest
      rw [hnext, bind_some]
      dsimp only
      rw [ht]
      exact ⟨_, rfl⟩
    · rename_i hcond
      suffices hrest : ∃ t, escapeLoop o fuel r = some t by
        obtain ⟨t, ht⟩ := hrest
        rw [ht]
        exact ⟨_, rfl⟩
      by_cases hc : c < 0x80
      · rw [nextUtf8Char_ascii hc] at hnext
        cases hnext
        exact ih (by omega)
      · have hu : o.unescapedUnicode := by
          by_contra hn
          exact hcond ⟨UInt8.not_lt.mp hc, .inl hn⟩
        obtain ⟨tail, hs⟩ := charSplit_of_next hc hnext
        have hlen : r.length = tail.length + r'.length := by rw [hs.split, length_append]
        have hsplit : fuel = tail.length + (fuel - tail.length) := by omega
        rw [hs.split, hsplit]
        exact exists_escapeLoop_tail hu hs.tails (ih (by omega))

/-- Without the option for unescaped characters, the loop looks at every character. -/
theorem utf8_of_escapeLoop (hu : ¬ o.unescapedUnicode) (h : escapeLoop o fuel s = some body) :
    Utf8 s := by
  induction fuel generalizing s body with
  | zero =>
    cases s with
    | nil => exact .nil
    | cons c r => cases h
  | succ fuel ih =>
    cases s with
    | nil => exact .nil
    | cons c r =>
      rw [escapeLoop] at h
      split at h
      · obtain ⟨⟨us, r'⟩, hnext, h⟩ := bind_eq_some_iff.mp h
        obtain ⟨t, ht, -⟩ := map_eq_some_iff.mp h
        exact .char hnext (ih ht)
      · rename_i hcond
        obtain ⟨t, ht, -⟩ := map_eq_some_iff.mp h
        have hc : c < 0x80 := by
          by_contra hn
          exact hcond ⟨UInt8.not_lt.mp hn, .inl hu⟩
        exact .char (nextUtf8Char_ascii hc r) (ih ht)

/-! # The tokens of what the encoder writes -/

open Decimal

variable {B : Bool} {c : UInt8} {r r' rest body : Bytes} {t : Token} {ts us : List Token}

/-! ## One token -/

/-- One token. -/
theorem lex_cons (hws : isWs c = false) (hscan : scanToken B c r = (t, r')) (heoi : t ≠ .eoi)
    (herror : ∀ code, t ≠ .error code) (h : Lex B r' ts) : Lex B (c :: r) (t :: ts) := by
  refine .token ?_ heoi herror h
  rw [scan, if_neg (by rw [hws]; decide), hscan]

theorem lex_ws (hws : isWs c = true) (h : Lex B r ts) : Lex B (c :: r) ts := by
  have hscan : scan B (c :: r) = scan B r := by rw [scan, if_pos hws]
  cases h with
  | eoi h => exact .eoi (hscan.trans h)
  | token h heoi herror hrest => exact .token (hscan.trans h) heoi herror hrest

/-- White space is no token. -/
theorem lex_whitespace {w : Bytes} (hw : ∀ b ∈ w, isWs b = true) (h : Lex B r ts) :
    Lex B (w ++ r) ts := by
  induction w with
  | nil => exact h
  | cons b w ih =>
    rw [forall_mem_cons] at hw
    exact lex_ws hw.1 (ih hw.2)

/-- `{` -/
theorem lex_lbrace (h : Lex B r ts) : Lex B (byte '{' :: r) (.lbrace :: ts) :=
  lex_cons (by decide) rfl (by decide) (fun _ => by simp) h

/-- `}` -/
theorem lex_rbrace (h : Lex B r ts) : Lex B (byte '}' :: r) (.rbrace :: ts) :=
  lex_cons (by decide) rfl (by decide) (fun _ => by simp) h

/-- `[` -/
theorem lex_lbracket (h : Lex B r ts) : Lex B (byte '[' :: r) (.lbracket :: ts) :=
  lex_cons (by decide) rfl (by decide) (fun _ => by simp) h

/-- `]` -/
theorem lex_rbracket (h : Lex B r ts) : Lex B (byte ']' :: r) (.rbracket :: ts) :=
  lex_cons (by decide) rfl (by decide) (fun _ => by simp) h

/-- `:` -/
theorem lex_colon (h : Lex B r ts) : Lex B (byte ':' :: r) (.colon :: ts) :=
  lex_cons (by decide) rfl (by decide) (fun _ => by simp) h

/-- `,` -/
theorem lex_comma (h : Lex B r ts) : Lex B (byte ',' :: r) (.comma :: ts) :=
  lex_cons (by decide) rfl (by decide) (fun _ => by simp) h

/-- `null` -/
theorem lex_nul (h : Lex B r ts) : Lex B (text ['n', 'u', 'l', 'l'] ++ r) (.nul :: ts) :=
  lex_cons (by decide) rfl (by decide) (fun _ => by simp) h

/-- `true` -/
theorem lex_true (h : Lex B r ts) : Lex B (text ['t', 'r', 'u', 'e'] ++ r) (.isTrue :: ts) :=
  lex_cons (by decide) rfl (by decide) (fun _ => by simp) h

/-- `false` -/
theorem lex_false (h : Lex B r ts) : Lex B (text ['f', 'a', 'l', 's', 'e'] ++ r) (.isFalse :: ts) :=
  lex_cons (by decide) rfl (by decide) (fun _ => by simp) h

/-- A token of a string. -/
def IsString (t : Token) : Prop := t = .string ∨ t = .estring

/-- A string. -/
theorem lex_string (hends : Ends (body ++ byte '"' :: rest) rest) (h : Lex B rest ts) :
    ∃ t, IsString t ∧ Lex B (byte '"' :: (body ++ byte '"' :: rest)) (t :: ts) := by
  have hstr := hends _ (Nat.lt_succ_self _)
  have hscan : scanToken B (byte '"') (body ++ byte '"' :: rest)
      = scanString (body ++ byte '"' :: rest) := rfl
  rw [scanString, hstr] at hscan
  dsimp only at hscan
  split at hscan
  · exact ⟨_, .inr rfl, lex_cons (by decide) hscan (by decide) (fun _ => by simp) h⟩
  · exact ⟨_, .inl rfl, lex_cons (by decide) hscan (by decide) (fun _ => by simp) h⟩

/-! ## Numbers -/

/-- What may stand behind a number. -/
def Delim (rest : Bytes) : Prop :=
  ∀ b, rest.head? = some b → ¬ IsDigit b ∧ b ≠ byte '.' ∧ b ≠ byte 'e' ∧ b ≠ byte 'E'

/-- The token of a number. -/
def IsNumber (t : Token) : Prop := t = .int ∨ t = .double ∨ t = .string

theorem isNumber_intToken (B neg : Bool) (ds : Bytes) : IsNumber (intToken B neg ds) := by
  rw [intToken]
  split
  · split
    · exact .inr (.inr rfl)
    · exact .inr (.inl rfl)
  · exact .inl rfl

/-- Behind digits stands something else. -/
def NoDigit (rest : Bytes) : Prop := ∀ b, rest.head? = some b → ¬ IsDigit b

theorem dropDigits_append {ds : Bytes} (hds : ∀ b ∈ ds, IsDigit b) (hrest : NoDigit rest) :
    dropDigits (ds ++ rest) = rest := by
  rw [dropDigits, dropWhile_append_of_pos fun b hb => decide_eq_true (hds b hb)]
  cases rest with
  | nil => rfl
  | cons b rest => rw [dropWhile_cons_of_neg (by simpa using hrest b rfl)]

/-- The digits in front of the point. -/
theorem scanUint_append (hip : Canonical ip) (hrest : NoDigit rest) :
    ∃ ds, scanUint (ip ++ rest) = some (ds, rest) := by
  cases ip with
  | nil => exact absurd rfl hip.ne_nil
  | cons b ip =>
    rw [cons_append, scanUint]
    by_cases hb : b = byte '0'
    · have hlen := hip.head (by rw [hb]; rfl)
      have hnil : ip = [] := eq_nil_of_length_eq_zero (by simpa using hlen)
      rw [if_pos hb, hnil]
      exact ⟨_, rfl⟩
    · have hdigits := hip.digits
      rw [forall_mem_cons] at hdigits
      rw [if_neg hb, if_pos hdigits.1, dropDigits_append hdigits.2 hrest]
      exact ⟨_, rfl⟩

/-- A fraction with its point, or nothing. -/
def IsFraction (fp : Bytes) : Prop :=
  fp = [] ∨ ∃ ds, fp = byte '.' :: ds ∧ ds ≠ [] ∧ ∀ b ∈ ds, IsDigit b

/-- An exponent with its sign, or nothing. -/
def IsExponent (ep : Bytes) : Prop :=
  ep = [] ∨ ∃ sign ds, ep = byte 'e' :: sign :: ds ∧ (sign = byte '+' ∨ sign = byte '-') ∧ ds ≠ [] ∧
    ∀ b ∈ ds, IsDigit b

/-- The fraction. -/
theorem scanFraction_append (hne : fp ≠ []) (hfp : IsFraction fp)
    (hrest : NoDigit rest) : scanFraction (fp ++ rest) = some rest := by
  rcases hfp with hnil | ⟨ds, rfl, hds, hdigits⟩
  · exact absurd hnil hne
  · cases ds with
    | nil => exact absurd rfl hds
    | cons d ds =>
      rw [forall_mem_cons] at hdigits
      rw [cons_append, cons_append, scanFraction, if_pos ⟨rfl, hdigits.1⟩,
        dropDigits_append hdigits.2 hrest]

theorem scanFraction_delim (hrest : ∀ b, rest.head? = some b → b ≠ byte '.') :
    scanFraction rest = none := by
  match rest with
  | [] => rfl
  | [b] => rfl
  | b :: d :: r => rw [scanFraction, if_neg fun h => hrest b rfl h.1]

/-- The exponent. -/
theorem scanExponent_append (hne : ep ≠ []) (hep : IsExponent ep)
    (hrest : NoDigit rest) : scanExponent (ep ++ rest) = some rest := by
  rcases hep with hnil | ⟨sign, ds, rfl, hsign, hds, hdigits⟩
  · exact absurd hnil hne
  · cases ds with
    | nil => exact absurd rfl hds
    | cons d ds =>
      rw [forall_mem_cons] at hdigits
      rw [cons_append, cons_append, cons_append, scanExponent, if_pos (.inl rfl),
        scanSigned, if_pos hsign, if_pos hdigits.1, dropDigits_append hdigits.2 hrest]

theorem scanExponent_delim (hrest : ∀ b, rest.head? = some b → b ≠ byte 'e' ∧ b ≠ byte 'E') :
    scanExponent rest = none := by
  cases rest with
  | nil => rfl
  | cons b r =>
    have hb := hrest b rfl
    rw [scanExponent, if_neg (not_or.mpr hb)]

theorem noDigit_exponent (hep : IsExponent ep) (hrest : NoDigit rest) : NoDigit (ep ++ rest) := by
  rcases hep with rfl | ⟨sign, ds, rfl, -⟩
  · exact hrest
  · rintro b ⟨⟩
    decide

theorem noDigit_fraction (hfp : IsFraction fp) (hrest : NoDigit rest) : NoDigit (fp ++ rest) := by
  rcases hfp with rfl | ⟨ds, rfl, -⟩
  · exact hrest
  · rintro b ⟨⟩
    decide

/-- The text of a number: an exponent stands behind a fraction only. -/
structure NumberText (neg : Bool) (ip fp ep : Bytes) : Prop where
  canonical : Canonical ip
  fraction : IsFraction fp
  exponent : IsExponent ep
  behind : fp = [] → ep = []

/-- A number, as the encoder writes it. -/
theorem scanNumber_append {neg : Bool} (h : NumberText neg ip fp ep) (hrest : Delim rest) :
    ∃ t, IsNumber t ∧ scanNumber B neg (ip ++ (fp ++ (ep ++ rest))) = some (t, rest) := by
  have hdigit : NoDigit rest := fun b hb => (hrest b hb).1
  obtain ⟨ds, hds⟩ := scanUint_append h.canonical
    (noDigit_fraction h.fraction (noDigit_exponent h.exponent hdigit))
  have hnoExponent := scanExponent_delim fun b hb => (hrest b hb).2.2
  rw [scanNumber, hds, Option.map_some]
  dsimp only
  by_cases hfp : fp = []
  · rw [hfp, h.behind hfp, nil_append, nil_append,
      scanFraction_delim fun b hb => (hrest b hb).2.1, hnoExponent]
    exact ⟨_, isNumber_intToken B neg ds, rfl⟩
  · rw [scanFraction_append hfp h.fraction (noDigit_exponent h.exponent hdigit)]
    refine ⟨.double, .inr (.inl rfl), ?_⟩
    dsimp only
    by_cases hep : ep = []
    · rw [hep, nil_append, hnoExponent]
      rfl
    · rw [scanExponent_append hep h.exponent hdigit]
      rfl

/-- The text with its sign. -/
def numberText (neg : Bool) (ip fp ep : Bytes) : Bytes :=
  (if neg then [byte '-'] else []) ++ (ip ++ (fp ++ ep))

/-- A digit begins a number. -/
theorem scanToken_digit (hc : IsDigit c) (r : Bytes) :
    scanToken B c r = (scanNumber B false (c :: r)).getD (scanOther c r) := by
  have hne : ∀ b : UInt8, ¬ IsDigit b → c ≠ b := by
    rintro b hb rfl
    exact hb hc
  rw [scanToken, if_neg (hne _ (by decide)), if_neg (hne _ (by decide)),
    if_neg (hne _ (by decide)), if_neg (hne _ (by decide)), if_neg (hne _ (by decide)),
    if_neg (hne _ (by decide)), if_neg (hne _ (by decide)), if_neg (hne _ (by decide)),
    if_neg (hne _ (by decide)), if_neg (hne _ (by decide)), if_neg (hne _ (by decide))]
  cases scanNumber B false (c :: r) with
  | none => rfl
  | some x => rfl

/-- So does a minus. -/
theorem scanToken_minus (r : Bytes) :
    scanToken B (byte '-') r = (scanNumber B true r).getD (scanOther (byte '-') r) := by
  rw [scanToken, if_neg (by decide), if_neg (by decide), if_neg (by decide), if_neg (by decide),
    if_neg (by decide), if_neg (by decide), if_neg (by decide), if_neg (by decide),
    if_neg (by decide), if_neg (by decide), if_pos rfl]
  cases scanNumber B true r with
  | none => rfl
  | some x => rfl

theorem isWs_digit (hc : IsDigit c) : isWs c = false := by
  have hne : ∀ b : UInt8, ¬ IsDigit b → c ≠ b := by
    rintro b hb rfl
    exact hb hc
  rw [isWs, decide_eq_false (hne _ (by decide)), decide_eq_false (hne _ (by decide)),
    decide_eq_false (hne _ (by decide)), decide_eq_false (hne _ (by decide))]
  rfl

theorem IsNumber.proper (ht : IsNumber t) : t ≠ .eoi ∧ ∀ code, t ≠ .error code := by
  rcases ht with rfl | rfl | rfl
  · exact ⟨by decide, fun _ => by simp⟩
  · exact ⟨by decide, fun _ => by simp⟩
  · exact ⟨by decide, fun _ => by simp⟩

/-- A number is one token. -/
theorem lex_number {neg : Bool} (hn : NumberText neg ip fp ep)
    (hrest : Delim rest) (h : Lex B rest ts) :
    ∃ t, IsNumber t ∧ Lex B (numberText neg ip fp ep ++ rest) (t :: ts) := by
  obtain ⟨t, ht, hscan⟩ := scanNumber_append (B := B) hn hrest
  refine ⟨t, ht, ?_⟩
  rw [numberText, append_assoc, append_assoc, append_assoc]
  cases neg with
  | true =>
    refine lex_cons (by decide) ?_ ht.proper.1 ht.proper.2 h
    change scanToken B (byte '-') (ip ++ (fp ++ (ep ++ rest))) = (t, rest)
    rw [scanToken_minus, hscan, Option.getD_some]
  | false =>
    cases ip with
    | nil => exact absurd rfl hn.canonical.ne_nil
    | cons b ip =>
      have hb : IsDigit b := hn.canonical.digits b mem_cons_self
      refine lex_cons (isWs_digit hb) ?_ ht.proper.1 ht.proper.2 h
      rw [scanToken_digit hb]
      have hscan : scanNumber B false (b :: (ip ++ (fp ++ (ep ++ rest)))) = some (t, rest) := hscan
      change (scanNumber B false (b :: (ip ++ (fp ++ (ep ++ rest))))).getD _ = (t, rest)
      rw [hscan, Option.getD_some]

end PhpJson

/-!
# Numbers that the encoder writes

An integer, and a double as `php_gcvt` writes it, is a number for the scanner; so is one with the
zero that `PHP_JSON_PRESERVE_ZERO_FRACTION` adds.
-/

namespace PhpJson

open List

open PhpVar (Key text)
open Decimal

variable {B : Bool} {c : UInt8} {rest : Bytes} {t : Token} {ts : List Token}

/-- Some text of a number. -/
def IsNumberText (s : Bytes) : Prop :=
  ∃ neg ip fp ep, s = numberText neg ip fp ep ∧ NumberText neg ip fp ep

/-- A text of a number is one token. -/
theorem lex_isNumberText {s : Bytes} (hs : IsNumberText s) (hrest : Delim rest)
    (h : Lex B rest ts) : ∃ t, IsNumber t ∧ Lex B (s ++ rest) (t :: ts) := by
  obtain ⟨neg, ip, fp, ep, rfl, hn⟩ := hs
  exact lex_number hn hrest h

/-! ## Integers -/

theorem isNumberText_print (neg : Bool) (n : ℕ) :
    IsNumberText ((if neg then [byte '-'] else []) ++ Decimal.print n) := by
  refine ⟨neg, Decimal.print n, [], [], ?_, canonical_print n, .inl rfl, .inl rfl, fun _ => rfl⟩
  rw [numberText, append_nil, append_nil]

/-- Integers are numbers. -/
theorem isNumberText_printLong (v : BitVec 64) : IsNumberText (PhpVar.printLong v) := by
  rw [PhpVar.printLong]
  split
  · exact isNumberText_print true _
  · exact isNumberText_print false _

/-! ## Doubles -/

/-- One of the formats, without the sign. -/
def IsFormat (s : Bytes) : Prop :=
  ∃ ip fp ep, s = ip ++ (fp ++ ep) ∧ ∀ neg, NumberText neg ip fp ep

theorem isDigit_zero : IsDigit (byte '0') := by decide

/-- With an exponent. -/
theorem isFormat_gcvtExponential (d : Dtoa) : IsFormat (gcvtExponential d) := by
  rw [gcvtExponential]
  obtain ⟨b, ds, hd⟩ := exists_cons_of_ne_nil d.ne_nil
  have hdigits := d.isDigits
  rw [hd, forall_mem_cons] at hdigits
  have hfirst : Canonical [b] :=
    ⟨cons_ne_nil b [], forall_mem_singleton.mpr hdigits.1, fun _ => rfl⟩
  have hsign : ∀ n : ℤ, (if n < 0 then byte '-' else byte '+') = byte '+' ∨
      (if n < 0 then byte '-' else byte '+') = byte '-' := by
    intro n
    split
    · exact .inr rfl
    · exact .inl rfl
  refine ⟨[b], byte '.' :: (if ds = [] then [byte '0'] else ds),
    byte 'e' :: (if d.decpt - 1 < 0 then byte '-' else byte '+') :: print (d.decpt - 1).natAbs,
    ?_, fun neg => ⟨hfirst, .inr ⟨_, rfl, ?_, ?_⟩,
      .inr ⟨_, _, rfl, hsign _, print_ne_nil _, fun b hb => isDigit_of_mem_print hb⟩,
      fun h => absurd h (cons_ne_nil _ _)⟩⟩
  · rw [hd]
    rfl
  · split
    · exact cons_ne_nil _ _
    · assumption
  · split
    · exact forall_mem_singleton.mpr isDigit_zero
    · exact hdigits.2

/-- Below one. -/
theorem isFormat_gcvtSmall (d : Dtoa) : IsFormat (gcvtSmall d) := by
  refine ⟨[byte '0'], byte '.' :: (replicate d.decpt.natAbs (byte '0') ++ d.digits), [], ?_,
    fun neg => ⟨⟨by decide, forall_mem_singleton.mpr isDigit_zero, fun _ => rfl⟩,
      .inr ⟨_, rfl, ?_, ?_⟩, .inl rfl, fun _ => rfl⟩⟩
  · rw [append_nil]
    rfl
  · exact append_ne_nil_of_right_ne_nil _ d.ne_nil
  · intro b hb
    rcases mem_append.mp hb with hb | hb
    · rw [eq_of_mem_replicate hb]
      exact isDigit_zero
    · exact d.isDigits b hb

/-- The digits in front of the point, when there are some. -/
theorem canonical_front (d : Dtoa) {n : ℕ} (hn : n ≠ 0) (hdecpt : d.decpt.toNat = n) :
    Canonical (d.digits.take n ++ replicate (n - d.digits.length) (byte '0')) := by
  obtain ⟨b, ds, hd⟩ := exists_cons_of_ne_nil d.ne_nil
  obtain ⟨k, rfl⟩ := Nat.exists_eq_succ_of_ne_zero hn
  have hdigits := d.isDigits
  have hcanonical := d.canonical
  rw [hd] at hdigits hcanonical ⊢
  refine ⟨cons_ne_nil _ _, ?_, ?_⟩
  · intro c hc
    rcases mem_append.mp hc with hc | hc
    · exact hdigits c (mem_of_mem_take hc)
    · rw [eq_of_mem_replicate hc]
      exact isDigit_zero
  · intro hhead
    obtain ⟨hds, hone⟩ := hcanonical hhead
    have hk : k = 0 := by
      omega
    rw [hk, hds]
    rfl

/-- With a point, or without. -/
theorem isFormat_gcvtStandard (d : Dtoa) : IsFormat (gcvtStandard d) := by
  rw [gcvtStandard]
  have hdrop : ∀ b ∈ d.digits.drop d.decpt.toNat, IsDigit b :=
    fun b hb => d.isDigits b (mem_of_mem_drop hb)
  by_cases hn : d.decpt.toNat = 0
  · -- no digit in front of the point
    rw [hn, drop_zero, if_neg d.ne_nil, Nat.zero_sub]
    exact ⟨[byte '0'], byte '.' :: d.digits, [], by rw [append_nil]; rfl,
      fun neg => ⟨⟨by decide, forall_mem_singleton.mpr isDigit_zero, fun _ => rfl⟩,
        .inr ⟨_, rfl, d.ne_nil, d.isDigits⟩, .inl rfl, fun _ => rfl⟩⟩
  · have hfront := canonical_front d hn rfl
    rw [if_neg hn, nil_append, ← append_assoc]
    split
    · exact ⟨_, [], [], rfl, fun neg => ⟨hfront, .inl rfl, .inl rfl, fun _ => rfl⟩⟩
    · rename_i hne
      exact ⟨_, _, [], by rw [append_nil], fun neg =>
        ⟨hfront, .inr ⟨_, rfl, hne, hdrop⟩, .inl rfl, fun _ => rfl⟩⟩

/-- **What `php_gcvt` writes.** -/
theorem gcvt_eq (precision : ℤ) (d : Dtoa) :
    ∃ s, gcvt precision d = (if d.sign then [byte '-'] else []) ++ s ∧ IsFormat s := by
  refine ⟨_, rfl, ?_⟩
  generalize (if 0 ≤ precision then precision else 17) = ndigit
  split
  · exact isFormat_gcvtExponential d
  · split
    · exact isFormat_gcvtSmall d
    · exact isFormat_gcvtStandard d

/-- What is written for a floating point number is a number. -/
theorem isNumberText_encodeDouble (S : Settings) (o : Options) (d : Dtoa) :
    IsNumberText (encodeDouble S o d) := by
  obtain ⟨s, hs, ip, fp, ep, rfl, hform⟩ := gcvt_eq S.precision d
  rw [encodeDouble, hs]
  generalize hsign : (if d.sign then [byte '-'] else []) = sign
  split
  · rename_i hadd
    have hfp : fp = [] := by
      rcases (hform true).fraction with hnil | ⟨ds, rfl, -⟩
      · exact hnil
      · exact absurd (by simp) hadd.2.1
    have hep := (hform true).behind hfp
    refine ⟨d.sign, ip, [byte '.', byte '0'], [], ?_, (hform true).canonical,
      .inr ⟨[byte '0'], rfl, by decide, forall_mem_singleton.mpr isDigit_zero⟩, .inl rfl,
      fun _ => rfl⟩
    rw [numberText, hsign, hfp, hep, append_nil, append_nil, append_nil, append_assoc]
  · exact ⟨d.sign, ip, fp, ep, by rw [numberText, hsign], hform d.sign⟩

end PhpJson
