/-
# The next character of a text

`get_next_char` takes one character of a charset off a text.  Where none begins it says how many
bytes are to be skipped.  For UTF-8 it is the decoder of `json_encode`, and it is compared here with
the encoding of characters.
-/
import Mathlib
import ReadingCode.JsonEncoder

namespace PhpHtml

open List
open UInt8 (le_iff_toNat_le lt_iff_toNat_lt reduceToNat)

open PhpJson

/-- `enum entity_charset`, without the number of its members. -/
inductive EntityCharset
  | utf8
  | iso88591
  | cp1252
  | iso885915
  | cp1251
  | iso88595
  | cp866
  | macroman
  | koi8r
  | big5
  | gb2312
  | big5hkscs
  | sjis
  | eucjp

/-- The character that is returned, the cursor behind it, and whether the status is `SUCCESS`. -/
structure Next where
  thisChar : ℕ
  cursor : ℕ
  success : Bool

/-- `MB_FAILURE` -/
def mbFailure (pos advance : ℕ) : Next := ⟨0, pos + advance, false⟩

/-- `utf8_lead` -/
def utf8Lead (c : UInt8) : Bool := c < 0x80 ∨ (0xc2 ≤ c ∧ c ≤ 0xf4)

/-- `gb2312_lead` and `gb2312_trail` -/
def gb2312Lead (c : UInt8) : Bool := c ≠ 0x8e ∧ c ≠ 0x8f ∧ c ≠ 0xa0 ∧ c ≠ 0xff

def gb2312Trail (c : UInt8) : Bool := 0xa1 ≤ c ∧ c ≤ 0xfe

/-- `sjis_lead` and `sjis_trail` -/
def sjisLead (c : UInt8) : Bool := c ≠ 0x80 ∧ c ≠ 0xa0 ∧ c < 0xfd

def sjisTrail (c : UInt8) : Bool := 0x40 ≤ c ∧ c ≠ 0x7f ∧ c < 0xfd

section Charsets

/-! The text from the cursor on is `s`, so that `s[i]` is `str[pos + i]`, and its length is what is
left. -/

variable (s : Bytes) (pos : ℕ)

/-- `str[pos + i]` -/
abbrev byteAt (i : ℕ) : UInt8 := s.getD i 0

/-- The case `cs_utf_8`. -/
def nextUtf8 : Next :=
  let c := byteAt s 0
  if c < 0x80 then ⟨c.toNat, pos + 1, true⟩
  else if c < 0xc2 then mbFailure pos 1
  else if c < 0xe0 then
    if s.length < 2 then mbFailure pos 1
    else if ¬ utf8Trail (byteAt s 1) then mbFailure pos (if utf8Lead (byteAt s 1) then 1 else 2)
    else
      let thisChar := c.toNat % 32 * 64 + (byteAt s 1).toNat % 64
      if thisChar < 0x80 then mbFailure pos 2 else ⟨thisChar, pos + 2, true⟩
  else if c < 0xf0 then
    let avail := s.length
    if avail < 3 ∨ ¬ utf8Trail (byteAt s 1) ∨ ¬ utf8Trail (byteAt s 2) then
      if avail < 2 ∨ utf8Lead (byteAt s 1) then mbFailure pos 1
      else if avail < 3 ∨ utf8Lead (byteAt s 2) then mbFailure pos 2
      else mbFailure pos 3
    else
      let thisChar := c.toNat % 16 * 4096 + (byteAt s 1).toNat % 64 * 64 + (byteAt s 2).toNat % 64
      if thisChar < 0x800 then mbFailure pos 3
      else if 0xd800 ≤ thisChar ∧ thisChar ≤ 0xdfff then mbFailure pos 3
      else ⟨thisChar, pos + 3, true⟩
  else if c < 0xf5 then
    let avail := s.length
    if avail < 4 ∨ ¬ utf8Trail (byteAt s 1) ∨ ¬ utf8Trail (byteAt s 2) ∨
        ¬ utf8Trail (byteAt s 3) then
      if avail < 2 ∨ utf8Lead (byteAt s 1) then mbFailure pos 1
      else if avail < 3 ∨ utf8Lead (byteAt s 2) then mbFailure pos 2
      else if avail < 4 ∨ utf8Lead (byteAt s 3) then mbFailure pos 3
      else mbFailure pos 4
    else
      let thisChar := c.toNat % 8 * 262144 + (byteAt s 1).toNat % 64 * 4096 +
        (byteAt s 2).toNat % 64 * 64 + (byteAt s 3).toNat % 64
      if thisChar < 0x10000 ∨ 0x10ffff < thisChar then mbFailure pos 4
      else ⟨thisChar, pos + 4, true⟩
  else mbFailure pos 1

/-- A character of two bytes. -/
def doubleByte : Next := ⟨(byteAt s 0).toNat * 256 + (byteAt s 1).toNat, pos + 2, true⟩

/-- A character of one byte. -/
def singleByte : Next := ⟨(byteAt s 0).toNat, pos + 1, true⟩

/-- The case `cs_big5`. -/
def nextBig5 : Next :=
  let c := byteAt s 0
  if 0x81 ≤ c ∧ c ≤ 0xfe then
    if s.length < 2 then mbFailure pos 1
    else
      let next := byteAt s 1
      if (0x40 ≤ next ∧ next ≤ 0x7e) ∨ (0xa1 ≤ next ∧ next ≤ 0xfe) then doubleByte s pos
      else mbFailure pos 1
  else singleByte s pos

/-- The case `cs_big5hkscs`. -/
def nextBig5hkscs : Next :=
  let c := byteAt s 0
  if 0x81 ≤ c ∧ c ≤ 0xfe then
    if s.length < 2 then mbFailure pos 1
    else
      let next := byteAt s 1
      if (0x40 ≤ next ∧ next ≤ 0x7e) ∨ (0xa1 ≤ next ∧ next ≤ 0xfe) then doubleByte s pos
      else if next ≠ 0x80 ∧ next ≠ 0xff then mbFailure pos 1
      else mbFailure pos 2
  else singleByte s pos

/-- The case `cs_gb2312`. -/
def nextGb2312 : Next :=
  let c := byteAt s 0
  if 0xa1 ≤ c ∧ c ≤ 0xfe then
    if s.length < 2 then mbFailure pos 1
    else
      let next := byteAt s 1
      if gb2312Trail next then doubleByte s pos
      else if gb2312Lead next then mbFailure pos 1
      else mbFailure pos 2
  else if gb2312Lead c then singleByte s pos
  else mbFailure pos 1

/-- The case `cs_sjis`. -/
def nextSjis : Next :=
  let c := byteAt s 0
  if (0x81 ≤ c ∧ c ≤ 0x9f) ∨ (0xe0 ≤ c ∧ c ≤ 0xfc) then
    if s.length < 2 then mbFailure pos 1
    else
      let next := byteAt s 1
      if sjisTrail next then doubleByte s pos
      else if sjisLead next then mbFailure pos 1
      else mbFailure pos 2
  else if c < 0x80 ∨ (0xa1 ≤ c ∧ c ≤ 0xdf) then singleByte s pos
  else mbFailure pos 1

/-- The case `cs_eucjp`. -/
def nextEucjp : Next :=
  let c := byteAt s 0
  let next := byteAt s 1
  if 0xa1 ≤ c ∧ c ≤ 0xfe then
    if s.length < 2 then mbFailure pos 1
    -- a kanji
    else if 0xa1 ≤ next ∧ next ≤ 0xfe then doubleByte s pos
    else mbFailure pos (if next ≠ 0xa0 ∧ next ≠ 0xff then 1 else 2)
  else if c = 0x8e then
    if s.length < 2 then mbFailure pos 1
    -- a kana
    else if 0xa1 ≤ next ∧ next ≤ 0xdf then doubleByte s pos
    else mbFailure pos (if next ≠ 0xa0 ∧ next ≠ 0xff then 1 else 2)
  else if c = 0x8f then
    let avail := s.length
    if avail < 3 ∨ ¬ (0xa1 ≤ next ∧ next ≤ 0xfe) ∨ ¬ (0xa1 ≤ byteAt s 2 ∧ byteAt s 2 ≤ 0xfe) then
      if avail < 2 ∨ (next ≠ 0xa0 ∧ next ≠ 0xff) then mbFailure pos 1
      else if avail < 3 ∨ (byteAt s 2 ≠ 0xa0 ∧ byteAt s 2 ≠ 0xff) then mbFailure pos 2
      else mbFailure pos 3
    else ⟨c.toNat * 65536 + next.toNat * 256 + (byteAt s 2).toNat, pos + 3, true⟩
  else if c ≠ 0xa0 ∧ c ≠ 0xff then singleByte s pos
  else mbFailure pos 1

end Charsets

/-- `get_next_char` -/
def getNextChar (charset : EntityCharset) (str : Bytes) (pos : ℕ) : Next :=
  let s := str.drop pos
  if s.length < 1 then mbFailure pos 1
  else
    match charset with
    | .utf8 => nextUtf8 s pos
    | .big5 => nextBig5 s pos
    | .big5hkscs => nextBig5hkscs s pos
    | .gb2312 => nextGb2312 s pos
    | .sjis => nextSjis s pos
    | .eucjp => nextEucjp s pos
    | _ => singleByte s pos

/-- `php_next_utf8_char` -/
def phpNextUtf8Char (str : Bytes) (pos : ℕ) : Next := getNextChar .utf8 str pos

/-! ## How far an error goes -/

/-- What follows an error: it skips at least one byte, and none behind the text. -/
def Skips (s : Bytes) (pos : ℕ) (n : Next) : Prop :=
  n.success = false → pos < n.cursor ∧ n.cursor ≤ pos + s.length

variable {s : Bytes} {pos : ℕ}

theorem skips_mbFailure {k : ℕ} (hpos : 0 < k) (hle : k ≤ s.length) :
    Skips s pos (mbFailure pos k) :=
  fun _ => ⟨Nat.lt_add_of_pos_right hpos, Nat.add_le_add_left hle pos⟩

theorem skips_success {c cursor : ℕ} : Skips s pos ⟨c, cursor, true⟩ := nofun

variable {p : Prop} {n n' : Next}

theorem skips_ite [Decidable p] (h : p → Skips s pos n)
    (h' : ¬ p → Skips s pos n') : Skips s pos (if p then n else n') := by
  split
  · exact h ‹_›
  · exact h' ‹_›

theorem skips_choice [Decidable p] (hlen : 2 ≤ s.length) :
    Skips s pos (mbFailure pos (if p then 1 else 2)) := by
  split
  · exact skips_mbFailure Nat.one_pos (by omega)
  · exact skips_mbFailure Nat.two_pos hlen

section

variable (hs : 1 ≤ s.length)

include hs

theorem skips_one : Skips s pos (mbFailure pos 1) := skips_mbFailure Nat.one_pos hs

theorem skips_nextUtf8 : Skips s pos (nextUtf8 s pos) := by
  refine skips_ite (fun _ => skips_success) fun _ => skips_ite (fun _ => skips_one hs) fun _ =>
    skips_ite (fun _ => ?_) fun _ => skips_ite (fun _ => ?_) fun _ => skips_ite (fun _ => ?_)
      fun _ => skips_one hs
  · refine skips_ite (fun _ => skips_one hs) fun hlen => skips_ite
      (fun _ => skips_choice (by omega)) fun _ => skips_ite (fun _ => ?_) fun _ => skips_success
    exact skips_mbFailure Nat.two_pos (by omega)
  · refine skips_ite (fun _ => ?_) fun h => skips_ite (fun _ => ?_) fun _ =>
      skips_ite (fun _ => ?_) fun _ => skips_success
    · refine skips_ite (fun _ => skips_one hs) fun h2 => skips_ite (fun _ => ?_) fun h3 => ?_
      · exact skips_mbFailure Nat.two_pos (le_of_not_gt fun h => h2 (.inl h))
      · exact skips_mbFailure (by decide) (le_of_not_gt fun h => h3 (.inl h))
    · exact skips_mbFailure (by decide) (le_of_not_gt fun h3 => h (.inl h3))
    · exact skips_mbFailure (by decide) (le_of_not_gt fun h3 => h (.inl h3))
  · refine skips_ite (fun _ => ?_) fun h => skips_ite (fun _ => ?_) fun _ => skips_success
    · refine skips_ite (fun _ => skips_one hs) fun h2 => skips_ite (fun _ => ?_) fun h3 =>
        skips_ite (fun _ => ?_) fun h4 => ?_
      · exact skips_mbFailure Nat.two_pos (le_of_not_gt fun h => h2 (.inl h))
      · exact skips_mbFailure (by decide) (le_of_not_gt fun h => h3 (.inl h))
      · exact skips_mbFailure (by decide) (le_of_not_gt fun h => h4 (.inl h))
    · exact skips_mbFailure (by decide) (le_of_not_gt fun h4 => h (.inl h4))

theorem skips_nextBig5 : Skips s pos (nextBig5 s pos) := by
  exact skips_ite (fun _ => skips_ite (fun _ => skips_one hs) fun _ =>
    skips_ite (fun _ => skips_success) fun _ => skips_one hs) fun _ => skips_success

theorem skips_nextBig5hkscs : Skips s pos (nextBig5hkscs s pos) := by
  refine skips_ite (fun _ => skips_ite (fun _ => skips_one hs) fun hlen =>
    skips_ite (fun _ => skips_success) fun _ => skips_ite (fun _ => skips_one hs) fun _ => ?_)
    fun _ => skips_success
  exact skips_mbFailure Nat.two_pos (by omega)

theorem skips_nextGb2312 : Skips s pos (nextGb2312 s pos) := by
  refine skips_ite (fun _ => skips_ite (fun _ => skips_one hs) fun hlen =>
    skips_ite (fun _ => skips_success) fun _ => skips_ite (fun _ => skips_one hs) fun _ => ?_)
    fun _ => skips_ite (fun _ => skips_success) fun _ => skips_one hs
  exact skips_mbFailure Nat.two_pos (by omega)

theorem skips_nextSjis : Skips s pos (nextSjis s pos) := by
  refine skips_ite (fun _ => skips_ite (fun _ => skips_one hs) fun hlen =>
    skips_ite (fun _ => skips_success) fun _ => skips_ite (fun _ => skips_one hs) fun _ => ?_)
    fun _ => skips_ite (fun _ => skips_success) fun _ => skips_one hs
  exact skips_mbFailure Nat.two_pos (by omega)

theorem skips_nextEucjp : Skips s pos (nextEucjp s pos) := by
  refine skips_ite (fun _ => ?_) fun _ => skips_ite (fun _ => ?_) fun _ => skips_ite (fun _ => ?_)
    fun _ => skips_ite (fun _ => skips_success) fun _ => skips_one hs
  · exact skips_ite (fun _ => skips_one hs) fun hlen => skips_ite (fun _ => skips_success)
      fun _ => skips_choice (by omega)
  · exact skips_ite (fun _ => skips_one hs) fun hlen => skips_ite (fun _ => skips_success)
      fun _ => skips_choice (by omega)
  · refine skips_ite (fun _ => ?_) fun _ => skips_success
    refine skips_ite (fun _ => skips_one hs) fun h2 => skips_ite (fun _ => ?_) fun h3 => ?_
    · exact skips_mbFailure Nat.two_pos (le_of_not_gt fun h => h2 (.inl h))
    · exact skips_mbFailure (by decide) (le_of_not_gt fun h => h3 (.inl h))

end

variable {str : Bytes}

/-- In every charset an error skips at least one byte and none behind the text. -/
theorem getNextChar_skips (charset : EntityCharset) (hpos : pos < str.length)
    (h : (getNextChar charset str pos).success = false) :
    pos < (getNextChar charset str pos).cursor ∧
      (getNextChar charset str pos).cursor ≤ str.length := by
  have hlen : (str.drop pos).length = str.length - pos := length_drop
  have hs : 1 ≤ (str.drop pos).length := by omega
  have hskips : Skips (str.drop pos) pos (getNextChar charset str pos) := by
    unfold getNextChar
    rw [if_neg (by omega)]
    cases charset with
    | utf8 => exact skips_nextUtf8 hs
    | big5 => exact skips_nextBig5 hs
    | big5hkscs => exact skips_nextBig5hkscs hs
    | gb2312 => exact skips_nextGb2312 hs
    | sjis => exact skips_nextSjis hs
    | eucjp => exact skips_nextEucjp hs
    | _ => exact skips_success
  have hbounds := hskips h
  omega

/-! ## The encoding of characters -/

section Encoding

variable {ch : Char} {us : ℕ} {c : UInt8} {r r' : Bytes}

theorem encode_one (h : ch.toNat ≤ 0x7f) : String.utf8EncodeChar ch = [UInt8.ofNat ch.toNat] := by
  exact if_pos h

theorem encode_two (h : ¬ ch.toNat ≤ 0x7f) (h' : ch.toNat ≤ 0x7ff) : String.utf8EncodeChar ch =
      [UInt8.ofNat (ch.toNat / 64 % 32 + 192), UInt8.ofNat (ch.toNat % 64 + 128)] := by
  exact (if_neg h).trans (if_pos h')

theorem encode_three (h : ¬ ch.toNat ≤ 0x7ff) (h' : ch.toNat ≤ 0xffff) : String.utf8EncodeChar ch =
      [UInt8.ofNat (ch.toNat / 4096 % 16 + 224), UInt8.ofNat (ch.toNat / 64 % 64 + 128),
        UInt8.ofNat (ch.toNat % 64 + 128)] := by
  have hone : ¬ ch.toNat ≤ 0x7f := by omega
  exact ((if_neg hone).trans (if_neg h)).trans (if_pos h')

theorem encode_four (h : ¬ ch.toNat ≤ 0xffff) : String.utf8EncodeChar ch =
      [UInt8.ofNat (ch.toNat / 262144 % 8 + 240), UInt8.ofNat (ch.toNat / 4096 % 64 + 128),
        UInt8.ofNat (ch.toNat / 64 % 64 + 128), UInt8.ofNat (ch.toNat % 64 + 128)] := by
  have hone : ¬ ch.toNat ≤ 0x7f := by omega
  have htwo : ¬ ch.toNat ≤ 0x7ff := by omega
  exact ((if_neg hone).trans (if_neg htwo)).trans (if_neg h)

theorem toNat_lt (ch : Char) : ch.toNat < 0x110000 ∧ ¬ (0xd800 ≤ ch.toNat ∧ ch.toNat ≤ 0xdfff) := by
  have hvalid : ch.toNat < 0xd800 ∨ 0xdfff < ch.toNat ∧ ch.toNat < 0x110000 := ch.valid
  omega

/-- A number that is no surrogate and not too large is a character. -/
theorem exists_char {u : ℕ} (hlt : u < 0x110000) (hno : ¬ (0xd800 ≤ u ∧ u ≤ 0xdfff)) :
    ∃ ch : Char, ch.toNat = u := by
  have hvalid : u.isValidChar := by
    omega
  exact ⟨Char.ofNatAux u hvalid, rfl⟩

theorem toNat_byte {n : ℕ} (h : n < 256) : (UInt8.ofNat n).toNat = n := UInt8.toNat_ofNat_of_lt' h

theorem utf8Trail_ofNat {n : ℕ} (hn : n < 64) : utf8Trail (UInt8.ofNat (n + 128)) = true := by
  have hall : ∀ n < 64, utf8Trail (UInt8.ofNat (n + 128)) = true := by decide
  exact hall n hn

/-- What is encoded is read. -/
theorem nextUtf8Char_encode (ch : Char) (r : Bytes) :
    nextUtf8Char (String.utf8EncodeChar ch ++ r) = some (ch.toNat, r) := by
  obtain ⟨hlt, hno⟩ := toNat_lt ch
  by_cases h1 : ch.toNat ≤ 0x7f
  · have hc : (UInt8.ofNat ch.toNat).toNat = ch.toNat := toNat_byte (by omega)
    rw [encode_one h1, singleton_append, nextUtf8Char_ascii, hc]
    rw [lt_iff_toNat_lt, hc]
    exact Nat.lt_succ_of_le h1
  by_cases h2 : ch.toNat ≤ 0x7ff
  · have hc : (UInt8.ofNat (ch.toNat / 64 % 32 + 192)).toNat = ch.toNat / 64 % 32 + 192 :=
      toNat_byte (by omega)
    have hc1 : (UInt8.ofNat (ch.toNat % 64 + 128)).toNat = ch.toNat % 64 + 128 :=
      toNat_byte (by omega)
    rw [encode_two h1 h2, cons_append, singleton_append, nextUtf8Char]
    simp only [lt_iff_toNat_lt, reduceToNat, hc]
    rw [if_neg (by omega), if_neg (by omega), if_pos (by omega), utf8Two]
    rw [if_pos ⟨utf8Trail_ofNat (Nat.mod_lt _ (by decide)), by omega⟩]
    congr 2
    omega
  by_cases h3 : ch.toNat ≤ 0xffff
  · have hc : (UInt8.ofNat (ch.toNat / 4096 % 16 + 224)).toNat = ch.toNat / 4096 % 16 + 224 :=
      toNat_byte (by omega)
    have hc1 : (UInt8.ofNat (ch.toNat / 64 % 64 + 128)).toNat = ch.toNat / 64 % 64 + 128 :=
      toNat_byte (by omega)
    have hc2 : (UInt8.ofNat (ch.toNat % 64 + 128)).toNat = ch.toNat % 64 + 128 :=
      toNat_byte (by omega)
    rw [encode_three h2 h3, cons_append, cons_append, singleton_append, nextUtf8Char]
    simp only [lt_iff_toNat_lt, reduceToNat, hc]
    rw [if_neg (by omega), if_neg (by omega), if_neg (by omega), if_pos (by omega), utf8Three]
    rw [if_pos ⟨utf8Trail_ofNat (Nat.mod_lt _ (by decide)),
      utf8Trail_ofNat (Nat.mod_lt _ (by decide)), by omega, by omega⟩]
    congr 2
    omega
  · have hc : (UInt8.ofNat (ch.toNat / 262144 % 8 + 240)).toNat = ch.toNat / 262144 % 8 + 240 :=
      toNat_byte (by omega)
    have hc1 : (UInt8.ofNat (ch.toNat / 4096 % 64 + 128)).toNat = ch.toNat / 4096 % 64 + 128 :=
      toNat_byte (by omega)
    have hc2 : (UInt8.ofNat (ch.toNat / 64 % 64 + 128)).toNat = ch.toNat / 64 % 64 + 128 :=
      toNat_byte (by omega)
    have hc3 : (UInt8.ofNat (ch.toNat % 64 + 128)).toNat = ch.toNat % 64 + 128 :=
      toNat_byte (by omega)
    rw [encode_four h3, cons_append, cons_append, cons_append, singleton_append, nextUtf8Char]
    simp only [lt_iff_toNat_lt, reduceToNat, hc]
    rw [if_neg (by omega), if_neg (by omega), if_neg (by omega), if_neg (by omega),
      if_pos (by omega), utf8Four]
    rw [if_pos ⟨utf8Trail_ofNat (Nat.mod_lt _ (by decide)),
      utf8Trail_ofNat (Nat.mod_lt _ (by decide)), utf8Trail_ofNat (Nat.mod_lt _ (by decide)),
      by omega⟩]
    congr 2
    omega

/-- A byte that has the number of another one is this one. -/
theorem eq_ofNat {b : UInt8} {n : ℕ} (h : b.toNat = n) : b = UInt8.ofNat n := by
  rw [← h, UInt8.ofNat_toNat]

/-- What is read is the encoding of the character. -/
theorem encode_of_nextUtf8Char (h : nextUtf8Char s = some (us, r')) :
    ∃ ch : Char, us = ch.toNat ∧ s = String.utf8EncodeChar ch ++ r' := by
  match s with
  | [] => cases h
  | c :: r =>
    rcases ite_eq_iff.mp h with ⟨h80, h⟩ | ⟨h80, h⟩
    · cases h
      simp only [lt_iff_toNat_lt, reduceToNat] at h80
      obtain ⟨ch, hch⟩ := exists_char (u := c.toNat) (by omega) (by omega)
      rw [← hch]
      refine ⟨ch, rfl, ?_⟩
      rw [encode_one (by omega), hch, UInt8.ofNat_toNat, singleton_append]
    rcases ite_eq_iff.mp h with ⟨-, h⟩ | ⟨hc2, h⟩
    · cases h
    simp only [lt_iff_toNat_lt, reduceToNat] at hc2
    rcases ite_eq_iff.mp h with ⟨he0, h⟩ | ⟨he0, h⟩
    · simp only [lt_iff_toNat_lt, reduceToNat] at he0
      match r with
      | [] => cases h
      | c1 :: r =>
        rcases ite_eq_iff.mp h with ⟨⟨h1, -⟩, h⟩ | ⟨-, h⟩
        · cases h
          have h1 := utf8Trail_iff.mp h1
          simp only [le_iff_toNat_le, reduceToNat] at h1
          obtain ⟨ch, hch⟩ := exists_char (u := c.toNat % 32 * 64 + c1.toNat % 64) (by omega)
            (by omega)
          rw [← hch]
          refine ⟨ch, rfl, ?_⟩
          rw [encode_two (by omega) (by omega), ← eq_ofNat (b := c) (by omega),
            ← eq_ofNat (b := c1) (by omega)]
          rfl
        · cases h
    rcases ite_eq_iff.mp h with ⟨hf0, h⟩ | ⟨hf0, h⟩
    · simp only [lt_iff_toNat_lt, reduceToNat] at he0 hf0
      obtain _ | ⟨c1, _ | ⟨c2, r⟩⟩ := r
      · cases h
      · cases h
      · rcases ite_eq_iff.mp h with ⟨⟨h1, h2, hlong, hsur⟩, h⟩ | ⟨-, h⟩
        · cases h
          have h1 := utf8Trail_iff.mp h1
          have h2 := utf8Trail_iff.mp h2
          simp only [le_iff_toNat_le, reduceToNat] at h1 h2
          obtain ⟨ch, hch⟩ := exists_char
            (u := c.toNat % 16 * 4096 + c1.toNat % 64 * 64 + c2.toNat % 64) (by omega) hsur
          rw [← hch]
          refine ⟨ch, rfl, ?_⟩
          rw [encode_three (by omega) (by omega), ← eq_ofNat (b := c) (by omega),
            ← eq_ofNat (b := c1) (by omega), ← eq_ofNat (b := c2) (by omega)]
          rfl
        · cases h
    rcases ite_eq_iff.mp h with ⟨hf5, h⟩ | ⟨-, h⟩
    · simp only [lt_iff_toNat_lt, reduceToNat] at hf0 hf5
      obtain _ | ⟨c1, _ | ⟨c2, _ | ⟨c3, r⟩⟩⟩ := r
      · cases h
      · cases h
      · cases h
      · rcases ite_eq_iff.mp h with ⟨⟨h1, h2, h3, hrange⟩, h⟩ | ⟨-, h⟩
        · cases h
          have h1 := utf8Trail_iff.mp h1
          have h2 := utf8Trail_iff.mp h2
          have h3 := utf8Trail_iff.mp h3
          simp only [le_iff_toNat_le, reduceToNat] at h1 h2 h3
          obtain ⟨ch, hch⟩ := exists_char (u := c.toNat % 8 * 262144 + c1.toNat % 64 * 4096 +
            c2.toNat % 64 * 64 + c3.toNat % 64) (by omega) (by omega)
          rw [← hch]
          refine ⟨ch, rfl, ?_⟩
          rw [encode_four (by omega), ← eq_ofNat (b := c) (by omega),
            ← eq_ofNat (b := c1) (by omega), ← eq_ofNat (b := c2) (by omega),
            ← eq_ofNat (b := c3) (by omega)]
          rfl
        · cases h
    · cases h

end Encoding

/-! ## What is read of UTF-8 -/

/-- The character that is returned is the one that `php_next_utf8_char` reads, and the cursor is
behind it; an error is one of it, too. -/
def Decodes (s : Bytes) (pos : ℕ) (n : Next) : Prop :=
  match n with
  | ⟨us, cursor, true⟩ =>
    ∃ taken rest, s = taken ++ rest ∧ cursor = pos + taken.length ∧ nextUtf8Char s = some (us, rest)
  | ⟨_, _, false⟩ => nextUtf8Char s = none

theorem decodes_failure (k : ℕ) (h : nextUtf8Char s = none) : Decodes s pos (mbFailure pos k) := h

theorem decodes_ite [Decidable p] (h : p → Decodes s pos n)
    (h' : ¬ p → Decodes s pos n') : Decodes s pos (if p then n else n') := by
  split
  · exact h ‹_›
  · exact h' ‹_›

/-- What is skipped of an incomplete character of three bytes, and of four bytes. -/
theorem decodes_three {p' : Prop} [Decidable p] [Decidable p'] (h : nextUtf8Char s = none) :
    Decodes s pos (if p then mbFailure pos 1 else if p' then mbFailure pos 2
      else mbFailure pos 3) :=
  decodes_ite (fun _ => decodes_failure 1 h) fun _ => decodes_ite (fun _ => decodes_failure 2 h)
    fun _ => decodes_failure 3 h

theorem decodes_four {p' q : Prop} [Decidable p] [Decidable p'] [Decidable q]
    (h : nextUtf8Char s = none) :
    Decodes s pos (if p then mbFailure pos 1 else if p' then mbFailure pos 2
      else if q then mbFailure pos 3 else mbFailure pos 4) :=
  decodes_ite (fun _ => decodes_failure 1 h) fun _ => decodes_ite (fun _ => decodes_failure 2 h)
    fun _ => decodes_ite (fun _ => decodes_failure 3 h) fun _ => decodes_failure 4 h

theorem utf8Four_none {c : UInt8} {r : Bytes}
    (h : (c :: r).length < 4 ∨ ¬ utf8Trail (byteAt (c :: r) 1) ∨ ¬ utf8Trail (byteAt (c :: r) 2) ∨
      ¬ utf8Trail (byteAt (c :: r) 3)) : utf8Four c r = none := by
  match r with
  | [] => rfl
  | [_] => rfl
  | [_, _] => rfl
  | c1 :: c2 :: c3 :: r =>
    exact if_neg fun h' => h.elim (by simp) fun h => h.elim (fun h => h h'.1) fun h =>
      h.elim (fun h => h h'.2.1) fun h => h h'.2.2.1

theorem exists_three {c : UInt8} {r : Bytes} (h : ¬ (c :: r).length < 4) :
    ∃ c1 c2 c3 r', r = c1 :: c2 :: c3 :: r' := by
  match r with
  | [] => exact absurd (by simp) h
  | [_] => exact absurd (by simp) h
  | [_, _] => exact absurd (by simp) h
  | c1 :: c2 :: c3 :: r' => exact ⟨c1, c2, c3, r', rfl⟩

theorem decodes_nextUtf8 (c : UInt8) (r : Bytes) :
    Decodes (c :: r) pos (nextUtf8 (c :: r) pos) := by
  refine decodes_ite (fun h80 => ?_) fun h80 => decodes_ite (fun hc2 => ?_) fun hc2 =>
    decodes_ite (fun he0 => ?_) fun he0 => decodes_ite (fun hf0 => ?_) fun hf0 =>
    decodes_ite (fun hf5 => ?_) fun hf5 => ?_
  · exact ⟨[c], r, rfl, rfl, nextUtf8Char_ascii h80 r⟩
  · exact decodes_failure 1 ((if_neg h80).trans (if_pos hc2))
  · have hread : nextUtf8Char (c :: r) = utf8Two c r :=
      ((if_neg h80).trans (if_neg hc2)).trans (if_pos he0)
    match r with
    | [] => exact decodes_failure 1 hread
    | c1 :: r =>
      refine decodes_ite (fun hlen => absurd hlen (by simp)) fun _ => decodes_ite (fun htrail => ?_)
        fun htrail => decodes_ite (fun hlong => ?_) fun hlong => ?_
      · exact decodes_failure _ (hread.trans (if_neg fun h => htrail h.1))
      · exact decodes_failure 2 (hread.trans (if_neg fun h => h.2 hlong))
      · exact ⟨[c, c1], r, rfl, rfl, hread.trans (if_pos ⟨not_not.mp htrail, hlong⟩)⟩
  · have hread : nextUtf8Char (c :: r) = utf8Three c r :=
      (((if_neg h80).trans (if_neg hc2)).trans (if_neg he0)).trans (if_pos hf0)
    match r with
    | [] => exact decodes_ite (fun _ => decodes_three hread) fun h => (h (.inl (by simp))).elim
    | [_] => exact decodes_ite (fun _ => decodes_three hread) fun h => (h (.inl (by simp))).elim
    | c1 :: c2 :: r =>
      refine decodes_ite (fun h => ?_) fun h => decodes_ite (fun hlong => ?_) fun hlong =>
        decodes_ite (fun hsur => ?_) fun hsur => ?_
      · have hnone : utf8Three c (c1 :: c2 :: r) = none := if_neg fun h' => h.elim (by simp)
          fun h => h.elim (fun h => h h'.1) fun h => h h'.2.1
        exact decodes_three (hread.trans hnone)
      · exact decodes_failure 3 (hread.trans (if_neg fun h => h.2.2.1 hlong))
      · exact decodes_failure 3 (hread.trans (if_neg fun h => h.2.2.2 hsur))
      · obtain ⟨-, h⟩ := not_or.mp h
        obtain ⟨h1, h2⟩ := not_or.mp h
        exact ⟨[c, c1, c2], r, rfl, rfl,
          hread.trans (if_pos ⟨not_not.mp h1, not_not.mp h2, hlong, hsur⟩)⟩
  · have hread : nextUtf8Char (c :: r) = utf8Four c r :=
      ((((if_neg h80).trans (if_neg hc2)).trans (if_neg he0)).trans (if_neg hf0)).trans (if_pos hf5)
    refine decodes_ite (fun h => decodes_four (hread.trans (utf8Four_none h))) fun h => ?_
    obtain ⟨hlen, h⟩ := not_or.mp h
    obtain ⟨c1, c2, c3, r', rfl⟩ := exists_three hlen
    obtain ⟨h1, h⟩ := not_or.mp h
    obtain ⟨h2, h3⟩ := not_or.mp h
    refine decodes_ite (fun hrange => ?_) fun hrange => ?_
    · exact decodes_failure 4 (hread.trans (if_neg fun h => h.2.2.2 hrange))
    · exact ⟨[c, c1, c2, c3], r', rfl, rfl,
        hread.trans (if_pos ⟨not_not.mp h1, not_not.mp h2, not_not.mp h3, hrange⟩)⟩
  · exact decodes_failure 1 (((((if_neg h80).trans (if_neg hc2)).trans (if_neg he0)).trans
      (if_neg hf0)).trans (if_neg hf5))

/-! ## What an error skips -/

/-- No byte that an error skips behind the first one begins a character. -/
def Clean (s : Bytes) (pos : ℕ) (n : Next) : Prop :=
  n.success = false → ∀ i, 0 < i → pos + i < n.cursor → utf8Lead (byteAt s i) = false

theorem clean_success {us cursor : ℕ} : Clean s pos ⟨us, cursor, true⟩ := nofun

theorem clean_one : Clean s pos (mbFailure pos 1) := by
  intro _ i hi hlt
  have hlt : pos + i < pos + 1 := hlt
  omega

theorem clean_two (h1 : utf8Lead (byteAt s 1) = false) : Clean s pos (mbFailure pos 2) := by
  intro _ i hi hlt
  have hlt : pos + i < pos + 2 := hlt
  obtain rfl : i = 1 := by omega
  exact h1

theorem clean_three (h1 : utf8Lead (byteAt s 1) = false) (h2 : utf8Lead (byteAt s 2) = false) :
    Clean s pos (mbFailure pos 3) := by
  intro _ i hi hlt
  have hlt : pos + i < pos + 3 := hlt
  obtain rfl | rfl : i = 1 ∨ i = 2 := by omega
  · exact h1
  · exact h2

theorem clean_four (h1 : utf8Lead (byteAt s 1) = false) (h2 : utf8Lead (byteAt s 2) = false)
    (h3 : utf8Lead (byteAt s 3) = false) : Clean s pos (mbFailure pos 4) := by
  intro _ i hi hlt
  have hlt : pos + i < pos + 4 := hlt
  obtain rfl | rfl | rfl : i = 1 ∨ i = 2 ∨ i = 3 := by omega
  · exact h1
  · exact h2
  · exact h3

theorem clean_ite [Decidable p] (h : p → Clean s pos n)
    (h' : ¬ p → Clean s pos n') : Clean s pos (if p then n else n') := by
  split
  · exact h ‹_›
  · exact h' ‹_›

variable {b : UInt8}

theorem utf8Lead_trail (h : utf8Trail b = true) : utf8Lead b = false := by
  rw [utf8Trail_iff] at h
  rw [utf8Lead, decide_eq_false_iff_not]
  simp only [le_iff_toNat_le, lt_iff_toNat_lt, reduceToNat] at h ⊢
  omega

theorem not_lead (h : ¬ (p ∨ utf8Lead b = true)) : utf8Lead b = false :=
  Bool.eq_false_iff.mpr fun hb => h (.inr hb)

theorem clean_nextUtf8 : Clean s pos (nextUtf8 s pos) := by
  refine clean_ite (fun _ => clean_success) fun _ => clean_ite (fun _ => clean_one) fun _ =>
    clean_ite (fun _ => ?_) fun _ => clean_ite (fun _ => ?_) fun _ => clean_ite (fun _ => ?_)
      fun _ => clean_one
  · refine clean_ite (fun _ => clean_one) fun _ => clean_ite (fun _ => ?_) fun htrail =>
      clean_ite (fun _ => clean_two (utf8Lead_trail (not_not.mp htrail))) fun _ => clean_success
    split
    · exact clean_one
    · exact clean_two (Bool.eq_false_iff.mpr ‹_›)
  · refine clean_ite (fun _ => ?_) fun h => ?_
    · exact clean_ite (fun _ => clean_one) fun h1 => clean_ite (fun _ => clean_two (not_lead h1))
        fun h2 => clean_three (not_lead h1) (not_lead h2)
    · obtain ⟨-, h⟩ := not_or.mp h
      obtain ⟨h1, h2⟩ := not_or.mp h
      have hfail : Clean s pos (mbFailure pos 3) :=
        clean_three (utf8Lead_trail (not_not.mp h1)) (utf8Lead_trail (not_not.mp h2))
      exact clean_ite (fun _ => hfail) fun _ => clean_ite (fun _ => hfail) fun _ => clean_success
  · refine clean_ite (fun _ => ?_) fun h => ?_
    · exact clean_ite (fun _ => clean_one) fun h1 => clean_ite (fun _ => clean_two (not_lead h1))
        fun h2 => clean_ite (fun _ => clean_three (not_lead h1) (not_lead h2))
        fun h3 => clean_four (not_lead h1) (not_lead h2) (not_lead h3)
    · obtain ⟨-, h⟩ := not_or.mp h
      obtain ⟨h1, h⟩ := not_or.mp h
      obtain ⟨h2, h3⟩ := not_or.mp h
      exact clean_ite (fun _ => clean_four (utf8Lead_trail (not_not.mp h1))
        (utf8Lead_trail (not_not.mp h2)) (utf8Lead_trail (not_not.mp h3))) fun _ => clean_success

/-- The first byte of a character is one that `utf8_lead` accepts. -/
theorem utf8Lead_head {ch : Char} (h : (String.utf8EncodeChar ch).head? = some b) :
    utf8Lead b = true := by
  obtain ⟨hlt, -⟩ := toNat_lt ch
  rw [utf8Lead, decide_eq_true_iff]
  simp only [le_iff_toNat_le, lt_iff_toNat_lt, reduceToNat]
  by_cases h1 : ch.toNat ≤ 0x7f
  · rw [encode_one h1] at h
    cases h
    rw [toNat_byte (by omega)]
    omega
  by_cases h2 : ch.toNat ≤ 0x7ff
  · rw [encode_two h1 h2] at h
    cases h
    rw [toNat_byte (by omega)]
    omega
  by_cases h3 : ch.toNat ≤ 0xffff
  · rw [encode_three h2 h3] at h
    cases h
    rw [toNat_byte (by omega)]
    omega
  · rw [encode_four h3] at h
    cases h
    rw [toNat_byte (by omega)]
    omega

/-- What `get_next_char` does to UTF-8, before the end of the text. -/
theorem getNextChar_utf8 (hpos : pos < str.length) :
    getNextChar .utf8 str pos = nextUtf8 (str.drop pos) pos := by
  have hlen : (str.drop pos).length = str.length - pos := length_drop
  exact if_neg (by omega)

theorem decodes_getNextChar (hpos : pos < str.length) :
    Decodes (str.drop pos) pos (getNextChar .utf8 str pos) := by
  rw [getNextChar_utf8 hpos, drop_eq_getElem_cons hpos]
  exact decodes_nextUtf8 _ _

/-- A character is read where its encoding begins, and the cursor goes over the encoding. -/
theorem getNextChar_success_iff (hpos : pos < str.length) (us pos' : ℕ) :
    getNextChar .utf8 str pos = ⟨us, pos', true⟩ ↔
      ∃ ch : Char, us = ch.toNat ∧ String.utf8EncodeChar ch <+: str.drop pos ∧
        pos' = pos + (String.utf8EncodeChar ch).length := by
  have hdecodes := decodes_getNextChar hpos
  constructor
  · intro h
    rw [h] at hdecodes
    obtain ⟨taken, rest, hsplit, hcursor, hread⟩ := hdecodes
    obtain ⟨ch, hus, hencode⟩ := encode_of_nextUtf8Char hread
    have htaken : taken = String.utf8EncodeChar ch :=
      append_cancel_right (hsplit.symm.trans hencode)
    exact ⟨ch, hus, ⟨rest, hencode.symm⟩, by rw [hcursor, htaken]⟩
  · rintro ⟨ch, rfl, ⟨t, ht⟩, rfl⟩
    have hread : nextUtf8Char (str.drop pos) = some (ch.toNat, t) := by
      rw [← ht, nextUtf8Char_encode]
    match hnext : getNextChar .utf8 str pos with
    | ⟨a, b, true⟩ =>
      rw [hnext] at hdecodes
      obtain ⟨taken, rest, hsplit, rfl, hread'⟩ := hdecodes
      cases hread.symm.trans hread'
      rw [append_cancel_right (ht.trans hsplit)]
    | ⟨_, _, false⟩ =>
      rw [hnext] at hdecodes
      cases hread.symm.trans hdecodes

/-- `php_next_utf8_char` is the decoder that `json_encode` is modelled with. -/
theorem phpNextUtf8Char_iff (hpos : pos < str.length) {us pos' : ℕ} :
    phpNextUtf8Char str pos = ⟨us, pos', true⟩ ↔ pos ≤ pos' ∧ pos' ≤ str.length ∧
        nextUtf8Char (str.drop pos) = some (us, str.drop pos') := by
  unfold phpNextUtf8Char
  have hlen : (str.drop pos).length = str.length - pos := length_drop
  rw [getNextChar_success_iff hpos]
  constructor
  · rintro ⟨ch, rfl, ⟨t, ht⟩, rfl⟩
    refine ⟨Nat.le_add_right _ _, ?_, ?_⟩
    · rw [← ht, length_append] at hlen
      omega
    · rw [← drop_drop, ← ht, nextUtf8Char_encode, drop_left]
  · rintro ⟨hle, hle', hread⟩
    obtain ⟨ch, hus, hencode⟩ := encode_of_nextUtf8Char hread
    refine ⟨ch, hus, ⟨_, hencode.symm⟩, ?_⟩
    have hsum := congrArg List.length hencode
    rw [length_append, length_drop, length_drop] at hsum
    omega

/-- No byte that an error skips behind the first one is ASCII or begins a character. -/
theorem getNextChar_clean (hpos : pos < str.length)
    (h : (getNextChar .utf8 str pos).success = false) {i : ℕ} (hi : pos < i)
    (hcursor : i < (getNextChar .utf8 str pos).cursor) (hb : str[i]? = some b) :
    ¬ b < 0x80 ∧ ∀ ch : Char, (String.utf8EncodeChar ch).head? ≠ some b := by
  rw [getNextChar_utf8 hpos] at h hcursor
  have hlead : utf8Lead b = false := by
    have hclean := clean_nextUtf8 h (i - pos) (by omega) (by omega)
    rw [byteAt, getD_eq_getElem?_getD, getElem?_drop, Nat.add_sub_of_le hi.le, hb]
      at hclean
    exact hclean
  constructor
  · intro hlt
    rw [utf8Lead, decide_eq_false_iff_not] at hlead
    exact hlead (.inl hlt)
  · intro ch hhead
    rw [utf8Lead_head hhead] at hlead
    cases hlead

/-- For UTF-8 `get_next_char` succeeds where the encoding of a character begins, and in every
charset an error skips at least one byte and none behind the text.  In UTF-8 none of the bytes that
an error skips behind the first one is ASCII or begins a character. -/
theorem getNextChar_scans {str : Bytes} (hpos : pos < str.length) :
    (∀ us pos', getNextChar .utf8 str pos = ⟨us, pos', true⟩ ↔
      ∃ ch : Char, us = ch.toNat ∧ String.utf8EncodeChar ch <+: str.drop pos ∧
        pos' = pos + (String.utf8EncodeChar ch).length) ∧
    (∀ charset, (getNextChar charset str pos).success = false →
      pos < (getNextChar charset str pos).cursor ∧
        (getNextChar charset str pos).cursor ≤ str.length) ∧
    ((getNextChar .utf8 str pos).success = false →
      ∀ i b, pos < i → i < (getNextChar .utf8 str pos).cursor → str[i]? = some b →
        ¬ b < 0x80 ∧ ∀ ch : Char, (String.utf8EncodeChar ch).head? ≠ some b) :=
  ⟨getNextChar_success_iff hpos, fun charset => getNextChar_skips charset hpos,
    fun h _ _ => getNextChar_clean hpos h⟩

/-- An incomplete character before a quote. -/
theorem getNextChar_scans_quote : (getNextChar .utf8 [0xe2, 0x82, 0x22] 0).success = false ∧
      ∀ i b, 0 < i → i < (getNextChar .utf8 [0xe2, 0x82, 0x22] 0).cursor →
        [(0xe2 : UInt8), 0x82, 0x22][i]? = some b →
          ¬ b < 0x80 ∧ ∀ ch : Char, (String.utf8EncodeChar ch).head? ≠ some b := by
  have hscans := getNextChar_scans (show 0 < [(0xe2 : UInt8), 0x82, 0x22].length by decide)
  exact ⟨by decide, hscans.2.2 (by decide)⟩

end PhpHtml
