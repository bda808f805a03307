/-
# Bytes

The byte constants and the small byte tests that nginx's parsers share.  A
`u_char` is a `UInt8`; offsets and lengths are natural numbers.
-/
import Mathlib.Data.List.Basic

/-- A byte string. -/
abbrev Bytes := List UInt8

/-! ## Named bytes -/

/-- `CR`. -/
abbrev CR : UInt8 := 0x0d

/-- `LF`. -/
abbrev LF : UInt8 := 0x0a

/-- The space, `' '`. -/
abbrev SP : UInt8 := 0x20

/-- The tabulator, `'\t'`. -/
abbrev HT : UInt8 := 0x09

/-- The line ends differ. -/
@[simp] theorem CR_ne_LF : CR ≠ LF := by decide

@[simp] theorem LF_ne_CR : LF ≠ CR := by decide

/-! ## Hexadecimal digits -/

/-- The pair of tests every hex loop of the sources writes out: a decimal digit, or
(with `c = ch | 0x20`) a letter from `'a'` to `'f'`; the value of the digit. -/
def hexDigit (ch : UInt8) : Option ℕ :=
  if 0x30 ≤ ch ∧ ch ≤ 0x39 then
    some (ch.toNat - 0x30)
  else if 0x61 ≤ ch ||| 0x20 ∧ ch ||| 0x20 ≤ 0x66 then
    some ((ch ||| 0x20).toNat - 0x61 + 10)
  else
    none

/-- A line end is no digit. -/
@[simp] theorem hexDigit_CR : hexDigit CR = none := by decide

@[simp] theorem hexDigit_LF : hexDigit LF = none := by decide

/-- A digit is below the base. -/
theorem hexDigit_lt {ch : UInt8} {d : ℕ} (h : hexDigit ch = some d) : d < 16 := by
  unfold hexDigit at h
  simp only [UInt8.le_iff_toNat_le] at h
  split_ifs at h with h1 h2
  · have : (0x39 : UInt8).toNat = 0x39 := rfl
    rw [← Option.some.inj h]
    omega
  · have : (0x66 : UInt8).toNat = 0x66 := rfl
    rw [← Option.some.inj h]
    omega

/-! # The bytes of URIs -/

/-! ## Named bytes -/

/-- `'/'`. -/
abbrev SLASH : UInt8 := 0x2f

/-- `'.'`. -/
abbrev DOT : UInt8 := 0x2e

/-- `'%'`. -/
abbrev PERCENT : UInt8 := 0x25

/-- `'?'`. -/
abbrev QUESTION : UInt8 := 0x3f

/-- `'#'`. -/
abbrev HASH : UInt8 := 0x23

/-- `'+'`. -/
abbrev PLUS : UInt8 := 0x2b

/-- `'\\'`. -/
abbrev BACKSLASH : UInt8 := 0x5c

/-- `'\0'`. -/
abbrev NUL : UInt8 := 0x00

/-! ## The table -/

/-- `usual[]`, one 32-bit word for each block of 32 bytes; `win32` is `NGX_WIN32`. -/
def usualWords (win32 : Bool) : List ℕ :=
  [0xffffdbfe, 0x7fff37d6, if win32 then 0xefffffff else 0xffffffff, 0xffffffff,
    0xffffffff, 0xffffffff, 0xffffffff, 0xffffffff]

/-- `usual[ch >> 5] & (1U << (ch & 0x1f))`. -/
def usual (win32 : Bool) (ch : UInt8) : Bool :=
  ((usualWords win32).getD (ch >>> 5).toNat 0).testBit (ch &&& 0x1f).toNat

/-- The bytes that are not usual. -/
def special (win32 : Bool) (ch : UInt8) : Bool :=
  ch == NUL || ch == LF || ch == CR || ch == SP || ch == HASH || ch == PERCENT || ch == PLUS ||
    ch == DOT || ch == SLASH || ch == QUESTION || (win32 && ch == BACKSLASH)

/-- The table, byte by byte. -/
theorem usual_ofNat (win32 : Bool) (n : Fin 256) :
    usual win32 (UInt8.ofNat n) = !special win32 (UInt8.ofNat n) := by
  revert n
  cases win32 <;> decide +kernel

/-- The table has the bit of every byte that is not special. -/
theorem usual_eq (win32 : Bool) (ch : UInt8) : usual win32 ch = !special win32 ch := by
  have h := usual_ofNat win32 ⟨ch.toNat, ch.toNat_lt⟩
  simpa using h
