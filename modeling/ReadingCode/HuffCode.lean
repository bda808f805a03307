/-
# The HPACK Huffman code

The words of the code as bit strings, with a word of 30 one-bits for EOS.  They form a
prefix code (`prefixFree_code`), the bits a decoder state has read are a word cut short
(`isTail_prefixBits`), and a step of the decoder reads four bits, with at most one word
ending in them (`huffDecodeCode_spec`).
-/
import ReadingCode.Bytes
import ReadingCode.HuffTables
import ReadingCode.PrefixCode

open PrefixCode
open Nat (two_pow_pos ble blt ble_eq mod_lt sub_lt)

namespace Huff

open List

/-! ## Words -/

/-- The bits of a pair of value and length. -/
def pairBits (p : ℕ × ℕ) : List Bool := bits p.2 p.1

/-- The place of a symbol in the table; EOS comes past the end. -/
def symIndex : Option UInt8 → ℕ
  | some c => c.toNat
  | none => 256

/-- The word of a symbol; `none` is EOS. -/
def code (a : Option UInt8) : List Bool := pairBits (huffCode (symIndex a))

/-- The words of a string. -/
def codes (s : Bytes) : List Bool := encode code (s.map some)

/-- The bits that a state has read. -/
def prefixBits (state : ℕ) : List Bool := pairBits (statePrefix state)

@[simp] theorem codes_nil : codes [] = [] := rfl

@[simp] theorem codes_append (s s' : Bytes) : codes (s ++ s') = codes s ++ codes s' := by
  simp [codes]

theorem codes_singleton (c : UInt8) : codes [c] = code (some c) := by
  simp [codes]

/-! ## Words as intervals

A word of at most 30 bits takes up the numbers of 30 bits that begin with it. -/

/-- The first number of 30 bits that begins with a word. -/
def start (p : ℕ × ℕ) : ℕ := p.1 * 2 ^ (30 - p.2)

/-- The number after the last one. -/
def stop (p : ℕ × ℕ) : ℕ := (p.1 + 1) * 2 ^ (30 - p.2)

theorem start_lt_stop (p : ℕ × ℕ) : start p < stop p :=
  Nat.mul_lt_mul_of_pos_right (Nat.lt_succ_self _) (two_pow_pos _)

variable {q : ℕ × ℕ} {state : ℕ}

/-- A word begins another when it is not longer and the other's interval starts in its own. -/
theorem pairBits_prefix_iff {p : ℕ × ℕ} (hp : p.1 < 2 ^ p.2) (hq : q.1 < 2 ^ q.2) (h30 : q.2 ≤ 30)
    : pairBits p <+: pairBits q ↔ p.2 ≤ q.2 ∧ start p ≤ start q ∧ start q < stop p := by
  rw [pairBits, pairBits, bits_prefix_iff hp hq]
  refine and_congr_right fun hle => ?_
  have hpow : 2 ^ (30 - p.2) = 2 ^ (q.2 - p.2) * 2 ^ (30 - q.2) := by
    rw [← pow_add]
    congr 1
    omega
  have hpos : 0 < 2 ^ (30 - q.2) := two_pow_pos _
  rw [Nat.div_eq_iff (two_pow_pos _), start, start, stop, hpow, ← mul_assoc,
    ← mul_assoc, Nat.mul_le_mul_right_iff hpos, Nat.mul_lt_mul_right hpos]
  have hsucc : (p.1 + 1) * 2 ^ (q.2 - p.2) = p.1 * 2 ^ (q.2 - p.2) + 2 ^ (q.2 - p.2) :=
    Nat.succ_mul _ _
  have hpos' : 0 < 2 ^ (q.2 - p.2) := two_pow_pos _
  omega

/-! ## Evaluating the table of codes -/

/-- The words, with that of EOS. -/
def words : List (ℕ × ℕ) := ngxHttpV2HuffEncodeTable ++ [(2 ^ 30 - 1, 30)]

/-- The intervals of a list of words are disjoint. -/
def disjoint : List (ℕ × ℕ) → Bool
  | [] => true
  | p :: t =>
    (t.all fun q => ble (stop p) (start q) || ble (stop q) (start p)) && disjoint t

/-- What evaluation says about the tables. -/
theorem tables_check : (huffCode 256 = (2 ^ 30 - 1, 30) ∧ statePrefix 0 = (0, 0)) ∧
    (words.length = 257 ∧ statePrefixes.length = 256 ∧ ngxHttpV2HuffDecodeCodes.length = 256) ∧
    (words.all fun p => decide (p.1 < 2 ^ p.2 ∧ 5 ≤ p.2 ∧ p.2 ≤ 30)) = true ∧
    disjoint words = true ∧ (statePrefixes.all fun p => decide (p.1 < 2 ^ p.2 ∧ p.2 < 30) &&
      words.any fun q => ble (start p) (start q) && blt (start q) (stop p) &&
        blt p.2 q.2) = true := by
  decide +kernel

theorem words_length : words.length = 257 := tables_check.2.1.1

theorem statePrefixes_length : statePrefixes.length = 256 := tables_check.2.1.2.1

theorem decodeCodes_length : ngxHttpV2HuffDecodeCodes.length = 256 := tables_check.2.1.2.2

theorem words_check : (words.all fun p => decide (p.1 < 2 ^ p.2 ∧ 5 ≤ p.2 ∧ p.2 ≤ 30)) = true :=
  tables_check.2.2.1

theorem words_disjoint : disjoint words = true := tables_check.2.2.2.1

theorem statePrefixes_check : (statePrefixes.all fun p => decide (p.1 < 2 ^ p.2 ∧ p.2 < 30) &&
      words.any fun q => ble (start p) (start q) && blt (start q) (stop p) &&
        blt p.2 q.2) = true :=
  tables_check.2.2.2.2

theorem code_none : code none = replicate 30 true := by
  rw [code, symIndex, tables_check.1.1]
  exact bits_ones 30

theorem prefixBits_zero : prefixBits 0 = [] := by
  rw [prefixBits, tables_check.1.2]
  rfl

theorem disjoint_pairwise {t : List (ℕ × ℕ)} (h : disjoint t = true) :
    t.Pairwise fun p q => stop p ≤ start q ∨ stop q ≤ start p := by
  induction t with
  | nil => exact List.Pairwise.nil
  | cons p t ih =>
    rw [disjoint, Bool.and_eq_true, all_eq_true] at h
    refine List.Pairwise.cons (fun q hq => ?_) (ih h.2)
    have := h.1 q hq
    rwa [Bool.or_eq_true, ble_eq, ble_eq] at this

/-! ## The code is a prefix code -/

theorem symIndex_lt (a : Option UInt8) : symIndex a < words.length := by
  rw [words_length]
  rcases a with _ | c
  · exact Nat.lt_succ_self 256
  · exact Nat.lt_succ_of_lt c.toNat_lt

theorem symIndex_inj {a b : Option UInt8} (h : symIndex a = symIndex b) : a = b := by
  rcases a with _ | c <;> rcases b with _ | d
  · rfl
  · exact absurd h.symm (ne_of_lt d.toNat_lt)
  · exact absurd h (ne_of_lt c.toNat_lt)
  · exact congrArg some (UInt8.toNat_inj.mp h)

theorem getD_eq_getElem_append {α : Type} (t : List α) (d : α) {i : ℕ}
    (h : i < (t ++ [d]).length) : t.getD i d = (t ++ [d])[i] := by
  rw [getElem_append]
  split_ifs with hi
  · rw [getD_eq_getElem _ _ hi]
  · rw [getD_eq_default _ _ (le_of_not_gt hi), getElem_singleton]

theorem words_getElem (a : Option UInt8) (h : symIndex a < words.length) :
    words[symIndex a] = huffCode (symIndex a) :=
  (getD_eq_getElem_append _ _ h).symm

theorem huffCode_bounds (a : Option UInt8) :
    (huffCode (symIndex a)).1 < 2 ^ (huffCode (symIndex a)).2 ∧
      5 ≤ (huffCode (symIndex a)).2 ∧ (huffCode (symIndex a)).2 ≤ 30 := by
  have h := all_eq_true.mp words_check _ (getElem_mem (symIndex_lt a))
  rw [words_getElem] at h
  exact of_decide_eq_true h

theorem prefixFree_code : PrefixFree code := by
  intro a b h
  by_contra hne
  obtain ⟨ha, -, -⟩ := huffCode_bounds a
  obtain ⟨hb, -, hb30⟩ := huffCode_bounds b
  obtain ⟨-, hle, hlt⟩ := (pairBits_prefix_iff ha hb hb30).mp h
  have hidx : symIndex a ≠ symIndex b := fun he => hne (symIndex_inj he)
  have hpair := pairwise_iff_getElem.mp (disjoint_pairwise words_disjoint)
  have hb' := start_lt_stop (huffCode (symIndex b))
  rcases Nat.lt_or_gt_of_ne hidx with hlt' | hlt'
  · have := hpair _ _ (symIndex_lt a) (symIndex_lt b) hlt'
    rw [words_getElem, words_getElem] at this
    omega
  · have := hpair _ _ (symIndex_lt b) (symIndex_lt a) hlt'
    rw [words_getElem, words_getElem] at this
    omega

/-! ## States -/

theorem statePrefix_mem (h : state < 256) : statePrefix state ∈ statePrefixes := by
  have hlt : state < statePrefixes.length := by rwa [statePrefixes_length]
  rw [statePrefix, getD_eq_getElem _ _ hlt]
  exact getElem_mem hlt

theorem statePrefix_bounds (h : state < 256) :
    (statePrefix state).1 < 2 ^ (statePrefix state).2 ∧ (statePrefix state).2 < 30 := by
  have := all_eq_true.mp statePrefixes_check _ (statePrefix_mem h)
  rw [Bool.and_eq_true] at this
  exact of_decide_eq_true this.1

theorem exists_code_of_mem (h : q ∈ words) : ∃ a, huffCode (symIndex a) = q := by
  obtain ⟨i, hi, rfl⟩ := getElem_of_mem h
  have hsym : ∃ a, symIndex a = i := by
    rw [words_length] at hi
    rcases lt_or_eq_of_le (Nat.le_of_lt_succ hi) with hlt | rfl
    · exact ⟨some (UInt8.ofNat i), UInt8.toNat_ofNat_of_lt hlt⟩
    · exact ⟨none, rfl⟩
  obtain ⟨a, rfl⟩ := hsym
  exact ⟨a, (words_getElem a hi).symm⟩

theorem isTail_prefixBits (h : state < 256) : IsTail code (prefixBits state) := by
  have hcheck := all_eq_true.mp statePrefixes_check _ (statePrefix_mem h)
  rw [Bool.and_eq_true, any_eq_true] at hcheck
  obtain ⟨hbounds, q, hq, hin⟩ := hcheck
  obtain ⟨hv, -⟩ := of_decide_eq_true hbounds
  rw [Bool.and_eq_true, Bool.and_eq_true, ble_eq, Nat.blt_eq, Nat.blt_eq] at hin
  obtain ⟨⟨h1, h2⟩, h3⟩ := hin
  obtain ⟨a, rfl⟩ := exists_code_of_mem hq
  obtain ⟨ha, -, ha30⟩ := huffCode_bounds a
  refine ⟨a, (pairBits_prefix_iff hv ha ha30).mpr ⟨le_of_lt h3, h1, h2⟩, fun he => ?_⟩
  have hlen := congrArg List.length he
  rw [prefixBits, code, pairBits, pairBits, length_bits, length_bits] at hlen
  omega

/-! ## Steps -/

theorem entryOk_of_rowsOk {prefixes codes k i b : ℕ} {ps : List (ℕ × ℕ)} {rows : List ℕ}
    (h : rowsOk prefixes codes k ps rows = true) (hp : i < ps.length) (hr : i < rows.length)
    (hb : b < 16) : entryOk prefixes codes (k + i) ps[i] (entry rows[i] b) b = true := by
  induction ps generalizing k i rows with
  | nil => exact absurd hp (Nat.not_lt_zero i)
  | cons p ps ih =>
    rcases rows with _ | ⟨row, rows⟩
    · exact absurd hr (Nat.not_lt_zero i)
    · rw [rowsOk, Bool.and_eq_true, all_eq_true] at h
      rcases i with _ | i
      · exact h.1 b (mem_range.mpr hb)
      · have := ih h.2 (Nat.lt_of_succ_lt_succ hp) (Nat.lt_of_succ_lt_succ hr)
        rwa [Nat.add_assoc, Nat.add_comm 1 i] at this

theorem fits_statePrefixes : Fits statePrefixes := by
  intro p hp
  have h := all_eq_true.mp statePrefixes_check p hp
  rw [Bool.and_eq_true] at h
  obtain ⟨h1, h2⟩ := of_decide_eq_true h.1
  have hpow : 2 ^ p.2 ≤ 2 ^ 32 := Nat.pow_le_pow_right Nat.two_pos (by omega)
  omega

theorem fits_encodeTable : Fits ngxHttpV2HuffEncodeTable := by
  intro p hp
  have h := all_eq_true.mp words_check p (mem_append_left _ hp)
  obtain ⟨h1, -, h2⟩ := of_decide_eq_true h
  have hpow : 2 ^ p.2 ≤ 2 ^ 32 := Nat.pow_le_pow_right Nat.two_pos (by omega)
  omega

/-- An entry of the decoding table is right. -/
theorem huffDecodeCode_ok {b : ℕ} (hs : state < 256) (hb : b < 16) :
    entryOk (pack statePrefixes) (pack ngxHttpV2HuffEncodeTable) state (statePrefix state)
      (huffDecodeCode state b) b = true := by
  have hp : state < statePrefixes.length := by rwa [statePrefixes_length]
  have hr : state < ngxHttpV2HuffDecodeCodes.length := by rwa [decodeCodes_length]
  have h := entryOk_of_rowsOk decodeCodes_check hp hr hb
  rwa [zero_add, ← getD_eq_getElem _ (0, 0) hp, ← getD_eq_getElem _ 0 hr] at h

theorem unpack_statePrefixes (h : state < 256) :
    unpack (pack statePrefixes) state = statePrefix state :=
  unpack_pack fits_statePrefixes (by rwa [statePrefixes_length]) _

theorem unpack_encodeTable {sym : ℕ} (h : sym < 256) :
    unpack (pack ngxHttpV2HuffEncodeTable) sym = huffCode sym :=
  unpack_pack fits_encodeTable (by
    have := words_length
    rw [words, length_append] at this
    exact Nat.lt_of_lt_of_eq h (Nat.succ.inj this).symm) _

/-- What a step of the decoder does with the bits it has read of a code and four more: it
reports that EOS is among them, or goes on, having found the end of at most one word. -/
theorem huffDecodeCode_spec {b : ℕ} (hs : state < 256) (hb : b < 16) :
    ((huffDecodeCode state b).next = state ∧ code none <+: prefixBits state ++ bits 4 b) ∨
      ((huffDecodeCode state b).next ≠ state ∧ (huffDecodeCode state b).next < 256 ∧
        ((huffDecodeCode state b).ending ≠ 0 ↔ prefixBits (huffDecodeCode state b).next =
            replicate (statePrefix (huffDecodeCode state b).next).2 true) ∧
        prefixBits state ++ bits 4 b = (if (huffDecodeCode state b).emit = 0 then []
            else code (some (UInt8.ofNat (huffDecodeCode state b).sym))) ++
          prefixBits (huffDecodeCode state b).next) := by
  have hok := huffDecodeCode_ok hs hb
  obtain ⟨hv, -⟩ := statePrefix_bounds hs
  have hnext : (huffDecodeCode state b).next < 256 := mod_lt _ (by decide)
  have hsym : (huffDecodeCode state b).sym < 256 := mod_lt _ (by decide)
  generalize huffDecodeCode state b = c at hok hnext hsym
  have hread : prefixBits state ++ bits 4 b =
      bits ((statePrefix state).2 + 4) ((statePrefix state).1 * 16 + b) :=
    (bits_mul_add (show b < 2 ^ 4 by omega) _ _).symm
  have hlt : (statePrefix state).1 * 16 + b < 2 ^ ((statePrefix state).2 + 4) := by
    rw [pow_add]
    omega
  rw [entryOk, unpack_statePrefixes hnext, unpack_encodeTable hsym] at hok
  rw [hread]
  by_cases hstay : c.next = state
  · left
    simp only [if_pos hstay, decide_eq_true_eq] at hok
    refine ⟨hstay, ?_⟩
    rw [code_none]
    exact (bits_prefix_iff (by decide) hlt).mpr hok
  · right
    obtain ⟨hq, -⟩ := statePrefix_bounds hnext
    simp only [if_neg hstay, Bool.and_eq_true, decide_eq_true_eq] at hok
    obtain ⟨hending, hrest⟩ := hok
    refine ⟨hstay, hnext, ?_, ?_⟩
    · rw [hending, prefixBits, pairBits, ← bits_ones]
      have hpos : 0 < 2 ^ (statePrefix c.next).2 := two_pow_pos _
      constructor
      · intro h
        have hones : (statePrefix c.next).1 + 1 = 2 ^ (statePrefix c.next).2 := by
          by_contra hne
          exact h (if_neg hne)
        rw [← hones, Nat.add_sub_cancel]
      · intro h
        have hones := bits_inj hq (sub_lt hpos Nat.one_pos) h
        rw [if_pos (by omega)]
        exact Nat.one_ne_zero
    · by_cases hemit : c.emit = 0
      · rw [if_pos hemit, decide_eq_true_eq] at hrest
        rw [if_pos hemit, nil_append, prefixBits, hrest, pairBits]
      · rw [if_neg hemit, decide_eq_true_eq] at hrest
        obtain ⟨hlen, hval⟩ := hrest
        have hc : (UInt8.ofNat c.sym).toNat = c.sym := UInt8.toNat_ofNat_of_lt hsym
        rw [if_neg hemit, ← hlen, ← hval, bits_mul_add hq, code, symIndex, hc]
        rfl

end Huff

/-!
# `ngx_http_v2_huff_decode`

The decoder (`ngx_http_v2_huff_decode.c`) and what it accepts: the words of a string
followed by a proper prefix of EOS, that is by fewer than 30 one-bits, with the string as
output (`huffDecodeCalls_eq_some_iff`), however the input is cut into calls.
-/

namespace Huff

open List

/-! ## The decoder -/

/-- `ngx_http_v2_huff_decode_bits`: the next `*state` and `*ending`, and the byte that is
emitted, if any; `none` is `NGX_ERROR`. -/
def ngxHttpV2HuffDecodeBits (state bits : ℕ) : Option (ℕ × Bool × Bytes) :=
  let code := huffDecodeCode state bits
  if code.next = state then none
  else
    some (code.next, code.ending ≠ 0, if code.emit = 0 then [] else [UInt8.ofNat code.sym])

/-- The `while (src != end)` loop: `*state`, `ending` and what is appended at `*dst`. -/
def huffDecodeLoop : ℕ → Bool → Bytes → Option (ℕ × Bool × Bytes)
  | state, ending, [] => some (state, ending, [])
  | state, _, ch :: src =>
    (ngxHttpV2HuffDecodeBits state (ch.toNat / 16)).bind fun (state, _, out1) =>
      (ngxHttpV2HuffDecodeBits state (ch.toNat % 16)).bind fun (state, ending, out2) =>
        (huffDecodeLoop state ending src).map fun (state, ending, out) =>
          (state, ending, out1 ++ out2 ++ out)

/-- `ngx_http_v2_huff_decode(state, src, len, dst, last, log)`: the new `*state` and what is
appended at `*dst`; `none` is `NGX_ERROR`. -/
def ngxHttpV2HuffDecode (state : ℕ) (src : Bytes) (last : Bool) :
    Option (ℕ × Bytes) :=
  (huffDecodeLoop state true src).bind fun (state, ending, out) =>
    if last then if ending then some (0, out) else none else some (state, out)

/-- Calls one after another from the state `state`, the last one with `last` set. -/
def huffDecodeCalls (state : ℕ) : List Bytes → Bytes → Option Bytes
  | [], final => (ngxHttpV2HuffDecode state final true).map (·.2)
  | src :: srcs, final =>
    (ngxHttpV2HuffDecode state src false).bind fun (state, out) =>
      (huffDecodeCalls state srcs final).map (out ++ ·)

/-! ## What the loop reads -/

/-- The bits of some bytes. -/
def bytesBits (src : Bytes) : List Bool := src.flatMap fun ch => bits 8 ch.toNat

@[simp] theorem bytesBits_nil : bytesBits [] = [] := rfl

@[simp] theorem bytesBits_cons (ch : UInt8) (src : Bytes) :
    bytesBits (ch :: src) = bits 8 ch.toNat ++ bytesBits src := rfl

@[simp] theorem bytesBits_append (src src' : Bytes) :
    bytesBits (src ++ src') = bytesBits src ++ bytesBits src' := by
  simp [bytesBits]

/-- The two halves of a byte. -/
theorem bits_byte (ch : UInt8) :
    bits 8 ch.toNat = bits 4 (ch.toNat / 16) ++ bits 4 (ch.toNat % 16) := by
  rw [show bits 8 ch.toNat = bits (4 + 4) ch.toNat from rfl, bits_add]
  exact congrArg _ (bits_mod 4 ch.toNat).symm

/-- EOS is read after some words. -/
def ReadsEos (b : List Bool) : Prop := ∃ s rest, b = codes s ++ code none ++ rest

theorem ReadsEos.append {b : List Bool} (h : ReadsEos b) (more : List Bool) :
    ReadsEos (b ++ more) := by
  obtain ⟨s, rest, rfl⟩ := h
  exact ⟨s, rest ++ more, by simp⟩

theorem ReadsEos.codes_append {b : List Bool} (h : ReadsEos b) (s : Bytes) :
    ReadsEos (codes s ++ b) := by
  obtain ⟨s', rest, rfl⟩ := h
  exact ⟨s ++ s', rest, by simp⟩

/-- The bits read in a state are all ones. -/
def AllOnes (state : ℕ) : Prop := ∃ k, prefixBits state = replicate k true

variable {k state : ℕ} {s : Bytes} {srcs : List Bytes}

/-- What half a byte does. -/
theorem ngxHttpV2HuffDecodeBits_spec {b : ℕ} (hs : state < 256) (hb : b < 16) :
    match ngxHttpV2HuffDecodeBits state b with
    | none => ReadsEos (prefixBits state ++ bits 4 b)
    | some (state', ending, out) =>
      state' < 256 ∧ (ending = true ↔ AllOnes state') ∧
        prefixBits state ++ bits 4 b = codes out ++ prefixBits state' := by
  rw [ngxHttpV2HuffDecodeBits]
  rcases huffDecodeCode_spec hs hb with ⟨hstay, rest, hrest⟩ | ⟨hgo, hlt, hending, hread⟩
  · simp only [if_pos hstay]
    exact ⟨[], rest, by rw [codes_nil, nil_append, hrest]⟩
  · simp only [if_neg hgo]
    refine ⟨hlt, ?_, ?_⟩
    · rw [decide_eq_true_eq, hending]
      constructor
      · intro h
        exact ⟨_, h⟩
      · rintro ⟨k, hk⟩
        have hlen := congrArg List.length hk
        rw [prefixBits, pairBits, length_bits, length_replicate] at hlen
        rw [hk, hlen]
    · rw [hread]
      split_ifs
      · rfl
      · rw [codes_singleton]

/-- What the loop does: it reads the words it emits, and stops at EOS. -/
theorem huffDecodeLoop_spec (hs : state < 256) (ending : Bool) (src : Bytes) :
    match huffDecodeLoop state ending src with
    | none => ReadsEos (prefixBits state ++ bytesBits src)
    | some (state', ending', out) =>
      state' < 256 ∧ (src = [] ∧ ending' = ending ∧ state' = state ∨
      (ending' = true ↔ AllOnes state')) ∧
        prefixBits state ++ bytesBits src = codes out ++ prefixBits state' := by
  induction src generalizing state ending with
  | nil => exact ⟨hs, .inl ⟨rfl, rfl, rfl⟩, by simp⟩
  | cons ch src ih =>
    have hhigh : ch.toNat / 16 < 16 := Nat.div_lt_of_lt_mul ch.toNat_lt
    have hlow : ch.toNat % 16 < 16 := mod_lt _ (by decide)
    have hread : prefixBits state ++ bytesBits (ch :: src) =
        prefixBits state ++ bits 4 (ch.toNat / 16) ++ bits 4 (ch.toNat % 16) ++ bytesBits src := by
      rw [bytesBits_cons, bits_byte]
      simp
    rw [hread, huffDecodeLoop]
    have h1 := ngxHttpV2HuffDecodeBits_spec hs hhigh
    rcases he1 : ngxHttpV2HuffDecodeBits state (ch.toNat / 16) with _ | ⟨state1, ending1, out1⟩ <;>
      rw [he1] at h1
    · exact ReadsEos.append (ReadsEos.append h1 _) _
    obtain ⟨hs1, -, hread1⟩ := h1
    have h2 := ngxHttpV2HuffDecodeBits_spec hs1 hlow
    rw [hread1, append_assoc (codes out1)]
    simp only [Option.bind_some]
    rcases he2 : ngxHttpV2HuffDecodeBits state1 (ch.toNat % 16) with _ | ⟨state2, ending2, out2⟩ <;>
      rw [he2] at h2
    · exact ReadsEos.append (ReadsEos.codes_append h2 out1) _
    obtain ⟨hs2, hending2, hread2⟩ := h2
    have h3 := ih hs2 ending2
    rw [hread2, ← append_assoc (codes out1), ← codes_append, append_assoc]
    simp only [Option.bind_some]
    rcases he3 : huffDecodeLoop state2 ending2 src with _ | ⟨state3, ending3, out3⟩ <;>
      rw [he3] at h3
    · exact ReadsEos.codes_append h3 (out1 ++ out2)
    obtain ⟨hs3, hending3, hread3⟩ := h3
    refine ⟨hs3, .inr ?_, ?_⟩
    · rcases hending3 with ⟨-, rfl, rfl⟩ | hending3
      · exact hending2
      · exact hending3
    · rw [hread3, ← append_assoc, ← codes_append]

/-! ## Calls -/

/-- What some calls do, from the state `state`: they stop at EOS or at an end that is not
all ones, and otherwise emit what they read. -/
theorem huffDecodeCalls_spec (hs : state < 256) (srcs : List Bytes) (final : Bytes) :
    match huffDecodeCalls state srcs final with
    | none =>
      ReadsEos (prefixBits state ++ bytesBits (srcs.flatten ++ final)) ∨
        ∃ state' out, state' < 256 ∧ ¬ AllOnes state' ∧
          prefixBits state ++ bytesBits (srcs.flatten ++ final) = codes out ++ prefixBits state'
    | some out =>
      ∃ state', state' < 256 ∧ (final = [] ∨ AllOnes state') ∧
        prefixBits state ++ bytesBits (srcs.flatten ++ final) = codes out ++ prefixBits state' := by
  induction srcs generalizing state with
  | nil =>
    have h := huffDecodeLoop_spec hs true final
    rw [huffDecodeCalls, ngxHttpV2HuffDecode]
    rcases he : huffDecodeLoop state true final with _ | ⟨state', ending, out⟩ <;> rw [he] at h
    · exact .inl h
    obtain ⟨hs', hending, hread⟩ := h
    rcases ending with _ | _
    · refine .inr ⟨state', out, hs', ?_, hread⟩
      rcases hending with ⟨-, hf, -⟩ | hending
      · exact absurd hf (by decide)
      · exact fun h => absurd (hending.mpr h) (by decide)
    · refine ⟨state', hs', ?_, hread⟩
      rcases hending with ⟨hf, -⟩ | hending
      · exact .inl hf
      · exact .inr (hending.mp rfl)
  | cons src srcs ih =>
    have h := huffDecodeLoop_spec hs true src
    rw [huffDecodeCalls, ngxHttpV2HuffDecode, flatten_cons, append_assoc,
      bytesBits_append, ← append_assoc]
    rcases he : huffDecodeLoop state true src with _ | ⟨state1, ending, out1⟩ <;> rw [he] at h
    · exact .inl (ReadsEos.append h _)
    obtain ⟨hs1, -, hread⟩ := h
    have hrest := ih hs1
    rw [hread, append_assoc]
    simp only [Option.bind_some, Bool.false_eq_true, if_false]
    rcases hc : huffDecodeCalls state1 srcs final with _ | out <;> rw [hc] at hrest
    · rcases hrest with heos | ⟨state', out, hs', hones, hread'⟩
      · exact .inl (heos.codes_append out1)
      · exact .inr ⟨state', out1 ++ out, hs', hones, by
          rw [hread', ← append_assoc, ← codes_append]⟩
    · obtain ⟨state', hs', hones, hread'⟩ := hrest
      exact ⟨state', hs', hones, by rw [hread', ← append_assoc, ← codes_append]⟩

/-- Fewer than 30 one-bits are EOS cut short. -/
theorem isTail_ones (hk : k < 30) : IsTail code (replicate k true) := by
  refine ⟨none, ?_, fun h => ?_⟩
  · rw [code_none]
    exact ⟨replicate (30 - k) true, by rw [← replicate_add]; congr 1; omega⟩
  · have hlen := congrArg List.length h
    rw [code_none, length_replicate, length_replicate] at hlen
    omega

theorem codes_append_inj {s' : Bytes} {t t' : List Bool} (ht : IsTail code t)
    (ht' : IsTail code t') (h : codes s ++ t = codes s' ++ t') : s = s' ∧ t = t' := by
  obtain ⟨hs, htt⟩ := encode_append_inj prefixFree_code ht ht' h
  exact ⟨(map_inj_right fun _ _ h => Option.some.inj h).mp hs, htt⟩

/-- The words of a string and a word cut short do not hold EOS. -/
theorem not_readsEos {t : List Bool} (ht : IsTail code t) : ¬ ReadsEos (codes s ++ t) := by
  rintro ⟨s', rest, h⟩
  have heos : encode code (s'.map some ++ [none]) ++ rest = encode code (s.map some) ++ t := by
    rw [encode_append, encode_cons, encode_nil, append_nil]
    exact h.symm
  have hmem := (isPrefix_of_encode prefixFree_code ht heos).subset
    (mem_append_right _ (mem_singleton_self none))
  simp at hmem

/-- The decoder gives back a string from its words, padded with fewer than 30 one-bits,
in whatever calls they come. -/
theorem huffDecodeCalls_codes {final : Bytes}
    (hk : k < 30) (h : bytesBits (srcs.flatten ++ final) = codes s ++ replicate k true) :
    huffDecodeCalls 0 srcs final = some s := by
  have hspec := huffDecodeCalls_spec (show 0 < 256 by decide) srcs final
  rw [prefixBits_zero, h] at hspec
  rcases hc : huffDecodeCalls 0 srcs final with _ | out <;> rw [hc] at hspec
  · rcases hspec with heos | ⟨state', out, hs', hones, hread⟩
    · exact absurd heos (not_readsEos (isTail_ones hk))
    · obtain ⟨-, ht⟩ := codes_append_inj (isTail_ones hk) (isTail_prefixBits hs') hread
      exact absurd ⟨k, ht.symm⟩ hones
  · obtain ⟨state', hs', -, hread⟩ := hspec
    obtain ⟨rfl, -⟩ := codes_append_inj (isTail_ones hk) (isTail_prefixBits hs') hread
    rfl

/-- **What the decoder accepts**, in calls of which the last has some input if any has:
the words of its output and fewer than 30 one-bits. -/
theorem huffDecodeCalls_eq_some_iff {final : Bytes}
    (hfinal : final = [] → srcs.flatten = []) (s : Bytes) : huffDecodeCalls 0 srcs final = some s ↔
      ∃ k, k < 30 ∧ bytesBits (srcs.flatten ++ final) = codes s ++ replicate k true := by
  constructor
  · intro hc
    have hspec := huffDecodeCalls_spec (show 0 < 256 by decide) srcs final
    rw [prefixBits_zero, nil_append, hc] at hspec
    obtain ⟨state', hs', hend, hread⟩ := hspec
    have hones : AllOnes state' := by
      rcases hend with rfl | hones
      · rw [hfinal rfl] at hread
        exact ⟨0, (append_eq_nil_iff.mp hread.symm).2⟩
      · exact hones
    obtain ⟨k, hk⟩ := hones
    refine ⟨k, ?_, by rw [hread, hk]⟩
    have hlen := congrArg List.length hk
    rw [prefixBits, pairBits, length_bits, length_replicate] at hlen
    rw [← hlen]
    exact (statePrefix_bounds hs').2
  · rintro ⟨k, hk, h⟩
    exact huffDecodeCalls_codes hk h

/-!
# `ngx_http_v2_huff_encode`

The invariant (`Packed`): the bytes written and the bits pending are the words so far.
-/

/-! ## The encoder -/

/-- `ngx_tolower` -/
def ngxTolower (c : UInt8) : UInt8 := if 0x41 ≤ c ∧ c ≤ 0x5a then c ||| 0x20 else c

/-- The string that is encoded: `s`, or `s` in lower case. -/
def lowered (lower : Bool) (s : Bytes) : Bytes := if lower then s.map ngxTolower else s

/-- The `n` low bytes of `buf`, the most significant first.  With `n = sizeof(buf)` it is
`ngx_http_v2_huff_encode_buf`. -/
def bigEndian : ℕ → ℕ → Bytes
  | 0, _ => []
  | n + 1, buf => UInt8.ofNat (buf >>> (8 * n)) :: bigEndian n buf

/-- `ngx_align(d, a)` for `a = 8` -/
def ngxAlign8 (d : ℕ) : ℕ := (d + 7) / 8 * 8

/-- The `while (src != end)` loop.  `size` is `sizeof(buf)`, so that `buf` has `size * 8`
bits; `dst` holds the `hlen` bytes written so far; `none` is `return 0`. -/
def huffEncodeLoop (size len : ℕ) (table : List (ℕ × ℕ)) :
    Bytes → ℕ → ℕ → Bytes → Option (Bytes × ℕ × ℕ)
  | dst, buf, pending, [] => some (dst, buf, pending)
  | dst, buf, pending, c :: src =>
    let code := (table.getD c.toNat (0, 0)).1
    let pending := pending + (table.getD c.toNat (0, 0)).2
    if pending < size * 8 then
      huffEncodeLoop size len table dst
        (buf ||| (code <<< (size * 8 - pending)) % 2 ^ (size * 8)) pending src
    else if dst.length + size ≥ len then none
    else
      let pending := pending - size * 8
      huffEncodeLoop size len table (dst ++ bigEndian size (buf ||| code >>> pending))
        (if pending ≠ 0 then (code <<< (size * 8 - pending)) % 2 ^ (size * 8) else 0) pending src

/-- `ngx_http_v2_huff_encode(src, len, dst, lower)`: the `hlen` bytes of `dst`, none of them
where it returns 0. -/
def ngxHttpV2HuffEncode (size : ℕ) (src : Bytes) (lower : Bool) : Bytes :=
  let table := if lower then ngxHttpV2HuffEncodeTableLc else ngxHttpV2HuffEncodeTable
  match huffEncodeLoop size src.length table [] 0 0 src with
  | none => []
  | some (dst, buf, pending) =>
    if pending = 0 then dst
    else
      let buf := buf ||| (2 ^ (size * 8) - 1) >>> pending
      let pending := ngxAlign8 pending
      if dst.length + pending / 8 ≥ src.length then []
      else dst ++ bigEndian (pending / 8) (buf >>> (size * 8 - pending))

/-! ## Packing -/

theorem bytesBits_bigEndian (n v : ℕ) : bytesBits (bigEndian n v) = bits (n * 8) v := by
  induction n with
  | zero => rfl
  | succ n ih =>
    have hmod : bits 8 (v / 2 ^ (n * 8) % 256) = bits 8 (v / 2 ^ (n * 8)) := bits_mod 8 _
    have hlen : (n + 1) * 8 = 8 + n * 8 := by omega
    rw [bigEndian, bytesBits_cons, ih, hlen, bits_add, UInt8.toNat_ofNat',
      Nat.shiftRight_eq_div_pow, mul_comm 8 n, hmod]

theorem length_bigEndian (n v : ℕ) : (bigEndian n v).length = n := by
  induction n with
  | zero => rfl
  | succ n ih => rw [bigEndian, length_cons, ih]

/-- A number below a power of two is put under a multiple of it. -/
theorem mul_two_pow_or {y : ℕ} (hy : y < 2 ^ k) (x : ℕ) : x * 2 ^ k ||| y = x * 2 ^ k + y := by
  rw [← Nat.shiftLeft_eq, Nat.shiftLeft_add_eq_or_of_lt hy]

/-- The bytes written and the bits pending are the bits `b`. -/
def Packed (size : ℕ) (dst : Bytes) (buf pending : ℕ) (b : List Bool) : Prop :=
  pending < size * 8 ∧ ∃ x, x < 2 ^ pending ∧ buf = x * 2 ^ (size * 8 - pending) ∧
    bytesBits dst ++ bits pending x = b

variable {size buf pending : ℕ} {dst : Bytes} {b : List Bool}

/-- A word that still fits. -/
theorem Packed.push {v l : ℕ}
    (h : Packed size dst buf pending b) (hv : v < 2 ^ l) (hfit : pending + l < size * 8) :
    Packed size dst (buf ||| (v <<< (size * 8 - (pending + l))) % 2 ^ (size * 8)) (pending + l)
      (b ++ bits l v) := by
  obtain ⟨hp, x, hx, rfl, rfl⟩ := h
  obtain ⟨k, hk⟩ := Nat.exists_eq_add_of_lt hfit
  have hrest : size * 8 - (pending + l) = k + 1 := by omega
  have hroom : size * 8 - pending = l + (k + 1) := by omega
  have hlt : v * 2 ^ (k + 1) < 2 ^ (l + (k + 1)) := by
    rw [pow_add 2 l (k + 1)]
    exact Nat.mul_lt_mul_of_pos_right hv (two_pow_pos _)
  have hmod : v * 2 ^ (k + 1) < 2 ^ (size * 8) :=
    lt_of_lt_of_le hlt (Nat.pow_le_pow_right Nat.two_pos (by omega))
  refine ⟨hfit, x * 2 ^ l + v, ?_, ?_, ?_⟩
  · rw [pow_add]
    calc x * 2 ^ l + v < x * 2 ^ l + 2 ^ l := Nat.add_lt_add_left hv _
      _ = (x + 1) * 2 ^ l := (Nat.succ_mul x _).symm
      _ ≤ 2 ^ pending * 2 ^ l := Nat.mul_le_mul_right _ hx
  · rw [hrest, hroom, Nat.shiftLeft_eq, Nat.mod_eq_of_lt hmod, mul_two_pow_or hlt, add_mul,
      mul_assoc, ← pow_add]
  · rw [bits_mul_add hv, append_assoc]

/-- A word that fills the machine word. -/
theorem Packed.flush {v l : ℕ} (h : Packed size dst buf pending b) (hv : v < 2 ^ l)
    (hl : l ≤ size * 8) (hfull : size * 8 ≤ pending + l) :
    Packed size (dst ++ bigEndian size (buf ||| v >>> (pending + l - size * 8)))
      (if pending + l - size * 8 ≠ 0 then
        (v <<< (size * 8 - (pending + l - size * 8))) % 2 ^ (size * 8) else 0)
      (pending + l - size * 8) (b ++ bits l v) := by
  obtain ⟨hp, x, hx, rfl, rfl⟩ := h
  obtain ⟨r, hr⟩ := Nat.exists_eq_add_of_le hfull
  obtain ⟨m, hm⟩ := Nat.exists_eq_add_of_lt hp
  have hsub : pending + l - size * 8 = r := by omega
  have hlm : l = m + 1 + r := by omega
  rw [hsub]
  subst hlm
  have hroom : size * 8 - pending = m + 1 := by omega
  have hquot : v / 2 ^ r < 2 ^ (m + 1) :=
    Nat.div_lt_of_lt_mul (by rwa [← pow_add, add_comm])
  refine ⟨by omega, v % 2 ^ r, mod_lt _ (two_pow_pos _), ?_, ?_⟩
  · have hsplit : 2 ^ (size * 8) = 2 ^ r * 2 ^ (size * 8 - r) := by
      rw [← pow_add]
      congr 1
      omega
    split_ifs with hr0
    · rw [Nat.shiftLeft_eq, hsplit, Nat.mul_mod_mul_right]
    · rw [not_not] at hr0
      rw [hr0, pow_zero, Nat.mod_one, zero_mul]
  · have hword : bits (size * 8) (x * 2 ^ (m + 1) + v / 2 ^ r) =
        bits pending x ++ bits (m + 1) (v / 2 ^ r) := by
      rw [← bits_mul_add hquot]
      congr 1
    rw [hroom, Nat.shiftRight_eq_div_pow, mul_two_pow_or hquot, bytesBits_append,
      bytesBits_bigEndian, hword, bits_add (m + 1) r v]
    simp

/-! ## The tables -/

/-- What a symbol is encoded as. -/
def loweredByte (lower : Bool) (c : UInt8) : UInt8 := if lower then ngxTolower c else c

theorem lowered_eq_map (lower : Bool) (s : Bytes) :
    lowered lower s = s.map (loweredByte lower) := by
  cases lower
  · exact (map_id s).symm
  · rfl

/-- The table for lower case is the other one, read at the lower case letter. -/
theorem encodeTableLc_check :
    (ngxHttpV2HuffEncodeTableLc.length = 256 ∧ ∀ p ∈ ngxHttpV2HuffEncodeTableLc,
      p.1 < 2 ^ 32 ∧ p.2 < 2 ^ 8) ∧
    ((List.range 256).all fun i => decide (unpack (pack ngxHttpV2HuffEncodeTableLc) i =
      unpack (pack ngxHttpV2HuffEncodeTable) (ngxTolower (UInt8.ofNat i)).toNat)) = true := by
  decide +kernel

theorem encodeTable_length : ngxHttpV2HuffEncodeTable.length = 256 := by
  have h := words_length
  rw [words, length_append] at h
  exact Nat.succ.inj h

theorem table_getD (lower : Bool) (c : UInt8) :
    (if lower then ngxHttpV2HuffEncodeTableLc else ngxHttpV2HuffEncodeTable).getD c.toNat (0, 0) =
      huffCode (symIndex (some (loweredByte lower c))) := by
  have hc : c.toNat < 256 := c.toNat_lt
  cases lower
  · have hlt : c.toNat < ngxHttpV2HuffEncodeTable.length := by rwa [encodeTable_length]
    show ngxHttpV2HuffEncodeTable.getD c.toNat (0, 0) = ngxHttpV2HuffEncodeTable.getD c.toNat _
    rw [getD_eq_getElem _ _ hlt, getD_eq_getElem _ _ hlt]
  · have hlt : c.toNat < ngxHttpV2HuffEncodeTableLc.length := by rwa [encodeTableLc_check.1.1]
    have hcheck := of_decide_eq_true
      (all_eq_true.mp encodeTableLc_check.2 c.toNat (mem_range.mpr hc))
    rw [unpack_pack encodeTableLc_check.1.2 hlt (0, 0), UInt8.ofNat_toNat,
      unpack_encodeTable (ngxTolower c).toNat_lt] at hcheck
    exact hcheck

/-! ## What the encoder writes -/

theorem codes_cons (c : UInt8) (s : Bytes) : codes (c :: s) =
      bits (huffCode (symIndex (some c))).2 (huffCode (symIndex (some c))).1 ++ codes s :=
  rfl

/-- The bytes written are fewer than the bytes read, if any are written. -/
def Gains (len : ℕ) (dst : Bytes) : Prop := dst ≠ [] → dst.length < len

theorem Packed.length
    (h : Packed size dst buf pending b) : b.length = dst.length * 8 + pending := by
  obtain ⟨-, x, -, -, rfl⟩ := h
  have hbytes : (bytesBits dst).length = dst.length * 8 := by
    induction dst with
    | nil => rfl
    | cons ch dst ih => simp [ih]; omega
  rw [length_append, length_bits, hbytes]

/-- The loop packs the words of what it reads, and gives up only when they take up all the
room there is. -/
theorem huffEncodeLoop_spec {len : ℕ}
    (hsize : 4 ≤ size) (h : Packed size dst buf pending b) (hgain : Gains len dst) (lower : Bool)
    (src : Bytes) : match huffEncodeLoop size len
      (if lower then ngxHttpV2HuffEncodeTableLc else ngxHttpV2HuffEncodeTable) dst buf pending src
    with
    | none => len * 8 ≤ (b ++ codes (lowered lower src)).length
    | some (dst', buf', pending') =>
      Packed size dst' buf' pending' (b ++ codes (lowered lower src)) ∧ Gains len dst' := by
  simp only [lowered_eq_map]
  induction src generalizing dst buf pending b with
  | nil =>
    rw [map_nil, codes_nil, append_nil]
    exact ⟨h, hgain⟩
  | cons c src ih =>
    obtain ⟨hv, h5, h30⟩ := huffCode_bounds (some (loweredByte lower c))
    rw [huffEncodeLoop, table_getD, map_cons, codes_cons, ← append_assoc]
    by_cases hfit : pending + (huffCode (symIndex (some (loweredByte lower c)))).2 < size * 8
    · simp only [if_pos hfit]
      exact ih (h.push hv hfit) hgain
    · have hfull := le_of_not_gt hfit
      have hflush := h.flush hv (by omega) hfull
      simp only [if_neg hfit]
      by_cases hroom : dst.length + size ≥ len
      · simp only [if_pos hroom]
        have hlen := hflush.length
        have hdst : (dst ++ bigEndian size (buf ||| (huffCode (symIndex (some
            (loweredByte lower c)))).1 >>> (pending + (huffCode (symIndex (some
            (loweredByte lower c)))).2 - size * 8))).length = dst.length + size := by
          rw [length_append, length_bigEndian]
        rw [length_append]
        omega
      · simp only [if_neg hroom]
        refine ih hflush fun _ => ?_
        rw [length_append, length_bigEndian]
        exact lt_of_not_ge hroom

/-- The number of bytes that the words of a string take up. -/
def huffBytes (s : Bytes) : ℕ := ((codes s).length + 7) / 8

/-- The last bytes: the bits pending, and ones up to the next byte. -/
theorem Packed.last (h : Packed size dst buf pending b) : ∃ k, k < 8 ∧
      bytesBits (dst ++ bigEndian (ngxAlign8 pending / 8)
        ((buf ||| (2 ^ (size * 8) - 1) >>> pending) >>> (size * 8 - ngxAlign8 pending))) =
        b ++ replicate k true := by
  obtain ⟨hlt, x, hx, rfl, rfl⟩ := h
  obtain ⟨k, hk, halign⟩ : ∃ k, k < 8 ∧ ngxAlign8 pending = pending + k := by
    refine ⟨ngxAlign8 pending - pending, ?_, ?_⟩ <;> unfold ngxAlign8 <;> omega
  have hle : pending + k ≤ size * 8 := by
    rw [← halign]
    unfold ngxAlign8
    omega
  obtain ⟨m, hm⟩ := Nat.exists_eq_add_of_le hle
  have hpos : 0 < 2 ^ k := two_pow_pos k
  have hpos' : 0 < 2 ^ (k + m) := two_pow_pos _
  have hones : (2 ^ (size * 8) - 1) >>> pending = 2 ^ (k + m) - 1 := by
    apply Nat.eq_of_testBit_eq
    intro i
    rw [Nat.testBit_shiftRight, Nat.testBit_two_pow_sub_one, Nat.testBit_two_pow_sub_one,
      decide_eq_decide]
    omega
  have hshift : (x * 2 ^ (k + m) + (2 ^ (k + m) - 1)) >>> m = x * 2 ^ k + (2 ^ k - 1) := by
    have hm0 : 0 < 2 ^ m := two_pow_pos m
    have hsplit : x * 2 ^ (k + m) + (2 ^ (k + m) - 1) =
        (2 ^ m - 1) + (x * 2 ^ k + (2 ^ k - 1)) * 2 ^ m := by
      rw [add_mul, Nat.sub_mul, pow_add, mul_assoc]
      have := Nat.le_mul_of_pos_left (2 ^ m) hpos
      omega
    rw [Nat.shiftRight_eq_div_pow, hsplit, Nat.add_mul_div_right _ _ hm0,
      Nat.div_eq_of_lt (sub_lt hm0 Nat.one_pos), zero_add]
  have hroom : size * 8 - pending = k + m := by omega
  have hrest : size * 8 - (pending + k) = m := by omega
  have hbytes : (pending + k) / 8 * 8 = pending + k := by
    rw [← halign]
    unfold ngxAlign8
    omega
  refine ⟨k, hk, ?_⟩
  rw [halign, hroom, hrest, hones, mul_two_pow_or (sub_lt hpos' Nat.one_pos), hshift,
    bytesBits_append, bytesBits_bigEndian, hbytes, bits_mul_add (sub_lt hpos Nat.one_pos),
    bits_ones, append_assoc]

/-- **What the encoder writes**: the words of the string, padded with ones to a whole
number of bytes, if that is fewer bytes than the string has, and nothing otherwise. -/
theorem ngxHttpV2HuffEncode_spec (hsize : 4 ≤ size) (src : Bytes) (lower : Bool) :
    if huffBytes (lowered lower src) < src.length then
      (ngxHttpV2HuffEncode size src lower).length = huffBytes (lowered lower src) ∧
        ∃ k, k < 8 ∧ bytesBits (ngxHttpV2HuffEncode size src lower) =
          codes (lowered lower src) ++ replicate k true
    else ngxHttpV2HuffEncode size src lower = [] := by
  have hstart : Packed size [] 0 0 [] := ⟨by omega, 0, Nat.one_pos, (zero_mul _).symm, rfl⟩
  have hloop := huffEncodeLoop_spec hsize hstart (fun h => absurd rfl h : Gains src.length [])
    lower src
  rw [nil_append] at hloop
  unfold ngxHttpV2HuffEncode huffBytes
  simp only
  rcases he : huffEncodeLoop size src.length
    (if lower then ngxHttpV2HuffEncodeTableLc else ngxHttpV2HuffEncodeTable) [] 0 0 src with
    _ | ⟨dst, buf, pending⟩ <;> rw [he] at hloop
  · rw [if_neg (by omega)]
  · obtain ⟨hpacked, hgain⟩ := hloop
    have hlen := hpacked.length
    by_cases hp : pending = 0
    · simp only [if_pos hp]
      have hbits : bytesBits dst = codes (lowered lower src) := by
        obtain ⟨-, x, -, -, hx⟩ := hpacked
        rwa [hp, bits_zero, append_nil] at hx
      have hbytes : ((codes (lowered lower src)).length + 7) / 8 = dst.length := by omega
      rw [hbytes]
      split_ifs with hlt
      · exact ⟨rfl, 0, by decide, by rw [hbits, replicate_zero, append_nil]⟩
      · by_contra hne
        exact hlt (hgain hne)
    · simp only [if_neg hp]
      obtain ⟨k, hk, hbits⟩ := hpacked.last
      have halign : ngxAlign8 pending / 8 = (pending + 7) / 8 :=
        Nat.mul_div_cancel _ (by decide)
      have hbytes : ((codes (lowered lower src)).length + 7) / 8 =
          dst.length + ngxAlign8 pending / 8 := by omega
      rw [hbytes]
      split_ifs with hlt hge
      · omega
      · exact ⟨by rw [length_append, length_bigEndian], k, hk, hbits⟩
      · rfl
      · omega

/-! ## Encoding and decoding -/

/-- **The Huffman coding of HPACK**: the encoder writes something exactly when that is
shorter than the string, the decoder gives the string back from it in whatever calls it
comes, and the decoder accepts exactly the words of its output followed by fewer than 30
one-bits. -/
theorem huffCoding {size : ℕ} (hsize : 4 ≤ size) : (∀ s lower,
      (0 < (ngxHttpV2HuffEncode size s lower).length ↔ huffBytes (lowered lower s) < s.length) ∧
      (0 < (ngxHttpV2HuffEncode size s lower).length →
        ∀ srcs final, srcs.flatten ++ final = ngxHttpV2HuffEncode size s lower →
          huffDecodeCalls 0 srcs final = some (lowered lower s))) ∧
    (∀ srcs final s, (final = [] → srcs.flatten = []) → (huffDecodeCalls 0 srcs final = some s ↔
        ∃ k, k < 30 ∧ bytesBits (srcs.flatten ++ final) = codes s ++ replicate k true)) := by
  refine ⟨fun s lower => ?_, fun srcs final s hfinal => huffDecodeCalls_eq_some_iff hfinal s⟩
  have hspec := ngxHttpV2HuffEncode_spec hsize s lower
  by_cases hgain : huffBytes (lowered lower s) < s.length
  · rw [if_pos hgain] at hspec
    obtain ⟨hlen, k, hk, hbits⟩ := hspec
    have hpos : 0 < huffBytes (lowered lower s) := by
      have hne : lowered lower s ≠ [] := by
        rw [lowered_eq_map]
        rintro hnil
        rw [map_eq_nil_iff.mp hnil] at hgain
        exact Nat.not_lt_zero _ hgain
      obtain ⟨c, s', hs'⟩ := exists_cons_of_ne_nil hne
      have h5 := (huffCode_bounds (some c)).2.1
      rw [hs', huffBytes, codes_cons, length_append, length_bits]
      omega
    refine ⟨iff_of_true (by rwa [hlen]) hgain, fun _ srcs final hcut => ?_⟩
    refine huffDecodeCalls_codes (Nat.lt_trans hk (by decide)) ?_
    rw [hcut, hbits]
  · rw [if_neg hgain] at hspec
    rw [hspec]
    exact ⟨iff_of_false (Nat.lt_irrefl 0) hgain, fun h => absurd h (Nat.lt_irrefl 0)⟩

/-- `aaa` is encoded in two bytes, and decoded from them one at a time; a byte of ones
after the code of `&` is accepted. -/
theorem huffCoding_aaa : huffDecodeCalls 0 [[0x18]] [0xc7] = some [0x61, 0x61, 0x61] ∧
      ∃ k, k < 30 ∧ bytesBits [0xf8, 0xff] = codes [0x26] ++ replicate k true :=
  ⟨((huffCoding (show 4 ≤ 8 by decide)).1 [0x61, 0x61, 0x61] false).2 (by decide +kernel) [[0x18]]
      [0xc7] (by decide +kernel),
    ((huffCoding (show 4 ≤ 8 by decide)).2 [] [0xf8, 0xff] [0x26] (by decide)).mp
      (by decide +kernel)⟩

/-- The decoder does not bound the padding by seven bits: it accepts a byte of ones.  And the same
bytes are refused when an empty last call follows. -/
theorem huffDecode_longPadding : (¬ ∀ src s, huffDecodeCalls 0 [] src = some s ↔
      ∃ k, k < 8 ∧ bytesBits src = codes s ++ replicate k true) ∧
    huffDecodeCalls 0 [[0]] [] ≠ huffDecodeCalls 0 [] [0] := by
  refine ⟨fun h => ?_, by decide +kernel⟩
  have haccepted : huffDecodeCalls 0 [] [0xff] = some [] := by decide +kernel
  obtain ⟨k, hk, hbits⟩ := (h [0xff] []).mp haccepted
  have hlen := congrArg List.length hbits
  rw [bytesBits_cons, length_append, length_bits, codes_nil, nil_append, length_replicate] at hlen
  omega

end Huff
