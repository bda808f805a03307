/-
# The grammar of chunked bodies

What a chunked body is, as a grammar over byte strings that also says which data it
carries.  `Body stray fits` leaves two things open: the bytes allowed between the data
of a chunk and its line end, and the chunk sizes allowed.  The encoding proper is
`ChunkedEncoding` (no stray bytes, any size); the language of the parser turns out to be
`AcceptedBody` (any stray bytes but line ends, sizes up to `maxOffT / 16`).

The second half reads the grammar letter by letter: `Residual` gives what may still
follow in each parser state, and `residual_cons` is its derivative by one byte.
-/
import ReadingCode.ChunkedParser

open Transducer

namespace Chunked

open List

/-! ## The grammar -/

/-- A language whose texts carry data. -/
abbrev Lang := Bytes → Bytes → Prop

/-- No line-end byte. -/
def NoEol (x : Bytes) : Prop := ∀ ch ∈ x, ch ≠ CR ∧ ch ≠ LF

/-- A line ends with CRLF or with a bare LF. -/
inductive LineEnd : Bytes → Prop where
  | crlf : LineEnd [CR, LF]
  | lf : LineEnd [LF]

/-- The value of a run of hex digits read after the value `acc`. -/
def hexNumber (acc : ℕ) : Bytes → Option ℕ
  | [] => some acc
  | ch :: ds => (hexDigit ch).bind fun v => hexNumber (acc * 16 + v) ds

/-- A chunk extension: nothing, or `;`, a space or a tab and anything on the line. -/
def Extension (x : Bytes) : Prop :=
  x = [] ∨ ∃ c y, x = c :: y ∧ (c = 0x3b ∨ c = SP ∨ c = HT) ∧ NoEol y

/-- The line that opens a chunk: its size in hex, an extension, a line end. -/
def SizeLine (n : ℕ) (x : Bytes) : Prop :=
  ∃ ds ext e, ds ≠ [] ∧ hexNumber 0 ds = some n ∧ Extension ext ∧ LineEnd e ∧
    x = ds ++ (ext ++ e)

/-- The trailer: non-empty lines and an empty one. -/
inductive Trailers : Bytes → Prop where
  | done {e : Bytes} (he : LineEnd e) : Trailers e
  | line {x e t : Bytes} (hx : x ≠ []) (hno : NoEol x) (he : LineEnd e)
      (ht : Trailers t) : Trailers (x ++ (e ++ t))

/-- Chunked bodies and their data, for the stray bytes and the chunk sizes allowed. -/
inductive Body (stray : Bytes → Prop) (fits : ℕ → Prop) : Lang where
  | last {line t : Bytes} (hline : SizeLine 0 line) (ht : Trailers t) :
      Body stray fits (line ++ t) []
  | chunk {n : ℕ} {line data junk e rest d : Bytes} (hline : SizeLine n line)
      (hn : n ≠ 0) (hfits : fits n) (hdata : data.length = n) (hjunk : stray junk)
      (he : LineEnd e) (hrest : Body stray fits rest d) :
      Body stray fits (line ++ (data ++ (junk ++ (e ++ rest)))) (data ++ d)

/-- The chunked encoding: nothing stands between the data and its line end. -/
def ChunkedEncoding : Lang := Body (· = []) fun _ => True

/-- What the parser takes for a chunked body. -/
def AcceptedBody : Lang := Body NoEol (· ≤ maxOffT / 16)

/-! ## Reading a line end -/

theorem noEol_nil : NoEol [] := fun _ h => absurd h not_mem_nil

variable {ch : UInt8}

theorem noEol_cons {x : Bytes} : NoEol (ch :: x) ↔ (ch ≠ CR ∧ ch ≠ LF) ∧ NoEol x := by
  simp [NoEol]

/-- The rest of a line, then `K`. -/
def Upto (K : Lang) : Lang := fun p d =>
  ∃ x e p', NoEol x ∧ LineEnd e ∧ p = x ++ (e ++ p') ∧ K p' d

/-- `LF`, then `K`: what is left of a line after its `CR`. -/
def AfterCr (K : Lang) : Lang := fun p d => ∃ p', p = LF :: p' ∧ K p' d

variable {K : Lang} {d : Bytes}

theorem upto_nil : ¬ Upto K [] d := by
  rintro ⟨x, e, p', -, he, hp, -⟩
  cases he <;> simp at hp

variable {p : Bytes}

theorem upto_lf : Upto K (LF :: p) d ↔ K p d := by
  constructor
  · rintro ⟨x, e, p', hx, he, hp, hK⟩
    cases x with
    | nil => cases he <;> simp_all
    | cons c x => simp_all [noEol_cons]
  · exact fun h => ⟨[], [LF], p, noEol_nil, .lf, rfl, h⟩

theorem upto_cr : Upto K (CR :: p) d ↔ AfterCr K p d := by
  constructor
  · rintro ⟨x, e, p', hx, he, hp, hK⟩
    cases x with
    | nil => cases he with
      | crlf => exact ⟨p', by simpa using hp, hK⟩
      | lf => simp at hp
    | cons c x => simp_all [noEol_cons]
  · rintro ⟨p', rfl, h⟩
    exact ⟨[], [CR, LF], p', noEol_nil, .crlf, rfl, h⟩

theorem upto_cons (h1 : ch ≠ CR) (h2 : ch ≠ LF) : Upto K (ch :: p) d ↔ Upto K p d := by
  constructor
  · rintro ⟨x, e, p', hx, he, hp, hK⟩
    cases x with
    | nil => cases he <;> simp_all
    | cons c x =>
      obtain ⟨rfl, rfl⟩ := List.cons.inj (by simpa using hp)
      exact ⟨x, e, p', (noEol_cons.mp hx).2, he, rfl, hK⟩
  · rintro ⟨x, e, p', hx, he, rfl, hK⟩
    exact ⟨ch :: x, e, p', noEol_cons.mpr ⟨⟨h1, h2⟩, hx⟩, he, rfl, hK⟩

/-- One byte of a line. -/
theorem upto_move : Upto K (ch :: p) d ↔
      if ch = CR then AfterCr K p d else if ch = LF then K p d else Upto K p d := by
  split_ifs with hc hl
  · rw [hc, upto_cr]
  · rw [hl, upto_lf]
  · exact upto_cons hc hl

theorem afterCr_cons : AfterCr K (ch :: p) d ↔ ch = LF ∧ K p d := by
  constructor
  · rintro ⟨p', hp, hK⟩
    obtain ⟨rfl, rfl⟩ := List.cons.inj hp
    exact ⟨rfl, hK⟩
  · rintro ⟨rfl, hK⟩
    exact ⟨p, rfl, hK⟩

theorem afterCr_nil : ¬ AfterCr K [] d := by
  rintro ⟨p', hp, -⟩
  simp at hp

/-! ## What may follow in each state -/

/-- After the data of a chunk: stray bytes up to the line end, and the rest of the body. -/
def AfterData : Lang := Upto AcceptedBody

/-- The data of a chunk of size `n` and what follows it. -/
def DataThen (n : ℕ) : Lang := fun p d =>
  ∃ data p' d', data.length = n ∧ p = data ++ p' ∧ d = data ++ d' ∧ AfterData p' d'

/-- The trailer, which carries no data. -/
def LastPart : Lang := fun p d => Trailers p ∧ d = []

/-- What follows the size line of a chunk of size `n`. -/
def Tail (n : ℕ) : Lang := fun p d =>
  (n = 0 ∧ LastPart p d) ∨ (n ≠ 0 ∧ n ≤ maxOffT / 16 ∧ DataThen n p d)

@[simp] theorem tail_zero : Tail 0 = LastPart := by
  funext p d
  simp [Tail]

variable {n : ℕ}

theorem tail_of_ne (hn : n ≠ 0) (hle : n ≤ maxOffT / 16) : Tail n = DataThen n := by
  funext p d
  simp [Tail, hn, hle]

/-- What follows the digits of a size line. -/
def LineRest (n : ℕ) : Lang := fun p d =>
  ∃ ext e p', Extension ext ∧ LineEnd e ∧ p = ext ++ (e ++ p') ∧ Tail n p' d

/-- What follows a first part of the digits, worth `acc`. -/
def SizeRest (acc : ℕ) : Lang := fun p d =>
  ∃ ds n p', hexNumber acc ds = some n ∧ p = ds ++ p' ∧ LineRest n p' d

/-- What may follow in a parser state. -/
def Residual : Pos → Lang
  | (.chunkStart, _) => AcceptedBody
  | (.chunkSize, acc) => SizeRest acc
  | (.chunkExtension, n) => Upto (Tail n)
  | (.chunkExtensionAlmostDone, n) => AfterCr (Tail n)
  | (.chunkData, n) => DataThen n
  | (.afterData, _) => AfterData
  | (.afterDataAlmostDone, _) => AfterCr AcceptedBody
  | (.lastChunkExtension, _) => Upto LastPart
  | (.lastChunkExtensionAlmostDone, _) => AfterCr LastPart
  | (.trailer, _) => LastPart
  | (.trailerAlmostDone, _) => AfterCr fun p d => p = [] ∧ d = []
  | (.trailerHeader, _) => Upto LastPart
  | (.trailerHeaderAlmostDone, _) => AfterCr LastPart

/-- A body is a size line and its tail. -/
theorem acceptedBody_iff :
    AcceptedBody p d ↔ ∃ n line p', SizeLine n line ∧ p = line ++ p' ∧ Tail n p' d := by
  constructor
  · rintro (⟨hline, ht⟩ | ⟨hline, hn, hfits, hdata, hjunk, he, hrest⟩)
    · exact ⟨0, _, _, hline, rfl, .inl ⟨rfl, ht, rfl⟩⟩
    · exact ⟨_, _, _, hline, rfl, .inr ⟨hn, hfits, _, _, _, hdata, rfl, rfl,
        _, _, _, hjunk, he, rfl, hrest⟩⟩
  · rintro ⟨n, line, p', hline, rfl, ⟨rfl, ht, rfl⟩ | ⟨hn, hfits, data, q, d', hdata, rfl, rfl,
      junk, e, rest, hjunk, he, rfl, hrest⟩⟩
    · exact .last hline ht
    · exact .chunk hline hn hfits hdata hjunk he hrest

/-- The first digit of a body. -/
theorem acceptedBody_cons :
    AcceptedBody (ch :: p) d ↔ ∃ v, hexDigit ch = some v ∧ SizeRest v p d := by
  rw [acceptedBody_iff]
  constructor
  · rintro ⟨n, line, p', ⟨ds, ext, e, hne, hnum, hext, he, rfl⟩, hp, ht⟩
    obtain _ | ⟨c, ds⟩ := ds
    · exact absurd rfl hne
    obtain ⟨rfl, rfl⟩ := List.cons.inj (by simpa using hp)
    cases hv : hexDigit ch with
    | none => simp [hexNumber, hv] at hnum
    | some v =>
      refine ⟨v, rfl, ds, n, ext ++ (e ++ p'), by simpa [hexNumber, hv] using hnum,
        by simp, ext, e, p', hext, he, rfl, ht⟩
  · rintro ⟨v, hv, ds, n, q, hnum, rfl, ext, e, p', hext, he, rfl, ht⟩
    exact ⟨n, _, p', ⟨ch :: ds, ext, e, cons_ne_nil _ _, by simp [hexNumber, hv, hnum],
      hext, he, rfl⟩, by simp, ht⟩

theorem acceptedBody_nil : ¬ AcceptedBody [] d := by
  rw [acceptedBody_iff]
  rintro ⟨n, line, p', ⟨ds, ext, e, hne, -, -, -, rfl⟩, hp, -⟩
  exact hne (append_eq_nil_iff.mp (append_eq_nil_iff.mp hp.symm).1).1

/-! ## The end of a size line -/

variable {acc : ℕ}

theorem le_of_hexNumber {ds : Bytes} (h : hexNumber acc ds = some n) : acc ≤ n := by
  induction ds generalizing acc with
  | nil => exact Nat.le_of_eq (Option.some.inj h)
  | cons ch ds ih =>
    cases hv : hexDigit ch with
    | none => simp [hexNumber, hv] at h
    | some v =>
      have hrest : hexNumber (acc * 16 + v) ds = some n := by simpa [hexNumber, hv] using h
      have := ih hrest
      omega

theorem hexDigit_extension {c : UInt8} (h : c = 0x3b ∨ c = SP ∨ c = HT) :
    hexDigit c = none ∧ c ≠ CR ∧ c ≠ LF := by
  rcases h with rfl | rfl | rfl <;> decide

theorem lineRest_nil : ¬ LineRest n [] d := by
  rintro ⟨ext, e, p', -, he, hp, -⟩
  cases he <;> simp at hp

theorem lineRest_cr : LineRest n (CR :: p) d ↔ AfterCr (Tail n) p d := by
  constructor
  · rintro ⟨ext, e, p', rfl | ⟨c, y, rfl, hc, -⟩, he, hp, ht⟩
    · cases he <;> simp at hp
      exact ⟨p', hp, ht⟩
    · simp at hp
      exact absurd hp.1.symm (hexDigit_extension hc).2.1
  · rintro ⟨p', rfl, ht⟩
    exact ⟨[], [CR, LF], p', .inl rfl, .crlf, rfl, ht⟩

theorem lineRest_lf : LineRest n (LF :: p) d ↔ Tail n p d := by
  constructor
  · rintro ⟨ext, e, p', rfl | ⟨c, y, rfl, hc, -⟩, he, hp, ht⟩
    · cases he <;> simp at hp
      exact hp ▸ ht
    · simp at hp
      exact absurd hp.1.symm (hexDigit_extension hc).2.2
  · exact fun ht => ⟨[], [LF], p, .inl rfl, .lf, rfl, ht⟩

theorem lineRest_cons (h1 : ch ≠ CR) (h2 : ch ≠ LF) :
    LineRest n (ch :: p) d ↔ (ch = 0x3b ∨ ch = SP ∨ ch = HT) ∧ Upto (Tail n) p d := by
  constructor
  · rintro ⟨ext, e, p', rfl | ⟨c, y, rfl, hc, hy⟩, he, hp, ht⟩
    · cases he <;> simp_all
    · obtain ⟨rfl, rfl⟩ := List.cons.inj (by simpa using hp)
      exact ⟨hc, y, e, p', hy, he, rfl, ht⟩
  · rintro ⟨hc, y, e, p', hy, he, rfl, ht⟩
    exact ⟨ch :: y, e, p', .inr ⟨ch, y, rfl, hc, hy⟩, he, rfl, ht⟩

/-- One more digit, or the end of the digits. -/
theorem sizeRest_cons : SizeRest acc (ch :: p) d ↔ match hexDigit ch with
      | some v => SizeRest (acc * 16 + v) p d
      | none => LineRest acc (ch :: p) d := by
  constructor
  · rintro ⟨_ | ⟨c, ds⟩, n, p', hnum, hp, hl⟩
    · obtain rfl := Option.some.inj hnum
      obtain rfl : ch :: p = p' := hp
      cases hv : hexDigit ch with
      | none => exact hl
      | some v =>
        -- a digit does not start the rest of the line
        have h1 : ch ≠ CR := by rintro rfl; simp at hv
        have h2 : ch ≠ LF := by rintro rfl; simp at hv
        have := (hexDigit_extension ((lineRest_cons h1 h2).mp hl).1).1
        simp [hv] at this
    · obtain ⟨rfl, rfl⟩ := List.cons.inj hp
      cases hv : hexDigit ch with
      | none => simp [hexNumber, hv] at hnum
      | some v => exact ⟨ds, n, p', by simpa [hexNumber, hv] using hnum, rfl, hl⟩
  · intro h
    cases hv : hexDigit ch with
    | none =>
      rw [hv] at h
      exact ⟨[], acc, ch :: p, rfl, rfl, h⟩
    | some v =>
      rw [hv] at h
      obtain ⟨ds, n, p', hnum, rfl, hl⟩ := h
      exact ⟨ch :: ds, n, p', by simp [hexNumber, hv, hnum], rfl, hl⟩

/-- A size beyond the bound has no continuation. -/
theorem not_sizeRest_of_large (h : acc > maxOffT / 16) : ¬ SizeRest acc p d := by
  rintro ⟨ds, n, p', hnum, -, ext, e, q, -, -, -, ⟨hn, -⟩ | ⟨-, hn, -⟩⟩ <;>
    · have := le_of_hexNumber hnum
      omega

/-! ## The derivative by one byte -/

theorem lastPart_nil : ¬ LastPart [] d := by
  rintro ⟨ht, -⟩
  generalize hp : ([] : Bytes) = p at ht
  cases ht with
  | done he => cases he <;> simp at hp
  | line hx _ _ _ => exact hx (append_eq_nil_iff.mp hp.symm).1

theorem lastPart_iff : LastPart p d ↔ (LineEnd p ∧ d = []) ∨
      ∃ ch x, ch ≠ CR ∧ ch ≠ LF ∧ p = ch :: x ∧ Upto LastPart x d := by
  constructor
  · rintro ⟨he | @⟨x, e, t, hx, hno, he, ht⟩, rfl⟩
    · exact .inl ⟨he, rfl⟩
    · obtain _ | ⟨ch, x⟩ := x
      · exact absurd rfl hx
      obtain ⟨⟨h1, h2⟩, hno⟩ := noEol_cons.mp hno
      exact .inr ⟨ch, _, h1, h2, rfl, x, e, t, hno, he, rfl, ht, rfl⟩
  · rintro (⟨he, rfl⟩ | ⟨ch, y, h1, h2, rfl, x, e, t, hno, he, rfl, ht, rfl⟩)
    · exact ⟨.done he, rfl⟩
    · exact ⟨.line (x := ch :: x) (cons_ne_nil _ _) (noEol_cons.mpr ⟨⟨h1, h2⟩, hno⟩) he ht,
        rfl⟩

theorem lastPart_cr : LastPart (CR :: p) d ↔ AfterCr (fun p d => p = [] ∧ d = []) p d := by
  rw [lastPart_iff]
  constructor
  · rintro (⟨he, rfl⟩ | ⟨ch, x, h1, -, hp, -⟩)
    · cases he
      exact ⟨[], rfl, rfl, rfl⟩
    · exact absurd (List.cons.inj hp).1.symm h1
  · rintro ⟨p', rfl, rfl, rfl⟩
    exact .inl ⟨.crlf, rfl⟩

theorem lastPart_lf : LastPart (LF :: p) d ↔ p = [] ∧ d = [] := by
  rw [lastPart_iff]
  constructor
  · rintro (⟨he, rfl⟩ | ⟨ch, x, -, h2, hp, -⟩)
    · cases he
      exact ⟨rfl, rfl⟩
    · exact absurd (List.cons.inj hp).1.symm h2
  · rintro ⟨rfl, rfl⟩
    exact .inl ⟨.lf, rfl⟩

theorem lastPart_cons (h1 : ch ≠ CR) (h2 : ch ≠ LF) : LastPart (ch :: p) d ↔ Upto LastPart p d := by
  rw [lastPart_iff]
  constructor
  · rintro (⟨he, -⟩ | ⟨c, x, -, -, hp, hu⟩)
    · cases he <;> simp at h1 h2
    · obtain ⟨rfl, rfl⟩ := List.cons.inj hp
      exact hu
  · exact fun hu => .inr ⟨ch, p, h1, h2, rfl, hu⟩

theorem dataThen_nil (hn : n ≠ 0) : ¬ DataThen n [] d := by
  rintro ⟨data, p', d', hlen, hp, -⟩
  rw [(append_eq_nil_iff.mp hp.symm).1] at hlen
  exact hn hlen.symm

/-- One byte of data. -/
theorem dataThen_cons (hn : n ≠ 0) : DataThen n (ch :: p) d ↔
      ∃ d', d = ch :: d' ∧ Residual (if n = 1 then .afterData else .chunkData, n - 1) p d' := by
  constructor
  · rintro ⟨data, p', d', hlen, hp, rfl, ha⟩
    obtain _ | ⟨c, data⟩ := data
    · exact absurd hlen.symm hn
    obtain ⟨rfl, rfl⟩ := List.cons.inj hp
    rw [length_cons] at hlen
    refine ⟨data ++ d', rfl, ?_⟩
    by_cases h1 : n = 1
    · obtain rfl : data = [] := length_eq_zero_iff.mp (by omega)
      rw [if_pos h1]
      exact ha
    · rw [if_neg h1]
      exact ⟨data, p', d', by omega, rfl, rfl, ha⟩
  · rintro ⟨d', rfl, hr⟩
    by_cases h1 : n = 1
    · rw [if_pos h1] at hr
      exact ⟨[ch], p, d', h1.symm, rfl, rfl, hr⟩
    · rw [if_neg h1] at hr
      obtain ⟨data, p', d'', hlen, rfl, rfl, ha⟩ := hr
      exact ⟨ch :: data, p', d'', by rw [length_cons]; omega, rfl, rfl, ha⟩

/-- `Residual` after a move of the transducer. -/
def AfterMove : Move Pos UInt8 Verdict → Lang
  | .next pos out, p, d => ∃ d', d = out ++ d' ∧ Residual pos p d'
  | .halt .done, p, d => p = [] ∧ d = []
  | .halt .error, _, _ => False

variable {pos : Pos}

theorem residual_nil (hok : SizeOk pos) : ¬ Residual pos [] d := by
  obtain ⟨state, size⟩ := pos
  cases state with
  | chunkStart => exact acceptedBody_nil
  | chunkSize =>
    rintro ⟨ds, n, p', -, hp, hl⟩
    exact lineRest_nil ((append_eq_nil_iff.mp hp.symm).2 ▸ hl)
  | chunkData => exact dataThen_nil (hok.1 (.inl rfl))
  | trailer => exact lastPart_nil
  | chunkExtension | afterData | lastChunkExtension | trailerHeader => exact upto_nil
  | trailerAlmostDone => exact afterCr_nil (K := fun p d => p = [] ∧ d = [])
  | chunkExtensionAlmostDone | afterDataAlmostDone | lastChunkExtensionAlmostDone
  | trailerHeaderAlmostDone => exact afterCr_nil

/-- **The derivative**: what may follow a byte is what may follow in the state the
transducer moves to. -/
theorem residual_cons (hok : SizeOk pos) (ch : UInt8) (p d : Bytes) :
    Residual pos (ch :: p) d ↔ AfterMove (bodyStep pos ch) p d := by
  obtain ⟨state, size⟩ := pos
  cases state with
  | chunkStart =>
    simp only [Residual, acceptedBody_cons, bodyStep, chunkedByte]
    cases hexDigit ch <;> simp [AfterMove, Residual]
  | chunkSize =>
    simp only [Residual, bodyStep, chunkedByte]
    by_cases hlarge : size > maxOffT / 16
    · simp only [hlarge, if_true]
      exact iff_of_false (not_sizeRest_of_large hlarge) id
    · rw [sizeRest_cons]
      cases hexDigit ch with
      | some v => simp [hlarge, AfterMove, Residual]
      | none =>
        have hle : size ≤ maxOffT / 16 := by omega
        by_cases hc : ch = CR
        · by_cases h0 : size = 0 <;>
            simp [hlarge, hc, h0, lineRest_cr, tail_of_ne, hle, AfterMove, Residual]
        · by_cases hl : ch = LF
          · by_cases h0 : size = 0 <;>
              simp [hlarge, hl, h0, lineRest_lf, tail_of_ne, hle, AfterMove, Residual]
          · rw [lineRest_cons hc hl]
            by_cases h0 : size = 0 <;> by_cases hx : ch = 0x3b ∨ ch = SP ∨ ch = HT <;>
              simp [hlarge, hc, hl, h0, hx, tail_of_ne, hle, AfterMove, Residual]
  | chunkExtension =>
    have h0 : size ≠ 0 := hok.1 (by simp)
    have hle : size ≤ maxOffT / 16 := hok.2 (by simp)
    simp only [Residual, upto_move, bodyStep, chunkedByte, tail_of_ne h0 hle]
    split_ifs <;> simp [AfterMove, Residual, tail_of_ne h0 hle]
  | chunkExtensionAlmostDone =>
    have h0 : size ≠ 0 := hok.1 (by simp)
    have hle : size ≤ maxOffT / 16 := hok.2 (by simp)
    simp only [Residual, afterCr_cons, bodyStep, chunkedByte, tail_of_ne h0 hle]
    split_ifs <;> simp [AfterMove, Residual, *]
  | chunkData =>
    have h0 : size ≠ 0 := hok.1 (by simp)
    simp only [Residual, dataThen_cons h0, bodyStep, AfterMove, singleton_append]
  | afterData | lastChunkExtension | trailerHeader =>
    simp only [Residual, AfterData, upto_move, bodyStep, chunkedByte]
    split_ifs <;> simp [AfterMove, Residual, AfterData]
  | afterDataAlmostDone | lastChunkExtensionAlmostDone | trailerAlmostDone
  | trailerHeaderAlmostDone =>
    simp only [Residual, afterCr_cons, bodyStep, chunkedByte]
    split_ifs <;> simp [AfterMove, Residual, *]
  | trailer =>
    simp only [Residual, bodyStep, chunkedByte]
    split_ifs with hc hl
    · simp [hc, lastPart_cr, AfterMove, Residual]
    · simp [hl, lastPart_lf, AfterMove]
    · simp [lastPart_cons hc hl, AfterMove, Residual]

/-- **The transducer accepts the accepted bodies**: it is done exactly at the end of a
text of the residual language, with the data of that text. -/
theorem run_done_iff (hok : SizeOk pos) (s d rest : Bytes) :
    run bodyStep pos s = (d, .halted .done rest) ↔ ∃ p, s = p ++ rest ∧ Residual pos p d := by
  induction s generalizing pos d with
  | nil =>
    refine iff_of_false (by simp) ?_
    rintro ⟨p, hp, hr⟩
    exact residual_nil hok ((append_eq_nil_iff.mp hp.symm).1 ▸ hr)
  | cons ch s ih =>
    have hsplit : (∃ p, ch :: s = p ++ rest ∧ Residual pos p d) ↔
        ∃ p, s = p ++ rest ∧ AfterMove (bodyStep pos ch) p d := by
      constructor
      · rintro ⟨_ | ⟨c, p⟩, hp, hr⟩
        · exact absurd hr (residual_nil hok)
        · obtain ⟨rfl, rfl⟩ := List.cons.inj hp
          exact ⟨p, rfl, (residual_cons hok ch p d).mp hr⟩
      · rintro ⟨p, rfl, hr⟩
        exact ⟨ch :: p, rfl, (residual_cons hok ch p d).mpr hr⟩
    rw [hsplit]
    cases hs : bodyStep pos ch with
    | next pos' out =>
      rw [run_cons_next bodyStep hs]
      constructor
      · intro h
        obtain ⟨rfl, h2⟩ := Prod.mk.inj h
        obtain ⟨p, hp, hr⟩ := (ih (sizeOk_bodyStep hok hs) _).mp (Prod.ext rfl h2)
        exact ⟨p, hp, _, rfl, hr⟩
      · rintro ⟨p, hp, d', rfl, hr⟩
        have hrun := (ih (sizeOk_bodyStep hok hs) d').mpr ⟨p, hp, hr⟩
        rw [hrun]
    | halt v =>
      rw [run_cons_halt bodyStep hs]
      cases v with
      | done =>
        constructor
        · intro h
          obtain ⟨rfl, h2⟩ := Prod.mk.inj h
          exact ⟨[], by simpa using h2, rfl, rfl⟩
        · rintro ⟨p, rfl, rfl, rfl⟩
          rfl
      | error => exact iff_of_false (by simp) fun ⟨_, _, h⟩ => h

end Chunked

/-!
# Chunked bodies are decoded as the grammar says, up to stray bytes

The parser together with its callers' loop gives the same outcome however the body is
cut into buffers.  It is done exactly at the end of an accepted body
(`chunkedFilter_done_iff`).  The accepted bodies are not the chunked encodings: in
`sw_after_data` every byte that is neither CR nor LF is skipped, where the sibling
states answer `goto invalid`.  `decodesExactly_iff` is the exact extent of that slip.
-/

namespace Chunked

open List

/-- The filter is done exactly at the end of an accepted body, with its data. -/
theorem chunkedFilter_done_iff (s d rest : Bytes) :
    chunkedFilter .init s = some (d, .done rest) ↔ ∃ p, s = p ++ rest ∧ AcceptedBody p d := by
  have h : run bodyStep NgxHttpChunked.init.pos s = (d, .halted .done rest) ↔
      ∃ p, s = p ++ rest ∧ AcceptedBody p d := run_done_iff sizeOk_init s d rest
  rw [chunkedFilter_eq_run ctxOk_init, ← h]
  rcases run bodyStep NgxHttpChunked.init.pos s with ⟨out, p | ⟨_ | _, r⟩⟩
  · by_cases hlarge : p.2 > maxOffT - 5 <;> simp [atEnd, hlarge]
  · simp
  · simp

/-- What is expected of the decoder on a byte string. -/
structure DecodesExactly (s : Bytes) : Prop where
  /-- Cutting the string into buffers does not change the outcome. -/
  cut : ∀ b bs, b ++ flatten bs = s →
    chunkedFilterBuffers .init (b :: bs) = chunkedFilter .init s
  /-- A chunked encoding is decoded to its data, and the decoder is done at its end. -/
  encoded : ∀ p rest d, s = p ++ rest → ChunkedEncoding p d →
    chunkedFilter .init s = some (d, .done rest)
  /-- Where no chunked encoding starts the string, the decoder ends incomplete or in error. -/
  outside : (∀ p rest d, s = p ++ rest → ¬ ChunkedEncoding p d) →
    ∃ d, (∃ ctx, chunkedFilter .init s = some (d, .again ctx)) ∨
      chunkedFilter .init s = some (d, .error)

/-- No accepted body at the start of the string has stray bytes after chunk data. -/
def NoStrayBytes (s : Bytes) : Prop :=
  ∀ p rest d, s = p ++ rest → AcceptedBody p d → ChunkedEncoding p d

/-- No chunked encoding at the start of the string has a chunk beyond the parser's bound
of `maxOffT / 16` bytes. -/
def SizesFit (s : Bytes) : Prop :=
  ∀ p rest d, s = p ++ rest → ChunkedEncoding p d → AcceptedBody p d

variable {s : Bytes}

theorem decodesExactly_of (hstray : NoStrayBytes s) (hfit : SizesFit s) : DecodesExactly s where
  cut b bs hs := by rw [← hs]; exact chunkedFilterBuffers_eq ctxOk_init b bs
  encoded p rest d hs henc := (chunkedFilter_done_iff s d rest).mpr ⟨p, hs, hfit p rest d hs henc⟩
  outside hno := by
    rcases hf : chunkedFilter .init s with _ | ⟨d, ctx | rest | _⟩
    · exact absurd hf (by rw [chunkedFilter_eq_run ctxOk_init]; simp)
    · exact ⟨d, .inl ⟨ctx, rfl⟩⟩
    · obtain ⟨p, hs, hacc⟩ := (chunkedFilter_done_iff s d rest).mp hf
      exact absurd (hstray p rest d hs hacc) (hno p rest d hs)
    · exact ⟨d, .inr rfl⟩

theorem noStrayBytes_of_decodesExactly (h : DecodesExactly s) : NoStrayBytes s := by
  intro p rest d hs hacc
  have hdone := (chunkedFilter_done_iff s d rest).mpr ⟨p, hs, hacc⟩
  by_contra hne
  -- some other chunked encoding would have to start the string
  by_cases hex : ∃ p' rest' d', s = p' ++ rest' ∧ ChunkedEncoding p' d'
  · obtain ⟨p', rest', d', hs', henc⟩ := hex
    have hdone' := h.encoded p' rest' d' hs' henc
    rw [hdone] at hdone'
    obtain ⟨rfl, hr⟩ := Prod.mk.inj (Option.some.inj hdone')
    obtain rfl := BodyEnd.done.inj hr
    obtain rfl := append_cancel_right (hs ▸ hs')
    exact hne henc
  · obtain ⟨d', ⟨ctx, hf⟩ | hf⟩ := h.outside fun p' rest' d' hs' henc =>
      hex ⟨p', rest', d', hs', henc⟩
    · rw [hdone] at hf
      simp at hf
    · rw [hdone] at hf
      simp at hf

theorem sizesFit_of_decodesExactly (h : DecodesExactly s) : SizesFit s := by
  intro p rest d hs henc
  obtain ⟨p', hs', hacc⟩ :=
    (chunkedFilter_done_iff s d rest).mp (h.encoded p rest d hs henc)
  obtain rfl := append_cancel_right (hs ▸ hs')
  exact hacc

/-- **The decoder meets its grammar exactly on the strings without stray bytes after
chunk data** (and, as a matter of form, without chunks of more than `maxOffT / 16`
bytes). -/
theorem decodesExactly_iff (s : Bytes) : DecodesExactly s ↔ NoStrayBytes s ∧ SizesFit s :=
  ⟨fun h => ⟨noStrayBytes_of_decodesExactly h, sizesFit_of_decodesExactly h⟩,
    fun h => decodesExactly_of h.1 h.2⟩

/-- `1 CRLF a X CRLF 0 CRLF CRLF`: one chunk of one byte, and a stray `X` after it. -/
def strayBody : Bytes :=
  [0x31, CR, LF, 0x61, 0x58, CR, LF, 0x30, CR, LF, CR, LF]

/-- A size line of one digit and CRLF is read in one way. -/
theorem sizeLine_digit {n v : ℕ} {line q q' : Bytes} {c : UInt8} (hv : hexDigit c = some v)
    (hline : SizeLine n line) (hq : c :: CR :: LF :: q' = line ++ q) : n = v ∧ q' = q := by
  obtain ⟨ds, ext, e, hne, hnum, hext, he, rfl⟩ := hline
  obtain _ | ⟨c', ds⟩ := ds
  · exact absurd rfl hne
  simp only [cons_append, append_assoc, List.cons.injEq] at hq
  obtain ⟨rfl, hq⟩ := hq
  obtain _ | ⟨c', ds⟩ := ds
  · have hn : n = v := by simpa [hexNumber, hv] using hnum.symm
    obtain rfl | ⟨c', y, rfl, hc, -⟩ := hext
    · cases he <;> simp at hq
      exact ⟨hn, hq⟩
    · exact absurd (List.cons.inj hq).1.symm (hexDigit_extension hc).2.1
  · -- the digit would have to be followed by the digit CR
    obtain rfl := (List.cons.inj hq).1
    simp [hexNumber, hv] at hnum

theorem not_chunkedEncoding_strayBody (p rest d : Bytes) (hs : strayBody = p ++ rest) :
    ¬ ChunkedEncoding p d := by
  intro h
  have hv : hexDigit 0x31 = some 1 := by decide
  cases h with
  | last hline ht =>
    rw [append_assoc] at hs
    exact absurd (sizeLine_digit hv hline hs).1 (by decide)
  | @chunk n line data junk e q d' hline hn _ hdata hjunk he _ =>
    rw [append_assoc] at hs
    obtain ⟨rfl, hq⟩ := sizeLine_digit hv hline hs
    obtain ⟨c, rfl⟩ := length_eq_one_iff.mp hdata
    subst hjunk
    -- after the one byte of data, neither line end starts with the stray byte
    cases he <;> exact absurd (List.cons.inj (List.cons.inj hq).2).1 (by decide)

theorem not_decodesExactly_strayBody : ¬ DecodesExactly strayBody := by
  intro h
  have hdone : chunkedFilter .init strayBody = some ([0x61], .done []) := by decide
  obtain ⟨d, ⟨ctx, hf⟩ | hf⟩ := h.outside not_chunkedEncoding_strayBody
  · rw [hdone] at hf
    simp at hf
  · rw [hdone] at hf
    simp at hf

/-!
# Chunks that are sent

`ngx_http_chunked_body_filter` sends a chain of buffers as one chunk.
-/

/-- The loop of `ngx_sprintf_num` for hexadecimal digits, in front of `p`. -/
def sprintfHex : ℕ → ℕ → Bytes → Bytes
  | 0, _, p => p
  | fuel + 1, ui64, p =>
    let hex := [48, 49, 50, 51, 52, 53, 54, 55, 56, 57, 97, 98, 99, 100, 101, 102]
    let p := hex.getD (ui64 % 16) 0 :: p
    if ui64 / 16 ≠ 0 then sprintfHex fuel (ui64 / 16) p else p

/-- A buffer of a chain, with the bytes that it has in memory or in a file. -/
structure Buf where
  bytes : Bytes
  lastBuf : Bool

/-- The last buffer of the chain is the last one of the response. -/
def isLast (chain : List Buf) : Bool := chain.getLast?.any Buf.lastBuf

/-- `ngx_http_chunked_body_filter`: what is sent for a chain; for none, nothing. -/
def chunkedBodyFilter (chain : List Buf) : Bytes :=
  let out := chain.flatMap Buf.bytes
  let size := out.length
  let chunk := if size ≠ 0 then sprintfHex (size + 1) size [] ++ [CR, LF] ++ out else out
  if isLast chain then chunk ++ [CR, LF, 48, CR, LF, CR, LF].drop (if size = 0 then 2 else 0)
  else if size > 0 then chunk ++ [CR, LF]
  else chunk

/-- The digits of a number are read as the number. -/
theorem hexNumber_sprintfHex {fuel n : ℕ} (h : n < fuel) (p : Bytes) :
    hexNumber 0 (sprintfHex fuel n p) = hexNumber n p ∧ sprintfHex fuel n p ≠ [] := by
  induction fuel generalizing n p with
  | zero => exact absurd h (Nat.not_lt_zero n)
  | succ fuel ih =>
    have hdigit : ∀ d < 16, hexDigit ([48, 49, 50, 51, 52, 53, 54, 55, 56, 57, 97, 98, 99, 100, 101,
        102].getD d 0) = some d := by decide
    have hread := hdigit (n % 16) (Nat.mod_lt n (by decide))
    rw [sprintfHex]
    split_ifs with hmore
    · obtain ⟨hnum, hne⟩ := ih (n := n / 16) (by omega) _
      refine ⟨hnum.trans ?_, hne⟩
      rw [hexNumber, hread, Option.bind_some, show n / 16 * 16 + n % 16 = n by omega]
    · refine ⟨?_, cons_ne_nil _ _⟩
      rw [hexNumber, hread, Option.bind_some, show 0 * 16 + n % 16 = n by omega]

theorem sizeLine_sprintfHex (n : ℕ) : SizeLine n (sprintfHex (n + 1) n [] ++ [CR, LF]) := by
  obtain ⟨hnum, hne⟩ := hexNumber_sprintfHex (Nat.lt_succ_self n) []
  exact ⟨_, [], [CR, LF], hne, hnum, .inl rfl, .crlf, rfl⟩

/-- What is sent for a chain, in front of a body, is one. -/
theorem acceptedBody_chunkedBodyFilter {chain : List Buf} {p d : Bytes}
    (hfits : (chain.flatMap Buf.bytes).length ≤ maxOffT / 16)
    (hp : if isLast chain then p = [] ∧ d = [] else AcceptedBody p d) :
    AcceptedBody (chunkedBodyFilter chain ++ p) (chain.flatMap Buf.bytes ++ d) := by
  rw [chunkedBodyFilter]
  generalize chain.flatMap Buf.bytes = out at *
  have hend : AcceptedBody [48, CR, LF, CR, LF] [] := .last (sizeLine_sprintfHex 0) (.done .crlf)
  have hchunk : ∀ {rest d}, AcceptedBody rest d → out.length ≠ 0 →
      AcceptedBody (sprintfHex (out.length + 1) out.length [] ++ [CR, LF] ++ out ++
        CR :: LF :: rest) (out ++ d) := by
    intro rest d hrest hsize
    rw [append_assoc]
    exact @Body.chunk _ _ _ _ _ [] _ _ _ (sizeLine_sprintfHex _) hsize hfits rfl noEol_nil .crlf
      hrest
  by_cases hlast : isLast chain = true
  · rw [if_pos hlast] at hp ⊢
    obtain ⟨rfl, rfl⟩ := hp
    rw [append_nil]
    by_cases hsize : out.length = 0
    · rw [if_pos hsize, if_neg (not_not_intro hsize), eq_nil_of_length_eq_zero hsize]
      exact hend
    · rw [if_neg hsize, if_pos hsize]
      exact hchunk hend hsize
  · rw [if_neg hlast] at hp ⊢
    by_cases hsize : out.length = 0
    · rw [if_neg (by omega), if_neg (not_not_intro hsize), eq_nil_of_length_eq_zero hsize]
      exact hp
    · rw [if_pos (by omega), if_pos hsize, append_assoc]
      exact hchunk hp hsize

/-- **A chunked response is read as it was sent**, in whatever buffers it comes, if no chain is too
large for the parser. -/
theorem chunkedFilterBuffers_response (chains : List (List Buf)) (last : List Buf)
    (hchains : ∀ chain ∈ chains, isLast chain = false) (hlast : isLast last = true)
    (hfits : ∀ chain ∈ chains ++ [last], (chain.flatMap Buf.bytes).length ≤ maxOffT / 16)
    (rest b : Bytes) (bs : List Bytes)
    (hb : b ++ bs.flatten = (chains ++ [last]).flatMap chunkedBodyFilter ++ rest) :
    chunkedFilterBuffers .init (b :: bs) =
      some ((chains ++ [last]).flatMap (flatMap Buf.bytes), .done rest) := by
  rw [chunkedFilterBuffers_eq ctxOk_init, hb, chunkedFilter_done_iff]
  refine ⟨_, rfl, ?_⟩
  clear hb
  induction chains with
  | nil =>
    have h := acceptedBody_chunkedBodyFilter (p := []) (d := []) (hfits last mem_cons_self)
      (by rw [if_pos hlast]; exact ⟨rfl, rfl⟩)
    simpa using h
  | cons chain chains ih =>
    obtain ⟨hchain, hchains⟩ := forall_mem_cons.mp hchains
    rw [cons_append, forall_mem_cons] at hfits
    refine acceptedBody_chunkedBodyFilter hfits.1 ?_
    rw [if_neg (by simp [hchain])]
    exact ih hchains hfits.2

/-- Two chains in two buffers, with something behind them. -/
theorem chunkedFilterBuffers_response_abc :
    chunkedFilterBuffers .init [[0x31, CR], [LF, 0x61, CR, LF, 0x32, CR, LF, 0x62, 0x63, CR, LF,
      0x30, CR, LF, CR, LF, 0x47]] = some ([0x61, 0x62, 0x63], .done [0x47]) :=
  chunkedFilterBuffers_response [[⟨[0x61], false⟩]] [⟨[0x62], false⟩, ⟨[0x63], true⟩] (by decide)
    (by decide) (by decide) [0x47] _ _ (by decide)

end Chunked
