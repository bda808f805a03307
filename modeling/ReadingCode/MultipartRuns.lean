/-
# The decoding of a multipart body

The reference: parts are found by whole lines and by the first delimiter in the data.  One call of
`multipart_buffer_headers` or `multipart_buffer_read` does what the reference says, if it meets
what the buffer cannot do.
-/
import Mathlib
import ReadingCode.Multipart

namespace Rfc1867

open List Option

variable {b : Boundary} {m : MultipartBuffer} {w rest : Bytes}

/-! ## The reference -/

theorem splitLine_length {line rest' : Bytes} (h : splitLine rest = some (line, rest')) :
    rest'.length < rest.length := by
  rcases line_cases rest with hno | ⟨line', rest'', rfl, hline⟩
  · rw [splitLine_none hno] at h
    cases h
  · rw [splitLine_eq hline] at h
    cases h
    rw [length_append, length_cons]
    omega

/-- What is behind the first line that is equal to the boundary. -/
def seek (boundary rest : Bytes) : Option Bytes :=
  match _h : splitLine rest with
  | none => none
  | some (line, rest') => if line = boundary then some rest' else seek boundary rest'
termination_by rest.length
decreasing_by exact splitLine_length _h

/-- The lines in front of the first empty line, and what is behind it. -/
def headerLines (rest : Bytes) : List Bytes × Bytes :=
  match _h : splitLine rest with
  | none => ([], rest)
  | some (line, rest') =>
    if line = [] then ([], rest') else (line :: (headerLines rest').1, (headerLines rest').2)
termination_by rest.length
decreasing_by all_goals exact splitLine_length _h

/-- The list of headers of these lines. -/
def headerList (lines : List Bytes) : List (Bytes × Bytes) :=
  (lines.foldl Headers.line ⟨[], none, none⟩).add.header

/-- The delimiter begins here, or behind a CR. -/
def Stops (next rest : Bytes) : Prop :=
  next <+: rest ∨ rest.head? = some 13 ∧ next <+: rest.tail

instance (next rest : Bytes) : Decidable (Stops next rest) :=
  inferInstanceAs (Decidable (_ ∨ _))

/-- The number of bytes in front of the first delimiter. -/
def dataEnd (next : Bytes) : Bytes → ℕ
  | [] => 0
  | c :: rest => if Stops next (c :: rest) then 0 else dataEnd next rest + 1

theorem seek_eq (boundary rest : Bytes) : seek boundary rest =
    (splitLine rest).elim none fun p => if p.1 = boundary then some p.2 else seek boundary p.2 := by
  rw [seek]
  split <;> rename_i h <;> rw [h] <;> rfl

theorem headerLines_eq (rest : Bytes) : headerLines rest = (splitLine rest).elim ([], rest) fun p =>
      if p.1 = [] then ([], p.2) else (p.1 :: (headerLines p.2).1, (headerLines p.2).2) := by
  rw [headerLines]
  split <;> rename_i h <;> rw [h] <;> rfl

theorem seek_length {boundary rest' : Bytes} (h : seek boundary rest = some rest') :
    rest'.length < rest.length := by
  induction hn : rest.length using Nat.strong_induction_on generalizing rest with
  | _ n ih =>
    subst hn
    rw [seek_eq] at h
    match hsplit : splitLine rest with
    | none =>
      rw [hsplit] at h
      cases h
    | some (line, rest'') =>
      have hlen := splitLine_length hsplit
      rw [hsplit, elim_some] at h
      split at h
      · cases h
        exact hlen
      · exact (ih _ hlen h rfl).trans hlen

theorem headerLines_length (rest : Bytes) : (headerLines rest).2.length ≤ rest.length := by
  induction hn : rest.length using Nat.strong_induction_on generalizing rest with
  | _ n ih =>
    subst hn
    rw [headerLines_eq]
    match hsplit : splitLine rest with
    | none => exact le_rfl
    | some (line, rest') =>
      have hlen := splitLine_length hsplit
      rw [elim_some]
      split
      · exact hlen.le
      · exact (ih _ hlen rest' rfl).trans hlen.le

/-- The parts of a body, each with its headers and its content. -/
def reference (boundary rest : Bytes) : List (List (Bytes × Bytes) × Bytes) :=
  match _h : seek boundary rest with
  | none => []
  | some rest' =>
    let data := (headerLines rest').2
    let n := dataEnd (10 :: boundary) data
    (headerList (headerLines rest').1, data.take n) :: reference boundary (data.drop n)
termination_by rest.length
decreasing_by
  have hseek := seek_length _h
  have hlines := headerLines_length rest'
  rw [length_drop]
  omega

theorem reference_eq (boundary rest : Bytes) : reference boundary rest =
    (seek boundary rest).elim [] fun rest' => (headerList (headerLines rest').1,
        (headerLines rest').2.take (dataEnd (10 :: boundary) (headerLines rest').2)) ::
      reference boundary
        ((headerLines rest').2.drop (dataEnd (10 :: boundary) (headerLines rest').2)) := by
  rw [reference]
  split <;> rename_i h <;> rw [h] <;> rfl

/-! ## Headers -/

/-- `get_line` hands out the next line. -/
theorem Shows.getLine {line rest' : Bytes} (h : Shows b m w rest) (hwhole : Whole b rest)
    (hsplit : splitLine rest = some (line, rest')) : ∃ m1 w1 start,
      getLine b m = some (m1, some start) ∧ Shows b m1 w1 rest' ∧
        cStringAt m1.buffer start = some (cString line) := by
  rcases line_cases rest with hno | ⟨line, rest', rfl, hline⟩
  · cases (splitLine_none hno).symm.trans hsplit
  · cases (splitLine_eq hline).symm.trans hsplit
    exact h.getLine_found hline hwhole

/-- Behind the last line there is none. -/
theorem Shows.getLine_end (h : Shows b m w rest) (hwhole : Whole b rest)
    (hsplit : splitLine rest = none) :
    ∃ m1 w1, Rfc1867.getLine b m = some (m1, none) ∧ Shows b m1 w1 rest := by
  rcases line_cases rest with hno | ⟨line, rest', rfl, hline⟩
  · exact h.getLine_none hno hwhole
  · cases (splitLine_eq hline).symm.trans hsplit

/-- Up to the boundary every line fits in the buffer, and none is equal to the boundary up to a
NUL only. -/
inductive SeekMeets (b : Boundary) : Bytes → Prop
  | none {rest : Bytes} : Whole b rest → splitLine rest = none → SeekMeets b rest
  | found {rest rest' : Bytes} : Whole b rest → splitLine rest = some (b.boundary, rest') →
      SeekMeets b rest
  | next {rest line rest' : Bytes} : Whole b rest → splitLine rest = some (line, rest') →
      cString line ≠ b.boundary → SeekMeets b rest' → SeekMeets b rest

/-- Up to the empty line every line fits in the buffer and is without a NUL. -/
inductive HeadersMeet (b : Boundary) : Bytes → Prop
  | none {rest : Bytes} : Whole b rest → splitLine rest = none → HeadersMeet b rest
  | empty {rest rest' : Bytes} : Whole b rest → splitLine rest = some ([], rest') →
      HeadersMeet b rest
  | next {rest line rest' : Bytes} : Whole b rest → splitLine rest = some (line, rest') →
      0 ∉ line → HeadersMeet b rest' → HeadersMeet b rest

theorem cString_eq {s : Bytes} (h : 0 ∉ s) : cString s = s :=
  takeWhile_eq_self_iff.mpr fun _ hc => decide_eq_true (ne_of_mem_of_not_mem hc h)

variable {fuel k : ℕ}

/-- `find_boundary` finds the line that is equal to the boundary. -/
theorem Shows.findBoundary (hb : 0 ∉ b.boundary) (hmeets : SeekMeets b rest)
    (h : Shows b m w rest) (hfuel : rest.length < fuel) :
    (seek b.boundary rest = none ∧ ∃ m1 w1 rest1, findBoundary b fuel m = some (m1, false) ∧
        Shows b m1 w1 rest1) ∨ ∃ rest' m1 w1, seek b.boundary rest = some rest' ∧
        findBoundary b fuel m = some (m1, true) ∧ Shows b m1 w1 rest' := by
  induction hmeets generalizing m w fuel with
  | @none rest hwhole hsplit =>
    obtain ⟨fuel, rfl⟩ := Nat.exists_eq_add_of_lt hfuel
    obtain ⟨m1, w1, hget, h1⟩ := h.getLine_end hwhole hsplit
    refine .inl ⟨by rw [seek_eq, hsplit]; rfl, m1, w1, rest, ?_, h1⟩
    rw [Rfc1867.findBoundary, hget, bind_eq_bind, bind_some]
  | @found rest rest' hwhole hsplit =>
    obtain ⟨fuel, rfl⟩ := Nat.exists_eq_add_of_lt hfuel
    obtain ⟨m1, w1, start, hget, h1, hstring⟩ := h.getLine hwhole hsplit
    refine .inr ⟨rest', m1, w1, by rw [seek_eq, hsplit]; exact if_pos rfl, ?_, h1⟩
    rw [Rfc1867.findBoundary, hget, bind_eq_bind, bind_some]
    dsimp only
    rw [hstring, bind_eq_bind, bind_some, if_pos (cString_eq hb)]
  | @next rest line rest' hwhole hsplit hne _ ih =>
    obtain ⟨fuel, rfl⟩ := Nat.exists_eq_add_of_lt hfuel
    obtain ⟨m1, w1, start, hget, h1, hstring⟩ := h.getLine hwhole hsplit
    have hlen := splitLine_length hsplit
    have hline : line ≠ b.boundary := by
      rintro rfl
      exact hne (cString_eq hb)
    have hseek : seek b.boundary rest = seek b.boundary rest' := by
      rw [seek_eq, hsplit]
      exact if_neg hline
    have hfind : Rfc1867.findBoundary b (rest.length + fuel + 1) m =
        Rfc1867.findBoundary b (rest.length + fuel) m1 := by
      rw [Rfc1867.findBoundary, hget, bind_eq_bind, bind_some]
      dsimp only
      rw [hstring, bind_eq_bind, bind_some, if_neg hne]
    rw [hseek, hfind]
    exact ih h1 (by omega)

/-- The lines of the headers are those up to the first empty line. -/
theorem Shows.headersLoop (hmeets : HeadersMeet b rest) (h : Shows b m w rest)
    (hfuel : rest.length < fuel) (st : Headers) :
    ∃ m1 w1, headersLoop b fuel m st = some (m1, (headerLines rest).1.foldl Headers.line st) ∧
      Shows b m1 w1 (headerLines rest).2 := by
  induction hmeets generalizing m w fuel st with
  | @none rest hwhole hsplit =>
    obtain ⟨fuel, rfl⟩ := Nat.exists_eq_add_of_lt hfuel
    have hlines : headerLines rest = ([], rest) := by
      rw [headerLines_eq, hsplit]
      rfl
    obtain ⟨m1, w1, hget, h1⟩ := h.getLine_end hwhole hsplit
    rw [hlines]
    refine ⟨m1, w1, ?_, h1⟩
    rw [Rfc1867.headersLoop, hget]
    rfl
  | @empty rest rest' hwhole hsplit =>
    obtain ⟨fuel, rfl⟩ := Nat.exists_eq_add_of_lt hfuel
    have hlines : headerLines rest = ([], rest') := by
      rw [headerLines_eq, hsplit, elim_some, if_pos rfl]
    obtain ⟨m1, w1, start, hget, h1, hstring⟩ := h.getLine hwhole hsplit
    rw [hlines]
    refine ⟨m1, w1, ?_, h1⟩
    rw [Rfc1867.headersLoop, hget, bind_eq_bind, bind_some]
    dsimp only
    rw [hstring, bind_eq_bind, bind_some]
    exact if_pos rfl
  | @next rest line rest' hwhole hsplit hnul _ ih =>
    obtain ⟨fuel, rfl⟩ := Nat.exists_eq_add_of_lt hfuel
    obtain ⟨m1, w1, start, hget, h1, hstring⟩ := h.getLine hwhole hsplit
    rw [cString_eq hnul] at hstring
    have hlen := splitLine_length hsplit
    rw [Rfc1867.headersLoop, hget, bind_eq_bind, bind_some]
    dsimp only
    rw [hstring, bind_eq_bind, bind_some]
    by_cases hline : line = []
    · have hlines : headerLines rest = ([], rest') := by
        rw [headerLines_eq, hsplit]
        exact if_pos hline
      rw [if_pos hline, hlines]
      exact ⟨m1, w1, rfl, h1⟩
    · have hlines : headerLines rest =
          (line :: (headerLines rest').1, (headerLines rest').2) := by
        rw [headerLines_eq, hsplit]
        exact if_neg hline
      rw [if_neg hline, hlines]
      exact ih h1 (by omega) (st.line line)

/-- What `multipart_buffer_headers` has to meet. -/
def BoundaryMeets (b : Boundary) (rest : Bytes) : Prop :=
  SeekMeets b rest ∧ ∀ rest', seek b.boundary rest = some rest' → HeadersMeet b rest'

/-- `multipart_buffer_headers` finds the headers of the next part. -/
theorem Shows.multipartBufferHeaders (hb : 0 ∉ b.boundary) (hmeets : BoundaryMeets b rest)
    (h : Shows b m w rest) (hfuel : rest.length < fuel) :
    (seek b.boundary rest = none ∧ ∃ m1 w1 rest1,
        multipartBufferHeaders b fuel m = some (m1, none) ∧ Shows b m1 w1 rest1) ∨
      ∃ rest' m1 w1, seek b.boundary rest = some rest' ∧
        multipartBufferHeaders b fuel m = some (m1, some (headerList (headerLines rest').1)) ∧
        Shows b m1 w1 (headerLines rest').2 := by
  rcases h.findBoundary hb hmeets.1 hfuel with
    ⟨hno, m1, w1, rest1, hfind, h1⟩ | ⟨rest', m1, w1, hseek, hfind, h1⟩
  · refine .inl ⟨hno, m1, w1, rest1, ?_, h1⟩
    rw [Rfc1867.multipartBufferHeaders, hfind]
    rfl
  · have hlen := seek_length hseek
    obtain ⟨m2, w2, hloop, h2⟩ :=
      h1.headersLoop (hmeets.2 rest' hseek) (hlen.trans hfuel) ⟨[], none, none⟩
    refine .inr ⟨rest', m2, w2, hseek, ?_, h2⟩
    rw [Rfc1867.multipartBufferHeaders, hfind, bind_eq_bind, bind_some]
    dsimp only
    rw [hloop]
    rfl

/-! ## Data -/

/-- The text begins with the delimiter, or with as much of it as there is. -/
def Begins (next text : Bytes) : Prop := text ≠ [] ∧ (next <+: text ∨ text <+: next)

/-- What `multipart_buffer_read` has to meet, with `w` in the window after it is filled.  The front
of the delimiter at the front of the window, or behind a CR there, is the delimiter; a block of two
bytes is not used for a CR; and a window that ends with a CR does not end within the delimiter. -/
structure ReadMeets (next w rest : Bytes) (bytes : ℕ) : Prop where
  front : Begins next w → next <+: rest
  cr : w.head? = some 13 → Begins next w.tail ∨ bytes = 2 ∧ (∃ p, Begins next (w.drop p)) →
    next <+: rest.tail
  last : (∀ p, ¬ Begins next (w.drop p)) → w.length < bytes → w.getLast? = some 13 →
    ¬ next <+: rest.drop w.length

variable {next : Bytes} {bytes : ℕ}

/-- The bytes that both texts have are the same. -/
theorem take_min_iff (s t : Bytes) :
    s.take (min s.length t.length) = t.take (min s.length t.length) ↔ s <+: t ∨ t <+: s := by
  constructor
  · intro h
    rcases le_total s.length t.length with hle | hle
    · rw [min_eq_left hle, take_length] at h
      exact .inl (h ▸ take_prefix _ _)
    · rw [min_eq_right hle, take_length] at h
      exact .inr (h ▸ take_prefix _ _)
  · rintro (h | h)
    · rw [min_eq_left h.length_le, take_length]
      exact prefix_iff_eq_take.mp h
    · rw [min_eq_right h.length_le, take_length]
      exact (prefix_iff_eq_take.mp h).symm

/-- The first place where the text begins with the delimiter, or with as much of it as there is. -/
theorem apMemstrLoop_spec (hnext : next ≠ []) (text : Bytes) (i : ℕ) :
    (∃ p, apMemstrLoop next true i text = some (i + p) ∧ Begins next (text.drop p) ∧
        ∀ q < p, ¬ Begins next (text.drop q)) ∨
      apMemstrLoop next true i text = none ∧ ∀ q, ¬ Begins next (text.drop q) := by
  induction text generalizing i with
  | nil => exact Or.inr ⟨rfl, fun q h => h.1 drop_nil⟩
  | cons c text ih =>
    have hif : (next.head? = some c ∧ next.take (min next.length (text.length + 1)) =
        (c :: text).take (min next.length (text.length + 1)) ∧
          ((true : Bool) ∨ text.length + 1 ≥ next.length)) ↔ Begins next (c :: text) := by
      have hcmp := take_min_iff next (c :: text)
      rw [length_cons] at hcmp
      rw [hcmp]
      refine ⟨fun h => ⟨cons_ne_nil c text, h.2.1⟩, fun h => ⟨?_, h.2, Or.inl rfl⟩⟩
      obtain ⟨d, next, rfl⟩ := exists_cons_of_ne_nil hnext
      rcases h.2 with h | h <;> rw [(cons_prefix_cons.mp h).1] <;> rfl
    rw [apMemstrLoop]
    by_cases hbegins : Begins next (c :: text)
    · rw [if_pos (hif.mpr hbegins)]
      exact Or.inl ⟨0, rfl, hbegins, fun q hq => absurd hq (Nat.not_lt_zero q)⟩
    · rw [if_neg (mt hif.mp hbegins)]
      rcases ih (i + 1) with ⟨p, hp, hat, hfirst⟩ | ⟨hnone, hall⟩
      · refine Or.inl ⟨p + 1, by rw [hp, Nat.add_assoc, Nat.add_comm 1], hat, fun q hq => ?_⟩
        cases q with
        | zero => exact hbegins
        | succ q => exact hfirst q (Nat.lt_of_succ_lt_succ hq)
      · refine Or.inr ⟨hnone, fun q => ?_⟩
        cases q with
        | zero => exact hbegins
        | succ q => exact hall q

theorem le_dataEnd (hk : k ≤ rest.length) (h : ∀ i < k, ¬ Stops next (rest.drop i)) :
    k ≤ dataEnd next rest := by
  induction rest generalizing k with
  | nil => exact hk
  | cons c rest ih =>
    cases k with
    | zero => exact Nat.zero_le _
    | succ k =>
      have hgo : ¬ Stops next (c :: rest) := h 0 (Nat.succ_pos k)
      rw [dataEnd, if_neg hgo]
      exact Nat.succ_le_succ (ih (Nat.le_of_succ_le_succ hk) fun i hi =>
        h (i + 1) (Nat.succ_lt_succ hi))

theorem dataEnd_eq_zero (h : Stops next rest) : dataEnd next rest = 0 := by
  cases rest with
  | nil => rfl
  | cons c rest => exact if_pos h

theorem dataEnd_drop (hk : k ≤ dataEnd next rest) :
    dataEnd next (rest.drop k) = dataEnd next rest - k := by
  induction k generalizing rest with
  | zero => rfl
  | succ k ih =>
    cases rest with
    | nil => exact absurd hk (Nat.not_succ_le_zero k)
    | cons c rest =>
      rw [dataEnd] at hk ⊢
      split at hk
      · exact absurd hk (Nat.not_succ_le_zero k)
      · rename_i hgo
        rw [if_neg hgo, drop_succ_cons, ih (Nat.le_of_succ_le_succ hk), Nat.add_sub_add_right]

/-- The delimiter is not at a place in the window where not even its front is. -/
theorem not_prefix {q : ℕ} (hw : w <+: rest) (hq : q < w.length)
    (h : ¬ Begins next (w.drop q)) : ¬ next <+: rest.drop q := by
  intro hat
  refine h ⟨ne_nil_of_length_pos (by rw [length_drop]; omega), ?_⟩
  exact prefix_or_prefix_of_prefix hat (List.IsPrefix.drop hw q)

/-- The byte in the window is that in the body. -/
theorem getElem?_window {q : ℕ} (hw : w <+: rest) (hq : q < w.length) : w[q]? = rest[q]? := by
  obtain ⟨t, rfl⟩ := hw
  exact (getElem?_append_left hq).symm

/-- The bytes in front of a place up to which the delimiter is not found are data, but for a CR in
front of the delimiter. -/
theorem le_dataEnd_of_not_begins {p : ℕ} (hw : w <+: rest) (hp : p ≤ w.length)
    (hfirst : ∀ q < p, ¬ Begins next (w.drop q)) (hk : k ≤ p)
    (hcr : k = p → k > 0 → w[k - 1]? = some 13 → ¬ next <+: rest.drop k) :
    k ≤ dataEnd next rest := by
  have hlen := hw.length_le
  refine le_dataEnd (by omega) fun i hi => ?_
  rintro (hstop | ⟨hhead, hstop⟩)
  · exact not_prefix hw (by omega) (hfirst i (by omega)) hstop
  · rw [tail_drop] at hstop
    by_cases hnext : i + 1 < p
    · exact not_prefix hw (by omega) (hfirst (i + 1) hnext) hstop
    · obtain rfl : k = i + 1 := by omega
      rw [head?_drop] at hhead
      refine hcr (by omega) (by omega) ?_ hstop
      rw [Nat.add_sub_cancel, getElem?_window hw (by omega), hhead]

/-- The number of bytes that `multipart_buffer_read` copies from the window, if it finds the front
of the delimiter at `bound`. -/
def readLength (w : Bytes) (bytes : ℕ) (bound : Option ℕ) : ℕ :=
  let len := min (bound.getD w.length) (bytes - 1)
  if bound.isSome ∧ w[len - 1]? = some 13 then len - 1 else len

/-- The number of bytes is right, and it is zero at the delimiter only. -/
theorem readLength_spec (hw : w <+: rest) (hnext : next ≠ []) (hnil : w = [] → rest = [])
    (hbytes : 2 ≤ bytes) (hmeets : ReadMeets next w rest bytes) :
    readLength w bytes (apMemstr w next true) ≤ dataEnd next rest ∧
      (readLength w bytes (apMemstr w next true) = 0 → dataEnd next rest = 0) := by
  rw [apMemstr]
  rcases apMemstrLoop_spec hnext w 0 with ⟨p, hbound, hat, hfirst⟩ | ⟨hbound, hall⟩
  · have hp : p < w.length := by
      by_contra hge
      exact hat.1 (drop_eq_nil_of_le (by omega))
    rw [hbound, zero_add, readLength, getD_some]
    by_cases hcr : w[min p (bytes - 1) - 1]? = some 13
    · rw [if_pos ⟨rfl, hcr⟩]
      constructor
      · refine le_dataEnd_of_not_begins hw hp.le hfirst (by omega) fun hk hpos => ?_
        omega
      · intro hzero
        apply dataEnd_eq_zero
        rw [hzero] at hcr
        have hhead : w.head? = some 13 := by rw [head?_eq_getElem?, hcr]
        by_cases hp0 : p = 0
        · subst hp0
          exact .inl (hmeets.front hat)
        · refine .inr ⟨?_, hmeets.cr hhead ?_⟩
          · rw [head?_eq_getElem?, ← getElem?_window hw (by omega), hcr]
          · by_cases hp1 : p = 1
            · subst hp1
              rw [← drop_one]
              exact .inl hat
            · exact .inr ⟨by omega, p, hat⟩
    · rw [if_neg fun h => hcr h.2]
      constructor
      · exact le_dataEnd_of_not_begins hw hp.le hfirst (min_le_left _ _) fun hk hpos h =>
          absurd h hcr
      · intro hzero
        obtain rfl : p = 0 := by omega
        exact dataEnd_eq_zero (.inl (hmeets.front hat))
  · rw [hbound, readLength, getD_none, if_neg fun h => Bool.false_ne_true h.1]
    constructor
    · refine le_dataEnd_of_not_begins hw le_rfl (fun q _ => hall q) (min_le_left _ _) ?_
      intro hk hpos h
      rw [hk] at h ⊢
      refine hmeets.last hall (by omega) ?_
      rw [getLast?_eq_getElem?, h]
    · intro hzero
      have hw0 : w = [] := length_eq_zero_iff.mp (by omega)
      rw [hnil hw0]
      rfl

theorem stops_of_dataEnd_eq_zero (hrest : rest ≠ []) (h : dataEnd next rest = 0) :
    Stops next rest := by
  obtain ⟨c, rest, rfl⟩ := exists_cons_of_ne_nil hrest
  rw [dataEnd] at h
  split at h
  · assumption
  · cases h

theorem dataEnd_le_of_stops (h : Stops next (rest.drop k)) : dataEnd next rest ≤ k := by
  by_contra hlt
  have hdrop := dataEnd_drop (le_of_not_ge hlt)
  rw [dataEnd_eq_zero h] at hdrop
  omega

theorem Begins.head? {text : Bytes} (hnext : next.head? = some 10) (h : Begins next text) :
    text.head? = some 10 := by
  obtain ⟨next, rfl⟩ := head?_eq_some_iff.mp hnext
  obtain ⟨c, text, rfl⟩ := exists_cons_of_ne_nil h.1
  rcases h.2 with h | h
  · rw [(cons_prefix_cons.mp h).1, head?_cons]
  · rw [(cons_prefix_cons.mp h).1, head?_cons]

/-- The number of bytes is right only if the read meets what the buffer cannot do. -/
theorem readMeets_of_readLength (hw : w <+: rest) (hnext : next.head? = some 10)
    (hle : readLength w bytes (apMemstr w next true) ≤ dataEnd next rest)
    (hzero : readLength w bytes (apMemstr w next true) = 0 → dataEnd next rest = 0) :
    ReadMeets next w rest bytes := by
  have hne : next ≠ [] := by
    rintro rfl
    cases hnext
  have hhead : ∀ c, w.head? = some c → rest.head? = some c ∧ rest ≠ [] := by
    intro c hc
    obtain ⟨w, rfl⟩ := head?_eq_some_iff.mp hc
    obtain ⟨t, rfl⟩ := hw
    exact ⟨rfl, cons_ne_nil _ _⟩
  have hcr : (13 : UInt8) ≠ 10 := by decide
  rw [apMemstr] at hle hzero
  rcases apMemstrLoop_spec hne w 0 with ⟨p, hbound, hat, hfirst⟩ | ⟨hbound, hall⟩
  · rw [hbound, zero_add, readLength, getD_some] at hle hzero
    refine ⟨fun hbegins => ?_, fun h13 hcase => ?_, fun hall => absurd hat (hall p)⟩
    · obtain ⟨h10, hrest⟩ := hhead 10 (hbegins.head? hnext)
      obtain rfl : p = 0 := by
        by_contra hp
        exact hfirst 0 (Nat.pos_of_ne_zero hp) hbegins
      rcases stops_of_dataEnd_eq_zero hrest (hzero (by split <;> rfl)) with h | h
      · exact h
      · rw [h10] at h
        exact absurd (Option.some.inj h.1).symm hcr
    · obtain ⟨hrest13, hrest⟩ := hhead 13 h13
      have hmin : min p (bytes - 1) ≤ 1 := by
        rcases hcase with hbegins | ⟨rfl, -⟩
        · by_contra hlarge
          refine hfirst 1 (by omega) ?_
          rw [drop_one]
          exact hbegins
        · omega
      have hw13 : w[min p (bytes - 1) - 1]? = some 13 := by
        rw [Nat.sub_eq_zero_of_le hmin, ← head?_eq_getElem?, h13]
      rw [if_pos ⟨rfl, hw13⟩] at hzero
      rcases stops_of_dataEnd_eq_zero hrest (hzero (by omega)) with h | h
      · obtain ⟨next, rfl⟩ := head?_eq_some_iff.mp hnext
        obtain ⟨rest, rfl⟩ := head?_eq_some_iff.mp hrest13
        exact absurd (cons_prefix_cons.mp h).1.symm hcr
      · exact h.2
  · refine ⟨fun h => absurd h (hall 0), fun _ hcase => ?_, fun _ hlen hlast hstop => ?_⟩
    · rcases hcase with h | ⟨-, p, h⟩
      · rw [← drop_one] at h
        exact absurd h (hall 1)
      · exact absurd h (hall p)
    · rw [hbound, readLength, getD_none, if_neg fun h => Bool.false_ne_true h.1] at hle
      rw [getLast?_eq_getElem?] at hlast
      have hpos : 0 < w.length := by
        by_contra hnot
        rw [length_eq_zero_iff.mp (Nat.eq_zero_of_not_pos hnot)] at hlast
        cases hlast
      have hstops : Stops next (rest.drop (w.length - 1)) := by
        refine .inr ⟨?_, ?_⟩
        · rw [head?_drop, ← getElem?_window hw (by omega), hlast]
        · rw [tail_drop, Nat.sub_add_cancel hpos]
          exact hstop
      have hless := dataEnd_le_of_stops hstops
      omega

/-- The bytes in the window when `multipart_buffer_read` looks for the delimiter. -/
def readWindow (b : Boundary) (bytesInBuffer : ℕ) (rest : Bytes) (bytes : ℕ) : Bytes :=
  rest.take (if bytes > bytesInBuffer then b.bufsize else bytesInBuffer)

/-- The buffer is filled if there are too few bytes in it. -/
theorem Shows.readFill (h : Shows b m w rest) (bytes : ℕ) : ∃ m1, readFill b m bytes = some m1 ∧
      Shows b m1 (readWindow b m.bytesInBuffer rest bytes) rest := by
  rw [Rfc1867.readFill, readWindow]
  by_cases hmore : bytes > m.bytesInBuffer
  · rw [if_pos hmore, if_pos hmore]
    obtain ⟨m1, w1, hfill, h1, hlen⟩ := h.fillBuffer
    have hw1 := h1.take_eq
    rw [hlen, take_eq_take_min.symm] at hw1
    rw [← hw1] at h1
    exact ⟨m1, hfill, h1⟩
  · rw [if_neg hmore, if_neg hmore, h.take_eq]
    exact ⟨m, rfl, h⟩

/-- The window without its first bytes. -/
theorem Shows.advance (h : Shows b m w rest) (hk : k ≤ w.length) : Shows b { m with
      bytesInBuffer := m.bytesInBuffer - k, bufBegin := m.bufBegin.map (· + k) }
      (w.drop k) (rest.drop k) := by
  have hlen := h.length
  have hle := h.le
  refine ⟨h.size, ?_, ?_, ?_, ?_, h.nonempty, ?_⟩
  · have hwindow := h.window
    rw [MultipartBuffer.window] at hwindow ⊢
    cases hbegin : m.bufBegin with
    | none =>
      rw [hbegin] at hwindow
      dsimp only [map_none] at hwindow ⊢
      split at hwindow
      · cases hwindow
        rw [if_pos (by omega), drop_nil]
      · cases hwindow
    | some i =>
      have hin := h.inside i hbegin
      have hsize := h.size
      rw [hbegin] at hwindow
      dsimp only [map_some] at hwindow ⊢
      rw [slice, if_pos (by omega)] at hwindow ⊢
      rw [← Option.some.inj hwindow, drop_take, drop_drop]
  · rw [length_drop, hlen]
  · intro i hi
    dsimp only at hi ⊢
    obtain ⟨j, hj, rfl⟩ := map_eq_some_iff.mp hi
    have hin := h.inside j hj
    omega
  · dsimp only
    omega
  · rw [h.rest_eq, drop_append_of_le_length hk]

theorem bound_le (hnext : next ≠ []) (w : Bytes) :
    (apMemstr w next true).getD w.length ≤ w.length := by
  rw [apMemstr]
  rcases apMemstrLoop_spec hnext w 0 with ⟨p, hbound, hat, -⟩ | ⟨hbound, -⟩
  · rw [hbound, getD_some]
    by_contra hge
    exact hat.1 (drop_eq_nil_of_le (by omega))
  · rw [hbound, getD_none]

/-- `multipart_buffer_read` hands out the next bytes of the body, and as many as that. -/
theorem Shows.read_eq (h : Shows b m w rest) (hnext : b.boundaryNext ≠ []) (hbytes : 2 ≤ bytes)
    (hk : k = readLength (readWindow b m.bytesInBuffer rest bytes) bytes
      (apMemstr (readWindow b m.bytesInBuffer rest bytes) b.boundaryNext true)) :
    ∃ m1 w1 end', multipartBufferRead b m bytes = some (m1, rest.take k, end') ∧
      Shows b m1 w1 (rest.drop k) := by
  obtain ⟨m1, hfill, h1⟩ := h.readFill bytes
  have htake := h1.take_eq
  have hlen := h1.length
  have hbound := bound_le hnext (readWindow b m.bytesInBuffer rest bytes)
  generalize readWindow b m.bytesInBuffer rest bytes = w at *
  rw [multipartBufferRead, hfill, bind_eq_bind, bind_some, h1.window, bind_eq_bind, bind_some]
  dsimp only
  generalize apMemstr w b.boundaryNext true = bound at *
  generalize (bound.isSome && (apMemstr w b.boundaryNext false).isSome) = end'
  obtain ⟨len, hmin⟩ : ∃ len, len = min (bound.getD w.length) (bytes - 1) := ⟨_, rfl⟩
  have hif : (if bound.getD m1.bytesInBuffer < bytes - 1 then bound.getD m1.bytesInBuffer else
      bytes - 1) = len := by
    rw [hmin, hlen]
    split <;> omega
  rw [readLength, ← hmin] at hk
  rw [hif]
  have hdata : w.take len = rest.take len := by
    rw [← htake, take_take, min_eq_left (by omega)]
  by_cases hpos : len > 0
  · have hcopied : (w.take len).length = len := by
      rw [length_take, min_eq_left (by omega)]
    have hfits : 0 + (w.take len ++ [0]).length ≤ (replicate bytes (0 : UInt8)).length := by
      rw [length_append, length_replicate, length_singleton]
      omega
    rw [if_pos hpos, write_eq hfits, bind_some, take_zero, nil_append, append_assoc]
    have hlast : (w.take len ++ ([0] ++ (replicate bytes (0 : UInt8)).drop
        (0 + (w.take len ++ [0]).length)))[len - 1]? = w[len - 1]? := by
      rw [getElem?_append_left (by omega), getElem?_take_of_lt (by omega)]
    rw [hlast, ← hk]
    have hkle : k ≤ len := by
      rw [hk]
      split <;> omega
    refine ⟨_, _, end', ?_, h1.advance (k := k) (by omega)⟩
    rw [take_append_of_le_length (by omega), hdata, take_take, min_eq_left hkle]
  · have hk0 : k = 0 := by
      rw [hk]
      split <;> omega
    rw [if_neg hpos, hk0]
    exact ⟨m1, w, end', rfl, h1⟩

/-- `multipart_buffer_read` hands out bytes of the body.  They are data of the part, and not nothing
in front of its end, if and only if the read meets what the buffer cannot do. -/
theorem Shows.multipartBufferRead (h : Shows b m w rest) (hnext : b.boundaryNext.head? = some 10)
    (hsize : 0 < b.bufsize) (hbytes : 2 ≤ bytes) :
    ∃ m1 w1 k end', multipartBufferRead b m bytes = some (m1, rest.take k, end') ∧
      Shows b m1 w1 (rest.drop k) ∧
      (ReadMeets b.boundaryNext (readWindow b m.bytesInBuffer rest bytes) rest bytes ↔
        k ≤ dataEnd b.boundaryNext rest ∧ (k = 0 → dataEnd b.boundaryNext rest = 0)) := by
  have hne : b.boundaryNext ≠ [] := by
    intro hnil
    rw [hnil] at hnext
    cases hnext
  have hw : readWindow b m.bytesInBuffer rest bytes <+: rest := take_prefix _ _
  have hnil : readWindow b m.bytesInBuffer rest bytes = [] → rest = [] := by
    intro hnil
    rw [readWindow, take_eq_nil_iff] at hnil
    rcases hnil with hzero | hnil
    · split at hzero <;> omega
    · exact hnil
  obtain ⟨m1, w1, end', hread, h1⟩ := h.read_eq hne hbytes rfl
  refine ⟨m1, w1, _, end', hread, h1, ?_⟩
  constructor
  · exact fun hmeets => readLength_spec hw hne hnil hbytes hmeets
  · exact fun hright => readMeets_of_readLength hw hnext hright.1 hright.2

theorem dataEnd_le (next rest : Bytes) : dataEnd next rest ≤ rest.length := by
  induction rest with
  | nil => exact le_rfl
  | cons c rest ih =>
    rw [dataEnd]
    split
    · exact Nat.zero_le _
    · exact Nat.succ_le_succ ih

end Rfc1867

/-! # Reading a multipart body -/

namespace Rfc1867

open List Option

/-- The headers of a part, and its content. -/
abbrev Part := List (Bytes × Bytes) × Bytes

/-- Where the reader is. -/
inductive Stage
  | between
  | within (part : Part)
  | finished

/-- The parts that are read, and where the reader is. -/
structure Reader where
  self : MultipartBuffer
  parts : List Part
  stage : Stage

/-- Before anything is read. -/
def Reader.new (boundary : Bytes) (pieces : List Bytes) : Reader where
  self := multipartBufferNew boundary pieces
  parts := []
  stage := .between

/-- What is left of the body. -/
def Reader.rest (r : Reader) : Bytes := r.self.window.getD [] ++ r.self.pieces.flatten

variable {b : Boundary}

/-- The next call, with a block of `bytes` bytes if it reads data.  A line is of at least one byte,
which is the fuel of `multipart_buffer_headers`. -/
def Reader.step (b : Boundary) (bytes : ℕ) (r : Reader) : Option Reader :=
  match r.stage with
  | .between => do
    let (self, header) ← multipartBufferHeaders b (r.rest.length + 1) r.self
    match header with
    | none => some { r with self := self, stage := .finished }
    | some header => some { r with self := self, stage := .within (header, []) }
  | .within (header, data) => do
    let (self, chunk, _) ← multipartBufferRead b r.self bytes
    if chunk = [] then
      some { self := self, parts := r.parts ++ [(header, data)], stage := .between }
    else some { r with self := self, stage := .within (header, data ++ chunk) }
  | .finished => none

/-- What the next call has to meet. -/
def Reader.Meets (b : Boundary) (bytes : ℕ) (r : Reader) : Prop :=
  match r.stage with
  | .between => BoundaryMeets b r.rest
  | .within _ =>
    ReadMeets b.boundaryNext (readWindow b r.self.bytesInBuffer r.rest bytes) r.rest bytes
  | .finished => True

/-- A run of so many calls, all of which are `ok`. -/
inductive Run (ok : ℕ → Reader → Prop) (boundary : Bytes) (pieces : List Bytes) :
    ℕ → Reader → Prop
  | new : Run ok boundary pieces 0 (Reader.new boundary pieces)
  | step {n bytes : ℕ} {r r' : Reader} : Run ok boundary pieces n r → 2 ≤ bytes → ok bytes r →
      r.step (boundaryNew boundary) bytes = some r' → Run ok boundary pieces (n + 1) r'

/-! ## One call -/

/-- What is read, with the reference decoding of what is left. -/
def Reader.decoded (b : Boundary) (r : Reader) : List Part :=
  r.parts ++ match r.stage with
  | .between => reference b.boundary r.rest
  | .within (header, data) =>
    (header, data ++ r.rest.take (dataEnd b.boundaryNext r.rest)) ::
      reference b.boundary (r.rest.drop (dataEnd b.boundaryNext r.rest))
  | .finished => []

/-- What is left to do: a call takes a byte, or opens or closes a part. -/
def Reader.remaining (r : Reader) : ℕ :=
  match r.stage with
  | .between => 2 * r.rest.length + 1
  | .within _ => 2 * r.rest.length + 2
  | .finished => 0

variable {r : Reader}

theorem Shows.rest_reader {w rest : Bytes} (h : Shows b r.self w rest) : r.rest = rest := by
  rw [Reader.rest, h.window, getD_some, h.rest_eq]

/-- What holds of the values that `multipart_buffer_new` sets for good. -/
structure Boundary.Valid (b : Boundary) : Prop where
  size : 0 < b.bufsize
  nul : 0 ∉ b.boundary
  next : b.boundaryNext = 10 :: b.boundary

/-- The buffer shows what is left of the body. -/
def Reader.Shows (b : Boundary) (r : Reader) : Prop := ∃ w, Rfc1867.Shows b r.self w r.rest

variable {bytes : ℕ}

/-- A call between the parts. -/
theorem Reader.step_between (hb : b.Valid) (hstage : r.stage = .between)
    (hmeets : r.Meets b bytes) (h : r.Shows b) :
    ∃ r', r.step b bytes = some r' ∧ r'.Shows b ∧ r'.decoded b = r.decoded b ∧
      r'.remaining < r.remaining := by
  obtain ⟨w, h⟩ := h
  rw [Reader.Meets, hstage] at hmeets
  rw [Reader.decoded, Reader.remaining, Reader.step, hstage]
  rcases h.multipartBufferHeaders hb.nul hmeets (Nat.lt_succ_self _) with
    ⟨hseek, m1, w1, rest1, hheaders, h1⟩ | ⟨rest', m1, w1, hseek, hheaders, h1⟩
  · rw [hheaders]
    have hr' := Shows.rest_reader (r := ⟨m1, r.parts, .finished⟩) h1
    refine ⟨_, rfl, ⟨w1, hr' ▸ h1⟩, ?_, Nat.succ_pos _⟩
    rw [reference_eq, hseek]
    rfl
  · rw [hheaders]
    have hr' := Shows.rest_reader
      (r := ⟨m1, r.parts, .within (headerList (headerLines rest').1, [])⟩) h1
    refine ⟨_, rfl, ⟨w1, hr' ▸ h1⟩, ?_, ?_⟩
    · rw [reference_eq, hseek, elim_some, Reader.decoded]
      dsimp only
      rw [hr', hb.next, nil_append]
    · have hseeklen := seek_length hseek
      have hlines := headerLines_length rest'
      rw [Reader.remaining]
      dsimp only
      rw [hr']
      omega

/-- A call within a part. -/
theorem Reader.step_within {header data} (hb : b.Valid) (hstage : r.stage = .within (header, data))
    (hbytes : 2 ≤ bytes) (hmeets : r.Meets b bytes) (h : r.Shows b) :
    ∃ r', r.step b bytes = some r' ∧ r'.Shows b ∧ r'.decoded b = r.decoded b ∧
      r'.remaining < r.remaining := by
  obtain ⟨w, h⟩ := h
  rw [Reader.Meets, hstage] at hmeets
  rw [Reader.decoded, Reader.remaining, Reader.step, hstage]
  dsimp only
  obtain ⟨m1, w1, k, end', hread, h1, hright⟩ :=
    h.multipartBufferRead (by rw [hb.next]; rfl) hb.size hbytes
  obtain ⟨hle, hzero⟩ := hright.mp hmeets
  have hend := dataEnd_le b.boundaryNext r.rest
  rw [hread, bind_eq_bind, bind_some]
  by_cases hnil : r.rest.take k = []
  · have hdata : dataEnd b.boundaryNext r.rest = 0 := by
      rcases take_eq_nil_iff.mp hnil with hk | hrest
      · exact hzero hk
      · rw [hrest]
        rfl
    obtain rfl : k = 0 := by omega
    have hr' := Shows.rest_reader (r := ⟨m1, r.parts ++ [(header, data)], .between⟩) h1
    refine ⟨_, rfl, ⟨w1, hr' ▸ h1⟩, ?_, ?_⟩
    · rw [Reader.decoded, hdata]
      rw [hr', take_zero, append_nil, append_assoc]
      rfl
    · rw [Reader.remaining]
      dsimp only
      rw [hr', drop_zero]
      omega
  · have hr' := Shows.rest_reader
      (r := ⟨m1, r.parts, .within (header, data ++ r.rest.take k)⟩) h1
    have hk : k ≠ 0 := fun hk => hnil (by rw [hk, take_zero])
    rw [if_neg hnil]
    refine ⟨_, rfl, ⟨w1, hr' ▸ h1⟩, ?_, ?_⟩
    · rw [Reader.decoded]
      dsimp only
      rw [hr', dataEnd_drop hle, drop_drop, append_assoc, ← take_add, Nat.add_sub_of_le hle]
    · rw [Reader.remaining]
      dsimp only
      rw [hr', length_drop]
      omega

/-- A call does what the reference says. -/
theorem Reader.step_spec (hb : b.Valid) (hopen : r.stage ≠ .finished)
    (hbytes : 2 ≤ bytes) (hmeets : r.Meets b bytes) (h : r.Shows b) :
    ∃ r', r.step b bytes = some r' ∧ r'.Shows b ∧ r'.decoded b = r.decoded b ∧
      r'.remaining < r.remaining := by
  match hstage : r.stage with
  | .between => exact Reader.step_between hb hstage hmeets h
  | .within (header, data) => exact Reader.step_within hb hstage hbytes hmeets h
  | .finished => exact absurd hstage hopen

/-! ## Runs -/

theorem boundaryNew_valid (boundary : Bytes) : (boundaryNew boundary).Valid where
  size := by
    rw [boundaryNew]
    dsimp only
    split <;> omega
  nul := by
    intro hmem
    rcases mem_append.mp hmem with hmem | hmem
    · exact absurd hmem (by decide)
    · have hne := mem_takeWhile_imp (p := fun c => decide (c ≠ (0 : UInt8))) hmem
      exact of_decide_eq_true hne rfl
  next := rfl

variable {pieces : List Bytes}

/-- At the beginning the whole body is left. -/
theorem shows_new (boundary : Bytes) (hpieces : ∀ p ∈ pieces, p ≠ []) :
    Shows (boundaryNew boundary) (multipartBufferNew boundary pieces) [] pieces.flatten where
  size := length_replicate
  window := by
    rw [MultipartBuffer.window]
    exact if_pos (Nat.zero_le _)
  length := rfl
  inside := by
    rintro i ⟨⟩
    exact Nat.zero_le _
  le := Nat.zero_le _
  nonempty := hpieces
  rest_eq := rfl

/-- The invariant of a run. -/
theorem Run.invariant {boundary : Bytes} (hpieces : ∀ p ∈ pieces, p ≠ []) {n : ℕ}
    (h : Run (Reader.Meets (boundaryNew boundary)) boundary pieces n r) :
    r.Shows (boundaryNew boundary) ∧
      r.decoded (boundaryNew boundary) = reference ([45, 45] ++ cString boundary) pieces.flatten ∧
      n + r.remaining ≤ 2 * pieces.flatten.length + 1 := by
  induction h with
  | new =>
    have h := shows_new boundary hpieces
    have hrest := Shows.rest_reader (r := Reader.new boundary pieces) h
    refine ⟨⟨[], hrest.symm ▸ h⟩, ?_, ?_⟩
    · exact nil_append _
    · rw [Reader.remaining, hrest]
      dsimp only [Reader.new]
      omega
  | @step n bytes r r' _ hbytes hmeets hstep ih =>
    obtain ⟨hshows, hdecoded, hremaining⟩ := ih
    have hopen : r.stage ≠ .finished := by
      intro hstage
      rw [Reader.step, hstage] at hstep
      cases hstep
    obtain ⟨r'', hstep', hshows', hdecoded', hless⟩ :=
      Reader.step_spec (boundaryNew_valid boundary) hopen hbytes hmeets hshows
    rw [hstep] at hstep'
    obtain rfl := Option.some.inj hstep'
    exact ⟨hshows', hdecoded'.trans hdecoded, by omega⟩

/-- In a run whose calls meet what the buffer cannot do, what is read and the reference decoding of
what is left is that of the body.  The next call touches nothing outside of the buffer, and after so
many calls there are no more parts. -/
theorem Run.refines (boundary : Bytes) (pieces : List Bytes)
    (hpieces : ∀ p ∈ pieces, p ≠ []) (n : ℕ) (r : Reader)
    (h : Run (Reader.Meets (boundaryNew boundary)) boundary pieces n r) :
    r.decoded (boundaryNew boundary) = reference ([45, 45] ++ cString boundary) pieces.flatten ∧
      (∀ bytes ≥ 2, r.stage ≠ .finished → r.Meets (boundaryNew boundary) bytes →
        ∃ r', r.step (boundaryNew boundary) bytes = some r') ∧ (r.stage = .finished →
        r.parts = reference ([45, 45] ++ cString boundary) pieces.flatten) ∧
      n ≤ 2 * pieces.flatten.length + 1 := by
  obtain ⟨hshows, hdecoded, hremaining⟩ := h.invariant hpieces
  refine ⟨hdecoded, fun bytes hbytes hopen hmeets => ?_, fun hstage => ?_, by omega⟩
  · obtain ⟨r', hstep, -⟩ :=
      Reader.step_spec (boundaryNew_valid boundary) hopen hbytes hmeets hshows
    exact ⟨r', hstep⟩
  · rw [Reader.decoded, hstage, append_nil] at hdecoded
    exact hdecoded

theorem seek_cons (data : Bytes) :
    seek (boundaryNew [98]).boundary ([45, 45, 98, 10, 10] ++ data) = some (10 :: data) := by
  have hline : splitLine ([45, 45, 98, 10, 10] ++ data) = some ([45, 45, 98], 10 :: data) :=
    @splitLine_eq [45, 45, 98] _ (by decide)
  rw [seek_eq, hline, elim_some]
  exact if_pos rfl

theorem headerLines_cons (data : Bytes) : headerLines (10 :: data) = ([], data) := by
  have hempty : splitLine (10 :: data) = some ([], data) := @splitLine_eq [] _ (by decide)
  rw [headerLines_eq, hempty, elim_some]
  exact if_pos rfl

/-- The headers are those of a body that begins with the boundary and an empty line. -/
theorem boundaryMeets_cons (data : Bytes) :
    BoundaryMeets (boundaryNew [98]) ([45, 45, 98, 10, 10] ++ data) := by
  have hline : splitLine ([45, 45, 98, 10, 10] ++ data) = some ([45, 45, 98], 10 :: data) :=
    @splitLine_eq [45, 45, 98] _ (by decide)
  have hempty : splitLine (10 :: data) = some ([], data) := @splitLine_eq [] _ (by decide)
  have hwhole : Whole (boundaryNew [98]) ([45, 45, 98, 10, 10] ++ data) := .inl <| by
    rw [take_append]
    exact mem_append_left _ (by decide)
  refine ⟨.found hwhole hline, fun rest' hseek => ?_⟩
  obtain rfl : 10 :: data = rest' := Option.some.inj ((seek_cons data).symm.trans hseek)
  refine .empty (.inl ?_) hempty
  exact mem_cons_self

/-- The first call reads headers that are empty. -/
theorem run_first {ok : ℕ → Reader → Prop} {pieces : List Bytes} {data : Bytes}
    (hpieces : ∀ p ∈ pieces, p ≠ []) (hflat : pieces.flatten = [45, 45, 98, 10, 10] ++ data)
    (hok : ok 2 (Reader.new [98] pieces)) :
    ∃ m1 w1, Run ok [98] pieces 1 ⟨m1, [], .within ([], [])⟩ ∧
      Shows (boundaryNew [98]) m1 w1 data := by
  have hnew := shows_new [98] hpieces
  have hrest := Shows.rest_reader (r := Reader.new [98] pieces) hnew
  rw [hflat] at hnew hrest
  rcases hnew.multipartBufferHeaders (boundaryNew_valid [98]).nul (boundaryMeets_cons data)
    (Nat.lt_succ_self _) with ⟨hnone, -⟩ | ⟨rest', m1, w1, hsome, hheaders, h1⟩
  · cases hnone.symm.trans (seek_cons data)
  obtain rfl : 10 :: data = rest' := Option.some.inj ((seek_cons data).symm.trans hsome)
  rw [headerLines_cons] at hheaders h1
  refine ⟨m1, w1, .step .new le_rfl hok ?_, h1⟩
  rw [Reader.step, hrest]
  dsimp only [Reader.new]
  rw [hheaders]
  rfl

/-- Two calls, the second of which reads the data of the part. -/
theorem Run.refines_read :
    ∃ r, Run (Reader.Meets (boundaryNew [98])) [98]
        [[45, 45], [98, 10, 10, 88, 10, 45, 45, 98]] 2 r ∧
      r.decoded (boundaryNew [98]) = [([], [88])] := by
  have hpieces : ∀ p ∈ [[45, 45], [98, 10, 10, 88, 10, 45, 45, (98 : UInt8)]], p ≠ [] := by
    decide
  have hrest := Shows.rest_reader (r := Reader.new [98] _) (shows_new [98] hpieces)
  obtain ⟨m1, w1, hrun, h1⟩ : ∃ m1 w1, Run (Reader.Meets (boundaryNew [98])) [98] _ 1
      ⟨m1, [], .within ([], [])⟩ ∧ Shows (boundaryNew [98]) m1 w1 [88, 10, 45, 45, 98] := by
    refine run_first hpieces rfl ?_
    rw [Reader.Meets, hrest]
    exact boundaryMeets_cons _
  -- the window is the whole of the data
  have hmeets : Reader.Meets (boundaryNew [98]) fillunit ⟨m1, [], .within ([], [])⟩ := by
    have hwindow : readWindow (boundaryNew [98]) m1.bytesInBuffer [88, 10, 45, 45, 98] fillunit =
        [88, 10, 45, 45, 98] := by
      have hle : m1.bytesInBuffer ≤ 5 := h1.length_le
      rw [readWindow, if_pos (show fillunit > _ by rw [fillunit]; omega)]
      rfl
    rw [Reader.Meets, h1.rest_reader (r := ⟨m1, [], .within ([], [])⟩), hwindow]
    exact ⟨fun h => absurd h.2 (by decide), fun h => absurd h (by decide),
      fun _ _ h => absurd h (by decide)⟩
  obtain ⟨-, hstep, -⟩ := Run.refines [98] _ hpieces 1 _ hrun
  obtain ⟨r, hr⟩ := hstep fillunit (by decide) nofun hmeets
  have hread := hrun.step (by decide) hmeets hr
  refine ⟨r, hread, (Run.refines [98] _ hpieces 2 r hread).1.trans ?_⟩
  have hlast : seek (boundaryNew [98]).boundary [10, 45, 45, 98] = none := by
    rw [seek_eq, show splitLine [10, 45, 45, 98] = some ([], [45, 45, 98]) from rfl, elim_some,
      if_neg nofun, seek_eq]
    rfl
  show reference (boundaryNew [98]).boundary ([45, 45, 98, 10, 10] ++ [88, 10, 45, 45, 98]) = _
  rw [reference_eq, seek_cons, elim_some, headerLines_cons]
  show ([], [88]) :: reference _ [10, 45, 45, 98] = _
  rw [reference_eq, hlast]
  rfl

/-! ### A CR at the end of a full buffer -/

/-- The data of a part that fills a buffer of `k + 1` bytes, with its CR, and the end of the
part. -/
def fullPart (k : ℕ) : Bytes := replicate k 88 ++ [13] ++ [10, 45, 45, 98, 45, 45, 10]

variable {k : ℕ}

theorem dataEnd_replicate {next rest : Bytes} (hnext : next.head? = some 10) (k : ℕ) :
    dataEnd next (replicate k 88 ++ rest) = k + dataEnd next rest := by
  induction k with
  | zero => rw [replicate_zero, nil_append, zero_add]
  | succ k ih =>
    have hgo : ¬ Stops next (88 :: (replicate k 88 ++ rest)) := by
      obtain ⟨next, rfl⟩ := head?_eq_some_iff.mp hnext
      rintro (h | ⟨h, -⟩)
      · exact absurd (cons_prefix_cons.mp h).1 (by decide)
      · exact absurd (Option.some.inj h) (by decide)
    rw [replicate_succ, cons_append, dataEnd, if_neg hgo, ih, add_right_comm]

/-- There is no LF in the window when the data of the part is read, so that all of it is read. -/
theorem readLength_full (k : ℕ) : readLength (replicate k 88 ++ [13]) (k + 9)
    (apMemstr (replicate k 88 ++ [13]) [10, 45, 45, 98] true) = k + 1 := by
  have hlf : ∀ q, ¬ Begins [10, 45, 45, 98] ((replicate k (88 : UInt8) ++ [13]).drop q) := by
    intro q hbegins
    have hmem : (10 : UInt8) ∈ (replicate k (88 : UInt8) ++ [13]).drop q := by
      obtain ⟨c, text, htext⟩ := exists_cons_of_ne_nil hbegins.1
      rw [htext] at hbegins ⊢
      rcases hbegins.2 with h | h
      · exact mem_cons.mpr (.inl (cons_prefix_cons.mp h).1)
      · exact mem_cons.mpr (.inl (cons_prefix_cons.mp h).1.symm)
    rcases mem_append.mp (mem_of_mem_drop hmem) with h | h
    · exact absurd (eq_of_mem_replicate h) (by decide)
    · exact absurd h (by decide)
  rcases apMemstrLoop_spec (cons_ne_nil 10 [45, 45, 98]) (replicate k 88 ++ [13]) 0
    with ⟨p, -, hbegins, -⟩ | ⟨hbound, -⟩
  · exact absurd hbegins (hlf p)
  · rw [apMemstr, hbound, readLength, getD_none, length_append, length_replicate]
    exact min_eq_left (by rw [length_singleton]; omega)

/-- The content of the part is in front of the CR. -/
theorem reference_fullPart (k : ℕ) :
    (reference [45, 45, 98] ([45, 45, 98, 10, 10] ++ fullPart k)).head? =
      some ([], replicate k 88) := by
  have hend : dataEnd [10, 45, 45, 98] (fullPart k) = k := by
    rw [fullPart, append_assoc, dataEnd_replicate rfl]
    rfl
  have hdata : (fullPart k).take k = replicate k 88 := by
    rw [fullPart, append_assoc]
    exact take_left' length_replicate
  have hseek : seek [45, 45, 98] ([45, 45, 98, 10, 10] ++ fullPart k) = some (10 :: fullPart k) :=
    seek_cons _
  rw [reference_eq, hseek, elim_some, headerLines_cons, hend, hdata]
  rfl

/-- The CR is read as data, although it belongs to the delimiter. -/
theorem keeps_cr_of_bufsize (hk : (boundaryNew [98]).bufsize = k + 1) :
    ∃ r, Run (fun _ _ => True) [98] [[45, 45, 98, 10, 10] ++ fullPart k] 2 r ∧
      r.stage = .within ([], replicate k 88 ++ [13]) := by
  have hflat : [[45, 45, 98, 10, 10] ++ fullPart k].flatten = [45, 45, 98, 10, 10] ++ fullPart k :=
    flatten_singleton
  obtain ⟨m1, w1, hrun, h1⟩ := @run_first (fun _ _ => True) _ _ (by simp) hflat trivial
  -- the data, of which all that is in the window is read
  have hlen : (fullPart k).length = k + 8 := by
    rw [fullPart, length_append, length_append, length_replicate]
    rfl
  have hfront : (fullPart k).take (k + 1) = replicate k 88 ++ [13] := by
    refine take_left' ?_
    rw [length_append, length_replicate]
    rfl
  have hwindow : readWindow (boundaryNew [98]) m1.bytesInBuffer (fullPart k) (k + 9) =
      replicate k 88 ++ [13] := by
    have hle : m1.bytesInBuffer ≤ (fullPart k).length := h1.length_le
    rw [readWindow, if_pos (by omega), hk, hfront]
  obtain ⟨m2, w2, end', hread, -⟩ := h1.read_eq (cons_ne_nil 10 [45, 45, 98])
    (show 2 ≤ k + 9 by omega) (k := k + 1) (by rw [hwindow]; exact (readLength_full k).symm)
  rw [hfront] at hread
  have hstep2 : Reader.step (boundaryNew [98]) (k + 9) ⟨m1, [], .within ([], [])⟩ =
      some ⟨m2, [], .within ([], replicate k 88 ++ [13])⟩ := by
    rw [Reader.step]
    dsimp only
    rw [hread, bind_eq_bind, bind_some]
    rw [if_neg (append_ne_nil_of_right_ne_nil _ (cons_ne_nil _ _)), nil_append]
  exact ⟨_, hrun.step (by omega) trivial hstep2, rfl⟩

/-! ### A line that is longer than the buffer -/

/-- A line that fills the buffer and goes on with the boundary. -/
def longLine (k : ℕ) : Bytes := replicate k 88 ++ [45, 45, 98, 10, 10]

theorem reference_longLine (k : ℕ) : reference [45, 45, 98] (longLine (k + 1)) = [] := by
  have hline : longLine (k + 1) = (replicate (k + 1) 88 ++ [45, 45, 98]) ++ 10 :: [10] := by
    rw [longLine, append_assoc]
    rfl
  have hlf : 10 ∉ replicate (k + 1) (88 : UInt8) ++ [45, 45, 98] := by
    simp
  have hchomp : chomp (replicate (k + 1) 88 ++ [45, 45, 98]) =
      replicate (k + 1) 88 ++ [45, 45, 98] := by
    refine if_neg ?_
    rw [getLast?_append]
    exact nofun
  have hempty : splitLine [10] = some ([], []) := rfl
  have hseek : seek [45, 45, 98] (longLine (k + 1)) = none := by
    rw [seek_eq, hline, splitLine_eq hlf, hchomp, elim_some,
      if_neg (fun h => by simpa using congrArg List.length h), seek_eq, hempty]
    rw [elim_some, if_neg (by decide), seek_eq]
    rfl
  rw [reference_eq, hseek]
  rfl

/-- What is behind the full buffer is taken for a line. -/
theorem splits_line_of_bufsize (hk : (boundaryNew [98]).bufsize = k + 1) :
    ∃ r, Run (fun bytes _ => bytes = fillunit) [98] [longLine (k + 1)] 1 r ∧
      r.stage = .within ([], []) := by
  have hpieces : ∀ p ∈ [longLine (k + 1)], p ≠ [] := by
    simp [longLine]
  have hnew := shows_new [98] hpieces
  have hrest := Shows.rest_reader (r := Reader.new [98] [longLine (k + 1)]) hnew
  rw [flatten_singleton] at hnew hrest
  have htake : (longLine (k + 1)).take (k + 1) = replicate (k + 1) 88 := take_left' length_replicate
  have hdrop : (longLine (k + 1)).drop (k + 1) = [45, 45, 98, 10, 10] ++ [] :=
    drop_left' length_replicate
  have hlen : k + 1 ≤ (longLine (k + 1)).length := by
    rw [longLine, length_append, length_replicate]
    exact Nat.le_add_right _ _
  obtain ⟨m1, start, hget, h1, hstring⟩ := hnew.getLine_full
    (by rw [hk]; exact Nat.succ_pos k) (hk ▸ hlen) (by rw [hk, htake]; simp)
  rw [hk, hdrop] at h1
  rw [hk, htake, cString_eq (by simp)] at hstring
  have hfuel : ([45, 45, 98, 10, 10] ++ []).length < (longLine (k + 1)).length := by
    rw [longLine, length_append, length_append, length_replicate]
    exact Nat.lt_add_of_pos_left k.succ_pos
  obtain ⟨hseek, hheaders⟩ := boundaryMeets_cons []
  rcases h1.findBoundary (boundaryNew_valid [98]).nul hseek hfuel with
    ⟨hnone, -⟩ | ⟨rest', m2, w2, hsome, hfound, h2⟩
  · cases hnone.symm.trans (seek_cons [])
  obtain rfl : [10] = rest' := Option.some.inj ((seek_cons []).symm.trans hsome)
  have hfuel' : [(10 : UInt8)].length < (longLine (k + 1)).length + 1 :=
    Nat.succ_lt_succ (Nat.zero_lt_of_lt hfuel)
  obtain ⟨m3, w3, hloop, -⟩ := h2.headersLoop (hheaders _ hsome) hfuel' ⟨[], none, none⟩
  have hskip : findBoundary (boundaryNew [98]) ((longLine (k + 1)).length + 1)
      (multipartBufferNew [98] [longLine (k + 1)]) = some (m2, true) := by
    rw [findBoundary, hget, bind_eq_bind, bind_some]
    dsimp only
    rw [hstring, bind_eq_bind, bind_some, if_neg nofun, hfound]
  have hall : multipartBufferHeaders (boundaryNew [98]) ((longLine (k + 1)).length + 1)
      (multipartBufferNew [98] [longLine (k + 1)]) = some (m3, some []) := by
    rw [multipartBufferHeaders, hskip, bind_eq_bind, bind_some]
    dsimp only
    rw [hloop, headerLines_cons]
    rfl
  refine ⟨⟨m3, [], .within ([], [])⟩, .step .new (show 2 ≤ fillunit by decide) rfl ?_, rfl⟩
  rw [Reader.step, hrest]
  dsimp only [Reader.new]
  rw [hall]
  rfl

/-- With blocks of `FILLUNIT` bytes, what is behind the full buffer is taken for the boundary; and a
CR is read as data, although it belongs to the delimiter. -/
theorem Run.keeps_cr :
    (∃ r, Run (fun bytes _ => bytes = fillunit) [98] [longLine 5120] 1 r ∧
      r.stage = .within ([], []) ∧ reference [45, 45, 98] (longLine 5120) = []) ∧
    ∃ r, Run (fun _ _ => True) [98] [[45, 45, 98, 10, 10] ++ fullPart 5119] 2 r ∧
      r.stage = .within ([], replicate 5119 88 ++ [13]) ∧
      (reference [45, 45, 98] ([45, 45, 98, 10, 10] ++ fullPart 5119)).head? =
        some ([], replicate 5119 88) := by
  constructor
  · obtain ⟨r, hrun, hstage⟩ := splits_line_of_bufsize (k := 5119) rfl
    exact ⟨r, hrun, hstage, reference_longLine 5119⟩
  · obtain ⟨r, hrun, hstage⟩ := keeps_cr_of_bufsize (k := 5119) rfl
    exact ⟨r, hrun, hstage, reference_fullPart 5119⟩

end Rfc1867
