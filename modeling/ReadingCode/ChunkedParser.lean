/-
# `ngx_http_parse_chunked`

The chunked-body parser (`ngx_http_parse.c`) and the loop its callers drive it with
(`ngx_http_request_body_chunked_filter`, `ngx_http_discard_request_body_filter`).  A
buffer is the list of its bytes from `b->pos` to `b->last`; a call returns the code,
the context and what is left of the buffer.  An `off_t` is a natural number: the
parser's own guard keeps every value it computes within `NGX_MAX_OFF_T_VALUE`.
-/
import Mathlib.Data.Prod.Basic
import ReadingCode.Bytes
import ReadingCode.Transducer

namespace Chunked

/-! ## The context -/

/-- `NGX_MAX_OFF_T_VALUE` for a 64-bit `off_t`. -/
def maxOffT : ℕ := 0x7fffffffffffffff

/-- The parser's states. -/
inductive SwState where
  | chunkStart
  | chunkSize
  | chunkExtension
  | chunkExtensionAlmostDone
  | chunkData
  | afterData
  | afterDataAlmostDone
  | lastChunkExtension
  | lastChunkExtensionAlmostDone
  | trailer
  | trailerAlmostDone
  | trailerHeader
  | trailerHeaderAlmostDone
  deriving DecidableEq, Repr

/-- `ngx_http_chunked_t`. -/
structure NgxHttpChunked where
  state : SwState
  size : ℕ
  length : ℕ
  deriving DecidableEq, Repr

/-- The context as `ngx_pcalloc` leaves it. -/
def NgxHttpChunked.init : NgxHttpChunked := ⟨.chunkStart, 0, 0⟩

/-- The codes the parser returns. -/
inductive NgxRc where
  | ok
  | again
  | done
  | error
  deriving DecidableEq, Repr

/-! ## One byte -/

/-- What the `switch` does with one byte: go on with a state and a size, leave the loop
by `goto data`, `goto done` or `goto invalid`. -/
inductive ByteExit where
  | next (state : SwState) (size : ℕ)
  | data
  | done
  | invalid
  deriving DecidableEq, Repr

/-- The body of the parser's `switch (state)`. -/
def chunkedByte (state : SwState) (size : ℕ) (ch : UInt8) : ByteExit :=
  match state with
  | .chunkStart =>
    match hexDigit ch with
    | some d => .next .chunkSize d
    | none => .invalid
  | .chunkSize =>
    if size > maxOffT / 16 then .invalid
    else
      match hexDigit ch with
      | some d => .next .chunkSize (size * 16 + d)
      | none =>
        if size = 0 then
          if ch = CR then .next .lastChunkExtensionAlmostDone size
          else if ch = LF then .next .trailer size
          else if ch = 0x3b ∨ ch = SP ∨ ch = HT then .next .lastChunkExtension size
          else .invalid
        else if ch = CR then .next .chunkExtensionAlmostDone size
        else if ch = LF then .next .chunkData size
        else if ch = 0x3b ∨ ch = SP ∨ ch = HT then .next .chunkExtension size
        else .invalid
  | .chunkExtension =>
    if ch = CR then .next .chunkExtensionAlmostDone size
    else if ch = LF then .next .chunkData size
    else .next .chunkExtension size
  | .chunkExtensionAlmostDone =>
    if ch = LF then .next .chunkData size else .invalid
  | .chunkData => .data
  | .afterData =>
    -- no `default:` in this switch: any other byte leaves the state as it is
    if ch = CR then .next .afterDataAlmostDone size
    else if ch = LF then .next .chunkStart size
    else .next .afterData size
  | .afterDataAlmostDone =>
    if ch = LF then .next .chunkStart size else .invalid
  | .lastChunkExtension =>
    if ch = CR then .next .lastChunkExtensionAlmostDone size
    else if ch = LF then .next .trailer size
    else .next .lastChunkExtension size
  | .lastChunkExtensionAlmostDone =>
    if ch = LF then .next .trailer size else .invalid
  | .trailer =>
    if ch = CR then .next .trailerAlmostDone size
    else if ch = LF then .done
    else .next .trailerHeader size
  | .trailerAlmostDone =>
    if ch = LF then .done else .invalid
  | .trailerHeader =>
    if ch = CR then .next .trailerHeaderAlmostDone size
    else if ch = LF then .next .trailer size
    else .next .trailerHeader size
  | .trailerHeaderAlmostDone =>
    if ch = LF then .next .trailer size else .invalid

/-! ## One call -/

/-- How the `for` loop over the buffer ends: `fellThrough` with the buffer used up, or
one of the three `goto`s, each with the state, the size and the bytes from `pos` on. -/
inductive LoopExit where
  | fellThrough (state : SwState) (size : ℕ)
  | data (state : SwState) (size : ℕ) (pos : Bytes)
  | done (size : ℕ) (pos : Bytes)
  | invalid (size : ℕ)
  deriving DecidableEq, Repr

/-- The `for (pos = b->pos; pos < b->last; pos++)` loop.  For `done` the bytes are those
from `pos + 1` on. -/
def chunkedLoop : SwState → ℕ → Bytes → LoopExit
  | state, size, [] => .fellThrough state size
  | state, size, ch :: rest =>
    match chunkedByte state size ch with
    | .next state' size' => chunkedLoop state' size' rest
    | .data => .data state size (ch :: rest)
    | .done => .done size rest
    | .invalid => .invalid size

/-- `ctx->length`: the least amount of data still to come. -/
def chunkedLength (state : SwState) (size : ℕ) : ℕ :=
  match state with
  | .chunkStart => 3
  | .chunkSize => 1 + (if size = 0 then 1 else size + 4)
  | .chunkExtension | .chunkExtensionAlmostDone => 1 + size + 4
  | .chunkData => size + 4
  | .afterData | .afterDataAlmostDone => 4
  | .lastChunkExtension | .lastChunkExtensionAlmostDone => 2
  | .trailer | .trailerAlmostDone => 1
  | .trailerHeader | .trailerHeaderAlmostDone => 2

/-- The code from the label `data:` on: store the context, check the size, set the
length and return `rc`. -/
def chunkedData (rc : NgxRc) (ctx : NgxHttpChunked) (state : SwState) (size : ℕ)
    (pos : Bytes) : NgxRc × NgxHttpChunked × Bytes :=
  if size > maxOffT - 5 then
    (.error, ⟨state, size, ctx.length⟩, pos)
  else
    (rc, ⟨state, size, chunkedLength state size⟩, pos)

/-- The state a call starts in: the data of a chunk that has been consumed is over. -/
def entryState (state : SwState) (size : ℕ) : SwState :=
  if state = .chunkData ∧ size = 0 then .afterData else state

/-- `ngx_http_parse_chunked(r, b, ctx)`. -/
def ngxHttpParseChunked (ctx : NgxHttpChunked) (b : Bytes) :
    NgxRc × NgxHttpChunked × Bytes :=
  match chunkedLoop (entryState ctx.state ctx.size) ctx.size b with
  | .fellThrough state size => chunkedData .again ctx state size []
  | .data state size pos => chunkedData .ok ctx state size pos
  | .done size pos => (.done, ⟨.chunkStart, size, ctx.length⟩, pos)
  | .invalid size => (.error, { ctx with size := size }, b)

/-! ## The callers' loop -/

/-- Where a buffer leaves the decoder: waiting for more, past the last chunk with the
bytes it has not read, or in error. -/
inductive BodyEnd where
  | again (ctx : NgxHttpChunked)
  | done (rest : Bytes)
  | error
  deriving DecidableEq, Repr

/-- The `for ( ;; )` loop of the callers over one buffer: call the parser; on `NGX_OK`
take `ctx->size` bytes of chunk data, or what there is of them, and call it again.
The result is the data taken and where the buffer leaves the decoder; `none` says that
the loop has not ended within `fuel` calls. -/
def chunkedFilterLoop : ℕ → NgxHttpChunked → Bytes → Option (Bytes × BodyEnd)
  | 0, _, _ => none
  | fuel + 1, ctx, b =>
    match ngxHttpParseChunked ctx b with
    | (.ok, ctx, b) =>
      let size := b.length
      let (data, b, ctx) :=
        if size > ctx.size then
          (b.take ctx.size, b.drop ctx.size, { ctx with size := 0 })
        else
          (b, [], { ctx with size := ctx.size - size })
      (chunkedFilterLoop fuel ctx b).map fun r => (data ++ r.1, r.2)
    | (.done, _, b) => some ([], .done b)
    | (.again, ctx, _) => some ([], .again ctx)
    | (.error, _, _) => some ([], .error)

/-- The filter on one buffer.  Every call that returns `NGX_OK` leaves data to take, so
one call for each byte and one more suffice (`chunkedFilter_eq_run`). -/
def chunkedFilter (ctx : NgxHttpChunked) (b : Bytes) : Option (Bytes × BodyEnd) :=
  chunkedFilterLoop (b.length + 1) ctx b

/-- The filter on the buffers of a body one after another, until it is done or in error;
what is left of the input is then the rest of the buffer and the buffers not reached. -/
def chunkedFilterBuffers (ctx : NgxHttpChunked) :
    List Bytes → Option (Bytes × BodyEnd)
  | [] => some ([], .again ctx)
  | b :: bs =>
    match chunkedFilter ctx b with
    | some (data, .again ctx') =>
      (chunkedFilterBuffers ctx' bs).map fun r => (data ++ r.1, r.2)
    | some (data, .done rest) => some (data, .done (rest ++ bs.flatten))
    | some (data, .error) => some (data, .error)
    | none => none

end Chunked

/-!
# The chunked filter is a transducer

The parser keeps its state in the context, and its callers take the chunk data out of
the buffer between two calls.  Seen one byte at a time the two together are a
transducer (`bodyStep`) that emits the data bytes; `chunkedFilter_eq_run` identifies
the filter on a buffer with a run of it, and so a body cut into buffers with a run over
the whole body (`chunkedFilterBuffers_eq_run`).
-/

open Transducer

namespace Chunked

open List

/-! ## The transducer -/

/-- A parser state with the size still to come. -/
abbrev Pos := SwState × ℕ

/-- How a body ends for good. -/
inductive Verdict where
  | done
  | error
  deriving DecidableEq, Repr

/-- One byte of the body: chunk data is emitted, every other byte goes to the parser. -/
def bodyStep : Pos → UInt8 → Move Pos UInt8 Verdict
  | (.chunkData, size), ch =>
    .next (if size = 1 then .afterData else .chunkData, size - 1) [ch]
  | (state, size), ch =>
    match chunkedByte state size ch with
    | .next state' size' => .next (state', size') []
    | .done => .halt .done
    | .data | .invalid => .halt .error

/-- The size check that a call makes when it runs out of input. -/
def atEnd (p : Pos) : BodyEnd :=
  if p.2 > maxOffT - 5 then .error else .again ⟨p.1, p.2, chunkedLength p.1 p.2⟩

/-- A run of the transducer, as the filter reports it. -/
def report : Ending Pos UInt8 Verdict → BodyEnd
  | .live p => atEnd p
  | .halted .done rest => .done rest
  | .halted .error _ => .error

@[simp] theorem report_live (p : Pos) : report (.live p) = atEnd p := rfl

@[simp] theorem report_done (rest : Bytes) : report (.halted .done rest) = .done rest := rfl

@[simp] theorem report_error (rest : Bytes) : report (.halted .error rest) = .error := rfl

/-! ## What the states say about the size -/

/-- The sizes a state can have: the size of a chunk whose data is still to come is not
zero, and outside the size itself it is within the bound the parser checks. -/
def SizeOk (p : Pos) : Prop :=
  (p.1 = .chunkData ∨ p.1 = .chunkExtension ∨ p.1 = .chunkExtensionAlmostDone → p.2 ≠ 0) ∧
    (p.1 ≠ .chunkSize → p.2 ≤ maxOffT / 16)

theorem sizeOk_init : SizeOk (.chunkStart, 0) := by
  refine ⟨?_, fun _ => Nat.zero_le _⟩
  rintro (h | h | h) <;> exact absurd h (by decide)

variable {state : SwState} {size : ℕ} {ch : UInt8}

/-- The parser's `switch` keeps the sizes in order. -/
theorem sizeOk_chunkedByte {state' : SwState} {size' : ℕ} (hok : SizeOk (state, size))
    (h : chunkedByte state size ch = .next state' size') : SizeOk (state', size') := by
  unfold chunkedByte at h
  unfold SizeOk at *
  grind

variable {p : Pos}

theorem sizeOk_bodyStep {p' : Pos} {out : Bytes} (hok : SizeOk p)
    (h : bodyStep p ch = .next p' out) : SizeOk p' := by
  obtain ⟨state, size⟩ := p
  by_cases hs : state = .chunkData
  · subst hs
    obtain ⟨rfl, -⟩ := Move.next.inj h
    have h1 : size ≠ 0 := hok.1 (.inl rfl)
    have h2 : size ≤ maxOffT / 16 := hok.2 (by simp)
    unfold SizeOk
    grind
  · have : ∃ state' size', chunkedByte state size ch = .next state' size' ∧
        p' = (state', size') := by
      all_goals
        simp only [bodyStep] at h
        cases hb : chunkedByte _ size ch <;> simp only [hb] at h <;> grind
    obtain ⟨state', size', hb, rfl⟩ := this
    exact sizeOk_chunkedByte hok hb

/-! ## One call of the parser -/

theorem chunkedByte_eq_data (h : chunkedByte state size ch = .data) : state = .chunkData := by
  unfold chunkedByte at h
  grind

theorem bodyStep_of_ne (hs : state ≠ .chunkData) (size : ℕ) (ch : UInt8) :
    bodyStep (state, size) ch = match chunkedByte state size ch with
      | .next state' size' => .next (state', size') []
      | .done => .halt .done
      | .data | .invalid => .halt .error := by
  cases state <;> first | rfl | exact absurd rfl hs

/-- **The loop over a buffer**, in the four ways it can end. -/
theorem chunkedLoop_run (hok : SizeOk (state, size)) (b : Bytes) :
    match chunkedLoop state size b with
    | .fellThrough st sz => run bodyStep (state, size) b = ([], .live (st, sz))
    | .data st sz pos => st = .chunkData ∧ SizeOk (st, sz) ∧ pos ≠ [] ∧
        pos.length ≤ b.length ∧ run bodyStep (state, size) b = run bodyStep (st, sz) pos
    | .done _ pos => run bodyStep (state, size) b = ([], .halted .done pos)
    | .invalid _ => ∃ pos, run bodyStep (state, size) b = ([], .halted .error pos) := by
  induction b generalizing state size with
  | nil => rfl
  | cons ch rest ih =>
    by_cases hs : state = .chunkData
    · subst hs
      exact ⟨rfl, hok, cons_ne_nil _ _, Nat.le_refl _, rfl⟩
    · have hstep := bodyStep_of_ne hs size ch
      cases hb : chunkedByte state size ch with
      | next state' size' =>
        simp only [hb] at hstep
        have hnext := ih (sizeOk_chunkedByte hok hb)
        rw [chunkedLoop, hb, run_cons_next bodyStep hstep]
        simp only [nil_append, Prod.mk.eta]
        cases hl : chunkedLoop state' size' rest with
        | data st sz pos =>
          simp only [hl] at hnext ⊢
          obtain ⟨h1, h2, h3, h4, h5⟩ := hnext
          exact ⟨h1, h2, h3, by rw [length_cons]; omega, h5⟩
        | _ => simpa only [hl] using hnext
      | data => exact absurd (chunkedByte_eq_data hb) hs
      | done =>
        simp only [hb] at hstep
        rw [chunkedLoop, hb]
        exact run_cons_halt bodyStep hstep rest
      | invalid =>
        simp only [hb] at hstep
        rw [chunkedLoop, hb]
        exact ⟨rest, run_cons_halt bodyStep hstep rest⟩

/-! ## Taking the data -/

/-- A run over chunk data emits it. -/
theorem run_data (hsize : size ≠ 0) (d rest : Bytes) (hd : d.length ≤ size) :
    run bodyStep (.chunkData, size) (d ++ rest) =
      (d ++ (run bodyStep (entryState .chunkData (size - d.length), size - d.length) rest).1,
        (run bodyStep (entryState .chunkData (size - d.length), size - d.length) rest).2) := by
  induction d generalizing size with
  | nil => simp [entryState, hsize]
  | cons ch d ih =>
    rw [length_cons] at hd
    have hstep : bodyStep (.chunkData, size) ch =
        .next (entryState .chunkData (size - 1), size - 1) [ch] := by
      by_cases h1 : size = 1
      · simp [bodyStep, entryState, h1]
      · simp [bodyStep, entryState, h1, show ¬ size - 1 = 0 by omega]
    rw [cons_append, run_cons_next bodyStep hstep, length_cons,
      show size - (d.length + 1) = size - 1 - d.length by omega]
    by_cases h1 : size = 1
    · obtain rfl : d = [] := length_eq_zero_iff.mp (by omega)
      simp [h1]
    · rw [show entryState .chunkData (size - 1) = .chunkData by
        simp [entryState, show ¬ size - 1 = 0 by omega], ih (by omega) (by omega)]
      simp

/-! ## The filter -/

/-- What the filter keeps between calls: the sizes are in order once the end of the
chunk data is accounted for. -/
def CtxOk (ctx : NgxHttpChunked) : Prop := SizeOk (entryState ctx.state ctx.size, ctx.size)

/-- The transducer state a context stands for. -/
def NgxHttpChunked.pos (ctx : NgxHttpChunked) : Pos := (entryState ctx.state ctx.size, ctx.size)

theorem ctxOk_init : CtxOk .init := sizeOk_init

variable {ctx : NgxHttpChunked}

theorem chunkedFilterLoop_eq_run {fuel : ℕ} (hok : CtxOk ctx)
    {b : Bytes} (hfuel : b.length < fuel) : chunkedFilterLoop fuel ctx b =
      some ((run bodyStep ctx.pos b).1, report (run bodyStep ctx.pos b).2) := by
  induction fuel generalizing ctx b with
  | zero => exact absurd hfuel (Nat.not_lt_zero _)
  | succ fuel ih =>
    have hloop := chunkedLoop_run hok b
    rw [chunkedFilterLoop, ngxHttpParseChunked, NgxHttpChunked.pos]
    cases hl : chunkedLoop (entryState ctx.state ctx.size) ctx.size b with
    | fellThrough st sz =>
      simp only [hl] at hloop
      rw [hloop]
      by_cases hsz : sz > maxOffT - 5 <;> simp [chunkedData, hsz, atEnd]
    | data st sz pos =>
      simp only [hl] at hloop
      obtain ⟨rfl, hsok, hne, hlen, hrun⟩ := hloop
      have hsz : sz ≠ 0 := hsok.1 (Or.inl rfl)
      have hmax : ¬ sz > maxOffT - 5 := by
        have h1 : sz ≤ maxOffT / 16 := hsok.2 (by simp)
        omega
      have hpos : 0 < pos.length := length_pos_iff.mpr hne
      rw [hrun]
      simp only [chunkedData, hmax, if_false]
      by_cases hlt : pos.length > sz
      · -- the chunk ends inside the buffer
        have hdata := run_data hsz (pos.take sz) (pos.drop sz)
          (by rw [length_take]; omega)
        have htake : sz - (pos.take sz).length = 0 := by rw [length_take]; omega
        rw [take_append_drop, htake] at hdata
        have hok : CtxOk ⟨.chunkData, 0, chunkedLength .chunkData sz⟩ :=
          ⟨by simp [entryState], fun _ => Nat.zero_le _⟩
        have hshort : (pos.drop sz).length < fuel := by rw [length_drop]; omega
        have hrec := ih hok hshort
        simp only [hlt, if_true, hrec, Option.map_some, hdata, NgxHttpChunked.pos]
      · -- the buffer ends inside the chunk
        have hdata := run_data hsz pos [] (by omega)
        rw [append_nil] at hdata
        have hok : CtxOk ⟨.chunkData, sz - pos.length, chunkedLength .chunkData sz⟩ := by
          have h1 : sz ≤ maxOffT / 16 := hsok.2 (by simp)
          refine ⟨fun h => ?_, fun _ => by simp only; omega⟩
          by_cases h0 : sz - pos.length = 0
          · simp [entryState, h0] at h
          · exact h0
        have hshort : ([] : Bytes).length < fuel := by simp only [length_nil]; omega
        have hrec := ih hok hshort
        simp only [hlt, if_false, hrec, Option.map_some, hdata, NgxHttpChunked.pos]
    | done sz pos =>
      simp only [hl] at hloop
      rw [hloop]
      rfl
    | invalid sz =>
      simp only [hl] at hloop
      obtain ⟨pos, hrun⟩ := hloop
      rw [hrun]
      rfl

/-- **The filter on a buffer is a run of the transducer**; in particular it ends. -/
theorem chunkedFilter_eq_run (hok : CtxOk ctx) (b : Bytes) :
    chunkedFilter ctx b = some ((run bodyStep ctx.pos b).1, report (run bodyStep ctx.pos b).2) :=
  chunkedFilterLoop_eq_run hok (Nat.lt_succ_self _)

/-! ## Cutting the body into buffers -/

theorem sizeOk_run {p' : Pos} (hok : SizeOk p) {b out : Bytes}
    (h : run bodyStep p b = (out, .live p')) : SizeOk p' := by
  induction b generalizing p out with
  | nil =>
    obtain ⟨-, h2⟩ := Prod.mk.inj h
    exact Ending.live.inj h2 ▸ hok
  | cons ch b ih =>
    cases hs : bodyStep p ch with
    | next q o =>
      rw [run_cons_next bodyStep hs] at h
      exact ih (sizeOk_bodyStep hok hs) (Prod.ext rfl (Prod.mk.inj h).2)
    | halt r =>
      rw [run_cons_halt bodyStep hs] at h
      exact absurd (Prod.mk.inj h).2 (by simp)

theorem entryState_of_sizeOk (hok : SizeOk p) : entryState p.1 p.2 = p.1 := by
  rw [entryState, if_neg]
  rintro ⟨h1, h2⟩
  exact hok.1 (.inl h1) h2

/-- A size too large for the end of a buffer is too large for the next byte as well. -/
theorem report_run_of_large (hok : SizeOk p) (hlarge : p.2 > maxOffT - 5)
    (b : Bytes) : (run bodyStep p b).1 = [] ∧ report (run bodyStep p b).2 = .error := by
  obtain ⟨state, size⟩ := p
  have hst : state = .chunkSize := by
    by_contra hne
    have h1 : size ≤ maxOffT / 16 := hok.2 hne
    omega
  subst hst
  cases b with
  | nil => exact ⟨rfl, by simp only [run_nil, report_live, atEnd, hlarge, if_true]⟩
  | cons ch b =>
    have hb : bodyStep (.chunkSize, size) ch = .halt .error := by
      simp only [bodyStep, chunkedByte, show size > maxOffT / 16 by omega, if_true]
    rw [run_cons_halt bodyStep hb]
    exact ⟨rfl, rfl⟩

/-- **Cut invariance**: a body cut into buffers is decoded as the undivided body is,
from any context, for any number of buffers. -/
theorem chunkedFilterBuffers_eq (hok : CtxOk ctx) (b : Bytes) (bs : List Bytes) :
    chunkedFilterBuffers ctx (b :: bs) = chunkedFilter ctx (b ++ bs.flatten) := by
  induction bs generalizing ctx b with
  | nil =>
    rw [chunkedFilterBuffers, flatten_nil, append_nil]
    rcases hf : chunkedFilter ctx b with _ | ⟨data, _ | _ | _⟩ <;>
      simp [chunkedFilterBuffers]
  | cons b' bs ih =>
    rw [chunkedFilterBuffers, chunkedFilter_eq_run hok, chunkedFilter_eq_run hok, run_append]
    rcases hr : run bodyStep ctx.pos b with ⟨out, p | ⟨v, rest⟩⟩
    · have hp : SizeOk p := sizeOk_run hok hr
      by_cases hlarge : p.2 > maxOffT - 5
      · obtain ⟨h1, h2⟩ := report_run_of_large hp hlarge (b' ++ bs.flatten)
        simp [atEnd, hlarge, Outcome.andThen, h1, h2]
      · have hctx : CtxOk ⟨p.1, p.2, chunkedLength p.1 p.2⟩ := by
          rw [CtxOk, entryState_of_sizeOk hp]
          exact hp
        have hpos : NgxHttpChunked.pos ⟨p.1, p.2, chunkedLength p.1 p.2⟩ = p := by
          rw [NgxHttpChunked.pos, entryState_of_sizeOk hp]
        simp only [report_live, atEnd, hlarge, if_false]
        rw [ih hctx b', chunkedFilter_eq_run hctx, hpos]
        simp [Outcome.andThen]
    · cases v <;> simp [Outcome.andThen]

end Chunked

/-!
# The length hint of the chunked parser

No byte takes more than one off the hint of its state, so that no way to the end is shorter than it.
-/

namespace Chunked

/-! ## The sizes are within an `off_t` -/

/-- The size a loop ends with. -/
def LoopExit.size : LoopExit → ℕ
  | .fellThrough _ size | .data _ size _ | .done size _ | .invalid size => size

section

variable {state : SwState} {size : ℕ} {ch : UInt8}

variable {state' : SwState}

theorem chunkedByte_size_le {size' : ℕ} (hle : size ≤ maxOffT)
    (h : chunkedByte state size ch = .next state' size') : size' ≤ maxOffT := by
  have hd : ∀ d, hexDigit ch = some d → d < 16 := fun d => hexDigit_lt
  have hm : maxOffT / 16 * 16 + 15 = maxOffT := by decide
  unfold chunkedByte at h
  grind

theorem chunkedLoop_size_le (state : SwState) (hle : size ≤ maxOffT) (b : Bytes) :
    (chunkedLoop state size b).size ≤ maxOffT := by
  induction b generalizing state size with
  | nil => exact hle
  | cons ch rest ih =>
    rw [chunkedLoop]
    cases hb : chunkedByte state size ch with
    | next state' size' => exact ih state' (chunkedByte_size_le hle hb)
    | data => exact hle
    | done => exact hle
    | invalid => exact hle

theorem chunkedLength_le (h : size ≤ maxOffT - 5) : chunkedLength state size ≤ maxOffT := by
  have hm : maxOffT = 0x7fffffffffffffff := rfl
  unfold chunkedLength
  grind

/-! ## One byte takes one off the hint -/

theorem chunkedLength_chunkedByte {size' : ℕ} (h : chunkedByte state size ch = .next state' size') :
    chunkedLength state size ≤ chunkedLength state' size' + 1 := by
  unfold chunkedByte at h
  cases state <;> simp only [chunkedLength] at h ⊢ <;> grind [chunkedLength]

theorem chunkedLength_done (h : chunkedByte state size ch = .done) :
    chunkedLength state size = 1 := by
  unfold chunkedByte at h
  unfold chunkedLength
  grind

end

section

variable {p : Pos} {ch : UInt8}

theorem chunkedLength_bodyStep {p' : Pos} {out : Bytes} (hok : SizeOk p)
    (h : bodyStep p ch = .next p' out) : chunkedLength p.1 p.2 ≤ chunkedLength p'.1 p'.2 + 1 := by
  obtain ⟨state, size⟩ := p
  by_cases hs : state = .chunkData
  · -- a byte of the data, and the last one leaves the four of the end to come
    subst hs
    obtain ⟨rfl, -⟩ := Move.next.inj h
    by_cases h1 : size = 1
    · simp [h1, chunkedLength]
    · simp only [h1, if_false, chunkedLength]
      omega
  · rw [bodyStep_of_ne hs] at h
    cases hb : chunkedByte state size ch <;> simp only [hb] at h
    case next state' size' =>
      obtain ⟨rfl, -⟩ := Move.next.inj h
      exact chunkedLength_chunkedByte hb
    all_goals exact absurd h (by simp)

theorem chunkedLength_bodyStep_done (h : bodyStep p ch = .halt .done) :
    chunkedLength p.1 p.2 = 1 := by
  obtain ⟨state, size⟩ := p
  by_cases hs : state = .chunkData
  · subst hs
    exact absurd h (by simp [bodyStep])
  · rw [bodyStep_of_ne hs] at h
    cases hb : chunkedByte state size ch <;> simp only [hb] at h
    case done => exact chunkedLength_done hb
    all_goals exact absurd h (by simp)

/-- **No way to the end is shorter than the hint.** -/
theorem chunkedLength_run (hok : SizeOk p) {b out rest : Bytes}
    (h : run bodyStep p b = (out, .halted .done rest)) :
    chunkedLength p.1 p.2 + rest.length ≤ b.length := by
  induction b generalizing p out with
  | nil => exact absurd (Prod.mk.inj h).2 (by simp)
  | cons ch b ih =>
    rw [List.length_cons]
    cases hs : bodyStep p ch with
    | next q o =>
      rw [run_cons_next bodyStep hs] at h
      have hrest := ih (sizeOk_bodyStep hok hs) (Prod.ext rfl (Prod.mk.inj h).2)
      have hstep := chunkedLength_bodyStep hok hs
      omega
    | halt v =>
      rw [run_cons_halt bodyStep hs] at h
      obtain ⟨rfl, rfl⟩ := Ending.halted.inj (Prod.mk.inj h).2
      have := chunkedLength_bodyStep_done hs
      omega

end

/-! ## The contexts that the callers have -/

/-- The contexts of a body: the parser is called with whatever has arrived, and of a chunk's
data the callers take what there is. -/
inductive Reached : NgxHttpChunked → Prop
  | init : Reached .init
  | call {ctx ctx' rc b pos} (h : Reached ctx) (hrc : rc = NgxRc.again ∨ rc = .ok)
      (hcall : ngxHttpParseChunked ctx b = (rc, ctx', pos)) : Reached ctx'
  | take {ctx} {n : ℕ} (h : Reached ctx) (hstate : ctx.state = .chunkData) (hn : n ≤ ctx.size) :
      Reached { ctx with size := ctx.size - n }

/-- What holds of them. -/
structure CtxInv (ctx : NgxHttpChunked) : Prop where
  ok : CtxOk ctx
  size_le : ctx.size ≤ maxOffT
  length_le : ctx.length ≤ maxOffT

variable {ctx ctx' : NgxHttpChunked} {rc : NgxRc} {b pos : Bytes}

/-- What a call does: the sizes are within an `off_t`, and when it is to be continued the hint
is the one of the state that the context stands for. -/
theorem CtxInv.call (hinv : CtxInv ctx) (h : ngxHttpParseChunked ctx b = (rc, ctx', pos)) :
    (ctx'.size ≤ maxOffT ∧ ctx'.length ≤ maxOffT) ∧ (rc = .again ∨ rc = .ok →
      CtxOk ctx' ∧ ctx'.length = chunkedLength ctx'.pos.1 ctx'.pos.2) := by
  have hsize := chunkedLoop_size_le (entryState ctx.state ctx.size) hinv.size_le b
  have hrun := chunkedLoop_run hinv.ok b
  -- `data:` is reached with the sizes in order
  have hdata : ∀ {code state size rest}, SizeOk (state, size) → size ≤ maxOffT →
      chunkedData code ctx state size rest = (rc, ctx', pos) →
      (ctx'.size ≤ maxOffT ∧ ctx'.length ≤ maxOffT) ∧ (rc = .again ∨ rc = .ok →
        CtxOk ctx' ∧ ctx'.length = chunkedLength ctx'.pos.1 ctx'.pos.2) := by
    intro code state size rest hok hle hd
    have hentry := entryState_of_sizeOk hok
    unfold chunkedData at hd
    split_ifs at hd with hlarge
    · obtain ⟨rfl, rfl, -⟩ := hd
      exact ⟨⟨hle, hinv.length_le⟩, by simp⟩
    · obtain ⟨rfl, rfl, -⟩ := hd
      refine ⟨⟨hle, chunkedLength_le (Nat.not_lt.1 hlarge)⟩, fun _ => ⟨?_, ?_⟩⟩
      · rw [CtxOk, hentry]
        exact hok
      · rw [NgxHttpChunked.pos, hentry]
  unfold ngxHttpParseChunked at h
  cases hl : chunkedLoop (entryState ctx.state ctx.size) ctx.size b with
  | fellThrough state size =>
    simp only [hl] at h hsize hrun
    exact hdata (sizeOk_run hinv.ok hrun) hsize h
  | data state size rest =>
    simp only [hl] at h hsize hrun
    exact hdata hrun.2.1 hsize h
  | done size rest =>
    simp only [hl] at h hsize
    obtain ⟨rfl, rfl, -⟩ := h
    exact ⟨⟨hsize, hinv.length_le⟩, by simp⟩
  | invalid size =>
    simp only [hl] at h hsize
    obtain ⟨rfl, rfl, -⟩ := h
    exact ⟨⟨hsize, hinv.length_le⟩, by simp⟩

theorem Reached.inv (h : Reached ctx) : CtxInv ctx := by
  induction h with
  | init => exact ⟨ctxOk_init, Nat.zero_le _, Nat.zero_le _⟩
  | call _ hrc hcall ih =>
    obtain ⟨⟨hsize, hlength⟩, hcont⟩ := ih.call hcall
    exact ⟨(hcont hrc).1, hsize, hlength⟩
  | @take ctx n _ hstate hn ih =>
    obtain ⟨hok, hsize, hlength⟩ := ih
    refine ⟨?_, Nat.le_trans (Nat.sub_le _ _) hsize, hlength⟩
    obtain ⟨state, size, length⟩ := ctx
    subst hstate
    by_cases h0 : size = 0
    · obtain rfl : n = 0 := by simpa [h0] using hn
      exact hok
    · rw [CtxOk, show entryState .chunkData size = .chunkData by simp [entryState, h0]] at hok
      have hle : size ≤ maxOffT / 16 := hok.2 (by simp)
      refine ⟨fun hs h1 => ?_, fun _ => Nat.le_trans (Nat.sub_le _ _) hle⟩
      simp only at h1
      simp [entryState, h1] at hs

theorem ngxHttpParseChunked_hint {ctx ctx' : NgxHttpChunked} {rc : NgxRc} {b pos : Bytes}
    (hreached : Reached ctx) (hcall : ngxHttpParseChunked ctx b = (rc, ctx', pos)) :
    (ctx'.size ≤ maxOffT ∧ ctx'.length ≤ maxOffT) ∧ (rc = .again ∨ rc = .ok → ∀ bs data rest,
        chunkedFilterBuffers ctx' bs = some (data, .done rest) →
          ctx'.length + rest.length ≤ bs.flatten.length) := by
  obtain ⟨hsizes, hcont⟩ := hreached.inv.call hcall
  refine ⟨hsizes, fun hrc bs data rest hdone => ?_⟩
  obtain ⟨hok, hlength⟩ := hcont hrc
  cases bs with
  | nil => exact absurd hdone (by simp [chunkedFilterBuffers])
  | cons b' bs =>
    rw [chunkedFilterBuffers_eq hok, chunkedFilter_eq_run hok, Option.some_inj] at hdone
    rw [hlength]
    rcases hr : run bodyStep ctx'.pos (b' ++ bs.flatten) with ⟨out, q | ⟨v, r⟩⟩
    · rw [hr] at hdone
      have := (Prod.mk.inj hdone).2
      simp only [report_live, atEnd] at this
      split_ifs at this
    · rw [hr] at hdone
      cases v with
      | error => exact absurd (Prod.mk.inj hdone).2 (by simp)
      | done =>
        obtain rfl := BodyEnd.done.inj (Prod.mk.inj hdone).2
        exact chunkedLength_run hok hr

theorem ngxHttpParseChunked_hint_first :
    chunkedFilterBuffers ⟨.chunkSize, 1, 6⟩ [[10], [120, 10, 48, 10, 10, 71]] =
        some ([120], .done [71]) ∧ 6 + 1 ≤ 7 :=
  have hdone : chunkedFilterBuffers ⟨.chunkSize, 1, 6⟩ [[10], [120, 10, 48, 10, 10, 71]] =
      some ([120], .done [71]) := by decide
  ⟨hdone, (@ngxHttpParseChunked_hint _ _ .again [49] [] .init (by decide)).2 (.inl rfl) _ _ _ hdone⟩

end Chunked
