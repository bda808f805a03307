/-
# Multipart bodies

`multipart_buffer` is a window that slides over the body of a request.  Lines are handed out where
they are, with a NUL at their end, and the data of a part up to what may be a boundary.
-/
import Mathlib.Data.List.Basic
import Mathlib.Data.List.TakeWhile
import ReadingCode.Bytes

namespace Rfc1867

/-! ## Memory -/

/-- The bytes of a block from `i` on, `none` if they are not all inside. -/
def slice (block : Bytes) (i n : ℕ) : Option Bytes :=
  if i + n ≤ block.length then some ((block.drop i).take n) else none

/-- A block with bytes written to it from `i` on. -/
def write (block : Bytes) (i : ℕ) (bytes : Bytes) : Option Bytes :=
  if i + bytes.length ≤ block.length then
    some (block.take i ++ bytes ++ block.drop (i + bytes.length))
  else none

/-- The string in front of a NUL. -/
def cString (s : Bytes) : Bytes := s.takeWhile (· ≠ 0)

/-- The string that begins at `i`, which has to end inside of the block. -/
def cStringAt (block : Bytes) (i : ℕ) : Option Bytes :=
  if 0 ∈ block.drop i then some (cString (block.drop i)) else none

/-! ## The window -/

/-- The fields of `multipart_buffer` that are set by `multipart_buffer_new` only. -/
structure Boundary where
  bufsize : ℕ
  boundary : Bytes
  boundaryNext : Bytes

/-- The fields of `multipart_buffer` that change, and what `read_post` has yet to deliver.
`buf_begin` is an offset, or `NULL`. -/
structure MultipartBuffer where
  buffer : Bytes
  bufBegin : Option ℕ
  bytesInBuffer : ℕ
  pieces : List Bytes

/-- `FILLUNIT` -/
def fillunit : ℕ := 1024 * 5

/-- `multipart_buffer_new`, what is set for good. -/
def boundaryNew (boundary : Bytes) : Boundary where
  bufsize := if boundary.length + 6 < fillunit then fillunit else boundary.length + 6
  boundary := [45, 45] ++ cString boundary
  boundaryNext := [10, 45, 45] ++ cString boundary

/-- `multipart_buffer_new`, for a body that is delivered in these pieces. -/
def multipartBufferNew (boundary : Bytes) (pieces : List Bytes) : MultipartBuffer where
  buffer := List.replicate ((boundaryNew boundary).bufsize + 1) 0
  bufBegin := some 0
  bytesInBuffer := 0
  pieces := pieces

/-- `sapi_module.read_post` for at most `n` bytes: the rest of a piece is delivered by the next
call. -/
def readPost (n : ℕ) : List Bytes → Bytes × List Bytes
  | [] => ([], [])
  | piece :: pieces =>
    if piece.length ≤ n then (piece, pieces) else (piece.take n, piece.drop n :: pieces)

/-- The loop of `fill_buffer`. -/
def fillLoop : ℕ → ℕ → MultipartBuffer → Option MultipartBuffer
  | 0, _, _ => none
  | fuel + 1, bytesToRead, self =>
    if bytesToRead > 0 then
      let (read, pieces) := readPost bytesToRead self.pieces
      if read.length > 0 then do
        let buffer ← write self.buffer self.bytesInBuffer read
        fillLoop fuel (bytesToRead - read.length) { self with
          buffer := buffer, bytesInBuffer := self.bytesInBuffer + read.length, pieces := pieces }
      else some { self with pieces := pieces }
    else some self

/-- The bytes in the buffer. -/
def MultipartBuffer.window (self : MultipartBuffer) : Option Bytes :=
  match self.bufBegin with
  | some i => slice self.buffer i self.bytesInBuffer
  | none => if self.bytesInBuffer = 0 then some [] else none

/-- The beginning of `fill_buffer`: the data is moved to the front of the buffer. -/
def shiftData (self : MultipartBuffer) : Option MultipartBuffer :=
  if self.bytesInBuffer > 0 ∧ self.bufBegin ≠ some 0 then do
    let window ← self.window
    let buffer ← write self.buffer 0 window
    some { self with buffer := buffer, bufBegin := some 0 }
  else some { self with bufBegin := some 0 }

variable (b : Boundary)

/-- `fill_buffer`.  A round reads at least one byte, or is the last one. -/
def fillBuffer (self : MultipartBuffer) : Option MultipartBuffer := do
  let self ← shiftData self
  let bytesToRead := b.bufsize - self.bytesInBuffer
  fillLoop (bytesToRead + 1) bytesToRead self

/-! ## Lines -/

/-- `next_line`, with the offset of the line, or `NULL`. -/
def nextLine (self : MultipartBuffer) : Option (MultipartBuffer × Option ℕ) := do
  let window ← self.window
  match window.findIdx? (· == 10), self.bufBegin with
  | some i, some line =>
    let end' := if i > 0 ∧ window[i - 1]? = some 13 then line + i - 1 else line + i
    let buffer ← write self.buffer end' [0]
    some ({ self with
      buffer := buffer, bufBegin := some (line + i + 1)
      bytesInBuffer := self.bytesInBuffer - (i + 1) }, some line)
  | _, line =>
    if self.bytesInBuffer < b.bufsize then some (self, none)
    else
      match line with
      | none => none
      | some line =>
        -- the whole buffer is returned as a part of a line
        let buffer ← write self.buffer (line + b.bufsize) [0]
        some ({ self with buffer := buffer, bufBegin := none, bytesInBuffer := 0 }, some line)

/-- `get_line` -/
def getLine (self : MultipartBuffer) : Option (MultipartBuffer × Option ℕ) := do
  let (self, ptr) ← nextLine b self
  match ptr with
  | some line => some (self, some line)
  | none =>
    let self ← fillBuffer b self
    nextLine b self

/-- `find_boundary` -/
def findBoundary : ℕ → MultipartBuffer → Option (MultipartBuffer × Bool)
  | 0, _ => none
  | fuel + 1, self => do
    let (self, ptr) ← getLine b self
    match ptr with
    | none => some (self, false)
    | some line =>
      let line ← cStringAt self.buffer line
      if line = b.boundary then some (self, true) else findBoundary fuel self

/-! ## Headers -/

/-- `isspace` -/
def isspace (c : UInt8) : Bool := c = 32 ∨ (9 ≤ c ∧ c ≤ 13)

/-- What `multipart_buffer_headers` keeps from line to line. -/
structure Headers where
  header : List (Bytes × Bytes)
  key : Option Bytes
  bufValue : Option Bytes

/-- The last header is added to the list, if there is one. -/
def Headers.add (st : Headers) : Headers :=
  match st.bufValue, st.key with
  | some value, some key => ⟨st.header ++ [(key, value)], none, none⟩
  | _, _ => st

/-- What is done with a line.  The colon is overwritten with a NUL, so that the key ends there. -/
def Headers.line (st : Headers) (line : Bytes) : Headers :=
  let colon := if isspace (line.headD 0) then none else line.findIdx? (· == 58)
  match colon with
  | some i =>
    let st := st.add
    let value := (line.drop (i + 1)).dropWhile isspace
    { st with key := some (line.take i), bufValue := some (st.bufValue.getD [] ++ value) }
  | none =>
    match st.bufValue with
    | some value => { st with bufValue := some (value ++ line) }
    | none => st

/-- The loop of `multipart_buffer_headers`. -/
def headersLoop : ℕ → MultipartBuffer → Headers → Option (MultipartBuffer × Headers)
  | 0, _, _ => none
  | fuel + 1, self, st => do
    let (self, ptr) ← getLine b self
    match ptr with
    | none => some (self, st)
    | some line =>
      let line ← cStringAt self.buffer line
      if line = [] then some (self, st) else headersLoop fuel self (st.line line)

/-- `multipart_buffer_headers`, with the list of the headers if there is a boundary. -/
def multipartBufferHeaders (fuel : ℕ) (self : MultipartBuffer) :
    Option (MultipartBuffer × Option (List (Bytes × Bytes))) := do
  let (self, found) ← findBoundary b fuel self
  if found then
    let (self, st) ← headersLoop b fuel self ⟨[], none, none⟩
    some (self, some st.add.header)
  else some (self, none)

/-! ## Data -/

/-- `php_ap_memstr`, the loop from the place `i` on. -/
def apMemstrLoop (needle : Bytes) (inPart : Bool) : ℕ → Bytes → Option ℕ
  | _, [] => none
  | i, c :: ptr =>
    let len := ptr.length + 1
    if needle.head? = some c ∧ needle.take (min needle.length len) =
        (c :: ptr).take (min needle.length len) ∧ (inPart ∨ len ≥ needle.length) then some i
    else apMemstrLoop needle inPart (i + 1) ptr

/-- `php_ap_memstr` -/
def apMemstr (haystack needle : Bytes) (inPart : Bool) : Option ℕ :=
  apMemstrLoop needle inPart 0 haystack

/-- The beginning of `multipart_buffer_read`: the buffer is filled if needed. -/
def readFill (self : MultipartBuffer) (bytes : ℕ) : Option MultipartBuffer :=
  if bytes > self.bytesInBuffer then fillBuffer b self else some self

/-- `multipart_buffer_read` into a block of `bytes` bytes, with the data and whether `end` is
set. -/
def multipartBufferRead (self : MultipartBuffer) (bytes : ℕ) :
    Option (MultipartBuffer × Bytes × Bool) := do
  let self ← readFill b self bytes
  let window ← self.window
  let bound := apMemstr window b.boundaryNext true
  let end' := bound.isSome && (apMemstr window b.boundaryNext false).isSome
  let max := bound.getD self.bytesInBuffer
  let len := if max < bytes - 1 then max else bytes - 1
  if len > 0 then
    -- the data, and a NUL behind it
    let buf ← write (List.replicate bytes 0) 0 (window.take len ++ [0])
    let len := if bound.isSome ∧ buf[len - 1]? = some 13 then len - 1 else len
    some ({ self with
      bytesInBuffer := self.bytesInBuffer - len
      bufBegin := self.bufBegin.map (· + len) }, buf.take len, end')
  else some (self, [], end')

end Rfc1867

/-!
# The window over a multipart body

What the functions of the buffer do to its memory, said with the bytes in the window and the rest of
the body from there on.  No byte outside of the buffer is touched, and the rest of the body does not
depend on how it is delivered.
-/

namespace Rfc1867

open List Option

variable {block bytes w rest : Bytes} {i n : ℕ} {b : Boundary} {m : MultipartBuffer}

/-! ## Blocks -/

theorem write_eq (h : i + bytes.length ≤ block.length) :
    write block i bytes = some (block.take i ++ bytes ++ block.drop (i + bytes.length)) :=
  if_pos h

theorem length_written (h : i + bytes.length ≤ block.length) :
    (block.take i ++ bytes ++ block.drop (i + bytes.length)).length = block.length := by
  rw [length_append, length_append, length_take, length_drop]
  omega

/-- What is in front of the place that is written, and what is written. -/
theorem take_written (h : i + bytes.length ≤ block.length) :
    (block.take i ++ bytes ++ block.drop (i + bytes.length)).take (i + bytes.length) =
      block.take i ++ bytes := by
  refine take_left' ?_
  rw [length_append, length_take, min_eq_left (by omega)]

theorem drop_written_of_le {k : ℕ} (h : i + bytes.length ≤ block.length) (hk : i + bytes.length ≤ k)
    : (block.take i ++ bytes ++ block.drop (i + bytes.length)).drop k = block.drop k := by
  have hlen : (block.take i ++ bytes).length = i + bytes.length := by
    rw [length_append, length_take, min_eq_left (by omega)]
  rw [drop_append, drop_eq_nil_of_le (by omega), nil_append, hlen, drop_drop, Nat.add_sub_of_le hk]

/-! ## What the buffer shows -/

/-- The bytes `w` are in the window, and `rest` is the body from there on. -/
structure Shows (b : Boundary) (m : MultipartBuffer) (w rest : Bytes) : Prop where
  size : m.buffer.length = b.bufsize + 1
  window : m.window = some w
  length : w.length = m.bytesInBuffer
  inside : ∀ i ∈ m.bufBegin, i + m.bytesInBuffer ≤ b.bufsize
  le : m.bytesInBuffer ≤ b.bufsize
  nonempty : ∀ p ∈ m.pieces, p ≠ []
  rest_eq : rest = w ++ m.pieces.flatten

theorem Shows.length_le (h : Shows b m w rest) : m.bytesInBuffer ≤ rest.length := by
  rw [h.rest_eq, length_append, ← h.length]
  exact Nat.le_add_right _ _

theorem Shows.take_eq (h : Shows b m w rest) : rest.take m.bytesInBuffer = w := by
  rw [h.rest_eq]
  exact take_left' h.length

/-- What `read_post` delivers is the front of the rest, and not empty if there is a rest. -/
theorem readPost_spec {pieces : List Bytes} (hp : ∀ p ∈ pieces, p ≠ []) (hn : 0 < n) :
    (readPost n pieces).1 ++ (readPost n pieces).2.flatten = pieces.flatten ∧
      (readPost n pieces).1.length ≤ n ∧ (∀ p ∈ (readPost n pieces).2, p ≠ []) ∧
      ((readPost n pieces).1 = [] → pieces = []) := by
  cases pieces with
  | nil => exact ⟨rfl, Nat.zero_le n, nofun, fun _ => rfl⟩
  | cons piece pieces =>
    have hpiece : piece ≠ [] := hp piece mem_cons_self
    have hrest : ∀ p ∈ pieces, p ≠ [] := fun p h => hp p (mem_cons_of_mem piece h)
    rw [readPost]
    by_cases hle : piece.length ≤ n
    · rw [if_pos hle]
      exact ⟨rfl, hle, hrest, fun h => absurd h hpiece⟩
    · rw [if_neg hle]
      refine ⟨?_, ?_, fun p h => ?_, fun h => ?_⟩
      · rw [flatten_cons, flatten_cons, ← append_assoc, take_append_drop]
      · rw [length_take]
        exact Nat.min_le_left _ _
      · rcases mem_cons.mp h with rfl | h
        · exact ne_nil_of_length_pos (by rw [length_drop]; omega)
        · exact hrest p h
      · rw [take_eq_nil_iff] at h
        rcases h with h | h
        · omega
        · exact absurd h hpiece

/-- The loop fills the buffer, or reads everything that is left. -/
theorem fillLoop_spec (fuel bytesToRead : ℕ) (m : MultipartBuffer)
    (hfuel : bytesToRead < fuel) (hbegin : m.bufBegin = some 0) (h : Shows b m w rest)
    (hread : m.bytesInBuffer + bytesToRead = b.bufsize) :
    ∃ m1 w', fillLoop fuel bytesToRead m = some m1 ∧ Shows b m1 w' rest ∧
      m1.bytesInBuffer = min b.bufsize rest.length := by
  induction fuel generalizing bytesToRead m w with
  | zero => exact absurd hfuel (Nat.not_lt_zero _)
  | succ fuel ih =>
    have hle := h.length_le
    rw [fillLoop]
    by_cases hmore : bytesToRead > 0
    · rw [if_pos hmore]
      obtain ⟨hflat, hlen, hpieces, hnil⟩ := readPost_spec h.nonempty hmore
      generalize hres : readPost bytesToRead m.pieces = res at hflat hlen hpieces hnil
      obtain ⟨read, pieces⟩ := res
      dsimp only at hflat hlen hpieces hnil ⊢
      by_cases hpos : read.length > 0
      · have hfits : m.bytesInBuffer + read.length ≤ m.buffer.length := by
          rw [h.size]
          omega
        have hold : w = m.buffer.take m.bytesInBuffer := by
          have hwindow := h.window
          rw [MultipartBuffer.window, hbegin] at hwindow
          dsimp only at hwindow
          rw [slice, if_pos (by omega)] at hwindow
          exact (Option.some.inj hwindow).symm
        rw [if_pos hpos, write_eq hfits]
        refine ih _ _ (w := w ++ read) (by omega) hbegin ?_ (by dsimp only; omega)
        refine ⟨(length_written hfits).trans h.size, ?_, ?_, ?_, ?_, hpieces, ?_⟩
        · rw [MultipartBuffer.window, hbegin]
          dsimp only
          rw [slice, if_pos (by rw [length_written hfits]; omega), drop_zero,
            take_written hfits, hold]
        · rw [length_append, h.length]
        · intro i hi
          rw [hbegin] at hi
          obtain rfl := Option.some.inj hi
          dsimp only
          omega
        · dsimp only
          omega
        · rw [h.rest_eq, ← hflat, append_assoc]
      · rw [if_neg hpos]
        have hread : read = [] := length_eq_zero_iff.mp (Nat.eq_zero_of_not_pos hpos)
        have hnone := hnil hread
        rw [hnone] at hres
        obtain ⟨-, rfl⟩ := Prod.mk.inj hres
        have hshows : Shows b { m with pieces := [] } w rest :=
          ⟨h.size, h.window, h.length, h.inside, h.le, nofun, by rw [h.rest_eq, hnone]⟩
        refine ⟨_, w, rfl, hshows, ?_⟩
        have hall : rest.length = m.bytesInBuffer := by
          rw [h.rest_eq, hnone, flatten_nil, append_nil, h.length]
        dsimp only
        omega
    · rw [if_neg hmore]
      refine ⟨m, w, rfl, h, ?_⟩
      omega

theorem Shows.shiftData (h : Shows b m w rest) :
    ∃ m1, shiftData m = some m1 ∧ Shows b m1 w rest ∧ m1.bufBegin = some 0 := by
  have hle := h.le
  rw [Rfc1867.shiftData]
  by_cases hmove : m.bytesInBuffer > 0 ∧ m.bufBegin ≠ some 0
  · have hfits : 0 + w.length ≤ m.buffer.length := by
      rw [h.length, h.size]
      omega
    have htake := take_written hfits
    rw [take_zero, nil_append, Nat.zero_add] at htake
    rw [if_pos hmove, h.window, bind_eq_bind, bind_some, write_eq hfits]
    refine ⟨_, rfl, ⟨(length_written hfits).trans h.size, ?_, h.length, ?_, h.le, h.nonempty,
      h.rest_eq⟩, rfl⟩
    · rw [MultipartBuffer.window]
      dsimp only
      rw [slice, if_pos (by rw [length_written hfits, ← h.length]; omega), drop_zero,
        ← h.length, take_zero, nil_append, Nat.zero_add, htake]
    · rintro i ⟨⟩
      dsimp only
      omega
  · rw [if_neg hmove]
    refine ⟨_, rfl, ⟨h.size, ?_, h.length, ?_, h.le, h.nonempty, h.rest_eq⟩, rfl⟩
    · rw [MultipartBuffer.window]
      dsimp only
      rcases not_and_or.mp hmove with hzero | hbegin
      · have hlen : m.bytesInBuffer = 0 := by omega
        have hw : w = [] := length_eq_zero_iff.mp (by rw [h.length, hlen])
        rw [hlen, hw, slice, if_pos (Nat.zero_le _), take_zero]
      · have hwindow := h.window
        rw [MultipartBuffer.window, not_not.mp hbegin] at hwindow
        exact hwindow
    · rintro i ⟨⟩
      dsimp only
      omega

/-- `fill_buffer` fills the buffer, or reads everything that is left. -/
theorem Shows.fillBuffer (h : Shows b m w rest) :
    ∃ m1 w', fillBuffer b m = some m1 ∧ Shows b m1 w' rest ∧
      m1.bytesInBuffer = min b.bufsize rest.length := by
  obtain ⟨m1, hshift, h1, hbegin⟩ := h.shiftData
  have hle := h1.le
  rw [Rfc1867.fillBuffer, hshift]
  exact fillLoop_spec _ _ _ (Nat.lt_succ_self _) hbegin h1 (by omega)

/-! ## Lines -/

/-- A line without the CR at its end. -/
def chomp (line : Bytes) : Bytes :=
  if line.getLast? = some 13 then line.dropLast else line

theorem cString_append (s t : Bytes) : cString (s ++ 0 :: t) = cString s := by
  unfold cString
  induction s with
  | nil => rfl
  | cons c s ih =>
    rw [cons_append, takeWhile_cons, takeWhile_cons, ih]

/-- A line is what is left of it and at most one byte. -/
theorem chomp_spec (line : Bytes) : ∃ cr, line = chomp line ++ cr ∧ cr.length ≤ 1 ∧
      (cr.length = 1 ↔ line.length > 0 ∧ (line)[line.length - 1]? = some 13) := by
  unfold chomp
  rw [← getLast?_eq_getElem?]
  rcases eq_nil_or_concat line with rfl | ⟨line, c, rfl⟩
  · exact ⟨[], rfl, Nat.zero_le 1, by simp⟩
  · rw [concat_eq_append, getLast?_append, getLast?_singleton, some_or]
    by_cases hc : c = 13
    · subst hc
      rw [dropLast_concat]
      exact ⟨[13], rfl, le_rfl, by simp⟩
    · rw [if_neg fun h => hc (Option.some.inj h)]
      refine ⟨[], (append_nil _).symm, Nat.zero_le 1, iff_of_false (by simp) fun h => ?_⟩
      exact hc (Option.some.inj h.2)

theorem take_front {line front back : Bytes} (h : line = front ++ back) (t : Bytes) :
    (line ++ t).take front.length = front := by
  rw [h, append_assoc]
  exact take_left

theorem drop_line (line w' : Bytes) : (line ++ 10 :: w').drop (line.length + 1) = w' := by
  rw [← singleton_append, ← append_assoc]
  exact drop_left' (by rw [length_append, length_singleton])

/-- A line that ends in the window is handed out. -/
theorem Shows.nextLine_found {line w' : Bytes} (h : Shows b m (line ++ 10 :: w') rest)
    (hline : 10 ∉ line) : ∃ m1 start, nextLine b m = some (m1, some start) ∧
      Shows b m1 w' (w' ++ m.pieces.flatten) ∧
      cStringAt m1.buffer start = some (cString (chomp line)) := by
  obtain ⟨hsize, hwindow, hlen, hinside, hle, hnonempty, -⟩ := h
  rw [length_append, length_cons] at hlen
  match hbegin : m.bufBegin with
  | none =>
    rw [MultipartBuffer.window, hbegin] at hwindow
    rw [if_neg (by omega)] at hwindow
    cases hwindow
  | some start =>
    have hin := hinside start hbegin
    have hslice : (m.buffer.drop start).take m.bytesInBuffer = line ++ 10 :: w' := by
      rw [MultipartBuffer.window, hbegin] at hwindow
      dsimp only at hwindow
      rw [slice, if_pos (by omega)] at hwindow
      exact Option.some.inj hwindow
    have hfind : (line ++ 10 :: w').findIdx? (· == 10) = some line.length := by
      rw [findIdx?_append, findIdx?_eq_none_iff.mpr fun c hc =>
        beq_eq_false_iff_ne.mpr (ne_of_mem_of_not_mem hc hline), findIdx?_cons]
      simp
    obtain ⟨cr, hchomp, hcr, hcr1⟩ := chomp_spec line
    have hchomplen : line.length = (chomp line).length + cr.length := by
      conv_lhs => rw [hchomp, length_append]
    have hend : (if line.length > 0 ∧ (line ++ 10 :: w')[line.length - 1]? = some 13 then
        start + line.length - 1 else start + line.length) = start + (chomp line).length := by
      by_cases hpos : line.length > 0
      · rw [getElem?_append_left (by omega)]
        split
        · rename_i hif
          have hone := hcr1.mpr hif
          omega
        · rename_i hif
          have hne := mt hcr1.mp hif
          omega
      · rw [if_neg fun hif => hpos hif.1]
        omega
    have hfits : start + (chomp line).length + [(0 : UInt8)].length ≤ m.buffer.length := by
      rw [length_singleton]
      omega
    have hstart : start + (chomp line).length + [(0 : UInt8)].length ≤ start + line.length + 1 := by
      rw [length_singleton]
      omega
    have hwritten := length_written hfits
    refine ⟨{ m with
        buffer := m.buffer.take (start + (chomp line).length) ++ [0] ++
          m.buffer.drop (start + (chomp line).length + [(0 : UInt8)].length)
        bufBegin := some (start + line.length + 1)
        bytesInBuffer := m.bytesInBuffer - (line.length + 1) }, start, ?_,
      ⟨hwritten.trans hsize, ?_, ?_, ?_, ?_, hnonempty, rfl⟩, ?_⟩
    · have hwindow' : m.window = some (line ++ 10 :: w') := hwindow
      rw [nextLine, hwindow', bind_eq_bind, bind_some, hfind, hbegin]
      dsimp only
      rw [hend, write_eq hfits]
      rfl
    · rw [MultipartBuffer.window]
      dsimp only
      rw [slice, if_pos (by omega), drop_written_of_le hfits hstart,
        Nat.add_assoc start, ← drop_drop, ← drop_take, hslice]
      exact congrArg some (drop_line line w')
    · dsimp only
      omega
    · rintro i ⟨⟩
      dsimp only
      omega
    · dsimp only
      omega
    · have hfront : (m.buffer.take (start + (chomp line).length)).drop start = chomp line := by
        have hpre : (m.buffer.drop start).take (chomp line).length =
            ((m.buffer.drop start).take m.bytesInBuffer).take (chomp line).length := by
          rw [take_take, Nat.min_eq_left (by omega)]
        rw [drop_take, Nat.add_sub_cancel_left, hpre, hslice]
        exact take_front hchomp _
      have hstring : (m.buffer.take (start + (chomp line).length) ++ [0] ++ m.buffer.drop
          (start + (chomp line).length + [(0 : UInt8)].length)).drop start = chomp line ++
            0 :: m.buffer.drop (start + (chomp line).length + [(0 : UInt8)].length) := by
        rw [append_assoc, drop_append_of_le_length (by rw [length_take]; omega), hfront]
        rfl
      rw [cStringAt, hstring, if_pos (by simp), cString_append]

/-- Without the end of a line in the window, and with room in the buffer, there is no line. -/
theorem Shows.nextLine_none (h : Shows b m w rest) (hline : 10 ∉ w)
    (hroom : m.bytesInBuffer < b.bufsize) : nextLine b m = some (m, none) := by
  have hfind : w.findIdx? (· == 10) = none := by
    rw [findIdx?_eq_none_iff]
    rintro c hc
    exact beq_eq_false_iff_ne.mpr (ne_of_mem_of_not_mem hc hline)
  rw [nextLine, h.window, bind_eq_bind, bind_some, hfind]
  exact if_pos hroom

/-- The end of a line is among the first bytes that fit in the buffer, or all that is left does. -/
def Whole (b : Boundary) (rest : Bytes) : Prop :=
  10 ∈ rest.take b.bufsize ∨ rest.length < b.bufsize

/-- The first line, without its end, and what is behind it. -/
def splitLine (rest : Bytes) : Option (Bytes × Bytes) :=
  match rest.dropWhile (· ≠ 10) with
  | [] => none
  | _ :: rest' => some (chomp (rest.takeWhile (· ≠ 10)), rest')

theorem splitLine_eq {line rest' : Bytes} (hline : 10 ∉ line) :
    splitLine (line ++ 10 :: rest') = some (chomp line, rest') := by
  have hall : ∀ c ∈ line, decide (c ≠ 10) = true := fun c hc =>
    decide_eq_true (ne_of_mem_of_not_mem hc hline)
  rw [splitLine, dropWhile_append_of_pos hall, takeWhile_append_of_pos hall]
  simp

theorem splitLine_none (h : 10 ∉ rest) : splitLine rest = none := by
  have hdrop : rest.dropWhile (· ≠ 10) = [] :=
    dropWhile_eq_nil_iff.mpr fun c hc => decide_eq_true (ne_of_mem_of_not_mem hc h)
  rw [splitLine, hdrop]

/-- A text with a line, or one without. -/
theorem line_cases (rest : Bytes) :
    10 ∉ rest ∨ ∃ line rest', rest = line ++ 10 :: rest' ∧ 10 ∉ line := by
  by_cases h : 10 ∈ rest
  · obtain ⟨line, rest', rfl, hline⟩ := eq_append_cons_of_mem h
    exact .inr ⟨line, rest', rfl, hline⟩
  · exact .inl h

theorem take_cons_append {line rest' : Bytes} (hn : line.length < n) :
    (line ++ 10 :: rest').take n = line ++ 10 :: rest'.take (n - (line.length + 1)) := by
  rw [take_append, take_of_length_le (by omega),
    show n - line.length = n - (line.length + 1) + 1 by omega, take_succ_cons]

/-- A line is handed out as it is in the body, up to the first NUL in it. -/
theorem Shows.getLine_found {line rest' : Bytes} (h : Shows b m (w) (line ++ 10 :: rest'))
    (hline : 10 ∉ line) (hwhole : Whole b (line ++ 10 :: rest')) :
    ∃ m1 w1 start, getLine b m = some (m1, some start) ∧ Shows b m1 w1 rest' ∧
      cStringAt m1.buffer start = some (cString (chomp line)) := by
  have hin : ∀ (m : MultipartBuffer) (w : Bytes), Shows b m w (line ++ 10 :: rest') →
      line.length < m.bytesInBuffer →
      ∃ m1 w1 start, nextLine b m = some (m1, some start) ∧ Shows b m1 w1 rest' ∧
        cStringAt m1.buffer start = some (cString (chomp line)) := by
    intro m w h hlt
    have hw := h.take_eq
    rw [take_cons_append hlt] at hw
    rw [← hw] at h
    obtain ⟨m1, start, hnext, h1, hstring⟩ := h.nextLine_found hline
    refine ⟨m1, rest'.take (m.bytesInBuffer - (line.length + 1)), start, hnext, ?_, hstring⟩
    have hrest := h.rest_eq
    rw [append_assoc, append_cancel_left_eq, cons_append, List.cons.injEq] at hrest
    rw [← hrest.2] at h1
    exact h1
  by_cases hlt : line.length < m.bytesInBuffer
  · obtain ⟨m1, w1, start, hnext, h1, hstring⟩ := hin m w h hlt
    refine ⟨m1, w1, start, ?_, h1, hstring⟩
    rw [Rfc1867.getLine, hnext]
    rfl
  · have hlen : (line ++ 10 :: rest').length = line.length + (rest'.length + 1) := by
      rw [length_append, length_cons]
    have hroom : line.length < b.bufsize := by
      rcases hwhole with hmem | hshort
      · by_contra hge
        rw [take_append_of_le_length (by omega)] at hmem
        exact hline (mem_of_mem_take hmem)
      · omega
    have hnot : 10 ∉ w := by
      rw [← h.take_eq, take_append_of_le_length (by omega)]
      exact fun hmem => hline (mem_of_mem_take hmem)
    obtain ⟨m', w', hfill, h', hbytes⟩ := h.fillBuffer
    obtain ⟨m1, w1, start, hnext, h1, hstring⟩ := hin m' w' h' (by omega)
    refine ⟨m1, w1, start, ?_, h1, hstring⟩
    rw [Rfc1867.getLine, h.nextLine_none hnot (by omega), bind_eq_bind, bind_some]
    dsimp only
    rw [hfill, bind_eq_bind, bind_some, hnext]

theorem Shows.getLine_none (h : Shows b m w rest) (hrest : 10 ∉ rest) (hwhole : Whole b rest) :
    ∃ m1 w1, getLine b m = some (m1, none) ∧ Shows b m1 w1 rest := by
  have hshort : rest.length < b.bufsize :=
    hwhole.resolve_left fun hmem => hrest (mem_of_mem_take hmem)
  have hle := h.length_le
  have hnot : ∀ {m : MultipartBuffer} {w : Bytes}, Shows b m w rest → 10 ∉ w := by
    intro m w h hmem
    rw [← h.take_eq] at hmem
    exact hrest (mem_of_mem_take hmem)
  obtain ⟨m1, w1, hfill, h1, hbytes⟩ := h.fillBuffer
  refine ⟨m1, w1, ?_, h1⟩
  rw [Rfc1867.getLine, h.nextLine_none (hnot h) (by omega), bind_eq_bind, bind_some]
  dsimp only
  rw [hfill, bind_eq_bind, bind_some, h1.nextLine_none (hnot h1) (by omega)]

/-- The whole of a full buffer is handed out if no line ends in it. -/
theorem Shows.getLine_full (h : Shows b m w rest) (hroom : m.bytesInBuffer < b.bufsize)
    (hlen : b.bufsize ≤ rest.length) (hline : 10 ∉ rest.take b.bufsize) :
    ∃ m1 start, getLine b m = some (m1, some start) ∧ Shows b m1 [] (rest.drop b.bufsize) ∧
      cStringAt m1.buffer start = some (cString (rest.take b.bufsize)) := by
  have hnot : 10 ∉ w := by
    rw [← h.take_eq]
    exact fun hmem => hline ((take_subset_take_left rest hroom.le) hmem)
  obtain ⟨m', w', hfill, h', hbytes⟩ := h.fillBuffer
  rw [min_eq_left hlen] at hbytes
  have hw := h'.take_eq
  rw [hbytes] at hw
  have hwindow := h'.window
  rw [MultipartBuffer.window] at hwindow
  cases hbegin : m'.bufBegin with
  | none =>
    rw [hbegin] at hwindow
    dsimp only at hwindow
    rw [if_neg (by omega)] at hwindow
    cases hwindow
  | some i =>
    obtain rfl : i = 0 := by
      have hin := h'.inside i hbegin
      omega
    rw [hbegin] at hwindow
    dsimp only at hwindow
    rw [slice, if_pos (by rw [h'.size]; omega), drop_zero, hbytes, ← hw] at hwindow
    have hfits : 0 + b.bufsize + [(0 : UInt8)].length ≤ m'.buffer.length := by
      rw [h'.size, Nat.zero_add]
      rfl
    refine ⟨⟨m'.buffer.take (0 + b.bufsize) ++ [0] ++
      m'.buffer.drop (0 + b.bufsize + [(0 : UInt8)].length), none, 0, m'.pieces⟩, 0, ?_,
      ⟨(length_written hfits).trans h'.size, rfl, rfl, nofun, Nat.zero_le _, h'.nonempty, ?_⟩, ?_⟩
    · rw [Rfc1867.getLine, h.nextLine_none hnot hroom, bind_eq_bind, bind_some]
      dsimp only
      rw [hfill, bind_eq_bind, bind_some, nextLine, h'.window, bind_eq_bind, bind_some, ← hw,
        findIdx?_eq_none_iff.mpr fun c hc =>
          beq_eq_false_iff_ne.mpr (ne_of_mem_of_not_mem hc hline), hbegin]
      dsimp only
      rw [if_neg hbytes.not_lt, write_eq hfits]
      rfl
    · have hrest := h'.rest_eq
      rw [← hw] at hrest
      exact append_cancel_left ((take_append_drop _ _).trans hrest)
    · dsimp only
      rw [Nat.zero_add, Option.some.inj hwindow, append_assoc, singleton_append, cStringAt,
        drop_zero, if_pos (by simp), cString_append]

end Rfc1867
