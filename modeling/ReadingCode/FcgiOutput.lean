/-
# The output of a FastCGI request

`main/fastcgi.c` gathers what is written to the streams of a request in a buffer of 8192
bytes, after which there is room for the record that ends the request.  A packet is opened
in the buffer before its length is known; its header is filled in when it is closed.  A
write that does not fit is split over two packets, and one that is larger than the buffer
goes to the descriptor directly, up to the bytes that would need padding.

Here are the functions as they stand, and the loop that is kept beside the fast path of
`fcgi_write`.  A store past the end of the structure makes the run fail; a descriptor that
takes no more bytes does not, the functions report it.
-/
import ReadingCode.CyclicBuffer
import ReadingCode.FailState
import ReadingCode.FastcgiWire

open Cyclic

namespace PhpFcgi

/-! ## Sizes -/

/-- `sizeof(fcgi_header)` -/
abbrev headerSize : ℕ := 8

/-- `sizeof(req->out_buf)` -/
abbrev outBufSize : ℕ := 1024 * 8

/-- `sizeof(req->reserved)`, a `fcgi_end_request_rec` -/
abbrev reservedSize : ℕ := 16

/-- `FCGI_END_REQUEST` -/
abbrev END_REQUEST : UInt8 := 3

/-- The part of `fcgi_request` that the output uses: `out_buf` and `reserved` follow each
other, positions count from the start of `out_buf`.  `sent` is what the descriptor took, in
`writes` calls. -/
structure Request where
  id : ℕ
  keep : Bool
  ended : Bool
  outHdr : Option ℕ
  outPos : ℕ
  outBuf : ℕ → UInt8
  sent : Bytes
  writes : ℕ

/-- The request as `fcgi_read_request` leaves it, with whatever the buffer held before. -/
def Request.start (id : ℕ) (outBuf : ℕ → UInt8) : Request :=
  ⟨id, false, false, none, 0, outBuf, [], 0⟩

/-! ## The descriptor -/

/-- `safe_write`, and whether it wrote all of the bytes.  What the descriptor does at each
call is `link`: it takes all bytes, or some of them and then reports an error. -/
def safeWrite (link : ℕ → Option ℕ) (bytes : Bytes) : Run Request Bool := fun req =>
  match link req.writes with
  | none => (some true, { req with sent := req.sent ++ bytes, writes := req.writes + 1 })
  | some n => (some false, { req with sent := req.sent ++ bytes.take n, writes := req.writes + 1 })

/-! ## The buffer -/

/-- Stores bytes from the position `p` on. -/
def store (p : ℕ) (bytes : Bytes) : Run Request Unit := do
  Run.assert (p + bytes.length ≤ outBufSize + reservedSize)
  Run.modify fun req => { req with outBuf := blit req.outBuf p bytes }

/-- `memcpy(req->out_pos, ..)` and the advance of `out_pos`. -/
def put (bytes : Bytes) : Run Request Unit := do
  let req ← Run.get
  store req.outPos bytes
  Run.modify fun req => { req with outPos := req.outPos + bytes.length }

/-- `((len + 7) & ~7) - len` -/
def paddingOf (len : ℕ) : ℕ := (len + 7) / 8 * 8 - len

/-- The bytes of a header. -/
def header (type : UInt8) (reqId len : ℕ) : Bytes :=
  [1, type, UInt8.ofNat ((reqId >>> 8) &&& 0xff), UInt8.ofNat (reqId &&& 0xff),
    UInt8.ofNat ((len >>> 8) &&& 0xff), UInt8.ofNat (len &&& 0xff),
    UInt8.ofNat (paddingOf len), 0]

/-- `fcgi_make_header` -/
def makeHeader (hdr : ℕ) (type : UInt8) (reqId len : ℕ) : Run Request ℕ := do
  store hdr (header type reqId len)
  if paddingOf len ≠ 0 then
    store (hdr + headerSize + len) (List.replicate (paddingOf len) 0)
  pure (paddingOf len)

/-- `open_packet` -/
def openPacket (type : UInt8) : Run Request Unit := do
  let req ← Run.get
  store (req.outPos + 1) [type]
  Run.modify fun req =>
    { req with outHdr := some req.outPos, outPos := req.outPos + headerSize }

/-- `close_packet` -/
def closePacket : Run Request Unit := do
  let req ← Run.get
  match req.outHdr with
  | none => pure ()
  | some hdr => do
    let pad ← makeHeader hdr (req.outBuf (hdr + 1)) req.id (req.outPos - (hdr + headerSize))
    Run.modify fun req => { req with outPos := req.outPos + pad, outHdr := none }

/-- The record that ends the request, stored at `out_pos`; the number of bytes to send. -/
def endRecord (last : Bool) : Run Request ℕ := do
  let req ← Run.get
  if last then do
    let _ ← makeHeader req.outPos END_REQUEST req.id 8
    -- `appStatus` and `FCGI_REQUEST_COMPLETE`; the reserved bytes stay as they are
    store (req.outPos + headerSize) [0, 0, 0, 0, 0]
    pure (req.outPos + reservedSize)
  else pure req.outPos

variable (link : ℕ → Option ℕ)

/-- `fcgi_flush`, once no packet is open. -/
def sendBuffer (last : Bool) : Run Request Bool := do
  let len ← endRecord last
  let req ← Run.get
  let done ← safeWrite link (slice req.outBuf 0 len)
  if done then do
    Run.modify fun req => { req with outPos := 0 }
    pure true
  else do
    Run.modify fun req => { req with keep := false, outPos := 0 }
    pure false

/-- `fcgi_flush` -/
def fcgiFlush (last : Bool) : Run Request Bool := do
  closePacket
  sendBuffer link last

/-! ## Writing -/

/-- The packet that is open has another type. -/
def otherOpen (type : UInt8) (req : Request) : Bool :=
  match req.outHdr with
  | none => false
  | some hdr => req.outBuf (hdr + 1) ≠ type

/-- A record that is sent without going through the buffer: its header is, without its
content, then the content is written from where it is. -/
def sendThrough (type : UInt8) (content : Bytes) : Run Request Bool := do
  let req ← Run.get
  openPacket type
  let _ ← makeHeader req.outPos type req.id content.length
  Run.modify fun req => { req with outHdr := none }
  let flushed ← fcgiFlush link false
  if flushed then do
    let done ← safeWrite link content
    if done then pure true
    else do
      Run.modify fun req => { req with keep := false }
      pure false
  else pure false

/-- The loop of `fcgi_write` over records of `0xfff8` bytes; what is left to write, or
nothing after a failure. -/
def sendLarge (type : UInt8) (str : Bytes) : Run Request (Option Bytes) :=
  if str.length > 0xffff then do
    let done ← sendThrough link type (str.take 0xfff8)
    if done then sendLarge type (str.drop 0xfff8) else pure none
  else pure (some str)
termination_by str.length
decreasing_by
  rw [List.length_drop]
  omega

/-- The last part of `fcgi_write` for large data: whole words are sent, the rest is left in
an open packet. -/
def sendTail (type : UInt8) (str : Bytes) : Run Request Bool := do
  let pad := paddingOf str.length
  let rest := if pad ≠ 0 then 8 - pad else 0
  let done ← sendThrough link type (str.take (str.length - rest))
  if done then
    if pad ≠ 0 then do
      openPacket type
      put (str.drop (str.length - rest))
      pure true
    else pure true
  else pure false

/-- Opens a packet unless one is open. -/
def openUnlessOpen (type : UInt8) : Run Request Unit := do
  let req ← Run.get
  if req.outHdr.isNone then openPacket type else pure ()

/-- The free space of the buffer, less a header when no packet is open. -/
def spaceLeft (req : Request) : ℤ :=
  let limit : ℤ := (outBufSize : ℤ) - req.outPos
  if req.outHdr.isNone then
    if limit - headerSize < 0 then 0 else limit - headerSize
  else limit

/-- A write that fits into the buffer. -/
def writeFitting (type : UInt8) (str : Bytes) : Run Request Bool := do
  openUnlessOpen type
  put str
  pure true

/-- What fits of a write that is split. -/
def fillBuffer (str : Bytes) (limit : ℤ) : Run Request Unit :=
  if limit > 0 then put (str.take limit.toNat) else pure ()

/-- What is left of a write that is split, in the empty buffer. -/
def writeRest (type : UInt8) (str : Bytes) (limit : ℤ) : Run Request Bool :=
  if (str.length : ℤ) > limit then do
    openPacket type
    put (str.drop limit.toNat)
    pure true
  else pure true

/-- A write that is split over two packets. -/
def writeSplit (type : UInt8) (str : Bytes) (limit : ℤ) : Run Request Bool := do
  openUnlessOpen type
  fillBuffer str limit
  let flushed ← fcgiFlush link false
  if flushed then writeRest type str limit else pure false

/-- A write that is larger than the buffer. -/
def writeLarge (type : UInt8) (str : Bytes) : Run Request Bool := do
  closePacket
  let rest ← sendLarge link type str
  match rest with
  | none => pure false
  | some rest => sendTail link type rest

/-- `fcgi_write` of a positive number of bytes, once a packet of another type is closed;
`false` is the error `-1`. -/
def writeBytes (type : UInt8) (str : Bytes) : Run Request Bool := do
  let req ← Run.get
  let limit := spaceLeft req
  if (str.length : ℤ) < limit then writeFitting type str
  else if (str.length : ℤ) - limit < outBufSize - headerSize then
    writeSplit link type str limit
  else writeLarge link type str

/-- The flush of the plain loop where there is no room for a header; the comparison with
`sizeof` is unsigned. -/
def plainFlush (req : Request) : Run Request Bool :=
  if ((outBufSize : ℤ) - req.outPos) % 2 ^ 64 < headerSize then fcgiFlush link false
  else pure true

/-- The first half of a turn of the plain loop: a packet is open afterwards. -/
def plainOpen (type : UInt8) : Run Request Bool := do
  let req ← Run.get
  if req.outHdr.isNone then do
    let flushed ← plainFlush link req
    if flushed then do
      openPacket type
      pure true
    else pure false
  else pure true

/-- The plain loop of `fcgi_write`, for at most `fuel` turns. -/
def plainLoop (type : UInt8) : ℕ → Bytes → Run Request Bool
  | 0, _ => pure false
  | fuel + 1, rest =>
    if rest.length = 0 then pure true
    else do
      let opened ← plainOpen link type
      if opened then do
        let req ← Run.get
        let limit : ℤ := (outBufSize : ℤ) - req.outPos
        if (rest.length : ℤ) < limit then do
          put rest
          pure true
        else do
          put (rest.take limit.toNat)
          let flushed ← fcgiFlush link false
          if flushed then plainLoop type fuel (rest.drop limit.toNat) else pure false
      else pure false

/-- The plain version of `writeBytes`. -/
def plainBytes (type : UInt8) (str : Bytes) : Run Request Bool :=
  plainLoop link type (str.length + 2) str

/-- Closes the open packet if it has another type. -/
def closeOther (type : UInt8) : Run Request Unit := do
  let req ← Run.get
  if otherOpen type req then closePacket else pure ()

/-- `fcgi_write`, with the fast or the plain path as `body`. -/
def fcgiWrite (body : UInt8 → Bytes → Run Request Bool) (type : UInt8) (str : Bytes)
    (len : ℤ) : Run Request ℤ :=
  if len ≤ 0 then pure 0
  else do
    closeOther type
    let done ← body type (str.take len.toNat)
    pure (if done then len else -1)

/-- `fcgi_end` -/
def fcgiEnd : Run Request Bool := do
  let req ← Run.get
  if req.ended then pure true
  else do
    let ret ← fcgiFlush link true
    Run.modify fun req => { req with ended := true }
    pure ret

/-! ## Runs -/

/-- A call: `fcgi_write` from a string that has the bytes, or `fcgi_flush`. -/
inductive Call where
  | write (type : UInt8) (str : Bytes) (len : ℤ) (valid : len ≤ str.length)
  | flush

/-- The bytes that a call is given for the stream `type`. -/
def Call.argument (type : UInt8) : Call → Bytes
  | .write t str len _ => if t = type then str.take len.toNat else []
  | .flush => []

/-- A call, and whether it reports no error. -/
def Call.run (body : UInt8 → Bytes → Run Request Bool) : Call → Run Request Bool
  | .write type str len _ => do
    let ret ← fcgiWrite body type str len
    pure (decide (0 ≤ ret))
  | .flush => fcgiFlush link false

/-- All calls and then `fcgi_end`; whether none of them reports an error. -/
def runCalls (body : UInt8 → Bytes → Run Request Bool) : List Call → Run Request Bool
  | [] => fcgiEnd link
  | c :: cs => do
    let done ← c.run link body
    let rest ← runCalls body cs
    pure (done && rest)

end PhpFcgi

/-!
# The packets in the output buffer

What is sent and what is in the buffer, together, are whole packets and perhaps one that is
still open.  Every function of the output keeps this, closes the open packet or opens a new
one, and reports whether the descriptor took what was to be sent; none of them stores
anything past the reserved bytes.

After an error the bytes that were sent are cut off: the packets count from there on.
-/

namespace PhpFcgi

open List

/-- A type and the content. -/
abbrev Packet := UInt8 × Bytes

/-- The bytes of a packet: its header, the content and the padding. -/
def packetBytes (id : ℕ) (p : Packet) : Bytes :=
  header p.1 id p.2.length ++ p.2 ++ replicate (paddingOf p.2.length) 0

theorem eight_dvd_paddingOf (len : ℕ) : 8 ∣ len + paddingOf len := by
  unfold paddingOf
  omega

theorem paddingOf_lt (len : ℕ) : paddingOf len < 8 := by
  unfold paddingOf
  omega

theorem paddingOf_eq_zero {len : ℕ} (h : 8 ∣ len) : paddingOf len = 0 := by
  unfold paddingOf
  omega

theorem sizes : headerSize = 8 ∧ outBufSize = 8192 ∧ reservedSize = 16 := ⟨rfl, rfl, rfl⟩

@[simp] theorem length_header (type : UInt8) (id len : ℕ) : (header type id len).length = 8 := rfl

/-! ## The state of the buffer -/

variable {id : ℕ} {base : Bytes} {ps : List Packet} {t : UInt8} {c : Bytes}
  {req : Request} {link : ℕ → Option ℕ}

/-- The bytes after `base`, up to the position `p` of the buffer, are the packets `ps`. -/
def Carries (id : ℕ) (base : Bytes) (ps : List Packet) (p : ℕ) (req : Request) : Prop :=
  ∃ out, req.sent = base ++ out ∧ out ++ slice req.outBuf 0 p = ps.flatMap (packetBytes id)

/-- No packet is open. -/
structure Closed (id : ℕ) (base : Bytes) (ps : List Packet) (req : Request) : Prop where
  same : req.id = id
  ended : req.ended = false
  hdr : req.outHdr = none
  aligned : 8 ∣ req.outPos
  carries : Carries id base ps req.outPos req

/-- A packet of the type `t` is open and has the content `c` so far; its header is at `h`. -/
structure OpenAt (id : ℕ) (base : Bytes) (ps : List Packet) (t : UInt8) (c : Bytes)
    (h : ℕ) (req : Request) : Prop where
  same : req.id = id
  ended : req.ended = false
  hdr : req.outHdr = some h
  aligned : 8 ∣ h
  pos : req.outPos = h + headerSize + c.length
  type : req.outBuf (h + 1) = t
  content : slice req.outBuf (h + headerSize) c.length = c
  carries : Carries id base ps h req

/-- Whole packets, and the open one if there is one. -/
def Holds (id : ℕ) (base : Bytes) (ps : List Packet) (cur : Option Packet)
    (req : Request) : Prop :=
  match cur with
  | none => Closed id base ps req
  | some p => ∃ h, OpenAt id base ps p.1 p.2 h req

/-- After a function that reports success or failure: the packets `ps` and `cur`, or nothing
since what was sent at the failure. -/
def After (id : ℕ) (base : Bytes) (ps : List Packet) (cur : Option Packet) (done : Bool)
    (req : Request) : Prop :=
  if done then Holds id base ps cur req else Closed id req.sent [] req

/-! ## Storing -/

theorem store_returns {p : ℕ} {bytes : Bytes} {post : Unit → Request → Prop}
    (h : p + bytes.length ≤ outBufSize + reservedSize)
    (hpost : post () { req with outBuf := blit req.outBuf p bytes }) :
    (store p bytes).Returns req post :=
  .bind (.assert h (.modify hpost))

/-- The buffer with a header and the padding of its packet. -/
def withHeader (m : ℕ → UInt8) (hdr : ℕ) (type : UInt8) (id len : ℕ) : ℕ → UInt8 :=
  blit (blit m hdr (header type id len)) (hdr + headerSize + len)
    (replicate (paddingOf len) 0)

theorem blit_nil (m : ℕ → UInt8) (p : ℕ) : blit m p [] = m := by
  funext i
  unfold blit
  split_ifs <;> rfl

variable {cur : Option Packet} {h hdr : ℕ} {post : Bool → Request → Prop}

theorem makeHeader_returns {len id' : ℕ} {type : UInt8} {post : ℕ → Request → Prop}
    (h : hdr + headerSize ≤ outBufSize + reservedSize) (hpad : paddingOf len ≠ 0 →
      hdr + headerSize + (len + paddingOf len) ≤ outBufSize + reservedSize)
    (hpost : post (paddingOf len) { req with outBuf := withHeader req.outBuf hdr type id' len }) :
    (makeHeader hdr type id' len).Returns req post := by
  refine .bind (store_returns (by rw [length_header]; omega) ?_)
  by_cases hzero : paddingOf len = 0
  · rw [if_neg (not_not.mpr hzero)]
    refine .bind (.pure (.pure ?_))
    have hsame : withHeader req.outBuf hdr type id' len
        = blit req.outBuf hdr (header type id' len) := by
      rw [withHeader, hzero, replicate_zero, blit_nil]
    rw [hsame] at hpost
    exact hpost
  · rw [if_pos hzero]
    refine .bind (store_returns ?_ (.pure hpost))
    rw [length_replicate]
    omega

/-- What lies before the header stays. -/
theorem slice_withHeader_before (m : ℕ → UInt8) {n : ℕ} (type : UInt8) (id len : ℕ)
    (h : n ≤ hdr) : slice (withHeader m hdr type id len) 0 n = slice m 0 n := by
  rw [withHeader, slice_blit_of_le _ (by omega), slice_blit_of_le _ (by omega)]

/-- The header and the padding around a content are the bytes of the packet. -/
theorem slice_withHeader (m : ℕ → UInt8) {type : UInt8}
    (hc : slice m (hdr + headerSize) c.length = c) : slice (withHeader m hdr type id c.length) hdr
        (headerSize + (c.length + paddingOf c.length)) = packetBytes id (type, c) := by
  rw [slice_add, slice_add, packetBytes, append_assoc]
  congr 1
  · rw [withHeader, slice_blit_of_le _ (by omega)]
    exact slice_blit_self m hdr (header type id c.length)
  congr 1
  · rw [withHeader, slice_blit_of_le _ (by omega), slice_blit_of_ge (by rw [length_header]), hc]
  · have hself := slice_blit_self (blit m hdr (header type id c.length))
      (hdr + headerSize + c.length) (replicate (paddingOf c.length) 0)
    rw [length_replicate] at hself
    exact hself

/-! ## Opening and closing -/

theorem openPacket_returns (hc : Closed id base ps req) (hpos : req.outPos ≤ outBufSize) :
    (openPacket t).Returns req fun _ req' => OpenAt id base ps t [] req.outPos req' ∧
      req'.outPos = req.outPos + headerSize := by
  have hs := sizes
  refine .bind (.get (.bind (store_returns ?_ ?_)))
  · simp only [length_singleton]
    omega
  · refine .modify ⟨⟨hc.same, hc.ended, rfl, hc.aligned, rfl, ?_, rfl, ?_⟩, rfl⟩
    · exact blit_add (show 0 < [t].length from Nat.zero_lt_one)
    · obtain ⟨out, hsent, hout⟩ := hc.carries
      refine ⟨out, hsent, ?_⟩
      rw [slice_blit_of_le _ (by omega)]
      exact hout

theorem put_returns {bs : Bytes} (ho : OpenAt id base ps t c h req)
    (hpos : req.outPos + bs.length ≤ outBufSize + reservedSize) :
    (put bs).Returns req fun _ req' => OpenAt id base ps t (c ++ bs) h req' ∧
      req'.outPos = req.outPos + bs.length := by
  have hs := sizes
  have hp := ho.pos
  refine .bind (.get (.bind (store_returns hpos ?_)))
  refine .modify ⟨⟨ho.same, ho.ended, ho.hdr, ho.aligned, ?_, ?_, ?_, ?_⟩, rfl⟩
  · show req.outPos + bs.length = _
    rw [hp, length_append, add_assoc]
  · show blit req.outBuf req.outPos bs (h + 1) = t
    rw [blit_of_lt _ (by omega)]
    exact ho.type
  · rw [length_append, slice_add, slice_blit_of_le _ (by omega), ho.content, ← hp, slice_blit_self]
  · obtain ⟨out, hsent, hout⟩ := ho.carries
    refine ⟨out, hsent, ?_⟩
    rw [slice_blit_of_le _ (by omega)]
    exact hout

/-- A packet that is closed is one more whole packet. -/
theorem closePacket_open (ho : OpenAt id base ps t c h req)
    (hpos : req.outPos + paddingOf c.length ≤ outBufSize + reservedSize) :
    closePacket.Returns req fun _ req' => Closed id base (ps ++ [(t, c)]) req' ∧
      req'.outPos = req.outPos + paddingOf c.length := by
  have hs := sizes
  have hp := ho.pos
  have hlen : req.outPos - (h + headerSize) = c.length := by omega
  refine .bind (.get ?_)
  rw [ho.hdr]
  refine .bind (makeHeader_returns (by omega) (fun _ => by rw [hlen]; omega) ?_)
  rw [hlen, ho.type]
  refine .modify ⟨⟨ho.same, ho.ended, rfl, ?_, ?_⟩, rfl⟩
  · have h1 := eight_dvd_paddingOf c.length
    have h2 := ho.aligned
    show 8 ∣ req.outPos + paddingOf c.length
    omega
  · obtain ⟨out, hsent, hout⟩ := ho.carries
    refine ⟨out, hsent, ?_⟩
    rw [show req.outPos + paddingOf c.length
        = h + (headerSize + (c.length + paddingOf c.length)) by omega, slice_add, zero_add,
      slice_withHeader_before _ _ _ _ le_rfl, slice_withHeader _ ho.content, ← append_assoc,
      hout, ho.same, flatMap_append, flatMap_singleton]

/-- The position once the open packet is closed. -/
def closedPos (req : Request) : ℕ := (req.outPos + 7) / 8 * 8

theorem closedPos_of_closed (hc : Closed id base ps req) : closedPos req = req.outPos := by
  have := hc.aligned
  unfold closedPos
  omega

theorem closedPos_of_open (ho : OpenAt id base ps t c h req) :
    closedPos req = req.outPos + paddingOf c.length := by
  have hs := sizes
  have h1 := ho.aligned
  have h2 := ho.pos
  unfold closedPos paddingOf
  omega

theorem closePacket_none (hhdr : req.outHdr = none) :
    closePacket.Returns req fun _ req' => req' = req := by
  refine .bind (.get ?_)
  rw [hhdr]
  exact .pure rfl

theorem closePacket_returns (hh : Holds id base ps cur req)
    (hpos : closedPos req ≤ outBufSize + reservedSize) :
    closePacket.Returns req fun _ req' => Closed id base (ps ++ cur.toList) req' ∧
      req'.outPos = closedPos req := by
  cases cur with
  | none =>
    have hc : Closed id base ps req := hh
    refine (closePacket_none hc.hdr).imp ?_
    rintro _ req' rfl
    rw [closedPos_of_closed hc, Option.toList_none, append_nil]
    exact ⟨hc, rfl⟩
  | some p =>
    obtain ⟨h, ho⟩ := hh
    rw [closedPos_of_open ho] at hpos ⊢
    exact closePacket_open ho hpos

/-! ## Sending -/

theorem safeWrite_returns {bytes : Bytes}
    (hdone : ∀ w, post true { req with sent := req.sent ++ bytes, writes := w })
    (hfail : ∀ s w, post false { req with sent := s, writes := w }) :
    (safeWrite link bytes).Returns req post := by
  rcases hlink : link req.writes with _ | n
  · exact ⟨true, _, by rw [safeWrite, hlink], hdone _⟩
  · exact ⟨false, _, by rw [safeWrite, hlink], hfail _ _⟩

theorem sendBuffer_returns (hdone : ∀ w, post true
      { req with sent := req.sent ++ slice req.outBuf 0 req.outPos, writes := w, outPos := 0 })
    (hfail : ∀ s w, post false
      { req with sent := s, writes := w, keep := false, outPos := 0 }) :
    (sendBuffer link false).Returns req post := by
  have hend : (endRecord false).Returns req fun len req' => len = req.outPos ∧ req' = req :=
    .bind (.get (.pure ⟨rfl, rfl⟩))
  refine .bind (hend.imp ?_)
  rintro len req' ⟨rfl, rfl⟩
  refine .bind (.get (.bind ?_))
  refine safeWrite_returns (fun w => ?_) (fun s w => ?_)
  · exact .bind (.modify (.pure (hdone w)))
  · exact .bind (.modify (.pure (hfail s w)))

/-- A buffer without an open packet is empty once it is sent. -/
theorem sendBuffer_closed (hc : Closed id base ps req) :
    (sendBuffer link false).Returns req fun done req' => req'.outPos = 0 ∧
      After id base ps none done req' := by
  refine sendBuffer_returns (fun w => ⟨rfl, ?_⟩) (fun s w => ⟨rfl, ?_⟩)
  · obtain ⟨out, hsent, hout⟩ := hc.carries
    refine ⟨hc.same, hc.ended, hc.hdr, Nat.dvd_zero 8, out ++ slice req.outBuf 0 req.outPos, ?_, ?_⟩
    · rw [hsent, append_assoc]
    · rw [hout]
      exact append_nil _
  · exact ⟨hc.same, hc.ended, hc.hdr, Nat.dvd_zero 8, [], (append_nil _).symm, rfl⟩

/-- `fcgi_flush` closes the open packet and empties the buffer. -/
theorem flush_returns (hh : Holds id base ps cur req)
    (hpos : closedPos req ≤ outBufSize + reservedSize) :
    (fcgiFlush link false).Returns req fun done req' => req'.outPos = 0 ∧
      After id base (ps ++ cur.toList) none done req' := by
  refine .bind ((closePacket_returns hh hpos).imp ?_)
  rintro _ req' ⟨hc, -⟩
  exact sendBuffer_closed hc

/-- **A record that goes to the descriptor directly** follows what the buffer held. -/
theorem sendThrough_returns (hc : Closed id base ps req) (hpos : req.outPos ≤ outBufSize)
    (hlen : 8 ∣ c.length) : (sendThrough link t c).Returns req fun done req' => req'.outPos = 0 ∧
      After id base (ps ++ [(t, c)]) none done req' := by
  have hs := sizes
  have hpad := paddingOf_eq_zero hlen
  refine .bind (.get (.bind ((openPacket_returns hc hpos).imp ?_)))
  rintro _ req1 ⟨ho, hpos1⟩
  refine .bind (makeHeader_returns (by omega) (fun h => absurd hpad h)
    (.bind (.modify ?_)))
  refine .bind (.bind ((closePacket_none rfl).imp ?_))
  rintro _ req2 rfl
  refine sendBuffer_returns (fun w => ?_) (fun s w => ?_)
  · -- the header is sent, the content follows it
    obtain ⟨out, hsent, hout⟩ := ho.carries
    have hbytes : slice (withHeader req1.outBuf req.outPos t req.id c.length) 0 req1.outPos
        = slice req1.outBuf 0 req.outPos ++ header t id c.length := by
      rw [hpos1, slice_add, zero_add, slice_withHeader_before _ _ _ _ le_rfl, withHeader,
        slice_blit_of_le _ (by omega), hc.same]
      exact congrArg _ (slice_blit_self req1.outBuf req.outPos (header t id c.length))
    have hpacket : packetBytes id (t, c) = header t id c.length ++ c := by
      rw [packetBytes, hpad, replicate_zero, append_nil]
    rw [hbytes]
    refine .bind (safeWrite_returns (fun w => ?_) (fun s w => ?_))
    · refine .pure ⟨rfl, ?_⟩
      refine ⟨ho.same, ho.ended, rfl, Nat.dvd_zero 8,
        out ++ slice req1.outBuf 0 req.outPos ++ (header t id c.length ++ c), ?_, ?_⟩
      · simp only [hsent, append_assoc]
      · rw [hout, ← hpacket, flatMap_append, flatMap_singleton]
        exact append_nil _
    · refine .bind (.modify (.pure ⟨rfl, ?_⟩))
      exact ⟨ho.same, ho.ended, rfl, Nat.dvd_zero 8, [], (append_nil _).symm, rfl⟩
  · refine .pure ⟨rfl, ?_⟩
    exact ⟨ho.same, ho.ended, rfl, Nat.dvd_zero 8, [], (append_nil _).symm, rfl⟩

end PhpFcgi
