/-
# The FastCGI request

`ngx_http_fastcgi_create_request` of `ngx_http_fastcgi_module.c`.  The parameters and the
headers of the request are gone through twice, first for the length of what they take and
then to write them; the buffers of the body are cut into records of at most 32 K.

The request is the bytes of its buffers, one after the other: the header of an STDIN record
goes to the end of the last buffer, the piece of the body is a buffer of its own, and the
buffer after it holds the padding.
-/
import ReadingCode.FastcgiWire
import ReadingCode.HashTable

namespace FastcgiRequest

/-! ## What a request is made of -/

/-- The codes of a value that `ngx_http_script_compile` makes. -/
inductive Code
  | copy (data : Bytes)
  | copyVar (index : ℕ)
  | copyCapture (n : ℕ)
  deriving DecidableEq, Repr

/-- A parameter: its name, `skip_empty`, and the codes of its value. -/
structure Param where
  key : Bytes
  skipEmpty : Bool
  value : List Code
  deriving DecidableEq, Repr

/-- `ngx_http_fastcgi_params_t`; there are no parameters where `lengths` is null. -/
structure Params where
  params : List Param
  number : ℕ
  hash : HashTable.Hash Unit

/-- `ngx_table_elt_t` -/
structure TableElt where
  key : Bytes
  value : Bytes
  deriving DecidableEq, Repr

/-- The part of a file from `pos` to `last`. -/
structure FileRange where
  content : Bytes
  pos : ℕ
  last : ℕ
  le : pos ≤ last
  inside : last ≤ content.length

/-- `ngx_buf_t`: `data` is what lies between `pos` and `last` in memory, `file` the part of
the file of a buffer that is `in_file`. -/
structure Buf where
  inMemory : Bool
  data : Bytes
  file : Option FileRange
  flush : Bool
  lastBuf : Bool
  sync : Bool

/-- `ngx_buf_special(b)` -/
def Buf.special (b : Buf) : Bool :=
  (b.flush || b.lastBuf || b.sync) && !b.inMemory && b.file.isNone

/-- The request and its upstream.  A variable that is not found has no value; a value once
found is kept for the request. -/
structure Request where
  cacheable : Bool
  indexedVariables : ℕ → Option Bytes
  captures : List Bytes
  headers : List TableElt
  requestBodyNoBuffering : Bool
  body : List Buf

/-- `ngx_http_fastcgi_loc_conf_t` -/
structure LocConf where
  params : Params
  paramsCache : Params
  passRequestHeaders : Bool
  passRequestBody : Bool
  keepConn : Bool

/-- The parameters in use. -/
def LocConf.paramsFor (conf : LocConf) (r : Request) : Params :=
  if r.cacheable then conf.paramsCache else conf.params

/-! ## Codes -/

/-- The length that a code reports. -/
def Code.len (r : Request) : Code → ℕ
  | .copy data => data.length
  | .copyVar index => ((r.indexedVariables index).getD []).length
  | .copyCapture n => (r.captures.getD n []).length

/-- What a code writes, `skip` being that of the engine. -/
def Code.run (r : Request) (skip : Bool) : Code → Bytes
  | .copy data => if skip then [] else data
  | .copyVar index => if skip then [] else (r.indexedVariables index).getD []
  | .copyCapture n => r.captures.getD n []

/-- `val_len` -/
def valLen (r : Request) (value : List Code) : ℕ := (value.map (Code.len r)).sum

/-- The loop over the codes of a parameter, the first of which copies its name. -/
def runCodes (r : Request) (skip : Bool) (p : Param) : Bytes :=
  (Code.copy p.key :: p.value).flatMap (Code.run r skip)

/-! ## Numbers -/

/-- `(u_char)` -/
def uchar (n : ℕ) : UInt8 := UInt8.ofNat n

/-- A length as it is written. -/
def putLength (n : ℕ) : Bytes :=
  if n > 127 then
    [uchar (((n >>> 24) &&& 0x7f) ||| 0x80), uchar ((n >>> 16) &&& 0xff),
      uchar ((n >>> 8) &&& 0xff), uchar (n &&& 0xff)]
  else [uchar n]

/-- The padding of a content of length `len`. -/
def paddingOf (len : ℕ) : ℕ :=
  let padding := 8 - len % 8
  if padding = 8 then 0 else padding

/-- `ngx_http_fastcgi_header_t`, of request 1. -/
def header (type : UInt8) (len padding : ℕ) : Bytes :=
  [1, type, 0, 1, uchar ((len >>> 8) &&& 0xff), uchar (len &&& 0xff), uchar padding, 0]

/-- `NGX_HTTP_FASTCGI_BEGIN_REQUEST` -/
abbrev BEGIN_REQUEST : UInt8 := 1

/-- `NGX_HTTP_FASTCGI_PARAMS` -/
abbrev PARAMS : UInt8 := 4

/-- `NGX_HTTP_FASTCGI_STDIN` -/
abbrev STDIN : UInt8 := 5

/-- `ngx_http_fastcgi_begin_request_t`: the role of a responder and the flags. -/
def beginRequest (conf : LocConf) : Bytes :=
  [0, 1, if conf.keepConn then 1 else 0, 0, 0, 0, 0, 0]

/-! ## Headers -/

/-- `"HTTP_"` -/
def httpPrefix : Bytes := [0x48, 0x54, 0x54, 0x50, 0x5F]

/-- A byte of the name that is looked up. -/
def lowcase (ch : UInt8) : UInt8 :=
  if ch ≥ 0x41 ∧ ch ≤ 0x5A then ch ||| 0x20 else if ch = 0x2D then 0x5F else ch

/-- A byte of the name that is written. -/
def upcase (ch : UInt8) : UInt8 :=
  if ch ≥ 0x61 ∧ ch ≤ 0x7A then ch &&& ~~~0x20 else if ch = 0x2D then 0x5F else ch

/-- Whether a parameter of the same name stands in for the header; nothing is known when
the lookup leaves the memory of the hash. -/
def isIgnored (params : Params) (h : TableElt) : Option Bool :=
  if params.number = 0 then some false
  else
    let lowcaseKey := h.key.map lowcase
    (HashTable.ngxHashFind params.hash (lowcaseKey.foldl HashTable.ngxHash 0) lowcaseKey).map
      Option.isSome

/-! ## The first pass -/

/-- The length of the parameters. -/
def paramsLength (r : Request) : List Param → ℕ
  | [] => 0
  | p :: ps =>
    if p.skipEmpty ∧ valLen r p.value = 0 then paramsLength r ps
    else
      1 + p.key.length + (if valLen r p.value > 127 then 4 else 1) + valLen r p.value
        + paramsLength r ps

/-- The length of the headers, with the places of those that are ignored. -/
def headersLength (params : Params) : ℕ → List TableElt → Option (ℕ × List ℕ)
  | _, [] => some (0, [])
  | i, h :: hs =>
    (isIgnored params h).bind fun hit =>
      (headersLength params (i + 1) hs).map fun (len, ignored) =>
        if hit then (len, i :: ignored)
        else
          let n := httpPrefix.length + h.key.length
          ((if n > 127 then 4 else 1) + (if h.value.length > 127 then 4 else 1)
            + n + h.value.length + len, ignored)

/-- `len` and `ignored` after the first pass. -/
def lengthPass (conf : LocConf) (r : Request) : Option (ℕ × List ℕ) :=
  let params := conf.paramsFor r
  let len := paramsLength r params.params
  if conf.passRequestHeaders then
    (headersLength params 0 r.headers).map fun (n, ignored) => (len + n, ignored)
  else some (len, [])

/-! ## The second pass -/

/-- The bytes of the parameters. -/
def writeParams (r : Request) : List Param → Bytes
  | [] => []
  | p :: ps =>
    let keyLen := (uchar p.key.length).toNat
    if p.skipEmpty ∧ valLen r p.value = 0 then runCodes r true p ++ writeParams r ps
    else
      [uchar keyLen] ++ putLength (valLen r p.value) ++ runCodes r false p ++ writeParams r ps

/-- The bytes of the headers. -/
def writeHeaders (ignored : List ℕ) : ℕ → List TableElt → Bytes
  | _, [] => []
  | i, h :: hs =>
    if i ∈ ignored then writeHeaders ignored (i + 1) hs
    else
      putLength (httpPrefix.length + h.key.length) ++ putLength h.value.length
        ++ httpPrefix ++ h.key.map upcase ++ h.value ++ writeHeaders ignored (i + 1) hs

/-- What is written of the parameters and the headers. -/
def writePass (conf : LocConf) (r : Request) (ignored : List ℕ) : Bytes :=
  writeParams r (conf.paramsFor r).params
    ++ if conf.passRequestHeaders then writeHeaders ignored 0 r.headers else []

/-! ## The body -/

/-- The parts of a buffer from `pos` to `last`; the first is cut even if it is empty.  No
more than `fuel` parts are cut. -/
def cut : ℕ → ℕ → ℕ → List (ℕ × ℕ)
  | 0, _, _ => []
  | fuel + 1, pos, last =>
    if pos + 32 * 1024 ≥ last then [(pos, last)]
    else (pos, pos + 32 * 1024) :: cut fuel (pos + 32 * 1024) last

/-- The bytes from `p.1` to `p.2`. -/
def slice (s : Bytes) (p : ℕ × ℕ) : Bytes := (s.drop p.1).take (p.2 - p.1)

/-- The pieces of a buffer. -/
def pieces (b : Buf) : List Bytes :=
  match b.file with
  | some f => (cut (f.last - f.pos + 1) f.pos f.last).map (slice f.content)
  | none => (cut (b.data.length + 1) 0 b.data.length).map (slice b.data)

/-- The record of a piece. -/
def stdinRecord (piece : Bytes) : Bytes :=
  let padding := paddingOf piece.length
  header STDIN piece.length padding ++ piece ++ List.replicate padding 0

/-- The records of the chain of buffers. -/
def writeBody : List Buf → Bytes
  | [] => []
  | b :: bs =>
    if b.special then writeBody bs
    else (pieces b).flatMap stdinRecord ++ writeBody bs

/-! ## The request -/

/-- `ngx_http_fastcgi_create_request(r)`: the request when it returns `NGX_OK`. -/
def createRequest (conf : LocConf) (r : Request) : Option Bytes :=
  (lengthPass conf r).bind fun (len, ignored) =>
    if len > 65535 then none
    else
      let padding := paddingOf len
      some (header BEGIN_REQUEST 8 0 ++ beginRequest conf ++ header PARAMS len padding
        ++ writePass conf r ignored ++ List.replicate padding 0 ++ header PARAMS 0 0
        ++ if r.requestBodyNoBuffering then []
          else
            (if conf.passRequestBody then writeBody r.body else []) ++ header STDIN 0 0)

/-!
# What is read of a FastCGI request

Both passes agree on the length of the parameters and the headers, and the records of a
request are read as they were written.  The pairs are read as they were meant unless the
name of a parameter takes more than one byte for its length: the second pass has no other
way to write it.  A buffer of the body with nothing in it makes an empty record, which is
the end of the body.
-/

open FastcgiWire List Option

/-! ## Numbers -/

theorem toNat_uchar (n : ℕ) : (uchar n).toNat = n % 256 := UInt8.toNat_ofNat' ..

theorem length_putLength (n : ℕ) : (putLength n).length = lengthSize n := by
  unfold putLength lengthSize
  split_ifs <;> first | rfl | omega

theorem readLength_putLength {n : ℕ} (h : n < 2 ^ 31) (u : Bytes) :
    readLength (putLength n ++ u) = some (n, u) := by
  unfold putLength
  split_ifs with hn
  · have htop : (uchar (((n / 2 ^ 24) &&& 0x7f) ||| 0x80)).toNat = n / 2 ^ 24 + 128 := by
      have hor := Nat.two_pow_add_eq_or_of_lt (Nat.mod_lt (n / 2 ^ 24) (Nat.two_pow_pos 7)) 1
      rw [toNat_uchar, show (0x7f : ℕ) = 2 ^ 7 - 1 from rfl, Nat.and_two_pow_sub_one_eq_mod,
        Nat.or_comm, show (0x80 : ℕ) = 2 ^ 7 * 1 from rfl]
      omega
    have hlow : ∀ m : ℕ, (uchar (m &&& 0xff)).toNat = m % 256 := fun m => by
      rw [toNat_uchar, show (0xff : ℕ) = 2 ^ 8 - 1 from rfl, Nat.and_two_pow_sub_one_eq_mod]
      omega
    simp only [cons_append, nil_append, readLength, Nat.shiftRight_eq_div_pow, htop, hlow]
    rw [if_neg (by omega)]
    congr 2
    omega
  · simp only [cons_append, nil_append, readLength, toNat_uchar]
    rw [if_pos (by omega), Nat.mod_eq_of_lt (by omega)]

/-! ## Records -/

/-- The record of request 1 with its padding. -/
def recordOf (type : UInt8) (content : Bytes) : Record :=
  ⟨type, 1, content, paddingOf content.length⟩

/-- The bytes of such a record. -/
def recordBytes (type : UInt8) (content : Bytes) : Bytes :=
  header type content.length (paddingOf content.length) ++ content
    ++ replicate (paddingOf content.length) 0

theorem paddingOf_lt (len : ℕ) : paddingOf len < 8 := by
  unfold paddingOf
  dsimp only
  split_ifs <;> omega

theorem eight_dvd_add_paddingOf (len : ℕ) : 8 ∣ len + paddingOf len := by
  unfold paddingOf
  dsimp only
  split_ifs <;> omega

theorem readRecord_recordBytes {type : UInt8} {content : Bytes}
    (h : content.length < 2 ^ 16) (u : Bytes) :
    readRecord (recordBytes type content ++ u) = some (recordOf type content, u) := by
  have hpad := paddingOf_lt content.length
  have hand : ∀ m : ℕ, m &&& 0xff = m % 256 := fun m => Nat.and_two_pow_sub_one_eq_mod m 8
  have hlen : content.length = (uchar ((content.length >>> 8) &&& 0xff)).toNat * 2 ^ 8
      + (uchar (content.length &&& 0xff)).toNat := by
    rw [toNat_uchar, toNat_uchar, hand, hand]
    omega
  have hzeros : (replicate (paddingOf content.length) (0 : UInt8)).length
      = (uchar (paddingOf content.length)).toNat := by
    rw [length_replicate, toNat_uchar, Nat.mod_eq_of_lt (by omega)]
  have hread := readRecord_append type 0 1 _ _ _ 0 hlen hzeros u
  rw [length_replicate] at hread
  exact hread

/-- A stream of such records is read as they were written. -/
theorem readRecords_flatMap (rs : List (UInt8 × Bytes)) (h : ∀ p ∈ rs, p.2.length < 2 ^ 16) :
    readRecords (rs.flatMap fun p => recordBytes p.1 p.2)
      = some (rs.map fun p => recordOf p.1 p.2) := by
  have hread := readAll_flatMap consumes_readRecord (fun p : UInt8 × Bytes =>
    recordBytes p.1 p.2) (fun p => recordOf p.1 p.2) rs [] fun p hp u =>
      readRecord_recordBytes (h p hp) u
  rw [append_nil, readAll_nil, map_some, append_nil] at hread
  exact hread

/-! ## Codes -/

theorem length_run (r : Request) (c : Code) : (c.run r false).length = c.len r := by
  cases c <;> rfl

theorem length_flatMap_run (r : Request) (cs : List Code) :
    (cs.flatMap (Code.run r false)).length = valLen r cs := by
  induction cs with
  | nil => rfl
  | cons c cs ih =>
    rw [flatMap_cons, length_append, ih, length_run]
    rfl

/-- An empty value that is skipped leaves nothing behind. -/
theorem runCodes_skip {r : Request} {p : Param} (h : valLen r p.value = 0) :
    runCodes r true p = [] := by
  have hle : ∀ cs : List Code, (cs.flatMap (Code.run r true)).length ≤ valLen r cs := by
    intro cs
    induction cs with
    | nil => exact Nat.le_refl _
    | cons c cs ih =>
      have hc : (c.run r true).length ≤ c.len r := by
        cases c
        · exact Nat.zero_le _
        · exact Nat.zero_le _
        · exact Nat.le_refl _
      rw [flatMap_cons, length_append]
      exact Nat.add_le_add hc ih
  have hval := hle p.value
  rw [h] at hval
  exact eq_nil_of_length_eq_zero (Nat.le_zero.1 hval)

/-! ## Pairs -/

/-- A pair with both lengths before it. -/
def pairBytes (p : Bytes × Bytes) : Bytes :=
  putLength p.1.length ++ putLength p.2.length ++ p.1 ++ p.2

theorem length_pairBytes (p : Bytes × Bytes) : (pairBytes p).length = pairSize p := by
  simp only [pairBytes, pairSize, length_append, length_putLength]

theorem length_flatMap_pairBytes (ps : List (Bytes × Bytes)) :
    (ps.flatMap pairBytes).length = (ps.map pairSize).sum := by
  rw [length_flatMap, show (fun p => (pairBytes p).length) = pairSize from
    funext length_pairBytes]

theorem readPairs_flatMap {ps : List (Bytes × Bytes)}
    (h : (ps.map pairSize).sum < 2 ^ 31) : readPairs (ps.flatMap pairBytes) = some ps := by
  have hread := readAll_flatMap consumes_readPair pairBytes id ps [] fun p hp u => by
    have hsize := le_sum_of_mem (mem_map_of_mem (f := pairSize) hp)
    rw [pairSize] at hsize
    exact readPair_of_lengths (readLength_putLength (by omega)) (readLength_putLength (by omega)) u
  rw [append_nil, readAll_nil, map_some, append_nil, List.map_id] at hread
  exact hread

/-! ## Parameters -/

/-- The value of a parameter. -/
def Param.text (r : Request) (p : Param) : Bytes := p.value.flatMap (Code.run r false)

/-- Whether a parameter is left out. -/
def Param.skipped (r : Request) (p : Param) : Bool := p.skipEmpty && valLen r p.value == 0

/-- The parameters that are sent. -/
def sentParams (r : Request) (ps : List Param) : List (Bytes × Bytes) :=
  (ps.filter fun p => !p.skipped r).map fun p => (p.key, p.text r)

/-- What both passes take for a parameter: one byte is for the length of its name. -/
def paramSize (p : Bytes × Bytes) : ℕ :=
  1 + p.1.length + lengthSize p.2.length + p.2.length

theorem paramSize_le (p : Bytes × Bytes) : paramSize p ≤ pairSize p := by
  have := lengthSize_pos p.1.length
  rw [paramSize, pairSize]
  omega

theorem sentParams_cons (r : Request) (p : Param) (ps : List Param) : sentParams r (p :: ps)
      = if p.skipEmpty ∧ valLen r p.value = 0 then sentParams r ps
        else (p.key, p.text r) :: sentParams r ps := by
  by_cases h : p.skipEmpty ∧ valLen r p.value = 0
  · rw [if_pos h, sentParams, filter_cons_of_neg (by simp [Param.skipped, h.1, h.2])]
    rfl
  · rw [if_neg h, sentParams, filter_cons_of_pos
      (by cases hs : p.skipEmpty <;> simp_all [Param.skipped])]
    rfl

theorem runCodes_eq (r : Request) (p : Param) : runCodes r false p = p.key ++ p.text r := by
  rfl

theorem length_text (r : Request) (p : Param) : (p.text r).length = valLen r p.value :=
  length_flatMap_run r p.value

theorem paramsLength_eq (r : Request) (ps : List Param) :
    paramsLength r ps = ((sentParams r ps).map paramSize).sum := by
  induction ps with
  | nil => rfl
  | cons p ps ih =>
    rw [paramsLength, sentParams_cons]
    split_ifs with h1 h2
    · exact ih
    · rw [map_cons, sum_cons, paramSize, length_text, lengthSize, if_neg (by omega), ih]
    · rw [map_cons, sum_cons, paramSize, length_text, lengthSize, if_pos (by omega), ih]

theorem length_writeParams (r : Request) (ps : List Param) :
    (writeParams r ps).length = paramsLength r ps := by
  induction ps with
  | nil => rfl
  | cons p ps ih =>
    rw [writeParams, paramsLength]
    by_cases h : p.skipEmpty ∧ valLen r p.value = 0
    · rw [if_pos h, if_pos h, runCodes_skip h.2]
      exact ih
    · rw [if_neg h, runCodes_eq]
      simp only [length_append, length_putLength, length_text, ih, lengthSize, length_singleton]
      split_ifs <;> omega

/-- With short names the parameters are written as pairs. -/
theorem writeParams_eq {r : Request} {ps : List Param} (h : ∀ p ∈ sentParams r ps, p.1.length ≤ 127)
    : writeParams r ps = (sentParams r ps).flatMap pairBytes := by
  induction ps with
  | nil => rfl
  | cons p ps ih =>
    rw [sentParams_cons] at h ⊢
    rw [writeParams]
    by_cases hskip : p.skipEmpty ∧ valLen r p.value = 0
    · rw [if_pos hskip] at h ⊢
      rw [if_pos hskip, runCodes_skip hskip.2, ih h]
      rfl
    · rw [if_neg hskip] at h ⊢
      rw [if_neg hskip, flatMap_cons, ih fun q hq => h q (mem_cons_of_mem _ hq),
        runCodes_eq, pairBytes]
      have hkey : p.key.length ≤ 127 := h _ mem_cons_self
      rw [show putLength (p.key.length) = [uchar p.key.length] from if_neg (by omega),
        length_text, toNat_uchar, Nat.mod_eq_of_lt (by omega)]
      simp only [append_assoc]

/-! ## Headers -/

/-- The headers that no parameter stands in for. -/
def passedHeaders (params : Params) (hs : List TableElt) : List (Bytes × Bytes) :=
  (hs.filter fun h => isIgnored params h != some true).map fun h =>
    (httpPrefix ++ h.key.map upcase, h.value)

/-- The places that the first pass has kept are those that the second leaves out. -/
theorem headers_spec (params : Params) (hs : List TableElt) :
    ∀ (i len : ℕ) (ignored : List ℕ), headersLength params i hs = some (len, ignored) →
      (∀ j ∈ ignored, i ≤ j) ∧ len = ((passedHeaders params hs).map pairSize).sum
        ∧ ∀ before : List ℕ, (∀ j ∈ before, j < i) →
          writeHeaders (before ++ ignored) i hs = (passedHeaders params hs).flatMap pairBytes := by
  induction hs with
  | nil =>
    intro i len ignored h
    cases h
    exact ⟨fun j hj => absurd hj not_mem_nil, rfl, fun _ _ => rfl⟩
  | cons h hs ih =>
    intro i len ignored hlen
    obtain ⟨hit, hhit, hlen⟩ := bind_eq_some_iff.1 hlen
    obtain ⟨⟨len', ignored'⟩, htail, hlen⟩ := map_eq_some_iff.1 hlen
    obtain ⟨hge, hsum, hwrite⟩ := ih _ _ _ htail
    cases hit with
    | true =>
      cases hlen
      have hpassed : passedHeaders params (h :: hs) = passedHeaders params hs := by
        rw [passedHeaders, filter_cons_of_neg (by simp [hhit])]
        rfl
      rw [hpassed]
      refine ⟨fun j hj => ?_, hsum, fun before hbefore => ?_⟩
      · rcases mem_cons.1 hj with rfl | hj
        · exact Nat.le_refl _
        · exact Nat.le_of_succ_le (hge j hj)
      · rw [writeHeaders, if_pos (mem_append_right _ mem_cons_self), append_cons]
        apply hwrite
        intro j hj
        rcases mem_append.1 hj with hj | hj
        · exact Nat.lt_succ_of_lt (hbefore j hj)
        · rw [mem_singleton.1 hj]
          exact Nat.lt_succ_self i
    | false =>
      cases hlen
      have hpassed : passedHeaders params (h :: hs)
          = (httpPrefix ++ h.key.map upcase, h.value) :: passedHeaders params hs := by
        rw [passedHeaders, filter_cons_of_pos (by simp [hhit])]
        rfl
      rw [hpassed]
      refine ⟨fun j hj => Nat.le_of_succ_le (hge j hj), ?_, fun before hbefore => ?_⟩
      · rw [map_cons, sum_cons, pairSize]
        simp only [length_append, length_map, lengthSize]
        split_ifs <;> omega
      · have hnot : i ∉ before ++ ignored := by
          intro hmem
          rcases mem_append.1 hmem with hj | hj
          · exact Nat.lt_irrefl _ (hbefore i hj)
          · exact Nat.lt_irrefl _ (hge i hj)
        rw [writeHeaders, if_neg hnot,
          hwrite before fun j hj => Nat.lt_succ_of_lt (hbefore j hj), flatMap_cons, pairBytes]
        simp only [length_append, length_map, append_assoc]

end FastcgiRequest

/-! # The encoding of a FastCGI request -/

namespace FastcgiRequest

open List

open FastcgiWire

/-! ## What is to be read -/

/-- The parameters that are sent, followed by the headers that are passed. -/
def sentPairs (conf : LocConf) (r : Request) : List (Bytes × Bytes) :=
  sentParams r (conf.paramsFor r).params
    ++ if conf.passRequestHeaders then passedHeaders (conf.paramsFor r) r.headers else []

/-- The bytes of a buffer of the body. -/
def Buf.bytes (b : Buf) : Bytes :=
  if b.special then []
  else
    match b.file with
    | some f => slice f.content (f.pos, f.last)
    | none => b.data

/-- The body that is sent. -/
def sentBody (conf : LocConf) (r : Request) : Bytes :=
  if conf.passRequestBody then r.body.flatMap Buf.bytes else []

/-- The records carry the bytes in pieces of at most 32 K; an empty record follows them, and
none comes earlier. -/
def Carries (bytes : Bytes) (stdin : List Record) : Prop :=
  ∃ rs : List Record, stdin = rs ++ [⟨STDIN, 1, [], 0⟩]
    ∧ (∀ r ∈ rs, r.type = STDIN ∧ r.requestId = 1 ∧ r.content ≠ []
        ∧ r.content.length ≤ 32 * 1024)
    ∧ rs.flatMap Record.content = bytes

/-- Content and padding together are a multiple of 8. -/
def Padded (r : Record) : Prop := 8 ∣ r.content.length + r.padding

/-- What the request is to be: the second pass writes what the first has counted, the records
begin the request, bring its pairs and then its body, and all of them are padded. -/
structure Encoded (conf : LocConf) (r : Request) (wire : Bytes) : Prop where
  lengths : ∃ len ignored, lengthPass conf r = some (len, ignored)
    ∧ (writePass conf r ignored).length = len
  records : ∃ (params : Record) (stdin : List Record),
    readRecords wire = some
        (⟨BEGIN_REQUEST, 1, beginRequest conf, 0⟩ :: params :: ⟨PARAMS, 1, [], 0⟩ :: stdin)
      ∧ params.type = PARAMS ∧ params.requestId = 1
      ∧ readPairs params.content = some (sentPairs conf r)
      ∧ (if r.requestBodyNoBuffering then stdin = [] else Carries (sentBody conf r) stdin)
      ∧ Padded params ∧ ∀ s ∈ stdin, Padded s

/-- No name is too long for one byte of length. -/
def ShortNames (conf : LocConf) (r : Request) : Prop :=
  ∀ p ∈ sentParams r (conf.paramsFor r).params, p.1.length ≤ 127

/-- No buffer of the body that is sent is empty. -/
def NoEmptyBuf (conf : LocConf) (r : Request) : Prop :=
  r.requestBodyNoBuffering = false → conf.passRequestBody = true →
    ∀ b ∈ r.body, b.special = false → b.bytes ≠ []

/-! ## Pairs -/

variable {conf : LocConf} {r : Request}

variable {ignored : List ℕ}

/-- Both passes agree, and the length of a name is all that may go wrong. -/
theorem writePass_spec {len : ℕ} (h : lengthPass conf r = some (len, ignored)) :
    (writePass conf r ignored).length = len
      ∧ len + ((sentParams r (conf.paramsFor r).params).map pairSize).sum
          = ((sentPairs conf r).map pairSize).sum
            + ((sentParams r (conf.paramsFor r).params).map paramSize).sum
      ∧ (ShortNames conf r → writePass conf r ignored = (sentPairs conf r).flatMap pairBytes) := by
  have hparams := paramsLength_eq r (conf.paramsFor r).params
  have hwritten := length_writeParams r (conf.paramsFor r).params
  unfold lengthPass at h
  unfold writePass sentPairs
  cases hpass : conf.passRequestHeaders with
  | true =>
    simp only [hpass, if_true] at h ⊢
    obtain ⟨⟨n, ignored'⟩, hheaders, h⟩ := Option.map_eq_some_iff.1 h
    cases h
    obtain ⟨-, hsum, hwrite⟩ := headers_spec _ _ _ _ _ hheaders
    have hheader := hwrite [] fun j hj => absurd hj not_mem_nil
    rw [nil_append] at hheader
    rw [hheader]
    refine ⟨?_, ?_, fun hshort => ?_⟩
    · rw [length_append, hwritten, length_flatMap_pairBytes, hsum]
    · rw [map_append, sum_append]
      omega
    · rw [writeParams_eq hshort, flatMap_append]
  | false =>
    simp only [hpass, Bool.false_eq_true, if_false] at h ⊢
    cases h
    refine ⟨?_, ?_, fun hshort => ?_⟩
    · rw [append_nil, hwritten]
    · rw [append_nil]
      omega
    · rw [append_nil, append_nil, writeParams_eq hshort]

/-- The pairs are read as they were meant if and only if the names are short. -/
theorem readPairs_writePass {len : ℕ}
    (h : lengthPass conf r = some (len, ignored)) (hlen : len ≤ 65535) :
    readPairs (writePass conf r ignored) = some (sentPairs conf r) ↔ ShortNames conf r := by
  obtain ⟨hwritten, hsum, hwrite⟩ := writePass_spec h
  constructor
  · intro hread p hp
    have hle := sum_pairSize_le hread
    by_contra hlong
    have hlt := sum_lt_sum paramSize pairSize
      (fun q (_ : q ∈ sentParams r (conf.paramsFor r).params) => paramSize_le q)
      ⟨p, hp, by rw [paramSize, pairSize, lengthSize, lengthSize]; split_ifs <;> omega⟩
    omega
  · intro hshort
    rw [hwrite hshort] at hwritten ⊢
    rw [length_flatMap_pairBytes] at hwritten
    exact readPairs_flatMap (by omega)

/-! ## The body -/

variable {s : Bytes}

theorem slice_append {a b c : ℕ} (hab : a ≤ b) (hbc : b ≤ c) :
    slice s (a, b) ++ slice s (b, c) = slice s (a, c) := by
  obtain ⟨n, rfl⟩ : ∃ n, b = a + n := ⟨b - a, by omega⟩
  obtain ⟨m, rfl⟩ : ∃ m, c = a + n + m := ⟨c - (a + n), by omega⟩
  simp only [slice]
  rw [← drop_drop, show a + n - a = n by omega, show a + n + m - (a + n) = m by omega,
    show a + n + m - a = n + m by omega, take_add]

theorem length_slice {a b : ℕ} (h : b ≤ s.length) : (slice s (a, b)).length = b - a := by
  rw [slice, length_take, length_drop]
  omega

/-- The parts of a buffer are the buffer, each within the limit, and none is empty unless
the buffer is. -/
theorem cut_spec {last : ℕ} (hlast : last ≤ s.length) :
    ∀ (fuel pos : ℕ), last < pos + fuel → pos ≤ last →
      ((cut fuel pos last).map (slice s)).flatten = slice s (pos, last)
        ∧ (∀ piece ∈ (cut fuel pos last).map (slice s), piece.length ≤ 32 * 1024)
        ∧ ([] ∈ (cut fuel pos last).map (slice s) ↔ slice s (pos, last) = []) := by
  intro fuel
  induction fuel with
  | zero =>
    intro pos h1 h2
    omega
  | succ fuel ih =>
    intro pos h1 h2
    rw [cut]
    split_ifs with hend
    · refine ⟨append_nil _, fun piece hpiece => ?_, ?_⟩
      · rw [map_singleton, mem_singleton] at hpiece
        rw [hpiece, length_slice hlast]
        omega
      · rw [map_singleton, mem_singleton]
        exact eq_comm
    · obtain ⟨hflat, hle, hnil⟩ := ih (pos + 32 * 1024) (by omega) (by omega)
      have hfirst : (slice s (pos, pos + 32 * 1024)).length = 32 * 1024 := by
        rw [length_slice (by omega)]
        omega
      have hrest : (slice s (pos + 32 * 1024, last)).length = last - (pos + 32 * 1024) :=
        length_slice hlast
      have hall : (slice s (pos, last)).length = last - pos := length_slice hlast
      rw [map_cons, flatten_cons, hflat]
      refine ⟨slice_append (by omega) (by omega), fun piece hpiece => ?_, ?_⟩
      · rcases mem_cons.1 hpiece with rfl | hpiece
        · exact le_of_eq hfirst
        · exact hle piece hpiece
      · constructor
        · intro hmem
          rcases mem_cons.1 hmem with h | h
          · rw [← h] at hfirst
            cases hfirst
          · rw [hnil.1 h, length_nil] at hrest
            omega
        · intro h
          rw [h, length_nil] at hall
          omega

theorem pieces_spec {b : Buf} (h : b.special = false) :
    (pieces b).flatten = b.bytes ∧ (∀ piece ∈ pieces b, piece.length ≤ 32 * 1024)
      ∧ ([] ∈ pieces b ↔ b.bytes = []) := by
  unfold pieces Buf.bytes
  simp only [h, Bool.false_eq_true, if_false]
  cases b.file with
  | some f => exact cut_spec f.inside _ _ (by omega) f.le
  | none =>
    have hcut := cut_spec (Nat.le_refl b.data.length) (b.data.length + 1) 0 (by omega)
      (Nat.zero_le _)
    have hdata : slice b.data (0, b.data.length) = b.data := by simp [slice]
    rwa [hdata] at hcut

/-- All pieces of a body. -/
def bodyPieces (bs : List Buf) : List Bytes :=
  (bs.filter fun b => !b.special).flatMap pieces

theorem writeBody_eq (bs : List Buf) :
    writeBody bs = (bodyPieces bs).flatMap fun piece => recordBytes STDIN piece := by
  induction bs with
  | nil => rfl
  | cons b bs ih =>
    rw [writeBody]
    split_ifs with h
    · rw [bodyPieces, filter_cons_of_neg (by simp [h])]
      exact ih
    · rw [bodyPieces, filter_cons_of_pos (by simp [h]), flatMap_cons, flatMap_append, ih]
      rfl

theorem bodyPieces_spec (bs : List Buf) : (bodyPieces bs).flatten = bs.flatMap Buf.bytes
      ∧ (∀ piece ∈ bodyPieces bs, piece.length ≤ 32 * 1024)
      ∧ ([] ∈ bodyPieces bs ↔ ∃ b ∈ bs, b.special = false ∧ b.bytes = []) := by
  induction bs with
  | nil => exact ⟨rfl, fun _ h => absurd h not_mem_nil, by simp [bodyPieces]⟩
  | cons b bs ih =>
    obtain ⟨hflat, hle, hnil⟩ := ih
    by_cases h : b.special = true
    · have hcons : bodyPieces (b :: bs) = bodyPieces bs := by
        rw [bodyPieces, filter_cons_of_neg (by simp [h])]
        rfl
      have hbytes : b.bytes = [] := by rw [Buf.bytes, if_pos h]
      rw [hcons, flatMap_cons, hbytes]
      refine ⟨hflat, hle, hnil.trans ?_⟩
      simp [h]
    · have hfalse : b.special = false := by simpa using h
      obtain ⟨hflat', hle', hnil'⟩ := pieces_spec hfalse
      have hcons : bodyPieces (b :: bs) = pieces b ++ bodyPieces bs := by
        rw [bodyPieces, filter_cons_of_pos (by simp [h])]
        rfl
      rw [hcons, flatten_append, hflat, hflat']
      refine ⟨rfl, fun piece hpiece => ?_, ?_⟩
      · rcases mem_append.1 hpiece with hpiece | hpiece
        · exact hle' piece hpiece
        · exact hle piece hpiece
      · rw [mem_append, hnil, hnil']
        simp [hfalse]

/-- The records of pieces carry them if and only if none is empty. -/
theorem carries_pieces {ps : List Bytes} (hle : ∀ p ∈ ps, p.length ≤ 32 * 1024) :
    Carries ps.flatten (ps.map (recordOf STDIN) ++ [⟨STDIN, 1, [], 0⟩]) ↔ [] ∉ ps := by
  constructor
  · rintro ⟨rs, heq, hrs, -⟩ hmem
    have hrs' := append_cancel_right heq
    have hin : recordOf STDIN [] ∈ rs := hrs' ▸ mem_map_of_mem hmem
    exact (hrs _ hin).2.2.1 rfl
  · intro hnil
    refine ⟨_, rfl, fun r hr => ?_, ?_⟩
    · obtain ⟨p, hp, rfl⟩ := mem_map.1 hr
      exact ⟨rfl, rfl, fun h => hnil (h ▸ hp), hle p hp⟩
    · rw [flatMap_map]
      exact flatMap_id ..

/-- The pieces of the body that is sent. -/
def sentPieces (conf : LocConf) (r : Request) : List Bytes :=
  if conf.passRequestBody then bodyPieces r.body else []

theorem sentPieces_spec (conf : LocConf) (r : Request) :
    (sentPieces conf r).flatten = sentBody conf r ∧ (∀ p ∈ sentPieces conf r, p.length ≤ 32 * 1024)
      ∧ (NoEmptyBuf conf r ↔ (r.requestBodyNoBuffering = false → [] ∉ sentPieces conf r)) := by
  obtain ⟨hflat, hle, hnil⟩ := bodyPieces_spec r.body
  unfold sentPieces sentBody NoEmptyBuf
  cases conf.passRequestBody with
  | true =>
    refine ⟨hflat, hle, forall_congr' fun _ => ?_⟩
    rw [if_pos rfl, hnil]
    simp
  | false => exact ⟨rfl, fun p hp => absurd hp not_mem_nil, by simp⟩

/-! ## The request -/

theorem length_beginRequest (conf : LocConf) : (beginRequest conf).length = 8 := rfl

theorem paddingOf_eight : paddingOf 8 = 0 := by decide

/-- The records of a request. -/
def records (conf : LocConf) (r : Request) (ignored : List ℕ) : List (UInt8 × Bytes) :=
  [(BEGIN_REQUEST, beginRequest conf), (PARAMS, writePass conf r ignored), (PARAMS, [])]
    ++ if r.requestBodyNoBuffering then []
      else (sentPieces conf r).map (fun p => (STDIN, p)) ++ [(STDIN, [])]

variable {wire : Bytes}

theorem createRequest_eq (h : createRequest conf r = some wire) :
    ∃ len ignored, lengthPass conf r = some (len, ignored) ∧ len ≤ 65535
      ∧ wire = (records conf r ignored).flatMap fun p => recordBytes p.1 p.2 := by
  obtain ⟨⟨len, ignored⟩, hpass, h⟩ := Option.bind_eq_some_iff.1 h
  dsimp only at h
  rcases lt_or_ge 65535 len with hlen | hlen
  · rw [if_pos hlen] at h
    cases h
  rw [if_neg (not_lt.2 hlen)] at h
  obtain ⟨hwritten, -⟩ := writePass_spec hpass
  refine ⟨len, ignored, hpass, hlen, ?_⟩
  have hbegin : recordBytes BEGIN_REQUEST (beginRequest conf)
      = header BEGIN_REQUEST 8 0 ++ beginRequest conf := by
    rw [recordBytes, length_beginRequest]
    exact append_nil _
  have hparams : recordBytes PARAMS (writePass conf r ignored) = header PARAMS len (paddingOf len)
      ++ writePass conf r ignored ++ replicate (paddingOf len) 0 := by
    rw [recordBytes, hwritten]
  have hempty : ∀ type, recordBytes type [] = header type 0 0 := fun _ => rfl
  have hbody : (sentPieces conf r).flatMap (fun p => recordBytes STDIN p)
      = if conf.passRequestBody then writeBody r.body else [] := by
    unfold sentPieces
    split_ifs
    · exact (writeBody_eq r.body).symm
    · rfl
  rw [← Option.some.inj h, records, flatMap_append]
  simp only [flatMap_cons, flatMap_nil, append_nil, hbegin, hparams, hempty, append_assoc]
  cases r.requestBodyNoBuffering with
  | true => rfl
  | false =>
    simp only [Bool.false_eq_true, if_false]
    rw [flatMap_append, flatMap_map, hbody]
    simp only [flatMap_cons, flatMap_nil, append_nil, hempty]

/-- The records of a request are read as they were written. -/
theorem readRecords_createRequest (h : createRequest conf r = some wire) :
    ∃ len ignored, lengthPass conf r = some (len, ignored) ∧ len ≤ 65535
      ∧ readRecords wire = some (⟨BEGIN_REQUEST, 1, beginRequest conf, 0⟩
          :: recordOf PARAMS (writePass conf r ignored) :: ⟨PARAMS, 1, [], 0⟩
          :: if r.requestBodyNoBuffering then []
            else (sentPieces conf r).map (recordOf STDIN) ++ [⟨STDIN, 1, [], 0⟩]) := by
  obtain ⟨len, ignored, hpass, hlen, rfl⟩ := createRequest_eq h
  obtain ⟨hwritten, -⟩ := writePass_spec hpass
  refine ⟨len, ignored, hpass, hlen, (readRecords_flatMap _ fun p hp => ?_).trans ?_⟩
  · have hpiece := (sentPieces_spec conf r).2.1
    rcases mem_append.1 hp with hp | hp
    · simp only [mem_cons, not_mem_nil, or_false] at hp
      rcases hp with rfl | rfl | rfl
      · show 8 < 2 ^ 16
        omega
      · show (writePass conf r ignored).length < 2 ^ 16
        omega
      · exact Nat.two_pow_pos 16
    · split_ifs at hp
      · exact absurd hp not_mem_nil
      · rcases mem_append.1 hp with hp | hp
        · obtain ⟨piece, hmem, rfl⟩ := mem_map.1 hp
          have := hpiece piece hmem
          dsimp only
          omega
        · rw [mem_singleton.1 hp]
          exact Nat.two_pow_pos 16
  · have hbegin : recordOf BEGIN_REQUEST (beginRequest conf)
        = ⟨BEGIN_REQUEST, 1, beginRequest conf, 0⟩ := by
      rw [recordOf, length_beginRequest, paddingOf_eight]
    rw [records, map_append]
    simp only [map_cons, hbegin]
    split_ifs
    · rfl
    · rw [map_append, map_map]
      rfl

theorem padded_recordOf (type : UInt8) (content : Bytes) : Padded (recordOf type content) :=
  eight_dvd_add_paddingOf content.length

/-- A request cannot be encoded as it should be with a longer name. -/
theorem Encoded.shortNames
    (h : createRequest conf r = some wire) (henc : Encoded conf r wire) : ShortNames conf r := by
  obtain ⟨len, ignored, hpass, hlen, hread⟩ := readRecords_createRequest h
  obtain ⟨-, params, stdin, hrecords, -, -, hpairs, -⟩ := henc
  rw [hread] at hrecords
  obtain ⟨-, rfl, -⟩ := hrecords
  exact (readPairs_writePass hpass hlen).1 hpairs

/-- Nor can it with an empty buffer. -/
theorem Encoded.noEmptyBuf
    (h : createRequest conf r = some wire) (henc : Encoded conf r wire) : NoEmptyBuf conf r := by
  obtain ⟨len, ignored, -, -, hread⟩ := readRecords_createRequest h
  obtain ⟨hflat, hle, hempty⟩ := sentPieces_spec conf r
  obtain ⟨-, params, stdin, hrecords, -, -, -, hstdin, -⟩ := henc
  rw [hread] at hrecords
  obtain ⟨-, -, -, rfl⟩ := hrecords
  refine hempty.2 fun hbuffering => ?_
  rw [hbuffering, ← hflat] at hstdin
  exact (carries_pieces hle).1 hstdin

/-- **A request is encoded as it should be if and only if no name of a parameter is longer
than 127 bytes and no buffer of the body is empty.** -/
theorem encoded_iff {conf : LocConf} {r : Request} {wire : Bytes}
    (h : createRequest conf r = some wire) :
    Encoded conf r wire ↔ ShortNames conf r ∧ NoEmptyBuf conf r := by
  constructor
  · intro henc
    exact ⟨henc.shortNames h, henc.noEmptyBuf h⟩
  · rintro ⟨hshort, hfull⟩
    obtain ⟨len, ignored, hpass, hlen, hread⟩ := readRecords_createRequest h
    obtain ⟨hwritten, -⟩ := writePass_spec hpass
    obtain ⟨hflat, hle, hempty⟩ := sentPieces_spec conf r
    refine ⟨⟨len, ignored, hpass, hwritten⟩, _, _, hread, rfl, rfl,
      (readPairs_writePass hpass hlen).2 hshort, ?_, padded_recordOf _ _, fun s hs => ?_⟩
    · split_ifs with hbuffering
      · rfl
      · rw [← hflat]
        exact (carries_pieces hle).2 (hempty.1 hfull (by simpa using hbuffering))
    · split_ifs at hs
      · exact absurd hs not_mem_nil
      · rcases mem_append.1 hs with hs | hs
        · obtain ⟨p, -, rfl⟩ := mem_map.1 hs
          exact padded_recordOf _ _
        · rw [mem_singleton.1 hs]
          exact Nat.dvd_zero 8

/-- One parameter with the value `1`, and the headers. -/
def oneParam (key : Bytes) : LocConf :=
  let hash := ⟨fun _ => none, 1, fun _ => ⟨none, 0, []⟩, 0, true⟩
  let params := ⟨[⟨key, false, [.copy [0x31]]⟩], 0, hash⟩
  ⟨params, params, true, true, false⟩

/-- A request with the header `X-Y: z` and the body `hi`. -/
def oneHeader : Request :=
  ⟨false, fun _ => none, [], [⟨[0x58, 0x2D, 0x59], [0x7A]⟩], false,
    [⟨true, [0x68, 0x69], none, false, true, false⟩]⟩

/-- What is sent when the name is `A`. -/
def oneHeaderWire : Bytes :=
  [1, 1, 0, 1, 0, 8, 0, 0, 0, 1, 0, 0, 0, 0, 0, 0,
    1, 4, 0, 1, 0, 15, 1, 0, 1, 1, 0x41, 0x31,
    8, 1, 0x48, 0x54, 0x54, 0x50, 0x5F, 0x58, 0x5F, 0x59, 0x7A, 0,
    1, 4, 0, 1, 0, 0, 0, 0,
    1, 5, 0, 1, 0, 2, 6, 0, 0x68, 0x69, 0, 0, 0, 0, 0, 0,
    1, 5, 0, 1, 0, 0, 0, 0]

theorem encoded_iff_oneHeader : createRequest (oneParam [0x41]) oneHeader = some oneHeaderWire
      ∧ Encoded (oneParam [0x41]) oneHeader oneHeaderWire := by
  have h : createRequest (oneParam [0x41]) oneHeader = some oneHeaderWire := by decide
  refine ⟨h, (encoded_iff h).2 ⟨?_, fun _ _ => ?_⟩⟩
  · unfold ShortNames
    decide
  · decide

/-- A name of 128 bytes. -/
def longName : Bytes := replicate 128 0x41

/-- A request with a longer name is sent, and is not what it is to be. -/
theorem not_encoded_longName : (createRequest (oneParam longName) oneHeader).isSome = true
      ∧ ¬ Encoded (oneParam longName) oneHeader
          ((createRequest (oneParam longName) oneHeader).getD []) := by
  have hsome : (createRequest (oneParam longName) oneHeader).isSome = true := by decide +kernel
  obtain ⟨wire, hwire⟩ := Option.isSome_iff_exists.1 hsome
  refine ⟨hsome, fun henc => ?_⟩
  rw [hwire] at henc
  have hshort := henc.shortNames hwire
  have hle : longName.length ≤ 127 := hshort (longName, [0x31]) (by decide)
  rw [longName, length_replicate] at hle
  omega

end FastcgiRequest
