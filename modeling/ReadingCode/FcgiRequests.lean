/-
# The body of a request

However the bytes of the body are cut into records, and the records into what `read` returns,
the calls of `fcgi_read` give them in their order.
-/
import ReadingCode.FastcgiRequest
import ReadingCode.FcgiEnvironment

namespace FcgiInput

open List

variable {req : Request} {fd : List Bytes} {s t content data pad rest out : Bytes}
  {n fuel : ℕ} {type : UInt8}

/-! ## The descriptor -/

theorem safeRead_spec (fd : List Bytes) (n : ℕ) :
    (safeRead fd n).1 = fd.flatten.take n ∧ (safeRead fd n).2.flatten = fd.flatten.drop n := by
  induction fd generalizing n with
  | nil => exact ⟨take_nil.symm, drop_nil.symm⟩
  | cons s fd ih =>
    rw [safeRead, flatten_cons]
    split_ifs with hlt heq
    · refine ⟨(take_append_of_le_length (le_of_lt hlt)).symm, ?_⟩
      rw [flatten_cons, drop_append_of_le_length (le_of_lt hlt)]
    · rw [heq, take_left, drop_left]
      exact ⟨rfl, rfl⟩
    · obtain ⟨htake, hdrop⟩ := ih (n - s.length)
      have hle : s.length ≤ n := not_lt.mp hlt
      dsimp only
      rw [htake, hdrop, take_append, drop_append, take_of_length_le hle, drop_eq_nil_of_le hle]
      exact ⟨rfl, rfl⟩

/-- What comes first is read. -/
theorem read_append (req : Request) (h : req.fd.flatten = s ++ t) (hn : s.length = n) :
    ∃ fd, req.read n = (s, { req with fd := fd }) ∧ fd.flatten = t := by
  obtain ⟨htake, hdrop⟩ := safeRead_spec req.fd n
  subst hn
  rw [h, take_left] at htake
  rw [h, drop_left] at hdrop
  have hpair : safeRead req.fd s.length = (s, (safeRead req.fd s.length).2) :=
    Prod.ext htake rfl
  refine ⟨(safeRead req.fd s.length).2, ?_, hdrop⟩
  rw [Request.read, hpair]

/-! ## Records -/

/-- The bytes `s` are a record with this content and padding. -/
def IsRecord (type : UInt8) (content pad s : Bytes) : Prop :=
  ∃ version idB1 idB0 lenB1 lenB0 padding reserved : UInt8, ¬ version < 1 ∧
    content.length = lenB1.toNat * 256 + lenB0.toNat ∧ pad.length = padding.toNat ∧
    s = [version, type, idB1, idB0, lenB1, lenB0, padding, reserved] ++ (content ++ pad)

/-- The header of a record is read. -/
theorem readHeader_record (req : Request) (hs : IsRecord type content pad s)
    (h : req.fd.flatten = s ++ t) :
    ∃ hdr fd, req.readHeader = (some hdr, { req with fd := fd }) ∧
      hdr.type = type ∧ hdr.len = content.length ∧ hdr.padding = pad.length ∧
      fd.flatten = content ++ (pad ++ t) := by
  obtain ⟨version, idB1, idB0, lenB1, lenB0, padding, reserved, hversion, hlen, hpad, rfl⟩ := hs
  rw [append_assoc] at h
  obtain ⟨fd, hread, hfd⟩ := read_append req (n := 8) h rfl
  rw [Request.readHeader, hread]
  dsimp only [headerOf]
  rw [if_neg hversion]
  refine ⟨_, fd, rfl, rfl, hlen.symm, hpad.symm, ?_⟩
  rw [hfd, append_assoc]

/-- The bytes `s` are records of one type with the content `data`, up to the empty record that
ends it. -/
inductive IsStream (type : UInt8) : Bytes → Bytes → Prop
  | last {s pad : Bytes} (hs : IsRecord type [] pad s) : IsStream type s []
  | more {s t content pad data : Bytes} (hs : IsRecord type content pad s)
      (hne : content ≠ []) (ht : IsStream type t data) :
      IsStream type (s ++ t) (content ++ data)

/-! ## Reading -/

/-- In a request whose record is open there is the rest of it. -/
structure Open (req : Request) (data rest : Bytes) : Prop where
  exists_rest : ∃ content pad t data', content ≠ [] ∧ content.length = req.inLen ∧
    pad.length = req.inPad ∧ IsStream STDIN t data' ∧ data = content ++ data' ∧
    req.fd.flatten = content ++ (pad ++ (t ++ rest))

/-- What is left of a request is `data` of its body, and then `rest`. -/
def Remaining (req : Request) (data rest : Bytes) : Prop :=
  (req.inLen = 0 ∧ ∃ t, IsStream STDIN t data ∧ req.fd.flatten = t ++ rest) ∨ Open req data rest

theorem Open.inLen_ne_zero (h : Open req data rest) : req.inLen ≠ 0 := by
  obtain ⟨content, pad, t, data', hne, hlen, -⟩ := h.exists_rest
  rw [← hlen]
  exact fun hzero => hne (eq_nil_of_length_eq_zero hzero)

/-- The next record of the body that has some. -/
theorem openRecord_of_ne_nil (h : Remaining req data rest) (hne : data ≠ []) :
    ∃ req', req.openRecord = (true, req') ∧ Open req' data rest := by
  rcases h with ⟨hzero, t, ht, hfd⟩ | hopen
  · cases ht with
    | last hs => exact absurd rfl hne
    | more hs hcontent ht =>
      rw [append_assoc] at hfd
      obtain ⟨hdr, fd, hread, htype, hlen, hpad, hfd'⟩ := readHeader_record req hs hfd
      rw [Request.openRecord, if_pos hzero, hread]
      dsimp only
      rw [if_neg (not_not_intro htype)]
      exact ⟨_, rfl, ⟨_, _, _, _, hcontent, hlen.symm, hpad.symm, ht, rfl, hfd'⟩⟩
  · rw [Request.openRecord, if_neg hopen.inLen_ne_zero]
    exact ⟨req, rfl, hopen⟩

/-- The empty record at the end. -/
theorem openRecord_of_nil (h : Remaining req [] rest) :
    ∃ req', req.openRecord = (true, req') ∧ req'.inLen = 0 := by
  rcases h with ⟨hzero, t, ht, hfd⟩ | hopen
  · generalize hdata : ([] : Bytes) = data at ht
    cases ht with
    | last hs =>
      obtain ⟨hdr, fd, hread, htype, hlen, -, -⟩ := readHeader_record req hs hfd
      rw [Request.openRecord, if_pos hzero, hread]
      dsimp only
      rw [if_neg (not_not_intro htype)]
      exact ⟨_, rfl, hlen⟩
    | more hs hcontent ht => exact absurd (append_eq_nil_iff.mp hdata.symm).1 hcontent
  · obtain ⟨content, pad, t, data', hne, -, -, -, hdata, -⟩ := hopen.exists_rest
    exact absurd (append_eq_nil_iff.mp hdata.symm).1 hne

/-- **The loop** reads the next bytes of the body. -/
theorem readLoop_spec (h : Remaining req data rest) (hfuel : n ≤ fuel) (out : Bytes) :
    (readLoop fuel n out req).1 = out ++ data.take n ∧
      (n ≤ data.length → Remaining (readLoop fuel n out req).2 (data.drop n) rest) := by
  induction fuel generalizing n out req data with
  | zero =>
    obtain rfl := Nat.le_zero.mp hfuel
    exact ⟨(append_nil out).symm, fun _ => h⟩
  | succ fuel ih =>
    rw [readLoop]
    by_cases hn : n = 0
    · rw [hn]
      exact ⟨(append_nil out).symm, fun _ => h⟩
    rw [if_neg hn]
    by_cases hne : data = []
    · subst hne
      obtain ⟨req', hopen, hzero⟩ := openRecord_of_nil h
      rw [hopen]
      dsimp only
      rw [if_pos hzero]
      refine ⟨by rw [take_nil, append_nil], fun hle => ?_⟩
      exact absurd (Nat.le_zero.mp hle) hn
    obtain ⟨req', hrec, hopen⟩ := openRecord_of_ne_nil h hne
    rw [hrec]
    dsimp only
    rw [if_neg hopen.inLen_ne_zero]
    obtain ⟨content, pad, t, data', hcontent, hlen, hpad, ht, rfl, hfd⟩ := hopen.exists_rest
    have hpos := length_pos_iff.mpr hcontent
    by_cases hlt : n < content.length
    · -- the record has more than is asked for
      rw [if_pos (show req'.inLen ≥ n by omega)]
      rw [← take_append_drop n content, append_assoc] at hfd
      have htake : (content.take n).length = n := length_take_of_le (Nat.le_of_lt hlt)
      obtain ⟨fd, hread, hfd'⟩ := read_append _ hfd htake
      rw [hread]
      dsimp only
      have hsome : content.take n ≠ [] := by
        intro hnil
        rw [hnil] at htake
        exact hn htake.symm
      rw [if_neg hsome, if_neg (by omega), take_append_of_le_length (Nat.le_of_lt hlt),
        drop_append_of_le_length (Nat.le_of_lt hlt)]
      refine ⟨rfl, fun _ => .inr ⟨content.drop n, pad, t, data', ?_, ?_, hpad, ht, rfl, hfd'⟩⟩
      · intro hnil
        have hdrop := congrArg List.length hnil
        rw [length_drop, length_nil] at hdrop
        omega
      · rw [length_drop, htake, hlen]
    · -- the rest of the record, and then the next one
      have hcount : (if req'.inLen ≥ n then n else req'.inLen) = content.length := by
        split_ifs <;> omega
      obtain ⟨fd, hread, hfd'⟩ := read_append _ hfd hcount.symm
      rw [hread]
      have hdrop : n - content.length ≤ fuel := by omega
      have hsplit : ∀ req'' : Request, Remaining req'' data' rest →
          (readLoop fuel (n - content.length) (out ++ content) req'').1
              = out ++ (content ++ data').take n ∧
            (n ≤ (content ++ data').length →
              Remaining (readLoop fuel (n - content.length) (out ++ content) req'').2
                ((content ++ data').drop n) rest) := by
        intro req'' hrem
        obtain ⟨hout, hrest⟩ := ih hrem hdrop (out ++ content)
        have hle : content.length ≤ n := Nat.not_lt.mp hlt
        rw [take_append, drop_append, take_of_length_le hle,
          drop_eq_nil_of_le hle, hout, append_assoc]
        refine ⟨rfl, fun hle => hrest ?_⟩
        rw [length_append] at hle
        omega
      rw [if_neg hcontent, if_pos (by rw [hlen]; exact Nat.sub_self _)]
      by_cases hpadding : req'.inPad = 0
      · rw [if_neg (not_not_intro hpadding)]
        have hnil : pad = [] := eq_nil_of_length_eq_zero (hpad.trans hpadding)
        rw [hnil] at hfd'
        exact hsplit _ (.inl ⟨by rw [hlen]; exact Nat.sub_self _, t, ht, hfd'⟩)
      · rw [if_pos hpadding]
        obtain ⟨fd'', hread', hfd''⟩ := read_append { req' with
          fd := fd, inLen := req'.inLen - content.length } hfd' hpad
        rw [hread']
        rw [if_neg (not_not_intro hpad)]
        exact hsplit _ (.inl ⟨by rw [hlen]; exact Nat.sub_self _, t, ht, hfd''⟩)

/-- The calls of `fcgi_read` with these lengths. -/
def readCalls : List ℕ → Request → List Bytes × Request
  | [], req => ([], req)
  | len :: lens, req =>
    let (s, req) := fcgiRead len req
    let (ss, req) := readCalls lens req
    (s :: ss, req)

/-- **The body is a stream**: as long as no call asks for more than there is, every call gives
the next bytes, and the one that does gives what is left. -/
theorem readCalls_spec (h : Remaining req data rest) (lens : List ℕ) (len : ℕ)
    (hlens : lens.sum ≤ data.length) :
    (readCalls (lens ++ [len]) req).1.flatten = data.take (lens.sum + len) := by
  induction lens generalizing req data with
  | nil =>
    have hread := (readLoop_spec h (Nat.le_refl len) []).1
    rw [nil_append, readCalls, fcgiRead]
    dsimp only
    rw [hread, sum_nil, Nat.zero_add]
    exact append_nil _
  | cons n lens ih =>
    rw [sum_cons] at hlens
    obtain ⟨hread, hrest⟩ := readLoop_spec h (Nat.le_refl n) []
    have hrem := hrest (by omega)
    have hih := ih hrem (by rw [length_drop]; omega)
    rw [cons_append, readCalls, fcgiRead]
    rw [flatten_cons, hread, hih, sum_cons, Nat.add_assoc]
    exact take_add.symm

/-!
# Requests

Pairs are decoded record by record, so a pair that goes over the end of a record is no pair, and the
request fails.
-/

open FastcgiWire

open Option

variable {req : Request} {s t u p content pad name var val role : Bytes} {n fuel : ℕ}
  {buf : ℕ → UInt8} {env : Env} {l : List (ℕ × Bytes × Bytes)}
  {ps qs : List (Bytes × Bytes)} {hdr : Header}

/-! ## Variables -/

/-- The last value of a name. -/
def lastValue (ps : List (Bytes × Bytes)) (name : Bytes) : Option Bytes :=
  (ps.reverse.find? fun p => p.1 = name).map Prod.snd

theorem lastValue_cons (p : Bytes × Bytes) (ps : List (Bytes × Bytes)) (name : Bytes) :
    lastValue (p :: ps) name = (lastValue ps name).or (if p.1 = name then some p.2 else none) := by
  rw [lastValue, reverse_cons, find?_append, map_or]
  rw [find?_singleton]
  by_cases hp : p.1 = name
  · rw [if_pos hp, if_pos (decide_eq_true hp)]
    rfl
  · rw [if_neg hp, if_neg (by rw [decide_eq_true_iff]; exact hp)]
    rfl

theorem setAll_sound (hs : env.Sound) (l : List (ℕ × Bytes × Bytes)) : (env.setAll l).Sound := by
  induction l generalizing env with
  | nil => exact hs
  | cons x l ih => exact ih (set_spec hs x.1 x.2.1 x.2.2).1

/-- A name that has one hash value wherever it is has its last value. -/
theorem value_setAll (name : Bytes) (hs : env.Sound) (hl : ∀ x ∈ l, x.2.1 = name → x.1 = n) :
    (env.setAll l).value n name = (lastValue (l.map Prod.snd) name).or (env.value n name) := by
  induction l generalizing env with
  | nil => rfl
  | cons x l ih =>
    obtain ⟨hs', hvalue⟩ := set_spec hs x.1 x.2.1 x.2.2
    have hih := ih hs' fun y hy => hl y (mem_cons_of_mem x hy)
    rw [Env.setAll] at hih ⊢
    rw [foldl_cons, hih, hvalue, map_cons, lastValue_cons, Option.or_assoc]
    by_cases hx : x.2.1 = name
    · rw [if_pos ⟨(hl x mem_cons_self hx).symm, hx.symm⟩, if_pos hx]
      rfl
    · rw [if_neg fun h => hx h.2.symm, if_neg hx]
      rfl

/-- A name whose hash value is the same for its reader as for the record that has it. -/
def Plain (name : Bytes) : Prop :=
  name.length ≠ 3 ∧ ∀ i ∈ hashReads name.length, name.getD i 0 < 128

instance (name : Bytes) : Decidable (Plain name) :=
  inferInstanceAs (Decidable (_ ∧ ∀ i ∈ hashReads name.length, name.getD i 0 < 128))

theorem hashFunc_of_plain (h : Plain name) :
    hashFunc fromChar (fun i => name.getD i 0) name.length = nameHash name := by
  have hcast : ∀ i ∈ hashReads name.length,
      fromChar (name.getD i 0) = fromUChar (name.getD i 0) := fun i hi => if_pos (h.2 i hi)
  rw [nameHash, hashFunc, hashFunc]
  rw [hashReads] at hcast
  split_ifs with hshort
  · rfl
  · rw [if_neg hshort] at hcast
    rw [hcast 3 mem_cons_self, hcast _ (mem_cons_of_mem _ mem_cons_self),
      hcast _ (mem_cons_of_mem _ (mem_cons_of_mem _ mem_cons_self))]

/-- What `fcgi_getenv` gives for a name: a pointer to its value with a NUL behind it, or none. -/
def Finds (env : Env) (name : Bytes) : Option Bytes → Prop
  | none => env.getenv name = none
  | some val => ∃ p, env.getenv name = some p ∧ load env.data.mem p val.length = val ∧
      env.data.mem (p + val.length) = 0

theorem finds_of_value (hs : env.Sound) (h : Plain name) :
    Finds env name (env.value (nameHash name) name) := by
  rw [Env.value]
  cases hget : env.get (nameHash name) name with
  | none =>
    rw [map_none, Finds, Env.getenv, hashFunc_of_plain h, hget]
    rfl
  | some q =>
    obtain ⟨p, n⟩ := q
    obtain ⟨val, -, hlen, hload, hstored⟩ := get_spec hs hget
    rw [map_some]
    dsimp only
    rw [hload, Finds, hlen]
    refine ⟨p, ?_, hload, hstored.2⟩
    rw [Env.getenv, hashFunc_of_plain h, hget]
    rfl

/-! ## PARAMS records -/

/-- The bytes `s` are a PARAMS record with whole pairs. -/
structure IsPairs (s : Bytes) (ps : List (Bytes × Bytes)) : Prop where
  exists_record : ∃ content pad, IsRecord PARAMS content pad s ∧ content ≠ [] ∧
    content.length + pad.length ≤ MAX_LENGTH ∧ readPairs content = some ps ∧
    ¬ EndsCramped content

/-- The bytes are PARAMS records with whole pairs, and an empty one without padding. -/
inductive IsParams : Bytes → List (Bytes × Bytes) → Prop
  | last {s : Bytes} (hs : IsRecord PARAMS [] [] s) : IsParams s []
  | more {s t : Bytes} {ps qs : List (Bytes × Bytes)} (hs : IsPairs s ps)
      (ht : IsParams t qs) : IsParams (s ++ t) (ps ++ qs)

/-- The bytes are PARAMS records with whole pairs, and then one that has something else. -/
inductive IsBroken : Bytes → Prop
  | here {s content pad : Bytes} (hs : IsRecord PARAMS content pad s)
      (hbad : readPairs content = none) : IsBroken s
  | there {s t : Bytes} {ps : List (Bytes × Bytes)} (hs : IsPairs s ps)
      (ht : IsBroken t) : IsBroken (s ++ t)

theorem length_record (h : IsRecord type content pad s) :
    s.length = 8 + (content.length + pad.length) := by
  obtain ⟨version, idB1, idB0, lenB1, lenB0, padding, reserved, -, -, -, rfl⟩ := h
  rw [length_append, length_append]
  rfl

/-- The next header of the loop over the PARAMS records, and the loop from there. -/
def nextParams (fuel : ℕ) (buf : ℕ → UInt8) (req : Request) : Bool × Request :=
  match req.readHeader with
  | (none, req) => (false, { req with keep := false })
  | (some hdr, req) => readParams fuel buf hdr req

/-- The content of a record that fits is read into the buffer. -/
theorem readParams_record (req : Request) (htype : hdr.type = PARAMS)
    (hlen : hdr.len = content.length)
    (hpad : hdr.padding = pad.length) (hne : content ≠ [])
    (hmax : content.length + pad.length ≤ MAX_LENGTH)
    (hfd : req.fd.flatten = content ++ (pad ++ t)) (fuel : ℕ) (buf : ℕ → UInt8) :
    ∃ fd, fd.flatten = t ∧ load (store buf 0 (content ++ pad)) 0 content.length = content ∧
      readParams (fuel + 1) buf hdr req
        = match params (store buf 0 (content ++ pad)) content.length { req with fd := fd } with
          | (false, req) => (false, { req with keep := false })
          | (true, req) => nextParams fuel (store buf 0 (content ++ pad)) req := by
  have hpos := length_pos_iff.mpr hne
  rw [← append_assoc] at hfd
  obtain ⟨fd, hread, hfd'⟩ := read_append req hfd (length_append)
  refine ⟨fd, hfd', load_store _ _ _ _, ?_⟩
  rw [readParams, if_pos ⟨htype, by omega⟩, if_neg (by omega), hlen, hpad, hread]
  dsimp only
  rw [if_neg (not_not_intro length_append)]
  rfl

/-- A record with whole pairs sets its names. -/
theorem nextParams_pairs (hs : IsPairs s ps) (hfd : req.fd.flatten = s ++ t) (fuel : ℕ)
    (buf : ℕ → UInt8) : ∃ buf' l req', nextParams (fuel + 1) buf req = nextParams fuel buf' req' ∧
      l.map Prod.snd = ps ∧ (∀ x ∈ l, x.2.1.length ≠ 3 → x.1 = nameHash x.2.1) ∧
      req'.env = req.env.setAll l ∧ req'.inLen = req.inLen ∧ req'.fd.flatten = t := by
  obtain ⟨content, pad, hrecord, hne, hmax, hpairs, hcramped⟩ := hs.exists_record
  obtain ⟨hdr, fd, hread, htype, hlen, hpad, hfd'⟩ := readHeader_record req hrecord hfd
  obtain ⟨fd', hfd'', hload, hstep⟩ := readParams_record { req with fd := fd } htype hlen
    hpad hne hmax hfd' fuel buf
  obtain ⟨c', l, hget, hmap, hhash⟩ := getParams_of_pairs
    (c := ⟨content, store buf 0 (content ++ pad) content.length, false⟩) hpairs hcramped
    (Nat.le_refl content.length) req.env
  refine ⟨store buf 0 (content ++ pad), l,
    { req with env := req.env.setAll l, fd := fd', outside := req.outside || c'.outside }, ?_,
    hmap, hhash, rfl, rfl, hfd''⟩
  rw [nextParams, hread]
  dsimp only
  rw [hstep, params]
  rw [hload, hget]

/-- **PARAMS records** with whole pairs are all taken. -/
theorem nextParams_params (hp : IsParams p ps) (hfd : req.fd.flatten = p ++ u)
    (hfuel : p.length ≤ fuel) (buf : ℕ → UInt8) :
    ∃ l req', nextParams fuel buf req = (true, req') ∧ l.map Prod.snd = ps ∧
      (∀ x ∈ l, x.2.1.length ≠ 3 → x.1 = nameHash x.2.1) ∧
      req'.env = req.env.setAll l ∧ req'.inLen = req.inLen ∧ req'.fd.flatten = u := by
  induction hp generalizing req fuel buf with
  | last hs =>
    obtain ⟨hdr, fd, hread, -, hlen, -, hfd'⟩ := readHeader_record req hs hfd
    refine ⟨[], { req with fd := fd }, ?_, rfl, nofun, rfl, rfl, hfd'⟩
    rw [nextParams, hread]
    cases fuel with
    | zero => rfl
    | succ fuel =>
      dsimp only
      rw [readParams, if_neg (by rw [hlen]; exact fun h => absurd h.2 (lt_irrefl 0))]
  | @more s t ps qs hs ht ih =>
    rw [append_assoc] at hfd
    rw [length_append] at hfuel
    obtain ⟨content, pad, hrecord, -⟩ := hs.exists_record
    have hlen := length_record hrecord
    obtain ⟨fuel, rfl⟩ : ∃ m, fuel = m + 1 := ⟨fuel - 1, by omega⟩
    obtain ⟨buf', l, req1, hstep, hmap, hhash, henv, hin, hfd'⟩ := nextParams_pairs hs hfd fuel buf
    have hfuel' : t.length ≤ fuel := by omega
    obtain ⟨l', req', hrest, hmap', hhash', henv', hin', hfd''⟩ := ih hfd' hfuel' buf'
    refine ⟨l ++ l', req', hstep.trans hrest, ?_, ?_, ?_, hin'.trans hin, hfd''⟩
    · rw [map_append, hmap, hmap']
    · intro x hx
      rcases mem_append.mp hx with hx | hx
      · exact hhash x hx
      · exact hhash' x hx
    · rw [henv', henv, Env.setAll, Env.setAll, Env.setAll, foldl_append]

/-- A record that does not hold pairs makes the request fail. -/
theorem nextParams_broken (hp : IsBroken p) (hfd : req.fd.flatten = p ++ u)
    (hfuel : p.length ≤ fuel) (buf : ℕ → UInt8) : (nextParams fuel buf req).1 = false := by
  induction hp generalizing req fuel buf with
  | @here s content pad hs hbad =>
    have hlen := length_record hs
    obtain ⟨fuel, rfl⟩ : ∃ m, fuel = m + 1 := ⟨fuel - 1, by omega⟩
    have hne : content ≠ [] := by
      rintro rfl
      cases hbad
    have hpos := length_pos_iff.mpr hne
    obtain ⟨hdr, fd, hread, htype, hlen, hpad, hfd'⟩ := readHeader_record req hs hfd
    rw [nextParams, hread]
    dsimp only
    by_cases hmax : content.length + pad.length ≤ MAX_LENGTH
    · obtain ⟨fd', -, hload, hstep⟩ := readParams_record { req with fd := fd } htype hlen
        hpad hne hmax hfd' fuel buf
      rw [hstep, params]
      dsimp only
      rw [hload]
      have hbad := (getParams_of_malformed (c := ⟨content, store buf 0 (content ++ pad)
        content.length, false⟩) hbad (Nat.le_refl content.length) req.env).1
      rw [hbad]
    · rw [readParams, if_pos ⟨htype, by omega⟩, if_pos (by omega)]
  | there hs ht ih =>
    rw [append_assoc] at hfd
    rw [length_append] at hfuel
    obtain ⟨content, pad, hrecord, -⟩ := hs.exists_record
    have hlen := length_record hrecord
    obtain ⟨fuel, rfl⟩ : ∃ m, fuel = m + 1 := ⟨fuel - 1, by omega⟩
    obtain ⟨buf', l, req1, hstep, -, -, -, -, hfd'⟩ := nextParams_pairs hs hfd fuel buf
    rw [hstep]
    exact ih hfd' (by omega) buf'

/-! ## Requests -/

/-- The bytes are a BEGIN_REQUEST record with a role that is known. -/
def IsBegin (s role : Bytes) : Prop :=
  ∃ roleB1 roleB0 flags r1 r2 r3 r4 r5 pad,
    IsRecord BEGIN_REQUEST [roleB1, roleB0, flags, r1, r2, r3, r4, r5] pad s ∧
      roleValue (roleB1.toNat * 256 + roleB0.toNat) = some role

theorem skipStdin_of_ne (h : hdr.type ≠ STDIN) (fuel : ℕ) (req : Request) :
    skipStdin fuel hdr req = (some hdr, req) := by
  cases fuel with
  | zero => rfl
  | succ fuel =>
    rw [skipStdin, if_neg]
    exact fun hno => h hno.1

/-- A request begins: what is behind its first record goes on with the role as a variable. -/
theorem readRequest_begin (hb : IsBegin s role) (hfd : req.fd.flatten = s ++ t) (buf : ℕ → UInt8) :
    ∃ buf' req', req'.fd.flatten = t ∧ req'.inLen = 0 ∧
      req'.env = req.env.clean.set (nameHash roleName) roleName role ∧
      (∀ r, nextParams req.fd.flatten.length buf' req' = (true, r) →
        readRequest buf req = (true, r)) ∧ ((nextParams req.fd.flatten.length buf' req').1 = false →
        (readRequest buf req).1 = false) := by
  obtain ⟨roleB1, roleB0, flags, r1, r2, r3, r4, r5, pad, hrecord, hrole⟩ := hb
  have hpad8 : pad.length < 256 := by
    obtain ⟨_, _, _, _, _, padding, _, -, -, hpad, -⟩ := hrecord
    rw [hpad]
    exact padding.toNat_lt
  obtain ⟨hdr, fd, hread, htype, hlen, hpad, hfd'⟩ := readHeader_record
    { req with keep := false, inLen := 0, env := req.env.clean } hrecord hfd
  rw [← append_assoc] at hfd'
  have hlen8 : hdr.len = 8 := hlen
  obtain ⟨fd', hread', hfd''⟩ := read_append
    { req with
      keep := false, inLen := 0, env := req.env.clean, fd := fd, id := hdr.id }
    (n := hdr.len + hdr.padding) hfd' (by rw [length_append, hlen, hpad])
  generalize hbuf' : store buf 0 ([roleB1, roleB0, flags, r1, r2, r3, r4, r5] ++ pad) = buf'
  generalize hreq' : ({ req with
    keep := decide ((buf' 2).toNat % 2 = 1)
    inLen := 0
    env := req.env.clean.set (nameHash roleName) roleName role
    fd := fd'
    id := hdr.id } : Request) = req'
  -- the second half of the request, from the header of the next record on
  have hrest : readRequest buf req = match req'.readHeader with
      | (none, r) => (false, r)
      | (some hdr, r) => readParams req.fd.flatten.length buf' hdr r := by
    have hmax : ¬ hdr.len + hdr.padding > MAX_LENGTH := by
      rw [hlen8, hpad]
      exact not_lt.mpr (show 8 + pad.length ≤ 65535 by omega)
    have hrole' : roleValue ((buf' 0).toNat * 256 + (buf' 1).toNat) = some role := by
      rw [← hbuf']
      exact hrole
    rw [readRequest]
    rw [hread]
    dsimp only
    rw [skipStdin_of_ne (by rw [htype]; decide)]
    dsimp only
    rw [if_neg hmax, if_pos ⟨htype, hlen8⟩, beginRequest, hread']
    dsimp only
    rw [if_neg (not_not_intro (by rw [length_append, hlen, hpad])), hbuf', hrole']
    subst hreq'
    rfl
  refine ⟨buf', req', ?_, ?_, ?_, fun r hnext => ?_, fun hnext => ?_⟩
  · rw [← hreq']
    exact hfd''
  · rw [← hreq']
  · rw [← hreq']
  · rw [hrest]
    rw [nextParams] at hnext
    split at hnext
    · cases hnext
    · exact hnext
  · rw [hrest]
    rw [nextParams] at hnext
    split at hnext
    · rfl
    · exact hnext

/-! ## The input as a stream -/

/-- A request with whole pairs in its records is accepted. -/
theorem readRequest_spec {b d : Bytes} (hb : IsBegin b role) (hp : IsParams p ps)
    (hd : IsStream STDIN d data) (hfd : req.fd.flatten = b ++ (p ++ (d ++ rest)))
    (buf : ℕ → UInt8) : ∃ req', readRequest buf req = (true, req') ∧ Remaining req' data rest ∧
      ∀ name, Plain name → Finds req'.env name (lastValue ((roleName, role) :: ps) name) := by
  obtain ⟨buf', req1, hfd', hin, henv, haccept, -⟩ := readRequest_begin hb hfd buf
  have hfuel : p.length ≤ req.fd.flatten.length := by
    rw [hfd, length_append, length_append]
    omega
  obtain ⟨l, req2, hnext, hmap, hhash, henv', hin', hfd''⟩ := nextParams_params hp hfd' hfuel buf'
  refine ⟨req2, haccept req2 hnext, .inl ⟨hin'.trans hin, d, hd, hfd''⟩, fun name hplain => ?_⟩
  have hclean := clean_sound req.env
  have hall : req2.env = req.env.clean.setAll ((nameHash roleName, roleName, role) :: l) := by
    rw [henv', henv]
    rfl
  have hvalue := value_setAll name (l := (nameHash roleName, roleName, role) :: l)
    (n := nameHash name) hclean (by
      intro x hx hname
      rcases mem_cons.mp hx with rfl | hx
      · exact congrArg nameHash hname
      · rw [← hname]
        exact hhash x hx (by rw [hname]; exact hplain.1))
  rw [value_clean, or_none, map_cons, hmap] at hvalue
  rw [hall, ← hvalue]
  exact finds_of_value (setAll_sound hclean _) hplain

/-- **The input is a stream** of pairs, record by record, and of the bytes of the body; where a
record has something else the request fails, and no byte behind its content is read. -/
theorem readRequest_stream : (∀ (req : Request) (buf : ℕ → UInt8) (b role p : Bytes)
        (ps : List (Bytes × Bytes)) (d data rest : Bytes),
      IsBegin b role → IsParams p ps → IsStream STDIN d data →
      req.fd.flatten = b ++ (p ++ (d ++ rest)) → ∃ req', readRequest buf req = (true, req') ∧
        (∀ name, Plain name → Finds req'.env name (lastValue ((roleName, role) :: ps) name)) ∧
        ∀ (lens : List ℕ) (len : ℕ), lens.sum ≤ data.length →
          (readCalls (lens ++ [len]) req').1.flatten = data.take (lens.sum + len)) ∧
      (∀ (req : Request) (buf : ℕ → UInt8) (b role p rest : Bytes),
        IsBegin b role → IsBroken p → req.fd.flatten = b ++ (p ++ rest) →
        (readRequest buf req).1 = false) ∧
      ∀ (req : Request) (buf : ℕ → UInt8) (len : ℕ), readPairs (load buf 0 len) = none →
        (params buf len req).1 = false ∧ (params buf len req).2.outside = req.outside := by
  refine ⟨?_, ?_, ?_⟩
  · intro req buf b role p ps d data rest hb hp hd hfd
    obtain ⟨req', hread, hrem, hfinds⟩ := readRequest_spec hb hp hd hfd buf
    exact ⟨req', hread, hfinds, fun lens len hlens => readCalls_spec hrem lens len hlens⟩
  · intro req buf b role p rest hb hp hfd
    obtain ⟨buf', req1, hfd', -, -, -, hfail⟩ := readRequest_begin hb hfd buf
    have hfuel : p.length ≤ req.fd.flatten.length := by
      rw [hfd, length_append, length_append]
      omega
    exact hfail (nextParams_broken hp hfd' hfuel buf')
  · intro req buf len hbad
    obtain ⟨hok, hout⟩ := getParams_of_malformed (c := ⟨load buf 0 len, buf len, false⟩) hbad
      (le_of_eq (length_load buf 0 len)) req.env
    refine ⟨hok, ?_⟩
    rw [params]
    dsimp only
    rw [hout, Bool.or_false]

/-! ## Examples -/

/-- A request with nothing in its table and these bytes to come. -/
def Request.ofBytes (s : Bytes) : Request :=
  ⟨false, 0, 0, 0, ⟨fun _ => [], ⟨fun _ => 0, 0, SEG_SIZE⟩⟩, [s], false⟩

/-- A BEGIN_REQUEST record for a responder. -/
def responder : Bytes := [1, 1, 0, 1, 0, 8, 0, 0, 0, 1, 0, 0, 0, 0, 0, 0]

theorem responder_isBegin : IsBegin responder [82, 69, 83, 80, 79, 78, 68, 69, 82] := by
  refine ⟨0, 1, 0, 0, 0, 0, 0, 0, [], ⟨1, 0, 1, 0, 8, 0, 0, by decide, by decide, by decide, ?_⟩,
    by decide⟩
  decide

/-- A record without padding. -/
theorem isRecord_short {len : UInt8} (type : UInt8) (hlen : content.length = len.toNat) :
    IsRecord type content [] ([1, type, 0, 1, 0, len, 0, 0] ++ (content ++ [])) := by
  refine ⟨1, 0, 1, 0, len, 0, 0, by decide, ?_, by decide, rfl⟩
  rw [hlen]
  exact (Nat.zero_add _).symm

/-- The record for `HOST`, and the end of the PARAMS records. -/
def hostParams : Bytes :=
  ([1, 4, 0, 1, 0, 7, 0, 0] ++ ([4, 1, 72, 79, 83, 84, 104] ++ [])) ++
    ([1, 4, 0, 1, 0, 0, 0, 0] ++ ([] ++ []))

/-- The body `xyz` in two records, of which the first has padding. -/
def body : Bytes :=
  ([1, 5, 0, 1, 0, 2, 1, 0] ++ ([120, 121] ++ [0])) ++
    (([1, 5, 0, 1, 0, 1, 0, 0] ++ ([122] ++ [])) ++ ([1, 5, 0, 1, 0, 0, 0, 0] ++ ([] ++ [])))

theorem hostParams_isParams : IsParams hostParams ([([72, 79, 83, 84], [104])] ++ []) := by
  refine .more ⟨[4, 1, 72, 79, 83, 84, 104], [], isRecord_short PARAMS rfl, nofun, by decide,
    ?_, ?_⟩ (.last (isRecord_short PARAMS rfl))
  · rfl
  · intro hcramped
    cases hcramped with
    | here h => exact absurd h (by rw [Cramped]; decide)
    | there hp h =>
      obtain ⟨-, rfl⟩ := Prod.mk.inj (Option.some.inj hp)
      cases h with
      | here h => exact absurd h (by rw [Cramped]; decide)
      | there hp h => cases hp

theorem body_isStream : IsStream STDIN body ([120, 121] ++ ([122] ++ [])) := by
  have hfirst : IsRecord STDIN [120, 121] [0] ([1, 5, 0, 1, 0, 2, 1, 0] ++ ([120, 121] ++ [0])) :=
    ⟨1, 0, 1, 0, 2, 1, 0, by decide, by decide, by decide, rfl⟩
  exact .more hfirst nofun (.more (isRecord_short STDIN rfl) nofun
    (.last (isRecord_short STDIN rfl)))

/-- The variable `HOST` and the body, which is read in pieces of two bytes. -/
theorem readRequest_stream_host : ∃ req', readRequest (fun _ => 0)
        (Request.ofBytes (responder ++ (hostParams ++ (body ++ [])))) = (true, req') ∧
      Finds req'.env [72, 79, 83, 84] (some [104]) ∧ Finds req'.env [80, 65, 84, 72] none ∧
      (readCalls [2, 2] req').1.flatten = [120, 121, 122] := by
  obtain ⟨req', hread, hfinds, hbody⟩ := readRequest_stream.1
    (.ofBytes (responder ++ (hostParams ++ (body ++ [])))) (fun _ => 0) responder _
    hostParams _ body _ [] responder_isBegin hostParams_isParams body_isStream
    flatten_singleton
  exact ⟨req', hread, hfinds [72, 79, 83, 84] (by decide), hfinds [80, 65, 84, 72] (by decide),
    hbody [2] 2 (by decide)⟩

/-- The pair `a=b` in two records. -/
def cutParams : Bytes :=
  ([1, 4, 0, 1, 0, 3, 0, 0] ++ ([1, 1, 97] ++ [])) ++
    (([1, 4, 0, 1, 0, 1, 0, 0] ++ ([98] ++ [])) ++ ([1, 4, 0, 1, 0, 0, 0, 0] ++ ([] ++ [])))

/-- A pair that is cut is not accepted. -/
theorem not_readRequest_cut : ¬ ∀ (req : Request) (b role p s : Bytes) (ps : List (Bytes × Bytes))
        (d data : Bytes),
      IsBegin b role → readPairs s = some ps → IsStream PARAMS p s → IsStream STDIN d data →
      req.fd.flatten = b ++ (p ++ d) → (readRequest (fun _ => 0) req).1 = true := by
  intro h
  have hpairs : readPairs [1, 1, 97, 98] = some [([97], [98])] := by
    rfl
  have hcut : IsStream PARAMS cutParams ([1, 1, 97] ++ ([98] ++ [])) :=
    .more (isRecord_short PARAMS rfl) nofun (.more (isRecord_short PARAMS rfl) nofun
      (.last (isRecord_short PARAMS rfl)))
  have haccept := h (Request.ofBytes (responder ++ (cutParams ++ body))) responder _ cutParams _ _
    body _ responder_isBegin hpairs hcut body_isStream flatten_singleton
  exact absurd haccept (by decide)

/-!
# From nginx to PHP

What `ngx_http_fastcgi_create_request` writes is read by `fcgi_read_request` and `fcgi_read`.  Only
the reader counts the padding: parameters of almost 64 K are sent, and not accepted.
-/

open FastcgiRequest (LocConf NoEmptyBuf ShortNames createRequest length_flatMap_pairBytes oneHeader
  oneHeaderWire oneParam paddingOf pairBytes readLength_putLength readPairs_flatMap recordBytes
  sentBody sentPairs toNat_uchar uchar)

variable {conf : LocConf} {r : FastcgiRequest.Request} {content : Bytes}
  {ps : List (Bytes × Bytes)}

/-- A record that is written is one that is read. -/
theorem isRecord_recordBytes (type : UInt8) (h : content.length < 2 ^ 16) :
    IsRecord type content (replicate (paddingOf content.length) 0) (recordBytes type content) := by
  have hand : ∀ m : ℕ, m &&& 0xff = m % 256 := fun m => Nat.and_two_pow_sub_one_eq_mod m 8
  have hpad := FastcgiRequest.paddingOf_lt content.length
  refine ⟨1, 0, 1, uchar ((content.length >>> 8) &&& 0xff), uchar (content.length &&& 0xff),
    uchar (paddingOf content.length), 0, by decide, ?_, ?_, append_assoc ..⟩
  · rw [toNat_uchar, toNat_uchar, hand, hand]
    omega
  · rw [length_replicate, toNat_uchar]
    omega

/-- No pair that is written is overlooked. -/
theorem not_endsCramped (h : (ps.map pairSize).sum < 2 ^ 31) :
    ¬ EndsCramped (ps.flatMap pairBytes) := by
  induction ps with
  | nil =>
    intro hc
    cases hc with
    | here h => rcases h with h | h <;> cases h
    | there h => cases h
  | cons p ps ih =>
    rw [map_cons, sum_cons] at h
    intro hc
    have hread := @readPairs_flatMap (p :: ps) (by rwa [map_cons, sum_cons])
    cases hc with
    | here hc =>
      rw [readPairs_cramped hc] at hread
      obtain ⟨rfl, rfl⟩ := cons.inj (Option.some.inj hread)
      exact absurd hc (by rw [Cramped]; decide)
    | there hp hc =>
      rw [pairSize] at h
      have hpair := readPair_of_lengths (readLength_putLength (n := p.1.length)
        (by omega)) (readLength_putLength (n := p.2.length) (by omega))
        (ps.flatMap pairBytes)
      obtain ⟨-, rfl⟩ := Prod.mk.inj (Option.some.inj (hpair.symm.trans hp))
      exact ih (by omega) hc

/-- The pieces of a body and the empty record behind them are a stream. -/
theorem isStream_pieces (pieces : List Bytes) (hne : [] ∉ pieces)
    (hle : ∀ p ∈ pieces, p.length ≤ 32 * 1024) :
    IsStream STDIN (pieces.flatMap (recordBytes STDIN) ++ recordBytes STDIN []) pieces.flatten := by
  induction pieces with
  | nil => exact .last (isRecord_recordBytes STDIN (Nat.two_pow_pos 16))
  | cons p pieces ih =>
    obtain ⟨hp, hne⟩ := not_or.mp (mem_cons.not.mp hne)
    obtain ⟨hlen, hle⟩ := forall_mem_cons.mp hle
    rw [flatMap_cons, append_assoc]
    exact .more (isRecord_recordBytes STDIN (by omega)) (Ne.symm hp) (ih hne hle)

/-- The role that nginx asks for. -/
def responderName : Bytes := [82, 69, 83, 80, 79, 78, 68, 69, 82]

/-- What nginx sends: the beginning, the pairs in one record and an empty one, and the body. -/
theorem createRequest_parts {wire : Bytes} (h : createRequest conf r = some wire)
    (hshort : ShortNames conf r) (hfull : NoEmptyBuf conf r)
    (hbuffering : r.requestBodyNoBuffering = false) :
    ∃ d, wire = recordBytes BEGIN_REQUEST (FastcgiRequest.beginRequest conf) ++
        (recordBytes PARAMS ((sentPairs conf r).flatMap pairBytes) ++
        (recordBytes PARAMS [] ++ d)) ∧
      ((sentPairs conf r).map pairSize).sum ≤ 65535 ∧ IsStream STDIN d (sentBody conf r) := by
  obtain ⟨len, ignored, hpass, hlen, rfl⟩ := FastcgiRequest.createRequest_eq h
  obtain ⟨hwritten, -, hwrite⟩ := FastcgiRequest.writePass_spec hpass
  obtain ⟨hflat, hle, hempty⟩ := FastcgiRequest.sentPieces_spec conf r
  rw [hwrite hshort, length_flatMap_pairBytes] at hwritten
  refine ⟨_, ?_, by omega, hflat ▸ isStream_pieces _ (hempty.mp hfull hbuffering) hle⟩
  rw [FastcgiRequest.records, hwrite hshort, if_neg (by rw [hbuffering]; decide), flatMap_append,
    flatMap_append, flatMap_map]
  simp only [flatMap_cons, flatMap_nil, append_nil, append_assoc]

/-- **From nginx to PHP.**  A request of nginx is accepted, in whatever pieces it is read, if and
only if the record of its pairs is not too long with its padding; then the last values of its
variables are found and its body is read. -/
theorem readRequest_createRequest {wire rest : Bytes} (h : createRequest conf r = some wire)
    (hshort : ShortNames conf r) (hfull : NoEmptyBuf conf r)
    (hbuffering : r.requestBodyNoBuffering = false) (hpairs : sentPairs conf r ≠ []) (req : Request)
    (hfd : req.fd.flatten = wire ++ rest) (buf : ℕ → UInt8) : ((readRequest buf req).1 = true ↔
      let len := ((sentPairs conf r).map pairSize).sum
      len + paddingOf len ≤ MAX_LENGTH) ∧
    ∀ req', readRequest buf req = (true, req') →
      (∀ name, Plain name →
        Finds req'.env name (lastValue ((roleName, responderName) :: sentPairs conf r) name)) ∧
      ∀ (lens : List ℕ) (len : ℕ), lens.sum ≤ (sentBody conf r).length →
        (readCalls (lens ++ [len]) req').1.flatten = (sentBody conf r).take (lens.sum + len) := by
  obtain ⟨d, rfl, hle, hstream⟩ := createRequest_parts h hshort hfull hbuffering
  generalize hps : sentPairs conf r = ps at *
  have hlen := length_flatMap_pairBytes ps
  have hrecord := @isRecord_recordBytes (ps.flatMap pairBytes) PARAMS (by omega)
  have hne : ps.flatMap pairBytes ≠ [] := by
    obtain ⟨p, qs, rfl⟩ := exists_cons_of_ne_nil hpairs
    have hpos := lengthSize_pos p.1.length
    rw [← length_pos_iff, hlen, map_cons, sum_cons, pairSize]
    omega
  have hbegin : IsBegin (recordBytes BEGIN_REQUEST (FastcgiRequest.beginRequest conf))
      responderName := by
    refine ⟨0, 1, if conf.keepConn then 1 else 0, 0, 0, 0, 0, 0, _,
      isRecord_recordBytes BEGIN_REQUEST ?_, by decide⟩
    rw [length_cons, length_cons, length_cons, length_cons]
    decide
  by_cases hfits : (ps.map pairSize).sum + paddingOf (ps.map pairSize).sum ≤ MAX_LENGTH
  · have hparams : IsParams (recordBytes PARAMS (ps.flatMap pairBytes) ++ recordBytes PARAMS [])
        (ps ++ []) :=
      .more ⟨_, _, hrecord, hne, by rwa [length_replicate, hlen],
        readPairs_flatMap (by omega), not_endsCramped (by omega)⟩
        (.last (isRecord_recordBytes PARAMS (Nat.two_pow_pos 16)))
    rw [append_nil] at hparams
    rw [append_assoc, ← append_assoc (recordBytes PARAMS _), append_assoc (_ ++ _)] at hfd
    obtain ⟨req', haccept, hremaining, hfinds⟩ := readRequest_spec hbegin hparams hstream hfd buf
    refine ⟨iff_of_true (by rw [haccept]) hfits, fun req'' haccept' => ?_⟩
    obtain rfl : req' = req'' := (Prod.mk.inj (haccept.symm.trans haccept')).2
    exact ⟨hfinds, readCalls_spec hremaining⟩
  · have hreject : (readRequest buf req).1 = false := by
      rw [append_assoc, append_assoc] at hfd
      obtain ⟨buf', req', hfd', -, -, -, hfails⟩ := readRequest_begin hbegin hfd buf
      obtain ⟨hdr, fd, hread, htype, hdrLen, hdrPad, -⟩ := readHeader_record req' hrecord hfd'
      obtain ⟨m, hm⟩ : ∃ m, req.fd.flatten.length = m + 1 := by
        refine Nat.exists_eq_succ_of_ne_zero ?_
        rw [hfd, recordBytes, FastcgiRequest.header]
        simp
      refine hfails ?_
      have hpos := length_pos_iff.mpr hne
      rw [hlen, length_replicate] at *
      rw [hm, nextParams, hread]
      dsimp only
      rw [readParams, if_pos ⟨htype, by omega⟩, if_pos (by omega)]
    refine ⟨iff_of_false (by simp [hreject]) hfits, fun req' haccept => ?_⟩
    rw [haccept] at hreject
    exact absurd hreject Bool.noConfusion

/-- A request for one variable is accepted, and the variable is found. -/
theorem readRequest_createRequest_oneParam :
    let req := .ofBytes oneHeaderWire
    (readRequest (fun _ => 0) req).1 = true ∧
      Finds (readRequest (fun _ => 0) req).2.env [0x41] (some [0x31]) := by
  intro req
  have hwire : req.fd.flatten = oneHeaderWire ++ [] := flatten_cons
  obtain ⟨haccept, hfinds⟩ := @readRequest_createRequest (oneParam [0x41]) oneHeader _ _ (by decide)
    (by unfold ShortNames; decide) (fun _ _ => by decide) rfl (by decide) req hwire fun _ => 0
  have hvalue : lastValue ((roleName, responderName) :: sentPairs (oneParam [0x41]) oneHeader)
      [0x41] = some [0x31] := by decide
  have haccept := haccept.mpr (by decide)
  rw [← hvalue]
  generalize readRequest (fun _ => 0) req = answer at *
  obtain ⟨ok, req'⟩ := answer
  obtain rfl : ok = true := haccept
  exact ⟨rfl, (hfinds req' rfl).1 [0x41] (by decide)⟩

end FcgiInput
