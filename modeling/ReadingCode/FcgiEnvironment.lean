/-
# The environment of a FastCGI request

`main/fastcgi.c` keeps the parameters of a request in a hash table of its own.  A bucket has the
hash value of its name, and pointers to copies of the name and the value; the copies are put one
behind the other into segments, which stay where they are until the table is cleaned.

The hash value is made of few bytes of the name.  `FCGI_HASH_FUNC` is a macro: it takes the bytes
as they are declared where it is used, and the fourth of them also of a name of three.
-/
import ReadingCode.FastcgiWire

namespace FcgiInput

open List Function

/-! ## Strings -/

/-- `FCGI_HASH_SEG_SIZE` -/
abbrev SEG_SIZE : ℕ := 4096

/-- The memory of the segments, and the position and the end of the newest one.  A segment is
allocated behind the ones that there are. -/
structure Data where
  mem : ℕ → UInt8
  pos : ℕ
  stop : ℕ

/-- `memcpy` to the address `p`. -/
def store (mem : ℕ → UInt8) (p : ℕ) (s : Bytes) : ℕ → UInt8 := fun i =>
  if p ≤ i then (s[i - p]?).getD (mem i) else mem i

/-- The `n` bytes at the address `p`. -/
def load (mem : ℕ → UInt8) (p n : ℕ) : Bytes := (List.range n).map fun i => mem (p + i)

/-- The segment that `fcgi_hash_strndup` puts `n` bytes and a NUL into. -/
def Data.reserve (d : Data) (n : ℕ) : Data :=
  if d.pos + n + 1 ≥ d.stop then
    { d with pos := d.stop, stop := d.stop + if n + 1 > SEG_SIZE then n + 1 else SEG_SIZE }
  else d

/-- `fcgi_hash_strndup` -/
def Data.strndup (d : Data) (s : Bytes) : ℕ × Data :=
  let d := d.reserve s.length
  (d.pos, { d with mem := store d.mem d.pos (s ++ [0]), pos := d.pos + s.length + 1 })

/-! ## The hash table -/

/-- `fcgi_hash_bucket` -/
structure Bucket where
  hashValue : ℕ
  varLen : ℕ
  var : ℕ
  valLen : ℕ
  val : ℕ

/-- `fcgi_hash`, with the buckets of an index in the order of their links. -/
structure Env where
  table : ℕ → List Bucket
  data : Data

/-- `FCGI_HASH_TABLE_SIZE` -/
abbrev TABLE_SIZE : ℕ := 128

/-- `(unsigned int)` of an `unsigned char`. -/
def fromUChar (b : UInt8) : ℕ := b.toNat

/-- `(unsigned int)` of a `char`, which has a sign. -/
def fromChar (b : UInt8) : ℕ := if b < 128 then b.toNat else 2 ^ 32 - 256 + b.toNat

/-- `FCGI_HASH_FUNC` -/
def hashFunc (cast : UInt8 → ℕ) (var : ℕ → UInt8) (varLen : ℕ) : ℕ :=
  if varLen < 3 then varLen
  else
    (cast (var 3) * 4 + cast (var (varLen - 2)) * 16 + cast (var (varLen - 1)) * 4 + varLen)
      % 2 ^ 32

/-- The bytes of the name that `FCGI_HASH_FUNC` reads. -/
def hashReads (varLen : ℕ) : List ℕ := if varLen < 3 then [] else [3, varLen - 2, varLen - 1]

/-- The bucket is the one of this name. -/
def Bucket.isFor (mem : ℕ → UInt8) (hashValue : ℕ) (var : Bytes) (p : Bucket) : Bool :=
  p.hashValue = hashValue ∧ p.varLen = var.length ∧ load mem p.var p.varLen = var

/-- The first bucket of a chain that fulfils `test` gets a value. -/
def setVal (test : Bucket → Bool) (valLen val : ℕ) : List Bucket → List Bucket
  | [] => []
  | p :: l => if test p then { p with valLen := valLen, val := val } :: l
    else p :: setVal test valLen val l

/-- `fcgi_hash_set` -/
def Env.set (h : Env) (hashValue : ℕ) (var val : Bytes) : Env :=
  let idx := hashValue % TABLE_SIZE
  let chain := h.table idx
  let test := Bucket.isFor h.data.mem hashValue var
  if chain.any test then
    let (val', data) := h.data.strndup val
    ⟨update h.table idx (setVal test val.length val' chain), data⟩
  else
    let (var', data) := h.data.strndup var
    let (val', data) := data.strndup val
    ⟨update h.table idx (⟨hashValue, var.length, var', val.length, val'⟩ :: chain), data⟩

/-- `fcgi_hash_get`, with the length that it gives as well. -/
def Env.get (h : Env) (hashValue : ℕ) (var : Bytes) : Option (ℕ × ℕ) :=
  ((h.table (hashValue % TABLE_SIZE)).find? (Bucket.isFor h.data.mem hashValue var)).map
    fun p => (p.val, p.valLen)

/-- `fcgi_hash_clean`, and `fcgi_hash_init` where there is no table before. -/
def Env.clean (h : Env) : Env := ⟨fun _ => [], ⟨h.data.mem, 0, SEG_SIZE⟩⟩

/-- `fcgi_getenv`: the name is a string of `char`, with a NUL behind it. -/
def Env.getenv (h : Env) (var : Bytes) : Option ℕ :=
  (h.get (hashFunc fromChar (fun i => var.getD i 0) var.length) var).map Prod.fst

/-! ## Memory -/

variable {mem : ℕ → UInt8} {i n p q : ℕ} {s var val : Bytes} {d : Data} {h : Env}
  {b : Bucket}

theorem store_of_lt (hi : i < p) : store mem p s i = mem i := if_neg (not_le.mpr hi)

@[simp] theorem length_load (mem : ℕ → UInt8) (p n : ℕ) : (load mem p n).length = n := by
  rw [load, length_map, length_range]

theorem load_store (mem : ℕ → UInt8) (p : ℕ) (s t : Bytes) :
    load (store mem p (s ++ t)) p s.length = s := by
  apply ext_getElem (length_load _ _ _)
  intro i hi his
  simp only [load, getElem_map, getElem_range]
  rw [store, if_pos (Nat.le_add_right p i), Nat.add_sub_cancel_left,
    getElem?_append_left his, getElem?_eq_getElem his, Option.getD_some]

/-- What is before the address of a copy stays as it is. -/
theorem load_store_of_le (hle : p + n ≤ q) : load (store mem q s) p n = load mem p n := by
  apply map_congr_left
  intro i hi
  exact store_of_lt (by rw [mem_range] at hi; omega)

/-- There are `n` bytes and a NUL at the address `p`. -/
def Data.Stored (d : Data) (p n : ℕ) : Prop := p + n < d.pos ∧ d.mem (p + n) = 0

/-- What is stored in `d` is in `d'` as well. -/
def Data.Keeps (d d' : Data) : Prop :=
  ∀ p n, d.Stored p n → d'.Stored p n ∧ load d'.mem p n = load d.mem p n

variable {d' : Data}

theorem Data.Keeps.trans {d'' : Data} (h : d.Keeps d') (h' : d'.Keeps d'') : d.Keeps d'' := by
  intro p n hs
  obtain ⟨hs', hload⟩ := h p n hs
  obtain ⟨hs'', hload'⟩ := h' p n hs'
  exact ⟨hs'', hload'.trans hload⟩

theorem reserve_spec (hd : d.pos ≤ d.stop) (n : ℕ) :
    (d.reserve n).mem = d.mem ∧ d.pos ≤ (d.reserve n).pos ∧
      (d.reserve n).pos + n + 1 ≤ (d.reserve n).stop := by
  rw [Data.reserve]
  split_ifs with hfull hlong
  · exact ⟨rfl, hd, by dsimp only; omega⟩
  · exact ⟨rfl, hd, by dsimp only; omega⟩
  · exact ⟨rfl, le_rfl, by omega⟩

/-- A copy is within its segment, and leaves what is stored. -/
theorem strndup_spec (hd : d.pos ≤ d.stop) (s : Bytes) :
    load (d.strndup s).2.mem (d.strndup s).1 s.length = s ∧
      (d.strndup s).2.Stored (d.strndup s).1 s.length ∧
      (d.strndup s).2.pos ≤ (d.strndup s).2.stop ∧ d.Keeps (d.strndup s).2 := by
  obtain ⟨hmem, hpos, hstop⟩ := reserve_spec hd s.length
  rw [Data.strndup]
  rw [hmem]
  refine ⟨load_store _ _ _ _, ⟨by dsimp only; omega, ?_⟩, hstop, ?_⟩
  · dsimp only
    rw [store, if_pos (Nat.le_add_right _ _), Nat.add_sub_cancel_left,
      getElem?_append_right (Nat.le_refl _), Nat.sub_self]
    rfl
  · rintro p n ⟨hlt, hnul⟩
    refine ⟨⟨by dsimp only; omega, ?_⟩, load_store_of_le (by omega)⟩
    dsimp only
    rw [store_of_lt (by omega)]
    exact hnul

/-! ## Buckets -/

/-- The name of a bucket and its value are stored. -/
def Bucket.Sound (d : Data) (b : Bucket) : Prop :=
  d.Stored b.var b.varLen ∧ d.Stored b.val b.valLen

theorem Bucket.Sound.mono (hb : b.Sound d) (hk : d.Keeps d') : b.Sound d' :=
  ⟨(hk _ _ hb.1).1, (hk _ _ hb.2).1⟩

theorem isFor_congr (hb : b.Sound d) (hk : d.Keeps d') (n : ℕ) (var : Bytes) :
    b.isFor d'.mem n var = b.isFor d.mem n var := by
  rw [Bucket.isFor, Bucket.isFor, (hk _ _ hb.1).2]

/-- A bucket is for one name only. -/
theorem isFor_iff : b.isFor mem n var = true ↔ b.hashValue = n ∧ load mem b.var b.varLen = var := by
  rw [Bucket.isFor, decide_eq_true_iff]
  refine and_congr_right fun _ => ⟨fun h => h.2, fun h => ⟨?_, h⟩⟩
  rw [← h, length_load]

section

variable {test test' : Bucket → Bool} {valLen p : ℕ} {l : List Bucket}

theorem mem_setVal (hb : b ∈ setVal test valLen p l) :
    b ∈ l ∨ ∃ b' ∈ l, b = { b' with valLen := valLen, val := p } := by
  induction l with
  | nil => cases hb
  | cons c l ih =>
    rw [setVal] at hb
    split_ifs at hb
    · rcases mem_cons.mp hb with rfl | hb
      · exact .inr ⟨c, mem_cons_self, rfl⟩
      · exact .inl (mem_cons_of_mem c hb)
    · rcases mem_cons.mp hb with rfl | hb
      · exact .inl mem_cons_self
      · rcases ih hb with hb | ⟨b', hb', rfl⟩
        · exact .inl (mem_cons_of_mem c hb)
        · exact .inr ⟨b', mem_cons_of_mem c hb', rfl⟩

theorem setVal_congr (htest : ∀ b ∈ l, test b = test' b) :
    setVal test valLen p l = setVal test' valLen p l := by
  induction l with
  | nil => rfl
  | cons c l ih =>
    rw [setVal, setVal, htest c mem_cons_self, ih fun b hb => htest b (mem_cons_of_mem c hb)]

/-- The bucket that gets the value is found. -/
theorem find?_setVal (htest : ∀ b, test { b with valLen := valLen, val := p } = test b) :
    (setVal test valLen p l).find? test
      = (l.find? test).map fun b => { b with valLen := valLen, val := p } := by
  induction l with
  | nil => rfl
  | cons c l ih =>
    rw [setVal]
    by_cases hc : test c = true
    · rw [if_pos hc, find?_cons_of_pos ((htest c).trans hc), find?_cons_of_pos hc]
      rfl
    · rw [if_neg hc, find?_cons_of_neg hc, find?_cons_of_neg hc, ih]

/-- Another one is found as before. -/
theorem find?_setVal_of_ne (htest : ∀ b, test' { b with valLen := valLen, val := p } = test' b)
    (hne : ∀ b, test b = true → test' b = false) :
    (setVal test valLen p l).find? test' = l.find? test' := by
  induction l with
  | nil => rfl
  | cons c l ih =>
    rw [setVal]
    by_cases hc : test c = true
    · have hc' := hne c hc
      rw [if_pos hc, find?_cons_of_neg (by rw [htest, hc']; exact nofun),
        find?_cons_of_neg (by rw [hc']; exact nofun)]
    · rw [if_neg hc, find?_cons, find?_cons, ih]

end

/-! ## Chains -/

/-- The value of the name in a chain. -/
def chainValue (d : Data) (l : List Bucket) (hashValue : ℕ) (var : Bytes) :
    Option Bytes :=
  (l.find? (Bucket.isFor d.mem hashValue var)).map fun b => load d.mem b.val b.valLen

section

variable {d' : Data} {l : List Bucket} {hashValue hashValue' : ℕ} {var' : Bytes}

theorem chainValue_keeps (hl : ∀ b ∈ l, b.Sound d) (hk : d.Keeps d') (hashValue : ℕ)
    (var : Bytes) : chainValue d' l hashValue var = chainValue d l hashValue var := by
  induction l with
  | nil => rfl
  | cons b l ih =>
    have hb := hl b mem_cons_self
    have ih := ih fun c hc => hl c (mem_cons_of_mem b hc)
    rw [chainValue, chainValue] at ih ⊢
    rw [find?_cons, find?_cons, isFor_congr hb hk]
    cases b.isFor d.mem hashValue var with
    | true => exact congrArg some (hk _ _ hb.2).2
    | false => exact ih

/-- A name gets another value in a chain that has it. -/
theorem chainValue_setVal (hval : load d.mem p val.length = val)
    (hany : l.any (Bucket.isFor d.mem hashValue var) = true) :
    chainValue d (setVal (Bucket.isFor d.mem hashValue var) val.length p l) hashValue' var'
      = if hashValue' = hashValue ∧ var' = var then some val
        else chainValue d l hashValue' var' := by
  rw [chainValue, chainValue]
  by_cases hsame : hashValue' = hashValue ∧ var' = var
  · rw [if_pos hsame, hsame.1, hsame.2, find?_setVal fun _ => rfl]
    obtain ⟨b, hb⟩ := Option.isSome_iff_exists.mp (find?_isSome.mpr (any_eq_true.mp hany))
    rw [hb]
    exact congrArg some hval
  · rw [if_neg hsame, find?_setVal_of_ne (fun _ => rfl)]
    intro b hb
    rw [← Bool.not_eq_true, isFor_iff]
    rw [isFor_iff] at hb
    rintro ⟨hhash, hvar⟩
    exact hsame ⟨hhash.symm.trans hb.1, hvar.symm.trans hb.2⟩

/-- A bucket in front of a chain that has not its name. -/
theorem chainValue_cons (hvar : load d.mem q var.length = var)
    (hval : load d.mem p val.length = val) :
    chainValue d (⟨hashValue, var.length, q, val.length, p⟩ :: l) hashValue' var'
      = if hashValue' = hashValue ∧ var' = var then some val
        else chainValue d l hashValue' var' := by
  rw [chainValue, chainValue]
  by_cases hsame : hashValue' = hashValue ∧ var' = var
  · rw [if_pos hsame, find?_cons_of_pos (isFor_iff.mpr ⟨hsame.1.symm, hsame.2 ▸ hvar⟩)]
    exact congrArg some hval
  · rw [if_neg hsame, find?_cons_of_neg]
    rw [isFor_iff]
    rintro ⟨hhash, hname⟩
    exact hsame ⟨hhash.symm, hname.symm.trans hvar⟩

end

/-! ## The table -/

/-- The buckets of a table are at their indices, and what they have is stored. -/
structure Env.Sound (h : Env) : Prop where
  room : h.data.pos ≤ h.data.stop
  bucket : ∀ i, ∀ b ∈ h.table i, b.Sound h.data

/-- The value that is found. -/
def Env.value (h : Env) (hashValue : ℕ) (var : Bytes) : Option Bytes :=
  (h.get hashValue var).map fun (p, n) => load h.data.mem p n

theorem value_eq_chainValue (h : Env) (hashValue : ℕ) (var : Bytes) :
    h.value hashValue var = chainValue h.data (h.table (hashValue % TABLE_SIZE)) hashValue var := by
  rw [Env.value, Env.get, Option.map_map]
  rfl

theorem clean_sound (h : Env) : h.clean.Sound := ⟨Nat.zero_le _, nofun⟩

theorem value_clean (h : Env) (n : ℕ) (var : Bytes) : h.clean.value n var = none := rfl

/-- The pointer that is found is one to the value and a NUL. -/
theorem get_spec (hs : h.Sound) {hashValue : ℕ} (hget : h.get hashValue var = some (p, n)) :
    ∃ val, h.value hashValue var = some val ∧ val.length = n ∧ load h.data.mem p n = val ∧
      h.data.Stored p n := by
  refine ⟨load h.data.mem p n, by rw [Env.value, hget]; rfl, length_load _ _ _, rfl, ?_⟩
  rw [Env.get, Option.map_eq_some_iff] at hget
  obtain ⟨b, hb, heq⟩ := hget
  cases heq
  exact (hs.bucket _ b (mem_of_find?_eq_some hb)).2

/-- **A name gets its value**, and no other name another one. -/
theorem set_spec (hs : h.Sound) (hashValue : ℕ) (var val : Bytes) :
    (h.set hashValue var val).Sound ∧ ∀ hashValue' var',
      (h.set hashValue var val).value hashValue' var'
        = if hashValue' = hashValue ∧ var' = var then some val else h.value hashValue' var' := by
  have hchain := hs.bucket (hashValue % TABLE_SIZE)
  -- what is true of the chain that changes is true of the table
  have hset : ∀ d : Data, d.pos ≤ d.stop → h.data.Keeps d → ∀ l : List Bucket,
      (∀ b ∈ l, b.Sound d) →
      (∀ hashValue' var', chainValue d l hashValue' var'
        = if hashValue' = hashValue ∧ var' = var then some val
          else chainValue d (h.table (hashValue % TABLE_SIZE)) hashValue' var') →
      let h' : Env := ⟨update h.table (hashValue % TABLE_SIZE) l, d⟩
      h'.Sound ∧ ∀ hashValue' var', h'.value hashValue' var'
        = if hashValue' = hashValue ∧ var' = var then some val
          else h.value hashValue' var' := by
    intro d hroom hk l hl hvalue h'
    refine ⟨⟨hroom, fun i b hb => ?_⟩, fun hashValue' var' => ?_⟩
    · by_cases hi : i = hashValue % TABLE_SIZE
      · dsimp only [h'] at hb
        rw [hi, update_self] at hb
        exact hl b hb
      · dsimp only [h'] at hb
        rw [update_of_ne hi] at hb
        exact (hs.bucket i b hb).mono hk
    · rw [value_eq_chainValue, value_eq_chainValue]
      dsimp only [h']
      by_cases hi : hashValue' % TABLE_SIZE = hashValue % TABLE_SIZE
      · rw [hi, update_self, hvalue, chainValue_keeps hchain hk]
      · rw [update_of_ne hi, chainValue_keeps (hs.bucket _) hk, if_neg]
        rintro ⟨rfl, -⟩
        exact hi rfl
  rw [Env.set]
  dsimp only
  split_ifs with hany
  · obtain ⟨hload, hstored, hroom, hk⟩ := strndup_spec hs.room val
    have htest : ∀ b ∈ h.table (hashValue % TABLE_SIZE),
        b.isFor h.data.mem hashValue var = b.isFor (h.data.strndup val).2.mem hashValue var :=
      fun b hb => (isFor_congr (hchain b hb) hk hashValue var).symm
    have hany' : (h.table (hashValue % TABLE_SIZE)).any
        (Bucket.isFor (h.data.strndup val).2.mem hashValue var) = true := by
      obtain ⟨b, hb, hfor⟩ := any_eq_true.mp hany
      exact any_eq_true.mpr ⟨b, hb, (htest b hb).symm.trans hfor⟩
    rw [setVal_congr htest]
    apply hset _ hroom hk
    · intro b hb
      rcases mem_setVal hb with hb | ⟨b', hb', rfl⟩
      · exact (hchain b hb).mono hk
      · exact ⟨((hchain b' hb').mono hk).1, hstored⟩
    · intro hashValue' var'
      exact chainValue_setVal hload hany'
  · obtain ⟨hname, hstored, hroom, hk⟩ := strndup_spec hs.room var
    obtain ⟨hload, hstored', hroom', hk'⟩ := strndup_spec hroom val
    obtain ⟨hstored'', hname'⟩ := hk' _ _ hstored
    apply hset _ hroom' (hk.trans hk')
    · intro b hb
      rcases mem_cons.mp hb with rfl | hb
      · exact ⟨hstored'', hstored'⟩
      · exact (hchain b hb).mono (hk.trans hk')
    · intro hashValue' var'
      exact chainValue_cons (hname'.trans hname) hload

end FcgiInput

/-!
# The input of a FastCGI request

`main/fastcgi.c` reads a request from a descriptor record by record: `fcgi_read_request` the
record that begins it and those with its parameters, and `fcgi_read` its body, whose records it
goes through as it is called.

The descriptor is what the calls of `read` will return, in pieces of any size, of which an empty
one is a call that was interrupted; behind the last one the other end has closed it.  The pairs
of a record are taken from a buffer, with a note of whether a byte behind the content was read.
-/

namespace FcgiInput

/-! ## Pairs -/

/-- The bytes from `p` up to `end`, the byte at `end`, and whether that one was read. -/
structure Cursor where
  rest : Bytes
  behind : UInt8
  outside : Bool

/-- `*p++` -/
def Cursor.next (c : Cursor) : UInt8 × Cursor :=
  match c.rest with
  | b :: s => (b, { c with rest := s })
  | [] => (c.behind, { c with outside := true })

/-- A length, of one byte or of four with the highest bit set. -/
def Cursor.length (c : Cursor) : Option ℕ × Cursor :=
  let (b, c) := c.next
  if b ≥ 128 then
    if c.rest.length ≤ 3 then (none, c)
    else
      let (b2, c) := c.next
      let (b1, c) := c.next
      let (b0, c) := c.next
      (some ((b.toNat &&& 0x7f) <<< 24 ||| b2.toNat <<< 16 ||| b1.toNat <<< 8 ||| b0.toNat), c)
  else (some b.toNat, c)

/-- `p[i]` -/
def Cursor.byte (c : Cursor) (i : ℕ) : UInt8 := c.rest.getD i c.behind

/-- The bytes that `FCGI_HASH_FUNC` reads of the name at `p`. -/
def Cursor.hashed (c : Cursor) (nameLen : ℕ) : Cursor :=
  { c with outside := c.outside || (hashReads nameLen).any fun i => c.rest.length ≤ i }

/-- `fcgi_get_params`, for at most `fuel` pairs. -/
def getParams : ℕ → Cursor → Env → Bool × Cursor × Env
  | 0, c, env => (true, c, env)
  | fuel + 1, c, env =>
    if c.rest = [] then (true, c, env)
    else
      match c.length with
      | (none, c) => (false, c, env)
      | (some nameLen, c) =>
        if c.rest = [] then (false, c, env)
        else
          match c.length with
          | (none, c) => (false, c, env)
          | (some valLen, c) =>
            if (nameLen + valLen) % 2 ^ 32 > c.rest.length then (false, c, env)
            else
              getParams fuel
                { c.hashed nameLen with rest := c.rest.drop (nameLen + valLen) }
                (env.set (hashFunc fromUChar c.byte nameLen) (c.rest.take nameLen)
                  ((c.rest.drop nameLen).take valLen))

/-! ## The descriptor -/

/-- `fcgi_request`, as far as it is for the input. -/
structure Request where
  keep : Bool
  inLen : ℕ
  inPad : ℕ
  id : ℕ
  env : Env
  fd : List Bytes
  outside : Bool

/-- `safe_read`: the bytes that there are, `count` of them at most. -/
def safeRead : List Bytes → ℕ → Bytes × List Bytes
  | [], _ => ([], [])
  | s :: fd, count =>
    if count < s.length then (s.take count, s.drop count :: fd)
    else if count = s.length then (s, fd)
    else
      let (t, fd') := safeRead fd (count - s.length)
      (s ++ t, fd')

/-- `safe_read` from the descriptor of a request. -/
def Request.read (req : Request) (count : ℕ) : Bytes × Request :=
  let (s, fd) := safeRead req.fd count
  (s, { req with fd := fd })

/-- `fcgi_header` -/
structure Header where
  version : UInt8
  type : UInt8
  id : ℕ
  len : ℕ
  padding : ℕ

/-- The fields of a header, when all its bytes were read and its version is known. -/
def headerOf : Bytes → Option Header
  | [version, type, idB1, idB0, lenB1, lenB0, padding, _] =>
    if version < 1 then none
    else some ⟨version, type, idB1.toNat * 256 + idB0.toNat, lenB1.toNat * 256 + lenB0.toNat,
      padding.toNat⟩
  | _ => none

def Request.readHeader (req : Request) : Option Header × Request :=
  let (s, req) := req.read 8
  (headerOf s, req)

/-! ## Requests -/

/-- `FCGI_MAX_LENGTH` -/
abbrev MAX_LENGTH : ℕ := 0xffff

/-- `FCGI_BEGIN_REQUEST` -/
abbrev BEGIN_REQUEST : UInt8 := 1

/-- `FCGI_PARAMS` -/
abbrev PARAMS : UInt8 := 4

/-- `FCGI_STDIN` -/
abbrev STDIN : UInt8 := 5

/-- `FCGI_GET_VALUES` -/
abbrev GET_VALUES : UInt8 := 9

/-- The loop over empty STDIN records, the first header of which has been read. -/
def skipStdin : ℕ → Header → Request → Option Header × Request
  | 0, hdr, req => (some hdr, req)
  | fuel + 1, hdr, req =>
    if hdr.type = STDIN ∧ hdr.len = 0 then
      match req.readHeader with
      | (none, req) => (none, req)
      | (some hdr, req) => skipStdin fuel hdr req
    else (some hdr, req)

/-- The buffer with the content and the padding of a record, of which the pairs are taken. -/
def params (buf : ℕ → UInt8) (len : ℕ) (req : Request) : Bool × Request :=
  let (ok, c, env) := getParams len ⟨load buf 0 len, buf len, false⟩ req.env
  (ok, { req with env := env, outside := req.outside || c.outside })

/-- The loop over the PARAMS records, the first header of which has been read; `buf` is what the
buffer has. -/
def readParams : ℕ → (ℕ → UInt8) → Header → Request → Bool × Request
  | 0, _, _, req => (true, req)
  | fuel + 1, buf, hdr, req =>
    if hdr.type = PARAMS ∧ hdr.len > 0 then
      if hdr.len + hdr.padding > MAX_LENGTH then (false, req)
      else
        let (s, req) := req.read (hdr.len + hdr.padding)
        if s.length ≠ hdr.len + hdr.padding then (false, { req with keep := false })
        else
          match params (store buf 0 s) hdr.len req with
          | (false, req) => (false, { req with keep := false })
          | (true, req) =>
            match req.readHeader with
            | (none, req) => (false, { req with keep := false })
            | (some hdr, req) => readParams fuel (store buf 0 s) hdr req
    else (true, req)

/-- `"FCGI_ROLE"` -/
def roleName : Bytes := [70, 67, 71, 73, 95, 82, 79, 76, 69]

/-- `"RESPONDER"`, `"AUTHORIZER"` or `"FILTER"`, if the role is one of them. -/
def roleValue : ℕ → Option Bytes
  | 1 => some [82, 69, 83, 80, 79, 78, 68, 69, 82]
  | 2 => some [65, 85, 84, 72, 79, 82, 73, 90, 69, 82]
  | 3 => some [70, 73, 76, 84, 69, 82]
  | _ => none

/-- The BEGIN_REQUEST record whose header is `hdr`, and what comes behind it. -/
def beginRequest (fuel : ℕ) (buf : ℕ → UInt8) (hdr : Header) (req : Request) : Bool × Request :=
  let (s, req) := req.read (hdr.len + hdr.padding)
  if s.length ≠ hdr.len + hdr.padding then (false, req)
  else
    let buf := store buf 0 s
    let req := { req with keep := (buf 2).toNat % 2 = 1 }
    match roleValue ((buf 0).toNat * 256 + (buf 1).toNat) with
    | none => (false, req)
    | some role =>
      let hash := hashFunc fromChar (fun i => roleName.getD i 0) roleName.length
      let req := { req with env := req.env.set hash roleName role }
      match req.readHeader with
      | (none, req) => (false, req)
      | (some hdr, req) => readParams fuel buf hdr req

/-- A GET_VALUES record whose header is `hdr`.  The answer that is written is no part of the
input; the function returns 0 in any case. -/
def getValues (buf : ℕ → UInt8) (hdr : Header) (req : Request) : Bool × Request :=
  let (s, req) := req.read (hdr.len + hdr.padding)
  if s.length ≠ hdr.len + hdr.padding then (false, { req with keep := false })
  else
    match params (store buf 0 s) hdr.len req with
    | (false, req) => (false, { req with keep := false })
    | (true, req) => (false, req)

/-- `fcgi_read_request`; `buf` is what its buffer has before. -/
def readRequest (buf : ℕ → UInt8) (req : Request) : Bool × Request :=
  let fuel := req.fd.flatten.length
  let req := { req with keep := false, inLen := 0, env := req.env.clean }
  match req.readHeader with
  | (none, req) => (false, req)
  | (some hdr, req) =>
    match skipStdin fuel hdr req with
    | (none, req) => (false, req)
    | (some hdr, req) =>
      if hdr.len + hdr.padding > MAX_LENGTH then (false, req)
      else
        let req := { req with id := hdr.id }
        if hdr.type = BEGIN_REQUEST ∧ hdr.len = 8 then beginRequest fuel buf hdr req
        else if hdr.type = GET_VALUES then getValues buf hdr req
        else (false, req)

/-! ## The body -/

/-- A record of the body is open: where none is, the header of the next one is read. -/
def Request.openRecord (req : Request) : Bool × Request :=
  if req.inLen = 0 then
    match req.readHeader with
    | (none, req) => (false, { req with keep := false })
    | (some hdr, req) =>
      if hdr.type ≠ STDIN then (false, { req with keep := false })
      else (true, { req with inLen := hdr.len, inPad := hdr.padding })
  else (true, req)

/-- The loop of `fcgi_read` with `rest` bytes to go and the bytes `out` in `str`; the result is
what the returned number says is there.  A round reads a byte at least. -/
def readLoop : ℕ → ℕ → Bytes → Request → Bytes × Request
  | 0, _, out, req => (out, req)
  | fuel + 1, rest, out, req =>
    if rest = 0 then (out, req)
    else
      match req.openRecord with
      | (false, req) => ([], req)
      | (true, req) =>
        if req.inLen = 0 then (out, req)
        else
          let (s, req) := req.read (if req.inLen ≥ rest then rest else req.inLen)
          if s = [] then (out, req)
          else
            let req := { req with inLen := req.inLen - s.length }
            if req.inLen = 0 then
              if req.inPad ≠ 0 then
                let (pad, req) := req.read req.inPad
                if pad.length ≠ req.inPad then
                  ((out ++ s).take s.length, { req with keep := false })
                else readLoop fuel (rest - s.length) (out ++ s) req
              else readLoop fuel (rest - s.length) (out ++ s) req
            else (out ++ s, req)

/-- `fcgi_read` -/
def fcgiRead (len : ℕ) (req : Request) : Bytes × Request := readLoop len len [] req

/-!
# The pairs of a record

Two things depend on what is behind the content: a name of three bytes with an empty value is hashed
with the byte there, and the last value is not seen when it is empty, has an empty name and a length
of four bytes.
-/

open FastcgiWire

open List Option

variable {c : Cursor} {b b2 b1 b0 : UInt8} {s t u name val : Bytes} {n m fuel : ℕ}
  {env : Env}

/-! ## Lengths -/

/-- The four bytes of a length. -/
theorem fourBytes_eq (hb : ¬ b.toNat < 128) (b2 b1 b0 : UInt8) :
    (b.toNat &&& 0x7f) <<< 24 ||| b2.toNat <<< 16 ||| b1.toNat <<< 8 ||| b0.toNat
      = (b.toNat - 128) * 2 ^ 24 + b2.toNat * 2 ^ 16 + b1.toNat * 2 ^ 8 + b0.toNat := by
  have hb8 := b.toNat_lt
  have h2 := b2.toNat_lt
  have h1 := b1.toNat_lt
  have h0 := b0.toNat_lt
  have hmask : b.toNat &&& 0x7f = b.toNat - 128 := by
    rw [show (0x7f : ℕ) = 2 ^ 7 - 1 from rfl, Nat.and_two_pow_sub_one_eq_mod]
    omega
  have hor : ∀ x y z k : ℕ, x = y * 2 ^ k → z < 2 ^ k → x ||| z = x + z := by
    rintro x y z k rfl hz
    rw [← Nat.shiftLeft_eq, Nat.shiftLeft_add_eq_or_of_lt hz]
  rw [hmask]
  simp only [Nat.shiftLeft_eq]
  rw [hor _ (b.toNat - 128) (b2.toNat * 2 ^ 16) 24 rfl (by omega),
    hor _ ((b.toNat - 128) * 2 ^ 8 + b2.toNat) (b1.toNat * 2 ^ 8) 16 (by omega) (by omega),
    hor _ ((b.toNat - 128) * 2 ^ 16 + b2.toNat * 2 ^ 8 + b1.toNat) b0.toNat 8 (by omega)
      (by omega)]

/-- A length takes four bytes. -/
def longLength (s : Bytes) : Prop := ∃ b u, s = b :: u ∧ ¬ b.toNat < 128

theorem next_cons (hs : c.rest = b :: s) : c.next = (b, { c with rest := s }) := by
  rw [Cursor.next, hs]

theorem length_of_lt (hs : c.rest = b :: s) (hb : b.toNat < 128) :
    c.length = (some b.toNat, { c with rest := s }) := by
  rw [Cursor.length, next_cons hs]
  dsimp only
  rw [if_neg]
  exact not_le.mpr hb

theorem length_of_short (hs : c.rest = b :: s) (hb : ¬ b.toNat < 128) (hlen : s.length ≤ 3) :
    c.length = (none, { c with rest := s }) := by
  rw [Cursor.length, next_cons hs]
  dsimp only
  rw [if_pos, if_pos hlen]
  exact not_lt.mp hb

theorem length_of_long (hs : c.rest = b :: b2 :: b1 :: b0 :: s) (hb : ¬ b.toNat < 128)
    (hne : s ≠ []) :
    c.length = (some ((b.toNat - 128) * 2 ^ 24 + b2.toNat * 2 ^ 16 + b1.toNat * 2 ^ 8
      + b0.toNat), { c with rest := s }) := by
  have hpos := length_pos_iff.mpr hne
  rw [Cursor.length, next_cons hs]
  dsimp only
  rw [if_pos, if_neg]
  · rw [next_cons rfl]
    rw [next_cons rfl]
    rw [next_cons rfl]
    rw [fourBytes_eq hb]
  · rw [length_cons, length_cons, length_cons]
    omega
  · exact not_lt.mp hb

/-- A length that is not all that is left is taken as it is read. -/
theorem length_of_readLength (h : readLength c.rest = some (n, t))
    (ht : t ≠ [] ∨ ¬ longLength c.rest) : c.length = (some n, { c with rest := t }) := by
  cases hs : c.rest with
  | nil =>
    rw [hs] at h
    cases h
  | cons b s =>
    rw [hs] at h
    unfold readLength at h
    dsimp only at h
    by_cases hb : b.toNat < 128
    · rw [if_pos hb] at h
      cases h
      exact length_of_lt hs hb
    · rw [if_neg hb] at h
      have ht : t ≠ [] := ht.resolve_right fun hno => hno ⟨b, s, hs, hb⟩
      split at h
      · cases h
        exact length_of_long hs hb ht
      · cases h

/-- Otherwise nothing is taken. -/
theorem length_eq_none (hne : c.rest ≠ []) (h : readLength c.rest = none ∨
    longLength c.rest ∧ ∃ n, readLength c.rest = some (n, [])) :
    ∃ s, c.length = (none, { c with rest := s }) := by
  cases hs : c.rest with
  | nil => exact absurd hs hne
  | cons b s =>
    rw [hs] at h
    unfold readLength at h
    dsimp only at h
    by_cases hb : b.toNat < 128
    · rw [if_pos hb] at h
      rcases h with h | ⟨⟨b', u, heq, hb'⟩, -⟩
      · cases h
      · cases heq
        exact absurd hb hb'
    · rw [if_neg hb] at h
      refine ⟨s, length_of_short hs hb ?_⟩
      rcases h with h | ⟨-, n, h⟩
      · split at h
        · cases h
        · rename_i hno
          by_contra hlen
          match s, hno, hlen with
          | [], _, hlen => exact hlen (Nat.zero_le 3)
          | [_], _, hlen => exact hlen (Nat.le_add_left 1 2)
          | [_, _], _, hlen => exact hlen (Nat.le_add_left 2 1)
          | b2 :: b1 :: b0 :: s, hno, _ => exact hno b2 b1 b0 s rfl
      · split at h
        · cases h
          exact Nat.le_refl 3
        · cases h

/-- The two forms of a length of zero. -/
theorem eq_of_readLength_zero (h : readLength s = some (0, t)) :
    s = 0 :: t ∨ longLength s ∧ s = 128 :: 0 :: 0 :: 0 :: t := by
  cases s with
  | nil => cases h
  | cons b s =>
    unfold readLength at h
    dsimp only at h
    by_cases hb : b.toNat < 128
    · rw [if_pos hb] at h
      left
      obtain ⟨hzero, rfl⟩ := Prod.mk.inj (Option.some.inj h)
      rw [show b = 0 from UInt8.toNat_inj.mp hzero]
    · rw [if_neg hb] at h
      refine .inr ⟨⟨b, s, rfl, hb⟩, ?_⟩
      split at h
      · rename_i b2 b1 b0 u
        obtain ⟨hzero, rfl⟩ := Prod.mk.inj (Option.some.inj h)
        rw [show b = 128 from UInt8.toNat_inj.mp (show b.toNat = 128 by omega),
          show b2 = 0 from UInt8.toNat_inj.mp (show b2.toNat = 0 by omega),
          show b1 = 0 from UInt8.toNat_inj.mp (show b1.toNat = 0 by omega),
          show b0 = 0 from UInt8.toNat_inj.mp (show b0.toNat = 0 by omega)]
      · cases h

theorem readLength_bound (h : readLength s = some (n, t)) : n < 2 ^ 31 := by
  unfold readLength at h
  split at h
  · cases h
  · rename_i b u
    have hb8 := b.toNat_lt
    split_ifs at h with hb
    · cases h
      omega
    · split at h
      · rename_i b2 b1 b0 u
        have h2 := b2.toNat_lt
        have h1 := b1.toNat_lt
        have h0 := b0.toNat_lt
        obtain ⟨hn, -⟩ := Prod.mk.inj (Option.some.inj h)
        omega
      · cases h

/-! ## One pair -/

/-- An empty pair at the end whose value has a length of four bytes. -/
def Cramped (s : Bytes) : Prop :=
  s = [0, 128, 0, 0, 0] ∨ s = [128, 0, 0, 0, 128, 0, 0, 0]

/-- A pair that is read is taken. -/
theorem getParams_of_readPair (h : readPair c.rest = some ((name, val), u))
    (hc : ¬ Cramped c.rest) (fuel : ℕ) (env : Env) : getParams (fuel + 1) c env = getParams fuel
      { c with
        rest := u
        outside := c.outside || decide (name.length = 3 ∧ val = [] ∧ u = []) }
      (env.set (hashFunc fromUChar (fun i => (name ++ val ++ u).getD i c.behind) name.length)
        name val) := by
  obtain ⟨⟨n, t⟩, hn, h⟩ := bind_eq_some_iff.mp h
  obtain ⟨⟨m, v⟩, hm, h⟩ := bind_eq_some_iff.mp h
  dsimp only at hm h
  split_ifs at h with hlen
  obtain ⟨hpair, hu⟩ := Prod.mk.inj (Option.some.inj h)
  obtain ⟨hname, hval⟩ := Prod.mk.inj hpair
  have hne : c.rest ≠ [] := by
    intro hnil
    rw [hnil] at hn
    cases hn
  have ht : t ≠ [] := by
    rintro rfl
    cases hm
  have hlong : v ≠ [] ∨ ¬ longLength t := by
    by_contra hno
    rw [not_or, not_not, not_not] at hno
    obtain ⟨rfl, hlong⟩ := hno
    rw [length_nil] at hlen
    obtain rfl : n = 0 := by omega
    obtain rfl : m = 0 := by omega
    obtain rfl : t = [128, 0, 0, 0] := by
      rcases eq_of_readLength_zero hm with rfl | ⟨-, rfl⟩
      · obtain ⟨b, u, heq, hb⟩ := hlong
        cases heq
        exact absurd (by decide) hb
      · rfl
    apply hc
    rcases eq_of_readLength_zero hn with heq | ⟨-, heq⟩
    · exact .inl heq
    · exact .inr heq
  have hsplit : name ++ val ++ u = v := by
    rw [← hname, ← hval, ← hu, append_assoc, ← drop_drop, take_append_drop, take_append_drop]
  have hlenName : name.length = n := by
    rw [← hname]
    exact length_take_of_le (by omega)
  rw [getParams, if_neg hne, length_of_readLength hn (.inl ht)]
  dsimp only
  rw [if_neg ht, length_of_readLength (c := { c with rest := t }) hm hlong]
  dsimp only
  rw [if_neg (by omega), hname, hval, hu, hsplit, hlenName]
  have hout : (hashReads n).any (fun i => decide (v.length ≤ i))
      = decide (n = 3 ∧ val = [] ∧ u = []) := by
    have hlenVal : val.length = m := by
      rw [← hval, length_take, length_drop]
      omega
    have hlenRest : u.length = v.length - (n + m) := by
      rw [← hu, length_drop]
    rw [Bool.eq_iff_iff, decide_eq_true_iff, List.any_eq_true, ← length_eq_zero_iff,
      ← length_eq_zero_iff, hashReads]
    split_ifs with hshort
    · constructor
      · rintro ⟨i, hi, -⟩
        cases hi
      · omega
    · constructor
      · rintro ⟨i, hi, hle⟩
        have hle := of_decide_eq_true hle
        simp only [mem_cons, not_mem_nil, or_false] at hi
        omega
      · intro hall
        exact ⟨3, mem_cons_self, decide_eq_true (by omega)⟩
  rw [Cursor.hashed]
  rw [hout]
  rfl

/-- Where no pair is read nothing is taken, and no byte behind the content is read. -/
theorem getParams_of_readPair_eq_none (hne : c.rest ≠ [])
    (h : readPair c.rest = none ∨ Cramped c.rest) (fuel : ℕ) (env : Env) :
    ∃ c', getParams (fuel + 1) c env = (false, c', env) ∧ c'.outside = c.outside := by
  rw [getParams, if_neg hne]
  cases hn : readLength c.rest with
  | none =>
    obtain ⟨s, hs⟩ := length_eq_none hne (.inl hn)
    rw [hs]
    exact ⟨_, rfl, rfl⟩
  | some p =>
    obtain ⟨n, t⟩ := p
    by_cases ht : t = []
    · -- a length that is all that is left
      subst ht
      by_cases hlong : longLength c.rest
      · obtain ⟨s, hs⟩ := length_eq_none hne (.inr ⟨hlong, n, hn⟩)
        rw [hs]
        exact ⟨_, rfl, rfl⟩
      · rw [length_of_readLength hn (.inr hlong)]
        exact ⟨_, rfl, rfl⟩
    rw [length_of_readLength hn (.inl ht)]
    dsimp only
    rw [if_neg ht]
    cases hm : readLength t with
    | none =>
      obtain ⟨s, hs⟩ := length_eq_none (c := { c with rest := t }) ht (.inl hm)
      rw [hs]
      exact ⟨_, rfl, rfl⟩
    | some q =>
      obtain ⟨m, v⟩ := q
      by_cases hend : v = [] ∧ longLength t
      · obtain ⟨rfl, hlong⟩ := hend
        obtain ⟨s, hs⟩ := length_eq_none (c := { c with rest := t }) ht (.inr ⟨hlong, m, hm⟩)
        rw [hs]
        exact ⟨_, rfl, rfl⟩
      have hend : v ≠ [] ∨ ¬ longLength t := not_and_or.mp hend
      have hn31 := readLength_bound hn
      have hm31 := readLength_bound hm
      have hlen : v.length < n + m := by
        rcases h with h | h
        · by_contra hle
          rw [readPair, hn, bind_some] at h
          dsimp only at h
          rw [hm, bind_some] at h
          rw [if_neg hle] at h
          cases h
        · -- the last length would be a long one with nothing behind
          have hlong : longLength [128, 0, 0, 0] := ⟨128, [0, 0, 0], rfl, by decide⟩
          have htail : t = [128, 0, 0, 0] := by
            rcases h with h | h
            · rw [h] at hn
              exact (Prod.mk.inj (Option.some.inj hn)).2.symm
            · rw [h] at hn
              exact (Prod.mk.inj (Option.some.inj hn)).2.symm
          rw [htail] at hm hend
          obtain rfl := (Prod.mk.inj (Option.some.inj hm)).2
          rcases hend with hend | hend
          · exact absurd rfl hend
          · exact absurd hlong hend
      rw [length_of_readLength (c := { c with rest := t }) hm hend]
      dsimp only
      rw [if_pos (by rw [Nat.mod_eq_of_lt (by omega)]; exact hlen)]
      exact ⟨_, rfl, rfl⟩

/-! ## All pairs -/

theorem readPairs_of_readPair {p : Bytes × Bytes} (h : readPair s = some (p, t)) :
    readPairs s = (readPairs t).map (p :: ·) := readAll_cons consumes_readPair h

theorem readPairs_eq_none (hne : s ≠ []) (h : readPair s = none) : readPairs s = none := by
  cases s with
  | nil => exact absurd rfl hne
  | cons b s =>
    rw [readPairs, readAll, length_cons, FastcgiWire.readLoop, h]
    · rfl
    · exact hne

theorem readPairs_cramped (h : Cramped s) : readPairs s = some [([], [])] := by
  have hpair : readPair s = some (([], []), []) := by
    rcases h with rfl | rfl
    · exact @readPair_of_lengths [0] [128, 0, 0, 0] [] [] (fun _ => rfl) (fun _ => rfl) []
    · exact @readPair_of_lengths [128, 0, 0, 0] [128, 0, 0, 0] [] [] (fun _ => rfl)
        (fun _ => rfl) []
  rw [readPairs_of_readPair hpair]
  rfl

/-- The last pair is one that is not seen. -/
inductive EndsCramped : Bytes → Prop
  | here {s : Bytes} (h : Cramped s) : EndsCramped s
  | there {s t : Bytes} {p : Bytes × Bytes} (hp : readPair s = some (p, t))
      (h : EndsCramped t) : EndsCramped s

/-- **Malformed content** makes the function fail, and no byte behind it is read. -/
theorem getParams_of_malformed (h : readPairs c.rest = none) (hfuel : c.rest.length ≤ fuel)
    (env : Env) :
    (getParams fuel c env).1 = false ∧ (getParams fuel c env).2.1.outside = c.outside := by
  induction fuel generalizing c env with
  | zero =>
    rw [eq_nil_of_length_eq_zero (Nat.le_zero.mp hfuel)] at h
    cases h
  | succ fuel ih =>
    have hne : c.rest ≠ [] := by
      intro hnil
      rw [hnil] at h
      cases h
    cases hp : readPair c.rest with
    | none =>
      obtain ⟨c', hc', hout⟩ := getParams_of_readPair_eq_none hne (.inl hp) fuel env
      rw [hc']
      exact ⟨rfl, hout⟩
    | some q =>
      obtain ⟨⟨name, val⟩, u⟩ := q
      have hu : readPairs u = none := by
        rw [readPairs_of_readPair hp] at h
        exact map_eq_none_iff.mp h
      have hcramped : ¬ Cramped c.rest := by
        intro hc
        rw [readPairs_cramped hc] at h
        cases h
      have hlt := consumes_readPair _ _ _ hp
      rw [getParams_of_readPair hp hcramped]
      obtain ⟨hok, hout⟩ := ih (c := { c with
        rest := u
        outside := c.outside || decide (name.length = 3 ∧ val = [] ∧ u = []) }) hu
        (by dsimp only; omega) _
      refine ⟨hok, hout.trans ?_⟩
      -- there is more behind the pair
      have hnil : u ≠ [] := by
        rintro rfl
        cases hu
      rw [decide_eq_false (fun hall => hnil hall.2.2), Bool.or_false]

/-- Several names get values. -/
def Env.setAll (env : Env) (l : List (ℕ × Bytes × Bytes)) : Env :=
  l.foldl (fun env x => env.set x.1 x.2.1 x.2.2) env

/-- The hash value that a name gets as the bytes of the record. -/
def nameHash (name : Bytes) : ℕ :=
  hashFunc fromUChar (fun i => name.getD i 0) name.length

/-- What is behind a name does not matter for its hash value, unless it has three bytes. -/
theorem hashFunc_eq_nameHash (hlen : name.length ≠ 3) (t : Bytes) (b : UInt8) :
    hashFunc fromUChar (fun i => (name ++ t).getD i b) name.length = nameHash name := by
  rw [nameHash, hashFunc, hashFunc]
  split_ifs with hshort
  · rfl
  · have hbyte : ∀ i < name.length, (name ++ t).getD i b = name.getD i 0 := by
      intro i hi
      rw [getD_append _ _ _ _ hi, getD_eq_getElem _ _ hi, getD_eq_getElem _ _ hi]
    rw [hbyte 3 (by omega), hbyte _ (by omega), hbyte _ (by omega)]

/-- **Pairs** are all taken, one after the other. -/
theorem getParams_of_pairs {ps : List (Bytes × Bytes)} (h : readPairs c.rest = some ps)
    (hc : ¬ EndsCramped c.rest) (hfuel : c.rest.length ≤ fuel) (env : Env) :
    ∃ c' l, getParams fuel c env = (true, c', env.setAll l) ∧ l.map Prod.snd = ps ∧
      ∀ x ∈ l, x.2.1.length ≠ 3 → x.1 = nameHash x.2.1 := by
  induction fuel generalizing c env ps with
  | zero =>
    rw [eq_nil_of_length_eq_zero (Nat.le_zero.mp hfuel)] at h
    cases h
    exact ⟨c, [], rfl, rfl, nofun⟩
  | succ fuel ih =>
    by_cases hne : c.rest = []
    · rw [hne] at h
      cases h
      refine ⟨c, [], ?_, rfl, nofun⟩
      rw [getParams, if_pos hne]
      rfl
    cases hp : readPair c.rest with
    | none =>
      rw [readPairs_eq_none hne hp] at h
      cases h
    | some q =>
      obtain ⟨⟨name, val⟩, u⟩ := q
      rw [readPairs_of_readPair hp, map_eq_some_iff] at h
      obtain ⟨ps, hu, rfl⟩ := h
      have hlt := consumes_readPair _ _ _ hp
      rw [getParams_of_readPair hp fun hcramped => hc (.here hcramped)]
      obtain ⟨c', l, hl, hmap, hhash⟩ := ih (c := { c with
        rest := u
        outside := c.outside || decide (name.length = 3 ∧ val = [] ∧ u = []) }) hu
        (fun hcramped => hc (.there hp hcramped)) (by dsimp only; omega) _
      refine ⟨c', (_, name, val) :: l, hl, congrArg ((name, val) :: ·) hmap, ?_⟩
      intro x hx hlen
      rcases mem_cons.mp hx with rfl | hx
      · rw [append_assoc]
        exact hashFunc_eq_nameHash hlen _ _
      · exact hhash x hx hlen

end FcgiInput
