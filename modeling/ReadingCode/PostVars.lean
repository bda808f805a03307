/-
# The variables of a form

`php_std_post_handler` appends what it reads of a body to a buffer, and `add_post_vars` takes the
complete variables from the front of it.  The names are decoded where they are.  What is handed to
the input filter is compared with the parts of the whole body.
-/
import Mathlib.Data.List.TakeWhile
import ReadingCode.Bytes

namespace PhpVariables

open List Option

/-! ## The source -/

/-- `isxdigit` -/
def isxdigit (c : UInt8) : Bool := (48 ≤ c ∧ c ≤ 57) ∨ (65 ≤ c ∧ c ≤ 70) ∨ (97 ≤ c ∧ c ≤ 102)

/-- A digit in `php_htoi`. -/
def hexValue (c : UInt8) : ℕ :=
  let c := if 65 ≤ c ∧ c ≤ 90 then c + 32 else c
  if 48 ≤ c ∧ c ≤ 57 then c.toNat - 48 else c.toNat - 97 + 10

/-- `php_htoi` -/
def htoi (h l : UInt8) : UInt8 := UInt8.ofNat (hexValue h * 16 + hexValue l)

/-- Two of the sixteen digits are written for a byte, and they give it back. -/
theorem digits_spec (ds : Bytes)
    (h : ds = [48, 49, 50, 51, 52, 53, 54, 55, 56, 57, 65, 66, 67, 68, 69, 70]) (c : UInt8) :
    (ds.getD (c >>> 4).toNat 0 ∈ ds ∧ ds.getD (c &&& 15).toNat 0 ∈ ds) ∧
      isxdigit (ds.getD (c >>> 4).toNat 0) ∧ isxdigit (ds.getD (c &&& 15).toNat 0) ∧
      htoi (ds.getD (c >>> 4).toNat 0) (ds.getD (c &&& 15).toNat 0) = c := by
  subst h
  obtain ⟨⟨n⟩⟩ := c
  revert n
  decide +kernel

/-- `php_url_decode`, what it leaves in front of the NUL. -/
def urlDecode : Bytes → Bytes
  | [] => []
  | c :: h :: l :: s =>
    if c = 43 then 32 :: urlDecode (h :: l :: s)
    else if c = 37 ∧ isxdigit h ∧ isxdigit l then htoi h l :: urlDecode s
    else c :: urlDecode (h :: l :: s)
  | c :: s => (if c = 43 then 32 else c) :: urlDecode s

/-- The string that a pointer to these bytes and a NUL stands for. -/
def cString (s : Bytes) : Bytes := s.takeWhile (· ≠ 0)

/-- `memchr` in the `n` bytes at `start`. -/
def memchr (c : UInt8) (s : Bytes) (start n : ℕ) : Option ℕ :=
  (((s.drop start).take n).findIdx? (· == c)).map (start + ·)

/-- Bytes are written over others.  What is written behind the end is in none of the strings. -/
def writeAt (s : Bytes) (at' : ℕ) (bytes : Bytes) : Bytes :=
  (s.take at' ++ bytes ++ s.drop (at' + bytes.length)).take s.length

/-- A variable that was handed to the input filter, and where it is in the body. -/
structure PostVar where
  start : ℕ
  stop : ℕ
  name : Bytes
  value : Bytes
  deriving DecidableEq

/-- `sapi_module.input_filter`: the new value if the variable is to be registered. -/
abbrev InputFilter (σ : Type) : Type := σ → Bytes → Bytes → σ × Option Bytes

/-- `post_var_data`, with the variables that were handed over and those that were registered.
`removed` is what was in front of the buffer. -/
structure PostVarData (σ : Type) where
  str : Bytes
  ptr : ℕ
  cnt : ℕ
  alreadyScanned : ℕ
  removed : ℕ
  handed : List PostVar
  registered : List (Bytes × Bytes)
  world : σ

variable {σ : Type} (filter : InputFilter σ)

/-- The copy of a value is decoded if it is not empty. -/
def decodeValue (vlen : ℕ) (val : Bytes) : Bytes :=
  if vlen ≠ 0 then urlDecode val else val

/-- The name and the value of the variable between `ptr` and `vsep`, and the buffer in which the
name has been decoded. -/
def decodePart (str : Bytes) (ptr vsep : ℕ) : Bytes × Bytes × Bytes :=
  let ksep := memchr 61 str ptr (vsep - ptr)
  let klen := ksep.getD vsep - ptr
  -- without a separator the value is the empty string
  let vstart := (ksep.map (· + 1)).getD vsep
  let vlen := vsep - vstart
  let str := match ksep with
    | some ksep => str.set ksep 0
    | none => str
  let name := urlDecode ((str.drop ptr).take klen)
  let str := writeAt str ptr (name ++ [0])
  (cString name, decodeValue vlen ((str.drop vstart).take vlen), str)

/-- The call of `php_register_variable_safe`, if the filter lets the variable pass. -/
def register (name : Bytes) : Option Bytes → List (Bytes × Bytes)
  | some newVal => [(name, newVal)]
  | none => []

/-- What `add_post_var` does with the variable in front of `vsep`. -/
def addPart (var : PostVarData σ) (vsep : ℕ) : PostVarData σ :=
  let (name, val, str) := decodePart var.str var.ptr vsep
  let (world, verdict) := filter var.world name val
  { var with
    str := str, world := world,
    handed := var.handed ++ [⟨var.removed + var.ptr, var.removed + vsep, name, val⟩],
    registered := var.registered ++ register name verdict,
    ptr := vsep + (if vsep ≠ var.str.length then 1 else 0), alreadyScanned := 0 }

/-- `add_post_var` -/
def addPostVar (eof : Bool) (var : PostVarData σ) : PostVarData σ × Bool :=
  let stop := var.str.length
  if stop ≤ var.ptr then (var, false)
  else
    let start := var.ptr + var.alreadyScanned
    match memchr 38 var.str start (stop - start) with
    | some vsep => (addPart filter var vsep, true)
    | none =>
      if eof then (addPart filter var stop, true)
      else ({ var with alreadyScanned := stop - var.ptr }, false)

/-- The loop of `add_post_vars`, with `false` for `FAILURE`. -/
def addPostVarsLoop (maxVars : ℕ) (eof : Bool) : ℕ → PostVarData σ → PostVarData σ × Bool
  | 0, vars => (vars, true)
  | fuel + 1, vars =>
    match addPostVar filter eof vars with
    | (vars, false) => (vars, true)
    | (vars, true) =>
      let vars := { vars with cnt := vars.cnt + 1 }
      if vars.cnt > maxVars then (vars, false) else addPostVarsLoop maxVars eof fuel vars

/-- `add_post_vars` -/
def addPostVars (maxVars : ℕ) (eof : Bool) (vars : PostVarData σ) : PostVarData σ × Bool :=
  match addPostVarsLoop filter maxVars eof (vars.str.length + 1) { vars with ptr := 0 } with
  | (vars, false) => (vars, false)
  | (vars, true) =>
    if ¬ eof ∧ vars.ptr ≠ 0 then
      ({ vars with str := vars.str.drop vars.ptr, removed := vars.removed + vars.ptr }, true)
    else (vars, true)

/-- What is read is appended to the buffer, and at the end the last variable is added.  If nothing
was read there is no buffer, and nothing to add. -/
def addReads (maxVars : ℕ) : List Bytes → PostVarData σ → PostVarData σ
  | [], data => (addPostVars filter maxVars true data).1
  | buf :: reads, data =>
    if buf = [] then addReads maxVars reads data
    else
      match addPostVars filter maxVars false { data with str := data.str ++ buf } with
      | (data, false) => data
      | (data, true) => addReads maxVars reads data

/-- `php_default_input_filter` -/
def defaultInputFilter : InputFilter Unit := fun world _ val => (world, some val)

/-- `post_data` before anything is read. -/
def noData (world : σ) : PostVarData σ := ⟨[], 0, 0, 0, 0, [], [], world⟩

/-- The reads up to the first one that does not fill the buffer. -/
def readsToEnd (bufsiz : ℕ) : List Bytes → List Bytes
  | [] => []
  | buf :: reads => if buf.length ≠ bufsiz then [buf] else buf :: readsToEnd bufsiz reads

/-- `php_std_post_handler`, for what the reads of the stream give. -/
def stdPostHandler (maxVars bufsiz : ℕ) (reads : List Bytes) (world : σ) : PostVarData σ :=
  addReads filter maxVars (readsToEnd bufsiz reads) (noData world)

/-! ## The parts of a body -/

/-- A body is split at each `&`.  Behind the last one there is a part only if something is. -/
def splitAmp : Bytes → List Bytes
  | [] => []
  | c :: s =>
    if c = 38 then [] :: splitAmp s
    else
      match splitAmp s with
      | [] => [[c]]
      | p :: ps => (c :: p) :: ps

/-- A part is split at its first `=`, and both halves are decoded. -/
def partVar (start : ℕ) (p : Bytes) : PostVar where
  start := start
  stop := start + p.length
  name := cString (urlDecode (p.takeWhile (· ≠ 61)))
  value := urlDecode ((p.dropWhile (· ≠ 61)).drop 1)

/-- The variables of parts that follow each other. -/
def place : ℕ → List Bytes → List PostVar
  | _, [] => []
  | start, p :: ps => partVar start p :: place (start + p.length + 1) ps

/-- The variables of a text that begins at `start`. -/
def vars (start : ℕ) (s : Bytes) : List PostVar := place start (splitAmp s)

/-- What the filter leaves of variables that it is given one after the other. -/
def filterAll : σ → List PostVar → σ × List (Bytes × Bytes)
  | world, [] => (world, [])
  | world, v :: vs =>
    let (world, verdict) := filter world v.name v.value
    let (world, registered) := filterAll world vs
    (world, register v.name verdict ++ registered)

variable {p r s bytes : Bytes} {c : UInt8} {k n : ℕ}

/-! ## Lemmas about bytes -/

theorem length_urlDecode_le (s : Bytes) : (urlDecode s).length ≤ s.length := by
  fun_induction urlDecode s with
  | case1 => exact Nat.le_refl 0
  | case2 h l s ih => exact Nat.succ_le_succ ih
  | case3 c h l s h43 hx ih =>
    simp only [length_cons]
    omega
  | case4 c h l s h43 hx ih => exact Nat.succ_le_succ ih
  | case5 c s hs ih => exact Nat.succ_le_succ ih

theorem memchr_none (h : c ∉ (s.drop k).take n) : memchr c s k n = none := by
  unfold memchr
  rw [findIdx?_eq_none_iff.mpr fun b hb => ?_, map_none]
  exact beq_eq_false_iff_ne.mpr fun hbc => h (hbc ▸ hb)

theorem memchr_some (h : (s.drop k).take n = p ++ c :: r) (hp : c ∉ p) :
    memchr c s k n = some (k + p.length) := by
  unfold memchr
  rw [h, findIdx?_append, findIdx?_eq_none_iff.mpr fun b hb => ?_]
  · rw [findIdx?_cons]
    simp
  · exact beq_eq_false_iff_ne.mpr fun hbc => hp (hbc ▸ hb)

theorem length_writeAt (h : k ≤ s.length) : (writeAt s k bytes).length = s.length := by
  unfold writeAt
  simp only [length_take, length_append, length_drop]
  omega

/-- What is behind the bytes that are written stays. -/
theorem drop_writeAt (hk : k ≤ s.length) (hn : k + bytes.length ≤ n) :
    (writeAt s k bytes).drop n = s.drop n := by
  unfold writeAt
  have hlen : (s.take k ++ bytes).length = k + bytes.length := by
    rw [length_append, length_take, min_eq_left hk]
  rw [drop_take, drop_append, hlen, drop_drop, drop_eq_nil_of_le (by omega), nil_append,
    show k + bytes.length + (n - (k + bytes.length)) = n by omega]
  exact take_of_length_le (by rw [length_drop])

theorem splitAmp_cons (hp : (38 : UInt8) ∉ p) (r : Bytes) :
    splitAmp (p ++ 38 :: r) = p :: splitAmp r := by
  induction p with
  | nil => rfl
  | cons c p ih =>
    rw [mem_cons, not_or] at hp
    rw [cons_append, splitAmp, if_neg (Ne.symm hp.1), ih hp.2]

theorem splitAmp_last (hp : (38 : UInt8) ∉ p) (hne : p ≠ []) : splitAmp p = [p] := by
  induction p with
  | nil => exact absurd rfl hne
  | cons c p ih =>
    rw [mem_cons, not_or] at hp
    rw [splitAmp, if_neg (Ne.symm hp.1)]
    cases p with
    | nil => rfl
    | cons d p => rw [ih hp.2 (cons_ne_nil d p)]

theorem vars_cons (hp : (38 : UInt8) ∉ p) (start : ℕ) (r : Bytes) :
    vars start (p ++ 38 :: r) = partVar start p :: vars (start + p.length + 1) r := by
  rw [vars, splitAmp_cons hp, place, vars]

theorem vars_last (hp : (38 : UInt8) ∉ p) (hne : p ≠ []) (start : ℕ) :
    vars start p = [partVar start p] := by
  rw [vars, splitAmp_last hp hne, place, place]

theorem vars_nil (start : ℕ) : vars start [] = [] := rfl

/-! ## A variable -/

theorem decodeValue_eq (s : Bytes) : decodeValue s.length s = urlDecode s := by
  by_cases h : s.length = 0
  · obtain rfl := length_eq_zero_iff.mp h
    rfl
  · exact if_pos h

/-- What is decoded of a part, and the rest of the buffer is as it was. -/
structure Decoded (str : Bytes) (ptr : ℕ) (p : Bytes)
    (res : Bytes × Bytes × Bytes) : Prop where
  name : res.1 = cString (urlDecode (p.takeWhile (· ≠ 61)))
  value : res.2.1 = urlDecode ((p.dropWhile (· ≠ 61)).drop 1)
  length : res.2.2.length = str.length
  rest : res.2.2.drop (ptr + p.length + 1) = str.drop (ptr + p.length + 1)

variable {t str : Bytes} {ptr : ℕ}

theorem decodePart_key {a b : Bytes} (ha : (61 : UInt8) ∉ a)
    (h : str.drop ptr = a ++ 61 :: b ++ t) :
    Decoded str ptr (a ++ 61 :: b) (decodePart str ptr (ptr + (a ++ 61 :: b).length)) := by
  have hlen : (a ++ 61 :: b).length = a.length + b.length + 1 := by
    rw [length_append]
    rfl
  have hstr : str.length = ptr + (a ++ 61 :: b ++ t).length := by
    have hdrop := congrArg List.length h
    rw [length_drop, length_append] at hdrop
    rw [length_append]
    omega
  have hksep : memchr 61 str ptr (ptr + (a ++ 61 :: b).length - ptr) = some (ptr + a.length) := by
    refine memchr_some (r := b) ?_ ha
    rw [Nat.add_sub_cancel_left, h, take_left]
  have hname : ((str.set (ptr + a.length) 0).drop ptr).take (ptr + a.length - ptr) = a := by
    rw [drop_set, if_neg (by omega), Nat.add_sub_cancel_left, take_set_of_le le_rfl, h,
      append_assoc, take_left]
  have hle := length_urlDecode_le a
  have hptr : ptr ≤ (str.set (ptr + a.length) 0).length := by
    rw [length_set]
    omega
  have hbehind : ∀ n, ptr + a.length + 1 ≤ n →
      (writeAt (str.set (ptr + a.length) 0) ptr (urlDecode a ++ [0])).drop n = str.drop n := by
    intro n hn
    rw [drop_writeAt hptr (by rw [length_append, length_singleton]; omega),
      drop_set_of_lt (by omega)]
  have hval : (str.drop (ptr + a.length + 1)).take b.length = b := by
    have hsplit : a ++ 61 :: b ++ t = a ++ [61] ++ (b ++ t) := by simp
    rw [Nat.add_assoc, ← drop_drop, h, hsplit,
      drop_left' (by rw [length_append, length_singleton]), take_left]
  have hne : ∀ c ∈ a, decide (c ≠ 61) = true := fun c hc => by
    rw [decide_eq_true_iff]
    rintro rfl
    exact ha hc
  unfold decodePart
  rw [hksep]
  dsimp only [getD_some, map_some]
  rw [hname, show ptr + (a ++ 61 :: b).length - (ptr + a.length + 1) = b.length by omega,
    hbehind _ le_rfl, hval, decodeValue_eq]
  refine ⟨?_, ?_, ?_, ?_⟩
  · rw [takeWhile_append_of_pos hne, takeWhile_cons_of_neg (by decide), append_nil]
  · rw [dropWhile_append_of_pos hne]
    rfl
  · rw [length_writeAt hptr, length_set]
  · exact hbehind _ (by omega)

theorem decodePart_noKey (hp : (61 : UInt8) ∉ p) (h : str.drop ptr = p ++ t)
    (hptr : ptr ≤ str.length) : Decoded str ptr p (decodePart str ptr (ptr + p.length)) := by
  have hksep : memchr 61 str ptr (ptr + p.length - ptr) = none := by
    refine memchr_none ?_
    rwa [Nat.add_sub_cancel_left, h, take_left]
  have hle := length_urlDecode_le p
  have hne : ∀ c ∈ p, decide (c ≠ 61) = true := fun c hc => by
    rw [decide_eq_true_iff]
    rintro rfl
    exact hp hc
  unfold decodePart
  rw [hksep]
  dsimp only [getD_none, map_none]
  rw [Nat.add_sub_cancel_left, h, take_left, Nat.sub_self]
  refine ⟨?_, ?_, length_writeAt hptr, ?_⟩
  · rw [takeWhile_eq_self_iff.mpr hne]
  · rw [dropWhile_eq_nil_iff.mpr hne]
    rfl
  · exact drop_writeAt hptr (by rw [length_append, length_singleton]; omega)

/-- Every part is split at its first `=`. -/
theorem decodePart_spec (h : str.drop ptr = p ++ t)
    (hptr : ptr ≤ str.length) : Decoded str ptr p (decodePart str ptr (ptr + p.length)) := by
  by_cases hp : (61 : UInt8) ∈ p
  · obtain ⟨a, b, rfl, ha⟩ := eq_append_cons_of_mem hp
    exact decodePart_key ha h
  · exact decodePart_noKey hp h hptr

variable {filter} {w : σ} {all : List PostVar} {more : Bytes} {d : PostVarData σ}
  {eof : Bool} {maxVars : ℕ}

theorem filterAll_concat (w : σ) (vs : List PostVar) (v : PostVar) :
    filterAll filter w (vs ++ [v]) = ((filter (filterAll filter w vs).1 v.name v.value).1,
        (filterAll filter w vs).2 ++
          register v.name (filter (filterAll filter w vs).1 v.name v.value).2) := by
  induction vs generalizing w with
  | nil =>
    exact congrArg (_, ·) (append_nil _)
  | cons u vs ih =>
    rw [cons_append, filterAll, filterAll]
    dsimp only
    rw [ih, append_assoc]

theorem length_filterAll_le (w : σ) (vs : List PostVar) :
    (filterAll filter w vs).2.length ≤ vs.length := by
  induction vs generalizing w with
  | nil => exact Nat.le_refl 0
  | cons v vs ih =>
    rw [filterAll, length_append, length_cons]
    have hone : (register v.name (filter w v.name v.value).2).length ≤ 1 := by
      cases (filter w v.name v.value).2
      · exact Nat.zero_le 1
      · exact Nat.le_refl 1
    have htail := ih (filter w v.name v.value).1
    omega

/-- What holds at a variable: what was handed over and what the rest of the body gives are all
variables of the body, and what was scanned before has no `&`. -/
structure Going (filter : InputFilter σ) (w : σ) (all : List PostVar) (more : Bytes)
    (d : PostVarData σ) : Prop where
  ptr_le : d.ptr ≤ d.str.length
  all_eq : d.handed ++ vars (d.removed + d.ptr) (d.str.drop d.ptr ++ more) = all
  filtered : filterAll filter w d.handed = (d.world, d.registered)
  scanned_le : d.alreadyScanned ≤ (d.str.drop d.ptr).length
  scanned : (38 : UInt8) ∉ (d.str.drop d.ptr).take d.alreadyScanned

/-- What `add_post_var` does with a part: the next one begins behind its `&`. -/
theorem addPart_going (hg : Going filter w all more d) (hdrop : d.str.drop d.ptr = p ++ t)
    (hall : vars (d.removed + d.ptr) (p ++ t ++ more) = partVar (d.removed + d.ptr) p ::
        vars (d.removed + (d.ptr + p.length + min 1 t.length)) (t.drop 1 ++ more)) :
    Going filter w all more (addPart filter d (d.ptr + p.length)) ∧
      (addPart filter d (d.ptr + p.length)).handed.length = d.handed.length + 1 ∧
      (addPart filter d (d.ptr + p.length)).cnt = d.cnt ∧
      (addPart filter d (d.ptr + p.length)).str.length = d.str.length ∧
      (addPart filter d (d.ptr + p.length)).ptr = d.ptr + p.length + min 1 t.length := by
  have hdec := decodePart_spec hdrop hg.ptr_le
  have hfil := hg.filtered
  rcases hpart : decodePart d.str d.ptr (d.ptr + p.length) with ⟨name, val, str⟩
  rw [hpart] at hdec
  obtain ⟨hname, hvalue, hlen, hrest⟩ := hdec
  dsimp only at hname hvalue hlen hrest
  have hstr : d.str.length = d.ptr + p.length + t.length := by
    have hsum := congrArg List.length hdrop
    have hle := hg.ptr_le
    rw [length_drop, length_append] at hsum
    omega
  have hsep : (if d.ptr + p.length ≠ d.str.length then 1 else 0) = min 1 t.length := by
    split <;> omega
  have hbehind : str.drop (d.ptr + p.length + min 1 t.length) = t.drop 1 := by
    match t with
    | [] => exact drop_eq_nil_of_le (by rw [hlen, hstr]; rfl)
    | c :: t =>
      rw [length_cons, Nat.min_eq_left (Nat.succ_le_succ (Nat.zero_le _)), hrest,
        Nat.add_assoc, ← drop_drop, hdrop, ← drop_drop, drop_left]
  have hadd : addPart filter d (d.ptr + p.length) =
      { d with
        str := str, world := (filter d.world name val).1,
        handed := d.handed ++ [partVar (d.removed + d.ptr) p],
        registered := d.registered ++ register name (filter d.world name val).2,
        ptr := d.ptr + p.length + min 1 t.length, alreadyScanned := 0 } := by
    rw [addPart, hpart]
    rw [hsep, partVar, ← hname, ← hvalue, Nat.add_assoc d.removed d.ptr]
  rw [hadd]
  refine ⟨⟨?_, ?_, ?_, ?_, ?_⟩, ?_, rfl, hlen, rfl⟩
  · dsimp only
    omega
  · rw [hbehind, append_assoc, singleton_append, ← hall, ← hdrop]
    exact hg.all_eq
  · rw [filterAll_concat, hfil, partVar, ← hname, ← hvalue]
  · exact Nat.zero_le _
  · exact not_mem_nil
  · rw [length_append, length_singleton]

/-- What holds when no variable is complete: the whole buffer was scanned. -/
def Stopped (eof : Bool) (d : PostVarData σ) : Prop :=
  (38 : UInt8) ∉ d.str.drop d.ptr ∧ d.alreadyScanned = (d.str.drop d.ptr).length ∧
    (eof = true → d.str.drop d.ptr = [])

/-- What one call of `add_post_var` does. -/
def Step (filter : InputFilter σ) (w : σ) (all : List PostVar) (more : Bytes) (eof : Bool)
    (d : PostVarData σ) : PostVarData σ × Bool → Prop
  | (d', true) =>
    Going filter w all more d' ∧ d'.handed.length = d.handed.length + 1 ∧ d'.cnt = d.cnt ∧
      d'.str.length - d'.ptr < d.str.length - d.ptr
  | (d', false) =>
    Going filter w all more d' ∧ d'.handed = d.handed ∧ d'.cnt = d.cnt ∧ Stopped eof d'

theorem addPart_step (hg : Going filter w all more d)
    (hdrop : d.str.drop d.ptr = p ++ t) (hne : p ++ t ≠ [])
    (hall : vars (d.removed + d.ptr) (p ++ t ++ more) = partVar (d.removed + d.ptr) p ::
        vars (d.removed + (d.ptr + p.length + min 1 t.length)) (t.drop 1 ++ more)) :
    Step filter w all more eof d (addPart filter d (d.ptr + p.length), true) := by
  obtain ⟨hgoing, hhanded, hcnt, hlen, hptr⟩ := addPart_going hg hdrop hall
  refine ⟨hgoing, hhanded, hcnt, ?_⟩
  have hsum := congrArg List.length hdrop
  have hpos := length_pos_iff.mpr hne
  rw [length_drop, length_append] at hsum
  rw [length_append] at hpos
  omega

/-- The complete variable in front is taken, at the end of the body the last one, and otherwise it
is noted what was scanned. -/
theorem addPostVar_step (hg : Going filter w all more d) (heof : eof = true → more = []) :
    Step filter w all more eof d (addPostVar filter eof d) := by
  have hptr := hg.ptr_le
  have hlen : (d.str.drop d.ptr).length = d.str.length - d.ptr := length_drop
  have hscan := hg.scanned_le
  unfold addPostVar
  dsimp only
  by_cases hend : d.str.length ≤ d.ptr
  · have hnil : d.str.drop d.ptr = [] := drop_eq_nil_of_le hend
    rw [if_pos hend]
    refine ⟨hg, rfl, rfl, ?_, ?_, fun _ => hnil⟩
    · rw [hnil]
      exact not_mem_nil
    · omega
  rw [if_neg hend]
  have htake : (d.str.drop (d.ptr + d.alreadyScanned)).take
      (d.str.length - (d.ptr + d.alreadyScanned)) =
        (d.str.drop d.ptr).drop d.alreadyScanned := by
    rw [drop_drop]
    exact take_of_length_le (by rw [length_drop])
  have hne : d.str.drop d.ptr ≠ [] := fun h => by
    rw [h, length_nil] at hlen
    omega
  by_cases hamp : (38 : UInt8) ∈ (d.str.drop d.ptr).drop d.alreadyScanned
  · obtain ⟨q, r, hsplit, hq⟩ := eq_append_cons_of_mem hamp
    have hrest : d.str.drop d.ptr = (d.str.drop d.ptr).take d.alreadyScanned ++ q ++ 38 :: r := by
      rw [append_assoc, ← hsplit, take_append_drop]
    have hplen : ((d.str.drop d.ptr).take d.alreadyScanned ++ q).length =
        d.alreadyScanned + q.length := by
      rw [length_append, length_take, Nat.min_eq_left hscan]
    have hno : (38 : UInt8) ∉ (d.str.drop d.ptr).take d.alreadyScanned ++ q := by
      rw [mem_append, not_or]
      exact ⟨hg.scanned, hq⟩
    rw [memchr_some (htake.trans hsplit) hq, Nat.add_assoc, ← hplen]
    refine addPart_step hg hrest (by rw [← hrest]; exact hne) ?_
    rw [append_assoc, cons_append, vars_cons hno, ← Nat.add_assoc, ← Nat.add_assoc]
    rfl
  · rw [memchr_none (by rw [htake]; exact hamp)]
    have hno : (38 : UInt8) ∉ d.str.drop d.ptr := by
      rw [← take_append_drop d.alreadyScanned (d.str.drop d.ptr), mem_append, not_or]
      exact ⟨hg.scanned, hamp⟩
    cases eof with
    | true =>
      have hstop : d.str.length = d.ptr + (d.str.drop d.ptr).length := by omega
      rw [hstop]
      refine addPart_step hg (append_nil _).symm (by rwa [append_nil]) ?_
      rw [heof rfl, append_nil, append_nil, vars_last hno hne]
      rfl
    | false =>
      exact ⟨⟨hptr, hg.all_eq, hg.filtered, hlen.ge, by rwa [take_of_length_le hlen.le]⟩,
        rfl, rfl, hno, hlen.symm, nofun⟩

/-- What the loop of `add_post_vars` does: it stops with all complete variables taken, or fails
when one more than the maximum has been handed over. -/
def Looped (filter : InputFilter σ) (w : σ) (all : List PostVar) (more : Bytes) (eof : Bool)
    (maxVars : ℕ) : PostVarData σ × Bool → Prop
  | (d', true) =>
    Going filter w all more d' ∧ d'.cnt = d'.handed.length ∧ d'.cnt ≤ maxVars ∧ Stopped eof d'
  | (d', false) =>
    d'.handed = all.take (maxVars + 1) ∧
      filterAll filter w d'.handed = (d'.world, d'.registered)

theorem addPostVarsLoop_looped (fuel : ℕ) (hg : Going filter w all more d)
    (heof : eof = true → more = []) (hcnt : d.cnt = d.handed.length) (hmax : d.cnt ≤ maxVars)
    (hfuel : d.str.length - d.ptr < fuel) :
    Looped filter w all more eof maxVars (addPostVarsLoop filter maxVars eof fuel d) := by
  induction fuel generalizing d with
  | zero => exact absurd hfuel (Nat.not_lt_zero _)
  | succ fuel ih =>
    have hstep := addPostVar_step hg heof
    rw [addPostVarsLoop]
    match addPostVar filter eof d, hstep with
    | (d', false), ⟨hgoing, hhanded, hsame, hstopped⟩ =>
      exact ⟨hgoing, by rw [hsame, hcnt, hhanded], by rw [hsame]; exact hmax, hstopped⟩
    | (d', true), ⟨hgoing, hhanded, hsame, hless⟩ =>
      dsimp only
      have hgoing' : Going filter w all more { d' with cnt := d'.cnt + 1 } :=
        ⟨hgoing.ptr_le, hgoing.all_eq, hgoing.filtered, hgoing.scanned_le, hgoing.scanned⟩
      by_cases hgt : d'.cnt + 1 > maxVars
      · rw [if_pos hgt]
        refine ⟨?_, hgoing.filtered⟩
        rw [← hgoing.all_eq, take_left' (by omega)]
      · rw [if_neg hgt]
        exact ih hgoing' (by dsimp only; omega) (by dsimp only; omega) (by dsimp only; omega)

/-! ## The whole body -/

/-- What holds between two reads: the buffer is the beginning of a variable, and was scanned. -/
structure Waiting (filter : InputFilter σ) (w : σ) (all : List PostVar) (maxVars : ℕ)
    (more : Bytes) (d : PostVarData σ) : Prop where
  all_eq : d.handed ++ vars d.removed (d.str ++ more) = all
  filtered : filterAll filter w d.handed = (d.world, d.registered)
  cnt_eq : d.cnt = d.handed.length
  cnt_le : d.cnt ≤ maxVars
  scanned_eq : d.alreadyScanned = d.str.length
  scanned : (38 : UInt8) ∉ d.str

/-- A buffer to which something has been appended. -/
theorem Waiting.going {buf : Bytes} (h : Waiting filter w all maxVars (buf ++ more) d) :
    Going filter w all more { d with str := d.str ++ buf, ptr := 0 } := by
  refine ⟨Nat.zero_le _, ?_, h.filtered, ?_, ?_⟩
  · rw [← h.all_eq, ← append_assoc]
    rfl
  · rw [drop_zero, length_append, h.scanned_eq]
    exact Nat.le_add_right _ _
  · rw [drop_zero, h.scanned_eq, take_left]
    exact h.scanned

/-- What `add_post_vars` does with what has been read, before the end of the body. -/
theorem addPostVars_waiting (hg : Going filter w all more { d with ptr := 0 })
    (hcnt : d.cnt = d.handed.length) (hmax : d.cnt ≤ maxVars) :
    match addPostVars filter maxVars false d with
    | (d', true) => Waiting filter w all maxVars more d'
    | (d', false) =>
      d'.handed = all.take (maxVars + 1) ∧
        filterAll filter w d'.handed = (d'.world, d'.registered) := by
  have hloop : Looped filter w all more false maxVars
      (addPostVarsLoop filter maxVars false (d.str.length + 1) { d with ptr := 0 }) :=
    addPostVarsLoop_looped (d.str.length + 1) hg nofun hcnt hmax (Nat.lt_succ_self _)
  unfold addPostVars
  match addPostVarsLoop filter maxVars false (d.str.length + 1) { d with ptr := 0 }, hloop with
  | (d', false), hfail => exact hfail
  | (d', true), ⟨hgoing, hcnt', hmax', hno, hscanned, _⟩ =>
    dsimp only
    by_cases hptr : d'.ptr = 0
    · rw [if_neg fun h => h.2 hptr]
      have hall := hgoing.all_eq
      rw [hptr] at hall hno hscanned
      exact ⟨hall, hgoing.filtered, hcnt', hmax', hscanned, hno⟩
    · rw [if_pos ⟨by decide, hptr⟩]
      exact ⟨hgoing.all_eq, hgoing.filtered, hcnt', hmax', hscanned, hno⟩

/-- However a body is cut into reads, its variables are handed over in their order, up to one more
than the maximum. -/
theorem addReads_handed (reads : List Bytes) (h : Waiting filter w all maxVars reads.flatten d) :
    (addReads filter maxVars reads d).handed = all.take (maxVars + 1) ∧
      filterAll filter w (all.take (maxVars + 1)) = ((addReads filter maxVars reads d).world,
          (addReads filter maxVars reads d).registered) := by
  induction reads generalizing d with
  | nil =>
    have hg : Going filter w all [] { d with ptr := 0 } := by
      have hg : Going filter w all [] { d with str := d.str ++ [], ptr := 0 } := Waiting.going h
      rwa [append_nil] at hg
    have hloop : Looped filter w all [] true maxVars
        (addPostVarsLoop filter maxVars true (d.str.length + 1) { d with ptr := 0 }) :=
      addPostVarsLoop_looped (d.str.length + 1) hg (fun _ => rfl) h.cnt_eq h.cnt_le
        (Nat.lt_succ_self _)
    rw [addReads]
    unfold addPostVars
    match addPostVarsLoop filter maxVars true (d.str.length + 1) { d with ptr := 0 }, hloop with
    | (d', false), ⟨hhanded, hfiltered⟩ => exact ⟨hhanded, hhanded ▸ hfiltered⟩
    | (d', true), ⟨hgoing, hcnt, hmax, _, _, hempty⟩ =>
      have hall := hgoing.all_eq
      rw [hempty rfl, append_nil, vars_nil, append_nil] at hall
      rw [← hall, take_of_length_le (by omega)]
      exact ⟨rfl, hgoing.filtered⟩
  | cons buf reads ih =>
    rw [addReads]
    by_cases hbuf : buf = []
    · rw [if_pos hbuf]
      refine ih ?_
      rwa [hbuf] at h
    · rw [if_neg hbuf]
      have hgoing : Going filter w all reads.flatten { d with str := d.str ++ buf, ptr := 0 } :=
        Waiting.going h
      have hnext := addPostVars_waiting (d := { d with str := d.str ++ buf }) hgoing h.cnt_eq
        h.cnt_le
      match addPostVars filter maxVars false { d with str := d.str ++ buf }, hnext with
      | (d', false), ⟨hhanded, hfiltered⟩ => exact ⟨hhanded, hhanded ▸ hfiltered⟩
      | (d', true), hwaiting => exact ih hwaiting

/-- Variables that follow each other have no byte in common. -/
theorem place_pairwise (start : ℕ) (ps : List Bytes) :
    (place start ps).Pairwise (fun v v' => v.stop < v'.start) ∧
      ∀ v ∈ place start ps, start ≤ v.start := by
  induction ps generalizing start with
  | nil => exact ⟨List.Pairwise.nil, nofun⟩
  | cons p ps ih =>
    obtain ⟨hpairs, hstart⟩ := ih (start + p.length + 1)
    rw [place, pairwise_cons, forall_mem_cons]
    exact ⟨⟨hstart, hpairs⟩, le_rfl, fun v hv => by have h := hstart v hv; omega⟩

theorem length_place (start : ℕ) (ps : List Bytes) : (place start ps).length = ps.length := by
  induction ps generalizing start with
  | nil => rfl
  | cons p ps ih => rw [place, length_cons, length_cons, ih]

variable (filter)

/-- A body that is read in pieces gives the variables that it gives as a whole, which are its
parts; no byte belongs to two of them, and not more than the maximum are registered. -/
def ParsesRight (maxVars : ℕ) (reads : List Bytes) (w : σ) : Prop :=
  let data := addReads filter maxVars reads (noData w)
  data.handed = (addReads filter maxVars [reads.flatten] (noData w)).handed ∧
    data.handed = vars 0 reads.flatten ∧
    data.handed.Pairwise (fun v v' => v.stop < v'.start) ∧ data.registered.length ≤ maxVars

theorem waiting_noData (maxVars : ℕ) (body : Bytes) (w : σ) :
    Waiting filter w (vars 0 body) maxVars body (noData w) :=
  ⟨rfl, rfl, rfl, Nat.zero_le _, rfl, not_mem_nil⟩

/-- How a body is cut into reads makes no difference. -/
theorem addReads_independent (maxVars : ℕ) (reads : List Bytes) (w : σ) :
    (addReads filter maxVars reads (noData w)).handed =
      (addReads filter maxVars [reads.flatten] (noData w)).handed := by
  have hwaiting := waiting_noData filter maxVars reads.flatten w
  have hreads := addReads_handed reads hwaiting
  rw [← flatten_singleton (l := reads.flatten)] at hwaiting
  rw [hreads.1, (addReads_handed [reads.flatten] hwaiting).1, flatten_singleton]

/-- The handler hands over the variables of what it reads. -/
theorem stdPostHandler_handed (maxVars bufsiz : ℕ) (reads : List Bytes) (w : σ) :
    (stdPostHandler filter maxVars bufsiz reads w).handed =
      (vars 0 (readsToEnd bufsiz reads).flatten).take (maxVars + 1) :=
  (addReads_handed _ (waiting_noData filter maxVars _ w)).1

/-- A form is parsed right exactly when it does not have more variables than the maximum, or one
more, if the filter rejects a variable. -/
theorem parsesRight_iff (maxVars : ℕ) (reads : List Bytes) (w : σ) :
    ParsesRight filter maxVars reads w ↔ (splitAmp reads.flatten).length ≤ maxVars ∨
        ((splitAmp reads.flatten).length = maxVars + 1 ∧
          (filterAll filter w (vars 0 reads.flatten)).2.length ≤ maxVars) := by
  obtain ⟨hhanded, hfiltered⟩ :=
    addReads_handed reads (waiting_noData filter maxVars reads.flatten w)
  have hindependent := addReads_independent filter maxVars reads w
  have hlen : (vars 0 reads.flatten).length = (splitAmp reads.flatten).length := length_place 0 _
  have hpairs := (place_pairwise 0 (splitAmp reads.flatten)).1
  constructor
  · rintro ⟨-, hall, -, hregistered⟩
    have hle : (splitAmp reads.flatten).length ≤ maxVars + 1 := by
      have htake := congrArg List.length (hhanded.symm.trans hall)
      rw [length_take] at htake
      omega
    rcases lt_or_ge (splitAmp reads.flatten).length (maxVars + 1) with hlt | hge
    · exact .inl (Nat.le_of_lt_succ hlt)
    · refine .inr ⟨le_antisymm hle hge, ?_⟩
      rw [take_of_length_le (hlen.trans_le hle)] at hfiltered
      rw [hfiltered]
      exact hregistered
  · intro hcond
    have hle : (vars 0 reads.flatten).length ≤ maxVars + 1 := by omega
    rw [take_of_length_le hle] at hhanded hfiltered
    refine ⟨hindependent, hhanded, by rw [hhanded]; exact hpairs, ?_⟩
    have hregistered : (filterAll filter w (vars 0 reads.flatten)).2.length ≤ _ :=
      length_filterAll_le w (vars 0 reads.flatten)
    rw [hfiltered] at hregistered hcond
    dsimp only at hregistered hcond
    omega

/-- With at most one variable the form "a=1&b=2" has two that are registered. -/
theorem registers_too_many :
    ¬ ParsesRight defaultInputFilter 1 [[97, 61, 49, 38, 98, 61, 50]] () := by
  rintro ⟨-, -, -, hregistered⟩
  revert hregistered
  decide

end PhpVariables
