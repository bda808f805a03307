/-
# Objects in serialized text

Behind the name of its class an object is written as a count and the pairs of a key and a value
between braces.  `php_var_serialize_class` writes the variables that `__sleep` names, and
`php_var_serialize_intern` the properties of any other object.  Both write the count first.

How values are written is a parameter here: it has a state, with the numbers of the values, and
gives the text of one value.  The table of the properties stays the same meanwhile.
-/
import ReadingCode.VarUnserializer

namespace PhpObject

open PhpVar

variable {σ V : Type}

/-! ## Tables of properties -/

/-- The zval of a bucket: the value itself, or the place of a declared property, which is
`IS_UNDEF` when the property was unset. -/
inductive Slot (V : Type)
  | direct (v : V)
  | indirect (v : Option V)
  deriving DecidableEq

/-- The value of a slot, behind `IS_INDIRECT`. -/
def Slot.get : Slot V → Option V
  | .direct v => some v
  | .indirect v => v

/-- `IS_INDIRECT` to `IS_UNDEF`. -/
def Slot.isEmptyInd : Slot V → Bool
  | .indirect none => true
  | _ => false

/-- The used buckets of a table of properties, and its flag `HASH_FLAG_HAS_EMPTY_IND`, which is set
wherever a declared property becomes undefined. -/
structure PropertyTable (V : Type) where
  buckets : List (Key × Slot V)
  hasEmptyInd : Bool
  flagged : ∀ e ∈ buckets, e.2.isEmptyInd → hasEmptyInd
  size : buckets.length < 2 ^ 32
  keySize : ∀ e ∈ buckets, ∀ s, e.1 = .str s → s.length < 2 ^ 64

namespace PropertyTable

variable (ht : PropertyTable V)

/-- `zend_hash_find`. -/
def find (name : Bytes) : Option (Slot V) :=
  (ht.buckets.find? fun e => e.1 = .str name).map Prod.snd

/-- `zend_array_recalc_elements`. -/
def recalcElements : ℕ := ht.buckets.length - ht.buckets.countP fun e => e.2.isEmptyInd

/-- `zend_array_count`. -/
def arrayCount : ℕ := if ht.hasEmptyInd then ht.recalcElements else ht.buckets.length

/-- What `ZEND_HASH_FOREACH_KEY_VAL_IND` goes through. -/
def defined : List (Key × V) := ht.buckets.filterMap fun e => e.2.get.map fun v => (e.1, v)

end PropertyTable

/-! ## Objects -/

/-- An element of what `__sleep` returned: whether it is `IS_STRING`, and the string of it. -/
structure SleepName where
  isString : Bool
  name : Bytes

/-- An object: the name of its class, whether that is `PHP_IC_ENTRY`, what the method `__sleep`
returned if there is one, and the properties. -/
structure Obj (V : Type) where
  className : Bytes
  incomplete : Bool
  sleep : Option (List SleepName)
  propers : PropertyTable V
  sleepSize : ∀ names, sleep = some names → names.length < 2 ^ 32
  nameSize : ∀ names, sleep = some names →
    ∀ n ∈ names, className.length + n.name.length + 3 < 2 ^ 64

/-- `php_error_docref` with `E_NOTICE`. -/
inductive Notice
  /-- `__sleep should return an array only containing the names of instance-variables to
  serialize.` -/
  | notString
  /-- `"%s" is returned from __sleep multiple times` -/
  | multiple (name : Bytes)
  /-- `"%s" returned as member variable from __sleep() but does not exist` -/
  | missing (name : Bytes)
  deriving DecidableEq

/-- The pairs that a loop wrote. -/
structure Body (σ : Type) where
  pairs : List (Key × Bytes)
  notices : List Notice
  state : σ

/-- What is written behind the name of the class. -/
structure Written (σ : Type) extends Body σ where
  count : ℕ

/-- The text behind the name of the class. -/
def Written.text (w : Written σ) : Bytes :=
  Decimal.print w.count ++ PhpVar.text [':', '{'] ++
    w.pairs.flatMap (fun p => serializeKey p.1 ++ p.2) ++ PhpVar.text ['}']

/-! ## `php_var_serialize_class` -/

/-- `zend_mangle_property_name`. -/
def manglePropertyName (src1 src2 : Bytes) : Bytes := 0 :: (src1 ++ 0 :: src2)

/-- `php_var_serialize_collect_names`, with the names of the table `ht` so far. -/
def collectNames : List Bytes → List SleepName → List Bytes × List Notice
  | ht, [] => (ht, [])
  | ht, val :: src =>
    let notice := if val.isString then [] else [Notice.notString]
    if val.name ∈ ht then
      let (names, notices) := collectNames ht src
      (names, notice ++ .multiple val.name :: notices)
    else
      let (names, notices) := collectNames (ht ++ [val.name]) src
      (names, notice ++ notices)

section Class

variable (write : σ → V → Bytes × σ) (null : V) (o : Obj V)

/-- What is written for a variable that was found under `key`. -/
def serializeFound (s : σ) (key : Bytes) (d : Slot V) : Body σ :=
  match d.get with
  | none => ⟨[], [], s⟩
  | some v => ⟨[(.str key, (write s v).1)], [], (write s v).2⟩

/-- One name in the loop of `php_var_serialize_class`. -/
def serializeName (s : σ) (name : Bytes) : Body σ :=
  let privName := manglePropertyName o.className name
  let protName := manglePropertyName (text ['*']) name
  match o.propers.find name with
  | some d => serializeFound write s name d
  | none =>
    match o.propers.find privName with
    | some d => serializeFound write s privName d
    | none =>
      match o.propers.find protName with
      | some d => serializeFound write s protName d
      | none => ⟨[(.str name, (write s null).1)], [.missing name], (write s null).2⟩

/-- The loop of `php_var_serialize_class`. -/
def serializeNames : σ → List Bytes → Body σ
  | s, [] => ⟨[], [], s⟩
  | s, name :: names =>
    let b := serializeName write null o s name
    let rest := serializeNames b.state names
    ⟨b.pairs ++ rest.pairs, b.notices ++ rest.notices, rest.state⟩

/-- `php_var_serialize_class`, which is called for no object of the class `PHP_IC_ENTRY`. -/
def serializeClass (s : σ) (names : List SleepName) : Written σ :=
  if 0 < names.length then
    let (collected, notices) := collectNames [] names
    let b := serializeNames write null o s collected
    { b with count := collected.length, notices := notices ++ b.notices }
  else { count := 0, pairs := [], notices := [], state := s }

end Class

/-! ## `php_var_serialize_intern` -/

/-- The string of C at the beginning of a text. -/
def cString (s : Bytes) : Bytes := s.takeWhile fun b => b ≠ 0

/-- `MAGIC_MEMBER`, which is `__PHP_Incomplete_Class_Name`. -/
def magicMember : Bytes :=
  text ['_', '_', 'P', 'H', 'P', '_', 'I', 'n', 'c', 'o', 'm', 'p', 'l', 'e', 't', 'e',
    '_', 'C', 'l', 'a', 's', 's', '_', 'N', 'a', 'm', 'e']

/-- `incomplete_class && strcmp(ZSTR_VAL(key), MAGIC_MEMBER) == 0`; an integer key has no string
that could be compared. -/
def isMagic (incomplete : Bool) (key : Key) : Option Bool :=
  if incomplete then
    match key with
    | .int _ => none
    | .str s => some (cString s = magicMember)
  else some false

section Properties

variable (write : σ → V → Bytes × σ)

/-- The loop of `php_var_serialize_intern` over the properties of an object; `write` also stands
for what the loop does with a reference and with an array inside itself. -/
def serializeProperties (incomplete : Bool) : σ → List (Key × V) → Option (Body σ)
  | s, [] => some ⟨[], [], s⟩
  | s, (key, data) :: es =>
    (isMagic incomplete key).bind fun skip =>
      if skip then serializeProperties incomplete s es
      else
        (serializeProperties incomplete (write s data).2 es).map fun b =>
          { b with pairs := (key, (write s data).1) :: b.pairs }

/-- `php_var_serialize_intern` of an object, behind the name of the class. -/
def serializeProps (s : σ) (o : Obj V) : Option (Written σ) :=
  let i := o.propers.arrayCount
  let i := if 0 < i ∧ o.incomplete then i - 1 else i
  if 0 < i then
    (serializeProperties write o.incomplete s o.propers.defined).map fun b =>
      { b with count := i }
  else some { count := i, pairs := [], notices := [], state := s }

end Properties

/-- The branch `IS_OBJECT` of `php_var_serialize_intern` for an object that no handler of its
class serializes. -/
def serializeObject (write : σ → V → Bytes × σ) (null : V) (s : σ) (o : Obj V) :
    Option (Written σ) :=
  if o.incomplete then serializeProps write s o
  else
    match o.sleep with
    | some names => some (serializeClass write null o s names)
    | none => serializeProps write s o

end PhpObject

/-!
# The counts of serialized objects

The count in front of the braces is that of the pairs between them exactly when no name leads to a
declared property that was unset, and when an object of the class `PHP_IC_ENTRY` has one marker, or
nothing that is written.
-/

namespace PhpObject

open PhpVar

variable {σ V : Type} (write : σ → V → Bytes × σ) (null : V) {o : Obj V}

/-! ## The condition -/

/-- The bucket that is taken for a name of `__sleep`: that of the variable itself, of a private one
or of a protected one. -/
def Obj.locate (o : Obj V) (name : Bytes) : Option (Slot V) :=
  (o.propers.find name).or ((o.propers.find (manglePropertyName o.className name)).or
    (o.propers.find (manglePropertyName (text ['*']) name)))

/-- The bucket of the name is that of a declared property which is undefined. -/
def Obj.IsUnset (o : Obj V) (name : Bytes) : Prop := (o.locate name).any Slot.isEmptyInd

instance (o : Obj V) (name : Bytes) : Decidable (o.IsUnset name) :=
  inferInstanceAs (Decidable (_ = true))

/-- An element with the name of the class that was not found. -/
def IsMarker (e : Key × V) : Bool := isMagic true e.1 = some true

/-- The defined properties have strings for keys, and one of them is the name of the class. -/
def PropertyTable.Marked (ht : PropertyTable V) : Prop :=
  (∀ e ∈ ht.defined, (isMagic true e.1).isSome) ∧ ht.defined.countP IsMarker = 1

/-- No name leads to an unset property; of an object without its class, at most one property is
defined, or one of them is the name of the class. -/
def Obj.Complete (o : Obj V) : Prop :=
  if o.incomplete then o.propers.defined.length ≤ 1 ∨ o.propers.Marked
  else ∀ names, o.sleep = some names → ∀ n ∈ names, ¬ o.IsUnset n.name

/-! ## Tables -/

theorem length_filterMap_get (l : List (Key × Slot V)) :
    (l.filterMap fun e => e.2.get.map fun v => (e.1, v)).length
      + l.countP (fun e => e.2.isEmptyInd) = l.length := by
  induction l with
  | nil => rfl
  | cons e l ih =>
    obtain ⟨k, d⟩ := e
    rw [List.countP_cons, List.length_cons, ← ih]
    cases d with
    | direct v =>
      exact add_right_comm _ _ _
    | indirect v =>
      cases v with
      | none => rfl
      | some v =>
        exact add_right_comm _ _ _

/-- `zend_array_count` counts what the loop goes through. -/
theorem arrayCount_eq (ht : PropertyTable V) : ht.arrayCount = ht.defined.length := by
  have hlen := length_filterMap_get ht.buckets
  rw [PropertyTable.arrayCount, PropertyTable.recalcElements, PropertyTable.defined]
  split
  · omega
  · rename_i hflag
    have hzero : ht.buckets.countP (fun e => e.2.isEmptyInd) = 0 := by
      rw [List.countP_eq_zero]
      exact fun e he hempty => hflag (ht.flagged e he hempty)
    omega

/-! ## The names of `__sleep` -/

/-- The collected names are those that were returned. -/
theorem mem_collectNames (x : Bytes) (ht : List Bytes) (src : List SleepName) :
    x ∈ (collectNames ht src).1 ↔ x ∈ ht ∨ ∃ n ∈ src, n.name = x := by
  induction src generalizing ht with
  | nil => simp [collectNames]
  | cons val src ih =>
    rw [collectNames]
    simp only [List.exists_mem_cons_iff]
    split
    · rename_i hmem
      rw [ih]
      constructor
      · exact fun h => h.imp_right .inr
      · rintro (h | rfl | h)
        exacts [.inl h, .inl hmem, .inr h]
    · rw [ih, List.mem_append, List.mem_singleton, or_assoc, eq_comm]

theorem length_serializeFound (s : σ) (key : Bytes) (d : Slot V) :
    (serializeFound write s key d).pairs.length = if d.isEmptyInd then 0 else 1 := by
  cases d with
  | direct v => rfl
  | indirect v => cases v <;> rfl

/-- A pair is written for a name unless it leads to an unset property. -/
theorem length_serializeName (s : σ) (name : Bytes) :
    (serializeName write null o s name).pairs.length = if o.IsUnset name then 0 else 1 := by
  change _ = if (o.locate name).any Slot.isEmptyInd = true then 0 else 1
  rw [serializeName, Obj.locate]
  cases o.propers.find name with
  | some d => exact length_serializeFound write s name d
  | none =>
    cases o.propers.find (manglePropertyName o.className name) with
    | some d => exact length_serializeFound write s _ d
    | none =>
      cases o.propers.find (manglePropertyName (text ['*']) name) with
      | some d => exact length_serializeFound write s _ d
      | none => rfl

theorem length_serializeNames (s : σ) (names : List Bytes) :
    (serializeNames write null o s names).pairs.length
      = names.countP fun name => ¬ o.IsUnset name := by
  induction names generalizing s with
  | nil => rfl
  | cons name names ih =>
    rw [serializeNames, List.length_append, length_serializeName, ih, List.countP_cons, add_comm]
    by_cases h : o.IsUnset name
    · simp only [h, if_true, not_true, decide_false, Bool.false_eq_true, if_false]
    · simp only [h, if_false, not_false_eq_true, decide_true, if_true]

/-- As many pairs as names are written when no name leads to an unset property. -/
theorem serializeClass_count (s : σ) (names : List SleepName) :
    (serializeClass write null o s names).count = (serializeClass write null o s names).pairs.length
      ↔ ∀ n ∈ names, ¬ o.IsUnset n.name := by
  rw [serializeClass]
  split
  · rw [length_serializeNames, eq_comm, List.countP_eq_length]
    constructor
    · intro h n hn
      have hmem : n.name ∈ (collectNames [] names).1 :=
        (mem_collectNames _ _ _).mpr (.inr ⟨n, hn, rfl⟩)
      exact of_decide_eq_true (h _ hmem)
    · intro h name hname
      rcases (mem_collectNames _ _ _).mp hname with hnil | ⟨n, hn, rfl⟩
      · cases hnil
      · exact decide_eq_true (h n hn)
  · rename_i hlen
    have hnil : names = [] := List.eq_nil_of_length_eq_zero (Nat.eq_zero_of_not_pos hlen)
    subst hnil
    simp

/-! ## The properties -/

/-- How many pairs the loop over the properties writes, if it comes to its end. -/
theorem exists_serializeProperties (incomplete : Bool) (s : σ) (es : List (Key × V)) (n : ℕ) :
    (∃ b, serializeProperties write incomplete s es = some b ∧ n = b.pairs.length) ↔
      (∀ e ∈ es, (isMagic incomplete e.1).isSome) ∧
        n + es.countP (fun e => isMagic incomplete e.1 = some true) = es.length := by
  induction es generalizing s n with
  | nil => simp [serializeProperties]
  | cons e es ih =>
    obtain ⟨key, data⟩ := e
    rw [serializeProperties, List.countP_cons, List.length_cons]
    cases hmagic : isMagic incomplete key with
    | none => simp [hmagic]
    | some skip =>
      cases skip with
      | true =>
        simp only [Option.bind_some, if_true, List.forall_mem_cons, hmagic, Option.isSome_some,
          true_and, decide_true]
        rw [ih]
        exact and_congr_right fun _ => by omega
      | false =>
        simp only [Option.bind_some, Bool.false_eq_true, if_false, List.forall_mem_cons, hmagic,
          Option.isSome_some, true_and, Option.some.injEq, decide_false, add_zero]
        constructor
        · rintro ⟨b, hb, hn⟩
          obtain ⟨b', hb', rfl⟩ := Option.map_eq_some_iff.mp hb
          have hrest := (ih (write s data).2 b'.pairs.length).mp ⟨b', hb', rfl⟩
          refine ⟨hrest.1, ?_⟩
          rw [hn, List.length_cons]
          omega
        · rintro ⟨hall, hn⟩
          have hle := es.countP_le_length (p := fun e => isMagic incomplete e.1 = some true)
          obtain ⟨b, hb, hlen⟩ := (ih (write s data).2 (n - 1)).mpr ⟨hall, by omega⟩
          refine ⟨_, Option.map_eq_some_iff.mpr ⟨b, hb, rfl⟩, ?_⟩
          rw [List.length_cons]
          omega

/-- Nothing at all is written for one property without its class; otherwise the count is one less
than the properties. -/
theorem serializeProps_count (s : σ) :
    (∃ w, serializeProps write s o = some w ∧ w.count = w.pairs.length) ↔
      (o.incomplete = true → o.propers.defined.length ≤ 1 ∨ o.propers.Marked) := by
  have hloop : ∀ i, (∃ w, ((serializeProperties write o.incomplete s o.propers.defined).map fun b =>
      ({ b with count := i } : Written σ)) = some w ∧ w.count = w.pairs.length) ↔
      ∃ b, serializeProperties write o.incomplete s o.propers.defined = some b ∧
        i = b.pairs.length := by
    intro i
    constructor
    · rintro ⟨w, hw, hcount⟩
      obtain ⟨b, hb, rfl⟩ := Option.map_eq_some_iff.mp hw
      exact ⟨b, hb, hcount⟩
    · rintro ⟨b, hb, hlen⟩
      exact ⟨_, Option.map_eq_some_iff.mpr ⟨b, hb, rfl⟩, hlen⟩
  rw [serializeProps, arrayCount_eq]
  rcases Nat.eq_zero_or_pos o.propers.defined.length with hzero | hpos
  · simp only [hzero, Nat.lt_irrefl, false_and, if_false]
    exact ⟨fun _ _ => Or.inl (Nat.zero_le 1), fun _ => ⟨_, rfl, rfl⟩⟩
  · cases hinc : o.incomplete with
    | false =>
      simp only [hpos, Bool.false_eq_true, and_false, if_true, if_false, false_implies, iff_true]
      rw [← hinc, hloop, hinc, exists_serializeProperties]
      exact ⟨fun _ _ => rfl, by simp [isMagic]⟩
    | true =>
      simp only [hpos, and_true, true_implies, if_true]
      rcases Nat.eq_or_lt_of_le hpos with hone | hmore
      · rw [← hone]
        exact ⟨fun _ => Or.inl (Nat.le_refl 1), fun _ => ⟨_, rfl, rfl⟩⟩
      · have hi : 0 < o.propers.defined.length - 1 := Nat.sub_pos_of_lt hmore
        simp only [hi, if_true]
        rw [← hinc, hloop, hinc, exists_serializeProperties]
        have hmarked : o.propers.Marked ↔ (∀ e ∈ o.propers.defined, (isMagic true e.1).isSome) ∧
            o.propers.defined.countP (fun e => isMagic true e.1 = some true) = 1 := Iff.rfl
        rw [hmarked]
        constructor
        · rintro ⟨hall, hlen⟩
          exact Or.inr ⟨hall, by omega⟩
        · rintro (hle | ⟨hall, hcount⟩)
          · omega
          · exact ⟨hall, by omega⟩

/-- The count of an object is that of its pairs exactly when the object is complete. -/
theorem serializeObject_count_iff (s : σ) :
    (∃ w, serializeObject write null s o = some w ∧ w.count = w.pairs.length) ↔ o.Complete := by
  rw [serializeObject, Obj.Complete]
  cases hinc : o.incomplete with
  | true =>
    simp only [if_true]
    rw [serializeProps_count, hinc]
    simp only [true_implies]
  | false =>
    cases hsleep : o.sleep with
    | none =>
      have hprops := (serializeProps_count write (o := o) s).mpr fun h => by
        rw [hinc] at h
        cases h
      exact iff_of_true hprops fun names h => by cases h
    | some names =>
      have hclass := serializeClass_count write null (o := o) s names
      constructor
      · rintro ⟨w, hw, hcount⟩ _ hnames
        cases hw
        cases hnames
        exact hclass.mp hcount
      · exact fun h => ⟨_, rfl, hclass.mpr (h names rfl)⟩

/-!
# Objects read back

How values are read is a parameter, with a state: the slots and the table the properties go to.
-/

variable {σ τ V : Type}

/-! ## The reader -/

/-- `parse_iv2`. -/
def parseIv2 (p : Bytes) : BitVec 64 × Bytes :=
  let neg := p.head? = some '-'.toUInt8
  let p := if neg ∨ p.head? = some '+'.toUInt8 then p.drop 1 else p
  let result := (p.takeWhile fun b => decide (Decimal.IsDigit b)).foldl Decimal.addDigit 0
  (if neg then -result else result, p.dropWhile fun b => decide (Decimal.IsDigit b))

/-- Whether a token is the key of a property. -/
def isPropertyKey : Token → Bool
  | .str _ => true
  | .long _ => true
  | _ => false

/-- `process_nested_data` for an object: `read` takes the property under a key into the table and
reads its value. -/
def processProperties (read : Token → τ → Bytes → Option (Bytes × τ)) :
    ℕ → Bytes → τ → Option (Bytes × τ)
  | 0, r, u => some (r, u)
  | elements + 1, r, u =>
    (scan r).bind fun (key, r) =>
      if isPropertyKey key then
        (read key u r).bind fun (r', u) =>
          if elements ≠ 0 ∧ lastRead r r' ≠ some ';'.toUInt8 ∧ lastRead r r' ≠ some '}'.toUInt8 then
            none
          else processProperties read elements r' u
      else none

/-- `object_common1` and `object_common2`, with `r` behind the name of the class: the two bytes
after the count are not looked at. -/
def unserializeProperties (read : Token → τ → Bytes → Option (Bytes × τ))
    (r : Bytes) (u : τ) : Option (Bytes × τ) :=
  if r = [] then none
  else
    let (elements, r) := parseIv2 r
    if elements.toInt < 0 then none
    else
      (processProperties read elements.toNat (r.drop 2) u).bind fun (r, u) =>
        (expect '}' r).map fun r => (r, u)

/-! ## Values that are read back -/

variable {write : σ → V → Bytes × σ} {null : V}
  {read : Token → τ → Bytes → Option (Bytes × τ)} {Agree : σ → τ → Prop}

/-- Every value that is written is read back, as long as the states agree. -/
structure ReadsBack (write : σ → V → Bytes × σ)
    (read : Token → τ → Bytes → Option (Bytes × τ)) (Agree : σ → τ → Prop) : Prop where
  reads : ∀ s u v key rest, Agree s u →
    ∃ u', read key u ((write s v).1 ++ rest) = some (rest, u') ∧ Agree (write s v).2 u'
  ends : ∀ s v,
    (write s v).1.getLast? = some ';'.toUInt8 ∨ (write s v).1.getLast? = some '}'.toUInt8

/-- Pairs that were written one after the other. -/
inductive Pairs (write : σ → V → Bytes × σ) : σ → List (Key × Bytes) → σ → Prop
  | nil (s : σ) : Pairs write s [] s
  | cons {s s' : σ} {key : Key} {v : V} {ps : List (Key × Bytes)} :
      (∀ x, key = .str x → x.length < 2 ^ 64) → Pairs write (write s v).2 ps s' →
      Pairs write s ((key, (write s v).1) :: ps) s'

/-! ## What is written -/

variable {s : σ}

theorem Pairs.append {s' s'' : σ} {ps qs : List (Key × Bytes)} (hp : Pairs write s ps s')
    (hq : Pairs write s' qs s'') : Pairs write s (ps ++ qs) s'' := by
  induction hp with
  | nil s => exact hq
  | cons hkey _ ih => exact .cons hkey (ih hq)

theorem pairs_serializeFound (s : σ) {key : Bytes} (hkey : key.length < 2 ^ 64) (d : Slot V) :
    Pairs write s (serializeFound write s key d).pairs (serializeFound write s key d).state := by
  rw [serializeFound]
  cases d.get with
  | none => exact .nil s
  | some v => exact .cons (fun x hx => by cases hx; exact hkey) (.nil _)

theorem length_manglePropertyName (src1 src2 : Bytes) :
    (manglePropertyName src1 src2).length = src1.length + src2.length + 2 := by
  rw [manglePropertyName, List.length_cons, List.length_append, List.length_cons]
  omega

theorem pairs_serializeName (o : Obj V) (s : σ) {name : Bytes}
    (hname : o.className.length + name.length + 3 < 2 ^ 64) :
    Pairs write s (serializeName write null o s name).pairs
      (serializeName write null o s name).state := by
  have hplain : name.length < 2 ^ 64 := by omega
  have hpriv : (manglePropertyName o.className name).length < 2 ^ 64 := by
    rw [length_manglePropertyName]
    omega
  have hprot : (manglePropertyName (text ['*']) name).length < 2 ^ 64 := by
    rw [length_manglePropertyName]
    change 1 + name.length + 2 < 2 ^ 64
    omega
  rw [serializeName]
  cases o.propers.find name with
  | some d => exact pairs_serializeFound s hplain d
  | none =>
    cases o.propers.find (manglePropertyName o.className name) with
    | some d => exact pairs_serializeFound s hpriv d
    | none =>
      cases o.propers.find (manglePropertyName (text ['*']) name) with
      | some d => exact pairs_serializeFound s hprot d
      | none => exact .cons (fun x hx => by cases hx; exact hplain) (.nil _)

theorem pairs_serializeNames (o : Obj V) (s : σ) {names : List Bytes}
    (hnames : ∀ name ∈ names, o.className.length + name.length + 3 < 2 ^ 64) :
    Pairs write s (serializeNames write null o s names).pairs
      (serializeNames write null o s names).state := by
  induction names generalizing s with
  | nil => exact .nil s
  | cons name names ih =>
    rw [List.forall_mem_cons] at hnames
    exact (pairs_serializeName o s hnames.1).append (ih _ hnames.2)

theorem pairs_serializeClass (o : Obj V) (s : σ) {names : List SleepName}
    (hnames : ∀ n ∈ names, o.className.length + n.name.length + 3 < 2 ^ 64) :
    Pairs write s (serializeClass write null o s names).pairs
      (serializeClass write null o s names).state := by
  rw [serializeClass]
  split
  · refine pairs_serializeNames o s fun name hname => ?_
    rcases (mem_collectNames _ _ _).mp hname with hnil | ⟨n, hn, rfl⟩
    · cases hnil
    · exact hnames n hn
  · exact .nil s

theorem pairs_serializeProperties {incomplete : Bool} {es : List (Key × V)} {b : Body σ}
    (hkey : ∀ e ∈ es, ∀ x, e.1 = .str x → x.length < 2 ^ 64)
    (hb : serializeProperties write incomplete s es = some b) : Pairs write s b.pairs b.state := by
  induction es generalizing s b with
  | nil =>
    cases hb
    exact .nil s
  | cons e es ih =>
    rw [List.forall_mem_cons] at hkey
    obtain ⟨skip, -, hb⟩ := Option.bind_eq_some_iff.mp hb
    cases skip with
    | true => exact ih hkey.2 hb
    | false =>
      obtain ⟨b', hb', rfl⟩ := Option.map_eq_some_iff.mp hb
      exact .cons hkey.1 (ih hkey.2 hb')

theorem keySize_defined (ht : PropertyTable V) :
    ∀ e ∈ ht.defined, ∀ x, e.1 = .str x → x.length < 2 ^ 64 := by
  intro e he x hx
  obtain ⟨e', he', hget⟩ := List.mem_filterMap.mp he
  obtain ⟨v, -, rfl⟩ := Option.map_eq_some_iff.mp hget
  exact ht.keySize e' he' x hx

variable {o : Obj V} {w : Written σ}

theorem pairs_serializeProps
    (hw : serializeProps write s o = some w) : Pairs write s w.pairs w.state := by
  rw [serializeProps] at hw
  generalize (if 0 < o.propers.arrayCount ∧ o.incomplete = true then o.propers.arrayCount - 1
    else o.propers.arrayCount) = i at hw
  split at hw
  · obtain ⟨b, hb, rfl⟩ := Option.map_eq_some_iff.mp hw
    exact pairs_serializeProperties (keySize_defined o.propers) hb
  · cases hw
    exact .nil s

theorem pairs_serializeObject
    (hw : serializeObject write null s o = some w) : Pairs write s w.pairs w.state := by
  rw [serializeObject] at hw
  split at hw
  · exact pairs_serializeProps hw
  · split at hw
    · rename_i names hsleep
      cases hw
      exact pairs_serializeClass o s (o.nameSize names hsleep)
    · exact pairs_serializeProps hw

/-! ## What is read -/

/-- A key is read as one. -/
theorem scan_propertyKey {key : Key} (hsize : ∀ x, key = .str x → x.length < 2 ^ 64)
    (rest : Bytes) :
    ∃ t, scan (serializeKey key ++ rest) = some (t, rest) ∧ isPropertyKey t = true := by
  cases key with
  | int h => exact ⟨.long h, scan_long h rest, rfl⟩
  | str s => exact ⟨.str s, scan_string (hsize s rfl) rest, rfl⟩

/-- The text of some pairs. -/
def pairsText (ps : List (Key × Bytes)) : Bytes :=
  ps.flatMap fun p => serializeKey p.1 ++ p.2

theorem pairsText_cons (key : Key) (t : Bytes) (ps : List (Key × Bytes)) (rest : Bytes) :
    pairsText ((key, t) :: ps) ++ rest = serializeKey key ++ (t ++ (pairsText ps ++ rest)) := by
  rw [pairsText, List.flatMap_cons, ← pairsText, List.append_assoc, List.append_assoc]

/-- The brace is no key. -/
theorem scan_brace (rest : Bytes) : scan ('}'.toUInt8 :: rest) = none := by
  rw [scan, if_neg (by decide)]
  cases expect ':' rest with
  | none => rfl
  | some r =>
    rw [Option.bind_some, if_neg (by decide), if_neg (by decide), if_neg (by decide),
      if_neg (by decide), if_neg (by decide), if_neg (by decide), if_neg (by decide)]

/-- A key is no brace. -/
theorem expect_key (key : Key) (rest : Bytes) : expect '}' (serializeKey key ++ rest) = none := by
  cases key <;> rfl

/-- Exactly as many pairs are read as were written: with fewer the brace is expected at a key, and
with more a key at the brace. -/
theorem processProperties_pairs (h : ReadsBack write read Agree) {s' : σ}
    {ps : List (Key × Bytes)} (hps : Pairs write s ps s') {u : τ} (hu : Agree s u) (n : ℕ)
    (rest : Bytes) : (∃ u', (processProperties read n (pairsText ps ++ '}'.toUInt8 :: rest) u).bind
      (fun (r, u) => (expect '}' r).map fun r => (r, u)) = some (rest, u')) ↔ n = ps.length := by
  induction hps generalizing n u with
  | nil s =>
    cases n with
    | zero => exact iff_of_true ⟨u, by rfl⟩ rfl
    | succ n =>
      refine iff_of_false ?_ (Nat.succ_ne_zero n)
      rintro ⟨u', hread⟩
      have hscan : scan (pairsText [] ++ '}'.toUInt8 :: rest) = none := scan_brace rest
      rw [processProperties, hscan] at hread
      cases hread
  | @cons s s' key v ps hkey _ ih =>
    rw [pairsText_cons]
    cases n with
    | zero =>
      refine iff_of_false ?_ (Nat.succ_ne_zero _).symm
      rintro ⟨u', hread⟩
      rw [processProperties, Option.bind_some] at hread
      dsimp only at hread
      rw [expect_key] at hread
      cases hread
    | succ n =>
      obtain ⟨t, hscan, ht⟩ := scan_propertyKey hkey
        ((write s v).1 ++ (pairsText ps ++ '}'.toUInt8 :: rest))
      obtain ⟨u', hread, hagree⟩ := h.reads s u v t (pairsText ps ++ '}'.toUInt8 :: rest) hu
      have hlast : ¬ (n ≠ 0 ∧ lastRead ((write s v).1 ++ (pairsText ps ++ '}'.toUInt8 :: rest))
            (pairsText ps ++ '}'.toUInt8 :: rest) ≠ some ';'.toUInt8 ∧
          lastRead ((write s v).1 ++ (pairsText ps ++ '}'.toUInt8 :: rest))
            (pairsText ps ++ '}'.toUInt8 :: rest) ≠ some '}'.toUInt8) := by
        rw [lastRead_append]
        rintro ⟨-, hsemi, hbrace⟩
        exact (h.ends s v).elim hsemi hbrace
      rw [processProperties, hscan]
      simp only [Option.bind_some, ht, if_true, hread, if_neg hlast]
      rw [ih hagree n]
      exact Nat.succ_inj.symm

/-! ## The count -/

theorem parseIv2_print (num : ℕ) (rest : Bytes) :
    parseIv2 (Decimal.print num ++ ':'.toUInt8 :: rest)
      = (BitVec.ofNat 64 num, ':'.toUInt8 :: rest) := by
  obtain ⟨b, ds, hp, hb⟩ := print_eq_cons num
  have hhead : (Decimal.print num ++ ':'.toUInt8 :: rest).head? = some b := by
    rw [hp, List.cons_append, List.head?_cons]
  have hminus : ¬ some b = some '-'.toUInt8 := by
    rintro ⟨⟩
    exact absurd hb (by decide)
  have hplus : ¬ some b = some '+'.toUInt8 := by
    rintro ⟨⟩
    exact absurd hb (by decide)
  obtain ⟨htake, hdrop⟩ := Decimal.takeWhile_print num (c := ':'.toUInt8) (by decide) rest
  rw [parseIv2]
  simp only [hhead, hminus, hplus, or_self, if_false]
  rw [htake, hdrop, Decimal.foldl_print]
  rfl

theorem length_collectNames_le (ht : List Bytes) (src : List SleepName) :
    (collectNames ht src).1.length ≤ ht.length + src.length := by
  induction src generalizing ht with
  | nil => exact le_rfl
  | cons val src ih =>
    rw [collectNames, List.length_cons]
    split
    · exact (ih ht).trans (by omega)
    · refine (ih _).trans ?_
      rw [List.length_append, List.length_singleton]
      omega

theorem count_lt (hw : serializeObject write null s o = some w) : w.count < 2 ^ 32 := by
  have hprops : ∀ {w : Written σ}, serializeProps write s o = some w → w.count < 2 ^ 32 := by
    intro w hw
    have hsize : o.propers.arrayCount < 2 ^ 32 := by
      rw [arrayCount_eq]
      exact (List.length_filterMap_le _ _).trans_lt o.propers.size
    have hi : (if 0 < o.propers.arrayCount ∧ o.incomplete = true then o.propers.arrayCount - 1
        else o.propers.arrayCount) < 2 ^ 32 := by
      split <;> omega
    rw [serializeProps] at hw
    generalize (if 0 < o.propers.arrayCount ∧ o.incomplete = true then o.propers.arrayCount - 1
      else o.propers.arrayCount) = i at hw hi
    split at hw
    · obtain ⟨b, -, rfl⟩ := Option.map_eq_some_iff.mp hw
      exact hi
    · cases hw
      exact hi
  rw [serializeObject] at hw
  split at hw
  · exact hprops hw
  · split at hw
    · rename_i names hsleep
      cases hw
      rw [serializeClass]
      split
      · have hle := length_collectNames_le [] names
        rw [List.length_nil, zero_add] at hle
        exact hle.trans_lt (o.sleepSize names hsleep)
      · exact Nat.two_pow_pos 32
    · exact hprops hw

/-- The text of an object is read back to its end exactly when its count is that of its pairs. -/
theorem unserializeProperties_iff (h : ReadsBack write read Agree)
    (hw : serializeObject write null s o = some w) {u : τ} (hu : Agree s u)
    (rest : Bytes) : (∃ u', unserializeProperties read (w.text ++ rest) u = some (rest, u'))
      ↔ w.count = w.pairs.length := by
  have hcount := count_lt hw
  have htext : w.text ++ rest = Decimal.print w.count ++
      ':'.toUInt8 :: '{'.toUInt8 :: (pairsText w.pairs ++ '}'.toUInt8 :: rest) := by
    simp only [Written.text, pairsText, List.append_assoc]
    rfl
  have hne : w.text ++ rest ≠ [] := by
    rw [htext]
    exact List.append_ne_nil_of_left_ne_nil (Decimal.print_ne_nil _) _
  have hnat : (BitVec.ofNat 64 w.count).toNat = w.count := by
    rw [BitVec.toNat_ofNat, Nat.mod_eq_of_lt (by omega)]
  have hpos : ¬ (BitVec.ofNat 64 w.count).toInt < 0 := by
    rw [BitVec.toInt_eq_toNat_cond]
    omega
  rw [unserializeProperties, if_neg hne, htext, parseIv2_print]
  simp only [if_neg hpos, hnat, List.drop_succ_cons, List.drop_zero]
  exact processProperties_pairs h (pairs_serializeObject hw) hu w.count rest

/-! ## Well-formed texts -/

/-- An object is written with the count of its pairs, and its text is read back to the end, exactly
when it is complete. -/
theorem serializeObject_wellFormed (h : ReadsBack write read Agree) (o : Obj V) {s : σ} {u : τ}
    (hu : Agree s u) (rest : Bytes) :
    ((∃ w, serializeObject write null s o = some w ∧ w.count = w.pairs.length) ↔ o.Complete) ∧
      ((∃ w u', serializeObject write null s o = some w ∧
        unserializeProperties read (w.text ++ rest) u = some (rest, u')) ↔ o.Complete) := by
  have hcount := serializeObject_count_iff write null (o := o) s
  refine ⟨hcount, ?_⟩
  rw [← hcount]
  constructor
  · rintro ⟨w, u', hw, hread⟩
    exact ⟨w, hw, (unserializeProperties_iff h hw hu rest).mp ⟨u', hread⟩⟩
  · rintro ⟨w, hw, hlen⟩
    obtain ⟨u', hread⟩ := (unserializeProperties_iff h hw hu rest).mpr hlen
    exact ⟨w, u', hw, hread⟩

/-- Writes every value as null. -/
def writeNull (_ _ : Unit) : Bytes × Unit := (text ['N', ';'], ())

/-- Reads null. -/
def readNull (_ : Token) (_ : Unit) (r : Bytes) : Option (Bytes × Unit) :=
  match scan r with
  | some (.null, r) => some (r, ())
  | _ => none

/-- An object of a class `A`, the method `__sleep` of which returns `['a']`, with the property `a`
in the slot `d`. -/
def objectA (d : Slot Unit) : Obj Unit where
  className := text ['A']
  incomplete := false
  sleep := some [⟨true, text ['a']⟩]
  propers :=
    { buckets := [(.str (text ['a']), d)]
      hasEmptyInd := true
      flagged := fun _ _ _ => rfl
      size := Nat.one_lt_two_pow (by decide)
      keySize := fun e he x hx => by
        rw [List.mem_singleton.mp he] at hx
        cases hx
        decide }
  sleepSize := fun names hnames => by
    cases hnames
    decide
  nameSize := fun names hnames n hn => by
    cases hnames
    rw [List.mem_singleton.mp hn]
    decide

/-- With the property set, one pair is written and read back. -/
theorem serializeObject_defined :
    ∃ w u', serializeObject writeNull () () (objectA (.indirect (some ()))) = some w ∧
      unserializeProperties readNull (w.text ++ []) () = some ([], u') :=
  (serializeObject_wellFormed
    (⟨fun _ _ _ _ _ _ => ⟨(), rfl, trivial⟩, fun _ _ => .inl rfl⟩ :
      ReadsBack writeNull readNull fun _ _ => True)
    (objectA (.indirect (some ()))) trivial []).2.mpr fun names hnames n hn => by
      cases hnames
      rw [List.mem_singleton.mp hn]
      decide

/-- With the property unset, no pair is written behind the count of one, and the text is not
read back. -/
theorem serializeObject_unset :
    ∃ w, serializeObject writeNull () () (objectA (.indirect none)) = some w ∧
      w.count ≠ w.pairs.length ∧ w.text = text ['1', ':', '{', '}'] ∧
      unserializeProperties readNull w.text () = none :=
  ⟨_, rfl, by decide, by decide, by decide⟩

end PhpObject
