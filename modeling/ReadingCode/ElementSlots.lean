/-
# Hash tables while values are read into them

The buckets of the tables that `unserialize()` fills, and `var_hash`, which records
pointers to zvals, most of them inside buckets.  Such a pointer is lost when the buckets
of its table are moved.
-/
import Mathlib.Data.List.DropRight
import ReadingCode.FailState
import ReadingCode.VarUnserializer

namespace PhpSlots

open Function (update)

open PhpVar (Key)

/-- The types a value can have here; the contents of scalars play no part. -/
inductive Zv
  | undef
  | scalar
  | arr (t : ℕ)
  | obj (o : ℕ)
  | ref (c : ℕ)
  | indirect (i : ℕ)
  deriving DecidableEq

/-- `Bucket`. -/
structure Bucket where
  key : Key
  val : Zv

/-- `HashTable` without the packed form; `arData` holds the `nNumUsed` buckets, none for
one that was deleted. -/
structure HashTable where
  initialized : Bool
  nTableSize : ℕ
  nNumOfElements : ℕ
  arData : List (Option Bucket)

namespace HashTable

/-- `nNumUsed`. -/
def nNumUsed (ht : HashTable) : ℕ := ht.arData.length

/-- `zend_hash_find_bucket`: the index of the bucket. -/
def find (ht : HashTable) (k : Key) : Option ℕ :=
  ht.arData.findIdx? fun b => b.any fun b => b.key = k

/-- `zend_hash_rehash`: the buckets move together. -/
def rehash (ht : HashTable) : HashTable :=
  if ht.nNumOfElements = 0 then { ht with arData := [] }
  else
    { ht with arData := ht.arData.filter fun b =>
        match b with
        | none => false
        | some b => b.val ≠ .undef }

/-- `zend_hash_check_size`: the next power of two; a size that is too large ends the run. -/
def checkSize (nSize : ℕ) : Option ℕ :=
  if nSize < 8 then some 8
  else if 0x80000000 ≤ nSize then none
  else some (2 * 2 ^ (nSize - 1).log2)

/-- `zend_hash_do_resize`. -/
def doResize (ht : HashTable) : Option HashTable :=
  if ht.nNumOfElements + ht.nNumOfElements / 32 < ht.nNumUsed then some ht.rehash
  else if ht.nTableSize < 0x80000000 then
    some (rehash { ht with nTableSize := ht.nTableSize + ht.nTableSize })
  else none

/-- `add_to_hash`: the next bucket. -/
def append (ht : HashTable) (k : Key) (v : Zv) : HashTable :=
  { ht with
    initialized := true
    nNumOfElements := ht.nNumOfElements + 1
    arData := ht.arData ++ [some { key := k, val := v }] }

/-- Writes the value of a bucket. -/
def setVal (ht : HashTable) (i : ℕ) (v : Zv) : HashTable :=
  { ht with arData := ht.arData.modify i fun b => b.map fun b => { b with val := v } }

/-- The value of a bucket. -/
def getVal (ht : HashTable) (i : ℕ) : Zv :=
  match ht.arData[i]? with
  | none | some none => .undef
  | some (some b) => b.val

/-- The key of a bucket in use. -/
def keyAt (ht : HashTable) (i : ℕ) : Option Key := ht.arData[i]?.join.map Bucket.key

/-- A bucket at the end that is not in use. -/
def isFree : Option Bucket → Bool
  | none => true
  | some b => decide (b.val = .undef)

/-- `_zend_hash_del_el_ex`. -/
def delEl (ht : HashTable) (i : ℕ) : HashTable :=
  { ht with
    nNumOfElements := ht.nNumOfElements - 1
    arData :=
      if i + 1 = ht.nNumUsed then ht.arData.dropLast.rdropWhile isFree
      else ht.arData.set i none }

/-- `zend_hash_index_del` and `zend_hash_del_ind`: a property that was declared stays. -/
def del (ht : HashTable) (k : Key) : HashTable :=
  match ht.find k with
  | some i =>
    match ht.getVal i with
    | .indirect _ => ht
    | _ => ht.delEl i
  | none => ht

/-- `zend_hash_extend`. -/
def extend (ht : HashTable) (nSize : ℕ) : Option HashTable :=
  if nSize = 0 then some ht
  else if ht.initialized then
    if ht.nTableSize < nSize then
      (checkSize nSize).map fun nSize => rehash { ht with nTableSize := nSize }
    else some ht
  else if ht.nTableSize < nSize then
    (checkSize nSize).map fun nSize => { ht with initialized := true, nTableSize := nSize }
  else some { ht with initialized := true }

end HashTable

/-! ## The state -/

/-- Where a zval is: the one to be returned, in a bucket, a declared property of an
object, or inside a reference. -/
inductive Loc
  | root
  | bucket (t i : ℕ)
  | property (o i : ℕ)
  | cell (c : ℕ)
  deriving DecidableEq

/-- The tables, the declared properties of the objects (an object and the table of its
properties have one number), the references, and the slots of `var_hash`, with the keys of
the buckets they are in when they are recorded.  The table of a recorded slot was moved:
`stale`; `var_access` gave a slot whose bucket has another key: `foreign`; a size was met that
does not fit `uint32_t`: `wide`; the bucket of a recorded slot was given back: `freed`. -/
structure Memory where
  root : Zv
  tables : ℕ → HashTable
  properties : ℕ → List Zv
  cells : ℕ → Zv
  next : ℕ
  slots : List Loc
  keys : List (Option Key)
  stale : Bool
  foreign : Bool
  wide : Bool
  freed : Bool

namespace Memory

variable (s : Memory)

/-- The zval at a location. -/
def zval : Loc → Zv
  | .root => s.root
  | .bucket t i => (s.tables t).getVal i
  | .property o i => (s.properties o).getD i .undef
  | .cell c => s.cells c

/-- The key of the bucket at a location. -/
def keyAt : Loc → Option Key
  | .bucket t i => (s.tables t).keyAt i
  | _ => none

/-- Writes a zval. -/
def set (m : Loc) (v : Zv) : Memory :=
  match m with
  | .root => { s with root := v }
  | .bucket t i => { s with tables := update s.tables t ((s.tables t).setVal i v) }
  | .property o i =>
    { s with properties := update s.properties o ((s.properties o).set i v) }
  | .cell c => { s with cells := update s.cells c v }

/-- Replaces a table. -/
def setTable (t : ℕ) (ht : HashTable) : Memory :=
  { s with tables := update s.tables t ht }

/-- A new table, and the declared properties if it belongs to an object. -/
def newTable (ht : HashTable) (declared : List Zv) : Memory :=
  { s with
    tables := update s.tables s.next ht
    properties := update s.properties s.next declared
    next := s.next + 1 }

/-- A new reference. -/
def newCell (v : Zv) : Memory :=
  { s with cells := update s.cells s.next v, next := s.next + 1 }

/-- A slot in a bucket of the table `t` was recorded. -/
def recorded (t : ℕ) : Bool :=
  s.slots.any fun m =>
    match m with
    | .bucket t' _ => t' = t
    | _ => false

/-- The bucket of a recorded slot has no key in `ht`, the table `t` afterwards. -/
def frees (t : ℕ) (ht : HashTable) : Bool :=
  s.slots.any fun m =>
    match m with
    | .bucket t' i => t' = t ∧ ht.keyAt i = none
    | _ => false

end Memory

/-! ## Operations -/

/-- `ZEND_HASH_IF_FULL_DO_RESIZE`: pointers into the buckets are lost. -/
def ifFullDoResize (t : ℕ) : Run Memory Unit := do
  let s ← Run.get
  if (s.tables t).nTableSize ≤ (s.tables t).nNumUsed then
    let ht ← Run.ofOption (s.tables t).doResize
    Run.modify fun s => { s.setTable t ht with stale := s.stale || s.recorded t }

/-- A table with buckets gets more of them when it is full. -/
def checkInit (t : ℕ) : Run Memory Unit := do
  let s ← Run.get
  if (s.tables t).initialized then ifFullDoResize t

/-- `zend_hash_add_new` and `zend_hash_index_add_new` of an undefined zval. -/
def zendHashAddNew (t : ℕ) (k : Key) : Run Memory Loc := do
  checkInit t
  let s ← Run.get
  Run.modify fun s => s.setTable t ((s.tables t).append k .undef)
  pure (.bucket t (s.tables t).nNumUsed)

/-- `zend_hash_update_ind` and `zend_hash_index_update` of the bucket `i` with an undefined
zval. -/
def zendHashUpdateInd (t i : ℕ) : Run Memory Loc := do
  let s ← Run.get
  let m :=
    match (s.tables t).getVal i with
    | .indirect j => .property t j
    | _ => .bucket t i
  Run.modify fun s => s.set m .undef
  pure m

/-- The zval for the element under the key `k`. -/
def dataFor (t : ℕ) (k : Key) : Run Memory Loc := do
  let s ← Run.get
  match (s.tables t).find k with
  | some i => zendHashUpdateInd t i
  | none => zendHashAddNew t k

/-- Takes an element out again. -/
def zendHashDel (t : ℕ) (k : Key) : Run Memory Unit :=
  Run.modify fun s => { s.setTable t ((s.tables t).del k) with
    freed := s.freed || s.frees t ((s.tables t).del k) }

/-- A size passed as `uint32_t`. -/
def uint32 (nSize : ℕ) : Run Memory ℕ := do
  Run.modify fun s => { s with wide := s.wide || decide (2 ^ 32 ≤ nSize) }
  pure (nSize % 2 ^ 32)

/-- `array_init_size`, and `zend_hash_real_init` if there are elements. -/
def arrayInitSize (m : Loc) (elements : ℕ) : Run Memory ℕ := do
  let nSize ← uint32 elements
  let nTableSize ← Run.ofOption (HashTable.checkSize nSize)
  let s ← Run.get
  let ht := { initialized := decide (elements ≠ 0), nTableSize, nNumOfElements := 0, arData := [] }
  Run.modify fun s => (s.newTable ht []).set m (.arr s.next)
  pure s.next

/-- `rebuild_object_properties`: every declared property is in the table as a pointer to
its place in the object. -/
def rebuildObjectProperties (declared : List Bytes) (nTableSize : ℕ) : HashTable where
  initialized := decide (declared ≠ [])
  nTableSize := nTableSize
  nNumOfElements := declared.length
  arData := declared.zipIdx.map fun (name, i) => some ⟨.str name, .indirect i⟩

/-- `object_init_ex`, with the table of the properties. -/
def objectInitEx (m : Loc) (declared : List Bytes) : Run Memory Unit := do
  let nTableSize ← Run.ofOption (HashTable.checkSize declared.length)
  let ht := rebuildObjectProperties declared nTableSize
  Run.modify fun s => (s.newTable ht (declared.map fun _ => .scalar)).set m (.obj s.next)

/-- `zend_hash_str_update` in the table of an object without declared properties. -/
def zendHashStrUpdate (o : ℕ) (k : Key) (v : Zv) : Run Memory Unit := do
  let m ← dataFor o k
  Run.modify fun s => s.set m v

/-- `php_store_class_name` for a class that is not there. -/
def storeClassName (incomplete : Bool) (m : Loc) : Run Memory Unit := do
  let s ← Run.get
  match incomplete, s.zval m with
  | true, .obj o =>
    zendHashStrUpdate o (.str ("__PHP_Incomplete_Class_Name".toUTF8.toList)) .scalar
  | _, _ => pure ()

end PhpSlots

/-!
# Reading values into tables

`php_var_unserialize` with all its rules: values go to locations, arrays and objects to
tables that are sized for the elements announced.  The classes, and what runs when a
class is looked up, an error is raised or a class reads its own data, are given.
-/

namespace PhpSlots

open PhpVar (Key Token scan expect scanIv scanUiv text printLong lastRead handleNumeric)

/-! ## Numbers -/

/-- `parse_iv2`, which reads no digits as 0. -/
def parseIv2 : Bytes → BitVec 64 × Bytes
  | [] => (0, [])
  | c :: r =>
    let digits := fun r : Bytes =>
      ((r.takeWhile fun b => decide (Decimal.IsDigit b)).foldl Decimal.addDigit (0 : BitVec 64),
        r.dropWhile fun b => decide (Decimal.IsDigit b))
    if c = '-'.toUInt8 then (-(digits r).1, (digits r).2)
    else if c = '+'.toUInt8 then digits r
    else digits (c :: r)

/-- `[+-]?` in front of a number. -/
def stripSign : Bytes → Bytes
  | [] => []
  | c :: r => if c = '+'.toUInt8 ∨ c = '-'.toUInt8 then r else c :: r

/-- `[0-9]*`. -/
def allDigits (r : Bytes) : Bool := r.all fun b => decide (Decimal.IsDigit b)

/-- `iv`. -/
def isIv (r : Bytes) : Bool := stripSign r ≠ [] && allDigits (stripSign r)

/-- `nv`: digits on one side of the point at least. -/
def isNv (r : Bytes) : Bool :=
  match (stripSign r).span fun b => b ≠ '.'.toUInt8 with
  | (x, _ :: y) => allDigits x && allDigits y && (x ≠ [] || y ≠ [])
  | (_, []) => false

/-- `nvexp`. -/
def isNvexp (r : Bytes) : Bool :=
  match r.span fun b => b ≠ 'e'.toUInt8 ∧ b ≠ 'E'.toUInt8 with
  | (x, _ :: y) => (isIv x || isNv x) && (isIv y || isIv (stripSign y))
  | (_, []) => false

/-- The rules `d:` after these two bytes. -/
def scanDouble (r : Bytes) : Option Bytes :=
  let body := r.takeWhile fun b => b ≠ ';'.toUInt8
  if body = text ['N', 'A', 'N'] ∨ body = text ['I', 'N', 'F'] ∨ body = text ['-', 'I', 'N', 'F'] ∨
      isIv body ∨ isNv body ∨ isNvexp body then
    expect ';' (r.drop body.length)
  else none

/-! ## Classes -/

/-- `zend_class_entry`: the names of the declared properties, whether there is a handler
`serialize`, and the handler `unserialize`. -/
structure Class where
  declared : List Bytes
  serialize : Bool
  unserialize : Option (Loc → Bytes → Run Memory Bool)

/-- `PHP_IC_ENTRY`. -/
def incompleteClass : Class where
  declared := []
  serialize := false
  unserialize := none

/-- What the parser calls: the allowed classes, `zend_lookup_class` with the autoloader,
the exception it may leave, `unserialize_callback_func`, and the handler of errors. -/
structure Env where
  allowedClass : Bytes → Bool
  lookupClass : Bytes → Run Memory (Option Class)
  exception : Memory → Bool
  hasCallback : Bool
  callback : Bytes → Run Memory Bool
  error : Run Memory Unit

/-- The characters of a class name. -/
def isClassChar (b : UInt8) : Bool :=
  (48 ≤ b ∧ b ≤ 57) || b = 95 || (97 ≤ b ∧ b ≤ 122) || (65 ≤ b ∧ b ≤ 90) || 127 ≤ b || b = 92

/-- The name in the rule of `O:` and `C:`, up to the quote after it. -/
def scanClassName (r : Bytes) : Option (Bytes × Bytes) :=
  (scanUiv r).bind fun (len, r) => (expect ':' r).bind fun r => (expect '"' r).bind fun r =>
    if r.length < len.toNat ∨ len = 0 then none
    else if (r.drop len.toNat).take 2 ≠ text ['"', ':'] then none
    else if (r.take len.toNat).all isClassChar then some (r.take len.toNat, r.drop len.toNat)
    else none

/-- A warning, and a class in place of one that is not there. -/
def missingClass (env : Env) : Run Memory (Class × Bool) := do
  env.error
  pure (incompleteClass, true)

/-- The class after `unserialize_callback_func`, which may have defined it. -/
def callbackClass (env : Env) (name : Bytes) : Run Memory (Class × Bool) := do
  let success ← env.callback name
  let s ← Run.get
  Run.assert (env.exception s = false)
  if success then
    let ce ← env.lookupClass name
    match ce with
    | some ce => pure (ce, false)
    | none => missingClass env
  else missingClass env

/-- The class of an object, and whether it stands for one that is not there. -/
def findClass (env : Env) (name : Bytes) : Run Memory (Class × Bool) :=
  if env.allowedClass name then do
    let ce ← env.lookupClass name
    let s ← Run.get
    Run.assert (env.exception s = false)
    match ce with
    | some ce => pure (ce, false)
    | none => if env.hasCallback then callbackClass env name else pure (incompleteClass, true)
  else pure (incompleteClass, true)

/-! ## Values -/

/-- The slot of a number. -/
def access (slots : List Loc) (id : ℤ) : Option Loc := if id < 0 then none else slots[id.toNat]?

/-- `var_access`. -/
def varAccess (id : ℤ) : Run Memory Loc := do
  let s ← Run.get
  let m ← Run.ofOption (access s.slots id)
  Run.modify fun s =>
    { s with foreign := s.foreign || decide (s.keys[id.toNat]? ≠ some (s.keyAt m)) }
  pure m

/-- `var_push`, but not for a back reference. -/
def varPush (value : Bool) (rval : Loc) : Run Memory Unit :=
  Run.modify fun s =>
    if value then { s with slots := s.slots ++ [rval], keys := s.keys ++ [s.keyAt rval] } else s

/-- A slot that holds no value. -/
def Memory.undefAt (s : Memory) (m : Loc) : Bool :=
  match s.zval m with
  | .undef => true
  | .ref c => s.cells c = .undef
  | _ => false

/-- The action of `R:`. -/
def backRef (rval : Loc) (id : BitVec 64) : Run Memory Unit := do
  let m ← varAccess (id - 1).toInt
  let s ← Run.get
  if s.undefAt m then Run.modify fun s => s.set rval .undef
  else
    match s.zval m with
    | .ref c => Run.modify fun s => s.set rval (.ref c)
    | z => Run.modify fun s => ((s.newCell z).set m (.ref s.next)).set rval (.ref s.next)

/-- The action of `r:`. -/
def copy (rval : Loc) (id : BitVec 64) : Run Memory Unit := do
  let m ← varAccess (id - 1).toInt
  let s ← Run.get
  Run.assert (m ≠ rval)
  if s.undefAt m then Run.modify fun s => s.set rval .undef
  else Run.modify fun s => s.set rval (s.zval m)

/-- The key an element is entered under; the properties of objects have string keys. -/
def keyOf (objprops : Bool) : Token → Option Key
  | .long h => some (if objprops then .str (printLong h) else .int h)
  | .str s => if objprops then some (.str s) else PhpVar.keyOf (.str s)
  | _ => none

/-- The key an element is deleted under: a numeric string stays a string. -/
def delKey (objprops : Bool) : Token → Option Key
  | .long h => some (if objprops then .str (printLong h) else .int h)
  | .str s => some (.str s)
  | _ => none

/-- Takes an element out again that was read as undefined. -/
def deleteUndef (t : ℕ) (objprops : Bool) (key : Token) (data : Loc) : Run Memory Unit := do
  let s ← Run.get
  if s.zval data = .undef then
    let k ← Run.ofOption (delKey objprops key)
    zendHashDel t k

/-- `process_nested_data`. -/
def processNestedData (unserialize : Loc → Bytes → Run Memory Bytes) (t : ℕ)
    (objprops : Bool) : ℕ → Bytes → Run Memory Bytes
  | 0, r => pure r
  | elements + 1, r => do
    let (key, r) ← Run.ofOption (scan r)
    let k ← Run.ofOption (keyOf objprops key)
    let data ← dataFor t k
    let r' ← unserialize data r
    deleteUndef t objprops key data
    Run.assert (elements = 0 ∨ lastRead r r' = some ';'.toUInt8 ∨ lastRead r r' = some '}'.toUInt8)
    processNestedData unserialize t objprops elements r'

/-- `object_custom`, from the quote after the name. -/
def objectCustom (env : Env) (rval : Loc) (r : Bytes) (ce : Class) :
    Run Memory Bytes := do
  let (datalen, r) := parseIv2 (r.drop 2)
  let r := r.drop 2
  if datalen.toInt < 0 ∨ (r.length : ℤ) ≤ datalen.toInt then do
    env.error
    Run.fail
  else
    match ce.unserialize with
    | none => do
      env.error
      objectInitEx rval ce.declared
      Run.ofOption (expect '}' (r.drop datalen.toNat))
    | some unserialize => do
      let success ← unserialize rval (r.take datalen.toNat)
      Run.assert (success = true)
      Run.ofOption (expect '}' (r.drop datalen.toNat))

/-- `object_common1`, from the quote after the name. -/
def objectCommon1 (env : Env) (rval : Loc) (r : Bytes) (ce : Class) :
    Run Memory (ℕ × Bytes) := do
  let (elements, r') := parseIv2 (r.drop 2)
  if r.length ≤ 2 ∨ ce.serialize then do
    env.error
    Run.fail
  else do
    objectInitEx rval ce.declared
    Run.assert (0 ≤ elements.toInt)
    pure (elements.toNat, r'.drop 2)

/-- `zend_hash_extend` of the table of an object. -/
def extendProperties (o elements : ℕ) : Run Memory Unit := do
  let s ← Run.get
  let nSize ← uint32 ((s.tables o).nNumOfElements + elements)
  let ht ← Run.ofOption ((s.tables o).extend nSize)
  Run.modify fun s => { s.setTable o ht with
    stale := s.stale || ((s.tables o).nTableSize ≠ ht.nTableSize && s.recorded o) }

/-- `object_common2`. -/
def objectCommon2 (unserialize : Loc → Bytes → Run Memory Bytes) (rval : Loc)
    (elements : ℕ) (r : Bytes) : Run Memory Bytes := do
  let s ← Run.get
  match s.zval rval with
  | .obj o =>
    extendProperties o elements
    let r ← processNestedData unserialize o true elements r
    Run.ofOption (expect '}' r)
  | _ => Run.fail

/-- The rule of `O:` and `C:`, after these two bytes. -/
def unserializeObject (env : Env) (unserialize : Loc → Bytes → Run Memory Bytes)
    (custom : Bool) (rval : Loc) (r : Bytes) : Run Memory Bytes := do
  let (name, r) ← Run.ofOption (scanClassName r)
  let (ce, incomplete) ← findClass env name
  if custom then
    let r ← objectCustom env rval r ce
    storeClassName incomplete rval
    pure r
  else
    let (elements, r) ← objectCommon1 env rval r ce
    storeClassName incomplete rval
    objectCommon2 unserialize rval elements r

/-- The rule of `o:`, after these two bytes. -/
def unserializeStd (unserialize : Loc → Bytes → Run Memory Bytes)
    (rval : Loc) (r : Bytes) : Run Memory Bytes := do
  let (elements, r) ← Run.ofOption (scanIv r)
  let r' ← Run.ofOption ((expect ':' r).bind (expect '"'))
  objectInitEx rval []
  Run.assert (0 ≤ elements.toInt)
  objectCommon2 unserialize rval elements.toNat r'

/-- The rules that `scan` leaves, by the first byte. -/
def unserializeOther (env : Env) (unserialize : Loc → Bytes → Run Memory Bytes)
    (rval : Loc) : Bytes → Run Memory Bytes
  | [] => Run.fail
  | c :: r =>
    if c = '}'.toUInt8 then do
      env.error
      Run.fail
    else do
      let r ← Run.ofOption (expect ':' r)
      if c = 'd'.toUInt8 then
        let r ← Run.ofOption (scanDouble r)
        Run.modify fun s => s.set rval .scalar
        pure r
      else if c = 'o'.toUInt8 then unserializeStd unserialize rval r
      else if c = 'O'.toUInt8 then unserializeObject env unserialize false rval r
      else if c = 'C'.toUInt8 then unserializeObject env unserialize true rval r
      else Run.fail

/-- `php_var_unserialize_internal`. -/
def unserializeInternal (env : Env) : ℕ → Loc → Bytes → Run Memory Bytes
  | 0, _, _ => Run.fail
  | _ + 1, _, [] => Run.fail
  | fuel + 1, rval, c :: r => do
    varPush (c ≠ 'R'.toUInt8) rval
    match scan (c :: r) with
    | some (.backRef id, r) =>
      backRef rval id
      pure r
    | some (.copy id, r) =>
      copy rval id
      pure r
    | some (.arr elements, r) =>
      Run.assert (0 ≤ elements.toInt)
      let t ← arrayInitSize rval elements.toNat
      let r ← processNestedData (unserializeInternal env fuel) t false elements.toNat r
      Run.ofOption (expect '}' r)
    | some (_, r) =>
      Run.modify fun s => s.set rval .scalar
      pure r
    | none => unserializeOther env (unserializeInternal env fuel) rval (c :: r)

/-- Nothing read yet. -/
def Memory.start : Memory where
  root := .undef
  tables := fun _ => { initialized := false, nTableSize := 8, nNumOfElements := 0, arData := [] }
  properties := fun _ => []
  cells := fun _ => .undef
  next := 0
  slots := []
  keys := []
  stale := false
  foreign := false
  wide := false
  freed := false

/-- `php_var_unserialize` with a new `var_hash`; no text is nested deeper than it is long. -/
def varUnserialize (env : Env) (buf : Bytes) : Option Bytes × Memory :=
  unserializeInternal env (buf.length + 1) .root buf .start

end PhpSlots
