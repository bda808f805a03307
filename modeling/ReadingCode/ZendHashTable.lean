/-
# The hash table of the Zend engine

`Zend/zend_hash.c`: an ordered table in two layouts.  The elements are in the buckets of
`arData`, in the order in which they were inserted; a deleted element leaves a hole, which
goes away when the table is compacted or, at the end, at once.  In the hash layout the
buckets of one hash slot form a chain through the spare words of their values; in the packed
layout the integer key of an element is its index.

The engine keeps a list of iterators beside the tables.  A position of an iterator, or the
internal pointer of a table, is an index of a bucket or `HT_INVALID_IDX`.

Memory that was just allocated holds what `junk` says.
-/
import Mathlib
import ReadingCode.IndexChains

namespace ZendHash

open Function (update)

/-! ## Constants -/

/-- `HT_INVALID_IDX` -/
abbrev HT_INVALID_IDX : ℕ := 4294967295

/-- `HT_MIN_MASK` -/
abbrev HT_MIN_MASK : ℕ := 4294967294

/-- `HT_MIN_SIZE` -/
abbrev HT_MIN_SIZE : ℕ := 8

/-- `HT_MAX_SIZE` -/
abbrev HT_MAX_SIZE : ℕ := 0x80000000

/-- `ZEND_LONG_MAX` -/
abbrev ZEND_LONG_MAX : ℕ := 9223372036854775807

/-- `(zend_long)h` -/
def toLong (h : ℕ) : ℤ := if h ≤ ZEND_LONG_MAX then h else (h : ℤ) - 2 ^ 64

/-- `(zend_ulong)n` -/
def toUlong (n : ℤ) : ℕ := (n % 2 ^ 64).toNat

/-! ## Data -/

section

variable (K V : Type)

/-- `Bucket`: no value is `IS_UNDEF`, `next` is the spare word of the value, no key that of an
integer key `h`. -/
structure Bucket where
  val : Option V
  next : ℕ
  h : ℕ
  key : Option K

/-- `HashTable`, with the flags `HASH_FLAG_PACKED` and `HASH_FLAG_INITIALIZED`; `hash` are the
hash slots, by the index that `HT_HASH` takes. -/
structure HashTable where
  packed : Bool
  initialized : Bool
  nIteratorsCount : ℕ
  nTableMask : ℕ
  hash : ℕ → ℕ
  arData : ℕ → Bucket K V
  nNumUsed : ℕ
  nNumOfElements : ℕ
  nTableSize : ℕ
  nInternalPointer : ℕ
  nNextFreeElement : ℤ

end

/-- `HashTableIterator`; the address of a table, or `NULL`. -/
structure HashTableIterator where
  ht : Option ℕ
  pos : ℕ

/-- A table and the iterators of the engine that are in use. -/
structure State (K V : Type) where
  ht : HashTable K V
  iterators : List HashTableIterator

variable {K V : Type}

/-! ## Sizes -/

/-- `zend_hash_check_size`: a power of two; a size that is too large ends the run. -/
def checkSize (nSize : ℕ) : Option ℕ :=
  if HT_MAX_SIZE ≤ nSize then none
  else
    let n := (if nSize < HT_MIN_SIZE then HT_MIN_SIZE else nSize) - 1
    let n := n ||| n >>> 1
    let n := n ||| n >>> 2
    let n := n ||| n >>> 4
    let n := n ||| n >>> 8
    let n := n ||| n >>> 16
    some (n + 1)

/-- `_zend_hash_init` with a size that `zend_hash_check_size` returned. -/
def HashTable.init (nTableSize : ℕ) (arData : ℕ → Bucket K V) : HashTable K V where
  packed := false
  initialized := false
  nIteratorsCount := 0
  nTableMask := HT_MIN_MASK
  hash := fun _ => HT_INVALID_IDX
  arData := arData
  nNumUsed := 0
  nNumOfElements := 0
  nTableSize := nTableSize
  nInternalPointer := HT_INVALID_IDX
  nNextFreeElement := 0

namespace HashTable

/-- `h | ht->nTableMask` -/
def nIndex (ht : HashTable K V) (h : ℕ) : ℕ := (h ||| ht.nTableMask) % 2 ^ 32

/-- `-ht->nTableSize` -/
def negSize (nTableSize : ℕ) : ℕ := (2 ^ 32 - nTableSize) % 2 ^ 32

/-- The bucket `i` is in the chain of its hash slot: it becomes the first one. -/
def link (ht : HashTable K V) (i : ℕ) : HashTable K V :=
  let n := ht.nIndex (ht.arData i).h
  { ht with
    arData := update ht.arData i { ht.arData i with next := ht.hash n }
    hash := update ht.hash n i }

/-- `HT_HASH_RESET` -/
def hashReset (ht : HashTable K V) : HashTable K V :=
  { ht with hash := fun _ => HT_INVALID_IDX }

/-- The bucket `i` is not `IS_UNDEF`. -/
def live (ht : HashTable K V) (i : ℕ) : Bool := (ht.arData i).val.isSome

end HashTable

/-- The first `n` buckets in memory that was just allocated. -/
def realloc (junk : ℕ → Bucket K V) (n : ℕ) (arData : ℕ → Bucket K V) : ℕ → Bucket K V :=
  fun i => if i < n then arData i else junk i

/-- `zend_hash_real_init_ex` -/
def HashTable.realInit (ht : HashTable K V) (packed : Bool) (junk : ℕ → Bucket K V) :
    HashTable K V :=
  if packed then
    { ht with
      initialized := true, packed := true, arData := junk, hash := fun _ => HT_INVALID_IDX }
  else
    { ht with
      initialized := true, nTableMask := HashTable.negSize ht.nTableSize, arData := junk
      hash := fun _ => HT_INVALID_IDX }

/-- `zend_hash_packed_grow` -/
def HashTable.packedGrow (ht : HashTable K V) (junk : ℕ → Bucket K V) :
    Option (HashTable K V) :=
  if ht.nTableSize ≥ HT_MAX_SIZE then none
  else
    some { ht with
      nTableSize := ht.nTableSize + ht.nTableSize
      arData := realloc junk ht.nNumUsed ht.arData }

/-! ## Iterators -/

section Iterators

variable (self : ℕ)

/-- `_zend_hash_iterators_update` -/
def iteratorsUpdate (src dst : ℕ) (its : List HashTableIterator) : List HashTableIterator :=
  its.map fun it => if it.ht = some self ∧ it.pos = src then { it with pos := dst } else it

/-- `zend_hash_iterators_update` -/
def State.iteratorsUpdate (s : State K V) (src dst : ℕ) : State K V :=
  if s.ht.nIteratorsCount ≠ 0 then
    { s with iterators := ZendHash.iteratorsUpdate self src dst s.iterators }
  else s

/-- `zend_hash_iterators_lower_pos` -/
def lowerPos (start : ℕ) (its : List HashTableIterator) : ℕ :=
  its.foldl (fun res it =>
    if it.ht = some self ∧ start ≤ it.pos ∧ it.pos < res then it.pos else res) HT_INVALID_IDX

/-! ## Rehashing -/

/-- One bucket that compaction moves from `i` to `j`, with the internal pointer. -/
def HashTable.move (ht : HashTable K V) (i j : ℕ) : HashTable K V :=
  let q : Bucket K V :=
    { ht.arData j with val := (ht.arData i).val, h := (ht.arData i).h, key := (ht.arData i).key }
  let ht := HashTable.link { ht with arData := update ht.arData j q } j
  { ht with nInternalPointer := if ht.nInternalPointer = i then j else ht.nInternalPointer }

/-- The inner loop of `zend_hash_rehash`, with `n` buckets to go from `i` on, the next free
bucket `j` and, where the table has iterators, the lowest position of one that is still to
move. -/
def compact : ℕ → ℕ → ℕ → ℕ → State K V → State K V
  | 0, _, j, _, s => { s with ht := { s.ht with nNumUsed := j } }
  | n + 1, i, j, iterPos, s =>
    if s.ht.live i then
      let s : State K V := { s with ht := s.ht.move i j }
      if s.ht.nIteratorsCount ≠ 0 ∧ i = iterPos then
        let s := s.iteratorsUpdate self i j
        compact n (i + 1) (j + 1) (lowerPos self (iterPos + 1) s.iterators) s
      else compact n (i + 1) (j + 1) iterPos s
    else compact n (i + 1) j iterPos s

/-- The outer loop of `zend_hash_rehash`, with `n` buckets to go from `i` on: up to the first
hole the buckets stay where they are. -/
def rehashFrom : ℕ → ℕ → State K V → State K V
  | 0, _, s => s
  | n + 1, i, s =>
    if s.ht.live i then rehashFrom n (i + 1) { s with ht := s.ht.link i }
    else compact self n (i + 1) i (lowerPos self 0 s.iterators) s

/-- The loop of `zend_hash_rehash` for a table without holes. -/
def linkFrom : ℕ → ℕ → HashTable K V → HashTable K V
  | 0, _, ht => ht
  | n + 1, i, ht => linkFrom n (i + 1) (ht.link i)

/-- `zend_hash_rehash` -/
def State.rehash (s : State K V) : State K V :=
  if s.ht.nNumOfElements = 0 then
    if s.ht.initialized then
      { s with ht := HashTable.hashReset { s.ht with nNumUsed := 0 } }
    else s
  else
    let s : State K V := { s with ht := s.ht.hashReset }
    if s.ht.nNumUsed = s.ht.nNumOfElements then
      { s with ht := linkFrom s.ht.nNumUsed 0 s.ht }
    else rehashFrom self s.ht.nNumUsed 0 s

variable (junk : ℕ → Bucket K V)

/-- `zend_hash_packed_to_hash` -/
def State.packedToHash (s : State K V) : State K V :=
  State.rehash self { s with
    ht := { s.ht with
      packed := false
      nTableMask := HashTable.negSize s.ht.nTableSize
      arData := realloc junk s.ht.nNumUsed s.ht.arData } }

/-- The table with room for `nSize` buckets in the hash layout, rehashed. -/
def State.resizeHash (s : State K V) (nSize : ℕ) : State K V :=
  State.rehash self { s with
    ht := { s.ht with
      nTableSize := nSize
      nTableMask := HashTable.negSize nSize
      arData := realloc junk s.ht.nNumUsed s.ht.arData } }

/-- `zend_hash_do_resize` -/
def State.doResize (s : State K V) : Option (State K V) :=
  if s.ht.nNumUsed > s.ht.nNumOfElements + s.ht.nNumOfElements >>> 5 then some (s.rehash self)
  else if s.ht.nTableSize < HT_MAX_SIZE then
    some (s.resizeHash self junk (s.ht.nTableSize + s.ht.nTableSize))
  else none

/-- `ZEND_HASH_IF_FULL_DO_RESIZE` -/
def State.ifFullDoResize (s : State K V) : Option (State K V) :=
  if s.ht.nNumUsed ≥ s.ht.nTableSize then s.doResize self junk else some s

/-- `zend_hash_extend` -/
def State.extend (s : State K V) (nSize : ℕ) (packed : Bool) : Option (State K V) :=
  if nSize = 0 then some s
  else if s.ht.initialized = false then
    if nSize > s.ht.nTableSize then
      (checkSize nSize).map fun size =>
        { s with ht := HashTable.realInit { s.ht with nTableSize := size } packed junk }
    else some { s with ht := s.ht.realInit packed junk }
  else if nSize > s.ht.nTableSize then
    (checkSize nSize).map fun size =>
      if packed then
        { s with ht :=
          { s.ht with
            nTableSize := size, arData := realloc junk s.ht.nNumUsed s.ht.arData } }
      else s.resizeHash self junk size
  else some s

/-! ## Finding -/

/-- The loop over a chain, for at most `fuel` buckets: the index of the bucket that `p` holds
for and that of the bucket before it. -/
def HashTable.walk (ht : HashTable K V) (p : Bucket K V → Bool) :
    ℕ → ℕ → Option ℕ → Option (ℕ × Option ℕ)
  | 0, _, _ => none
  | fuel + 1, idx, prev =>
    if idx = HT_INVALID_IDX then none
    else if p (ht.arData idx) then some (idx, prev)
    else HashTable.walk ht p fuel (ht.arData idx).next (some idx)

variable [DecidableEq K]

/-- The bucket has the string key; the test for the same string is part of that for equal
ones. -/
def isKey (k : K) (h : ℕ) (b : Bucket K V) : Bool := b.h = h ∧ b.key = some k

/-- The bucket has the integer key. -/
def isIndex (h : ℕ) (b : Bucket K V) : Bool := b.h = h ∧ b.key.isNone

/-- The chain of a hash, searched. -/
def HashTable.search (ht : HashTable K V) (p : Bucket K V → Bool) (h : ℕ) :
    Option (ℕ × Option ℕ) :=
  ht.walk p (ht.nNumUsed + 1) (ht.hash (ht.nIndex h)) none

/-- `zend_hash_find_bucket`; `hash k` is `ZSTR_H`. -/
def HashTable.findBucket (hash : K → ℕ) (ht : HashTable K V) (k : K) : Option ℕ :=
  (ht.search (isKey k (hash k)) (hash k)).map (·.1)

/-- `zend_hash_index_find_bucket` -/
def HashTable.indexFindBucket (ht : HashTable K V) (h : ℕ) : Option ℕ :=
  (ht.search (isIndex h) h).map (·.1)

/-- `zend_hash_find` -/
def HashTable.find (hash : K → ℕ) (ht : HashTable K V) (k : K) : Option V :=
  (ht.findBucket hash k).bind fun i => (ht.arData i).val

/-- `zend_hash_index_find` -/
def HashTable.indexFind (ht : HashTable K V) (h : ℕ) : Option V :=
  if ht.packed then if h < ht.nNumUsed then (ht.arData h).val else none
  else (ht.indexFindBucket h).bind fun i => (ht.arData i).val

/-! ## Adding -/

/-- `flag`: `HASH_ADD`, `HASH_ADD_NEW` and `HASH_ADD_NEXT`; without the first it is
`HASH_UPDATE`. -/
structure Flag where
  add : Bool
  addNew : Bool
  addNext : Bool

/-- `nNextFreeElement` after an insertion with the key `h`. -/
def nextFree (n : ℤ) (h : ℕ) : ℤ :=
  if toLong h ≥ n then if h < ZEND_LONG_MAX then (h : ℤ) + 1 else ZEND_LONG_MAX else n

/-- The value of the bucket `i`. -/
def HashTable.setVal (ht : HashTable K V) (i : ℕ) (v : Option V) : HashTable K V :=
  { ht with arData := update ht.arData i { ht.arData i with val := v } }

/-- The internal pointer and the iterators that are past the end are at the new element. -/
def State.arrive (s : State K V) (idx : ℕ) : State K V :=
  State.iteratorsUpdate self { s with
    ht := { s.ht with
      nNumOfElements := s.ht.nNumOfElements + 1
      nInternalPointer :=
        if s.ht.nInternalPointer = HT_INVALID_IDX then idx else s.ht.nInternalPointer } }
    HT_INVALID_IDX idx

/-- `add_to_hash`: the next bucket, in the chain of its hash. -/
def State.addToHash (s : State K V) (key : Option K) (h : ℕ) (v : V) : State K V :=
  let idx := s.ht.nNumUsed
  let s := State.arrive self { s with ht := { s.ht with nNumUsed := idx + 1 } } idx
  let p : Bucket K V := { val := some v, next := (s.ht.arData idx).next, h := h, key := key }
  let ht := HashTable.link { s.ht with arData := update s.ht.arData idx p } idx
  { s with ht :=
    { ht with
      nNextFreeElement :=
        if key.isNone then nextFree s.ht.nNextFreeElement h else s.ht.nNextFreeElement } }

/-- `_zend_hash_add_or_update_i`; the index of the bucket, or `NULL`. -/
def State.addOrUpdate (hash : K → ℕ) (s : State K V) (k : K) (v : V) (flag : Flag) :
    Option (State K V × Option ℕ) :=
  let add (s : State K V) : State K V × Option ℕ :=
    (s.addToHash self (some k) (hash k) v, some s.ht.nNumUsed)
  if s.ht.initialized = false then some (add { s with ht := s.ht.realInit false junk })
  else if s.ht.packed then ((s.packedToHash self junk).ifFullDoResize self junk).map add
  else if flag.addNew then (s.ifFullDoResize self junk).map add
  else
    match s.ht.findBucket hash k with
    | some i =>
      if flag.add then some (s, none) else some ({ s with ht := s.ht.setVal i (some v) }, some i)
    | none => (s.ifFullDoResize self junk).map add

/-- The buckets from `m` up to `n` are set to `IS_UNDEF`. -/
def undefBuckets (m n : ℕ) (arData : ℕ → Bucket K V) : ℕ → Bucket K V :=
  fun i => if m ≤ i ∧ i < n then { arData i with val := none } else arData i

/-- `add_to_packed` -/
def State.addToPacked (s : State K V) (h : ℕ) (v : V) (flag : Flag) : State K V :=
  let ht : HashTable K V :=
    if flag.addNew ∧ flag.addNext then { s.ht with nNumUsed := h + 1 }
    else if h ≥ s.ht.nNumUsed then
      { s.ht with nNumUsed := h + 1, arData := undefBuckets s.ht.nNumUsed h s.ht.arData }
    else s.ht
  let s := State.arrive self { s with ht := ht } h
  let p : Bucket K V := { val := some v, next := (s.ht.arData h).next, h := h, key := none }
  { s with ht :=
    { s.ht with
      arData := update s.ht.arData h p
      nNextFreeElement := nextFree s.ht.nNextFreeElement h } }

/-- The value of an element with an integer key that is there. -/
def State.updateIndex (s : State K V) (i h : ℕ) (v : V) (flag : Flag) :
    State K V × Option ℕ :=
  if flag.add then (s, none)
  else
    ({ s with ht :=
      { s.ht.setVal i (some v) with
        nNextFreeElement := nextFree s.ht.nNextFreeElement h } }, some i)

/-- `_zend_hash_index_add_or_update_i` -/
def State.indexAddOrUpdate (s : State K V) (h : ℕ) (v : V) (flag : Flag) :
    Option (State K V × Option ℕ) :=
  let addHash (s : State K V) : State K V × Option ℕ :=
    (s.addToHash self none h v, some s.ht.nNumUsed)
  let addPacked (s : State K V) : State K V × Option ℕ := (s.addToPacked self h v flag, some h)
  let convert : Option (State K V × Option ℕ) :=
    ((s.packedToHash self junk).ifFullDoResize self junk).map addHash
  if s.ht.initialized = false then
    if h < s.ht.nTableSize then some (addPacked { s with ht := s.ht.realInit true junk })
    else some (addHash { s with ht := s.ht.realInit false junk })
  else if s.ht.packed then
    if h < s.ht.nNumUsed then
      -- a hole is not filled, the order would change
      if s.ht.live h then some (s.updateIndex h h v flag) else convert
    else if h < s.ht.nTableSize then some (addPacked s)
    else if h >>> 1 < s.ht.nTableSize ∧ s.ht.nTableSize >>> 1 < s.ht.nNumOfElements then
      (s.ht.packedGrow junk).map fun ht => addPacked { s with ht := ht }
    else convert
  else if flag.addNew then (s.ifFullDoResize self junk).map addHash
  else
    match s.ht.indexFindBucket h with
    | some i => some (s.updateIndex i h v flag)
    | none => (s.ifFullDoResize self junk).map addHash

/-! ## Deleting -/

/-- The loop that takes the holes at the end off. -/
def trimUsed (arData : ℕ → Bucket K V) : ℕ → ℕ
  | 0 => 0
  | n + 1 => if (arData n).val.isNone then trimUsed arData n else n + 1

/-- The loop for the next element, with `n` buckets to go from `i` on. -/
def HashTable.nextFrom (ht : HashTable K V) : ℕ → ℕ → ℕ
  | 0, _ => HT_INVALID_IDX
  | n + 1, i => if ht.live i then i else HashTable.nextFrom ht n (i + 1)

/-- The bucket `idx` is taken out of its chain. -/
def HashTable.unlink (ht : HashTable K V) (idx : ℕ) (prev : Option ℕ) : HashTable K V :=
  match prev with
  | some p =>
    { ht with
      arData := update ht.arData p { ht.arData p with next := (ht.arData idx).next } }
  | none =>
    { ht with
      hash := update ht.hash (ht.nIndex (ht.arData idx).h) (ht.arData idx).next }

/-- `_zend_hash_del_el_ex` -/
def State.delElEx (s : State K V) (idx : ℕ) (prev : Option ℕ) : State K V :=
  let ht := if s.ht.packed then s.ht else s.ht.unlink idx prev
  let ht : HashTable K V :=
    { ht with
      nNumUsed :=
        if ht.nNumUsed - 1 = idx then trimUsed ht.arData (ht.nNumUsed - 1) else ht.nNumUsed
      nNumOfElements := ht.nNumOfElements - 1 }
  let s : State K V := { s with ht := ht }
  let s : State K V :=
    if ht.nInternalPointer = idx ∨ ht.nIteratorsCount ≠ 0 then
      let newIdx := ht.nextFrom (ht.nNumUsed - (idx + 1)) (idx + 1)
      State.iteratorsUpdate self { s with
        ht := { ht with
          nInternalPointer := if ht.nInternalPointer = idx then newIdx else ht.nInternalPointer } }
        idx newIdx
    else s
  { s with ht := s.ht.setVal idx none }

/-- `zend_hash_del`; whether it is `SUCCESS`. -/
def State.del (hash : K → ℕ) (s : State K V) (k : K) : State K V × Bool :=
  match s.ht.search (isKey k (hash k)) (hash k) with
  | some (idx, prev) => (s.delElEx self idx prev, true)
  | none => (s, false)

/-- `zend_hash_index_del` -/
def State.indexDel (s : State K V) (h : ℕ) : State K V × Bool :=
  if s.ht.packed then
    if h < s.ht.nNumUsed ∧ s.ht.live h then (s.delElEx self h none, true) else (s, false)
  else
    match s.ht.search (isIndex h) h with
    | some (idx, prev) => (s.delElEx self idx prev, true)
    | none => (s, false)

/-- `zend_hash_clean` -/
def HashTable.clean (ht : HashTable K V) : HashTable K V :=
  let ht := if ht.nNumUsed ≠ 0 ∧ ht.packed = false then ht.hashReset else ht
  { ht with
    nNumUsed := 0, nNumOfElements := 0, nNextFreeElement := 0
    nInternalPointer := HT_INVALID_IDX }

/-! ## Iterating -/

/-- The loop for the element before the bucket `n`. -/
def HashTable.prevFrom (ht : HashTable K V) : ℕ → ℕ
  | 0 => HT_INVALID_IDX
  | n + 1 => if ht.live n then n else HashTable.prevFrom ht n

/-- `zend_hash_internal_pointer_reset` -/
def HashTable.internalPointerReset (ht : HashTable K V) : HashTable K V :=
  { ht with nInternalPointer := ht.nextFrom ht.nNumUsed 0 }

/-- `zend_hash_internal_pointer_end` -/
def HashTable.internalPointerEnd (ht : HashTable K V) : HashTable K V :=
  { ht with nInternalPointer := ht.prevFrom ht.nNumUsed }

/-- The position after `pos`. -/
def HashTable.posAfter (ht : HashTable K V) (pos : ℕ) : ℕ :=
  ht.nextFrom (ht.nNumUsed - (pos + 1)) (pos + 1)

/-- `zend_hash_move_forward` -/
def HashTable.moveForward (ht : HashTable K V) : HashTable K V :=
  if ht.nInternalPointer = HT_INVALID_IDX then ht
  else { ht with nInternalPointer := ht.posAfter ht.nInternalPointer }

/-- `zend_hash_move_backwards` -/
def HashTable.moveBackwards (ht : HashTable K V) : HashTable K V :=
  if ht.nInternalPointer = HT_INVALID_IDX then ht
  else { ht with nInternalPointer := ht.prevFrom ht.nInternalPointer }

/-- The first free place among the iterators is taken, or one at the end. -/
def placeIterator (pos : ℕ) : List HashTableIterator → List HashTableIterator
  | [] => [⟨some self, pos⟩]
  | it :: its =>
    if it.ht = none then ⟨some self, pos⟩ :: its else it :: placeIterator pos its

/-- `zend_hash_iterator_add` -/
def State.iteratorAdd (s : State K V) (pos : ℕ) : State K V where
  ht := { s.ht with
    nIteratorsCount :=
      if s.ht.nIteratorsCount ≠ 255 then s.ht.nIteratorsCount + 1 else s.ht.nIteratorsCount }
  iterators := placeIterator self pos s.iterators

/-- The free places at the end are not in use. -/
def trimIterators (its : List HashTableIterator) : List HashTableIterator :=
  its.rdropWhile fun it => it.ht.isNone

/-- `zend_hash_iterator_del` -/
def State.iteratorDel (s : State K V) (idx : ℕ) : State K V :=
  match s.iterators[idx]? with
  | none => s
  | some it =>
    let its := s.iterators.set idx { it with ht := none }
    { ht :=
        if it.ht = some self ∧ s.ht.nIteratorsCount ≠ 255 then
          { s.ht with nIteratorsCount := s.ht.nIteratorsCount - 1 }
        else s.ht
      iterators := if idx = s.iterators.length - 1 then trimIterators its else its }

/-- What `ZEND_FE_FETCH_RW` does to the iterator of the loop: it goes from its element to the
next one. -/
def State.feFetch (s : State K V) (idx : ℕ) : State K V :=
  match s.iterators[idx]? with
  | none => s
  | some it =>
    let pos := s.ht.nextFrom (s.ht.nNumUsed - it.pos) it.pos
    if pos = HT_INVALID_IDX then s
    else { s with iterators := s.iterators.set idx { it with pos := s.ht.posAfter pos } }

/-! ## Runs -/

/-- The operations that change a table. -/
inductive Op (K V : Type) where
  | addOrUpdate (k : K) (v : V) (add addNew : Bool)
  | indexAddOrUpdate (h : ℕ) (v : V) (add addNew : Bool)
  | nextIndexInsert (v : V) (addNew : Bool)
  | del (k : K)
  | indexDel (h : ℕ)
  | rehash
  | extend (nSize : ℕ) (packed : Bool)
  | packedToHash
  | clean

variable (hash : K → ℕ)

/-- One operation; none is a fatal error. -/
def State.step (s : State K V) : Op K V → Option (State K V)
  | .addOrUpdate k v add addNew =>
    (s.addOrUpdate self junk hash k v ⟨add, addNew, false⟩).map (·.1)
  | .indexAddOrUpdate h v add addNew =>
    (s.indexAddOrUpdate self junk h v ⟨add, addNew, false⟩).map (·.1)
  | .nextIndexInsert v addNew =>
    (s.indexAddOrUpdate self junk (toUlong s.ht.nNextFreeElement) v ⟨true, addNew, true⟩).map
      (·.1)
  | .del k => some (s.del self hash k).1
  | .indexDel h => some (s.indexDel self h).1
  | .rehash => some (s.rehash self)
  | .extend nSize packed => s.extend self junk nSize packed
  | .packedToHash => some (s.packedToHash self junk)
  | .clean => some { s with ht := s.ht.clean }

/-- The position operations. -/
inductive Seek where
  | internalPointerReset
  | internalPointerEnd
  | moveForward
  | moveBackwards
  | iteratorAdd (pos : ℕ)
  | iteratorDel (idx : ℕ)
  | feFetch (idx : ℕ)

/-- One position operation. -/
def State.seek (s : State K V) : Seek → State K V
  | .internalPointerReset => { s with ht := s.ht.internalPointerReset }
  | .internalPointerEnd => { s with ht := s.ht.internalPointerEnd }
  | .moveForward => { s with ht := s.ht.moveForward }
  | .moveBackwards => { s with ht := s.ht.moveBackwards }
  | .iteratorAdd pos => s.iteratorAdd self pos
  | .iteratorDel idx => s.iteratorDel self idx
  | .feFetch idx => s.feFetch idx

end Iterators

/-! # The collision chains of a table -/

open IndexChains

open ZendHash.HashTable

open List Function

variable {K V : Type} {mask m i n : ℕ} {a a' : ℕ → Bucket K V} {hs : ℕ → ℕ}

/-- `h | mask` -/
def indexOf (mask h : ℕ) : ℕ := (h ||| mask) % 2 ^ 32

theorem HashTable.nIndex_eq (ht : HashTable K V) (h : ℕ) : ht.nIndex h = indexOf ht.nTableMask h :=
  rfl

/-! ## The buckets of a slot -/

/-- The bucket is live and belongs to the hash slot `n`. -/
def inSlot (mask n : ℕ) (b : Bucket K V) : Bool := b.val.isSome && indexOf mask b.h == n

/-- The live buckets below `m` of the hash slot `n`, the last one first. -/
def chainList (mask : ℕ) (a : ℕ → Bucket K V) (m n : ℕ) : List ℕ :=
  (List.range m).reverse.filter fun i => inSlot mask n (a i)

theorem chainList_succ : chainList mask a (m + 1) n
    = if inSlot mask n (a m) then m :: chainList mask a m n else chainList mask a m n := by
  rw [chainList, range_succ, reverse_append, reverse_singleton, singleton_append, filter_cons]
  rfl

theorem mem_chainList : i ∈ chainList mask a m n ↔ i < m ∧ inSlot mask n (a i) = true := by
  rw [chainList, mem_filter, mem_reverse, mem_range]

theorem nodup_chainList : (chainList mask a m n).Nodup :=
  List.Nodup.filter _ (nodup_reverse.mpr nodup_range)

theorem length_chainList_le (mask : ℕ) (a : ℕ → Bucket K V) (m n : ℕ) :
    (chainList mask a m n).length ≤ m := by
  refine le_trans (length_filter_le ..) ?_
  rw [length_reverse, length_range]

/-- The buckets of a slot depend on the values and the hashes only. -/
theorem chainList_congr (h : ∀ i < m, (a i).val = (a' i).val ∧ (a i).h = (a' i).h) (n : ℕ) :
    chainList mask a m n = chainList mask a' m n := by
  apply filter_congr
  intro i hi
  rw [mem_reverse, mem_range] at hi
  rw [inSlot, inSlot, (h i hi).1, (h i hi).2]

/-- Holes at the end are in no chain. -/
theorem chainList_of_holes {m' : ℕ} (hm : m' ≤ m)
    (h : ∀ i, m' ≤ i → i < m → (a i).val.isSome = false) (n : ℕ) :
    chainList mask a m n = chainList mask a m' n := by
  induction hm with
  | refl => rfl
  | @step m hm ih =>
    have hslot : inSlot mask n (a m) = false := by
      rw [inSlot, h m hm (Nat.lt_succ_self m), Bool.false_and]
    rw [chainList_succ, hslot, if_neg Bool.false_ne_true,
      ih fun i hi hlt => h i hi (Nat.lt_succ_of_lt hlt)]

/-- Every hash slot heads the chain of its buckets below `m`. -/
def Chained (mask : ℕ) (a : ℕ → Bucket K V) (hs : ℕ → ℕ) (m : ℕ) : Prop :=
  ∀ n, Chain (fun i => (a i).next) HT_INVALID_IDX (hs n) (chainList mask a m n)

theorem Chained.congr (hc : Chained mask a hs m) (h : ∀ i < m, a i = a' i) :
    Chained mask a' hs m := by
  intro n
  have hlist : chainList mask a' m n = chainList mask a m n :=
    chainList_congr (fun i hi => by rw [h i hi]; exact ⟨rfl, rfl⟩) n
  rw [hlist]
  refine (chain_congr ?_).mp (hc n)
  intro i hi
  rw [h i (mem_chainList.mp hi).1]

/-- A value may be replaced in place. -/
theorem Chained.setVal (hc : Chained mask a hs m) {v : V} (hi : (a i).val.isSome = true) :
    Chained mask (update a i { a i with val := some v }) hs m := by
  intro n
  have hlist : chainList mask (update a i { a i with val := some v }) m n
      = chainList mask a m n := by
    apply filter_congr
    intro k _
    by_cases hk : k = i
    · subst hk
      rw [update_self, inSlot, inSlot, hi]
      rfl
    · rw [update_of_ne hk]
  rw [hlist]
  refine (chain_congr fun k _ => ?_).mp (hc n)
  by_cases hk : k = i
  · subst hk
    rw [update_self]
  · rw [update_of_ne hk]

/-- **Linking** the next bucket keeps the chains. -/
theorem chained_link {b : Bucket K V} (hc : Chained mask a hs m) (hm : m < HT_INVALID_IDX)
    (hb : b.val.isSome = true) : Chained mask (update a m { b with next := hs (indexOf mask b.h) })
      (update hs (indexOf mask b.h) m) (m + 1) := by
  have hsame : ∀ i < m, update a m { b with next := hs (indexOf mask b.h) } i = a i :=
    fun i hi => update_of_ne (ne_of_lt hi) ..
  have hold := hc.congr fun i hi => (hsame i hi).symm
  intro n
  rw [chainList_succ, update_self]
  by_cases hn : indexOf mask b.h = n
  · subst hn
    have hslot : inSlot mask (indexOf mask b.h) { b with next := hs (indexOf mask b.h) }
        = true := by
      rw [inSlot, hb, Bool.true_and, beq_self_eq_true]
    rw [hslot, update_self]
    refine ⟨rfl, ne_of_lt hm, ?_⟩
    dsimp only
    rw [update_self]
    exact hold _
  · have hslot : inSlot mask n { b with next := hs (indexOf mask b.h) } = false := by
      rw [inSlot, beq_eq_false_iff_ne.mpr hn, Bool.and_false]
    rw [hslot, update_of_ne (Ne.symm hn)]
    exact hold n

/-! ## Searching -/

/-- The last element of `l`, or `prev` when there is none. -/
def lastOr (prev : Option ℕ) : List ℕ → Option ℕ
  | [] => prev
  | i :: l => lastOr (some i) l

theorem lastOr_append_singleton (prev : Option ℕ) (l : List ℕ) :
    lastOr prev (l ++ [i]) = some i := by
  induction l generalizing prev with
  | nil => rfl
  | cons k l ih => exact ih (some k)

variable {ht : HashTable K V} {p : Bucket K V → Bool} {fuel q : ℕ} {l u v : List ℕ}
  {prev : Option ℕ}

theorem walk_eq_none (hc : Chain (fun i => (ht.arData i).next) HT_INVALID_IDX q l)
    (hp : ∀ i ∈ l, p (ht.arData i) = false) : ht.walk p fuel q prev = none := by
  induction fuel generalizing q l prev with
  | zero => rfl
  | succ fuel ih =>
    rw [walk]
    cases l with
    | nil => rw [if_pos (show q = HT_INVALID_IDX from hc)]
    | cons i l =>
      obtain ⟨rfl, hne, hl⟩ := hc
      rw [if_neg hne, hp q mem_cons_self]
      exact ih hl fun k hk => hp k (mem_cons_of_mem _ hk)

theorem walk_eq_some (hc : Chain (fun i => (ht.arData i).next) HT_INVALID_IDX q (u ++ i :: v))
    (hu : ∀ k ∈ u, p (ht.arData k) = false) (hi : p (ht.arData i) = true)
    (hfuel : u.length < fuel) : ht.walk p fuel q prev = some (i, lastOr prev u) := by
  induction u generalizing fuel q prev with
  | nil =>
    obtain ⟨rfl, hne, -⟩ := hc
    obtain ⟨fuel, rfl⟩ : ∃ f, fuel = f + 1 := ⟨fuel - 1, by omega⟩
    rw [walk, if_neg hne, hi]
    rfl
  | cons k u ih =>
    obtain ⟨rfl, hne, hrest⟩ := hc
    obtain ⟨fuel, rfl⟩ : ∃ f, fuel = f + 1 := ⟨fuel - 1, by omega⟩
    rw [walk, if_neg hne, hu q mem_cons_self]
    exact ih hrest (fun k hk => hu k (mem_cons_of_mem _ hk))
      (by rw [length_cons] at hfuel; omega)

/-- A search goes through the live buckets of the hash slot. -/
theorem search_spec (hc : Chained ht.nTableMask ht.arData ht.hash ht.nNumUsed) (h : ℕ) :
    (ht.search p h = none ∧
      ∀ i < ht.nNumUsed, inSlot ht.nTableMask (ht.nIndex h) (ht.arData i) = true →
        p (ht.arData i) = false) ∨
    ∃ i u v, ht.search p h = some (i, lastOr none u) ∧ p (ht.arData i) = true ∧
      chainList ht.nTableMask ht.arData ht.nNumUsed (ht.nIndex h) = u ++ i :: v := by
  have hchain := hc (ht.nIndex h)
  by_cases hall : ∀ i ∈ chainList ht.nTableMask ht.arData ht.nNumUsed (ht.nIndex h),
      p (ht.arData i) = false
  · left
    refine ⟨walk_eq_none hchain hall, fun i hi hslot => hall i ?_⟩
    exact mem_chainList.mpr ⟨hi, hslot⟩
  · right
    push Not at hall
    obtain ⟨k, hk, hpk⟩ := hall
    -- the first bucket of the chain that the test holds for
    have hfind : ((chainList ht.nTableMask ht.arData ht.nNumUsed (ht.nIndex h)).find?
        fun i => p (ht.arData i)).isSome = true := by
      rw [find?_isSome]
      exact ⟨k, hk, by simpa using hpk⟩
    obtain ⟨i, hi⟩ := Option.isSome_iff_exists.mp hfind
    obtain ⟨hpi, u, v, heq, hu⟩ := find?_eq_some_iff_append.mp hi
    have hlen := congrArg List.length heq
    have hle := length_chainList_le ht.nTableMask ht.arData ht.nNumUsed (ht.nIndex h)
    rw [length_append] at hlen
    rw [heq] at hchain
    refine ⟨i, u, v, walk_eq_some hchain (fun k hk => ?_) hpi (by omega), hpi, heq⟩
    simpa using hu k hk

/-! ## Taking a bucket out -/

/-- Holes at the end may go. -/
theorem Chained.trim {m' : ℕ} (hc : Chained mask a hs m) (hm : m' ≤ m)
    (h : ∀ i, m' ≤ i → i < m → (a i).val.isSome = false) : Chained mask a hs m' := by
  intro n
  rw [← chainList_of_holes hm h]
  exact hc n

/-- The buckets of a slot when the bucket `i` has become a hole. -/
theorem chainList_of_hole (hi : (a' i).val.isSome = false)
    (h : ∀ k, k ≠ i → (a' k).val = (a k).val ∧ (a' k).h = (a k).h) :
    chainList mask a' m n = (chainList mask a m n).filter fun k => k ≠ i := by
  rw [chainList, chainList, filter_filter]
  apply filter_congr
  intro k _
  by_cases hk : k = i
  · subst hk
    rw [inSlot, hi, decide_eq_false (not_not_intro rfl), Bool.false_and, Bool.false_and]
  · rw [inSlot, inSlot, (h k hk).1, (h k hk).2, decide_eq_true hk, Bool.true_and]

theorem filter_ne_middle (h : (u ++ i :: v).Nodup) :
    (u ++ i :: v).filter (fun k => k ≠ i) = u ++ v := by
  rw [nodup_append, nodup_cons] at h
  obtain ⟨-, ⟨hv, -⟩, huv⟩ := h
  rw [filter_append, filter_cons_of_neg (by simp)]
  congr 1
  · apply filter_eq_self.mpr
    intro k hk
    exact decide_eq_true (huv k hk i mem_cons_self)
  · apply filter_eq_self.mpr
    intro k hk
    exact decide_eq_true fun heq => hv (heq ▸ hk)

/-- The bucket `i` has become a hole, and only the chain of its slot is not what it was. -/
theorem chained_of_hole {hs' : ℕ → ℕ} (hc : Chained mask a hs m) (hi : (a' i).val.isSome = false)
    (h : ∀ k, k ≠ i → (a' k).val = (a k).val ∧ (a' k).h = (a k).h)
    (hother : ∀ n, n ≠ indexOf mask (a i).h → hs' n = hs n ∧
      ∀ k ∈ chainList mask a m n, (a k).next = (a' k).next)
    (hthis : Chain (fun k => (a' k).next) HT_INVALID_IDX (hs' (indexOf mask (a i).h))
      ((chainList mask a m (indexOf mask (a i).h)).filter fun k => k ≠ i)) :
    Chained mask a' hs' m := by
  intro n
  rw [chainList_of_hole hi h]
  by_cases hn : n = indexOf mask (a i).h
  · subst hn
    exact hthis
  · have hfilter : (chainList mask a m n).filter (fun k => k ≠ i) = chainList mask a m n := by
      apply filter_eq_self.mpr
      intro k hk
      refine decide_eq_true ?_
      rintro rfl
      have hslot := (mem_chainList.mp hk).2
      rw [inSlot, Bool.and_eq_true, beq_iff_eq] at hslot
      exact hn hslot.2.symm
    rw [hfilter, (hother n hn).1]
    exact (chain_congr (hother n hn).2).mp (hc n)

/-- The first bucket of a chain is taken out. -/
theorem chained_unlink_first (hc : Chained ht.nTableMask ht.arData ht.hash m)
    (hchain : chainList ht.nTableMask ht.arData m (ht.nIndex (ht.arData i).h) = i :: v) :
    Chained ht.nTableMask ((ht.unlink i none).setVal i none).arData
      ((ht.unlink i none).setVal i none).hash m := by
  have hnodup : ([] ++ i :: v).Nodup := by
    rw [← hchain]
    exact nodup_chainList
  have hnext : ∀ k, (((ht.unlink i none).setVal i none).arData k).next = (ht.arData k).next := by
    intro k
    by_cases hk : k = i
    · subst hk
      simp [setVal, unlink]
    · simp [setVal, unlink, hk]
  rw [nIndex_eq] at hchain
  refine chained_of_hole (i := i) hc (by simp [setVal]) (fun k hk => ?_)
    (fun n hn => ⟨?_, fun k _ => (hnext k).symm⟩) ?_
  · simp [setVal, unlink, hk]
  · simp [setVal, unlink, nIndex_eq, hn]
  · have hchained := hc (indexOf ht.nTableMask (ht.arData i).h)
    have hhash : ((ht.unlink i none).setVal i none).hash (indexOf ht.nTableMask (ht.arData i).h)
        = (ht.arData i).next := by
      simp [setVal, unlink, nIndex_eq]
    have hfilter := filter_ne_middle hnodup
    rw [nil_append] at hfilter
    rw [hchain] at hchained ⊢
    rw [hfilter, hhash]
    exact (chain_congr fun k _ => (hnext k).symm).mp (chain_tail hchained)

/-- A bucket behind the bucket `p` of its chain is taken out. -/
theorem chained_unlink_after {p : ℕ} (hc : Chained ht.nTableMask ht.arData ht.hash m)
    (hchain : chainList ht.nTableMask ht.arData m (ht.nIndex (ht.arData i).h) = u ++ p :: i :: v) :
    Chained ht.nTableMask ((ht.unlink i (some p)).setVal i none).arData
      ((ht.unlink i (some p)).setVal i none).hash m := by
  have hnodup : (u ++ p :: i :: v).Nodup := hchain ▸ nodup_chainList
  obtain ⟨hpi, hpu, hpv⟩ : p ≠ i ∧ p ∉ u ∧ p ∉ v := by
    rw [nodup_append, nodup_cons] at hnodup
    obtain ⟨-, ⟨hp, -⟩, huv⟩ := hnodup
    rw [mem_cons, not_or] at hp
    exact ⟨hp.1, fun hmem => huv p hmem p mem_cons_self rfl, hp.2⟩
  have hnext : ∀ k, update (fun k => (ht.arData k).next) p (ht.arData i).next k
      = (((ht.unlink i (some p)).setVal i none).arData k).next := by
    intro k
    by_cases hk : k = i
    · subst hk
      simp [setVal, unlink, hpi.symm]
    · by_cases hkp : k = p
      · subst hkp
        simp [setVal, unlink, hk]
      · simp [setVal, unlink, hk, hkp]
  rw [nIndex_eq] at hchain
  refine chained_of_hole (i := i) hc (by simp [setVal]) (fun k hk => ?_)
    (fun n hn => ⟨rfl, fun k hk => ?_⟩) ?_
  · by_cases hkp : k = p
    · subst hkp
      simp [setVal, unlink, hk]
    · simp [setVal, unlink, hk, hkp]
  · -- the bucket before it is in the same chain
    rw [← hnext, update_of_ne]
    rintro rfl
    have hmem : k ∈ chainList ht.nTableMask ht.arData m
      (indexOf ht.nTableMask (ht.arData i).h) := by
      rw [hchain]
      exact mem_append_right u mem_cons_self
    have hslot := (mem_chainList.mp hk).2
    have hslot' := (mem_chainList.mp hmem).2
    rw [inSlot, Bool.and_eq_true, beq_iff_eq] at hslot hslot'
    exact hn (hslot.2.symm.trans hslot'.2)
  · have hchained := hc (indexOf ht.nTableMask (ht.arData i).h)
    rw [← singleton_append (x := p), ← append_assoc] at hnodup
    have hfilter := filter_ne_middle hnodup
    rw [append_assoc, singleton_append, append_assoc]
      at hfilter
    rw [hchain] at hchained ⊢
    rw [hfilter]
    exact (chain_congr fun k _ => hnext k).mp (chain_remove hchained hpu hpv)

/-- **Unlinking**: the bucket that a search has found is taken out of its chain. -/
theorem chained_unlink (hc : Chained ht.nTableMask ht.arData ht.hash m)
    (hchain : chainList ht.nTableMask ht.arData m (ht.nIndex (ht.arData i).h) = u ++ i :: v) :
    Chained ht.nTableMask ((ht.unlink i (lastOr none u)).setVal i none).arData
      ((ht.unlink i (lastOr none u)).setVal i none).hash m := by
  rcases eq_nil_or_concat u with rfl | ⟨u', p, rfl⟩
  · exact chained_unlink_first hc hchain
  · rw [concat_eq_append, append_assoc] at hchain
    rw [concat_eq_append, lastOr_append_singleton]
    exact chained_unlink_after hc hchain

end ZendHash
