/-
# Values of PHP in memory

A zval is a location that holds a value; arrays and references are shared structures the
values point to.  A value is looked at along paths of element positions: what is seen
there, and which variable it is, when positions below one reference are the same.
-/
import Mathlib.Data.BitVec
import ReadingCode.Decimal
import ReadingCode.Bytes

namespace PhpVar

/-- The key of a bucket: an integer `h`, or a string. -/
inductive Key
  | int (h : BitVec 64)
  | str (s : Bytes)
  deriving DecidableEq

/-- The types a value is built from; an array and a reference by their addresses. -/
inductive Zval
  | undef
  | null
  | bool (b : Bool)
  | long (v : BitVec 64)
  | str (s : Bytes)
  | arr (a : ℕ)
  | ref (c : ℕ)
  deriving DecidableEq

/-- The zvals by their locations, the elements of the arrays in order, with the location
of each, and the counts of the references; `next` is the first address not in use.  The
zval inside a reference has the location of the reference. -/
structure Heap where
  zval : ℕ → Zval
  table : ℕ → List (Key × ℕ)
  refcount : ℕ → ℕ
  applyProtection : ℕ → Bool
  next : ℕ

namespace Heap

variable (H : Heap)

/-- `Z_REFVAL_P` of a reference. -/
def deref (l : ℕ) : ℕ :=
  match H.zval l with
  | .ref c => c
  | _ => l

/-- `if (Z_ISREF_P(data) && Z_REFCOUNT_P(data) == 1) data = Z_REFVAL_P(data)`. -/
def unwrap (l : ℕ) : ℕ :=
  match H.zval l with
  | .ref c => if H.refcount c = 1 then c else l
  | _ => l

/-! ## Paths -/

/-- The zval of the element at position `i`. -/
def element (l i : ℕ) : Option ℕ :=
  match H.zval (H.deref l) with
  | .arr a => (H.table a)[i]?.map Prod.snd
  | _ => none

/-- The zval at the end of a path. -/
def walk (l : ℕ) : List ℕ → Option ℕ
  | [] => some l
  | i :: p => (H.element l i).bind fun x => walk x p

/-- What a zval shows: its value, for an array its keys in order. -/
inductive View
  | scalar (z : Zval)
  | arr (keys : List Key)

/-- What is seen at a zval. -/
def look (l : ℕ) : View :=
  match H.zval (H.deref l) with
  | .arr a => .arr ((H.table a).map Prod.fst)
  | z => .scalar z

/-- What is seen at the end of a path. -/
def view (l : ℕ) (p : List ℕ) : Option View := (H.walk l p).map H.look

/-- A variable: the last shared reference on the way, and the path from there. -/
abbrev Place := Option ℕ × List ℕ

/-- Arriving at a zval: a shared reference is a variable of its own. -/
def enter (b : Place) (l : ℕ) : Place :=
  match H.zval l with
  | .ref c => if 1 < H.refcount c then (some c, []) else b
  | _ => b

/-- The variable at the end of a path. -/
def placeFrom (b : Place) (l : ℕ) : List ℕ → Option Place
  | [] => some (H.enter b l)
  | i :: p =>
    (H.element l i).bind fun x => placeFrom ((H.enter b l).1, (H.enter b l).2 ++ [i]) x p

/-- Two paths lead to one variable. -/
def SamePlace (l : ℕ) (p q : List ℕ) : Prop :=
  ∃ b, H.placeFrom (none, []) l p = some b ∧ H.placeFrom (none, []) l q = some b

theorem walk_snoc (l : ℕ) (p : List ℕ) (i : ℕ) :
    H.walk l (p ++ [i]) = (H.walk l p).bind fun x => H.element x i := by
  induction p generalizing l with
  | nil =>
    simp only [List.nil_append, walk, Option.bind_some]
    cases H.element l i <;> rfl
  | cons j p ih =>
    rw [List.cons_append, walk, walk, Option.bind_assoc]
    congr 1
    funext x
    exact ih x

theorem placeFrom_snoc (b : Place) (l : ℕ) (p : List ℕ) (i : ℕ) :
    H.placeFrom b l (p ++ [i]) = (H.placeFrom b l p).bind fun b' =>
      ((H.walk l p).bind fun x => H.element x i).map fun y => H.enter (b'.1, b'.2 ++ [i]) y := by
  induction p generalizing b l with
  | nil =>
    simp only [List.nil_append, placeFrom, walk, Option.bind_some]
    cases H.element l i <;> rfl
  | cons j p ih =>
    rw [List.cons_append, placeFrom, placeFrom, walk]
    cases hx : H.element l j with
    | none => rfl
    | some x =>
      exact ih _ x

/-! ## Parts of a value -/

/-- The zvals a value consists of. -/
inductive Part (l : ℕ) : ℕ → Prop
  | root : Part l l
  | element {x a y : ℕ} {k : Key} : Part l x → H.zval (H.deref x) = .arr a →
      (k, y) ∈ H.table a → Part l y

/-- The array `a` has `b` as an element, through a reference or not. -/
def Holds (a b : ℕ) : Prop := ∃ e ∈ H.table a, H.zval (H.deref e.2) = .arr b

/-- A value built from null, booleans, integers, strings and arrays, no array of which
contains itself, within the sizes that `uint32_t` and `size_t` can tell. -/
structure WellFormed (l : ℕ) : Prop where
  value : ∀ x, H.Part l x → H.zval (H.deref x) ≠ .undef ∧ ∀ c, H.zval (H.deref x) ≠ .ref c
  string : ∀ x s, H.Part l x → H.zval (H.deref x) = .str s → s.length < 2 ^ 64
  key : ∀ x a s y, H.Part l x → H.zval (H.deref x) = .arr a → (.str s, y) ∈ H.table a →
    s.length < 2 ^ 64
  nodup : ∀ x a, H.Part l x → H.zval (H.deref x) = .arr a → ((H.table a).map Prod.fst).Nodup
  count : ∀ x a, H.Part l x → H.zval (H.deref x) = .arr a → (H.table a).length < 2 ^ 32
  refcount : ∀ x c, H.Part l x → H.zval x = .ref c → 0 < H.refcount c
  bound : ∀ x a, H.Part l x → H.zval (H.deref x) = .arr a → a < H.next
  acyclic : ∀ x a, H.Part l x → H.zval (H.deref x) = .arr a → ¬ Relation.TransGen H.Holds a a

/-! ## Height -/

open scoped Classical in
/-- The arrays inside an array. -/
noncomputable def inside (a : ℕ) : Finset ℕ :=
  (Finset.range H.next).filter fun b => Relation.TransGen H.Holds a b

/-- How deep the nesting at a zval can be. -/
noncomputable def height (l : ℕ) : ℕ :=
  match H.zval (H.deref l) with
  | .arr a => (H.inside a).card + 1
  | _ => 0

open scoped Classical in
theorem mem_inside {a b : ℕ} : b ∈ H.inside a ↔ b < H.next ∧ Relation.TransGen H.Holds a b := by
  rw [inside, Finset.mem_filter, Finset.mem_range]

variable {H} {l : ℕ}

namespace WellFormed

open Finset

variable (h : H.WellFormed l)

include h

variable {a x : ℕ}

theorem card_inside_lt {b : ℕ} (hx : H.Part l x) (ha : H.zval (H.deref x) = .arr a)
    (hab : H.Holds a b) : (H.inside b).card < (H.inside a).card := by
  obtain ⟨⟨k, y⟩, he, hb⟩ := hab
  have hy : H.Part l y := .element hx ha he
  have hcontains : Relation.TransGen H.Holds a b := .single ⟨(k, y), he, hb⟩
  apply card_lt_card
  rw [ssubset_iff_of_subset]
  · refine ⟨b, H.mem_inside.mpr ⟨h.bound y b hy hb, hcontains⟩, ?_⟩
    exact fun hbb => h.acyclic y b hy hb (H.mem_inside.mp hbb).2
  · intro c hc
    rw [mem_inside] at hc ⊢
    exact ⟨hc.1, hcontains.trans hc.2⟩

theorem card_inside_lt_next (hx : H.Part l x) (ha : H.zval (H.deref x) = .arr a) :
    (H.inside a).card < H.next := by
  have hsub : (H.inside a).card ≤ ((range H.next).erase a).card := by
    apply card_le_card
    intro b hb
    rw [mem_inside] at hb
    refine mem_erase.mpr ⟨?_, mem_range.mpr hb.1⟩
    rintro rfl
    exact h.acyclic x b hx ha hb.2
  have hin : a ∈ range H.next := mem_range.mpr (h.bound x a hx ha)
  have hcard := card_erase_add_one hin
  rw [card_range] at hcard
  omega

theorem height_le (hx : H.Part l x) : H.height x ≤ H.next := by
  rw [height]
  split
  · rename_i a ha
    exact h.card_inside_lt_next hx ha
  · exact Nat.zero_le _

/-- Elements lie less high. -/
theorem height_element {y : ℕ} {k : Key} (hx : H.Part l x) (ha : H.zval (H.deref x) = .arr a)
    (he : (k, y) ∈ H.table a) : H.height y < H.height x := by
  have hxh : H.height x = (H.inside a).card + 1 := by rw [height, ha]
  rw [hxh, height]
  split
  · rename_i b hb
    have := h.card_inside_lt hx ha ⟨(k, y), he, hb⟩
    omega
  · exact Nat.succ_pos _

end WellFormed

end Heap

/-!
# serialize()

A value is numbered when it is looked at; a reference that was numbered before is written as `R:`
and that number.
-/

/-- The bytes of a text. -/
abbrev text (cs : List Char) : Bytes := cs.map Char.toUInt8

/-- `smart_str_append_long`. -/
def printLong (v : BitVec 64) : Bytes :=
  if v.toInt < 0 then text ['-'] ++ Decimal.print (-v).toNat else Decimal.print v.toNat

/-- `php_var_serialize_long`. -/
def serializeLong (v : BitVec 64) : Bytes := text ['i', ':'] ++ printLong v ++ text [';']

/-- `php_var_serialize_string`. -/
def serializeString (s : Bytes) : Bytes :=
  text ['s', ':'] ++ Decimal.print s.length ++ text [':', '"'] ++ s ++ text ['"', ';']

/-- The key of an element. -/
def serializeKey : Key → Bytes
  | .int h => serializeLong h
  | .str s => serializeString s

/-- `struct php_serialize_data`, the table by the addresses of references, and the fields
`nApplyCount` of the arrays.  The field `n` of 32 bits is `n` here modulo `2 ^ 32`. -/
structure SerializeData where
  n : ℕ
  ht : ℕ → Option ℕ
  applyCount : ℕ → ℕ

namespace SerializeData

/-- `php_add_var_hash`; the result 0 is for a value not met before. -/
def addVarHash (H : Heap) (d : SerializeData) (var : ℕ) : ℕ × SerializeData :=
  let d := { d with n := d.n + 1 }
  match H.zval var with
  | .ref c =>
    match d.ht c with
    | some k => (k, { d with n := d.n - 1 })
    | none => (0, { d with ht := Function.update d.ht c (some (d.n % 2 ^ 32)) })
  | _ => (0, d)

/-- `if (ZEND_HASH_APPLY_PROTECTION(ht)) nApplyCount++`. -/
def protect (H : Heap) (d : SerializeData) (a : ℕ) : SerializeData :=
  if H.applyProtection a then
    { d with applyCount := Function.update d.applyCount a (d.applyCount a + 1) }
  else d

/-- `if (ZEND_HASH_APPLY_PROTECTION(ht)) nApplyCount--`. -/
def unprotect (H : Heap) (d : SerializeData) (a : ℕ) : SerializeData :=
  if H.applyProtection a then
    { d with applyCount := Function.update d.applyCount a (d.applyCount a - 1) }
  else d

end SerializeData

/-- The value `data` of an element of the array `a`: `N;` for an array inside itself. -/
def serializeData (H : Heap) (serialize : SerializeData → ℕ → Option (Bytes × SerializeData))
    (a : ℕ) (d : SerializeData) (data : ℕ) : Option (Bytes × SerializeData) :=
  match H.zval data with
  | .arr b =>
    if b = a ∨ 1 < d.applyCount b then some (text ['N', ';'], d)
    else (serialize (d.protect H b) data).map fun (t, d) => (t, d.unprotect H b)
  | _ => serialize d data

/-- One element of the array `a` in the loop of `php_var_serialize_intern`. -/
def serializeElement (H : Heap) (serialize : SerializeData → ℕ → Option (Bytes × SerializeData))
    (a : ℕ) (d : SerializeData) (e : Key × ℕ) : Option (Bytes × SerializeData) :=
  (serializeData H serialize a d (H.unwrap e.2)).map fun (t, d) => (serializeKey e.1 ++ t, d)

/-- The loop over the elements of the array `a`. -/
def serializeElements (H : Heap) (serialize : SerializeData → ℕ → Option (Bytes × SerializeData))
    (a : ℕ) : SerializeData → List (Key × ℕ) → Option (Bytes × SerializeData)
  | d, [] => some ([], d)
  | d, e :: es =>
    (serializeElement H serialize a d e).bind fun (t, d) =>
      (serializeElements H serialize a d es).map fun (t', d) => (t ++ t', d)

/-- `php_var_serialize_intern`: the text appended to the buffer.  The branches for
objects and doubles have no counterpart here. -/
def serializeIntern (H : Heap) : ℕ → SerializeData → ℕ → Option (Bytes × SerializeData)
  | 0, _, _ => none
  | fuel + 1, d, struc =>
    match d.addVarHash H struc with
    | (already + 1, d) =>
      some (text ['R', ':'] ++ printLong (BitVec.ofNat 64 (already + 1)) ++ text [';'], d)
    | (0, d) =>
      match H.zval (H.deref struc) with
      | .bool false => some (text ['b', ':', '0', ';'], d)
      | .bool true => some (text ['b', ':', '1', ';'], d)
      | .null => some (text ['N', ';'], d)
      | .long v => some (serializeLong v, d)
      | .str s => some (serializeString s, d)
      | .arr a =>
        (serializeElements H (serializeIntern H fuel) a d (H.table a)).map fun (t, d) =>
          (text ['a', ':'] ++ Decimal.print (H.table a).length ++ text [':', '{'] ++ t
            ++ text ['}'], d)
      | _ => some (text ['i', ':', '0', ';'], d)

/-- `php_var_serialize` with a fresh table; arrays that do not contain themselves are not
nested deeper than there are addresses. -/
def varSerialize (H : Heap) (struc : ℕ) : Option (Bytes × SerializeData) :=
  serializeIntern H (H.next + 1) { n := 0, ht := fun _ => none, applyCount := fun _ => 0 } struc

/-!
# unserialize()

Each value but a back reference `R:` gets the next slot of `var_hash`, the location it is written
to. What follows the end of the text reads as a NUL byte, which no rule accepts.
-/

open Function (update)

/-! ## The scanner -/

/-- The tokens of the rules, with the contents of a string. -/
inductive Token
  | backRef (id : BitVec 64)
  | copy (id : BitVec 64)
  | null
  | bool (b : Bool)
  | long (v : BitVec 64)
  | str (s : Bytes)
  | arr (elements : BitVec 64)

/-- The next byte must be `c`. -/
def expect (c : Char) : Bytes → Option Bytes
  | [] => none
  | b :: r => if b = c.toUInt8 then some r else none

/-- `[0-9]+`, with the value that the loops of `parse_iv2` and `parse_uiv` compute. -/
def scanDigits (r : Bytes) : Option (BitVec 64 × Bytes) :=
  let ds := r.takeWhile fun b => decide (Decimal.IsDigit b)
  if ds = [] then none
  else some (ds.foldl Decimal.addDigit 0, r.dropWhile fun b => decide (Decimal.IsDigit b))

/-- `uiv` and `parse_uiv`. -/
def scanUiv : Bytes → Option (BitVec 64 × Bytes)
  | [] => none
  | c :: r => if c = '+'.toUInt8 then scanDigits r else scanDigits (c :: r)

/-- `iv` and `parse_iv2`. -/
def scanIv : Bytes → Option (BitVec 64 × Bytes)
  | [] => none
  | c :: r =>
    if c = '-'.toUInt8 then (scanDigits r).map fun (v, r) => (-v, r)
    else scanUiv (c :: r)

/-- `unserialize_str`: the next `len` bytes, where a backslash stands for two hex digits. -/
def unserializeStr : ℕ → Bytes → Option (Bytes × Bytes)
  | 0, r => some ([], r)
  | len + 1, c :: r =>
    if c ≠ '\\'.toUInt8 then (unserializeStr len r).map fun (s, r) => (c :: s, r)
    else
      match r with
      | h :: l :: r =>
        (hexDigit h).bind fun h => (hexDigit l).bind fun l =>
          (unserializeStr len r).map fun (s, r) => (UInt8.ofNat (16 * h + l) :: s, r)
      | _ => none
  | _ + 1, [] => none

/-- The rule `s:`. -/
def scanString (r : Bytes) : Option (Token × Bytes) :=
  (scanUiv r).bind fun (len, r) => (expect ':' r).bind fun r => (expect '"' r).bind fun r =>
    if r.length < len.toNat then none
    else (expect '"' (r.drop len.toNat)).bind fun r' => (expect ';' r').map fun r' =>
      (.str (r.take len.toNat), r')

/-- The rule `S:`. -/
def scanEscaped (r : Bytes) : Option (Token × Bytes) :=
  (scanUiv r).bind fun (len, r) => (expect ':' r).bind fun r => (expect '"' r).bind fun r =>
    if r.length < len.toNat then none
    else (unserializeStr len.toNat r).bind fun (s, r) => (expect '"' r).bind fun r =>
      (expect ';' r).map fun r => (.str s, r)

/-- The rule `b:`. -/
def scanBool : Bytes → Option (Token × Bytes)
  | [] => none
  | c :: r =>
    if c = '0'.toUInt8 ∨ c = '1'.toUInt8 then
      (expect ';' r).map fun r => (.bool (c = '1'.toUInt8), r)
    else none

/-- The rules of `php_var_unserialize_internal` for these types. -/
def scan : Bytes → Option (Token × Bytes)
  | [] => none
  | c :: r =>
    if c = 'N'.toUInt8 then (expect ';' r).map fun r => (.null, r)
    else (expect ':' r).bind fun r =>
      if c = 'R'.toUInt8 then
        (scanIv r).bind fun (id, r) => (expect ';' r).map fun r => (.backRef id, r)
      else if c = 'r'.toUInt8 then
        (scanIv r).bind fun (id, r) => (expect ';' r).map fun r => (.copy id, r)
      else if c = 'b'.toUInt8 then scanBool r
      else if c = 'i'.toUInt8 then
        (scanIv r).bind fun (v, r) => (expect ';' r).map fun r => (.long v, r)
      else if c = 's'.toUInt8 then scanString r
      else if c = 'S'.toUInt8 then scanEscaped r
      else if c = 'a'.toUInt8 then
        (scanUiv r).bind fun (elements, r) => (expect ':' r).bind fun r =>
          (expect '{' r).map fun r => (.arr elements, r)
      else none

/-! ## Keys -/

/-- `_zend_handle_numeric_str_ex`. -/
def handleNumericEx (key : Bytes) : Option (BitVec 64) :=
  let neg := key.getD 0 0 = '-'.toUInt8
  match if neg then key.drop 1 else key with
  | [] => none
  | c :: ds =>
    if (c = '0'.toUInt8 ∧ 1 < key.length) ∨ 19 < ds.length + 1 then none
    else if ∃ b ∈ ds, ¬ Decimal.IsDigit b then none
    else
      let idx := ds.foldl Decimal.addDigit (BitVec.ofNat 64 (c.toNat - 48))
      if neg then if 2 ^ 63 - 1 < (idx - 1).toNat then none else some (-idx)
      else if 2 ^ 63 - 1 < idx.toNat then none else some idx

/-- `ZEND_HANDLE_NUMERIC`: the integer key a string is taken for. -/
def handleNumeric (key : Bytes) : Option (BitVec 64) :=
  let c := key.getD 0 0
  if '9'.toUInt8 < c then none
  else if c < '0'.toUInt8 ∧ (c ≠ '-'.toUInt8 ∨ ¬ Decimal.IsDigit (key.getD 1 0)) then none
  else handleNumericEx key

/-- The key an element is entered under. -/
def keyOf : Token → Option Key
  | .long h => some (.int h)
  | .str s =>
    match handleNumeric s with
    | some h => some (.int h)
    | none => some (.str s)
  | _ => none

/-! ## The values -/

/-- The values so far and the slots of `var_hash`. -/
structure Unserializer where
  heap : Heap
  slots : List ℕ

namespace Unserializer

variable (u : Unserializer)

/-- Writes a zval. -/
def set (m : ℕ) (z : Zval) : Unserializer :=
  { u with heap := { u.heap with zval := update u.heap.zval m z } }

/-- `array_init_size` of the zval `m`: the address of the array. -/
def arrayInit (m : ℕ) : Unserializer :=
  { u with heap := { u.heap with
      zval := update u.heap.zval m (.arr u.heap.next)
      table := update u.heap.table u.heap.next []
      next := u.heap.next + 1 } }

/-- The zval of the element under `k`, set to undefined: a new element, or the one there. -/
def slotFor (a : ℕ) (k : Key) : ℕ × Unserializer :=
  match (u.heap.table a).find? fun e => e.1 = k with
  | some e => (e.2, u.set e.2 .undef)
  | none =>
    (u.heap.next, { u with heap := { u.heap with
      zval := update u.heap.zval u.heap.next .undef
      table := update u.heap.table a (u.heap.table a ++ [(k, u.heap.next)])
      next := u.heap.next + 1 } })

/-- Takes the element under the key read out again. -/
def delete (a : ℕ) (key : Token) : Unserializer :=
  match key with
  | .long h => { u with heap := { u.heap with
      table := update u.heap.table a ((u.heap.table a).filter fun e => e.1 ≠ .int h) } }
  | .str s => { u with heap := { u.heap with
      table := update u.heap.table a ((u.heap.table a).filter fun e => e.1 ≠ .str s) } }
  | _ => u

/-- `var_push`. -/
def push (m : ℕ) : Unserializer := { u with slots := u.slots ++ [m] }

/-- `var_access`. -/
def access (id : ℤ) : Option ℕ := if id < 0 then none else u.slots[id.toNat]?

/-- A slot that holds no value. -/
def undefAt (m : ℕ) : Prop := u.heap.zval (u.heap.deref m) = .undef

instance (m : ℕ) : Decidable (u.undefAt m) := inferInstanceAs (Decidable (_ = _))

/-- The action of `R:`, with the slot `m`. -/
def backRef (rval m : ℕ) : Unserializer :=
  if u.undefAt m then u.set rval .undef
  else
    match u.heap.zval m with
    | .ref c => { u with heap := { u.heap with
        zval := update u.heap.zval rval (.ref c)
        refcount := update u.heap.refcount c (u.heap.refcount c + 1) } }
    | z => { u with heap := { u.heap with
        zval := update (update (update u.heap.zval u.heap.next z) m
          (.ref u.heap.next)) rval (.ref u.heap.next)
        refcount := update u.heap.refcount u.heap.next 2
        next := u.heap.next + 1 } }

/-- The action of `r:`, with the slot `m`. -/
def copy (rval m : ℕ) : Unserializer :=
  if u.undefAt m then u.set rval .undef else u.set rval (u.heap.zval m)

end Unserializer

/-- The byte before the cursor after the text `r` was read up to `r'`. -/
def lastRead (r r' : Bytes) : Option UInt8 := (r.take (r.length - r'.length)).getLast?

/-- `process_nested_data` for an array. -/
def processNestedData
    (unserialize : ℕ → Bytes → Unserializer → Option (Bytes × Unserializer)) (a : ℕ) :
    ℕ → Bytes → Unserializer → Option (Bytes × Unserializer)
  | 0, r, u => some (r, u)
  | elements + 1, r, u =>
    (scan r).bind fun (key, r) => (keyOf key).bind fun k =>
      (unserialize (u.slotFor a k).1 r (u.slotFor a k).2).bind fun (r', u') =>
        let u' := if u'.heap.zval (u.slotFor a k).1 = .undef then u'.delete a key else u'
        if elements ≠ 0 ∧ lastRead r r' ≠ some ';'.toUInt8 ∧ lastRead r r' ≠ some '}'.toUInt8 then
          none
        else processNestedData unserialize a elements r' u'

/-- `php_var_unserialize_internal`; `other` stands for the rules of doubles and objects. -/
def unserializeInternal
    (other : ℕ → Bytes → Unserializer → Option (Bytes × Unserializer)) :
    ℕ → ℕ → Bytes → Unserializer → Option (Bytes × Unserializer)
  | 0, _, _, _ => none
  | fuel + 1, rval, r, u =>
    if r = [] then none
    else
      let u := if r.head? = some 'R'.toUInt8 then u else u.push rval
      match scan r with
      | some (.backRef id, r) => (u.access ((id - 1).toInt)).map fun m => (r, u.backRef rval m)
      | some (.copy id, r) =>
        (u.access ((id - 1).toInt)).bind fun m => if m = rval then none else some (r, u.copy rval m)
      | some (.null, r) => some (r, u.set rval .null)
      | some (.bool b, r) => some (r, u.set rval (.bool b))
      | some (.long v, r) => some (r, u.set rval (.long v))
      | some (.str s, r) => some (r, u.set rval (.str s))
      | some (.arr elements, r) =>
        if elements.toInt < 0 then none
        else
          (processNestedData (unserializeInternal other fuel) u.heap.next elements.toNat r
            (u.arrayInit rval)).bind fun (r, u) => (expect '}' r).map fun r => (r, u)
      | none =>
        if r.head? ∈ (text ['d', 'o', 'O', 'C']).map some then other rval r u else none

/-- `php_var_unserialize` into the zval 0; no text is nested deeper than it is long. -/
def varUnserialize
    (other : ℕ → Bytes → Unserializer → Option (Bytes × Unserializer))
    (buf : Bytes) : Option (Bytes × Unserializer) :=
  unserializeInternal other (buf.length + 1) 0 buf
    { heap :=
        { zval := fun _ => .undef, table := fun _ => [], refcount := fun _ => 0,
          applyProtection := fun _ => true, next := 1 },
      slots := [] }

/-! # The scanner on serialized text -/

open List Option BitVec

open Decimal

/-! ## Numbers -/

variable {c : UInt8}

theorem scanDigits_print (num : ℕ) (hc : ¬ IsDigit c) (rest : Bytes) :
    scanDigits (print num ++ c :: rest) = some (BitVec.ofNat 64 num, c :: rest) := by
  obtain ⟨htake, hdrop⟩ := takeWhile_print num hc rest
  rw [scanDigits, htake, hdrop, if_neg (print_ne_nil num), foldl_print]
  rfl

/-- The first byte of a number is a digit. -/
theorem print_eq_cons (num : ℕ) : ∃ b ds, print num = b :: ds ∧ IsDigit b := by
  cases hp : print num with
  | nil => exact absurd hp (print_ne_nil num)
  | cons b ds =>
    have hb : b ∈ print num := hp ▸ mem_cons_self
    exact ⟨b, ds, rfl, isDigit_of_mem_print hb⟩

theorem scanUiv_print (num : ℕ) (hc : ¬ IsDigit c) (rest : Bytes) :
    scanUiv (print num ++ c :: rest) = some (BitVec.ofNat 64 num, c :: rest) := by
  obtain ⟨b, ds, hp, hb⟩ := print_eq_cons num
  have hplus : b ≠ '+'.toUInt8 := by
    rintro rfl
    exact absurd hb (by decide)
  rw [← scanDigits_print num hc rest, hp, List.cons_append, scanUiv, if_neg hplus]

theorem scanIv_print (num : ℕ) (hc : ¬ IsDigit c) (rest : Bytes) :
    scanIv (print num ++ c :: rest) = some (BitVec.ofNat 64 num, c :: rest) := by
  obtain ⟨b, ds, hp, hb⟩ := print_eq_cons num
  have hminus : b ≠ '-'.toUInt8 := by
    rintro rfl
    exact absurd hb (by decide)
  rw [← scanUiv_print num hc rest, hp, List.cons_append, scanIv, if_neg hminus]

/-- A signed number is read back, the least one included: negation wraps both times. -/
theorem scanIv_printLong (v : BitVec 64) (hc : ¬ IsDigit c) (rest : Bytes) :
    scanIv (printLong v ++ c :: rest) = some (v, c :: rest) := by
  rw [printLong]
  split
  · have hneg : scanIv ((text ['-'] ++ print (-v).toNat) ++ c :: rest)
        = (scanDigits (print (-v).toNat ++ c :: rest)).map fun (v, r) => (-v, r) := rfl
    rw [hneg, scanDigits_print _ hc, ofNat_toNat]
    simp
  · rw [scanIv_print _ hc, ofNat_toNat, setWidth_eq]

/-! ## Tokens -/

theorem expect_cons (c : Char) (r : Bytes) : expect c (c.toUInt8 :: r) = some r := by
  rw [expect, if_pos rfl]

theorem scan_long (v : BitVec 64) (rest : Bytes) :
    scan (serializeLong v ++ rest) = some (.long v, rest) := by
  have hrule : scan (serializeLong v ++ rest)
      = (scanIv (printLong v ++ ';'.toUInt8 :: rest)).bind fun (v, r) =>
          (expect ';' r).map fun r => (.long v, r) := by
    simp only [serializeLong, List.append_assoc]
    rfl
  rw [hrule, scanIv_printLong v (by decide)]
  simp only [bind_some, expect_cons, map_some]

theorem scan_backRef (k : BitVec 64) (rest : Bytes) :
    scan (text ['R', ':'] ++ printLong k ++ text [';'] ++ rest) = some (.backRef k, rest) := by
  have hrule : scan (text ['R', ':'] ++ printLong k ++ text [';'] ++ rest)
      = (scanIv (printLong k ++ ';'.toUInt8 :: rest)).bind fun (v, r) =>
          (expect ';' r).map fun r => (.backRef v, r) := by
    simp only [List.append_assoc]
    rfl
  rw [hrule, scanIv_printLong k (by decide)]
  simp only [bind_some, expect_cons, map_some]

theorem scan_arr (num : ℕ) (rest : Bytes) :
    scan (text ['a', ':'] ++ print num ++ text [':', '{'] ++ rest)
      = some (.arr (BitVec.ofNat 64 num), rest) := by
  have hrule : scan (text ['a', ':'] ++ print num ++ text [':', '{'] ++ rest)
      = (scanUiv (print num ++ ':'.toUInt8 :: '{'.toUInt8 :: rest)).bind fun (n, r) =>
          (expect ':' r).bind fun r => (expect '{' r).map fun r => (.arr n, r) := by
    simp only [List.append_assoc]
    rfl
  rw [hrule, scanUiv_print num (by decide)]
  simp only [bind_some, expect_cons, map_some]

theorem scan_string {s : Bytes} (hs : s.length < 2 ^ 64) (rest : Bytes) :
    scan (serializeString s ++ rest) = some (.str s, rest) := by
  have hrule : scan (serializeString s ++ rest)
      = scanString (print s.length ++
          ':'.toUInt8 :: '"'.toUInt8 :: (s ++ '"'.toUInt8 :: ';'.toUInt8 :: rest)) := by
    simp only [serializeString, List.append_assoc]
    rfl
  have hlen : (BitVec.ofNat 64 s.length).toNat = s.length := by
    rw [toNat_ofNat, Nat.mod_eq_of_lt hs]
  have hfits : ¬ (s ++ '"'.toUInt8 :: ';'.toUInt8 :: rest).length < s.length := by
    rw [length_append]
    omega
  rw [hrule, scanString, scanUiv_print _ (by decide)]
  simp only [bind_some, expect_cons, hlen, if_neg hfits, drop_left, take_left, map_some]

/-- A key is read back as the key it is, unless it is a string taken for an integer. -/
theorem scan_key {k : Key} (hsize : ∀ s, k = .str s → s.length < 2 ^ 64)
    (hnum : ∀ s, k = .str s → handleNumeric s = none) (rest : Bytes) :
    ∃ t, scan (serializeKey k ++ rest) = some (t, rest) ∧ keyOf t = some k := by
  cases k with
  | int h => exact ⟨.long h, scan_long h rest, rfl⟩
  | str s =>
    refine ⟨.str s, scan_string (hsize s rfl) rest, ?_⟩
    rw [keyOf, hnum s rfl]

/-! ## The last byte -/

/-- What is read of a text in front of another one. -/
theorem lastRead_append (t rest : Bytes) : lastRead (t ++ rest) rest = t.getLast? := by
  rw [lastRead, length_append, Nat.add_sub_cancel, take_left]

end PhpVar
