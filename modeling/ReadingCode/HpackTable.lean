/-
# The HPACK table, abstractly

What the header table of a connection is for: the static table, followed by a first-in
first-out table of the header fields inserted last, as many of them as the current limit
has room for.  A field counts for the length of its name, the length of its value, and 32.
-/
import ReadingCode.CyclicBuffer

namespace Hpack

/-- A header field (`ngx_http_v2_header_t` as the parser reads it). -/
structure Header where
  name : List UInt8
  value : List UInt8
  deriving DecidableEq, Repr

/-- The size that a field counts for. -/
def Header.size (h : Header) : ℕ := h.name.length + h.value.length + 32

/-- The number of bytes of a field. -/
def Header.bytes (h : Header) : ℕ := h.name.length + h.value.length

/-- The size of a list of fields. -/
def total (es : List Header) : ℕ := (es.map Header.size).sum

@[simp] theorem total_nil : total [] = 0 := rfl

@[simp] theorem total_cons (h : Header) (es : List Header) :
    total (h :: es) = h.size + total es := by
  simp [total]

@[simp] theorem total_append (es es' : List Header) : total (es ++ es') = total es + total es' := by
  simp [total]

/-- The dynamic table: its entries, the oldest first, and the limit of their size. -/
structure DynTable where
  entries : List Header
  limit : ℕ
  deriving DecidableEq, Repr

namespace DynTable

/-- Drop the oldest entries until the size of the others is within `budget`. -/
def evict (budget : ℕ) : List Header → List Header
  | [] => []
  | h :: es => if total (h :: es) ≤ budget then h :: es else evict budget es

variable {es : List Header}

theorem evict_of_le {budget : ℕ} (h : total es ≤ budget) : evict budget es = es := by
  cases es with
  | nil => rfl
  | cons e es => rw [evict, if_pos h]

theorem evict_of_lt {budget : ℕ} {e : Header} (h : budget < total (e :: es)) :
    evict budget (e :: es) = evict budget es := by
  rw [evict, if_neg (by omega)]

/-- The table of a new connection. -/
def initial : DynTable := ⟨[], 4096⟩

/-- Insert a field: the oldest entries make room for it; a field larger than the limit
leaves the table empty. -/
def insert (t : DynTable) (h : Header) : DynTable :=
  if h.size ≤ t.limit then
    { t with entries := evict (t.limit - h.size) t.entries ++ [h] }
  else
    { t with entries := [] }

/-- Change the limit. -/
def resize (t : DynTable) (limit : ℕ) : DynTable := ⟨evict limit t.entries, limit⟩

/-- The field of an index: from 1 on those of the static table, then those of the dynamic
table, the newest first. -/
def lookup (t : DynTable) (static : List Header) (index : ℕ) : Option Header :=
  if index = 0 then none else (static ++ t.entries.reverse)[index - 1]?

end DynTable

/-!
# The HPACK table of a connection

`h2c->hpack` is a ring of entries whose names and values lie in a storage of 4096 bytes that is
written cyclically.  Pointers are offsets, `ngx_uint_t` counters wrap, and allocation does not fail.
-/

/-! ## Static table -/

/-- `ngx_string`. -/
def ngxString (s : String) : List UInt8 := s.toList.map fun c => UInt8.ofNat c.toNat

/-- `ngx_http_v2_static_table`. -/
def ngxHttpV2StaticTable : List Header :=
  [⟨ngxString ":authority", ngxString ""⟩,
   ⟨ngxString ":method", ngxString "GET"⟩,
   ⟨ngxString ":method", ngxString "POST"⟩,
   ⟨ngxString ":path", ngxString "/"⟩,
   ⟨ngxString ":path", ngxString "/index.html"⟩,
   ⟨ngxString ":scheme", ngxString "http"⟩,
   ⟨ngxString ":scheme", ngxString "https"⟩,
   ⟨ngxString ":status", ngxString "200"⟩,
   ⟨ngxString ":status", ngxString "204"⟩,
   ⟨ngxString ":status", ngxString "206"⟩,
   ⟨ngxString ":status", ngxString "304"⟩,
   ⟨ngxString ":status", ngxString "400"⟩,
   ⟨ngxString ":status", ngxString "404"⟩,
   ⟨ngxString ":status", ngxString "500"⟩,
   ⟨ngxString "accept-charset", ngxString ""⟩,
   ⟨ngxString "accept-encoding", ngxString "gzip, deflate"⟩,
   ⟨ngxString "accept-language", ngxString ""⟩,
   ⟨ngxString "accept-ranges", ngxString ""⟩,
   ⟨ngxString "accept", ngxString ""⟩,
   ⟨ngxString "access-control-allow-origin", ngxString ""⟩,
   ⟨ngxString "age", ngxString ""⟩,
   ⟨ngxString "allow", ngxString ""⟩,
   ⟨ngxString "authorization", ngxString ""⟩,
   ⟨ngxString "cache-control", ngxString ""⟩,
   ⟨ngxString "content-disposition", ngxString ""⟩,
   ⟨ngxString "content-encoding", ngxString ""⟩,
   ⟨ngxString "content-language", ngxString ""⟩,
   ⟨ngxString "content-length", ngxString ""⟩,
   ⟨ngxString "content-location", ngxString ""⟩,
   ⟨ngxString "content-range", ngxString ""⟩,
   ⟨ngxString "content-type", ngxString ""⟩,
   ⟨ngxString "cookie", ngxString ""⟩,
   ⟨ngxString "date", ngxString ""⟩,
   ⟨ngxString "etag", ngxString ""⟩,
   ⟨ngxString "expect", ngxString ""⟩,
   ⟨ngxString "expires", ngxString ""⟩,
   ⟨ngxString "from", ngxString ""⟩,
   ⟨ngxString "host", ngxString ""⟩,
   ⟨ngxString "if-match", ngxString ""⟩,
   ⟨ngxString "if-modified-since", ngxString ""⟩,
   ⟨ngxString "if-none-match", ngxString ""⟩,
   ⟨ngxString "if-range", ngxString ""⟩,
   ⟨ngxString "if-unmodified-since", ngxString ""⟩,
   ⟨ngxString "last-modified", ngxString ""⟩,
   ⟨ngxString "link", ngxString ""⟩,
   ⟨ngxString "location", ngxString ""⟩,
   ⟨ngxString "max-forwards", ngxString ""⟩,
   ⟨ngxString "proxy-authenticate", ngxString ""⟩,
   ⟨ngxString "proxy-authorization", ngxString ""⟩,
   ⟨ngxString "range", ngxString ""⟩,
   ⟨ngxString "referer", ngxString ""⟩,
   ⟨ngxString "refresh", ngxString ""⟩,
   ⟨ngxString "retry-after", ngxString ""⟩,
   ⟨ngxString "server", ngxString ""⟩,
   ⟨ngxString "set-cookie", ngxString ""⟩,
   ⟨ngxString "strict-transport-security", ngxString ""⟩,
   ⟨ngxString "transfer-encoding", ngxString ""⟩,
   ⟨ngxString "user-agent", ngxString ""⟩,
   ⟨ngxString "vary", ngxString ""⟩,
   ⟨ngxString "via", ngxString ""⟩,
   ⟨ngxString "www-authenticate", ngxString ""⟩]

/-- `NGX_HTTP_V2_STATIC_TABLE_ENTRIES`. -/
abbrev staticTableEntries : UInt64 := 61

theorem length_staticTable : ngxHttpV2StaticTable.length = 61 := rfl

/-! ## State -/

/-- `NGX_HTTP_V2_TABLE_SIZE`. -/
abbrev tableSize : ℕ := 4096

/-- An entry of the ring (`ngx_http_v2_header_t`): the strings lie in the storage. -/
structure Entry where
  nameLen : ℕ
  nameData : ℕ
  valueLen : ℕ
  valueData : ℕ

/-- `ngx_http_v2_hpack_t`, with the records of the connection's pool that hold the entries.
The array `entries` and the storage are null before the first insertion. -/
structure Table where
  entries : Option (ℕ → ℕ)
  added : UInt64
  deleted : UInt64
  reused : UInt64
  allocated : UInt64
  size : ℕ
  free : ℕ
  storage : ℕ → UInt8
  pos : ℕ
  records : ℕ → Entry
  nrecords : ℕ

namespace Table

/-- The zeroed `h2c->hpack` of a new connection. -/
def initial : Table where
  entries := none
  added := 0
  deleted := 0
  reused := 0
  allocated := 0
  size := 0
  free := 0
  storage := fun _ => 0
  pos := 0
  records := fun _ => ⟨0, 0, 0, 0⟩
  nrecords := 0

/-- The record that `entries[k % allocated]` points to. -/
def slot (h : Table) (k : UInt64) : ℕ :=
  match h.entries with
  | none => 0
  | some entries => entries (k % h.allocated).toNat

/-- `*entries[k % allocated]`. -/
def entry (h : Table) (k : UInt64) : Entry := h.records (h.slot k)

/-! ## Accounting -/

/-- The body of both eviction loops. -/
def evictOne (h : Table) : Table :=
  let entry := h.entry h.deleted
  { h with
    deleted := h.deleted + 1
    free := h.free + (32 + entry.nameLen + entry.valueLen) }

/-- `while (needed > free) { ... }`. -/
def evictWhile (needed : ℤ) (h : Table) : Table :=
  if needed > h.free then evictWhile needed h.evictOne else h
termination_by (needed - h.free).toNat
decreasing_by
  simp only [evictOne]
  omega

end Table

/-- `ngx_http_v2_table_account`: `false` is `NGX_DECLINED`. -/
def ngxHttpV2TableAccount (h : Table) (size : ℕ) : Bool × Table :=
  let size := size + 32
  if size ≤ h.free then
    (true, { h with free := h.free - size })
  else if size > h.size then
    (false, { h with deleted := h.added, free := h.size })
  else
    -- do { ... } while (size > free)
    let h := h.evictOne.evictWhile size
    (true, { h with free := h.free - size })

/-- `ngx_http_v2_table_size`; `none` is `NGX_ERROR`. -/
def ngxHttpV2TableSize (h : Table) (size : ℕ) : Option Table :=
  if size > tableSize then
    none
  else
    let needed : ℤ := h.size - size
    let h := h.evictWhile needed
    some { h with size := size, free := (h.free - needed).toNat }

/-! ## Insertion -/

namespace Table

/-- The allocations of the first insertion. -/
def create (h : Table) : Table :=
  match h.entries with
  | some _ => h
  | none =>
    { h with
      allocated := 64
      size := tableSize
      free := tableSize
      entries := some fun _ => 0
      storage := fun _ => 0
      pos := 0 }

/-- The record for a new entry: a fresh one, or that of the entry evicted first. -/
def takeRecord (h : Table) : ℕ × Table :=
  if h.reused = h.deleted then
    (h.nrecords, { h with nrecords := h.nrecords + 1 })
  else
    (h.slot h.reused, { h with reused := h.reused + 1 })

/-- Copy the field into the storage, from `pos` on, and point the record at it. -/
def store (h : Table) (record : ℕ) (header : Header) : Table :=
  let avail := tableSize - h.pos
  let (storage, valuePos, avail) := Cyclic.wrapWrite tableSize h.storage h.pos avail header.name
  let avail := avail - header.name.length
  let (storage, pos, _) := Cyclic.wrapWrite tableSize storage valuePos avail header.value
  { h with
    records := fun r =>
      if r = record then
        ⟨header.name.length, h.pos, header.value.length, valuePos⟩
      else
        h.records r
    storage := storage
    pos := pos }

/-- The larger array, with the live entries moved to its start. -/
def grownEntries (entries : ℕ → ℕ) (allocated index : ℕ) : ℕ → ℕ :=
  fun i =>
    if i < allocated - index then entries (index + i)
    else if i < allocated then entries (i - (allocated - index))
    else 0

/-- `if (allocated == added - deleted) { ... }`. -/
def grow (h : Table) : Table :=
  if h.allocated = h.added - h.deleted then
    let index := h.deleted % h.allocated
    { h with
      entries := h.entries.map fun e => grownEntries e h.allocated.toNat index.toNat
      added := h.allocated
      deleted := 0
      reused := 0
      allocated := h.allocated + 64 }
  else
    h

/-- `entries[added++ % allocated] = entry`. -/
def push (h : Table) (record : ℕ) : Table :=
  { h with
    entries := h.entries.map fun entries i =>
      if i = (h.added % h.allocated).toNat then record else entries i
    added := h.added + 1 }

end Table

/-- `ngx_http_v2_add_header`. -/
def ngxHttpV2AddHeader (h : Table) (header : Header) : Table :=
  match ngxHttpV2TableAccount h.create (header.name.length + header.value.length) with
  | (false, h) => h
  | (true, h) =>
    let (record, h) := h.takeRecord
    ((h.store record header).grow).push record

/-! ## Lookup -/

/-- `ngx_http_v2_get_indexed_header`: the new `state.header`, where `header` is the old one;
`none` is `NGX_ERROR`. -/
def ngxHttpV2GetIndexedHeader (h : Table) (header : Header) (index : UInt64) (nameOnly : Bool) :
    Option Header :=
  if index = 0 then
    none
  else
    let index := index - 1
    if index < staticTableEntries then
      ngxHttpV2StaticTable[index.toNat]?
    else
      let index := index - staticTableEntries
      if index < h.added - h.deleted then
        let entry := h.entry (h.added - index - 1)
        let name := Cyclic.wrapRead tableSize h.storage entry.nameData entry.nameLen
        if nameOnly then
          some { header with name := name }
        else
          some ⟨name, Cyclic.wrapRead tableSize h.storage entry.valueData entry.valueLen⟩
      else
        none

/-!
# The ring of the HPACK table

What the ring of entries and the cyclic storage hold, in terms of counters that never
wrap: `A` insertions, `D` evictions and `R` reused records.  Slot `k % n` of the ring
belongs to insertion `k` for `R ≤ k < A`; those from `D` on are live.  The bytes of the
live entries follow each other in the stream of all bytes ever written.
-/

open List Table

/-! ## Wrapping counters -/

/-- The sizes that the ring can have divide `2 ^ 64`. -/
theorem toNat_mod_capacity {n : ℕ} (hn : n = 64 ∨ n = 128) (k : ℕ) :
    (UInt64.ofNat k % UInt64.ofNat n).toNat = k % n := by
  rcases hn with rfl | rfl
  · exact Nat.mod_mod_of_dvd k (by decide)
  · exact Nat.mod_mod_of_dvd k (by decide)

theorem ofNat_inj_of_near {a b : ℕ} (h : a ≤ b) (hb : b ≤ a + 128)
    (heq : UInt64.ofNat a = UInt64.ofNat b) : a = b := by
  have hmod := congrArg UInt64.toNat heq
  rw [UInt64.toNat_ofNat', UInt64.toNat_ofNat'] at hmod
  omega

theorem toNat_ofNat_sub {a b : ℕ} (h : b ≤ a) (hb : a ≤ b + 128) :
    (UInt64.ofNat a - UInt64.ofNat b).toNat = a - b := by
  rw [← UInt64.ofNat_sub h, UInt64.toNat_ofNat']
  omega

/-! ## Bytes of the entries -/

/-- The number of bytes of a list of fields. -/
def bytesOf (es : List Header) : ℕ := (es.map Header.bytes).sum

@[simp] theorem bytesOf_nil : bytesOf [] = 0 := rfl

@[simp] theorem bytesOf_cons (h : Header) (es : List Header) :
    bytesOf (h :: es) = h.bytes + bytesOf es := by
  simp [bytesOf]

@[simp] theorem bytesOf_append (es es' : List Header) :
    bytesOf (es ++ es') = bytesOf es + bytesOf es' := by
  simp [bytesOf]

theorem Header.size_eq (h : Header) : h.size = h.bytes + 32 := rfl

theorem total_eq (es : List Header) : total es = bytesOf es + 32 * es.length := by
  induction es with
  | nil => rfl
  | cons h es ih =>
    rw [total_cons, bytesOf_cons, length_cons, Header.size_eq]
    omega

/-- The record `e` holds the field `h`, whose bytes start at the stream position `v`. -/
structure Entry.Holds (m : ℕ → UInt8) (e : Entry) (v : ℕ) (h : Header) : Prop where
  nameLen : e.nameLen = h.name.length
  valueLen : e.valueLen = h.value.length
  nameData_le : e.nameData ≤ tableSize
  valueData_le : e.valueData ≤ tableSize
  nameData : e.nameData ≡ v [MOD tableSize]
  valueData : e.valueData ≡ v + h.name.length [MOD tableSize]
  name : Cyclic.Holds tableSize m v h.name
  value : Cyclic.Holds tableSize m (v + h.name.length) h.value

/-- The records from number `k` on hold the fields, whose bytes start at `v` and follow
each other. -/
def Stored (m : ℕ → UInt8) (record : ℕ → Entry) (v k : ℕ) : List Header → Prop
  | [] => True
  | h :: es => (record k).Holds m v h ∧ Stored m record (v + h.bytes) (k + 1) es

variable {m : ℕ → UInt8} {record : ℕ → Entry} {v k : ℕ} {es : List Header}

theorem Stored.append {h : Header} (hs : Stored m record v k es)
    (hh : (record (k + es.length)).Holds m (v + bytesOf es) h) :
    Stored m record v k (es ++ [h]) := by
  induction es generalizing v k with
  | nil => exact ⟨by simpa using hh, trivial⟩
  | cons e es ih =>
    refine ⟨hs.1, ih hs.2 ?_⟩
    rw [show k + 1 + es.length = k + (es.length + 1) by omega, add_assoc]
    exact hh

/-- Only the records of the fields matter. -/
theorem Stored.congr {record' : ℕ → Entry} {k' : ℕ} (hs : Stored m record v k es)
    (hr : ∀ j < es.length, record' (k' + j) = record (k + j)) : Stored m record' v k' es := by
  induction es generalizing v k k' with
  | nil => trivial
  | cons e es ih =>
    refine ⟨?_, ih hs.2 ?_⟩
    · have h0 : record' k' = record k := hr 0 (by simp)
      rw [h0]
      exact hs.1
    · intro j hj
      have := hr (j + 1) (by simpa using hj)
      rwa [show k' + (j + 1) = k' + 1 + j by omega, show k + (j + 1) = k + 1 + j by omega] at this

/-- Writing behind the fields, less than one round after their start, keeps them. -/
theorem Stored.wrapWrite {p avail w : ℕ} {xs : List UInt8} (hs : Stored m record v k es)
    (hr : Cyclic.Room tableSize p avail xs) (hw : p ≡ w [MOD tableSize])
    (hle : v + bytesOf es ≤ w) (hround : w + xs.length ≤ v + tableSize) :
    Stored (Cyclic.wrapWrite tableSize m p avail xs).1 record v k es := by
  induction es generalizing v k with
  | nil => trivial
  | cons e es ih =>
    rw [bytesOf_cons, Header.bytes] at hle
    obtain ⟨he, hes⟩ := hs
    refine ⟨{ he with name := ?_, value := ?_ }, ih hes ?_ ?_⟩
    · exact he.name.wrapWrite hr hw (by omega) hround
    · exact he.value.wrapWrite hr hw (by omega) (by omega)
    · rw [Header.bytes]
      omega
    · omega

theorem Stored.get (hs : Stored m record v k es) {j : ℕ} {h : Header} (hj : es[j]? = some h) :
    ∃ w, (record (k + j)).Holds m w h := by
  induction es generalizing v k j with
  | nil => simp at hj
  | cons e es ih =>
    rcases j with _ | j
    · obtain rfl : e = h := by simpa using hj
      exact ⟨v, hs.1⟩
    · obtain ⟨w, hw⟩ := ih hs.2 (by simpa using hj)
      rw [show k + (j + 1) = k + 1 + j by omega]
      exact ⟨w, hw⟩

/-- The cells of the storage that an entry occupies. -/
def Entry.cells (e : Entry) : List ℕ :=
  Cyclic.cells tableSize e.nameData e.nameLen ++ Cyclic.cells tableSize e.valueData e.valueLen

variable {e : Entry}

theorem Entry.Holds.cells_eq {h : Header} (he : e.Holds m v h) :
    e.cells = Cyclic.cells tableSize v h.bytes := by
  unfold Entry.cells Header.bytes
  rw [he.nameLen, he.valueLen, Cyclic.cells_congr he.nameData, Cyclic.cells_congr he.valueData,
    Cyclic.cells_add]

theorem Stored.cells_eq (hs : Stored m record v k es) :
    ((List.range es.length).flatMap fun j => (record (k + j)).cells)
      = Cyclic.cells tableSize v (bytesOf es) := by
  induction es generalizing v k with
  | nil => rfl
  | cons e es ih =>
    rw [length_cons, range_succ_eq_map, flatMap_cons, flatMap_map, bytesOf_cons,
      Cyclic.cells_add, ← ih hs.2, add_zero, hs.1.cells_eq]
    congr 1
    apply flatMap_congr
    intro j _
    rw [show k + 1 + j = k + (j + 1) by omega]

/-- What the record holds is what a lookup reads. -/
theorem Entry.Holds.wrapRead_name {h : Header} (he : e.Holds m v h)
    (hle : h.size ≤ tableSize) : Cyclic.wrapRead tableSize m e.nameData e.nameLen = h.name := by
  rw [Header.size] at hle
  rw [he.nameLen]
  exact he.name.wrapRead he.nameData_le he.nameData (by omega)

theorem Entry.Holds.wrapRead_value {h : Header} (he : e.Holds m v h)
    (hle : h.size ≤ tableSize) : Cyclic.wrapRead tableSize m e.valueData e.valueLen = h.value := by
  rw [Header.size] at hle
  rw [he.valueLen]
  exact he.value.wrapRead he.valueData_le he.valueData (by omega)

/-! ## Slots of the ring -/

/-- The counters and slots of the ring: each insertion from `R` on that is not yet reused
has a record of its own in its slot. -/
structure Ring (h : Table) (entries : ℕ → ℕ) (A D R n : ℕ) : Prop where
  entries_eq : h.entries = some entries
  added : h.added = UInt64.ofNat A
  deleted : h.deleted = UInt64.ofNat D
  reused : h.reused = UInt64.ofNat R
  allocated : h.allocated = UInt64.ofNat n
  capacity : n = 64 ∨ n = 128
  reused_le : R ≤ D
  deleted_le : D ≤ A
  added_le : A ≤ R + n
  fresh : ∀ k, R ≤ k → k < A → entries (k % n) < h.nrecords
  inj : ∀ j k, R ≤ j → j < k → k < A → entries (j % n) ≠ entries (k % n)

/-- The entries in the storage: the bytes of `es` from the stream position `v` on, and the
write position behind them. -/
structure Contents (h : Table) (entries : ℕ → ℕ) (D n v : ℕ) (es : List Header) : Prop where
  pos_le : h.pos ≤ tableSize
  pos : h.pos ≡ v + bytesOf es [MOD tableSize]
  stored : Stored h.storage (fun k => h.records (entries (k % n))) v D es

variable {h : Table} {entries : ℕ → ℕ} {A D R n : ℕ}

namespace Ring

theorem near (hr : Ring h entries A D R n) : A ≤ R + 128 := by
  have := hr.added_le
  rcases hr.capacity with hn | hn <;> omega

theorem slot (hr : Ring h entries A D R n) (k : ℕ) : h.slot (UInt64.ofNat k) = entries (k % n) := by
  unfold Table.slot
  rw [hr.entries_eq, hr.allocated]
  rw [toNat_mod_capacity hr.capacity]

theorem length_toNat (hr : Ring h entries A D R n) : (h.added - h.deleted).toNat = A - D := by
  rw [hr.added, hr.deleted]
  have := hr.near
  have := hr.reused_le
  exact toNat_ofNat_sub hr.deleted_le (by omega)

/-! ### Eviction -/

/-- One turn of an eviction loop drops the oldest entry. -/
theorem evictOne (hr : Ring h entries A D R n) (hlt : D < A) :
    Ring h.evictOne entries A (D + 1) R n where
  entries_eq := hr.entries_eq
  added := hr.added
  deleted := by
    show h.deleted + 1 = _
    rw [hr.deleted, UInt64.ofNat_add]
    rfl
  reused := hr.reused
  allocated := hr.allocated
  capacity := hr.capacity
  reused_le := Nat.le_succ_of_le hr.reused_le
  deleted_le := hlt
  added_le := hr.added_le
  fresh := hr.fresh
  inj := hr.inj

/-- A field that is too large drops all entries. -/
theorem clear (hr : Ring h entries A D R n) (free : ℕ) :
    Ring { h with deleted := h.added, free := free } entries A A R n where
  entries_eq := hr.entries_eq
  added := hr.added
  deleted := hr.added
  reused := hr.reused
  allocated := hr.allocated
  capacity := hr.capacity
  reused_le := le_trans hr.reused_le hr.deleted_le
  deleted_le := Nat.le_refl A
  added_le := hr.added_le
  fresh := hr.fresh
  inj := hr.inj

end Ring

variable {e header : Header} {index : UInt64}

theorem Contents.evictOne (hr : Ring h entries A D R n) (hc : Contents h entries D n v (e :: es)) :
    Contents h.evictOne entries (D + 1) n (v + e.bytes) es ∧ h.evictOne.free = h.free + e.size := by
  refine ⟨⟨hc.pos_le, ?_, hc.stored.2⟩, ?_⟩
  · rw [add_assoc]
    exact hc.pos
  · have he := hc.stored.1
    have hentry : h.entry h.deleted = h.records (entries (D % n)) := by
      unfold Table.entry
      rw [hr.deleted, hr.slot]
    show h.free + (32 + (h.entry h.deleted).nameLen + (h.entry h.deleted).valueLen) = _
    rw [hentry, he.nameLen, he.valueLen, Header.size]
    omega

/-- Both parts, with the number of live entries. -/
def Live (h : Table) (entries : ℕ → ℕ) (A D R n v : ℕ) (es : List Header) : Prop :=
  Ring h entries A D R n ∧ A = D + es.length ∧ Contents h entries D n v es

@[simp] theorem size_evictWhile (needed : ℤ) (h : Table) : (h.evictWhile needed).size = h.size := by
  induction h using Table.evictWhile.induct needed with
  | case1 h hlt ih =>
    rw [Table.evictWhile, if_pos hlt, ih]
    rfl
  | case2 h hle => rw [Table.evictWhile, if_neg hle]

@[simp] theorem entries_evictWhile (needed : ℤ) (h : Table) :
    (h.evictWhile needed).entries = h.entries := by
  induction h using Table.evictWhile.induct needed with
  | case1 h hlt ih =>
    rw [Table.evictWhile, if_pos hlt, ih]
    rfl
  | case2 h hle => rw [Table.evictWhile, if_neg hle]

/-- An eviction loop evicts from the front what is over the budget. -/
theorem Live.evictWhile (hl : Live h entries A D R n v es) (needed : ℤ) (budget : ℕ)
    (hb : needed + budget = h.free + total es) :
    ∃ D' v', Live (h.evictWhile needed) entries A D' R n v' (DynTable.evict budget es)
      ∧ (h.evictWhile needed).free + total (DynTable.evict budget es) = h.free + total es := by
  induction es generalizing h D v with
  | nil =>
    rw [total_nil] at hb
    rw [Table.evictWhile, if_neg (by omega)]
    exact ⟨D, v, hl, rfl⟩
  | cons e es ih =>
    by_cases hover : budget < total (e :: es)
    · obtain ⟨hr, hlen, hc⟩ := hl
      rw [length_cons] at hlen
      obtain ⟨hc', hfree⟩ := hc.evictOne hr
      have hl' : Live h.evictOne entries A (D + 1) R n (v + e.bytes) es :=
        ⟨hr.evictOne (by omega), by omega, hc'⟩
      rw [Table.evictWhile, if_pos (by omega), DynTable.evict_of_lt hover]
      rw [total_cons] at hb ⊢
      obtain ⟨D', v', hl'', hfree'⟩ := ih hl' (by omega)
      exact ⟨D', v', hl'', by omega⟩
    · rw [Table.evictWhile, if_neg (by omega), DynTable.evict_of_le (by omega)]
      exact ⟨D, v, hl, rfl⟩

theorem total_evict_le (budget : ℕ) (es : List Header) :
    total (DynTable.evict budget es) ≤ budget := by
  induction es with
  | nil => exact Nat.zero_le _
  | cons e es ih =>
    rw [DynTable.evict]
    split_ifs with h
    · exact h
    · exact ih

/-! ## Insertion -/

@[simp] theorem size_takeRecord (h : Table) : h.takeRecord.2.size = h.size := by
  unfold Table.takeRecord
  split_ifs <;> rfl

@[simp] theorem free_takeRecord (h : Table) : h.takeRecord.2.free = h.free := by
  unfold Table.takeRecord
  split_ifs <;> rfl

/-- `grow` changes the ring only. -/
@[simp] theorem grow_frame (h : Table) : h.grow.size = h.size ∧ h.grow.free = h.free
    ∧ h.grow.storage = h.storage ∧ h.grow.pos = h.pos ∧ h.grow.records = h.records
    ∧ h.grow.nrecords = h.nrecords := by
  unfold Table.grow
  split_ifs
  · exact ⟨rfl, rfl, rfl, rfl, rfl, rfl⟩
  · exact ⟨rfl, rfl, rfl, rfl, rfl, rfl⟩

/-- A record that no slot in use points to. -/
structure Spare (h : Table) (entries : ℕ → ℕ) (A R n record : ℕ) : Prop where
  lt : record < h.nrecords
  ne : ∀ k, R ≤ k → k < A → entries (k % n) ≠ record

/-- The ring has a slot for one more insertion, or all its slots are live. -/
def HasSlot (A D R n : ℕ) : Prop := A + 1 ≤ R + n ∨ R = D ∧ A = D + n

theorem Live.takeRecord (hl : Live h entries A D R n v es) :
    ∃ R', Live h.takeRecord.2 entries A D R' n v es
      ∧ Spare h.takeRecord.2 entries A R' n h.takeRecord.1 ∧ HasSlot A D R' n := by
  obtain ⟨hr, hlen, hc⟩ := hl
  have hnear := hr.near
  have hRD := hr.reused_le
  have hcap := hr.added_le
  unfold Table.takeRecord
  split_ifs with heq
  · rw [hr.reused, hr.deleted] at heq
    have hRD' : R = D := ofNat_inj_of_near hRD (by omega) heq
    refine ⟨R, ⟨{ hr with fresh := ?_ }, hlen, ⟨hc.pos_le, hc.pos, hc.stored⟩⟩, ⟨?_, ?_⟩, ?_⟩
    · intro k hk hkA
      exact Nat.lt_succ_of_lt (hr.fresh k hk hkA)
    · exact Nat.lt_succ_self _
    · intro k hk hkA
      exact ne_of_lt (hr.fresh k hk hkA)
    · unfold HasSlot
      omega
  · have hlt : R < D := by
      rcases lt_or_eq_of_le hRD with hlt | rfl
      · exact hlt
      · exact absurd (hr.reused.trans hr.deleted.symm) heq
    rw [hr.reused, hr.slot]
    have hr' : Ring { h with reused := UInt64.ofNat R + 1 } entries A D (R + 1) n :=
      { hr with
        reused := by
          rw [UInt64.ofNat_add]
          rfl
        reused_le := hlt
        added_le := by omega
        fresh := by
          intro k hk hkA
          exact hr.fresh k (by omega) hkA
        inj := by
          intro j k hj hjk hkA
          exact hr.inj j k (by omega) hjk hkA }
    refine ⟨R + 1, ⟨hr', hlen, ⟨hc.pos_le, hc.pos, hc.stored⟩⟩, ⟨?_, ?_⟩, .inl (by omega)⟩
    · exact hr.fresh R le_rfl (by omega)
    · intro k hk hkA
      exact (hr.inj R k le_rfl (by omega) hkA).symm

/-- A field is stored behind the others, which stay, if all fit into the storage. -/
theorem Contents.store {rec : ℕ} (hc : Contents h entries D n v es)
    (hspare : ∀ k, D ≤ k → k < D + es.length → entries (k % n) ≠ rec)
    (hfit : bytesOf es + header.bytes ≤ tableSize) :
    Stored (h.store rec header).storage (fun k => (h.store rec header).records (entries (k % n)))
        v D es
      ∧ ((h.store rec header).records rec).Holds (h.store rec header).storage
      (v + bytesOf es) header
      ∧ (h.store rec header).pos ≤ tableSize
      ∧ (h.store rec header).pos ≡ v + bytesOf (es ++ [header]) [MOD tableSize] := by
  rw [Header.bytes] at hfit
  have hpos := hc.pos_le
  have hroom : Cyclic.Room tableSize h.pos (tableSize - h.pos) header.name := ⟨by omega, by omega⟩
  have hroom' := Cyclic.room_wrapWrite header.value hroom (by omega) (by omega) h.storage
  have hpos' := Cyclic.wrapWrite_pos hroom hc.pos h.storage
  have hle' := Cyclic.wrapWrite_pos_le hroom (by omega) h.storage
  have hpos'' := Cyclic.wrapWrite_pos hroom' hpos'
    (Cyclic.wrapWrite tableSize h.storage h.pos (tableSize - h.pos) header.name).1
  refine ⟨?_, ⟨?_, ?_, ?_, ?_, ?_, ?_, ?_, ?_⟩, ?_, ?_⟩
  · have hst := (hc.stored.wrapWrite hroom hc.pos (by omega) (by omega)).wrapWrite hroom' hpos'
      (by omega) (by omega)
    apply hst.congr
    intro j hj
    exact if_neg (hspare (D + j) (by omega) (by omega))
  · simp [Table.store]
  · simp [Table.store]
  · simpa [Table.store] using hpos
  · simpa [Table.store] using hle'
  · simpa [Table.store] using hc.pos
  · simpa [Table.store] using hpos'
  · exact (Cyclic.holds_wrapWrite hroom hc.pos (by omega) _).wrapWrite hroom' hpos' (by omega)
      (by omega)
  · exact Cyclic.holds_wrapWrite hroom' hpos' (by omega) _
  · exact Cyclic.wrapWrite_pos_le hroom' (by omega) _
  · rw [bytesOf_append, bytesOf_cons, bytesOf_nil, Header.bytes, add_zero, ← add_assoc, ← add_assoc]
    exact hpos''

/-- The larger array has the live entries at its start. -/
theorem grownEntries_of_lt {i : ℕ} (hi : i < 64) (D : ℕ) :
    grownEntries entries 64 (D % 64) (i % 128) = entries ((D + i) % 64) := by
  rw [grownEntries, Nat.mod_eq_of_lt (show i < 128 by omega)]
  split_ifs with h
  · congr 1
    omega
  · congr 1
    omega

/-- The ring after `grow` has a slot for the next insertion, and the same live entries. -/
theorem Ring.grow (hr : Ring h entries A D R n) (hslot : HasSlot A D R n) (hlt : A < D + 128) :
    ∃ entries' A' D' R' n', Ring h.grow entries' A' D' R' n' ∧ A' + 1 ≤ R' + n' ∧ A' - D' = A - D
      ∧ (∀ j < A - D, entries' ((D' + j) % n') = entries ((D + j) % n))
      ∧ ∀ k, R' ≤ k → k < A' → ∃ k', R ≤ k' ∧ k' < A ∧ entries' (k % n') = entries (k' % n) := by
  have hRD := hr.reused_le
  have hlen := hr.length_toNat
  have hn : h.allocated.toNat = n := by
    rw [hr.allocated]
    rcases hr.capacity with rfl | rfl <;> rfl
  unfold Table.grow
  split_ifs with heq
  · have hAD : n = A - D := by rw [← hlen, ← heq, hn]
    obtain rfl : n = 64 := by
      rcases hr.capacity with hn | hn <;> omega
    obtain rfl : R = D := by
      rcases hslot with h' | h' <;> omega
    have hindex : (h.deleted % h.allocated).toNat = R % 64 := by
      rw [hr.deleted, hr.allocated]
      exact toNat_mod_capacity (.inl rfl) R
    dsimp only
    rw [hn, hindex, hr.entries_eq]
    have hgrown : ∀ i < 64, grownEntries entries 64 (R % 64) (i % 128) = entries ((R + i) % 64) :=
      fun i hi => grownEntries_of_lt hi R
    refine ⟨grownEntries entries 64 (R % 64), 64, 0, 0, 128, ?_, by omega, by omega, ?_, ?_⟩
    · exact
        { entries_eq := rfl
          added := hr.allocated
          deleted := rfl
          reused := rfl
          allocated := by
            rw [hr.allocated]
            rfl
          capacity := .inr rfl
          reused_le := Nat.le_refl 0
          deleted_le := by omega
          added_le := by omega
          fresh := by
            intro k _ hk
            rw [hgrown k hk]
            exact hr.fresh (R + k) (by omega) (by omega)
          inj := by
            intro j k _ hjk hk
            rw [hgrown j (by omega), hgrown k hk]
            exact hr.inj (R + j) (R + k) (by omega) (by omega) (by omega) }
    · intro j hj
      rw [zero_add]
      exact hgrown j (by omega)
    · intro k _ hk
      exact ⟨R + k, by omega, by omega, hgrown k hk⟩
  · refine ⟨entries, A, D, R, n, hr, ?_, rfl, fun _ _ => rfl, ?_⟩
    · rcases hslot with h' | ⟨rfl, rfl⟩
      · exact h'
      · refine absurd ?_ heq
        apply UInt64.toNat_inj.1
        omega
    · intro k hk hkA
      exact ⟨k, hk, hkA, rfl⟩

/-- The slot of the next insertion is none of those in use. -/
theorem Ring.push {rec : ℕ} (hr : Ring h entries A D R n) (hA : A + 1 ≤ R + n)
    (hspare : Spare h entries A R n rec) :
    Ring (h.push rec) (fun i => if i = A % n then rec else entries i) (A + 1) D R n := by
  have hother : ∀ k, R ≤ k → k < A → k % n ≠ A % n := by
    intro k hk hkA
    exact Cyclic.mod_ne_mod hkA (by omega)
  have hindex : (h.added % h.allocated).toNat = A % n := by
    rw [hr.added, hr.allocated, toNat_mod_capacity hr.capacity]
  refine
    { hr with
      entries_eq := ?_
      added := ?_
      deleted_le := Nat.le_succ_of_le hr.deleted_le
      added_le := hA
      fresh := ?_
      inj := ?_ }
  · unfold Table.push
    rw [hr.entries_eq, hindex]
    rfl
  · show h.added + 1 = _
    rw [hr.added, UInt64.ofNat_add]
    rfl
  · intro k hk hkA
    rcases lt_or_eq_of_le (Nat.le_of_lt_succ hkA) with hlt | rfl
    · rw [if_neg (hother k hk hlt)]
      exact hr.fresh k hk hlt
    · rw [if_pos rfl]
      exact hspare.lt
  · intro j k hj hjk hkA
    rw [if_neg (hother j hj (by omega))]
    rcases lt_or_eq_of_le (Nat.le_of_lt_succ hkA) with hlt | rfl
    · rw [if_neg (hother k (by omega) hlt)]
      exact hr.inj j k hj hjk hlt
    · rw [if_pos rfl]
      exact hspare.ne j hj hjk

/-!
# The HPACK table refines the abstract one

The size limit in force at the first insertion has to be the initial one: the first insertion sets
the limit to 4096 whatever the updates before it said.
-/

/-! ## Runs -/

/-- What a header block does to the table. -/
inductive Op where
  | tableSize (n : ℕ)
  | addHeader (header : Header)

/-- The code's step; `none` is `NGX_ERROR`. -/
def Op.step (h : Table) : Op → Option Table
  | .tableSize n => ngxHttpV2TableSize h n
  | .addHeader header => some (ngxHttpV2AddHeader h header)

/-- The step of the abstract table. -/
def Op.apply (t : DynTable) : Op → DynTable
  | .tableSize n => t.resize n
  | .addHeader header => t.insert header

/-- The code's table after the operations. -/
def runFrom (h : Table) (ops : List Op) : Option Table := ops.foldlM Op.step h

/-- The operations of a client that keeps to the limit of the settings. -/
def Op.Allowed : Op → Prop
  | .tableSize n => n ≤ 4096
  | .addHeader _ => True

/-- At the first insertion the limit, `limit` now, is 4096. -/
def FirstInsertAtDefault (limit : ℕ) : List Op → Prop
  | [] => True
  | .tableSize n :: ops => FirstInsertAtDefault n ops
  | .addHeader _ :: _ => limit = 4096

/-! ## The property -/

/-- What a lookup sets of `state.header`. -/
def Header.seen (nameOnly : Bool) (h : Header) : List UInt8 × Option (List UInt8) :=
  (h.name, if nameOnly then none else some h.value)

/-- The cells of the storage that the live entries occupy. -/
def Table.liveCells (h : Table) : List ℕ :=
  (List.range (h.added - h.deleted).toNat).flatMap fun j =>
    (h.entry (h.deleted + UInt64.ofNat j)).cells

/-- Each lookup gives what the abstract table holds at the index, or an error if it holds
nothing there; the live entries do not overlap. -/
def Represents (h : Table) (t : DynTable) : Prop :=
  (∀ header index nameOnly,
    (ngxHttpV2GetIndexedHeader h header index nameOnly).map (Header.seen nameOnly)
      = (t.lookup ngxHttpV2StaticTable index.toNat).map (Header.seen nameOnly))
    ∧ h.liveCells.Nodup

/-- The operations succeed, and lead to a ring that represents the abstract table. -/
def Refines (ops : List Op) : Prop :=
  ∃ h, runFrom Table.initial ops = some h
    ∧ Represents h (ops.foldl Op.apply DynTable.initial)

/-! ## Invariant -/

/-- The ring represents the table: before the first insertion there is none. -/
def Inv (h : Table) (t : DynTable) : Prop :=
  t.limit ≤ tableSize ∧
    ((h.entries = none ∧ t.entries = [] ∧ h.added = 0 ∧ h.deleted = 0 ∧ h.reused = 0
        ∧ h.free = h.size) ∨
      (h.size = t.limit ∧ h.free + total t.entries = h.size
        ∧ ∃ entries A D R n v, Live h entries A D R n v t.entries))

theorem inv_initial : Inv Table.initial DynTable.initial :=
  ⟨le_rfl, .inl ⟨rfl, rfl, rfl, rfl, rfl, rfl⟩⟩

/-! ### Size updates -/

variable {h : Table}

theorem evictWhile_of_le {needed : ℤ} (hle : needed ≤ h.free) : h.evictWhile needed = h := by
  rw [Table.evictWhile, if_neg (by omega)]

variable {n : ℕ}

theorem entries_tableSize {h' : Table} (heq : ngxHttpV2TableSize h n = some h') :
    h'.entries = h.entries := by
  unfold ngxHttpV2TableSize at heq
  split_ifs at heq
  rw [← Option.some.inj heq]
  exact entries_evictWhile _ h

variable {t : DynTable}

theorem Inv.resize (hi : Inv h t) (hn : n ≤ 4096) :
    ∃ h', ngxHttpV2TableSize h n = some h' ∧ Inv h' (t.resize n) := by
  unfold ngxHttpV2TableSize
  rw [if_neg (not_lt.2 hn)]
  refine ⟨_, rfl, hn, ?_⟩
  rcases hi.2 with ⟨hnone, hes, hadded, hdeleted, hreused, hfree⟩ | ⟨hsize, hfree, hlive⟩
  · left
    rw [evictWhile_of_le (by omega)]
    refine ⟨hnone, ?_, hadded, hdeleted, hreused, ?_⟩
    · rw [DynTable.resize, hes]
      rfl
    · show ((h.free : ℤ) - (h.size - n)).toNat = n
      omega
  · right
    obtain ⟨entries, A, D, R, m, v, hl⟩ := hlive
    obtain ⟨D', v', ⟨hr, hlen, hc⟩, hfree'⟩ :=
      hl.evictWhile (h.size - n) n (by omega)
    have hle := total_evict_le n t.entries
    refine ⟨rfl, ?_, entries, A, D', R, m, v', { hr with }, hlen, ⟨hc.pos_le, hc.pos, hc.stored⟩⟩
    show (((h.evictWhile (h.size - n)).free : ℤ) - (h.size - n)).toNat
      + total (DynTable.evict n t.entries) = n
    omega

/-! ### Insertions -/

/-- The first insertion allocates an empty ring. -/
theorem live_create (hnone : h.entries = none) (hadded : h.added = 0)
    (hdeleted : h.deleted = 0) (hreused : h.reused = 0) :
    Live h.create (fun _ => 0) 0 0 0 64 0 [] ∧ h.create.size = tableSize
      ∧ h.create.free = tableSize := by
  unfold Table.create
  rw [hnone]
  refine ⟨⟨?_, rfl, ?_⟩, rfl, rfl⟩
  · exact
      { entries_eq := rfl
        added := hadded
        deleted := hdeleted
        reused := hreused
        allocated := rfl
        capacity := Or.inl rfl
        reused_le := Nat.le_refl 0
        deleted_le := Nat.le_refl 0
        added_le := by omega
        fresh := by
          intro k _ hk
          omega
        inj := by
          intro j k _ _ hk
          omega }
  · exact ⟨Nat.zero_le _, rfl, trivial⟩

variable {entries : ℕ → ℕ} {A D R v : ℕ} {es : List Header}

/-- The accounting makes room for the field, or drops everything when the field is larger
than the limit. -/
theorem Live.account
    (hl : Live h entries A D R n v es) (hfree : h.free + total es = h.size) (header : Header) :
    ∃ ok h', ngxHttpV2TableAccount h header.bytes = (ok, h') ∧ h'.size = h.size ∧
      ((ok = true ∧ header.size ≤ h.size
          ∧ h'.free + total (DynTable.evict (h.size - header.size) es) + header.size = h.size
          ∧ ∃ D' v', Live h' entries A D' R n v' (DynTable.evict (h.size - header.size) es))
        ∨ (ok = false ∧ h.size < header.size ∧ h'.free = h.size
          ∧ ∃ v', Live h' entries A A R n v' [])) := by
  have hsize : header.size = header.bytes + 32 := rfl
  unfold ngxHttpV2TableAccount
  dsimp only
  split_ifs with h1 h2
  · refine ⟨_, _, rfl, rfl, .inl ⟨rfl, by omega, ?_, D, v, ?_⟩⟩
    · rw [DynTable.evict_of_le (by omega)]
      show h.free - (header.bytes + 32) + _ + _ = _
      omega
    · rw [DynTable.evict_of_le (by omega)]
      exact ⟨{ hl.1 with }, hl.2.1, hl.2.2.pos_le, hl.2.2.pos, hl.2.2.stored⟩
  · refine ⟨_, _, rfl, rfl, .inr ⟨rfl, by omega, rfl, v + bytesOf es, ?_⟩⟩
    exact ⟨hl.1.clear _, rfl, hl.2.2.pos_le, hl.2.2.pos, trivial⟩
  · have hloop : h.evictOne.evictWhile (header.bytes + 32 : ℕ)
        = h.evictWhile (header.bytes + 32 : ℕ) := by
      rw [Table.evictWhile.eq_def _ h, if_pos (by omega)]
    obtain ⟨D', v', ⟨hr, hlen, hc⟩, hfree'⟩ :=
      hl.evictWhile (header.bytes + 32 : ℕ) (h.size - header.size) (by omega)
    have hle := total_evict_le (h.size - header.size) es
    rw [hloop]
    refine ⟨_, _, rfl, size_evictWhile _ _, .inl ⟨rfl, by omega, ?_, D', v', ?_⟩⟩
    · show (h.evictWhile (header.bytes + 32 : ℕ)).free - (header.bytes + 32) + _ + _ = _
      omega
    · exact ⟨{ hr with }, hlen, hc.pos_le, hc.pos, hc.stored⟩

/-- A new entry becomes the last one of the ring. -/
theorem Live.insert (hl : Live h entries A D R n v es)
    (hfit : bytesOf es + header.bytes ≤ tableSize) (hlen : es.length < 128) :
    ∃ entries' A' D' R' n', Live
      (((h.takeRecord.2.store h.takeRecord.1 header).grow).push h.takeRecord.1)
      entries' A' D' R' n' v (es ++ [header]) := by
  obtain ⟨R1, ⟨hr, hA, hc⟩, hspare, hslot⟩ := hl.takeRecord
  have hRD := hr.reused_le
  have hlive : ∀ k, D ≤ k → k < D + es.length → entries (k % n) ≠ h.takeRecord.1 := by
    intro k hk hkA
    exact hspare.ne k (by omega) (by omega)
  obtain ⟨hstored, hentry, hpos, hmod⟩ := hc.store hlive hfit
  have hr' : Ring (h.takeRecord.2.store h.takeRecord.1 header) entries A D R1 n := { hr with }
  obtain ⟨entries2, A2, D2, R2, n2, hr2, hA2, hlen2, hsame, hold⟩ := hr'.grow hslot (by omega)
  have hgrow := grow_frame (h.takeRecord.2.store h.takeRecord.1 header)
  have hspare2 : Spare (h.takeRecord.2.store h.takeRecord.1 header).grow entries2 A2 R2 n2
      h.takeRecord.1 := by
    refine ⟨?_, ?_⟩
    · rw [hgrow.2.2.2.2.2]
      exact hspare.lt
    · intro k hk hkA
      obtain ⟨k', hk', hkA', heq⟩ := hold k hk hkA
      rw [heq]
      exact hspare.ne k' hk' hkA'
  obtain ⟨-, -, hst2, hpos2, hrec2, -⟩ := hgrow
  have hDA2 := hr2.deleted_le
  have hRD2 := hr2.reused_le
  refine ⟨_, A2 + 1, D2, R2, n2, hr2.push hA2 hspare2, ?_, ?_, ?_, ?_⟩
  · rw [length_append, length_singleton]
    omega
  · show (h.takeRecord.2.store h.takeRecord.1 header).grow.pos ≤ tableSize
    rw [hpos2]
    exact hpos
  · show (h.takeRecord.2.store h.takeRecord.1 header).grow.pos ≡ _ [MOD tableSize]
    rw [hpos2]
    exact hmod
  · show Stored (h.takeRecord.2.store h.takeRecord.1 header).grow.storage
      (fun k => (h.takeRecord.2.store h.takeRecord.1 header).grow.records _) v D2 _
    rw [hst2, hrec2]
    apply Stored.append
    · apply hstored.congr
      intro j hj
      have hne : (D2 + j) % n2 ≠ A2 % n2 := Cyclic.mod_ne_mod (by omega) (by omega)
      rw [if_neg hne, hsame j (by omega)]
    · rw [if_pos (by rw [show D2 + es.length = A2 by omega])]
      exact hentry

theorem insert_frame (h : Table) (header : Header) :
    (((h.takeRecord.2.store h.takeRecord.1 header).grow).push h.takeRecord.1).size = h.size
      ∧ (((h.takeRecord.2.store h.takeRecord.1 header).grow).push h.takeRecord.1).free =
        h.free := by
  obtain ⟨hsize, hfree, -⟩ := grow_frame (h.takeRecord.2.store h.takeRecord.1 header)
  exact ⟨hsize.trans (size_takeRecord h), hfree.trans (free_takeRecord h)⟩

/-- The entries that the size limit admits fit into the storage and into the ring. -/
theorem fits_of_total (h : total es + header.size ≤ tableSize) :
    bytesOf es + header.bytes ≤ tableSize ∧ es.length < 128 := by
  rw [total_eq, Header.size_eq] at h
  have : tableSize = 4096 := rfl
  omega

theorem Inv.addHeader (hi : Inv h t) (header : Header)
    (hfirst : h.entries = none → t.limit = 4096) :
    Inv (ngxHttpV2AddHeader h header) (t.insert header)
      ∧ (ngxHttpV2AddHeader h header).entries ≠ none := by
  have hcreate : h.create.size = t.limit ∧ h.create.free + total t.entries = h.create.size
      ∧ ∃ entries A D R n v, Live h.create entries A D R n v t.entries := by
    rcases hi.2 with ⟨hnone, hes, hadded, hdeleted, hreused, hfree⟩ | ⟨hsize, hfree, hlive⟩
    · obtain ⟨hl, hsize, hfree⟩ := live_create hnone hadded hdeleted hreused
      rw [hes]
      exact ⟨hsize.trans (hfirst hnone).symm, by rw [hfree, hsize]; rfl, _, _, _, _, _, _, hl⟩
    · obtain ⟨entries, A, D, R, n, v, hl⟩ := hlive
      have hcreate : h.create = h := by
        unfold Table.create
        rw [hl.1.entries_eq]
      rw [hcreate]
      exact ⟨hsize, hfree, entries, A, D, R, n, v, hl⟩
  obtain ⟨hsize, hfree, entries, A, D, R, n, v, hl⟩ := hcreate
  have hlimit := hi.1
  unfold ngxHttpV2AddHeader DynTable.insert
  rw [← Header.bytes, ← hsize]
  obtain ⟨ok, h', haccount, hsize',
    ⟨rfl, hle, hfree', D', v', hl'⟩ | ⟨rfl, hlt, hfree', v', hl'⟩⟩ := hl.account hfree header
  · rw [haccount, if_pos hle]
    have hroom : total (DynTable.evict (h.create.size - header.size) t.entries) + header.size
        ≤ tableSize := by
      omega
    obtain ⟨hfit, hlen⟩ := fits_of_total hroom
    obtain ⟨entries', A', D'', R', n', hl''⟩ := hl'.insert hfit hlen
    have hframe := insert_frame h' header
    refine ⟨⟨by rw [hsize]; exact hlimit, .inr ⟨?_, ?_, entries', A', D'', R', n', v', hl''⟩⟩, ?_⟩
    · exact hframe.1.trans hsize'
    · show (((h'.takeRecord.2.store h'.takeRecord.1 header).grow).push h'.takeRecord.1).free + _
        = (((h'.takeRecord.2.store h'.takeRecord.1 header).grow).push h'.takeRecord.1).size
      rw [total_append, total_cons, total_nil]
      omega
    · rw [hl''.1.entries_eq]
      exact Option.some_ne_none _
  · rw [haccount, if_neg (by omega)]
    refine ⟨⟨by rw [hsize]; exact hlimit, .inr ⟨hsize', ?_, entries, A, A, R, n, v', hl'⟩⟩, ?_⟩
    · rw [hfree', hsize']
      rfl
    · rw [hl'.1.entries_eq]
      exact Option.some_ne_none _

/-! ### Lookups -/

/-- A lookup beyond the static table reads the record of that entry. -/
theorem getIndexedHeader_dynamic (hindex : 61 < index.toNat) (header : Header) (nameOnly : Bool) :
    ngxHttpV2GetIndexedHeader h header index nameOnly =
      if index.toNat - 62 < (h.added - h.deleted).toNat then
        let entry := h.entry (h.added - UInt64.ofNat (index.toNat - 62) - 1)
        let name := Cyclic.wrapRead tableSize h.storage entry.nameData entry.nameLen
        if nameOnly then
          some { header with name := name }
        else
          some ⟨name, Cyclic.wrapRead tableSize h.storage entry.valueData entry.valueLen⟩
      else
        none := by
  have hsub : index - 1 - staticTableEntries = UInt64.ofNat (index.toNat - 62) := by
    apply UInt64.toNat_inj.1
    have h1 : (index - 1).toNat = index.toNat - 1 :=
      UInt64.toNat_sub_of_le _ _ (UInt64.le_iff_toNat_le.2 (by show 1 ≤ index.toNat; omega))
    rw [UInt64.toNat_sub_of_le _ _ (UInt64.le_iff_toNat_le.2
      (by rw [h1]; show 61 ≤ index.toNat - 1; omega)), h1, UInt64.toNat_ofNat']
    have := index.toNat_lt
    show index.toNat - 1 - 61 = _
    omega
  have h0 : index ≠ 0 := by
    rintro rfl
    simp at hindex
  have hge : ¬ index - 1 < staticTableEntries := by
    rw [UInt64.lt_iff_toNat_lt,
      UInt64.toNat_sub_of_le _ _ (UInt64.le_iff_toNat_le.2 (by show 1 ≤ index.toNat; omega))]
    show ¬ index.toNat - 1 < 61
    omega
  have hlt : (UInt64.ofNat (index.toNat - 62)).toNat = index.toNat - 62 := by
    rw [UInt64.toNat_ofNat']
    have := index.toNat_lt
    omega
  unfold ngxHttpV2GetIndexedHeader
  rw [if_neg h0]
  rw [if_neg hge, hsub]
  simp only [UInt64.lt_iff_toNat_lt, hlt]

/-- A lookup in the static table. -/
theorem getIndexedHeader_static (hindex : index.toNat ≤ 61) (h0 : index ≠ 0)
    (header : Header) (nameOnly : Bool) :
    ngxHttpV2GetIndexedHeader h header index nameOnly = ngxHttpV2StaticTable[index.toNat - 1]? := by
  have hpos : 1 ≤ index.toNat := by
    by_contra hlt
    apply h0
    apply UInt64.toNat_inj.1
    show index.toNat = 0
    omega
  have h1 : (index - 1).toNat = index.toNat - 1 :=
    UInt64.toNat_sub_of_le _ _ (UInt64.le_iff_toNat_le.2 hpos)
  have hlt : index - 1 < staticTableEntries := by
    rw [UInt64.lt_iff_toNat_lt, h1]
    show index.toNat - 1 < 61
    omega
  unfold ngxHttpV2GetIndexedHeader
  rw [if_neg h0]
  rw [if_pos hlt, h1]

/-- The abstract lookup beyond the static table. -/
theorem lookup_dynamic (t : DynTable) {index : ℕ} (hindex : 61 < index) :
    t.lookup ngxHttpV2StaticTable index =
      if index - 62 < t.entries.length then t.entries[t.entries.length - 1 - (index - 62)]?
      else none := by
  unfold DynTable.lookup
  rw [if_neg (by omega), getElem?_append_right (by rw [length_staticTable]; omega),
    length_staticTable, show index - 1 - 61 = index - 62 by omega]
  split_ifs with h
  · rw [getElem?_reverse h]
  · exact getElem?_eq_none (by rw [length_reverse]; omega)

theorem Header.size_le_total (h : e ∈ es) : e.size ≤ total es := by
  induction es with
  | nil => simp at h
  | cons e' es ih =>
    rw [total_cons]
    rcases mem_cons.1 h with rfl | h
    · omega
    · exact le_trans (ih h) (by omega)

/-- The record of the `i`-th newest entry. -/
theorem Live.entry_newest (hl : Live h entries A D R n v es) {i : ℕ}
    (hi : i < es.length) (he : es[es.length - 1 - i]? = some e) :
    ∃ w, (h.entry (h.added - UInt64.ofNat i - 1)).Holds h.storage w e := by
  obtain ⟨hr, hA, hc⟩ := hl
  have hk : h.added - UInt64.ofNat i - 1 = UInt64.ofNat (D + (es.length - 1 - i)) := by
    rw [hr.added, ← UInt64.ofNat_sub (by omega), show (1 : UInt64) = UInt64.ofNat 1 from rfl,
      ← UInt64.ofNat_sub (by omega)]
    congr 1
    omega
  obtain ⟨w, hw⟩ := hc.stored.get he
  refine ⟨w, ?_⟩
  rw [Table.entry, hk, hr.slot]
  exact hw

/-- **Lookups agree**: each index gives the field of the abstract table, or an error. -/
theorem Inv.lookup_eq (hi : Inv h t) (header : Header) (index : UInt64) (nameOnly : Bool) :
    (ngxHttpV2GetIndexedHeader h header index nameOnly).map (Header.seen nameOnly)
      = (t.lookup ngxHttpV2StaticTable index.toNat).map (Header.seen nameOnly) := by
  rcases lt_or_ge 61 index.toNat with hdyn | hstatic
  · rw [getIndexedHeader_dynamic hdyn, lookup_dynamic t hdyn]
    rcases hi.2 with ⟨-, hes, hadded, hdeleted, -⟩ | ⟨hsize, hfree, entries, A, D, R, n, v, hl⟩
    · rw [hes, hadded, hdeleted]
      rfl
    · have hcount : (h.added - h.deleted).toNat = t.entries.length := by
        rw [hl.1.length_toNat, hl.2.1]
        omega
      rw [hcount]
      by_cases hlt : index.toNat - 62 < t.entries.length
      · have he := getElem?_eq_getElem (l := t.entries)
          (i := t.entries.length - 1 - (index.toNat - 62)) (by omega)
        obtain ⟨w, hw⟩ := hl.entry_newest hlt he
        have hle := Header.size_le_total (mem_of_getElem? he)
        have hlimit := hi.1
        have hname := hw.wrapRead_name (by omega)
        have hvalue := hw.wrapRead_value (by omega)
        rw [if_pos hlt, if_pos hlt, he]
        cases nameOnly with
        | false =>
          show some (Header.seen false ⟨Cyclic.wrapRead _ _ _ _, Cyclic.wrapRead _ _ _ _⟩) = _
          rw [hname, hvalue]
          rfl
        | true =>
          show some (Header.seen true ⟨Cyclic.wrapRead _ _ _ _, header.value⟩) = _
          rw [hname]
          rfl
      · rw [if_neg hlt, if_neg hlt]
  · by_cases h0 : index = 0
    · rw [h0]
      rfl
    · have hpos : index.toNat ≠ 0 := fun heq => h0 (UInt64.toNat_inj.1 heq)
      rw [getIndexedHeader_static hstatic h0, DynTable.lookup, if_neg hpos,
        getElem?_append_left (by rw [length_staticTable]; omega)]

/-- **Live entries share no byte of the storage.** -/
theorem Inv.nodup_liveCells (hi : Inv h t) : h.liveCells.Nodup := by
  unfold Table.liveCells
  rcases hi.2 with ⟨-, hes, hadded, hdeleted, -⟩ | ⟨hsize, hfree, entries, A, D, R, n, v, hl⟩
  · rw [hadded, hdeleted]
    exact nodup_nil
  · obtain ⟨hr, hA, hc⟩ := hl
    have hcells : ∀ j, (h.entry (h.deleted + UInt64.ofNat j)).cells
        = (h.records (entries ((D + j) % n))).cells := by
      intro j
      rw [Table.entry, hr.deleted, ← UInt64.ofNat_add, hr.slot]
    have hlimit := hi.1
    rw [total_eq] at hfree
    rw [hr.length_toNat, show A - D = t.entries.length by omega]
    simp only [hcells]
    rw [hc.stored.cells_eq]
    exact Cyclic.nodup_cells (by omega) v

/-! ## Every run -/

/-- Running from a state of the invariant keeps it. -/
theorem Inv.runFrom {ops : List Op} (hi : Inv h t) (hallowed : ∀ op ∈ ops, op.Allowed)
    (hfirst : h.entries = none → FirstInsertAtDefault t.limit ops) :
    ∃ h', runFrom h ops = some h' ∧ Inv h' (ops.foldl Op.apply t) := by
  induction ops generalizing h t with
  | nil => exact ⟨h, rfl, hi⟩
  | cons op ops ih =>
    have hop := hallowed op mem_cons_self
    have hrest : ∀ op ∈ ops, op.Allowed := fun op' h' => hallowed op' (mem_cons_of_mem _ h')
    cases op with
    | tableSize n =>
      obtain ⟨h1, hstep, hi1⟩ := hi.resize hop
      obtain ⟨h', hrun, hi'⟩ := ih hi1 hrest (by
        intro hnone
        apply hfirst
        rw [← entries_tableSize hstep]
        exact hnone)
      refine ⟨h', ?_, hi'⟩
      show (Op.step h (.tableSize n)).bind (fun h => Hpack.runFrom h ops) = some h'
      rw [Op.step, hstep]
      exact hrun
    | addHeader header =>
      obtain ⟨hi1, hsome⟩ := hi.addHeader header hfirst
      exact ih hi1 hrest (fun hnone => absurd hnone hsome)

/-- **The ring refines the table of the standard** as long as the size updates before the
first insertion, if any, end with the initial limit. -/
theorem refines_of_firstInsertAtDefault {ops : List Op} (hallowed : ∀ op ∈ ops, op.Allowed)
    (hfirst : FirstInsertAtDefault 4096 ops) : Refines ops := by
  obtain ⟨h, hrun, hi⟩ := inv_initial.runFrom hallowed (fun _ => hfirst)
  exact ⟨h, hrun, hi.lookup_eq, hi.nodup_liveCells⟩

theorem refines_insertEvict :
    Refines [.tableSize 100, .tableSize 4096, .addHeader ⟨[0x61], [0x62]⟩, .tableSize 40,
      .addHeader ⟨[0x63], [0x64, 0x65]⟩] :=
  refines_of_firstInsertAtDefault (by simp [Op.Allowed]) (by simp [FirstInsertAtDefault])

/-- A limit of 0 that is set before the first insertion is lost: the field is found. -/
theorem not_refines_sizeBeforeInsert : ¬ Refines [.tableSize 0, .addHeader ⟨[0x61], [0x62]⟩] := by
  rintro ⟨h, hrun, hlookup, -⟩
  have hstep : Hpack.runFrom Table.initial [.tableSize 0, .addHeader ⟨[0x61], [0x62]⟩]
      = some (ngxHttpV2AddHeader Table.initial ⟨[0x61], [0x62]⟩) := by
    simp only [Hpack.runFrom, foldlM, Op.step, ngxHttpV2TableSize]
    rw [evictWhile_of_le (by decide)]
    rfl
  obtain rfl := Option.some.inj (hstep.symm.trans hrun)
  have h62 := hlookup ⟨[], []⟩ 62 false
  revert h62
  decide

end Hpack
