/-
# The hash of names

`ngx_hash_init` and `ngx_hash_find` of `ngx_hash.c`.  The elements of a bucket lie one after
the other in memory, each with its value, the length of its name and the name in lower case,
up to one whose value is null.  The buckets are sized and filled with counters of 16 bits,
in an area that begins at the beginning of a cache line; places are counted from there.

An element is one cell of memory, at the place where it begins, and `inBounds` tells whether
all of it was written within the space of its bucket; what the memory holds is of no use
otherwise.
-/
import ReadingCode.Bytes
import ReadingCode.RecordArea

namespace HashTable

open Function (update)

/-! ## Names -/

/-- `ngx_hash_key_t`: a removed name has no `key.data`. -/
structure HashKey (V : Type) where
  key : Bytes
  removed : Bool
  keyHash : ℕ
  value : Option V
  deriving DecidableEq, Repr

/-- `ngx_tolower(c)` -/
def ngxTolower (c : UInt8) : UInt8 := if c ≥ 0x41 ∧ c ≤ 0x5A then c ||| 0x20 else c

/-- `ngx_strlow(dst, src, n)` -/
def ngxStrlow (s : Bytes) : Bytes := s.map ngxTolower

/-- `ngx_hash(key, c)` -/
def ngxHash (key : ℕ) (c : UInt8) : ℕ := (key * 31 + c.toNat) % 2 ^ 64

/-- `ngx_hash_key(data, len)` -/
def ngxHashKey (data : Bytes) : ℕ := data.foldl ngxHash 0

/-- `ngx_hash_key_lc(data, len)` -/
def ngxHashKeyLc (data : Bytes) : ℕ := ngxHashKey (ngxStrlow data)

/-- `ngx_align(d, a)`, the alignment being a power of two. -/
def ngxAlign (d a : ℕ) : ℕ := (d + (a - 1)) / a * a

/-- `NGX_HASH_ELT_SIZE(name)` -/
def ngxHashEltSize {V : Type} (name : HashKey V) : ℕ := 8 + ngxAlign (name.key.length + 2) 8

/-- `(u_short)` -/
def ushort (n : ℕ) : ℕ := n % 2 ^ 16

/-- `ngx_hash_elt_t` -/
structure Elt (V : Type) where
  value : Option V
  len : ℕ
  name : Bytes
  deriving DecidableEq, Repr

/-- `ngx_hash_t`, with the memory of its elements and how much of it there is. -/
structure Hash (V : Type) where
  buckets : ℕ → Option ℕ
  size : ℕ
  mem : ℕ → Elt V
  room : ℕ
  inBounds : Bool

section

variable {V : Type}

/-! ## The size -/

/-- One pass of the loop over the sizes: whether no counter goes over the size of a bucket. -/
def fits (size bucketSize : ℕ) : (ℕ → ℕ) → List (HashKey V) → Bool
  | _, [] => true
  | test, name :: names =>
    if name.removed then fits size bucketSize test names
    else
      let key := name.keyHash % size
      let t := ushort (test key + ngxHashEltSize name)
      if t > ushort bucketSize then false
      else fits size bucketSize (update test key t) names

/-- The first size that is tried. -/
def startSize (nelts maxSize bucketSize : ℕ) : ℕ :=
  let start := nelts / (bucketSize / 16)
  let start := if start = 0 then 1 else start
  if maxSize > 10000 ∧ nelts ≠ 0 ∧ maxSize / nelts < 100 then maxSize - 1000 else start

/-- The size that is found, or else `max_size`; here `bucketSize` is already less a pointer. -/
def chooseSize (names : List (HashKey V)) (maxSize bucketSize : ℕ) : ℕ :=
  let start := startSize names.length maxSize bucketSize
  ((List.range' start (maxSize + 1 - start)).find?
    fun size => fits size bucketSize (fun _ => 0) names).getD maxSize

/-! ## Sizing and filling the buckets -/

/-- The counters after the names have been counted. -/
def count (size : ℕ) : (ℕ → ℕ) → List (HashKey V) → ℕ → ℕ
  | test, [] => test
  | test, name :: names =>
    if name.removed then count size test names
    else
      let key := name.keyHash % size
      count size (update test key (ushort (test key + ngxHashEltSize name))) names

/-- The space of each bucket, none for those that stay null. -/
def bucketSpace (cacheline size : ℕ) (names : List (HashKey V)) (i : ℕ) : Option ℕ :=
  let test := count size (fun _ => 8) names i
  if test = 8 then none else some (ushort (ngxAlign test cacheline))

/-- The memory while the buckets are filled. -/
structure Filling (V : Type) where
  test : ℕ → ℕ
  mem : ℕ → Elt V
  inBounds : Bool

/-- What is written for a name. -/
def elt (name : HashKey V) : Elt V := ⟨name.value, ushort name.key.length, ngxStrlow name.key⟩

/-- The loop over the names that writes the elements. -/
def fill (space : ℕ → Option ℕ) (size : ℕ) : Filling V → List (HashKey V) → Filling V
  | f, [] => f
  | f, name :: names =>
    if name.removed then fill space size f names
    else
      let key := name.keyHash % size
      let test := ushort (f.test key + ngxHashEltSize name)
      let place := RecordArea.base (fun i => (space i).getD 0) key + f.test key
      let inside := match space key with
        | none => false
        | some space => decide (f.test key + 10 + name.key.length ≤ space)
      fill space size
        ⟨update f.test key test, update f.mem place (elt name),
          f.inBounds && inside⟩ names

/-- The loop over the buckets that ends each with a null value. -/
def terminate (space : ℕ → Option ℕ) : Filling V → List ℕ → Filling V
  | f, [] => f
  | f, i :: is =>
    match space i with
    | none => terminate space f is
    | some n =>
      let place := RecordArea.base (fun i => (space i).getD 0) i + f.test i
      terminate space
        ⟨f.test, update f.mem place { f.mem place with value := none },
          f.inBounds && decide (f.test i + 8 ≤ n)⟩ is

/-- `ngx_hash_init(hinit, names, nelts)`: the hash when it returns `NGX_OK`, the memory having
held `junk`.  The division by `bucket_size / (2 * sizeof(void *))` faults when that is 0. -/
def ngxHashInit (cacheline maxSize bucketSize : ℕ) (junk : ℕ → Elt V)
    (names : List (HashKey V)) : Option (Hash V) :=
  if maxSize = 0 then none
  else if names.any fun name => bucketSize < ngxHashEltSize name + 8 then none
  else
    let bucketSize := (bucketSize + 2 ^ 64 - 8) % 2 ^ 64
    if bucketSize / 16 = 0 then none
    else
      let size := chooseSize names maxSize bucketSize
      let space := bucketSpace cacheline size names
      let base := RecordArea.base fun i => (space i).getD 0
      let f := terminate space (fill space size ⟨fun _ => 0, junk, true⟩ names) (List.range size)
      some
        { buckets := fun i => if i < size then (space i).map fun _ => base i else none
          size := size
          mem := f.mem
          room := base size
          inBounds := f.inBounds }

/-! ## `ngx_hash_find` -/

/-- The loop over the elements from the place `o` on, no more than `fuel` of them. -/
def findLoop (mem : ℕ → Elt V) (name : Bytes) : ℕ → ℕ → Option (Option V)
  | 0, _ => none
  | fuel + 1, o =>
    match (mem o).value with
    | none => some none
    | some v =>
      if name.length = (mem o).len ∧ name = (mem o).name.take name.length then some (some v)
      else findLoop mem name fuel (ngxAlign (o + 10 + (mem o).len) 8)

/-- `ngx_hash_find(hash, key, name, len)`, unless it leaves the memory of the hash. -/
def ngxHashFind (hash : Hash V) (key : ℕ) (name : Bytes) : Option (Option V) :=
  match hash.buckets (key % hash.size) with
  | none => some none
  | some o => findLoop hash.mem name (hash.room + 1) o

end

/-!
# Filling the hash

When what a bucket holds, rounded up to a cache line, is less than 64 Kbytes, every element is
written within its bucket.  A bucket that holds more is sized for less.
-/

open List Function

variable {V : Type}

/-! ## Sizes -/

theorem ngxAlign_eight (d : ℕ) : ngxAlign d 8 = (d + 7) / 8 * 8 := rfl

theorem eltSize_pos (name : HashKey V) : 0 < ngxHashEltSize name := by
  rw [ngxHashEltSize]
  omega

theorem eight_dvd_eltSize (name : HashKey V) : 8 ∣ ngxHashEltSize name := by
  rw [ngxHashEltSize, ngxAlign_eight]
  omega

/-- What is written of an element fits its size. -/
theorem written_le_eltSize (name : HashKey V) : 10 + name.key.length ≤ ngxHashEltSize name := by
  rw [ngxHashEltSize, ngxAlign_eight]
  omega

variable {name : HashKey V}

/-- Up to the next place that is aligned there is nothing but the element. -/
theorem add_eltSize_le {o n : ℕ} (ho : 8 ∣ o) (hn : 8 ∣ n)
    (h : o + 10 + name.key.length ≤ n) : o + ngxHashEltSize name ≤ n := by
  rw [ngxHashEltSize, ngxAlign_eight]
  omega

theorem align_next {o : ℕ} (ho : 8 ∣ o) :
    ngxAlign (o + 10 + name.key.length) 8 = o + ngxHashEltSize name := by
  rw [ngxHashEltSize, ngxAlign_eight, ngxAlign_eight]
  omega

/-! ## Buckets -/

/-- The names of a bucket, in their order. -/
def bucket (size : ℕ) (names : List (HashKey V)) (i : ℕ) : List (HashKey V) :=
  names.filter fun name => !name.removed && decide (name.keyHash % size = i)

/-- The room they take. -/
def load (size : ℕ) (names : List (HashKey V)) (i : ℕ) : ℕ :=
  RecordArea.room ngxHashEltSize (bucket size names i)

/-- The elements of a bucket lie from `o` on. -/
def Filled (mem : ℕ → Elt V) (o : ℕ) (names : List (HashKey V)) : Prop :=
  RecordArea.Placed ngxHashEltSize elt mem o names

theorem bucket_append (size : ℕ) (names names' : List (HashKey V)) (i : ℕ) :
    bucket size (names ++ names') i = bucket size names i ++ bucket size names' i :=
  filter_append ..

theorem bucket_removed {size : ℕ} (h : name.removed = true) (i : ℕ) :
    bucket size [name] i = [] := by
  simp [bucket, h]

theorem bucket_self {size : ℕ} (h : name.removed = false) :
    bucket size [name] (name.keyHash % size) = [name] := by
  simp [bucket, h]

theorem bucket_ne {size i : ℕ} (h : name.keyHash % size ≠ i) : bucket size [name] i = [] := by
  simp [bucket, h]

theorem eight_dvd_load (size : ℕ) (names : List (HashKey V)) (i : ℕ) : 8 ∣ load size names i :=
  RecordArea.dvd_room _ fun name _ => eight_dvd_eltSize name

/-- The counters count the room, in 16 bits. -/
theorem count_eq (size : ℕ) (names : List (HashKey V)) {test : ℕ → ℕ} (htest : ∀ i, test i < 2 ^ 16)
    (i : ℕ) : count size test names i = (test i + load size names i) % 2 ^ 16 := by
  induction names generalizing test with
  | nil => exact (Nat.mod_eq_of_lt (htest i)).symm
  | cons name names ih =>
    rw [count, load, ← singleton_append, bucket_append, RecordArea.room_append]
    cases hr : name.removed with
    | true =>
      rw [if_pos rfl, ih htest, bucket_removed hr, RecordArea.room_nil, zero_add]
      rfl
    | false =>
      rw [if_neg Bool.false_ne_true, ih]
      · by_cases hi : name.keyHash % size = i
        · subst hi
          rw [update_self, bucket_self hr, ushort]
          simp only [RecordArea.room_cons, RecordArea.room_nil, load]
          omega
        · rw [update_of_ne (Ne.symm hi), bucket_ne hi, RecordArea.room_nil, zero_add]
          rfl
      · intro j
        by_cases hj : j = name.keyHash % size
        · rw [hj, update_self]
          exact Nat.mod_lt _ (by omega)
        · rw [update_of_ne hj]
          exact htest j

/-! ## Filling -/

variable {space : ℕ → Option ℕ} {size : ℕ}

/-- Where a bucket begins. -/
def start (space : ℕ → Option ℕ) : ℕ → ℕ := RecordArea.base fun i => (space i).getD 0

/-- While the names `done` are in place, and so far nothing was written out of place. -/
structure FillInv (space : ℕ → Option ℕ) (size : ℕ) (done : List (HashKey V)) (f : Filling V) :
    Prop where
  test : ∀ i, f.test i = load size done i
  sized : ∀ i, bucket size done i ≠ [] → ∃ n, space i = some n ∧ load size done i ≤ n
  filled : ∀ i, Filled f.mem (start space i) (bucket size done i)

theorem fillInv_nil (junk : ℕ → Elt V) : FillInv space size [] ⟨fun _ => 0, junk, true⟩ :=
  ⟨fun _ => rfl, fun _ h => absurd rfl h, fun _ => trivial⟩

variable {f : Filling V}

variable {names : List (HashKey V)}

theorem inBounds_of_fill (h : (fill space size f names).inBounds = true) : f.inBounds = true := by
  induction names generalizing f with
  | nil => exact h
  | cons name names ih =>
    rw [fill] at h
    split at h
    · exact ih h
    · have := ih h
      simp only [Bool.and_eq_true] at this
      exact this.1

variable {done : List (HashKey V)}

/-- One element more. -/
theorem FillInv.place {n : ℕ} (h : FillInv space size done f) (hr : name.removed = false)
    (hspace : ∀ i n, space i = some n → 8 ∣ n ∧ n < 2 ^ 16)
    (hn : space (name.keyHash % size) = some n)
    (hin : f.test (name.keyHash % size) + 10 + name.key.length ≤ n) (ok : Bool) :
    FillInv space size (done ++ [name]) ⟨update f.test (name.keyHash % size)
          (ushort (f.test (name.keyHash % size) + ngxHashEltSize name)),
        update f.mem (start space (name.keyHash % size) + f.test (name.keyHash % size))
          (elt name), ok⟩ := by
  obtain ⟨hn8, hn16⟩ := hspace _ _ hn
  have htest := h.test (name.keyHash % size)
  rw [htest] at hin ⊢
  have hle := add_eltSize_le (eight_dvd_load size done _) hn8 hin
  have hself : bucket size (done ++ [name]) (name.keyHash % size)
      = bucket size done (name.keyHash % size) ++ [name] := by
    rw [bucket_append, bucket_self hr]
  have hne : ∀ i, i ≠ name.keyHash % size →
      bucket size (done ++ [name]) i = bucket size done i := by
    intro i hi
    rw [bucket_append, bucket_ne (Ne.symm hi), append_nil]
  have hload : load size (done ++ [name]) (name.keyHash % size)
      = load size done (name.keyHash % size) + ngxHashEltSize name := by
    rw [load, hself]
    simp [load]
  refine ⟨fun i => ?_, fun i hi => ?_, fun i => ?_⟩
  · by_cases hi : i = name.keyHash % size
    · subst hi
      dsimp only
      rw [update_self, hload, ushort, Nat.mod_eq_of_lt (by omega)]
    · dsimp only
      rw [update_of_ne hi, load, hne i hi]
      exact h.test i
  · by_cases hik : i = name.keyHash % size
    · subst hik
      exact ⟨n, hn, by omega⟩
    · rw [hne i hik] at hi
      rw [load, hne i hik]
      exact h.sized i hi
  · by_cases hi : i = name.keyHash % size
    · subst hi
      rw [hself]
      exact (h.filled _).snoc fun r _ => eltSize_pos r
    · rw [hne i hi]
      refine (h.filled i).congr (fun r _ => eltSize_pos r) fun x h1 h2 => ?_
      refine update_of_ne ?_ ..
      -- The place lies in another bucket.
      have hi0 : bucket size done i ≠ [] := by
        intro hnil
        rw [hnil, RecordArea.room_nil] at h2
        omega
      obtain ⟨m, hm, hload'⟩ := h.sized i hi0
      have hroom : RecordArea.room ngxHashEltSize (bucket size done i) ≤ m := hload'
      obtain ⟨d, rfl⟩ : ∃ d, x = start space i + d := ⟨x - start space i, by omega⟩
      have hdn : load size done (name.keyHash % size) < n := by
        omega
      exact RecordArea.ne_of_area_ne hi (by rw [hm]; simp only [Option.getD_some]; omega)
        (by rw [hn]; exact hdn)

/-- All elements, if nothing was written out of place. -/
theorem FillInv.fill
    (h : FillInv space size done f) (hspace : ∀ i n, space i = some n → 8 ∣ n ∧ n < 2 ^ 16)
    (hin : (HashTable.fill space size f names).inBounds = true) :
    FillInv space size (done ++ names) (HashTable.fill space size f names) := by
  induction names generalizing f done with
  | nil => simpa [HashTable.fill] using h
  | cons name names ih =>
    rw [HashTable.fill] at hin ⊢
    rw [← singleton_append, ← append_assoc]
    cases hr : name.removed with
    | true =>
      rw [hr] at hin
      have hbucket : ∀ i, bucket size (done ++ [name]) i = bucket size done i := by
        intro i
        rw [bucket_append, bucket_removed hr, append_nil]
      refine ih ⟨fun i => ?_, fun i hi => ?_, fun i => ?_⟩ hin
      · rw [load, hbucket]
        exact h.test i
      · rw [hbucket] at hi
        rw [load, hbucket]
        exact h.sized i hi
      · rw [hbucket]
        exact h.filled i
    | false =>
      rw [hr] at hin
      have hinside := inBounds_of_fill hin
      simp only [Bool.and_eq_true] at hinside
      rcases hn : space (name.keyHash % size) with _ | n
      · simp [hn] at hinside
      · simp only [hn, decide_eq_true_eq] at hinside
        exact ih (h.place hr hspace hn hinside.2 _) hin

/-- Nothing is written out of place when there is room for every bucket. -/
theorem FillInv.inBounds (names : List (HashKey V))
    (h : FillInv space size done f) (hspace : ∀ i n, space i = some n → 8 ∣ n ∧ n < 2 ^ 16)
    (hroom : ∀ i, bucket size (done ++ names) i ≠ [] →
      ∃ n, space i = some n ∧ load size (done ++ names) i ≤ n) (hf : f.inBounds = true) :
    (HashTable.fill space size f names).inBounds = true := by
  induction names generalizing f done with
  | nil => exact hf
  | cons name names ih =>
    rw [HashTable.fill]
    rw [← singleton_append, ← append_assoc] at hroom
    cases hr : name.removed with
    | true =>
      have hbucket : ∀ i, bucket size (done ++ [name]) i = bucket size done i := by
        intro i
        rw [bucket_append, bucket_removed hr, append_nil]
      refine ih ⟨fun i => ?_, fun i hi => ?_, fun i => ?_⟩ hroom hf
      · rw [load, hbucket]
        exact h.test i
      · rw [hbucket] at hi
        rw [load, hbucket]
        exact h.sized i hi
      · rw [hbucket]
        exact h.filled i
    | false =>
      have hself : bucket size (done ++ [name] ++ names) (name.keyHash % size)
          = bucket size done (name.keyHash % size) ++ [name]
            ++ bucket size names (name.keyHash % size) := by
        rw [bucket_append, bucket_append, bucket_self hr]
      obtain ⟨n, hn, hle⟩ := hroom (name.keyHash % size) (by rw [hself]; simp)
      rw [load, hself, RecordArea.room_append, RecordArea.room_append, RecordArea.room_cons] at hle
      have hwritten := written_le_eltSize name
      have htest := h.test (name.keyHash % size)
      rw [load] at htest
      have hin : f.test (name.keyHash % size) + 10 + name.key.length ≤ n := by omega
      refine ih (h.place hr hspace hn hin _) hroom ?_
      simp only [hf, hn, Bool.true_and, decide_eq_true_eq]
      exact hin

/-! ## The null values -/

/-- The loop over the buckets writes a null value after the elements of each. -/
theorem terminate_spec (space : ℕ → Option ℕ) (f : Filling V) (is : List ℕ) :
    (terminate space f is).test = f.test
      ∧ (∀ x, (∀ i ∈ is, space i ≠ none → x ≠ start space i + f.test i) →
          (terminate space f is).mem x = f.mem x)
      ∧ (∀ x, (f.mem x).value = none → ((terminate space f is).mem x).value = none)
      ∧ (∀ i ∈ is, space i ≠ none →
          ((terminate space f is).mem (start space i + f.test i)).value = none)
      ∧ ((terminate space f is).inBounds = true ↔
          f.inBounds = true ∧ ∀ i ∈ is, ∀ n, space i = some n → f.test i + 8 ≤ n) := by
  induction is generalizing f with
  | nil => simp [terminate]
  | cons i is ih =>
    rcases hn : space i with _ | n
    · have hterm : terminate space f (i :: is) = terminate space f is := by
        simp only [terminate, hn]
      rw [hterm]
      obtain ⟨h1, h2, h3, h4, h5⟩ := ih f
      refine ⟨h1, fun x hx => h2 x fun j hj => hx j (mem_cons_of_mem _ hj), h3,
        fun j hj hj' => ?_, ?_⟩
      · rcases mem_cons.1 hj with rfl | hj
        · exact absurd hn hj'
        · exact h4 j hj hj'
      · rw [h5]
        simp [hn]
    · have hterm : terminate space f (i :: is) = terminate space ⟨f.test,
          update f.mem (start space i + f.test i)
            { f.mem (start space i + f.test i) with value := none },
          f.inBounds && decide (f.test i + 8 ≤ n)⟩ is := by
        simp only [terminate, hn]
        rfl
      rw [hterm]
      obtain ⟨h1, h2, h3, h4, h5⟩ := ih ⟨f.test, update f.mem (start space i + f.test i)
        { f.mem (start space i + f.test i) with value := none },
        f.inBounds && decide (f.test i + 8 ≤ n)⟩
      refine ⟨h1, fun x hx => ?_, fun x hx => h3 x ?_, fun j hj hj' => ?_, ?_⟩
      · rw [h2 x fun j hj => hx j (mem_cons_of_mem _ hj)]
        exact update_of_ne (hx i mem_cons_self (by simp [hn])) ..
      · dsimp only
        by_cases hxi : x = start space i + f.test i
        · rw [hxi, update_self]
        · rw [update_of_ne hxi]
          exact hx
      · rcases mem_cons.1 hj with rfl | hj
        · exact h3 _ (by simp)
        · exact h4 j hj hj'
      · rw [h5]
        simp [hn, and_assoc]

/-!
# What the hash finds

The values of all names are found just when no name without a value stands before one with a value
in its bucket.
-/

open Option

variable {V : Type}

/-! ## The hash that is built -/

/-- What the bucket of each number takes is counted in 16 bits without loss. -/
def Sized (cacheline size : ℕ) (names : List (HashKey V)) : Prop :=
  ∀ i < size, bucket size names i ≠ [] → ngxAlign (8 + load size names i) cacheline < 2 ^ 16

/-- Within a bucket no name without a value stands before one with a value. -/
def NullsLast (size : ℕ) (names : List (HashKey V)) : Prop :=
  ∀ i < size, (bucket size names i).Pairwise fun n m => n.value = none → m.value = none

/-- A cache line is a power of two, no less than a pointer. -/
structure IsCacheline (cacheline : ℕ) : Prop where
  pointer : 8 ∣ cacheline
  word : cacheline ∣ 2 ^ 16

section

variable {cacheline size : ℕ} {names : List (HashKey V)}

theorem IsCacheline.pos (h : IsCacheline cacheline) : 0 < cacheline :=
  Nat.pos_of_dvd_of_pos h.word (by omega)

theorem le_ngxAlign (h : IsCacheline cacheline) (d : ℕ) : d ≤ ngxAlign d cacheline := by
  have hpos := h.pos
  have := Nat.lt_div_mul_add (a := d + (cacheline - 1)) hpos
  rw [ngxAlign]
  omega

theorem dvd_ngxAlign (cacheline d : ℕ) : cacheline ∣ ngxAlign d cacheline := Nat.dvd_mul_left ..

/-- Nothing that is aligned and not less than `d` is less than `d` aligned. -/
theorem ngxAlign_le (h : IsCacheline cacheline) {d n : ℕ} (hd : d ≤ n) (hn : cacheline ∣ n) :
    ngxAlign d cacheline ≤ n := by
  obtain ⟨m, rfl⟩ := hn
  have hpos := h.pos
  rw [ngxAlign, mul_comm]
  refine Nat.mul_le_mul_left _ (Nat.lt_succ_iff.1 ((Nat.div_lt_iff_lt_mul hpos).2 ?_))
  rw [Nat.succ_mul, mul_comm m]
  omega

variable {i : ℕ}

/-- The space of the buckets is aligned and fits 16 bits. -/
theorem bucketSpace_spec (h : IsCacheline cacheline) {n : ℕ}
    (hn : bucketSpace cacheline size names i = some n) : cacheline ∣ n ∧ 8 ∣ n ∧ n < 2 ^ 16 := by
  simp only [bucketSpace] at hn
  split at hn
  · cases hn
  · cases hn
    have hdvd := (Nat.dvd_mod_iff h.word).2 (dvd_ngxAlign cacheline
      (count size (fun _ => 8) names i))
    exact ⟨hdvd, Nat.dvd_trans h.pointer hdvd, Nat.mod_lt _ (by omega)⟩

theorem count_eight (i : ℕ) : count size (fun _ => 8) names i = (8 + load size names i) % 2 ^ 16 :=
  count_eq size names (fun _ => by omega) i

/-- An empty bucket stays null. -/
theorem bucketSpace_eq_none (cacheline : ℕ) (h : bucket size names i = []) :
    bucketSpace cacheline size names i = none := by
  simp only [bucketSpace, count_eight, load, h, RecordArea.room_nil]
  rfl

/-- A bucket that is sized right has room for its elements and the null value. -/
theorem bucketSpace_of_sized (h : IsCacheline cacheline) (hs : Sized cacheline size names)
    (hi : i < size) (hne : bucket size names i ≠ []) :
    ∃ n, bucketSpace cacheline size names i = some n ∧ load size names i + 8 ≤ n := by
  have hlt := hs i hi hne
  have hle := le_ngxAlign h (8 + load size names i)
  have hpos : 0 < load size names i := by
    obtain ⟨name, rest, hb⟩ := exists_cons_of_ne_nil hne
    rw [load, hb, RecordArea.room_cons]
    have := eltSize_pos name
    omega
  have hcount : count size (fun _ => 8) names i = 8 + load size names i := by
    rw [count_eight, Nat.mod_eq_of_lt (lt_of_le_of_lt hle hlt)]
  simp only [bucketSpace, hcount, ushort, Nat.mod_eq_of_lt hlt]
  rw [if_neg (by omega)]
  exact ⟨_, rfl, by omega⟩

theorem bucket_eq_nil_of_le (hsize : 0 < size) (hi : size ≤ i) : bucket size names i = [] := by
  rw [bucket, filter_eq_nil_iff]
  intro name _
  have := Nat.mod_lt name.keyHash hsize
  simp only [Bool.and_eq_true, decide_eq_true_eq, not_and]
  omega

/-- What is built. -/
structure Built (size : ℕ) (names : List (HashKey V)) (hash : Hash V) : Prop where
  empty : ∀ i < size, bucket size names i = [] → hash.buckets i = none
  filled : ∀ i < size, bucket size names i ≠ [] → ∃ o, hash.buckets i = some o ∧ 8 ∣ o
    ∧ Filled hash.mem o (bucket size names i)
    ∧ (hash.mem (o + load size names i)).value = none
    ∧ load size names i ≤ hash.room

/-- The start of a bucket is aligned. -/
theorem eight_dvd_start (h : ∀ i n, space i = some n → 8 ∣ n) (i : ℕ) : 8 ∣ start space i := by
  induction i with
  | zero => exact Nat.dvd_zero 8
  | succ i ih =>
    refine Nat.dvd_add ih ?_
    show 8 ∣ (space i).getD 0
    rcases hn : space i with _ | n
    · exact Nat.dvd_zero 8
    · exact h i n hn

/-- The two loops write within the buckets just when these are sized right, and then leave
all elements there, with the null values after them. -/
theorem fill_spec (names : List (HashKey V)) (h : IsCacheline cacheline) (hsize : 0 < size)
    (junk : ℕ → Elt V) :
    let space := bucketSpace cacheline size names
    let f := terminate space (fill space size ⟨fun _ => 0, junk, true⟩ names) (List.range size)
    (f.inBounds = true ↔ Sized cacheline size names)
      ∧ (f.inBounds = true → ∀ i < size, bucket size names i ≠ [] →
          (∃ n, space i = some n ∧ load size names i + 8 ≤ n)
            ∧ Filled f.mem (start space i) (bucket size names i)
            ∧ (f.mem (start space i + load size names i)).value = none) := by
  intro space f
  have hspace : ∀ i n, space i = some n → 8 ∣ n ∧ n < 2 ^ 16 := fun i n hn =>
    (bucketSpace_spec h hn).2
  obtain ⟨-, hmem, -, hnull, hin⟩ := terminate_spec space
    (fill space size ⟨fun _ => 0, junk, true⟩ names) (List.range size)
  have hkey : f.inBounds = true → FillInv space size names
      (fill space size ⟨fun _ => 0, junk, true⟩ names)
        ∧ ∀ i < size, ∀ n, space i = some n → load size names i + 8 ≤ n := by
    intro hf
    obtain ⟨h1, h2⟩ := hin.1 hf
    have hinv := (fillInv_nil junk).fill hspace h1
    rw [nil_append] at hinv
    refine ⟨hinv, fun i hi n hn => ?_⟩
    rw [← hinv.test i]
    exact h2 i (mem_range.2 hi) n hn
  refine ⟨⟨fun hf i hi hne => ?_, fun hs => ?_⟩, fun hf i hi hne => ?_⟩
  · -- What is written within an aligned space of 16 bits is less than that aligned.
    obtain ⟨hinv, hend⟩ := hkey hf
    obtain ⟨n, hn, -⟩ := hinv.sized i hne
    obtain ⟨hdvd, -, hlt⟩ := bucketSpace_spec h hn
    have hle := hend i hi n hn
    exact lt_of_le_of_lt (ngxAlign_le h (by omega) hdvd) hlt
  · have hroom : ∀ i, bucket size names i ≠ [] →
        ∃ n, space i = some n ∧ load size names i + 8 ≤ n := by
      intro i hne
      rcases lt_or_ge i size with hi | hi
      · exact bucketSpace_of_sized h hs hi hne
      · exact absurd (bucket_eq_nil_of_le hsize hi) hne
    have hfill := (fillInv_nil junk).inBounds names hspace (fun i hne => by
      rw [nil_append] at hne ⊢
      obtain ⟨n, hn, hle⟩ := hroom i hne
      exact ⟨n, hn, by omega⟩) rfl
    have hinv := (fillInv_nil junk).fill hspace hfill
    refine hin.2 ⟨hfill, fun i _ n hn => ?_⟩
    have hne : bucket size names i ≠ [] := by
      intro hnil
      have := bucketSpace_eq_none cacheline hnil
      rw [show bucketSpace cacheline size names i = some n from hn] at this
      cases this
    obtain ⟨m, hm, hle⟩ := hroom i hne
    rw [hm] at hn
    cases hn
    rw [hinv.test i]
    exact hle
  · obtain ⟨hinv, hend⟩ := hkey hf
    obtain ⟨n, hn, -⟩ := hinv.sized i hne
    have hle := hend i hi n hn
    refine ⟨⟨n, hn, hle⟩, ?_, ?_⟩
    · refine (hinv.filled i).congr (fun r _ => eltSize_pos r) fun x h1 h2 =>
        hmem x fun j hj hj' => ?_
      -- The null values lie after the elements.
      rw [hinv.test j]
      obtain ⟨d, rfl⟩ : ∃ d, x = start space i + d := ⟨x - start space i, by omega⟩
      have hd : d < load size names i := by
        rw [load]
        omega
      by_cases hij : i = j
      · subst hij
        omega
      · obtain ⟨m, hm⟩ := ne_none_iff_exists'.1 hj'
        have hjle := hend j (mem_range.1 hj) m hm
        exact RecordArea.ne_of_area_ne hij (by rw [hn]; simp only [getD_some]; omega)
          (by rw [hm]; simp only [getD_some]; omega)
    · have := hnull i (mem_range.2 hi) (by rw [hn]; simp)
      rwa [hinv.test i] at this

variable {bucketSize : ℕ}

theorem chooseSize_pos {maxSize : ℕ} (h : maxSize ≠ 0) :
    0 < chooseSize names maxSize bucketSize := by
  have hstart : 0 < startSize names.length maxSize bucketSize := by
    simp only [startSize]
    generalize names.length / (bucketSize / 16) = s
    split
    · omega
    · split <;> omega
  simp only [chooseSize]
  rcases hf : (range' (startSize names.length maxSize bucketSize)
    (maxSize + 1 - startSize names.length maxSize bucketSize)).find?
      fun size => fits size bucketSize (fun _ => 0) names with _ | size
  · simpa using Nat.pos_of_ne_zero h
  · have := mem_of_find?_eq_some hf
    rw [mem_range'_1] at this
    simp only [getD_some]
    omega

/-- The size of the hash, of the names and what was configured. -/
def sizeOf (names : List (HashKey V)) (maxSize bucketSize : ℕ) : ℕ :=
  chooseSize names maxSize ((bucketSize + 2 ^ 64 - 8) % 2 ^ 64)

/-- The hash that is returned. -/
theorem ngxHashInit_spec (h : IsCacheline cacheline) {maxSize : ℕ} {junk : ℕ → Elt V}
    {hash : Hash V} (hinit : ngxHashInit cacheline maxSize bucketSize junk names = some hash) :
    hash.size = sizeOf names maxSize bucketSize ∧ 0 < hash.size
      ∧ (hash.inBounds = true ↔ Sized cacheline hash.size names)
      ∧ (hash.inBounds = true → Built hash.size names hash) := by
  rw [ngxHashInit] at hinit
  split at hinit
  · cases hinit
  rename_i hmax
  split at hinit
  · cases hinit
  simp only at hinit
  split at hinit
  · cases hinit
  have hpos : 0 < sizeOf names maxSize bucketSize := chooseSize_pos hmax
  rw [← sizeOf] at hinit
  generalize sizeOf names maxSize bucketSize = size at hinit hpos
  cases hinit
  obtain ⟨h1, h2⟩ := fill_spec names h hpos junk
  refine ⟨rfl, hpos, h1, fun hin => ⟨fun i hi hnil => ?_, fun i hi hne => ?_⟩⟩
  · simp only [if_pos hi, bucketSpace_eq_none cacheline hnil, map_none]
  · obtain ⟨⟨n, hn, hle⟩, hfilled, hnull⟩ := h2 hin i hi hne
    refine ⟨_, by simp only [if_pos hi, hn, map_some]; rfl,
      eight_dvd_start (fun i n hn => (bucketSpace_spec h hn).2.1) i, hfilled, hnull, ?_⟩
    have hbase := RecordArea.base_le_of_lt
      (fun i => (bucketSpace cacheline size names i).getD 0) hi
    simp only [hn, getD_some] at hbase
    show load size names i ≤ RecordArea.base _ size
    omega

/-! ## Searching -/

/-- What a search finds among the names of a bucket. -/
def chainFind : List (HashKey V) → Bytes → Option V
  | [], _ => none
  | name :: names, s =>
    match name.value with
    | none => none
    | some v => if ngxStrlow name.key = s then some v else chainFind names s

variable {rs : List (HashKey V)}

/-- The search goes through the elements up to a null value. -/
theorem findLoop_spec {mem : ℕ → Elt V} {s : Bytes} {o fuel : ℕ}
    (hfilled : Filled mem o rs) (hnull : (mem (o + RecordArea.room ngxHashEltSize rs)).value = none)
    (ho : 8 ∣ o) (hlen : ∀ r ∈ rs, r.key.length < 2 ^ 16) (hfuel : rs.length < fuel) :
    findLoop mem s fuel o = some (chainFind rs s) := by
  induction rs generalizing o fuel with
  | nil =>
    rcases fuel with _ | fuel
    · exact absurd hfuel (Nat.not_lt_zero _)
    rw [RecordArea.room_nil, Nat.add_zero] at hnull
    simp only [findLoop, hnull, chainFind]
  | cons r rs ih =>
    rcases fuel with _ | fuel
    · exact absurd hfuel (Nat.not_lt_zero _)
    obtain ⟨hr, hrest⟩ := hfilled
    have hl : (elt r).len = r.key.length := Nat.mod_eq_of_lt (hlen r mem_cons_self)
    rw [RecordArea.room_cons, ← Nat.add_assoc] at hnull
    have htail := ih hrest hnull (Nat.dvd_add ho (eight_dvd_eltSize r))
      (fun x hx => hlen x (mem_cons_of_mem _ hx)) (Nat.lt_of_succ_lt_succ hfuel)
    simp only [findLoop, chainFind, hr, hl]
    rw [align_next ho, htail]
    simp only [elt]
    rcases r.value with _ | v
    · rfl
    simp only
    -- The names are the same when their lengths are and their bytes.
    have hsame : (s.length = r.key.length ∧ s = (ngxStrlow r.key).take s.length)
        ↔ ngxStrlow r.key = s := by
      constructor
      · rintro ⟨h1, h2⟩
        rw [h2, take_of_length_le (by rw [ngxStrlow, length_map]; omega)]
      · rintro rfl
        exact ⟨length_map .., by rw [take_of_length_le (Nat.le_refl _)]⟩
    simp only [hsame]
    split <;> rfl

/-- The names of a bucket that is sized right are short. -/
theorem length_lt_of_sized (h : IsCacheline cacheline) (hs : Sized cacheline size names)
    (hi : i < size) {r : HashKey V} (hr : r ∈ bucket size names i) : r.key.length < 2 ^ 16 := by
  have hlt := hs i hi (ne_nil_of_mem hr)
  have hle := le_ngxAlign h (8 + load size names i)
  have hload := RecordArea.room_le_of_sublist ngxHashEltSize (singleton_sublist.2 hr)
  have hwritten := written_le_eltSize r
  rw [RecordArea.room_cons] at hload
  rw [load] at hle hlt
  omega

/-- A search in a hash that is built right. -/
theorem ngxHashFind_spec (h : IsCacheline cacheline) {hash : Hash V} (hpos : 0 < hash.size)
    (hs : Sized cacheline hash.size names) (hb : Built hash.size names hash) (key : ℕ) (s : Bytes) :
    ngxHashFind hash key s = some (chainFind (bucket hash.size names (key % hash.size)) s) := by
  have hi := Nat.mod_lt key hpos
  rw [ngxHashFind]
  by_cases hne : bucket hash.size names (key % hash.size) = []
  · rw [hb.empty _ hi hne, hne]
    rfl
  · obtain ⟨o, ho, ho8, hfilled, hnull, hroom⟩ := hb.filled _ hi hne
    rw [ho]
    refine findLoop_spec hfilled hnull ho8 (fun r hr => length_lt_of_sized h hs hi hr) ?_
    have := RecordArea.length_le_room ngxHashEltSize
      (bucket hash.size names (key % hash.size)) fun r _ => eltSize_pos r
    rw [load] at hroom
    omega

/-! ## What is found -/

theorem chainFind_eq_some {s : Bytes} {v : V}
    (h : chainFind rs s = some v) : ∃ r ∈ rs, ngxStrlow r.key = s ∧ r.value = some v := by
  induction rs with
  | nil => cases h
  | cons r rs ih =>
    rw [chainFind] at h
    rcases hv : r.value with _ | v'
    · simp [hv] at h
    · rw [hv] at h
      simp only at h
      split at h
      · cases h
        exact ⟨r, mem_cons_self, ‹_›, hv⟩
      · obtain ⟨x, hx, h1, h2⟩ := ih h
        exact ⟨x, mem_cons_of_mem _ hx, h1, h2⟩

/-- All values are found when the names without one are last. -/
theorem chainFind_of_pairwise (hnodup : (rs.map fun r => ngxStrlow r.key).Nodup)
    (hnulls : rs.Pairwise fun n m => n.value = none → m.value = none) {r : HashKey V} {v : V}
    (hr : r ∈ rs) (hv : r.value = some v) : chainFind rs (ngxStrlow r.key) = some v := by
  induction rs with
  | nil => cases hr
  | cons x rs ih =>
    obtain ⟨hx, hnodup'⟩ := nodup_cons.1 hnodup
    obtain ⟨hnull, hnulls'⟩ := pairwise_cons.1 hnulls
    rw [chainFind]
    rcases mem_cons.1 hr with rfl | hr
    · rw [hv]
      exact if_pos rfl
    · rcases hxv : x.value with _ | v'
      · rw [hnull r hr hxv] at hv
        cases hv
      · have hne : ngxStrlow x.key ≠ ngxStrlow r.key := fun e =>
          hx (mem_map.2 ⟨r, hr, e.symm⟩)
        simp only [if_neg hne]
        exact ih hnodup' hnulls' hr

/-- If all values are found the names without one are last. -/
theorem pairwise_of_chainFind (hnodup : (rs.map fun r => ngxStrlow r.key).Nodup)
    (h : ∀ r ∈ rs, ∀ v, r.value = some v → chainFind rs (ngxStrlow r.key) = some v) :
    rs.Pairwise fun n m => n.value = none → m.value = none := by
  induction rs with
  | nil => exact .nil
  | cons x rs ih =>
    obtain ⟨hx, hnodup'⟩ := nodup_cons.1 hnodup
    refine pairwise_cons.2 ⟨fun m hm hxv => ?_, ih hnodup' fun r hr v hv => ?_⟩
    · rcases hmv : m.value with _ | v
      · rfl
      · have := h m (mem_cons_of_mem _ hm) v hmv
        rw [chainFind, hxv] at this
        cases this
    · have := h r (mem_cons_of_mem _ hr) v hv
      rw [chainFind] at this
      rcases hxv : x.value with _ | v'
      · simp [hxv] at this
      · have hne : ngxStrlow x.key ≠ ngxStrlow r.key := fun e =>
          hx (mem_map.2 ⟨r, hr, e.symm⟩)
        simpa [hxv, hne] using this

/-- The names that were not removed. -/
def live (names : List (HashKey V)) : List (HashKey V) := names.filter fun name => !name.removed

/-- A bucket is a part of the live names. -/
theorem bucket_sublist (i : ℕ) : (bucket size names i).Sublist (live names) := by
  have hfilter : bucket size names i
      = (live names).filter fun name => decide (name.keyHash % size = i) := by
    rw [bucket, live, List.filter_filter]
    congr 1
    funext name
    exact Bool.and_comm ..
  rw [hfilter]
  exact filter_sublist

theorem mem_bucket {name : HashKey V} :
    name ∈ bucket size names i ↔ name ∈ live names ∧ name.keyHash % size = i := by
  simp [bucket, live, and_assoc]

/-- What a hash of names should do: nothing is written beyond the space that was sized for it,
every name with a value is found with it, and nothing else is found. -/
structure Correct (hash : Hash V) (key : Bytes → ℕ) (names : List (HashKey V)) : Prop where
  inBounds : hash.inBounds = true
  found : ∀ name ∈ live names, ∀ v, name.value = some v →
    ngxHashFind hash (key (ngxStrlow name.key)) (ngxStrlow name.key) = some (some v)
  absent : ∀ s, (∀ name ∈ live names, name.value ≠ none → ngxStrlow name.key ≠ s) →
    ngxHashFind hash (key s) s = some none

/-- **The hash of names.**  For distinct names, hashed as a search hashes its name, the hash
that `ngx_hash_init` returns is correct just when the counters of its buckets stay below
64 Kbytes and no name without a value stands before one with a value in its bucket. -/
theorem correct_iff (h : IsCacheline cacheline) {maxSize bucketSize : ℕ} {junk : ℕ → Elt V}
    {hash : Hash V} (hinit : ngxHashInit cacheline maxSize bucketSize junk names = some hash)
    {key : Bytes → ℕ} (hkey : ∀ name ∈ live names, name.keyHash = key (ngxStrlow name.key))
    (hnodup : ((live names).map fun name => ngxStrlow name.key).Nodup) : Correct hash key names ↔
      Sized cacheline (sizeOf names maxSize bucketSize) names
        ∧ NullsLast (sizeOf names maxSize bucketSize) names := by
  obtain ⟨hsize, hpos, hin, hbuilt⟩ := ngxHashInit_spec h hinit
  rw [← hsize]
  have hnodup' : ∀ i, ((bucket hash.size names i).map fun name => ngxStrlow name.key).Nodup :=
    fun i => hnodup.sublist ((bucket_sublist i).map _)
  constructor
  · intro hc
    have hs := hin.1 hc.inBounds
    refine ⟨hs, fun i hi => pairwise_of_chainFind (hnodup' i) fun r hr v hv => ?_⟩
    obtain ⟨hlive, hmod⟩ := mem_bucket.1 hr
    have hfound := hc.found r hlive v hv
    rw [ngxHashFind_spec h hpos hs (hbuilt hc.inBounds), ← hkey r hlive, hmod] at hfound
    exact Option.some.inj hfound
  · rintro ⟨hs, hnulls⟩
    have hb := hin.2 hs
    refine ⟨hb, fun r hr v hv => ?_, fun s hno => ?_⟩
    · rw [ngxHashFind_spec h hpos hs (hbuilt hb), ← hkey r hr]
      congr 1
      exact chainFind_of_pairwise (hnodup' _) (hnulls _ (Nat.mod_lt _ hpos))
        (mem_bucket.2 ⟨hr, rfl⟩) hv
    · rw [ngxHashFind_spec h hpos hs (hbuilt hb)]
      rcases hf : chainFind (bucket hash.size names (key s % hash.size)) s with _ | v
      · rfl
      · obtain ⟨r, hr, h1, h2⟩ := chainFind_eq_some hf
        exact absurd h1 (hno r (mem_bucket.1 hr).1 (by rw [h2]; simp))

end

/-- Two names that fit a bucket, the first in upper case, and one that was removed. -/
def twoNames : List (HashKey ℕ) :=
  [⟨[0x41, 0x62], false, ngxHashKeyLc [0x41, 0x62], some 1⟩, ⟨[0x61], true, 0, some 7⟩,
    ⟨[0x63], false, ngxHashKeyLc [0x63], some 2⟩]

theorem correct_twoNames :
    ∃ hash, ngxHashInit 64 512 64 (fun _ => ⟨none, 0, []⟩) twoNames = some hash
      ∧ Correct hash ngxHashKey twoNames := by
  obtain ⟨hash, hinit⟩ := isSome_iff_exists.1 (show
    (ngxHashInit 64 512 64 (fun _ => ⟨none, 0, []⟩) twoNames).isSome by decide)
  have hline : IsCacheline 64 := ⟨by decide, by decide⟩
  refine ⟨hash, hinit, (correct_iff hline hinit (by decide) (by decide)).2 ⟨?_, ?_⟩⟩
  · show ∀ i < _, _
    decide
  · show ∀ i < _, _
    decide

/-- 4092 names of two bytes. -/
def manyNames : List (HashKey ℕ) :=
  (List.range 4092).map fun i =>
    let key := [UInt8.ofNat (i / 64), UInt8.ofNat (i % 64)]
    ⟨key, false, ngxHashKey key, some i⟩

theorem sizeOf_manyNames : sizeOf manyNames 1 64 = 1 := by
  have hlen : manyNames.length = 4092 := by simp [manyNames]
  rw [sizeOf, chooseSize, hlen]
  rfl

theorem load_manyNames : load 1 manyNames 0 = 65472 := by
  have hall : bucket 1 manyNames 0 = manyNames := by
    rw [bucket, filter_eq_self]
    intro name hname
    obtain ⟨i, -, rfl⟩ := List.mem_map.1 hname
    simp [Nat.mod_one]
  have hsize : manyNames.map ngxHashEltSize = replicate 4092 16 := by
    rw [manyNames, eq_replicate_iff]
    simp [ngxHashEltSize, ngxAlign]
  rw [load, hall, RecordArea.room, hsize, sum_replicate_nat]

/-- They are distinct, and `ngx_hash_init` counts the 64 Kbytes of their bucket as nothing: it
returns a hash of one bucket, but writes the names where no space was sized for them. -/
theorem not_inBounds_manyNames : (manyNames.map HashKey.key).Nodup ∧
      (ngxHashInit 64 1 64 (fun _ => ⟨none, 0, []⟩) manyNames).map Hash.inBounds = some false := by
  generalize (fun _ : ℕ => (⟨none, 0, []⟩ : Elt ℕ)) = junk
  constructor
  · rw [manyNames, List.map_map]
    refine List.Nodup.map_on (fun i hi j hj h => ?_) nodup_range
    rw [mem_range] at hi hj
    simp only [Function.comp, List.cons.injEq, and_true] at h
    have h1 := congrArg UInt8.toNat h.1
    have h2 := congrArg UInt8.toNat h.2
    rw [UInt8.toNat_ofNat', UInt8.toNat_ofNat'] at h1 h2
    omega
  · have hline : IsCacheline 64 := ⟨by decide, by decide⟩
    rcases hinit : ngxHashInit 64 1 64 junk manyNames with _ | hash
    · -- No element is larger than the bucket size.
      rw [ngxHashInit, if_neg (by decide), if_neg] at hinit
      · simp at hinit
      · rw [List.any_eq_true]
        rintro ⟨name, hname, hlt⟩
        obtain ⟨i, -, rfl⟩ := List.mem_map.1 hname
        simp [ngxHashEltSize, ngxAlign] at hlt
    · obtain ⟨hsize, -, hin, -⟩ := ngxHashInit_spec hline hinit
      rw [hsize, sizeOf_manyNames] at hin
      have hnot : ¬ Sized 64 1 manyNames := by
        intro hs
        have hne : bucket 1 manyNames 0 ≠ [] := by
          intro hnil
          have hload := load_manyNames
          rw [load, hnil, RecordArea.room_nil] at hload
          omega
        have hlt := hs 0 (by omega) hne
        rw [load_manyNames] at hlt
        exact absurd hlt (by decide)
      rw [map_some, Option.some.injEq, ← Bool.not_eq_true]
      exact mt hin.1 hnot

end HashTable
