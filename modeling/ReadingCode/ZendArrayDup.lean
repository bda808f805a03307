/-
# Duplicating an array

`zend_array_dup` of `Zend/zend_hash.c`.  The values of a table in the hash layout may be
indirect, and an indirect value may be undefined: such an element is not copied.  A reference
that only the table holds is copied as the value it refers to.

The copy of a table in the hash layout has no holes: behind the first element that is not copied
the others come to lower indices.
-/
import ReadingCode.ArrayFunctions

namespace ZendHash

variable {K V : Type}

/-! ## Values -/

/-- A value that is not `IS_UNDEF`; `source` says that the reference is to the table itself. -/
inductive Zval (V : Type) where
  | data (v : V)
  | reference (refcount : ℕ) (source : Bool) (v : V)

/-- What is in a bucket; an indirect value may lead to `IS_UNDEF`. -/
inductive Slot (V : Type) where
  | zval (z : Zval V)
  | indirect (target : Option (Zval V))

/-- The copy of a value: a reference is taken off if nobody else has it, and else counted. -/
def Zval.dup : Zval V → Zval V
  | .data v => .data v
  | .reference refcount source v =>
    if refcount = 1 ∧ source = false then .data v else .reference (refcount + 1) source v

/-- The copy of what is in a bucket. -/
def Slot.dup : Slot V → Slot V
  | .zval z => .zval z.dup
  | .indirect target => .indirect target

/-- The value that is there, behind an indirect one. -/
def Slot.value : Slot V → Option (Zval V)
  | .zval z => some z
  | .indirect target => target

/-! ## Elements -/

/-- `zend_array_dup_element`: what is copied, or none if it returns 0. -/
def dupElement (packed withHoles : Bool) (val : Option (Slot V)) : Option (Option (Slot V)) :=
  let data : Option (Slot V) :=
    match packed, val with
    | false, some (.indirect target) => target.map .zval
    | _, val => val
  match withHoles, packed, val, data with
  | true, _, _, none => none
  | false, false, some (.indirect _), none => none
  | _, _, _, data => some (data.map Slot.dup)

/-- The bucket of the source is copied to the bucket `j`, in the chain of its hash. -/
def HashTable.copyBucket (target : HashTable K (Slot V)) (j : ℕ) (p : Bucket K (Slot V))
    (val : Option (Slot V)) : HashTable K (Slot V) :=
  let q : Bucket K (Slot V) := { target.arData j with val := val, h := p.h, key := p.key }
  HashTable.link { target with arData := Function.update target.arData j q } j

section

variable (source : HashTable K (Slot V)) (junk : ℕ → Bucket K (Slot V)) (withHoles : Bool)

/-- `zend_array_dup_packed_elements` -/
def dupPackedElements : ℕ → Bucket K (Slot V) := fun i =>
  if i < source.nNumUsed then
    match dupElement true withHoles (source.arData i).val with
    | some val => { junk i with val := val, h := (source.arData i).h, key := none }
    | none => if withHoles then { junk i with val := none } else junk i
  else junk i

/-- The inner loop of `zend_array_dup_elements`, with `n` buckets to go from `i` on and the next
free bucket `j`. -/
def dupCompact : ℕ → ℕ → ℕ → HashTable K (Slot V) → HashTable K (Slot V) × ℕ
  | 0, _, j, target => (target, j)
  | n + 1, i, j, target =>
    match dupElement false withHoles (source.arData i).val with
    | some val =>
      let target := target.copyBucket j (source.arData i) val
      dupCompact n (i + 1) (j + 1) { target with
        nInternalPointer := if source.nInternalPointer = i then j else target.nInternalPointer }
    | none => dupCompact n (i + 1) j target

/-- `zend_array_dup_elements`, with `n` buckets to go from `i` on. -/
def dupElements : ℕ → ℕ → HashTable K (Slot V) → HashTable K (Slot V) × ℕ
  | 0, i, target => (target, i)
  | n + 1, i, target =>
    match dupElement false withHoles (source.arData i).val with
    | some val => dupElements n (i + 1) (target.copyBucket i (source.arData i) val)
    | none => dupCompact source withHoles n (i + 1) i target

end

/-! ## Tables -/

/-- An internal pointer past the end is set to the first element. -/
def HashTable.pointFirst (target : HashTable K (Slot V)) : HashTable K (Slot V) :=
  if target.nNumOfElements > 0 ∧ target.nInternalPointer = HT_INVALID_IDX then
    { target with nInternalPointer := target.nextFrom target.nNumUsed 0 }
  else target

/-- `zend_array_dup`; `immutable` is the flag `IS_ARRAY_IMMUTABLE` of the source. -/
def arrayDup (junk : ℕ → Bucket K (Slot V)) (immutable : Bool)
    (source : HashTable K (Slot V)) : HashTable K (Slot V) :=
  let withHoles : Bool := source.nNumUsed ≠ source.nNumOfElements
  if source.nNumUsed = 0 then
    { source with
      packed := false, initialized := false, nTableMask := HT_MIN_MASK
      nNumUsed := 0, nNumOfElements := 0, nNextFreeElement := 0
      nInternalPointer := HT_INVALID_IDX, arData := junk, hash := fun _ => HT_INVALID_IDX }
  else if immutable then
    HashTable.pointFirst { source with arData := realloc junk source.nNumUsed source.arData }
  else if source.packed then
    HashTable.pointFirst { source with
      arData := dupPackedElements source junk withHoles, hash := fun _ => HT_INVALID_IDX }
  else
    let r := dupElements source withHoles source.nNumUsed 0
      { source with arData := junk, hash := fun _ => HT_INVALID_IDX }
    { r.1 with
      nNumUsed := r.2, nNumOfElements := r.2
      nInternalPointer :=
        if r.2 > 0 ∧ r.1.nInternalPointer = HT_INVALID_IDX then 0 else r.1.nInternalPointer }

end ZendHash

/-!
# What a duplicated array holds

The copy of a table holds the defined elements of the source in their order.  The copied slots
are those of the source, with holes also where an indirect value is undefined, and in the hash
layout without any holes.  The internal pointer goes along, unless it is at an element that is
not copied; past the end it is set to the first element.
-/

open SlotList

namespace ZendHash

open Option

variable {K V : Type} {hash : K → ℕ} {source target : HashTable K (Slot V)}
  {junk : ℕ → Bucket K (Slot V)} {i j n p : ℕ} {e : Entry K (Slot V)}

/-! ## Elements -/

/-- The copy of an element, if it is defined. -/
def Entry.copy (e : Entry K (Slot V)) : Option (Entry K (Slot V)) :=
  e.val.value.map fun z => ⟨e.key, e.h, .zval z.dup⟩

/-- The slots of the source, as they are copied. -/
def dupSlots (source : HashTable K (Slot V)) : List (Option (Entry K (Slot V))) :=
  source.slots.map fun x => x.bind Entry.copy

theorem length_dupSlots (source : HashTable K (Slot V)) :
    (dupSlots source).length = source.nNumUsed := by
  rw [dupSlots, List.length_map, HashTable.length_slots]

theorem getElem?_dupSlots (hi : i < source.nNumUsed) :
    (dupSlots source)[i]? = some ((source.arData i).entry.bind Entry.copy) := by
  rw [dupSlots, List.getElem?_map, HashTable.slots, getElem?_cells hi]
  rfl

variable {b : Bucket K (Slot V)}

/-- A defined element is copied. -/
theorem dupElement_some (withHoles : Bool) (h : b.entry.bind Entry.copy = some e) :
    dupElement false withHoles b.val = some (some e.val) ∧ e.key = b.key ∧ e.h = b.h := by
  obtain ⟨e0, he0, hcopy⟩ := bind_eq_some_iff.mp h
  obtain ⟨hval, hkey, hh⟩ := entry_eq_some.mp he0
  obtain ⟨z, hz, rfl⟩ := map_eq_some_iff.mp hcopy
  refine ⟨?_, hkey.symm, hh.symm⟩
  rw [hval]
  rcases hslot : e0.val with z0 | x
  · rw [hslot] at hz
    cases hz
    cases withHoles <;> rfl
  · rw [hslot] at hz
    cases hz
    cases withHoles <;> rfl

/-- An element that is not defined is not, nor is a hole where there are some. -/
theorem dupElement_none {withHoles : Bool} (hholes : withHoles = false → b.val.isSome = true)
    (h : b.entry.bind Entry.copy = none) : dupElement false withHoles b.val = none := by
  rcases hval : b.val with _ | slot
  · cases withHoles with
    | true => rfl
    | false =>
      have hsome := hholes rfl
      rw [hval] at hsome
      cases hsome
  · have hentry : b.entry = some ⟨b.key, b.h, slot⟩ := entry_eq_some.mpr ⟨hval, rfl, rfl⟩
    rw [hentry, bind_some, Entry.copy, map_eq_none_iff] at h
    cases slot with
    | zval z => cases h
    | indirect x =>
      cases h
      cases withHoles <;> rfl

/-! ## The hash layout -/

theorem copyBucket_eq (target : HashTable K (Slot V)) (j : ℕ) (p : Bucket K (Slot V))
    (val : Option (Slot V)) : target.copyBucket j p val = { target with
      arData := Function.update target.arData j
        { val := val, next := target.hash (target.nIndex p.h), h := p.h, key := p.key }
      hash := Function.update target.hash (target.nIndex p.h) j } := by
  simp only [HashTable.copyBucket, HashTable.link, HashTable.nIndex, Function.update_self,
    Function.update_idem]

/-- The copy when the buckets before `i` have been copied to the first `j`. -/
structure Copying (source : HashTable K (Slot V)) (i j : ℕ) (target : HashTable K (Slot V)) :
    Prop where
  rest : target = { source with
    arData := target.arData, hash := target.hash, nInternalPointer := target.nInternalPointer }
  done : cells target.arData j = compacted ((dupSlots source).take i)
  chained : Chained source.nTableMask target.arData target.hash j
  pointer : target.nInternalPointer = moved (dupSlots source) i source.nInternalPointer

namespace Copying

theorem rank_eq (h : Copying source i j target) : j = rank (dupSlots source) i := by
  have hlen := congrArg List.length h.done
  rw [length_cells, length_compacted] at hlen
  exact hlen

theorem mask (h : Copying source i j target) : target.nTableMask = source.nTableMask := by
  rw [h.rest]

/-- An element that is not copied is passed. -/
theorem pass (h : Copying source i j target) (hi : i < source.nNumUsed)
    (hnone : (source.arData i).entry.bind Entry.copy = none)
    (hp : source.nInternalPointer ≠ i) : Copying source (i + 1) j target where
  rest := h.rest
  done := by rw [h.done, compacted_take_succ_of_hole (by rw [getElem?_dupSlots hi, hnone])]
  chained := h.chained
  pointer := by rw [h.pointer, moved_succ_of_ne hp]

/-- An element is copied. -/
theorem step (h : Copying source i j target) (hi : i < source.nNumUsed)
    (hused : source.nNumUsed ≤ HT_INVALID_IDX)
    (he : (source.arData i).entry.bind Entry.copy = some e) (p : ℕ)
    (hp : p = moved (dupSlots source) (i + 1) source.nInternalPointer) :
    Copying source (i + 1) (j + 1)
      { target.copyBucket j (source.arData i) (some e.val) with nInternalPointer := p } := by
  have hle : j ≤ i := by
    rw [h.rank_eq]
    exact rank_le ..
  obtain ⟨-, hkey, hh⟩ := dupElement_some true he
  rw [copyBucket_eq]
  refine ⟨?_, ?_, ?_, hp⟩
  · have hrest : ∀ arData hash, ({ target with
        arData := arData, hash := hash, nInternalPointer := p } : HashTable K (Slot V))
        = { source with arData := arData, hash := hash, nInternalPointer := p } := by
      intro arData hash
      rw [h.rest]
    exact hrest ..
  · have hentry : (⟨some e.val, target.hash (target.nIndex (source.arData i).h),
        (source.arData i).h, (source.arData i).key⟩ : Bucket K (Slot V)).entry = some e :=
      entry_eq_some.mpr ⟨rfl, hkey.symm, hh.symm⟩
    dsimp only
    rw [compacted_take_succ_of_getElem? (by rw [getElem?_dupSlots hi, he]), cells_succ,
      cells_update_of_ge le_rfl, Function.update_self, hentry, h.done]
  · have hlink := chained_link (b := ⟨some e.val, 0, (source.arData i).h,
      (source.arData i).key⟩) h.chained (by omega) rfl
    rw [HashTable.nIndex_eq, h.mask]
    exact hlink

end Copying

/-- The internal pointer is at an element that is copied, or past the end. -/
def PointerCopied (source : HashTable K (Slot V)) : Prop :=
  source.nInternalPointer = HT_INVALID_IDX ∨
    Occupied (dupSlots source) source.nInternalPointer

theorem PointerCopied.ne (hp : PointerCopied source) (hi : i < source.nNumUsed)
    (hused : source.nNumUsed ≤ HT_INVALID_IDX)
    (hnone : (source.arData i).entry.bind Entry.copy = none) : source.nInternalPointer ≠ i := by
  rintro rfl
  rcases hp with hp | ⟨e, he⟩
  · omega
  · rw [getElem?_dupSlots hi, hnone] at he
    cases he

variable {withHoles : Bool}

theorem dupCompact_spec (hused : source.nNumUsed ≤ HT_INVALID_IDX) (hp : PointerCopied source)
    (hholes : withHoles = false → ∀ t < source.nNumUsed, source.live t = true)
    (hn : i + n = source.nNumUsed) (h : Copying source i j target) :
    Copying source source.nNumUsed (dupCompact source withHoles n i j target).2
      (dupCompact source withHoles n i j target).1 := by
  induction n generalizing i j target with
  | zero =>
    subst hn
    exact h
  | succ n ih =>
    have hi : i < source.nNumUsed := by omega
    rw [dupCompact]
    rcases hcopy : (source.arData i).entry.bind Entry.copy with _ | e
    · rw [dupElement_none (fun hw => hholes hw i hi) hcopy]
      exact ih (by omega) (h.pass hi hcopy (hp.ne hi hused hcopy))
    · rw [(dupElement_some withHoles hcopy).1]
      refine ih (by omega) (h.step hi hused hcopy _ ?_)
      rw [copyBucket_eq]
      rw [h.pointer, moved_succ, ← h.rank_eq]
      by_cases hpi : source.nInternalPointer = i
      · rw [if_pos hpi, if_pos (moved_eq_iff.mpr hpi)]
      · rw [if_neg hpi, if_neg (mt moved_eq_iff.mp hpi)]

theorem dupElements_spec (hused : source.nNumUsed ≤ HT_INVALID_IDX) (hp : PointerCopied source)
    (hholes : withHoles = false → ∀ t < source.nNumUsed, source.live t = true)
    (hn : i + n = source.nNumUsed) (h : Copying source i i target)
    (hbefore : ∀ k < i, Occupied (dupSlots source) k) :
    Copying source source.nNumUsed (dupElements source withHoles n i target).2
      (dupElements source withHoles n i target).1 := by
  induction n generalizing i target with
  | zero =>
    subst hn
    exact h
  | succ n ih =>
    have hi : i < source.nNumUsed := by omega
    rw [dupElements]
    rcases hcopy : (source.arData i).entry.bind Entry.copy with _ | e
    · rw [dupElement_none (fun hw => hholes hw i hi) hcopy]
      exact dupCompact_spec hused hp hholes (by omega) (h.pass hi hcopy (hp.ne hi hused hcopy))
    · rw [(dupElement_some withHoles hcopy).1]
      have hbefore' : ∀ k < i + 1, Occupied (dupSlots source) k := by
        intro k hk
        rcases Nat.lt_succ_iff_lt_or_eq.mp hk with hk | rfl
        · exact hbefore k hk
        · exact ⟨e, by rw [getElem?_dupSlots hi, hcopy]⟩
      -- up to the first element that is not copied the internal pointer stays
      have hstay : ∀ m ≤ i + 1, moved (dupSlots source) m source.nInternalPointer
          = source.nInternalPointer := by
        intro m hm
        rcases lt_or_ge source.nInternalPointer m with hlt | hge
        · exact moved_eq_self fun k hk => hbefore' k (by omega)
        · exact moved_of_le hge
      have hpointer : (target.copyBucket i (source.arData i) (some e.val)).nInternalPointer
          = moved (dupSlots source) (i + 1) source.nInternalPointer := by
        rw [copyBucket_eq]
        rw [h.pointer, hstay i (Nat.le_succ i), hstay (i + 1) le_rfl]
      exact ih (by omega) (h.step hi hused hcopy _ hpointer) hbefore'

/-! ## What is kept -/

/-- The value that is read. -/
def Zval.read : Zval V → V
  | .data v => v
  | .reference _ _ v => v

/-- The key of an element and the value that is read there, if it is defined. -/
def Entry.read (e : Entry K (Slot V)) : Option ((K ⊕ ℕ) × V) :=
  e.val.value.map fun z => (e.name, z.read)

@[simp] theorem Zval.read_dup (z : Zval V) : z.dup.read = z.read := by
  cases z with
  | data v => rfl
  | reference refcount source v =>
    rw [Zval.dup]
    split_ifs <;> rfl

/-- Elements are copied or left out: a copy has the key of its element, and what is read there
is as before. -/
structure Faithful (φ : Entry K (Slot V) → Option (Entry K (Slot V))) : Prop where
  key : ∀ e e', φ e = some e' → e'.key = e.key ∧ e'.h = e.h
  read : ∀ e, (φ e).bind Entry.read = e.read

theorem faithful_copy : Faithful (Entry.copy (K := K) (V := V)) where
  key e e' h := by
    obtain ⟨z, -, rfl⟩ := map_eq_some_iff.mp h
    exact ⟨rfl, rfl⟩
  read e := by
    rw [Entry.copy, Entry.read]
    rcases e.val.value with _ | z
    · rfl
    · rw [map_some, bind_some, Entry.read, Slot.value, map_some, Zval.read_dup]
      rfl

theorem faithful_some : Faithful (some : Entry K (Slot V) → Option (Entry K (Slot V))) where
  key e e' h := by
    cases h
    exact ⟨rfl, rfl⟩
  read _ := rfl

/-- An element of a packed table is copied, and an indirect one stays indirect. -/
def Entry.dup (e : Entry K (Slot V)) : Entry K (Slot V) := ⟨e.key, e.h, e.val.dup⟩

theorem faithful_dup : Faithful fun e : Entry K (Slot V) => some e.dup where
  key e e' h := by
    cases h
    exact ⟨rfl, rfl⟩
  read e := by
    rw [bind_some, Entry.read, Entry.read, Entry.dup]
    cases e.val with
    | zval z =>
      rw [Slot.dup, Slot.value, map_some, Zval.read_dup]
      rfl
    | indirect x => rfl

variable {φ : Entry K (Slot V) → Option (Entry K (Slot V))}

theorem Faithful.name (hφ : Faithful φ)
    {e' : Entry K (Slot V)} (h : φ e = some e') : e'.name = e.name := by
  obtain ⟨hkey, hh⟩ := hφ.key e e' h
  rw [Entry.name, Entry.name, hkey, hh]

theorem Faithful.filterMap_read (hφ : Faithful φ) (l : List (Entry K (Slot V))) :
    (l.filterMap φ).filterMap Entry.read = l.filterMap Entry.read := by
  rw [List.filterMap_filterMap]
  exact congrArg (fun f => l.filterMap f) (funext hφ.read)

/-- The keys of the copies are keys of the elements, in their order. -/
theorem Faithful.sublist_names (hφ : Faithful φ) (l : List (Entry K (Slot V))) :
    ((l.filterMap φ).map Entry.name).Sublist (l.map Entry.name) := by
  induction l with
  | nil => exact List.Sublist.refl _
  | cons e l ih =>
    rcases he : φ e with _ | e'
    · rw [List.filterMap_cons_none he]
      exact ih.cons _
    · rw [List.filterMap_cons_some he, List.map_cons, hφ.name he]
      exact ih.cons_cons _

/-! ## Copies of a table -/

/-- What a copy of a table has: the copied elements in their order, in no more buckets than the
source, and an internal pointer that has the copies of what it had to visit. -/
structure Copies (φ : Entry K (Slot V) → Option (Entry K (Slot V)))
    (source target : HashTable K (Slot V)) : Prop where
  faithful : Faithful φ
  size : target.nTableSize = source.nTableSize
  used : target.nNumUsed ≤ source.nNumUsed
  count : target.nNumOfElements = target.entries.length
  entries : target.entries = source.entries.filterMap φ
  stands : target.Stands target.nInternalPointer
  visit : target.visit target.nInternalPointer =
    if source.nInternalPointer = HT_INVALID_IDX then target.entries
    else (source.visit source.nInternalPointer).filterMap φ

theorem Copies.listed
    (h : Copies φ source target) (hl : source.Listed hash) : target.Listed hash where
  size_pos := by
    rw [h.size]
    exact hl.size_pos
  used_le := by
    rw [h.size]
    exact le_trans h.used hl.used_le
  size_lt := by
    rw [h.size]
    exact hl.size_lt
  count := h.count
  nodup := by
    rw [h.entries]
    exact (h.faithful.sublist_names _).nodup hl.nodup
  hashed e he k hk := by
    rw [h.entries] at he
    obtain ⟨e0, he0, hφ⟩ := List.mem_filterMap.mp he
    obtain ⟨hkey, hh⟩ := h.faithful.key e0 e hφ
    rw [hkey] at hk
    rw [hh]
    exact hl.hashed e0 he0 k hk
  stands := h.stands

/-! ## Buckets that stay where they are -/

section

variable {g : Entry K (Slot V) → Entry K (Slot V)}

theorem pointFirst_eq (target : HashTable K (Slot V)) :
    ∃ p, target.pointFirst = { target with nInternalPointer := p } := by
  rw [HashTable.pointFirst]
  split_ifs
  · exact ⟨_, rfl⟩
  · exact ⟨target.nInternalPointer, rfl⟩

/-- The first element is where all of them are still to be visited. -/
theorem visit_nextFrom_zero (target : HashTable K (Slot V)) :
    target.visit (target.nextFrom target.nNumUsed 0) = target.entries := by
  obtain ⟨-, hholes⟩ := nextFrom_spec target target.nNumUsed 0
  symm
  refine visit_eq_of_holes (Nat.zero_le _) fun k hk hlt hocc => ?_
  obtain ⟨hused, hlive⟩ := HashTable.occupied_slots.mp hocc
  rw [hholes k hk (by omega) hlt] at hlive
  cases hlive

/-- The elements are changed in place, and the internal pointer is set to the first one if it is
past the end. -/
theorem pointFirst_copies (hg : Faithful fun e => some (g e)) (hl : source.Listed hash)
    (hslots : target.slots = source.slots.map (Option.map g))
    (hsize : target.nTableSize = source.nTableSize)
    (hcount : target.nNumOfElements = source.nNumOfElements)
    (hp : target.nInternalPointer = source.nInternalPointer) :
    Copies (fun e => some (g e)) source target.pointFirst := by
  have hfilter : ∀ l : List (Entry K (Slot V)), l.filterMap (fun e => some (g e)) = l.map g :=
    fun l => congrFun List.filterMap_eq_map l
  have hvisit : ∀ p, target.visit p = (source.visit p).map g := by
    intro p
    rw [HashTable.visit, hslots]
    exact visit_map g _ p
  have hused : target.nNumUsed = source.nNumUsed := by
    rw [← HashTable.length_slots, hslots, List.length_map, HashTable.length_slots]
  have hentries : target.entries = source.entries.map g := hvisit 0
  have helements : target.nNumOfElements = target.entries.length := by
    rw [hcount, hl.count, hentries, List.length_map]
  have hinvalid : source.visit HT_INVALID_IDX = [] :=
    HashTable.visit_invalid (le_of_lt hl.used_lt)
  rw [HashTable.pointFirst]
  by_cases hfirst : target.nNumOfElements > 0 ∧ target.nInternalPointer = HT_INVALID_IDX
  · rw [if_pos hfirst]
    refine ⟨hg, hsize, le_of_eq hused, helements, ?_, ?_, ?_⟩
    · rw [hfilter]
      exact hentries
    · exact stands_nextFrom target (.inl (le_of_eq (zero_add _)))
    · rw [if_pos (hp.symm.trans hfirst.2)]
      exact visit_nextFrom_zero target
  · rw [if_neg hfirst]
    refine ⟨hg, hsize, le_of_eq hused, helements, ?_, ?_, ?_⟩
    · rw [hfilter]
      exact hentries
    · rw [HashTable.Stands, hslots, hp]
      exact hl.stands.imp_right (occupied_map g).mpr
    · rw [hvisit, hp]
      by_cases hend : source.nInternalPointer = HT_INVALID_IDX
      · -- past the end of a table without elements
        have hzero : target.entries = [] := by
          apply List.eq_nil_of_length_eq_zero
          rw [← helements]
          by_contra hpos
          exact hfirst ⟨Nat.pos_of_ne_zero hpos, hp.trans hend⟩
        rw [hend, hinvalid, hzero]
        rfl
      · rw [if_neg hend, hfilter]

/-- What else the invariant says does not depend on the internal pointer. -/
theorem pointFirst_valid (hcopies : Copies φ source target.pointFirst) (hl : source.Listed hash)
    (hindexed : target.packed = true → ∀ i (e : Entry K (Slot V)),
      target.slots[i]? = some (some e) → e.key = none ∧ e.h = i)
    (hunlinked : target.packed = true → ∀ n, target.hash n = HT_INVALID_IDX)
    (hchained : target.packed = false →
      Chained target.nTableMask target.arData target.hash target.nNumUsed)
    (hfresh : target.initialized = false → target.packed = false ∧ target.nNumUsed = 0) :
    target.pointFirst.Valid hash := by
  have hlisted := hcopies.listed hl
  obtain ⟨p, hp⟩ := pointFirst_eq target
  rw [hp] at hlisted ⊢
  exact ⟨hlisted, hindexed, hunlinked, hchained, hfresh⟩

/-- The memory of the source is copied as it is. -/
theorem immutable_copies (hv : source.Valid hash) (junk : ℕ → Bucket K (Slot V)) :
    Copies some source (HashTable.pointFirst
        { source with arData := realloc junk source.nNumUsed source.arData }) ∧
      (HashTable.pointFirst
        { source with arData := realloc junk source.nNumUsed source.arData }).Valid hash := by
  have hslots : HashTable.slots { source with
      arData := realloc junk source.nNumUsed source.arData } = source.slots := slots_realloc ..
  have hcopies : Copies some source (HashTable.pointFirst
      { source with arData := realloc junk source.nNumUsed source.arData }) :=
    pointFirst_copies (g := id) faithful_some hv.toListed
      (by rw [hslots, map_id, List.map_id]) rfl rfl rfl
  refine ⟨hcopies, pointFirst_valid hcopies hv.toListed ?_ hv.unlinked ?_ hv.fresh⟩
  · intro hpacked i e he
    exact hv.indexed hpacked i e (hslots ▸ he)
  · intro hpacked
    exact (hv.chained hpacked).congr fun i hi => (if_pos hi).symm

/-- A bucket of a packed table and its copy. -/
theorem entry_dupPacked (hv : source.Valid hash) (hpacked : source.packed = true)
    (hi : i < source.nNumUsed) :
    (dupPackedElements source junk withHoles i).entry = (source.arData i).entry.map Entry.dup := by
  rw [dupPackedElements, if_pos hi]
  rcases hval : (source.arData i).val with _ | slot
  · rw [entry_eq_none.mpr hval]
    cases withHoles <;> rfl
  · have hentry : (source.arData i).entry
        = some ⟨(source.arData i).key, (source.arData i).h, slot⟩ :=
      entry_eq_some.mpr ⟨hval, rfl, rfl⟩
    have hslot : source.slots[i]?
        = some (some ⟨(source.arData i).key, (source.arData i).h, slot⟩) := by
      rw [HashTable.slots, getElem?_cells hi, hentry]
    obtain ⟨hkey, -⟩ := hv.indexed hpacked i _ hslot
    have hdup : dupElement true withHoles (some slot) = some (some slot.dup) := by
      cases withHoles <;> rfl
    rw [hentry, hdup]
    dsimp only at hkey
    rw [hkey]
    rfl

/-- The elements of a packed table are copied in place. -/
theorem packed_copies (hv : source.Valid hash) (hpacked : source.packed = true)
    (hused : source.nNumUsed ≠ 0) (junk : ℕ → Bucket K (Slot V)) (withHoles : Bool) :
    Copies (fun e => some e.dup) source (HashTable.pointFirst { source with
        arData := dupPackedElements source junk withHoles, hash := fun _ => HT_INVALID_IDX }) ∧
      (HashTable.pointFirst { source with
        arData := dupPackedElements source junk withHoles
        hash := fun _ => HT_INVALID_IDX }).Valid hash := by
  have hslots : HashTable.slots { source with
      arData := dupPackedElements source junk withHoles, hash := fun _ => HT_INVALID_IDX }
        = source.slots.map (Option.map Entry.dup) := by
    rw [HashTable.slots, HashTable.slots, cells, cells, List.map_map]
    apply List.map_congr_left
    intro i hi
    exact entry_dupPacked hv hpacked (List.mem_range.mp hi)
  have hcopies : Copies (fun e => some e.dup) source (HashTable.pointFirst { source with
      arData := dupPackedElements source junk withHoles, hash := fun _ => HT_INVALID_IDX }) :=
    pointFirst_copies faithful_dup hv.toListed hslots rfl rfl rfl
  refine ⟨hcopies, pointFirst_valid hcopies hv.toListed ?_ (fun _ _ => rfl) ?_ ?_⟩
  · intro _ i e he
    rw [hslots, List.getElem?_map, map_eq_some_iff] at he
    obtain ⟨x, hx, hxe⟩ := he
    obtain ⟨e0, rfl, rfl⟩ := map_eq_some_iff.mp hxe
    exact hv.indexed hpacked i e0 hx
  · intro hnot
    exact absurd (hpacked.symm.trans hnot) Bool.noConfusion
  · intro hinit
    exact absurd (hv.fresh hinit).2 hused

end

/-! ## The hash layout without its holes -/

namespace Copying

theorem length_eq (h : Copying source source.nNumUsed j target) :
    j = (dupSlots source).reduceOption.length := by
  rw [h.rank_eq, rank, ← length_dupSlots, List.take_length]

/-- The internal pointer after the copy, which is set to the first element if it is past the
end: it is at a copied element or past the end, and has the copies still to visit. -/
theorem pointer_spec (h : Copying source source.nNumUsed j target)
    (hused : source.nNumUsed < HT_INVALID_IDX) (hp : PointerCopied source) {q : ℕ}
    (hq : q = if j > 0 ∧ target.nInternalPointer = HT_INVALID_IDX then 0
      else target.nInternalPointer) :
    (q = HT_INVALID_IDX ∨ Occupied (compacted (dupSlots source)) q) ∧
      SlotList.visit (compacted (dupSlots source)) q =
        if source.nInternalPointer = HT_INVALID_IDX then (dupSlots source).reduceOption
        else SlotList.visit (dupSlots source) source.nInternalPointer := by
  have hlen := h.length_eq
  by_cases hend : source.nInternalPointer = HT_INVALID_IDX
  · have hmoved : target.nInternalPointer = HT_INVALID_IDX := by
      rw [h.pointer, hend, moved_of_le (Nat.le_of_lt hused)]
    rw [if_pos hend, hq, hmoved]
    by_cases hpos : j > 0
    · rw [if_pos ⟨hpos, rfl⟩]
      obtain ⟨e, l, hl⟩ := List.exists_cons_of_length_pos (hlen ▸ hpos)
      refine ⟨Or.inr ⟨e, ?_⟩, ?_⟩
      · rw [compacted, hl]
        rfl
      · rw [visit_zero, reduceOption_compacted]
    · have hnil : (dupSlots source).reduceOption = [] :=
        List.eq_nil_of_length_eq_zero (by omega)
      rw [if_neg fun hboth => hpos hboth.1, hnil, compacted_eq_nil hnil]
      exact ⟨Or.inl rfl, visit_of_le (Nat.zero_le _)⟩
  · have hocc := hp.resolve_left hend
    have hlt := hocc.lt
    rw [length_dupSlots] at hlt
    have hle := rank_le (dupSlots source) source.nInternalPointer
    have hmoved : target.nInternalPointer = rank (dupSlots source) source.nInternalPointer := by
      rw [h.pointer, moved_of_lt hlt]
    rw [if_neg fun hboth => absurd (hmoved ▸ hboth.2) (by omega), hmoved] at hq
    rw [if_neg hend, hq]
    exact ⟨Or.inr (occupied_compacted hocc), visit_compacted ..⟩

/-- **The table at the end** has the copies. -/
theorem copies (h : Copying source source.nNumUsed j target)
    (hused : source.nNumUsed < HT_INVALID_IDX) (hp : PointerCopied source) :
    Copies Entry.copy source { target with
      nNumUsed := j, nNumOfElements := j
      nInternalPointer := if j > 0 ∧ target.nInternalPointer = HT_INVALID_IDX then 0
        else target.nInternalPointer } := by
  have hslots : cells target.arData j = compacted (dupSlots source) := by
    rw [h.done, ← length_dupSlots, List.take_length]
  have hfilter : ∀ p, SlotList.visit (dupSlots source) p
      = (source.visit p).filterMap Entry.copy := visit_bind Entry.copy source.slots
  have hentries : (cells target.arData j).reduceOption = (dupSlots source).reduceOption := by
    rw [hslots, reduceOption_compacted]
  obtain ⟨hstands, hvisit⟩ := h.pointer_spec hused hp rfl
  refine ⟨faithful_copy, ?_, ?_, ?_, ?_, ?_, ?_⟩
  · rw [h.rest]
  · rw [h.rank_eq]
    exact rank_le ..
  · exact h.length_eq.trans (congrArg List.length hentries.symm)
  · exact hentries.trans (hfilter 0)
  · rw [HashTable.Stands, HashTable.slots, hslots]
    exact hstands
  · rw [HashTable.visit, HashTable.entries, HashTable.slots, hentries, hslots, hvisit, hfilter]

end Copying

/-- `zend_array_dup` for a table in the hash layout. -/
def dupHash (junk : ℕ → Bucket K (Slot V)) (source : HashTable K (Slot V)) :
    HashTable K (Slot V) :=
  let r := dupElements source (source.nNumUsed ≠ source.nNumOfElements) source.nNumUsed 0
    { source with arData := junk, hash := fun _ => HT_INVALID_IDX }
  { r.1 with
    nNumUsed := r.2, nNumOfElements := r.2
    nInternalPointer :=
      if r.2 > 0 ∧ r.1.nInternalPointer = HT_INVALID_IDX then 0 else r.1.nInternalPointer }

theorem dupHash_copies (hv : source.Valid hash) (hpacked : source.packed = false)
    (hused : source.nNumUsed ≠ 0) (hp : PointerCopied source) (junk : ℕ → Bucket K (Slot V)) :
    Copies Entry.copy source (dupHash junk source) ∧ (dupHash junk source).Valid hash ∧
      (dupHash junk source).nNextFreeElement = source.nNextFreeElement := by
  have hstart : Copying source 0 0
      { source with arData := junk, hash := fun _ => HT_INVALID_IDX } :=
    ⟨rfl, rfl, fun _ => rfl, rfl⟩
  have hholes : decide (source.nNumUsed ≠ source.nNumOfElements) = false →
      ∀ t < source.nNumUsed, source.live t = true := by
    intro hfull
    rw [decide_eq_false_iff_not, not_not] at hfull
    apply HashTable.live_of_length
    rw [hfull, hv.count]
  have hspec := dupElements_spec (Nat.le_of_lt hv.used_lt) hp hholes (Nat.zero_add _) hstart
    fun k hk => absurd hk (Nat.not_lt_zero k)
  rw [dupHash]
  generalize dupElements source _ source.nNumUsed 0 _ = r at hspec ⊢
  have hcopies := hspec.copies hv.used_lt hp
  have hrest := hspec.rest
  have hpacked' : r.1.packed = false := by
    rw [hrest]
    exact hpacked
  have hinit : r.1.initialized = source.initialized := by rw [hrest]
  refine ⟨hcopies, ⟨hcopies.listed hv.toListed, ?_, ?_, fun _ => ?_, ?_⟩, ?_⟩
  · exact fun h => absurd (hpacked'.symm.trans h) Bool.noConfusion
  · exact fun h => absurd (hpacked'.symm.trans h) Bool.noConfusion
  · rw [hspec.mask]
    exact hspec.chained
  · exact fun h => absurd (hv.fresh (hinit.symm.trans h)).2 hused
  · rw [hrest]

/-! ## Every path -/

/-- The copy of a table without elements is a table that has no memory yet. -/
theorem empty_copies (hl : source.Listed hash) (hused : source.nNumUsed = 0)
    (hsize : target.nTableSize = source.nTableSize) (hused' : target.nNumUsed = 0)
    (hcount : target.nNumOfElements = 0) (hp : target.nInternalPointer = HT_INVALID_IDX)
    (hpacked : target.packed = false) (hhash : ∀ n, target.hash n = HT_INVALID_IDX) :
    Copies Entry.copy source target ∧ target.Valid hash := by
  have hslots : source.slots = [] := by
    rw [HashTable.slots, hused]
    rfl
  have hslots' : target.slots = [] := by
    rw [HashTable.slots, hused']
    rfl
  have hentries' : target.entries = [] := by
    rw [HashTable.entries, hslots']
    rfl
  have hvisit : ∀ p, source.visit p = [] := by
    intro p
    rw [HashTable.visit, hslots]
    exact visit_of_le (Nat.zero_le p)
  have hcopies : Copies Entry.copy source target := by
    refine ⟨faithful_copy, hsize, Nat.le_of_eq (hused'.trans hused.symm), ?_, ?_, Or.inl hp, ?_⟩
    · rw [hcount, hentries']
      rfl
    · rw [hentries', HashTable.entries, hslots]
      rfl
    · have hnil : target.visit target.nInternalPointer = [] := by
        rw [HashTable.visit, hslots']
        exact visit_of_le (Nat.zero_le _)
      rw [hnil, hentries', hvisit]
      split_ifs <;> rfl
  refine ⟨hcopies, hcopies.listed hl, ?_, ?_, ?_, fun _ => ⟨hpacked, hused'⟩⟩
  · exact fun h => absurd (hpacked.symm.trans h) Bool.noConfusion
  · exact fun h => absurd (hpacked.symm.trans h) Bool.noConfusion
  · intro _ n
    rw [hused']
    exact hhash n

/-- **A duplicated array** is a table again, with the defined elements of its source. -/
theorem arrayDup_spec (hv : source.Valid hash) (junk : ℕ → Bucket K (Slot V)) (immutable : Bool)
    (hp : immutable = false → source.packed = false → PointerCopied source) :
    ∃ φ, Copies φ source (arrayDup junk immutable source) ∧
      (immutable = false → source.packed = false → φ = Entry.copy) ∧
      (arrayDup junk immutable source).Valid hash ∧
      (arrayDup junk immutable source).nNextFreeElement
        = if source.nNumUsed = 0 then 0 else source.nNextFreeElement := by
  have hpoint : ∀ target : HashTable K (Slot V),
      target.pointFirst.nNextFreeElement = target.nNextFreeElement := by
    intro target
    obtain ⟨p, hfirst⟩ := pointFirst_eq target
    rw [hfirst]
  rw [arrayDup]
  by_cases hused : source.nNumUsed = 0
  · rw [if_pos hused, if_pos hused]
    refine ⟨Entry.copy, ?_, fun _ _ => rfl, ?_, rfl⟩
    · exact And.left (empty_copies hv.toListed hused rfl rfl rfl rfl rfl fun _ => rfl)
    · exact And.right (empty_copies hv.toListed hused rfl rfl rfl rfl rfl fun _ => rfl)
  · rw [if_neg hused, if_neg hused]
    cases immutable with
    | true =>
      obtain ⟨hcopies, hvalid⟩ := immutable_copies hv junk
      exact ⟨some, hcopies, fun h => absurd h Bool.noConfusion, hvalid, hpoint _⟩
    | false =>
      by_cases hpacked : source.packed = true
      · rw [if_pos hpacked]
        obtain ⟨hcopies, hvalid⟩ := packed_copies hv hpacked hused junk
          (source.nNumUsed ≠ source.nNumOfElements)
        refine ⟨_, hcopies, fun _ h => ?_, hvalid, hpoint _⟩
        exact absurd (hpacked.symm.trans h) Bool.noConfusion
      · rw [if_neg hpacked]
        rw [Bool.not_eq_true] at hpacked
        obtain ⟨hcopies, hvalid, hnext⟩ := dupHash_copies hv hpacked hused (hp rfl hpacked) junk
        exact ⟨Entry.copy, hcopies, fun _ _ => rfl, hvalid, hnext⟩

/-!
# Runs of a duplicated array

From the internal pointer of the copy the same elements are visited as from that of the source; only
from one past the end the copy begins anew.
-/

open ZendHash.HashTable

open List Option

variable {K V : Type} {hash : K → ℕ}

/-! ## Visiting -/

/-- What a loop sees that takes at most `n` elements, with the internal pointer moved forward
behind each of them. -/
def HashTable.traverse : ℕ → HashTable K V → List (Entry K V)
  | 0, _ => []
  | n + 1, ht =>
    if ht.nInternalPointer = HT_INVALID_IDX then []
    else (ht.arData ht.nInternalPointer).entry.toList ++ traverse n ht.moveForward

/-- Behind an element the next one is visited. -/
theorem posAfter_spec (ht : HashTable K V) {p : ℕ} (hp : p < HT_INVALID_IDX) :
    p + 1 ≤ ht.posAfter p ∧ ht.visit (ht.posAfter p) = ht.visit (p + 1) := by
  obtain ⟨hres, hholes⟩ := nextFrom_spec ht (ht.nNumUsed - (p + 1)) (p + 1)
  rw [← posAfter] at hres hholes
  have hle : p + 1 ≤ ht.posAfter p := by
    rcases hres with hend | ⟨hle, -⟩
    · rw [hend]
      exact hp
    · exact hle
  refine ⟨hle, ?_⟩
  symm
  refine visit_eq_of_holes hle fun k hk hlt hocc => ?_
  obtain ⟨hused, hlive⟩ := occupied_slots.mp hocc
  rw [hholes k hk (by omega) hlt] at hlive
  cases hlive

/-- **A loop** over a table visits what its internal pointer has to visit. -/
theorem traverse_eq_visit {ht : HashTable K V} {n : ℕ} (hused : ht.nNumUsed < HT_INVALID_IDX)
    (hstands : ht.Stands ht.nInternalPointer) (hn : ht.nNumUsed ≤ ht.nInternalPointer + n) :
    ht.traverse n = ht.visit ht.nInternalPointer := by
  induction n generalizing ht with
  | zero =>
    symm
    apply visit_of_le
    rw [length_slots]
    exact hn
  | succ n ih =>
    rw [HashTable.traverse]
    by_cases hend : ht.nInternalPointer = HT_INVALID_IDX
    · rw [if_pos hend, hend, visit_invalid (le_of_lt hused)]
    · obtain ⟨e, he⟩ := hstands.resolve_left hend
      have hlt : ht.nInternalPointer < ht.nNumUsed := by
        have hlen := (List.getElem?_eq_some_iff.mp he).1
        rwa [length_slots] at hlen
      obtain ⟨hnext, hvisit⟩ := posAfter_spec ht (lt_trans hlt hused)
      have hforward : ht.moveForward
          = { ht with nInternalPointer := ht.posAfter ht.nInternalPointer } := if_neg hend
      have hrest : ht.moveForward.traverse n = ht.visit (ht.posAfter ht.nInternalPointer) := by
        rw [hforward]
        exact ih hused (stands_posAfter ..) (by dsimp only; omega)
      have hentry : (ht.arData ht.nInternalPointer).entry = some e := by
        rw [slots, getElem?_cells hlt] at he
        exact Option.some.inj he
      rw [if_neg hend, hrest, hvisit, hentry, HashTable.visit, HashTable.visit,
        visit_of_getElem? he]
      rfl

/-! ## Runs -/

section

variable {addr : ℕ} {s0 s : State K V} {m0 m : OrderedMap K V}

/-- A position operation is none on the map. -/
theorem Refines.seek (hr : Refines hash s.ht m) (k : Seek) : Refines hash (s.seek addr k).ht m := by
  obtain ⟨p, c, hp, hseek⟩ := seek_ht addr hr.valid k
  rw [hseek]
  exact ⟨hr.valid.pointed hp c, hr.order, hr.next, hr.next_le, hr.above⟩

variable [DecidableEq K]

/-- A run of a table, with the operations on its positions, beside one of an ordered map. -/
inductive RunsOn (addr : ℕ) (hash : K → ℕ) (s0 : State K V) (m0 : OrderedMap K V) :
    State K V → OrderedMap K V → Prop where
  | start : RunsOn addr hash s0 m0 s0 m0
  | step {s s' : State K V} {m : OrderedMap K V} (op : Op K V) (junk : ℕ → Bucket K V) :
    RunsOn addr hash s0 m0 s m → s.Allowed op → s.MemoryClear junk op →
      s.step addr junk hash op = some s' → RunsOn addr hash s0 m0 s' (m.step op)
  | seek {s : State K V} {m : OrderedMap K V} (k : Seek) :
    RunsOn addr hash s0 m0 s m → s.SeekAllowed addr k →
      RunsOn addr hash s0 m0 (s.seek addr k) m

/-- A table and its map in a run from an empty table. -/
def Reached (addr : ℕ) (hash : K → ℕ) (s : State K V) (m : OrderedMap K V) : Prop :=
  ∃ nSize nTableSize arData its, checkSize nSize = some nTableSize ∧
    (∀ it ∈ its, HashTableIterator.ht it ≠ some addr) ∧
    RunsOn addr hash ⟨init nTableSize arData, its⟩ OrderedMap.empty s m

theorem RunsOn.refining (h : RunsOn addr hash s0 m0 s m) (h0 : Refines hash s0.ht m0) :
    Refines hash s.ht m := by
  induction h with
  | start => exact h0
  | step op junk _ hallowed hmemory hstep ih => exact ih.step hallowed hmemory hstep
  | seek k _ _ ih => exact ih.seek k

theorem Reached.refining (h : Reached addr hash s m) : Refines hash s.ht m := by
  obtain ⟨nSize, nTableSize, arData, its, hsize, hits, hrun⟩ := h
  have hinit : Runs addr hash ⟨init nTableSize arData, its⟩ OrderedMap.empty :=
    Runs.init arData its hsize hits
  exact hrun.refining hinit.refining

end

/-! ## Maps that read alike -/

section

variable {m m' : OrderedMap K (Slot V)}

/-- A key and what is read under it. -/
def reads (x : Σ _ : K ⊕ ℕ, Slot V) : (K ⊕ ℕ) × Option V := (x.1, x.2.value.map Zval.read)

/-- Two maps have the same keys in the same order, the same is read under them, and the next
index is the same. -/
structure Alike (m m' : OrderedMap K (Slot V)) : Prop where
  next : m'.next = m.next
  reads : m'.map.entries.map reads = m.map.entries.map reads

theorem Alike.mem_iff (h : Alike m m') (x : K ⊕ ℕ) : x ∈ m'.map ↔ x ∈ m.map := by
  have hkeys := congrArg (List.map Prod.fst) h.reads
  rw [List.map_map, List.map_map] at hkeys
  change m'.map.keys = m.map.keys at hkeys
  rw [AList.mem_keys, AList.mem_keys, hkeys]

variable [DecidableEq K]

theorem Alike.erase (h : Alike m m') (x : K ⊕ ℕ) :
    (m'.map.erase x).entries.map ZendHash.reads = (m.map.erase x).entries.map ZendHash.reads := by
  have hfilter : ∀ map : AList fun _ : K ⊕ ℕ => Slot V, (map.erase x).entries.map ZendHash.reads
      = (map.entries.map ZendHash.reads).filter fun y => y.1 ≠ x := by
    intro map
    change (map.entries.kerase x).map ZendHash.reads = _
    rw [kerase_eq_filter map.nodupKeys, List.filter_map]
    rfl
  rw [hfilter, hfilter, h.reads]

theorem Alike.store (h : Alike m m') (x : K ⊕ ℕ) (v : Slot V) (add : Bool) :
    (OrderedMap.store m'.map x v add).entries.map ZendHash.reads
      = (OrderedMap.store m.map x v add).entries.map ZendHash.reads := by
  have hreplace : ∀ map : AList fun _ : K ⊕ ℕ => Slot V,
      (map.replace x v).entries.map ZendHash.reads = (map.entries.map ZendHash.reads).map
        fun y => if y.1 = x then ZendHash.reads ⟨x, v⟩ else y := by
    intro map
    change (map.entries.kreplace x v).map ZendHash.reads = _
    rw [kreplace_eq_map map.nodupKeys, List.map_map, List.map_map]
    apply map_congr_left
    intro y _
    rw [Function.comp_apply, Function.comp_apply]
    by_cases hy : y.1 = x
    · rw [if_pos hy, if_pos (show (ZendHash.reads y).1 = x from hy)]
    · rw [if_neg hy, if_neg (show ¬ (ZendHash.reads y).1 = x from hy)]
  rw [OrderedMap.store, OrderedMap.store]
  by_cases hmem : x ∈ m.map
  · rw [if_pos hmem, if_pos ((h.mem_iff x).mpr hmem)]
    cases add with
    | true => exact h.reads
    | false =>
      rw [if_neg Bool.false_ne_true, if_neg Bool.false_ne_true, hreplace, hreplace, h.reads]
  · have hmem' := mt (h.mem_iff x).mp hmem
    rw [if_neg hmem, if_neg hmem', AList.entries_insert_of_notMem hmem,
      AList.entries_insert_of_notMem hmem', map_cons, map_cons, h.reads]

theorem Alike.storeIndex (h : Alike m m') (x : ℕ) (v : Slot V) (add : Bool) :
    Alike (m.storeIndex x v add) (m'.storeIndex x v add) := by
  rw [OrderedMap.storeIndex, OrderedMap.storeIndex]
  by_cases hmem : .inr x ∈ m.map ∧ add = true
  · rw [if_pos hmem, if_pos ⟨(h.mem_iff _).mpr hmem.1, hmem.2⟩]
    exact h
  · rw [if_neg hmem, if_neg fun hboth => hmem ⟨(h.mem_iff _).mp hboth.1, hboth.2⟩]
    exact ⟨congrArg (nextFree · x) h.next, h.store (.inr x) v add⟩

/-- An operation leaves them alike. -/
theorem Alike.step (h : Alike m m') (op : Op K (Slot V)) : Alike (m.step op) (m'.step op) := by
  cases op with
  | addOrUpdate k v add addNew => exact ⟨h.next, h.store (.inl k) v add⟩
  | indexAddOrUpdate x v add addNew => exact h.storeIndex x v add
  | nextIndexInsert v addNew =>
    rw [OrderedMap.step, OrderedMap.step, h.next]
    exact h.storeIndex _ v true
  | del k => exact ⟨h.next, h.erase (.inl k)⟩
  | indexDel x => exact ⟨h.next, h.erase (.inr x)⟩
  | clean => exact ⟨rfl, rfl⟩
  | rehash => exact h
  | extend nSize packed => exact h
  | packedToHash => exact h

/-- A run leaves them alike. -/
theorem Alike.run (h : Alike m m') (ops : List (Op K (Slot V))) :
    Alike (ops.foldl OrderedMap.step m) (ops.foldl OrderedMap.step m') := by
  induction ops generalizing m m' with
  | nil => exact h
  | cons op ops ih => exact ih (h.step op)

end

/-! ## The map of a copy -/

section

variable {source target : HashTable K (Slot V)} {m : OrderedMap K (Slot V)}
  {φ : Entry K (Slot V) → Option (Entry K (Slot V))}

/-- The elements of a table as a map. -/
def HashTable.Listed.toMap {ht : HashTable K V} (h : ht.Listed hash) :
    AList fun _ : K ⊕ ℕ => V where
  entries := (ht.entries.map Entry.pair).reverse
  nodupKeys := by
    rw [List.NodupKeys, keys, map_reverse, List.map_map, nodup_reverse]
    exact h.nodup

theorem inOrder_toMap {ht : HashTable K V} (h : ht.Listed hash) : InOrder ht h.toMap :=
  (reverse_reverse _).symm

/-- What is read in an element and in its copy. -/
theorem Faithful.reads_pair (hφ : Faithful φ) {e e' : Entry K (Slot V)} (h : φ e = some e') :
    reads e'.pair = reads e.pair := by
  have hread := hφ.read e
  rw [h, bind_some] at hread
  have hvalue : ∀ e : Entry K (Slot V), e.val.value.map Zval.read = e.read.map Prod.snd := by
    intro e
    rw [Entry.read, Option.map_map]
    rfl
  rw [reads, reads, Entry.pair, Entry.pair, hφ.name h]
  rw [hvalue, hvalue, hread]

/-- Elements that are all defined are all copied. -/
theorem Faithful.map_reads (hφ : Faithful φ) {l : List (Entry K (Slot V))}
    (hl : ∀ e ∈ l, e.val.value ≠ none) :
    (l.filterMap φ).map (fun e => reads e.pair) = l.map fun e => reads e.pair := by
  induction l with
  | nil => rfl
  | cons e l ih =>
    have htail := ih fun e he => hl e (mem_cons_of_mem _ he)
    rcases he : φ e with _ | e'
    · have hread := hφ.read e
      rw [he, bind_none, Entry.read, eq_comm, map_eq_none_iff] at hread
      exact absurd hread (hl e mem_cons_self)
    · rw [filterMap_cons_some he, map_cons, map_cons, htail, hφ.reads_pair he]

/-- The map that a copy represents: the integer keys inserted before still count. -/
def copiedMap (m : OrderedMap K (Slot V)) (ht : target.Listed hash) (used : ℕ) :
    OrderedMap K (Slot V) where
  map := ht.toMap
  next := if used = 0 then 0 else m.next
  inserted := if used = 0 then [] else m.inserted
  ever := m.ever

theorem copiedMap_refines (hr : Refines hash source m) (hv : target.Valid hash)
    (hnext : target.nNextFreeElement = if source.nNumUsed = 0 then 0 else source.nNextFreeElement) :
    Refines hash target (copiedMap m hv.toListed source.nNumUsed) := by
  rw [hr.next] at hnext
  refine ⟨hv, inOrder_toMap hv.toListed, hnext, ?_, ?_⟩
  · rw [copiedMap]
    split_ifs
    · exact Int.natCast_nonneg _
    · exact hr.next_le
  · rw [copiedMap]
    split_ifs
    · exact fun _ h => absurd h not_mem_nil
    · exact hr.above

theorem copiedMap_alike (hr : Refines hash source m) (hc : Copies φ source target)
    (hl : target.Listed hash) (hused : source.nNumUsed ≠ 0)
    (hdefined : ∀ e ∈ source.entries, e.val.value ≠ none) :
    Alike m (copiedMap m hl source.nNumUsed) := by
  have hsource := congrArg reverse hr.order
  rw [reverse_reverse] at hsource
  refine ⟨if_neg hused, ?_⟩
  change (target.entries.map Entry.pair).reverse.map reads = _
  rw [← hsource, map_reverse, map_reverse, List.map_map, List.map_map, hc.entries]
  exact congrArg reverse (hc.faithful.map_reads hdefined)

end

/-! ## The copy -/

section

variable [DecidableEq K] {addr : ℕ} {s : State K (Slot V)} {m : OrderedMap K (Slot V)}

/-- **A table is a duplicate** of its source, with the map `m'` where the source has `m`. -/
structure Duplicates (hash : K → ℕ) (m m' : OrderedMap K (Slot V))
    (source target : HashTable K (Slot V)) : Prop where
  valid : target.Valid hash
  elements : target.entries.filterMap Entry.read = source.entries.filterMap Entry.read
  iteration : (target.traverse target.nNumUsed).filterMap Entry.read =
    if source.nInternalPointer = HT_INVALID_IDX then source.entries.filterMap Entry.read
    else (source.traverse source.nNumUsed).filterMap Entry.read
  next : m'.next = if source.nNumUsed = 0 then 0 else m.next
  inserted : m'.inserted = if source.nNumUsed = 0 then [] else m.inserted
  runs : ∀ addr its s m'', RunsOn addr hash ⟨target, its⟩ m' s m'' → Represents hash s.ht m''
  source_runs : ∀ addr its s m'', RunsOn addr hash ⟨source, its⟩ m s m'' →
    Represents hash s.ht m''
  alike : source.nNumUsed ≠ 0 → (∀ e ∈ source.entries, e.val.value ≠ none) →
    ∀ ops : List (Op K (Slot V)),
      Alike (ops.foldl OrderedMap.step m) (ops.foldl OrderedMap.step m')

/-- **`zend_array_dup`** returns a duplicate of every table, unless the internal pointer of a
table in the hash layout is at an element that is not defined. -/
theorem arrayDup_duplicates (h : Reached addr hash s m) (junk : ℕ → Bucket K (Slot V))
    (immutable : Bool) (hp : immutable = false → s.ht.packed = false → PointerCopied s.ht) :
    ∃ m', Duplicates hash m m' s.ht (arrayDup junk immutable s.ht) ∧
      (immutable = false → s.ht.packed = false →
        ∀ e ∈ (arrayDup junk immutable s.ht).entries, ∃ z, e.val = .zval z) := by
  have hr := h.refining
  have hsource := hr.valid
  obtain ⟨φ, hcopies, hφ, hvalid, hnext⟩ := arrayDup_spec hsource junk immutable hp
  have hrefines := copiedMap_refines hr hvalid hnext
  have hread : ∀ l : List (Entry K (Slot V)), (l.filterMap φ).filterMap Entry.read =
    l.filterMap Entry.read :=
    hcopies.faithful.filterMap_read
  refine ⟨copiedMap m hvalid.toListed s.ht.nNumUsed, ⟨hvalid, ?_, ?_, rfl, rfl, ?_, ?_, ?_⟩, ?_⟩
  · rw [hcopies.entries, hread]
  · rw [traverse_eq_visit hvalid.used_lt hvalid.stands (Nat.le_add_left ..),
      traverse_eq_visit hsource.used_lt hsource.stands (Nat.le_add_left ..), hcopies.visit]
    split_ifs
    · rw [hcopies.entries, hread]
    · rw [hread]
  · exact fun addr its s m'' hrun => (hrun.refining hrefines).represents
  · exact fun addr its s m'' hrun => (hrun.refining hr).represents
  · intro hused hdefined
    exact (copiedMap_alike hr hcopies hvalid.toListed hused hdefined).run
  · intro himm hpacked e he
    rw [hcopies.entries, hφ himm hpacked] at he
    obtain ⟨e0, -, hcopy⟩ := mem_filterMap.mp he
    obtain ⟨z, -, rfl⟩ := map_eq_some_iff.mp hcopy
    exact ⟨z.dup, rfl⟩

/-- A table with an indirect value under the key 7. -/
def indirectKey : State ℕ (Slot Unit) :=
  let s : State ℕ (Slot Unit) := ⟨init 8 fun _ => ⟨none, 0, 0, none⟩, []⟩
  (s.step 1 (fun _ => ⟨none, 0, 0, none⟩) id
    (.addOrUpdate 7 (.indirect (some (.data ()))) true false)).getD s

theorem reached_indirectKey : ∃ m, Reached 1 id indirectKey m := by
  have hstart : RunsOn 1 id (⟨init 8 fun _ => ⟨none, 0, 0, none⟩, []⟩ :
      State ℕ (Slot Unit)) OrderedMap.empty _ _ := RunsOn.start
  have hstep := hstart.step (.addOrUpdate 7 (.indirect (some (.data ()))) true false)
    (fun _ => ⟨none, 0, 0, none⟩) nofun trivial rfl
  exact ⟨_, 8, 8, _, [], rfl, nofun, hstep⟩

/-- The copy of that table. -/
theorem arrayDup_duplicates_indirect : ∃ m m' : OrderedMap ℕ (Slot Unit),
    Reached 1 id indirectKey m ∧ Duplicates id m m' indirectKey.ht
      (arrayDup (fun _ => ⟨none, 0, 0, none⟩) false indirectKey.ht) := by
  obtain ⟨m, hm⟩ := reached_indirectKey
  obtain ⟨m', hdup, -⟩ := arrayDup_duplicates hm (fun _ => ⟨none, 0, 0, none⟩) false
    fun _ _ => .inr ⟨_, rfl⟩
  exact ⟨m, m', hm, hdup⟩

/-- **The copy begins anew**: from an internal pointer that is past the end nothing is visited,
and from that of the copy the first element. -/
theorem not_same_iteration :
    ¬ ∀ (K V : Type) [DecidableEq K] (addr : ℕ) (hash : K → ℕ) (s : State K (Slot V))
      (m : OrderedMap K (Slot V)) (junk : ℕ → Bucket K (Slot V)) (immutable : Bool),
      Reached addr hash s m → PointerCopied s.ht → ((arrayDup junk immutable s.ht).traverse
            (arrayDup junk immutable s.ht).nNumUsed).filterMap Entry.read
          = (s.ht.traverse s.ht.nNumUsed).filterMap Entry.read := by
  intro h
  obtain ⟨m, nSize, nTableSize, arData, its, hsize, hits, hrun⟩ := reached_indirectKey
  have hforward := hrun.seek .moveForward trivial
  have hsame := h ℕ Unit 1 id _ m (fun _ => ⟨none, 0, 0, none⟩) false
    ⟨nSize, nTableSize, arData, its, hsize, hits, hforward⟩ (.inl rfl)
  exact absurd (congrArg List.length hsame) (by decide)

end

end ZendHash
