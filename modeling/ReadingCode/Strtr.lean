/-
# Translation with a table

`php_strtr_array` notes the lengths and the first bytes of the patterns in two bitsets, so that a
place of the text is looked up only with lengths that a pattern has.  Integer keys are patterns as
they are printed, and with one of them the table is built anew.  The result is the replacement of
the longest pattern from the left.
-/
import Mathlib.Data.Nat.Bitwise
import ReadingCode.Rewriting
import ReadingCode.VarUnserializer

open Rewriting PhpVar

namespace PhpStrtr

open List Option

/-! ## The source -/

/-- A bit of a bitset; `sizeof(zend_ulong)` of them are in a word. -/
def setBit (words : List ℕ) (i : ℕ) : List ℕ :=
  words.set (i / 8) (words.getD (i / 8) 0 ||| 1 <<< (i % 8))

def hasBit (words : List ℕ) (i : ℕ) : Bool := words.getD (i / 8) 0 &&& 1 <<< (i % 8) ≠ 0

/-- What is noted of the patterns. -/
structure Noted where
  minlen : ℕ
  maxlen : ℕ
  numBitset : List ℕ
  bitset : List ℕ

/-- A pattern is noted. -/
def note (st : Noted) (key : Bytes) : Noted where
  minlen := if key.length < st.minlen then key.length else st.minlen
  maxlen := if key.length > st.maxlen then key.length else st.maxlen
  numBitset := setBit st.numBitset key.length
  bitset := setBit st.bitset (key.headD 0).toNat

/-- The first pass notes the string keys.  It fails at an empty one, and says whether there are
integer keys. -/
def firstPass (slen : ℕ) : List (Key × Bytes) → Bool → Noted → Option (Bool × Noted)
  | [], numKeys, st => some (numKeys, st)
  | (.int _, _) :: pats, _, st => firstPass slen pats true st
  | (.str s, _) :: pats, numKeys, st =>
    if s.length < 1 then none
    else if s.length > slen then firstPass slen pats numKeys st
    else firstPass slen pats numKeys (note st s)

/-- `zend_hash_add`: an entry that is there stays. -/
def hashAdd (table : List (Bytes × Bytes)) (key entry : Bytes) :
    List (Bytes × Bytes) :=
  if (table.lookup key).isSome then table else table ++ [(key, entry)]

/-- The second pass builds the table with the integer keys as strings, and notes them. -/
def secondPass (slen : ℕ) : List (Key × Bytes) → List (Bytes × Bytes) → Noted →
    List (Bytes × Bytes) × Noted
  | [], table, st => (table, st)
  | (.int h, entry) :: pats, table, st =>
    if (printLong h).length > slen then secondPass slen pats table st
    else secondPass slen pats (hashAdd table (printLong h) entry) (note st (printLong h))
  | (.str s, entry) :: pats, table, st =>
    if s.length > slen then secondPass slen pats table st
    else secondPass slen pats (hashAdd table s entry) st

/-- The table that is given, as far as `zend_hash_str_find` finds its keys. -/
def stringKeys (pats : List (Key × Bytes)) : List (Bytes × Bytes) :=
  pats.filterMap fun
    | (.str s, entry) => some (s, entry)
    | (.int _, _) => none

/-- The search for a pattern at `key`, of at most `len` bytes. -/
def findPattern (table : List (Bytes × Bytes)) (st : Noted) (key : Bytes) :
    ℕ → Option (Bytes × ℕ)
  | 0 => none
  | len + 1 =>
    if len + 1 ≥ st.minlen then
      if hasBit st.numBitset (len + 1) then
        match table.lookup (key.take (len + 1)) with
        | some s => some (s, len + 1)
        | none => findPattern table st key len
      else findPattern table st key len
    else none

/-- The loop over the text, with what was written, if anything was, and where the rest begins. -/
def strtrLoop (str : Bytes) (table : List (Bytes × Bytes)) (st : Noted) :
    ℕ → ℕ → ℕ → Option Bytes → Option (Option Bytes × ℕ)
  | 0, _, _, _ => none
  | fuel + 1, pos, oldPos, result =>
    if pos ≤ str.length - st.minlen then
      let key := str.drop pos
      if hasBit st.bitset (key.headD 0).toNat then
        let len := if st.maxlen > str.length - pos then str.length - pos else st.maxlen
        match findPattern table st key len with
        | some (s, len) =>
          strtrLoop str table st fuel (pos + len - 1 + 1) (pos + len)
            (some (result.getD [] ++ (str.drop oldPos).take (pos - oldPos) ++ s))
        | none => strtrLoop str table st fuel (pos + 1) oldPos result
      else strtrLoop str table st fuel (pos + 1) oldPos result
    else some (result, oldPos)

/-- `php_strtr_array`: `none` inside is `FALSE`, and outside that the loop does not end. -/
def strtrArray (input : Bytes) (pats : List (Key × Bytes)) :
    Option (Option Bytes) :=
  let slen := input.length
  let numBitset := replicate ((slen + 8) / 8) 0
  let bitset := replicate (256 / 8) 0
  match firstPass slen pats false ⟨128 * 1024, 0, numBitset, bitset⟩ with
  | none => some none
  | some (numKeys, st) =>
    let (table, st) := if numKeys then secondPass slen pats [] st else (stringKeys pats, st)
    if st.minlen > st.maxlen then some (some input)
    else
      (strtrLoop input table st (slen + 1) 0 0 none).map fun (result, oldPos) =>
        match result with
        | some result => some (result ++ (input.drop oldPos).take (slen - oldPos))
        | none => some input

/-! ## What is to be replaced -/

/-- The text of a key. -/
def keyText : Key → Bytes
  | .int h => printLong h
  | .str s => s

/-- The patterns of a table, and what they are replaced by. -/
def patterns (pats : List (Key × Bytes)) : List (Bytes × Bytes) :=
  pats.map fun (key, entry) => (keyText key, entry)

/-- The longest pattern of at most `len` bytes that is at the beginning of a text. -/
def longest (pats : List (Bytes × Bytes)) (s : Bytes) :
    ℕ → Option (Bytes × ℕ)
  | 0 => none
  | len + 1 =>
    match pats.lookup (s.take (len + 1)) with
    | some entry => some (entry, len + 1)
    | none => longest pats s len

/-- The longest pattern at the beginning of a text is replaced. -/
def patternRule (pats : List (Key × Bytes)) (s : Bytes) : Option (Bytes × ℕ) :=
  longest (patterns pats) s s.length

variable {words : List ℕ} {st : Noted} {key k entry s : Bytes} {slen i j len : ℕ}
  {pats : List (Key × Bytes)} {table : List (Bytes × Bytes)}

variable {ps : List (Bytes × Bytes)} {n : ℕ}

/-- What `longest` finds is a pattern, and no longer one is. -/
theorem longest_eq_some : longest ps s n = some (entry, len) ↔
      0 < len ∧ len ≤ n ∧ ps.lookup (s.take len) = some entry ∧
        ∀ m, len < m → m ≤ n → ps.lookup (s.take m) = none := by
  induction n with
  | zero =>
    constructor
    · nofun
    · omega
  | succ n ih =>
    rw [longest]
    cases hfound : ps.lookup (s.take (n + 1)) with
    | some found =>
      constructor
      · rintro ⟨⟩
        exact ⟨Nat.succ_pos n, le_rfl, hfound, fun m hm hm' => by omega⟩
      · rintro ⟨-, hle, hlook, hnone⟩
        rcases lt_or_eq_of_le hle with hlt | rfl
        · rw [hnone (n + 1) hlt le_rfl] at hfound
          cases hfound
        · cases hfound.symm.trans hlook
          rfl
    | none =>
      rw [ih]
      constructor
      · rintro ⟨hpos, hle, hlook, hnone⟩
        refine ⟨hpos, Nat.le_succ_of_le hle, hlook, fun m hm hm' => ?_⟩
        rcases lt_or_eq_of_le hm' with hlt | rfl
        · exact hnone m hm (Nat.le_of_lt_succ hlt)
        · exact hfound
      · rintro ⟨hpos, hle, hlook, hnone⟩
        rcases lt_or_eq_of_le hle with hlt | rfl
        · exact ⟨hpos, Nat.le_of_lt_succ hlt, hlook, fun m hm hm' => hnone m hm (by omega)⟩
        · rw [hfound] at hlook
          cases hlook

/-! ## Bitsets -/

theorem hasBit_eq (words : List ℕ) (i : ℕ) :
    hasBit words i = (words.getD (i / 8) 0).testBit (i % 8) := by
  rw [hasBit, Nat.one_shiftLeft, Nat.and_two_pow]
  cases (words.getD (i / 8) 0).testBit (i % 8) <;> simp

/-- A bit that is set, and those that were. -/
theorem hasBit_setBit (h : i / 8 < words.length) :
    hasBit (setBit words i) j = true ↔ j = i ∨ hasBit words j = true := by
  rw [hasBit_eq, hasBit_eq, setBit]
  by_cases hword : j / 8 = i / 8
  · rw [hword, getD_eq_getElem?_getD, getElem?_set_self h, getD_some,
      Nat.testBit_or, Nat.one_shiftLeft, Nat.testBit_two_pow, Bool.or_eq_true,
      decide_eq_true_iff, or_comm]
    exact or_congr_left (by omega)
  · rw [getD_eq_getElem?_getD, getElem?_set_ne (Ne.symm hword)]
    exact (or_iff_right (by rintro rfl; exact hword rfl)).symm

/-! ## What the passes note -/

/-- The bitsets have their sizes, and the lengths are in range. -/
structure Sized (slen : ℕ) (st : Noted) : Prop where
  minlen_pos : 0 < st.minlen
  maxlen_le : st.maxlen ≤ slen
  numBitset : st.numBitset.length = (slen + 8) / 8
  bitset : st.bitset.length = 32

/-- A pattern that has been noted. -/
structure Known (st : Noted) (key : Bytes) : Prop where
  minlen_le : st.minlen ≤ key.length
  le_maxlen : key.length ≤ st.maxlen
  numBit : hasBit st.numBitset key.length = true
  bit : hasBit st.bitset (key.headD 0).toNat = true

theorem sized_note (h : Sized slen st) (hpos : 0 < key.length) (hle : key.length ≤ slen) :
    Sized slen (note st key) := by
  obtain ⟨hmin, hmax, hnum, hbit⟩ := h
  refine ⟨?_, ?_, (length_set ..).trans hnum, (length_set ..).trans hbit⟩
  · unfold note
    split
    · exact hpos
    · exact hmin
  · unfold note
    dsimp only
    split
    · exact hle
    · exact hmax

theorem byte_div (c : UInt8) : c.toNat / 8 < 32 := by
  have hlt := c.toNat_lt
  omega

theorem known_note_self (h : Sized slen st) (hle : key.length ≤ slen) :
    Known (note st key) key := by
  refine ⟨?_, ?_, ?_, ?_⟩
  · unfold note
    dsimp only
    split <;> omega
  · unfold note
    dsimp only
    split <;> omega
  · exact (hasBit_setBit (by rw [h.numBitset]; omega)).mpr (.inl rfl)
  · exact (hasBit_setBit (by rw [h.bitset]; exact byte_div _)).mpr (.inl rfl)

/-- What has been noted stays noted. -/
theorem Known.note (hk : Known st k) (h : Sized slen st) (hle : key.length ≤ slen) :
    Known (note st key) k := by
  obtain ⟨hmin, hmax, hnum, hbit⟩ := hk
  refine ⟨?_, ?_, ?_, ?_⟩
  · unfold PhpStrtr.note
    dsimp only
    split <;> omega
  · unfold PhpStrtr.note
    dsimp only
    split <;> omega
  · exact (hasBit_setBit (by rw [h.numBitset]; omega)).mpr (.inr hnum)
  · exact (hasBit_setBit (by rw [h.bitset]; exact byte_div _)).mpr (.inr hbit)

/-- What a pass keeps. -/
def Kept (slen : ℕ) (st st' : Noted) : Prop :=
  Sized slen st' ∧ ∀ k, Known st k → Known st' k

theorem kept_note (h : Sized slen st) (hpos : 0 < key.length) (hle : key.length ≤ slen) :
    Kept slen st (note st key) :=
  ⟨sized_note h hpos hle, fun _ hk => hk.note h hle⟩

theorem Kept.trans {st' st'' : Noted} (h : Kept slen st st') (h' : Kept slen st' st'') :
    Kept slen st st'' :=
  ⟨h'.1, fun k hk => h'.2 k (h.2 k hk)⟩

/-- The first pass notes all string keys that are not too long. -/
theorem firstPass_spec (pats : List (Key × Bytes)) (numKeys : Bool) (h : Sized slen st)
    (hkeys : ∀ s entry, (Key.str s, entry) ∈ pats → s ≠ []) :
    ∃ numKeys' st', firstPass slen pats numKeys st = some (numKeys', st') ∧ Kept slen st st' ∧
      (∀ s entry, (Key.str s, entry) ∈ pats → s.length ≤ slen → Known st' s) ∧
      (numKeys' = true ↔ numKeys = true ∨ ∃ h entry, (Key.int h, entry) ∈ pats) := by
  induction pats generalizing numKeys st with
  | nil =>
    refine ⟨numKeys, st, rfl, ⟨h, fun _ hk => hk⟩, nofun, ?_⟩
    exact (or_iff_left (by rintro ⟨_, _, ⟨⟩⟩)).symm
  | cons pat pats ih =>
    obtain ⟨key, entry⟩ := pat
    cases key with
    | int n =>
      obtain ⟨numKeys', st', hpass, hkept, hknown, hnum⟩ := ih true h fun s e hs =>
        hkeys s e (mem_cons_of_mem _ hs)
      refine ⟨numKeys', st', hpass, hkept, fun s e hs => ?_, ?_⟩
      · rcases mem_cons.mp hs with heq | hs
        · cases heq
        · exact hknown s e hs
      · exact iff_of_true (hnum.mpr (.inl rfl)) (.inr ⟨n, entry, mem_cons_self⟩)
    | str t =>
      have hne : t ≠ [] := hkeys t entry mem_cons_self
      have hpos : 0 < t.length := length_pos_iff.mpr hne
      have htail : ∀ s e, (Key.str s, e) ∈ pats → s ≠ [] := fun s e hs =>
        hkeys s e (mem_cons_of_mem _ hs)
      have hints : (∃ n e, (Key.int n, e) ∈ (Key.str t, entry) :: pats) ↔
          ∃ n e, (Key.int n, e) ∈ pats := by
        simp only [mem_cons, Prod.mk.injEq, reduceCtorEq, false_and, false_or]
      rw [firstPass, if_neg (by omega), hints]
      by_cases hlong : t.length > slen
      · obtain ⟨numKeys', st', hpass, hkept, hknown, hnum⟩ := ih numKeys h htail
        rw [if_pos hlong]
        refine ⟨numKeys', st', hpass, hkept, fun s e hs hle => ?_, hnum⟩
        rcases mem_cons.mp hs with heq | hs
        · cases heq
          omega
        · exact hknown s e hs hle
      · have hnote := kept_note h hpos (by omega)
        obtain ⟨numKeys', st', hpass, hkept, hknown, hnum⟩ := ih numKeys hnote.1 htail
        rw [if_neg hlong]
        refine ⟨numKeys', st', hpass, hnote.trans hkept, fun s e hs hle => ?_, hnum⟩
        rcases mem_cons.mp hs with heq | hs
        · cases heq
          exact hkept.2 t (known_note_self h hle)
        · exact hknown s e hs hle

theorem lookup_cons_of_ne (hk : k ≠ key) : lookup k ((key, entry) :: table) = table.lookup k := by
  rw [lookup_cons, beq_eq_false_iff_ne.mpr hk]

/-- `zend_hash_add` puts an entry behind those that are there. -/
theorem lookup_hashAdd (table : List (Bytes × Bytes)) (key entry k : Bytes) :
    (hashAdd table key entry).lookup k = (table ++ [(key, entry)]).lookup k := by
  unfold hashAdd
  split
  · rw [lookup_append]
    by_cases hk : k = key
    · subst hk
      obtain ⟨v, hv⟩ := isSome_iff_exists.mp ‹(table.lookup k).isSome = true›
      rw [hv, some_or]
    · rw [lookup_cons_of_ne hk, lookup_nil, or_none]
  · rfl

theorem lookup_hashAdd_append (table rest : List (Bytes × Bytes)) (key entry k : Bytes) :
    (hashAdd table key entry ++ rest).lookup k = (table ++ (key, entry) :: rest).lookup k := by
  rw [lookup_append, lookup_hashAdd, ← lookup_append, append_assoc]
  rfl

/-- A pattern that is too long is not looked up. -/
theorem lookup_long (hlong : key.length > slen) (hk : k.length ≤ slen)
    (table rest : List (Bytes × Bytes)) :
    (table ++ (key, entry) :: rest).lookup k = (table ++ rest).lookup k := by
  have hne : k ≠ key := by
    rintro rfl
    omega
  rw [lookup_append, lookup_cons_of_ne hne, ← lookup_append]

theorem printLong_ne_nil (h : BitVec 64) : printLong h ≠ [] := by
  unfold printLong
  split
  · exact append_ne_nil_of_left_ne_nil (cons_ne_nil _ _) _
  · exact Decimal.print_ne_nil _

/-- The second pass notes all integer keys that are not too long, and its table has the patterns. -/
theorem secondPass_spec (pats : List (Key × Bytes))
    (table : List (Bytes × Bytes)) (h : Sized slen st) :
    Kept slen st (secondPass slen pats table st).2 ∧
      (∀ n entry, (Key.int n, entry) ∈ pats → (printLong n).length ≤ slen →
        Known (secondPass slen pats table st).2 (printLong n)) ∧ ∀ k, k.length ≤ slen →
        (secondPass slen pats table st).1.lookup k = (table ++ patterns pats).lookup k := by
  induction pats generalizing table st with
  | nil =>
    refine ⟨⟨h, fun _ hk => hk⟩, nofun, fun k _ => ?_⟩
    rw [patterns, map_nil, append_nil]
    rfl
  | cons pat pats ih =>
    obtain ⟨key, entry⟩ := pat
    cases key with
    | int n =>
      rw [secondPass]
      by_cases hlong : (printLong n).length > slen
      · obtain ⟨hkept, hknown, hlook⟩ := ih table h
        rw [if_pos hlong]
        refine ⟨hkept, fun m e hm hle => ?_, fun k hk => ?_⟩
        · rcases mem_cons.mp hm with heq | hm
          · cases heq
            omega
          · exact hknown m e hm hle
        · rw [hlook k hk]
          exact (lookup_long hlong hk table (patterns pats)).symm
      · have hnote := kept_note h (length_pos_iff.mpr (printLong_ne_nil n)) (by omega)
        obtain ⟨hkept, hknown, hlook⟩ := ih (hashAdd table (printLong n) entry) hnote.1
        rw [if_neg hlong]
        refine ⟨hnote.trans hkept, fun m e hm hle => ?_, fun k hk => ?_⟩
        · rcases mem_cons.mp hm with heq | hm
          · cases heq
            exact hkept.2 _ (known_note_self h hle)
          · exact hknown m e hm hle
        · rw [hlook k hk, lookup_hashAdd_append]
          rfl
    | str t =>
      rw [secondPass]
      have hmem : ∀ m e, (Key.int m, e) ∈ (Key.str t, entry) :: pats → (Key.int m, e) ∈ pats := by
        intro m e hm
        rcases mem_cons.mp hm with heq | hm
        · cases heq
        · exact hm
      by_cases hlong : t.length > slen
      · obtain ⟨hkept, hknown, hlook⟩ := ih table h
        rw [if_pos hlong]
        refine ⟨hkept, fun m e hm hle => hknown m e (hmem m e hm) hle, fun k hk => ?_⟩
        rw [hlook k hk]
        exact (lookup_long hlong hk table (patterns pats)).symm
      · obtain ⟨hkept, hknown, hlook⟩ := ih (hashAdd table t entry) h
        rw [if_neg hlong]
        refine ⟨hkept, fun m e hm hle => hknown m e (hmem m e hm) hle, fun k hk => ?_⟩
        rw [hlook k hk, lookup_hashAdd_append]
        rfl

/-- Without integer keys the table is that of the patterns. -/
theorem stringKeys_eq (pats : List (Key × Bytes))
    (h : ¬ ∃ n entry, (Key.int n, entry) ∈ pats) : stringKeys pats = patterns pats := by
  induction pats with
  | nil => rfl
  | cons pat pats ih =>
    obtain ⟨key, entry⟩ := pat
    have htail := ih fun ⟨n, e, hn⟩ => h ⟨n, e, mem_cons_of_mem _ hn⟩
    cases key with
    | int n => exact absurd ⟨n, entry, mem_cons_self⟩ h
    | str t => exact congrArg ((t, entry) :: ·) htail

/-! ## The search at a place -/

/-- What the passes have done: the table has the patterns that are not too long, and these are
noted. -/
structure Prepared (slen : ℕ) (pats : List (Key × Bytes))
    (table : List (Bytes × Bytes)) (st : Noted) : Prop where
  sized : Sized slen st
  lookup : ∀ k, k.length ≤ slen → table.lookup k = (patterns pats).lookup k
  known : ∀ k entry, k.length ≤ slen → (patterns pats).lookup k = some entry → Known st k

theorem longest_none
    (h : ∀ m, 0 < m → m ≤ n → ps.lookup (s.take m) = none) : longest ps s n = none := by
  induction n with
  | zero => rfl
  | succ n ih =>
    rw [longest, h (n + 1) (Nat.succ_pos n) le_rfl]
    exact ih fun m hm hle => h m hm (Nat.le_succ_of_le hle)

variable {m : ℕ}

/-- Lengths with which nothing is found do not matter. -/
theorem longest_le (hmn : m ≤ n)
    (h : ∀ j, m < j → j ≤ n → ps.lookup (s.take j) = none) : longest ps s n = longest ps s m := by
  induction n with
  | zero =>
    obtain rfl := Nat.le_zero.mp hmn
    rfl
  | succ n ih =>
    rcases lt_or_eq_of_le hmn with hlt | rfl
    · rw [longest, h (n + 1) hlt le_rfl]
      exact ih (Nat.le_of_lt_succ hlt) fun j hj hle => h j hj (Nat.le_succ_of_le hle)
    · rfl

section Place

variable (hp : Prepared slen pats table st) (hs : s.length ≤ slen)

include hp hs

/-- A pattern at a place is noted, with its length and its first byte. -/
theorem known_of_lookup (hm : m ≤ s.length) (h : (patterns pats).lookup (s.take m) = some entry) :
    st.minlen ≤ m ∧ m ≤ st.maxlen ∧ hasBit st.numBitset m = true ∧
      hasBit st.bitset (s.headD 0).toNat = true := by
  have hlen : (s.take m).length = m := by rw [length_take, min_eq_left hm]
  obtain ⟨hmin, hmax, hnum, hbit⟩ := hp.known _ entry (by omega) h
  rw [hlen] at hmin hmax hnum
  have hpos := hp.sized.minlen_pos
  have hhead : (s.take m).headD 0 = s.headD 0 := by
    obtain ⟨m, rfl⟩ := Nat.exists_eq_succ_of_ne_zero (show m ≠ 0 by omega)
    cases s <;> rfl
  rw [hhead] at hbit
  exact ⟨hmin, hmax, hnum, hbit⟩

theorem lookup_none (hm : m ≤ s.length)
    (h : ¬ (st.minlen ≤ m ∧ m ≤ st.maxlen ∧ hasBit st.numBitset m = true ∧
      hasBit st.bitset (s.headD 0).toNat = true)) : (patterns pats).lookup (s.take m) = none := by
  cases hlook : (patterns pats).lookup (s.take m) with
  | none => rfl
  | some entry => exact absurd (known_of_lookup hp hs hm hlook) h

theorem findPattern_eq (hlen : len ≤ s.length) :
    findPattern table st s len = longest (patterns pats) s len := by
  induction len with
  | zero => rfl
  | succ len ih =>
    rw [findPattern]
    have htake : (s.take (len + 1)).length ≤ slen := by
      rw [length_take]
      omega
    by_cases hmin : len + 1 ≥ st.minlen
    · rw [if_pos hmin, ih (Nat.le_of_succ_le hlen), longest, hp.lookup _ htake]
      by_cases hbit : hasBit st.numBitset (len + 1) = true
      · rw [if_pos hbit]
      · rw [if_neg hbit, lookup_none hp hs hlen fun h => hbit h.2.2.1]
    · rw [if_neg hmin]
      exact (longest_none fun m _ hm => lookup_none hp hs (by omega) fun h => hmin (by omega)).symm

/-- What the bitsets exclude at a place is no pattern. -/
theorem patternRule_eq : patternRule pats s =
      if st.minlen ≤ s.length ∧ hasBit st.bitset (s.headD 0).toNat = true then
        findPattern table st s (if st.maxlen > s.length then s.length else st.maxlen)
      else none := by
  split
  · rw [findPattern_eq hp hs (by split <;> omega)]
    refine longest_le (by split <;> omega) fun j hj hle => lookup_none hp hs hle fun h => ?_
    split at hj <;> omega
  · rename_i hno
    exact longest_none fun m _ hm => lookup_none hp hs hm fun h => hno ⟨by omega, h.2.2.2⟩

end Place

/-! ## The loop -/

/-- The part of the text from `oldPos` to a place, and one byte more. -/
theorem take_succ_eq {input : Bytes} {pos oldPos : ℕ} (hold : oldPos ≤ pos) :
    (input.drop oldPos).take (pos + 1 - oldPos) =
      (input.drop oldPos).take (pos - oldPos) ++ (input.drop pos).take 1 := by
  rw [Nat.sub_add_comm hold, take_add, drop_drop, Nat.add_sub_of_le hold]

section Loop

variable {input : Bytes} (hp : Prepared input.length pats table st)

include hp

theorem patternRule_of_short (hs : s.length ≤ input.length)
    (hlt : s.length < st.minlen) : patternRule pats s = none := by
  rw [patternRule_eq hp hs, if_neg fun h => absurd h.1 (not_le.mpr hlt)]

/-- What is written and the rest of the text are the text with everything replaced. -/
theorem strtrLoop_spec (hmm : st.minlen ≤ st.maxlen) (fuel pos oldPos : ℕ)
    (result : Option Bytes) (hold : oldPos ≤ pos) (hpos : pos ≤ input.length)
    (hfuel : input.length - pos < fuel) :
    ∃ result' oldPos', strtrLoop input table st fuel pos oldPos result = some (result', oldPos') ∧
      result'.getD [] ++ input.drop oldPos' =
        result.getD [] ++ (input.drop oldPos).take (pos - oldPos) ++
          rewrite (patternRule pats) 0 (input.drop pos) ∧
      (result' = none → result = none ∧ oldPos' = oldPos) := by
  induction fuel generalizing pos oldPos result with
  | zero => exact absurd hfuel (Nat.not_lt_zero _)
  | succ fuel ih =>
    have hmin := hp.sized.minlen_pos
    have hmax := hp.sized.maxlen_le
    have hslen : (input.drop pos).length = input.length - pos := length_drop
    rw [strtrLoop]
    by_cases hroom : pos ≤ input.length - st.minlen
    · have hne : input.drop pos ≠ [] := ne_nil_of_length_pos (by omega)
      have hrule := patternRule_eq hp (show (input.drop pos).length ≤ input.length by omega)
      have hmiss : patternRule pats (input.drop pos) = none →
          ∃ result' oldPos',
            strtrLoop input table st fuel (pos + 1) oldPos result = some (result', oldPos') ∧
            result'.getD [] ++ input.drop oldPos' =
              result.getD [] ++ (input.drop oldPos).take (pos - oldPos) ++
                rewrite (patternRule pats) 0 (input.drop pos) ∧
            (result' = none → result = none ∧ oldPos' = oldPos) := by
        intro hnone
        obtain ⟨result', oldPos', hloop, htext, hno⟩ := ih (pos + 1) oldPos result (by omega)
          (by omega) (by omega)
        refine ⟨result', oldPos', hloop, ?_, hno⟩
        have hone : ∀ i < 1, patternRule pats ((input.drop pos).drop i) = none := by
          intro i hi
          obtain rfl := Nat.lt_one_iff.mp hi
          exact hnone
        rw [htext, take_succ_eq hold, rewrite_miss hone (by omega), drop_drop]
        simp only [append_assoc]
      rw [if_pos hroom]
      dsimp only
      by_cases hbit : hasBit st.bitset ((input.drop pos).headD 0).toNat = true
      · rw [if_pos ⟨by omega, hbit⟩, hslen] at hrule
        rw [if_pos hbit, ← hrule]
        match hfound : patternRule pats (input.drop pos) with
        | none => exact hmiss hfound
        | some (entry, len) =>
          obtain ⟨hlen, hle, -⟩ := longest_eq_some.mp hfound
          obtain ⟨result', oldPos', hloop, htext, hno⟩ := ih (pos + len) (pos + len)
            (some (result.getD [] ++ (input.drop oldPos).take (pos - oldPos) ++ entry)) le_rfl
            (by omega) (by omega)
          refine ⟨result', oldPos', ?_, ?_, fun h => nomatch (hno h).1⟩
          · dsimp only
            rw [Nat.sub_add_cancel (show 1 ≤ pos + len by omega)]
            exact hloop
          · rw [htext, rewrite_hit hne hfound hlen, drop_drop, getD_some, Nat.sub_self,
              take_zero, append_nil]
            simp only [append_assoc]
      · rw [if_neg hbit]
        exact hmiss (hrule.trans (if_neg fun h => hbit h.2))
    · rw [if_neg hroom]
      refine ⟨result, oldPos, rfl, ?_, fun h => ⟨h, rfl⟩⟩
      have hnone : ∀ i < (input.drop pos).length,
          patternRule pats ((input.drop pos).drop i) = none := by
        intro i _
        refine patternRule_of_short hp ?_ ?_ <;> rw [length_drop] <;> omega
      rw [rewrite_none hnone, append_assoc]
      conv_lhs => rw [← take_append_drop (pos - oldPos) (input.drop oldPos)]
      rw [drop_drop, Nat.add_sub_of_le hold]

end Loop

/-- What the passes do. -/
theorem prepared_of_passes (input : Bytes) (pats : List (Key × Bytes))
    (hkeys : ∀ s entry, (Key.str s, entry) ∈ pats → s ≠ []) :
    ∃ numKeys st0, firstPass input.length pats false ⟨128 * 1024, 0,
        replicate ((input.length + 8) / 8) 0, replicate (256 / 8) 0⟩ = some (numKeys, st0) ∧
      Prepared input.length pats
        (if numKeys then secondPass input.length pats [] st0 else (stringKeys pats, st0)).1
        (if numKeys then secondPass input.length pats [] st0 else (stringKeys pats, st0)).2 := by
  have hstart : Sized input.length ⟨128 * 1024, 0, replicate ((input.length + 8) / 8) 0,
      replicate (256 / 8) 0⟩ :=
    ⟨show 0 < 128 * 1024 by decide, Nat.zero_le _, length_replicate, length_replicate⟩
  obtain ⟨numKeys, st0, hpass, hkept, hknown, hnum⟩ := firstPass_spec pats false hstart hkeys
  refine ⟨numKeys, st0, hpass, ?_⟩
  have hpattern : ∀ k entry, (patterns pats).lookup k = some entry →
      ∃ key, keyText key = k ∧ (key, entry) ∈ pats := by
    intro k entry h
    obtain ⟨l1, l2, heq, -⟩ := lookup_eq_some_iff.mp h
    have hmem : (k, entry) ∈ patterns pats := by
      rw [heq]
      exact mem_append_right _ mem_cons_self
    obtain ⟨⟨key, e⟩, hpat, heq⟩ := mem_map.mp hmem
    cases heq
    exact ⟨key, rfl, hpat⟩
  cases numKeys with
  | false =>
    have hno : ¬ ∃ n entry, (Key.int n, entry) ∈ pats := fun h =>
      Bool.false_ne_true (hnum.mpr (Or.inr h))
    rw [if_neg Bool.false_ne_true]
    refine ⟨hkept.1, fun k _ => ?_, fun k entry hle h => ?_⟩
    · rw [stringKeys_eq pats hno]
    · obtain ⟨key, rfl, hpat⟩ := hpattern k entry h
      cases key with
      | int n => exact absurd ⟨n, entry, hpat⟩ hno
      | str t => exact hknown t entry hpat hle
  | true =>
    obtain ⟨hkept', hknown', hlook⟩ := secondPass_spec pats [] hkept.1
    refine ⟨hkept'.1, fun k hk => hlook k hk, fun k entry hle h => ?_⟩
    obtain ⟨key, rfl, hpat⟩ := hpattern k entry h
    cases key with
    | int n => exact hknown' n entry hpat hle
    | str t => exact hkept'.2 t (hknown t entry hpat hle)

/-- `php_strtr_array` replaces the longest pattern at each place, from the left. -/
theorem strtrArray_eq (input : Bytes) (pats : List (Key × Bytes))
    (hkeys : ∀ s entry, (Key.str s, entry) ∈ pats → s ≠ []) :
    strtrArray input pats = some (some (rewrite (patternRule pats) 0 input)) := by
  obtain ⟨numKeys, st0, hpass, hp⟩ := prepared_of_passes input pats hkeys
  unfold strtrArray
  dsimp only
  rw [hpass]
  dsimp only
  generalize (if numKeys then secondPass input.length pats [] st0 else (stringKeys pats, st0)) = res
    at hp ⊢
  obtain ⟨table, st⟩ := res
  dsimp only at hp ⊢
  by_cases hmm : st.minlen > st.maxlen
  · have hnone : ∀ i < input.length, patternRule pats (input.drop i) = none := by
      intro i _
      refine longest_none fun m _ hm => lookup_none hp ?_ hm fun h => by omega
      rw [length_drop]
      exact Nat.sub_le _ _
    rw [if_pos hmm, rewrite_none hnone]
  · obtain ⟨result, oldPos, hloop, htext, hno⟩ := strtrLoop_spec hp (Nat.le_of_not_lt hmm)
      (input.length + 1) 0 0 none le_rfl (Nat.zero_le _) (by omega)
    rw [if_neg hmm, hloop, map_some]
    rw [getD_none, nil_append, take_zero, nil_append, drop_zero] at htext
    match result, htext, hno with
    | some written, htext, _ =>
      rw [← htext, take_of_length_le (by rw [length_drop])]
      rfl
    | none, htext, hno =>
      rw [← htext, (hno rfl).2]
      rfl

end PhpStrtr
