/-
# Records and name-value pairs

What the other end of a FastCGI connection reads.  A stream of bytes is a list of records,
each with a header of 8 bytes, its content and its padding; the content of the parameters
is a list of pairs of a name and a value, each after its length, which takes one byte below
128 and four bytes otherwise.

Both lists are read in the same way, with a reader of one item that is used until nothing is
left.
-/
import Mathlib
import ReadingCode.Bytes

namespace FastcgiWire

open List Option

/-! ## Reading a list -/

section

variable {A : Type*}

/-- At most `fuel` items, one after the other, that are all there is to read. -/
def readLoop (read : Bytes → Option (A × Bytes)) :
    ℕ → Bytes → Option (List A)
  | _, [] => some []
  | 0, _ :: _ => none
  | fuel + 1, s =>
    (read s).bind fun (a, t) => (readLoop read fuel t).map (a :: ·)

/-- All items of `s`. -/
def readAll (read : Bytes → Option (A × Bytes)) (s : Bytes) : Option (List A) :=
  readLoop read s.length s

variable {read : Bytes → Option (A × Bytes)}

@[simp] theorem readAll_nil : readAll read [] = some [] := rfl

/-- No item is read from nothing. -/
def Consumes (read : Bytes → Option (A × Bytes)) : Prop :=
  ∀ s a t, read s = some (a, t) → t.length < s.length

theorem readLoop_fuel (h : Consumes read) : ∀ (m n : ℕ) (s : Bytes), s.length ≤ m → s.length ≤ n →
      readLoop read m s = readLoop read n s := by
  intro m
  induction m with
  | zero =>
    intro n s hm hn
    rcases s with _ | ⟨b, s⟩
    · rcases n with _ | n <;> rfl
    · exact absurd hm (Nat.not_succ_le_zero _)
  | succ m ih =>
    intro n s hm hn
    rcases s with _ | ⟨b, s⟩
    · rcases n with _ | n <;> rfl
    · rcases n with _ | n
      · exact absurd hn (Nat.not_succ_le_zero _)
      · simp only [readLoop]
        rcases hread : read (b :: s) with _ | ⟨a, t⟩
        · rfl
        · have ht := h _ _ _ hread
          simp only [bind_some]
          rw [ih n t (by omega) (by omega)]

theorem readAll_cons (h : Consumes read) {s t : Bytes} {a : A}
    (hread : read s = some (a, t)) : readAll read s = (readAll read t).map (a :: ·) := by
  have ht := h _ _ _ hread
  rcases s with _ | ⟨b, s⟩
  · exact absurd ht (Nat.not_lt_zero _)
  · rw [length_cons] at ht
    rw [readAll, length_cons]
    simp only [readLoop, hread, bind_some]
    rw [readAll, readLoop_fuel h s.length t.length t (by omega) (Nat.le_refl _)]

/-- Items that are read whatever comes after them are read one after the other. -/
theorem readAll_flatMap {B : Type*} (h : Consumes read) (enc : B → Bytes) (val : B → A) :
    ∀ (bs : List B) (t : Bytes), (∀ b ∈ bs, ∀ u, read (enc b ++ u) = some (val b, u)) →
      readAll read (bs.flatMap enc ++ t) = (readAll read t).map (bs.map val ++ ·) := by
  intro bs t hread
  induction bs with
  | nil => simp
  | cons b bs ih =>
    rw [flatMap_cons, append_assoc, readAll_cons h (hread b mem_cons_self _), ih fun
      c hc => hread c (mem_cons_of_mem _ hc), Option.map_map]
    rfl

/-- Items that take at least `size` bytes each take no more than there are. -/
theorem sum_le_of_readLoop (size : A → ℕ)
    (hsize : ∀ s a t, read s = some (a, t) → size a + t.length ≤ s.length) :
    ∀ (fuel : ℕ) (s : Bytes) (as : List A), readLoop read fuel s = some as →
      (as.map size).sum ≤ s.length := by
  intro fuel
  induction fuel with
  | zero =>
    intro s as h
    rcases s with _ | ⟨b, s⟩
    · cases h
      exact le_rfl
    · cases h
  | succ fuel ih =>
    intro s as h
    rcases s with _ | ⟨b, s⟩
    · cases h
      exact le_rfl
    · simp only [readLoop] at h
      obtain ⟨⟨a, t⟩, hread, hloop⟩ := bind_eq_some_iff.1 h
      obtain ⟨as', hall, rfl⟩ := map_eq_some_iff.1 hloop
      have h1 := hsize _ _ _ hread
      have h2 := ih t as' hall
      rw [map_cons, sum_cons]
      dsimp only at h1 ⊢
      omega

end

/-! ## Lengths -/

/-- A length: one byte below 128, or four bytes of which the first has its top bit set. -/
def readLength : Bytes → Option (ℕ × Bytes)
  | [] => none
  | b :: s =>
    if b.toNat < 128 then some (b.toNat, s)
    else
      match s with
      | b2 :: b1 :: b0 :: s =>
        some ((b.toNat - 128) * 2 ^ 24 + b2.toNat * 2 ^ 16 + b1.toNat * 2 ^ 8 + b0.toNat, s)
      | _ => none

/-- The number of bytes that a length takes. -/
def lengthSize (n : ℕ) : ℕ := if n < 128 then 1 else 4

theorem lengthSize_pos (n : ℕ) : 0 < lengthSize n := by
  unfold lengthSize
  split_ifs <;> omega

theorem readLength_size {s t : Bytes} {n : ℕ} (h : readLength s = some (n, t)) :
    lengthSize n + t.length ≤ s.length := by
  unfold readLength at h
  split at h
  · cases h
  · split_ifs at h with hb
    · cases h
      rw [lengthSize, if_pos hb, length_cons]
      omega
    · split at h
      · cases h
        rw [lengthSize]
        simp only [length_cons]
        split_ifs <;> omega
      · cases h

/-! ## Pairs -/

/-- One pair of a name and a value. -/
def readPair (s : Bytes) : Option ((Bytes × Bytes) × Bytes) :=
  (readLength s).bind fun (n, s) => (readLength s).bind fun (m, s) =>
    if s.length < n + m then none
    else some ((s.take n, (s.drop n).take m), s.drop (n + m))

/-- All pairs of a name and a value. -/
def readPairs : Bytes → Option (List (Bytes × Bytes)) := readAll readPair

/-- The number of bytes that a pair takes. -/
def pairSize (p : Bytes × Bytes) : ℕ :=
  lengthSize p.1.length + lengthSize p.2.length + p.1.length + p.2.length

theorem readPair_size {s t : Bytes} {p : Bytes × Bytes}
    (h : readPair s = some (p, t)) : pairSize p + t.length ≤ s.length := by
  obtain ⟨⟨n, s1⟩, h1, h⟩ := bind_eq_some_iff.1 h
  obtain ⟨⟨m, s2⟩, h2, h⟩ := bind_eq_some_iff.1 h
  dsimp only at h
  split_ifs at h with hlt
  cases h
  have hn := readLength_size h1
  have hm := readLength_size h2
  have htake : (s2.take n).length = n := length_take_of_le (by omega)
  have hdrop : ((s2.drop n).take m).length = m :=
    length_take_of_le (by rw [length_drop]; omega)
  simp only [pairSize, htake, hdrop, length_drop]
  omega

theorem consumes_readPair : Consumes readPair := by
  intro s p t h
  have h1 := readPair_size h
  have h2 := lengthSize_pos p.1.length
  rw [pairSize] at h1
  omega

theorem readPair_of_lengths {n m name value : Bytes}
    (hn : ∀ u, readLength (n ++ u) = some (name.length, u))
    (hm : ∀ u, readLength (m ++ u) = some (value.length, u)) (u : Bytes) :
    readPair (n ++ m ++ name ++ value ++ u) = some ((name, value), u) := by
  simp only [readPair, append_assoc, hn, hm, bind_some, length_append]
  simp [drop_append]

theorem sum_pairSize_le {s : Bytes} {ps : List (Bytes × Bytes)}
    (h : readPairs s = some ps) : (ps.map pairSize).sum ≤ s.length :=
  sum_le_of_readLoop pairSize (fun _ _ _ => readPair_size) _ _ _ h

/-! ## Records -/

structure Record where
  type : UInt8
  requestId : ℕ
  content : Bytes
  padding : ℕ
  deriving DecidableEq, Repr

/-- One record of version 1. -/
def readRecord : Bytes → Option (Record × Bytes)
  | v :: type :: idHi :: idLo :: lenHi :: lenLo :: padding :: _ :: s =>
    let n := lenHi.toNat * 2 ^ 8 + lenLo.toNat
    if v ≠ 1 ∨ s.length < n + padding.toNat then none
    else
      some (⟨type, idHi.toNat * 2 ^ 8 + idLo.toNat, s.take n, padding.toNat⟩,
        s.drop (n + padding.toNat))
  | _ => none

/-- All records. -/
def readRecords : Bytes → Option (List Record) := readAll readRecord

theorem consumes_readRecord : Consumes readRecord := by
  intro s r t h
  unfold readRecord at h
  split at h
  · dsimp only at h
    split_ifs at h
    cases h
    simp only [length_drop, length_cons]
    omega
  · cases h

/-- The content and the padding that a header declares are read after it. -/
theorem readRecord_append (type idHi idLo lenHi lenLo padding reserved : UInt8)
    {content pad : Bytes} (hlen : content.length = lenHi.toNat * 2 ^ 8 + lenLo.toNat)
    (hpad : pad.length = padding.toNat) (u : Bytes) : readRecord
        ([1, type, idHi, idLo, lenHi, lenLo, padding, reserved] ++ content ++ pad ++ u)
      = some (⟨type, idHi.toNat * 2 ^ 8 + idLo.toNat, content, pad.length⟩, u) := by
  simp only [readRecord, cons_append, nil_append, append_assoc, length_append]
  rw [← hlen, ← hpad]
  simp [drop_append]

end FastcgiWire
