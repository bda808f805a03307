/-
# Comparison in natural order

`strnatcmp_ex` compares numbers in two strings by their values, and everything else by its bytes.
Each string has a key that does not depend on the other one, and the comparison is the one of the
keys in lexicographic order.
-/
import Mathlib
import ReadingCode.Bytes

namespace StrNatCmp

open List

/-- `isdigit` -/
def isdigit (c : UInt8) : Bool := 48 ≤ c ∧ c ≤ 57

/-- What the locale has on bytes. -/
structure Ctype where
  isspace : UInt8 → Bool
  toupper : UInt8 → UInt8
  isspace_nul : isspace 0 = false
  toupper_digit : ∀ c, isdigit c = true → toupper c = c
  isdigit_toupper : ∀ c, isdigit c = false → isdigit (toupper c) = false

/-! A pointer into a string is what there is from it on, with the NUL at the end.  At the end of the
string one byte is left, and behind it none, so that nothing can be read there. -/

/-- `compare_right`, with both pointers when it returns. -/
def compareRight : ℤ → Bytes → Bytes → Option (ℤ × Bytes × Bytes)
  | bias, c :: a, d :: b =>
    if (a = [] ∨ ¬ isdigit c) ∧ (b = [] ∨ ¬ isdigit d) then some (bias, c :: a, d :: b)
    else if a = [] ∨ ¬ isdigit c then some (-1, c :: a, d :: b)
    else if b = [] ∨ ¬ isdigit d then some (1, c :: a, d :: b)
    else if c < d then compareRight (if bias = 0 then -1 else bias) a b
    else if c > d then compareRight (if bias = 0 then 1 else bias) a b
    else compareRight bias a b
  | _, _, _ => none

/-- `compare_left` -/
def compareLeft : Bytes → Bytes → Option (ℤ × Bytes × Bytes)
  | c :: a, d :: b =>
    if (a = [] ∨ ¬ isdigit c) ∧ (b = [] ∨ ¬ isdigit d) then some (0, c :: a, d :: b)
    else if a = [] ∨ ¬ isdigit c then some (-1, c :: a, d :: b)
    else if b = [] ∨ ¬ isdigit d then some (1, c :: a, d :: b)
    else if c < d then some (-1, c :: a, d :: b)
    else if c > d then some (1, c :: a, d :: b)
    else compareLeft a b
  | _, _ => none

/-- Leading zeros in front of a digit are skipped. -/
def skipZeros : Bytes → Bytes
  | c :: d :: e :: p => if c = 48 ∧ isdigit d then skipZeros (d :: e :: p) else c :: d :: e :: p
  | p => p

variable (ctype : Ctype) (foldCase : Bool)

/-- Whitespace is skipped without a look at the end. -/
def skipSpaces : Bytes → Option Bytes
  | [] => none
  | c :: p => if ctype.isspace c then skipSpaces p else some (c :: p)

/-- `toupper` if `fold_case` is set. -/
def fold (c : UInt8) : UInt8 := if foldCase then ctype.toupper c else c

/-- The end of the loop's body: the bytes are compared, and the loop goes on with the next ones. -/
def compareBytes (next : Bytes → Bytes → Option ℤ) (ap bp : Bytes) : Option ℤ := do
  let ca := fold ctype foldCase (← ap.head?)
  let cb := fold ctype foldCase (← bp.head?)
  if ca < cb then return -1
  else if ca > cb then return 1
  else if ap.tail.length ≤ 1 ∧ bp.tail.length ≤ 1 then return 0
  else if ap.tail.length ≤ 1 then return -1
  else if bp.tail.length ≤ 1 then return 1
  else next ap.tail bp.tail

/-- The loop's body behind the leading zeros and the whitespace. -/
def round (next : Bytes → Bytes → Option ℤ) (ap bp : Bytes) : Option ℤ := do
  let ca ← ap.head?
  let cb ← bp.head?
  if isdigit ca ∧ isdigit cb then
    let fractional := ca = 48 ∨ cb = 48
    let runs := if fractional then compareLeft ap bp else compareRight 0 ap bp
    let (result, ap, bp) ← runs
    if result ≠ 0 then return result
    else if ap.length = 1 ∧ bp.length = 1 then return 0
    else compareBytes ctype foldCase next ap bp
  else compareBytes ctype foldCase next ap bp

/-- The loop of `strnatcmp_ex`, with at most `fuel` rounds. -/
def strnatcmpLoop : ℕ → Bool → Bytes → Bytes → Option ℤ
  | 0, _, _, _ => none
  | fuel + 1, leading, ap, bp => do
    let ap ← skipSpaces ctype (if leading then skipZeros ap else ap)
    let bp ← skipSpaces ctype (if leading then skipZeros bp else bp)
    round ctype foldCase (strnatcmpLoop fuel false) ap bp

/-- `strnatcmp_ex`, where `none` is a byte that is read behind the NUL of a string, or a loop that
does not end. -/
def strnatcmpEx (a b : Bytes) : Option ℤ :=
  if a.length = 0 ∨ b.length = 0 then
    some (if a.length = b.length then 0 else if a.length > b.length then 1 else -1)
  else strnatcmpLoop ctype foldCase a.length true (a ++ [0]) (b ++ [0])

/-! ## Signs -/

/-- The sign that a comparison has. -/
def order {α : Type} [LinearOrder α] (x y : α) : ℤ := if x < y then -1 else if y < x then 1 else 0

section Order

variable {α : Type} [LinearOrder α] {x y : α} {l m : List α}

theorem order_swap (x y : α) : order x y = -order y x := by
  unfold order
  rcases lt_trichotomy x y with h | h | h
  · rw [if_pos h, if_neg h.asymm, if_pos h]
  · rw [h, if_neg (lt_irrefl y), if_neg (lt_irrefl y)]
    rfl
  · rw [if_neg h.asymm, if_pos h, if_pos h]
    rfl

theorem order_le_zero_iff : order x y ≤ 0 ↔ x ≤ y := by
  unfold order
  rcases lt_trichotomy x y with h | h | h
  · rw [if_pos h]
    exact iff_of_true (by decide) h.le
  · rw [h, if_neg (lt_irrefl y), if_neg (lt_irrefl y)]
    exact iff_of_true (by decide) le_rfl
  · rw [if_neg h.asymm, if_pos h]
    exact iff_of_false (by decide) h.not_ge

theorem order_of_lt (h : x < y) : order x y = -1 := if_pos h

theorem order_of_gt (h : y < x) : order x y = 1 := (if_neg h.asymm).trans (if_pos h)

theorem order_self (x : α) : order x x = 0 := by
  rw [order, if_neg (lt_irrefl x), if_neg (lt_irrefl x)]

theorem order_cons_of_lt (h : x < y) : order (x :: l) (y :: m) = -1 :=
  order_of_lt (cons_lt_cons_iff.mpr (.inl h))

theorem order_cons_of_gt (h : y < x) : order (x :: l) (y :: m) = 1 :=
  order_of_gt (cons_lt_cons_iff.mpr (.inl h))

theorem order_cons_self (x : α) (l m : List α) : order (x :: l) (x :: m) = order l m := by
  rcases lt_trichotomy l m with h | rfl | h
  · rw [order_of_lt h, order_of_lt (cons_lt_cons_iff.mpr (.inr ⟨rfl, h⟩))]
  · rw [order_self, order_self]
  · rw [order_of_gt h, order_of_gt (cons_lt_cons_iff.mpr (.inr ⟨rfl, h⟩))]

theorem order_nil_cons (x : α) (l : List α) : order [] (x :: l) = -1 :=
  order_of_lt (nil_lt_cons x l)

theorem order_cons_nil (x : α) (l : List α) : order (x :: l) [] = 1 :=
  order_of_gt (nil_lt_cons x l)

/-- Lists of one length are compared before what follows them. -/
theorem order_append (h : l.length = m.length) (k n : List α) :
    order (l ++ k) (m ++ n) = if order l m ≠ 0 then order l m else order k n := by
  induction l generalizing m with
  | nil =>
    obtain rfl := length_eq_zero_iff.mp h.symm
    rfl
  | cons x l ih =>
    match m, h with
    | y :: m, h =>
      rw [cons_append, cons_append]
      rcases lt_trichotomy x y with hxy | rfl | hxy
      · rw [order_cons_of_lt hxy, order_cons_of_lt hxy, if_pos (by decide)]
      · rw [order_cons_self, order_cons_self, ih (Nat.succ.inj h)]
      · rw [order_cons_of_gt hxy, order_cons_of_gt hxy, if_pos (by decide)]

end Order

/-! ## Runs of digits -/

/-- A pointer into a string: a NUL is at the end. -/
def Terminated (p : Bytes) : Prop := ∃ s, p = s ++ [0]

/-- A pointer behind a run of digits. -/
def Behind (p : Bytes) : Prop := Terminated p ∧ ∀ c r, p = c :: r → isdigit c = false

variable {c d : UInt8} {a b p q r r' t t' : Bytes}

theorem Terminated.ne_nil (h : Terminated p) : p ≠ [] := by
  obtain ⟨s, rfl⟩ := h
  exact concat_ne_nil 0 s

theorem Terminated.exists_cons (h : Terminated p) : ∃ c r, p = c :: r :=
  exists_cons_of_ne_nil h.ne_nil

/-- What is behind a byte that is not the NUL at the end. -/
theorem Terminated.tail (h : Terminated (c :: p)) (hp : p ≠ []) : Terminated p := by
  obtain ⟨s, hs⟩ := h
  match s, hs with
  | [], hs => exact absurd (List.cons.inj hs).2 hp
  | _ :: s, hs => exact ⟨s, (List.cons.inj hs).2⟩

theorem Terminated.of_ne_zero (h : Terminated (c :: p)) (hc : c ≠ 0) : Terminated p := by
  refine h.tail fun hp => ?_
  obtain ⟨s, hs⟩ := h
  subst hp
  match s, hs with
  | [], hs => exact hc (List.cons.inj hs).1
  | _ :: s, hs => exact concat_ne_nil 0 s (List.cons.inj hs).2.symm

theorem Terminated.eq_zero (h : Terminated [c]) : c = 0 := by
  by_contra hc
  exact (h.of_ne_zero hc).ne_nil rfl

/-- The two tests of a pointer in front of a run and behind it. -/
theorem not_stops (ht : Behind t) (hc : isdigit c = true) :
    ¬ (r ++ t = [] ∨ ¬ isdigit c = true) := by
  rintro (h | h)
  · exact ht.1.ne_nil (append_eq_nil_iff.mp h).2
  · exact h hc

theorem digit_pos (hc : isdigit c = true) : 0 < c.toNat := by
  rw [isdigit, decide_eq_true_iff] at hc
  exact lt_of_lt_of_le (by decide) hc.1

theorem stops (ht : Behind (c :: p)) : p = [] ∨ ¬ isdigit c = true :=
  .inr (Bool.eq_false_iff.mp (ht.2 c p rfl))

/-- What comes first of two bytes, of two runs and of what follows them. -/
abbrev codes (r : Bytes) : List ℕ := r.map UInt8.toNat

theorem byte_trichotomy (c d : UInt8) :
    (c < d ∧ c.toNat < d.toNat) ∨ c = d ∨ (c > d ∧ d.toNat < c.toNat) := by
  rcases lt_trichotomy c.toNat d.toNat with h | h | h
  · exact .inl ⟨UInt8.lt_iff_toNat_lt.mpr h, h⟩
  · exact .inr (.inl (UInt8.toNat_inj.mp h))
  · exact .inr (.inr ⟨UInt8.lt_iff_toNat_lt.mpr h, h⟩)

theorem byte_lt_irrefl (c : UInt8) : ¬ c < c := fun h =>
  lt_irrefl c.toNat (UInt8.lt_iff_toNat_lt.mp h)

theorem byte_lt_asymm (h : c < d) : ¬ d < c := fun h' =>
  lt_asymm (UInt8.lt_iff_toNat_lt.mp h) (UInt8.lt_iff_toNat_lt.mp h')

/-- What `compare_right` returns: the longer run is greater, and among runs of one length the bias
or else their digits decide. -/
def RightResult (bias : ℤ) (r r' t t' : Bytes) : Option (ℤ × Bytes × Bytes) → Prop
  | none => False
  | some (res, p, q) =>
    (r.length < r'.length → res = -1) ∧ (r'.length < r.length → res = 1) ∧
      (r.length = r'.length →
        res = (if bias ≠ 0 then bias else order (codes r) (codes r')) ∧ p = t ∧ q = t')

/-- A step of `compare_right` over two digits. -/
theorem RightResult.cons {bias bias' : ℤ} {res : Option (ℤ × Bytes × Bytes)}
    (h : RightResult bias' r r' t t' res)
    (hbias : (if bias' ≠ 0 then bias' else order (codes r) (codes r')) =
      if bias ≠ 0 then bias else order (codes (c :: r)) (codes (d :: r'))) :
    RightResult bias (c :: r) (d :: r') t t' res := by
  match res, h with
  | some (res, p, q), ⟨hlt, hgt, heq⟩ =>
    refine ⟨fun h => hlt (Nat.lt_of_succ_lt_succ h), fun h => hgt (Nat.lt_of_succ_lt_succ h),
      fun h => ?_⟩
    rw [← hbias]
    exact heq (Nat.succ.inj h)

/-- The bias keeps the first difference. -/
theorem bias_first {bias k : ℤ} (hk : k ≠ 0) (n : ℤ) :
    (if (if bias = 0 then k else bias) ≠ 0 then (if bias = 0 then k else bias) else n) =
      if bias ≠ 0 then bias else k := by
  by_cases h : bias = 0
  · rw [if_pos h, if_pos hk, if_neg (not_not.mpr h)]
  · rw [if_neg h]
    exact (if_pos h).trans (if_pos h).symm

theorem compareRight_runs (ht : Behind t) (ht' : Behind t') (bias : ℤ)
    (hr : ∀ c ∈ r, isdigit c = true) (hr' : ∀ c ∈ r', isdigit c = true) :
    RightResult bias r r' t t' (compareRight bias (r ++ t) (r' ++ t')) := by
  induction r generalizing r' bias with
  | nil =>
    obtain ⟨c, p, rfl⟩ := ht.1.exists_cons
    match r' with
    | [] =>
      obtain ⟨d, q, rfl⟩ := ht'.1.exists_cons
      have hcall : compareRight bias (c :: p) (d :: q) = some (bias, c :: p, d :: q) :=
        if_pos ⟨stops ht, stops ht'⟩
      rw [nil_append, nil_append, hcall]
      refine ⟨fun h => absurd h (lt_irrefl _), fun h => absurd h (lt_irrefl _),
        fun _ => ⟨?_, rfl, rfl⟩⟩
      split
      · rfl
      · exact not_not.mp ‹_›
    | d :: r' =>
      rw [forall_mem_cons] at hr'
      have hcall :
          compareRight bias (c :: p) (d :: (r' ++ t')) = some (-1, c :: p, d :: (r' ++ t')) :=
        (if_neg fun h => not_stops ht' hr'.1 h.2).trans (if_pos (stops ht))
      rw [nil_append, cons_append, hcall]
      exact ⟨fun _ => rfl, fun h => absurd h (Nat.not_lt_zero _),
        fun h => absurd h.symm (Nat.succ_ne_zero _)⟩
  | cons c r ih =>
    rw [forall_mem_cons] at hr
    match r' with
    | [] =>
      obtain ⟨d, q, rfl⟩ := ht'.1.exists_cons
      have hcall : compareRight bias (c :: (r ++ t)) (d :: q) = some (1, c :: (r ++ t), d :: q) :=
        ((if_neg fun h => not_stops ht hr.1 h.1).trans (if_neg (not_stops ht hr.1))).trans
          (if_pos (stops ht'))
      rw [nil_append, cons_append, hcall]
      exact ⟨fun h => absurd h (Nat.not_lt_zero _), fun _ => rfl,
        fun h => absurd h (Nat.succ_ne_zero _)⟩
    | d :: r' =>
      rw [forall_mem_cons] at hr'
      rw [cons_append, cons_append, compareRight, if_neg fun h => not_stops ht hr.1 h.1,
        if_neg (not_stops ht hr.1), if_neg (not_stops ht' hr'.1)]
      rcases byte_trichotomy c d with ⟨hcd, hlt⟩ | rfl | ⟨hcd, hlt⟩
      · rw [if_pos hcd]
        refine (ih _ hr.2 hr'.2).cons ?_
        rw [show order (codes (c :: r)) (codes (d :: r')) = -1 from order_cons_of_lt hlt]
        exact bias_first (by decide) _
      · rw [if_neg (byte_lt_irrefl c), if_neg (byte_lt_irrefl c)]
        refine (ih _ hr.2 hr'.2).cons ?_
        rw [show order (codes (c :: r)) (codes (c :: r')) = _ from order_cons_self _ _ _]
      · rw [if_neg (byte_lt_asymm hcd), if_pos hcd]
        refine (ih _ hr.2 hr'.2).cons ?_
        rw [show order (codes (c :: r)) (codes (d :: r')) = 1 from order_cons_of_gt hlt]
        exact bias_first (by decide) _

/-- What `compare_left` returns: the digits decide, and then which run ends first. -/
def LeftResult (r r' t t' : Bytes) : Option (ℤ × Bytes × Bytes) → Prop
  | none => False
  | some (res, p, q) =>
    (∀ k n, order (codes r ++ 0 :: k) (codes r' ++ 0 :: n) = if res ≠ 0 then res else order k n) ∧
      (res = 0 → p = t ∧ q = t')

theorem compareLeft_runs (ht : Behind t) (ht' : Behind t')
    (hr : ∀ c ∈ r, isdigit c = true) (hr' : ∀ c ∈ r', isdigit c = true) :
    LeftResult r r' t t' (compareLeft (r ++ t) (r' ++ t')) := by
  induction r generalizing r' with
  | nil =>
    obtain ⟨c, p, rfl⟩ := ht.1.exists_cons
    match r' with
    | [] =>
      obtain ⟨d, q, rfl⟩ := ht'.1.exists_cons
      have hcall : compareLeft (c :: p) (d :: q) = some (0, c :: p, d :: q) :=
        if_pos ⟨stops ht, stops ht'⟩
      rw [nil_append, nil_append, hcall]
      refine ⟨fun k n => ?_, fun _ => ⟨rfl, rfl⟩⟩
      exact order_cons_self 0 k n
    | d :: r' =>
      rw [forall_mem_cons] at hr'
      have hcall : compareLeft (c :: p) (d :: (r' ++ t')) = some (-1, c :: p, d :: (r' ++ t')) :=
        (if_neg fun h => not_stops ht' hr'.1 h.2).trans (if_pos (stops ht))
      rw [nil_append, cons_append, hcall]
      exact ⟨fun k n => order_cons_of_lt (digit_pos hr'.1), nofun⟩
  | cons c r ih =>
    rw [forall_mem_cons] at hr
    match r' with
    | [] =>
      obtain ⟨d, q, rfl⟩ := ht'.1.exists_cons
      have hcall : compareLeft (c :: (r ++ t)) (d :: q) = some (1, c :: (r ++ t), d :: q) :=
        ((if_neg fun h => not_stops ht hr.1 h.1).trans (if_neg (not_stops ht hr.1))).trans
          (if_pos (stops ht'))
      rw [nil_append, cons_append, hcall]
      exact ⟨fun k n => order_cons_of_gt (digit_pos hr.1), nofun⟩
    | d :: r' =>
      rw [forall_mem_cons] at hr'
      rw [cons_append, cons_append, compareLeft, if_neg fun h => not_stops ht hr.1 h.1,
        if_neg (not_stops ht hr.1), if_neg (not_stops ht' hr'.1)]
      rcases byte_trichotomy c d with ⟨hcd, hlt⟩ | rfl | ⟨hcd, hlt⟩
      · rw [if_pos hcd]
        exact ⟨fun k n => order_cons_of_lt hlt, nofun⟩
      · rw [if_neg (byte_lt_irrefl c), if_neg (byte_lt_irrefl c)]
        match compareLeft (r ++ t) (r' ++ t'), ih hr.2 hr'.2 with
        | some (res, p, q), ⟨hcodes, hends⟩ =>
          refine ⟨fun k n => ?_, hends⟩
          rw [← hcodes k n]
          exact order_cons_self _ _ _
      · rw [if_neg (byte_lt_asymm hcd), if_pos hcd]
        exact ⟨fun k n => order_cons_of_gt hlt, nofun⟩

/-! ## The key of a string -/

/-- The weight of a run: zero if it begins with a zero, and its length otherwise. -/
def weight (r : Bytes) : ℕ := if r.head? = some 48 then 0 else r.length

/-- What is compared in a round, and where the next one begins.  A run of digits stands where a
digit does, and a NUL that no digit has ends it. -/
def item (p : Bytes) : List ℕ × Bytes :=
  let r := p.takeWhile isdigit
  let t := p.dropWhile isdigit
  let byte := (fold ctype foldCase (t.headD 0)).toNat
  (if r = [] then [byte] else 48 :: weight r :: codes r ++ [0, byte], t.tail)

theorem length_item_lt (h : q.length ≤ (c :: p).length) :
    (item ctype foldCase q).2.length < (c :: p).length := by
  have hdrop := (dropWhile_suffix isdigit (l := q)).length_le
  have htail : (item ctype foldCase q).2.length = (q.dropWhile isdigit).length - 1 :=
    length_tail
  rw [length_cons] at h ⊢
  omega

/-- Where a round begins to compare. -/
def start (leading : Bool) (p : Bytes) : Bytes :=
  (if leading then skipZeros p else p).dropWhile ctype.isspace

theorem skipZeros_suffix (p : Bytes) : skipZeros p <:+ p := by
  fun_induction skipZeros p with
  | case1 c d e p h ih => exact ih.trans (suffix_cons c _)
  | case2 c d e p h => exact suffix_rfl
  | case3 p h => exact suffix_rfl

theorem start_suffix (leading : Bool) (p : Bytes) : start ctype leading p <:+ p := by
  refine (dropWhile_suffix _).trans ?_
  split
  · exact skipZeros_suffix p
  · exact suffix_rfl

/-- The codes of all rounds. -/
def key (leading : Bool) (p : Bytes) : List ℕ :=
  if _h : p.length ≤ 1 then []
  else
    (item ctype foldCase (start ctype leading p)).1 ++
      key false (item ctype foldCase (start ctype leading p)).2
termination_by p.length
decreasing_by
  obtain ⟨c, r, rfl⟩ : ∃ c r, p = c :: r := by
    refine exists_cons_of_ne_nil fun hp => _h ?_
    rw [hp]
    exact Nat.zero_le 1
  exact length_item_lt ctype foldCase (start_suffix ctype leading _).length_le

variable {ctype foldCase}

variable {leading : Bool}

theorem key_of_le (h : p.length ≤ 1) : key ctype foldCase leading p = [] := by
  rw [key, dif_pos h]

theorem key_of_lt (h : 1 < p.length) : key ctype foldCase leading p =
      (item ctype foldCase (start ctype leading p)).1 ++
        key ctype foldCase false (item ctype foldCase (start ctype leading p)).2 := by
  rw [key, dif_neg (not_le.mpr h)]

theorem exists_key_cons (h : 1 < p.length) : ∃ x l, key ctype foldCase leading p = x :: l := by
  rw [key_of_lt h, item]
  split
  · exact ⟨_, _, rfl⟩
  · exact ⟨_, _, rfl⟩

/-! ## A round -/

/-- What is left of a terminated string is terminated or empty. -/
theorem Terminated.suffix (h : Terminated p) (hq : q <:+ p) (hne : q ≠ []) : Terminated q := by
  obtain ⟨l, rfl⟩ := hq
  induction l with
  | nil => exact h
  | cons c l ih => exact ih (h.tail fun h => hne (append_eq_nil_iff.mp h).2)

theorem skipZeros_ne_nil (h : p ≠ []) : skipZeros p ≠ [] := by
  fun_induction skipZeros p with
  | case1 c d e p h ih => exact ih (cons_ne_nil _ _)
  | case2 c d e p h => exact cons_ne_nil _ _
  | case3 p h' => exact h

theorem skipSpaces_eq (h : Terminated p) : skipSpaces ctype p = some (p.dropWhile ctype.isspace) ∧
      Terminated (p.dropWhile ctype.isspace) := by
  induction p with
  | nil => exact absurd rfl h.ne_nil
  | cons c p ih =>
    rw [skipSpaces, dropWhile_cons]
    by_cases hc : ctype.isspace c = true
    · rw [if_pos hc, if_pos hc]
      refine ih (h.of_ne_zero fun h0 => ?_)
      rw [h0, ctype.isspace_nul] at hc
      cases hc
    · rw [if_neg hc, if_neg hc]
      exact ⟨rfl, h⟩

theorem skipSpaces_start (leading : Bool) (h : Terminated p) :
    skipSpaces ctype (if leading then skipZeros p else p) = some (start ctype leading p) ∧
      Terminated (start ctype leading p) := by
  cases leading with
  | false => exact skipSpaces_eq h
  | true => exact skipSpaces_eq (h.suffix (skipZeros_suffix p) (skipZeros_ne_nil h.ne_nil))

/-- A terminated string is a run of digits and what is behind it. -/
theorem Terminated.split (h : Terminated p) :
    Behind (p.dropWhile isdigit) ∧ ∀ c ∈ p.takeWhile isdigit, isdigit c = true := by
  have hne : p.dropWhile isdigit ≠ [] := by
    intro hnil
    obtain ⟨s, rfl⟩ := h
    have hmem : (0 : UInt8) ∈ s ++ [0] := mem_append_right s (mem_singleton_self 0)
    have h0 := dropWhile_eq_nil_iff.mp hnil 0 hmem
    exact absurd h0 (by decide)
  refine ⟨⟨h.suffix (dropWhile_suffix _) hne, fun c r hc => ?_⟩,
    fun c => mem_takeWhile_imp⟩
  have hhead := head_dropWhile_not isdigit hne
  simp only [hc, head_cons] at hhead
  exact hhead

theorem isdigit_fold (h : isdigit c = false) : isdigit (fold ctype foldCase c) = false := by
  unfold fold
  split
  · exact ctype.isdigit_toupper c h
  · exact h

theorem fold_digit (h : isdigit c = true) : fold ctype foldCase c = c := by
  unfold fold
  split
  · exact ctype.toupper_digit c h
  · rfl

/-- The two runs of a round, of which one begins with a zero, have the order of their digits. -/
theorem order_weight_zero {k n : List ℕ} (hr : ∀ c ∈ r, isdigit c = true)
    (hr' : ∀ c ∈ r', isdigit c = true) (hne : r ≠ []) (hne' : r' ≠ [])
    (hzero : r.head? = some 48 ∨ r'.head? = some 48) :
    order (weight r :: codes r ++ 0 :: k) (weight r' :: codes r' ++ 0 :: n) =
      order (codes r ++ 0 :: k) (codes r' ++ 0 :: n) := by
  obtain ⟨c, r, rfl⟩ := exists_cons_of_ne_nil hne
  obtain ⟨d, r', rfl⟩ := exists_cons_of_ne_nil hne'
  rw [forall_mem_cons] at hr hr'
  have hc := hr.1
  have hd := hr'.1
  simp only [isdigit, decide_eq_true_iff, UInt8.le_iff_toNat_le, UInt8.reduceToNat] at hc hd
  unfold weight
  by_cases hc48 : (c :: r).head? = some 48
  · by_cases hd48 : (d :: r').head? = some 48
    · rw [if_pos hc48, if_pos hd48]
      exact order_cons_self _ _ _
    · rw [if_pos hc48, if_neg hd48]
      have hlt : c.toNat < d.toNat := by
        obtain rfl : c = 48 := Option.some.inj hc48
        have hne : d.toNat ≠ 48 := fun h => hd48 (congrArg some (UInt8.toNat_inj.mp h))
        exact lt_of_le_of_ne hd.1 hne.symm
      exact (order_cons_of_lt (Nat.succ_pos _)).trans (order_cons_of_lt hlt).symm
  · have hd48 := hzero.resolve_left hc48
    rw [if_neg hc48, if_pos hd48]
    have hlt : d.toNat < c.toNat := by
      obtain rfl : d = 48 := Option.some.inj hd48
      have hne : c.toNat ≠ 48 := fun h => hc48 (congrArg some (UInt8.toNat_inj.mp h))
      exact lt_of_le_of_ne hc.1 hne.symm
    exact (order_cons_of_gt (Nat.succ_pos _)).trans (order_cons_of_gt hlt).symm

/-- What the comparison of two runs returns is the order of their codes. -/
theorem compareRuns (ht : Behind t) (ht' : Behind t') (hr : ∀ c ∈ r, isdigit c = true)
    (hr' : ∀ c ∈ r', isdigit c = true) (hne : r ≠ []) (hne' : r' ≠ []) : ∃ res p q,
      (if r.head? = some 48 ∨ r'.head? = some 48 then compareLeft (r ++ t) (r' ++ t')
        else compareRight 0 (r ++ t) (r' ++ t')) = some (res, p, q) ∧
      (∀ k n, order (weight r :: codes r ++ 0 :: k) (weight r' :: codes r' ++ 0 :: n) =
        if res ≠ 0 then res else order k n) ∧ (res = 0 → p = t ∧ q = t') := by
  by_cases hzero : r.head? = some 48 ∨ r'.head? = some 48
  · rw [if_pos hzero]
    match compareLeft (r ++ t) (r' ++ t'), compareLeft_runs ht ht' hr hr' with
    | some (res, p, q), ⟨hcodes, hends⟩ =>
      refine ⟨res, p, q, rfl, fun k n => ?_, hends⟩
      rw [order_weight_zero hr hr' hne hne' hzero, hcodes]
  · rw [if_neg hzero]
    rw [not_or] at hzero
    have hw : weight r = r.length := if_neg hzero.1
    have hw' : weight r' = r'.length := if_neg hzero.2
    match compareRight 0 (r ++ t) (r' ++ t'), compareRight_runs ht ht' 0 hr hr' with
    | some (res, p, q), ⟨hlt, hgt, heq⟩ =>
      rw [hw, hw']
      rcases lt_trichotomy r.length r'.length with hlen | hlen | hlen
      · obtain rfl := hlt hlen
        exact ⟨-1, p, q, rfl, fun k n => order_cons_of_lt hlen, nofun⟩
      · obtain ⟨hres, hends⟩ := heq hlen
        rw [if_neg (not_not.mpr rfl)] at hres
        refine ⟨res, p, q, rfl, fun k n => ?_, fun _ => hends⟩
        rw [hlen, cons_append, cons_append, order_cons_self,
          order_append (by rw [length_map, length_map, hlen]), order_cons_self, hres]
      · obtain rfl := hgt hlen
        exact ⟨1, p, q, rfl, fun k n => order_cons_of_gt hlen, nofun⟩

variable {next : Bytes → Bytes → Option ℤ} {n : ℕ}

/-- The loop, from the second round on, for strings that are not longer than `n`. -/
def Continues (ctype : Ctype) (foldCase : Bool) (n : ℕ)
    (next : Bytes → Bytes → Option ℤ) : Prop :=
  ∀ p q, Terminated p → Terminated q → 1 < p.length → 1 < q.length → p.length ≤ n →
    next p q = some (order (key ctype foldCase false p) (key ctype foldCase false q))

theorem compareBytes_cons : compareBytes ctype foldCase next (c :: p) (d :: q) =
      if fold ctype foldCase c < fold ctype foldCase d then some (-1)
      else if fold ctype foldCase c > fold ctype foldCase d then some 1
      else if p.length ≤ 1 ∧ q.length ≤ 1 then some 0 else if p.length ≤ 1 then some (-1)
      else if q.length ≤ 1 then some 1 else next p q := rfl

/-- The bytes at two pointers are compared, and what is behind them. -/
theorem compareBytes_eq (hnext : Continues ctype foldCase n next) (hp : Terminated (c :: p))
    (hq : Terminated (d :: q)) (hlen : p.length ≤ n) :
    compareBytes ctype foldCase next (c :: p) (d :: q) =
      some (order ((fold ctype foldCase c).toNat :: key ctype foldCase false p)
        ((fold ctype foldCase d).toNat :: key ctype foldCase false q)) := by
  rw [compareBytes_cons]
  rcases byte_trichotomy (fold ctype foldCase c) (fold ctype foldCase d) with
    ⟨hcd, hlt⟩ | heq | ⟨hcd, hlt⟩
  · rw [if_pos hcd, order_cons_of_lt hlt]
  · rw [heq, if_neg (byte_lt_irrefl _), if_neg (byte_lt_irrefl _), order_cons_self]
    by_cases hp1 : p.length ≤ 1
    · rw [key_of_le hp1]
      by_cases hq1 : q.length ≤ 1
      · rw [if_pos ⟨hp1, hq1⟩, key_of_le hq1, order_self]
      · obtain ⟨x, l, hl⟩ : ∃ x l, key ctype foldCase false q = x :: l :=
          exists_key_cons (not_le.mp hq1)
        rw [if_neg fun h => hq1 h.2, if_pos hp1, hl, order_nil_cons]
    · by_cases hq1 : q.length ≤ 1
      · obtain ⟨x, l, hl⟩ : ∃ x l, key ctype foldCase false p = x :: l :=
          exists_key_cons (not_le.mp hp1)
        rw [if_neg fun h => hp1 h.1, if_neg hp1, if_pos hq1, key_of_le hq1, hl, order_cons_nil]
      · have hne : p ≠ [] := by
          rintro rfl
          exact hp1 (Nat.zero_le 1)
        have hne' : q ≠ [] := by
          rintro rfl
          exact hq1 (Nat.zero_le 1)
        rw [if_neg fun h => hp1 h.1, if_neg hp1, if_neg hq1]
        exact hnext p q (hp.tail hne) (hq.tail hne') (not_le.mp hp1) (not_le.mp hq1) hlen
  · rw [if_neg (byte_lt_asymm hcd), if_pos hcd, order_cons_of_gt hlt]

theorem strnatcmpLoop_succ (hp : Terminated p) (hq : Terminated q) (fuel : ℕ) (leading : Bool) :
    strnatcmpLoop ctype foldCase (fuel + 1) leading p q =
      round ctype foldCase (strnatcmpLoop ctype foldCase fuel false) (start ctype leading p)
        (start ctype leading q) := by
  rw [strnatcmpLoop, (skipSpaces_start leading hp).1, (skipSpaces_start leading hq).1]
  rfl

theorem item_of_nil (h : p.takeWhile isdigit = []) (hp : p = c :: t) :
    item ctype foldCase p = ([(fold ctype foldCase c).toNat], t) := by
  have hdrop : p.dropWhile isdigit = p := by
    have happ := takeWhile_append_dropWhile (p := isdigit) (l := p)
    rw [h] at happ
    exact happ
  rw [item, h, hdrop, hp]
  rfl

theorem item_of_ne_nil (h : p.takeWhile isdigit ≠ []) (hp : p.dropWhile isdigit = c :: t) :
    item ctype foldCase p = (48 :: weight (p.takeWhile isdigit) :: codes (p.takeWhile isdigit) ++
        [0, (fold ctype foldCase c).toNat], t) := by
  rw [item, hp]
  exact congrArg (·, t) (if_neg h)

/-- The codes of a round in which one string is at a digit, and the other one is not. -/
theorem digit_vs_byte (hc : isdigit c = true) (hd : isdigit d = false) (k l m n : List ℕ) :
    order (c.toNat :: k) (d.toNat :: l) = order (48 :: m) (d.toNat :: n) ∧
      order (d.toNat :: l) (c.toNat :: k) = order (d.toNat :: n) (48 :: m) := by
  simp only [isdigit, decide_eq_true_iff, decide_eq_false_iff_not, UInt8.le_iff_toNat_le,
    UInt8.reduceToNat] at hc hd
  rcases lt_trichotomy d.toNat 48 with h | h | h
  · have hlt : d.toNat < c.toNat := lt_of_lt_of_le h hc.1
    rw [order_cons_of_gt hlt, order_cons_of_gt h, order_cons_of_lt hlt, order_cons_of_lt h]
    exact ⟨rfl, rfl⟩
  · omega
  · have hlt : c.toNat < d.toNat := by omega
    rw [order_cons_of_lt hlt, order_cons_of_lt h, order_cons_of_gt hlt, order_cons_of_gt h]
    exact ⟨rfl, rfl⟩

theorem order_runs {res : ℤ} {x y : ℕ} {k m : List ℕ}
    (h : ∀ k n, order (weight r :: codes r ++ 0 :: k) (weight r' :: codes r' ++ 0 :: n) =
      if res ≠ 0 then res else order k n) : order ((48 :: weight r :: codes r ++ [0, x]) ++ k)
        ((48 :: weight r' :: codes r' ++ [0, y]) ++ m) =
      if res ≠ 0 then res else order (x :: k) (y :: m) := by
  rw [← h (x :: k) (y :: m), append_assoc, append_assoc]
  exact order_cons_self 48 _ _

theorem round_of_not_digit (h : isdigit c = false ∨ isdigit d = false) :
    round ctype foldCase next (c :: p) (d :: q) =
      compareBytes ctype foldCase next (c :: p) (d :: q) := by
  refine if_neg fun hboth => ?_
  rcases h with h | h
  · exact absurd hboth.1 (Bool.eq_false_iff.mp h)
  · exact absurd hboth.2 (Bool.eq_false_iff.mp h)

theorem round_of_digits (hc : isdigit c = true) (hd : isdigit d = true) {res : ℤ}
    (hcall : (if (c :: r).head? = some 48 ∨ (d :: r').head? = some 48
      then compareLeft (c :: p) (d :: q) else compareRight 0 (c :: p) (d :: q)) =
        some (res, a, b)) : round ctype foldCase next (c :: p) (d :: q) = if res ≠ 0 then some res
      else if a.length = 1 ∧ b.length = 1 then some 0
      else compareBytes ctype foldCase next a b := by
  have hzero : (c = 48 ∨ d = 48) ↔ ((c :: r).head? = some 48 ∨ (d :: r').head? = some 48) := by
    simp only [head?_cons, Option.some.injEq]
  have hcall' : (if c = 48 ∨ d = 48 then compareLeft (c :: p) (d :: q)
      else compareRight 0 (c :: p) (d :: q)) = some (res, a, b) :=
    (if_congr hzero rfl rfl).trans hcall
  refine (if_pos ⟨hc, hd⟩).trans ?_
  rw [hcall']
  rfl

/-- What a round returns is the order of its codes and of those of the following rounds. -/
theorem round_eq (hnext : Continues ctype foldCase n next) (hp : Terminated p) (hq : Terminated q)
    (hlen : p.length ≤ n + 1) : round ctype foldCase next p q = some (order
        ((item ctype foldCase p).1 ++ key ctype foldCase false (item ctype foldCase p).2)
        ((item ctype foldCase q).1 ++ key ctype foldCase false (item ctype foldCase q).2)) := by
  obtain ⟨hbehind, hdigits⟩ := hp.split
  obtain ⟨hbehind', hdigits'⟩ := hq.split
  obtain ⟨c, t, ht⟩ := hbehind.1.exists_cons
  obtain ⟨d, t', ht'⟩ := hbehind'.1.exists_cons
  have hc := hbehind.2 c t ht
  have hd := hbehind'.2 d t' ht'
  have happ := takeWhile_append_dropWhile (p := isdigit) (l := p)
  have happ' := takeWhile_append_dropWhile (p := isdigit) (l := q)
  by_cases hr : p.takeWhile isdigit = []
  · rw [hr, nil_append, ht] at happ
    rw [item_of_nil hr happ.symm, ← happ]
    rw [← happ] at hp hlen
    by_cases hr' : q.takeWhile isdigit = []
    · rw [hr', nil_append, ht'] at happ'
      rw [item_of_nil hr' happ'.symm, ← happ', round_of_not_digit (.inl hc),
        compareBytes_eq hnext hp (by rw [happ']; exact hq) (Nat.le_of_succ_le_succ hlen)]
      rfl
    · obtain ⟨e, r', hre'⟩ := exists_cons_of_ne_nil hr'
      have he : isdigit e = true := hdigits' e (by rw [hre']; exact mem_cons_self)
      rw [item_of_ne_nil hr' ht', ← happ', hre', cons_append]
      rw [← happ', hre', cons_append] at hq
      rw [round_of_not_digit (.inl hc), compareBytes_eq hnext hp hq (Nat.le_of_succ_le_succ hlen),
        fold_digit he]
      exact congrArg some (digit_vs_byte he (isdigit_fold hc) _ _ _ _).2
  · obtain ⟨e, r, hre⟩ := exists_cons_of_ne_nil hr
    have he : isdigit e = true := hdigits e (by rw [hre]; exact mem_cons_self)
    by_cases hr' : q.takeWhile isdigit = []
    · rw [hr', nil_append, ht'] at happ'
      rw [item_of_nil hr' happ'.symm, item_of_ne_nil hr ht, ← happ']
      rw [← happ'] at hq
      rw [← happ, hre, cons_append] at hp hlen ⊢
      rw [round_of_not_digit (.inr hd), compareBytes_eq hnext hp hq (Nat.le_of_succ_le_succ hlen),
        fold_digit he]
      exact congrArg some (digit_vs_byte he (isdigit_fold hd) _ _ _ _).1
    · obtain ⟨e', r', hre'⟩ := exists_cons_of_ne_nil hr'
      have he' : isdigit e' = true := hdigits' e' (by rw [hre']; exact mem_cons_self)
      obtain ⟨res, a, b, hcall, hcodes, hends⟩ :=
        compareRuns hbehind hbehind' hdigits hdigits' hr hr'
      rw [item_of_ne_nil hr ht, item_of_ne_nil hr' ht', order_runs hcodes]
      rw [ht, ht'] at hends hcall
      rw [ht] at happ
      rw [ht'] at happ'
      rw [hre, hre', cons_append, cons_append] at hcall
      have hlent : t.length ≤ n := by
        rw [← happ, length_append, length_cons] at hlen
        omega
      rw [← happ, ← happ', hre, hre', cons_append, cons_append, round_of_digits he he' hcall]
      by_cases hres : res = 0
      · obtain ⟨rfl, rfl⟩ := hends hres
        rw [if_neg (not_not.mpr hres), if_neg (not_not.mpr hres)]
        rw [ht] at hbehind
        rw [ht'] at hbehind'
        by_cases hone : (c :: t).length = 1 ∧ (d :: t').length = 1
        · obtain rfl := length_eq_zero_iff.mp (Nat.succ.inj hone.1)
          obtain rfl := length_eq_zero_iff.mp (Nat.succ.inj hone.2)
          rw [if_pos hone, hbehind.1.eq_zero, hbehind'.1.eq_zero, order_self]
        · rw [if_neg hone]
          exact compareBytes_eq hnext hbehind.1 hbehind'.1 hlent
      · rw [if_pos hres, if_pos hres]

/-- The loop returns the order of the keys. -/
theorem strnatcmpLoop_eq (fuel : ℕ) (leading : Bool) (hp : Terminated p) (hq : Terminated q)
    (hlen : 1 < p.length) (hlen' : 1 < q.length) (hfuel : p.length ≤ fuel + 1) :
    strnatcmpLoop ctype foldCase fuel leading p q =
      some (order (key ctype foldCase leading p) (key ctype foldCase leading q)) := by
  induction fuel generalizing leading p q with
  | zero => omega
  | succ fuel ih =>
    have hnext : Continues ctype foldCase (fuel + 1) (strnatcmpLoop ctype foldCase fuel false) :=
      fun _ _ hp hq h h' hle => ih false hp hq h h' hle
    have hstart := (start_suffix ctype leading p).length_le
    rw [strnatcmpLoop_succ hp hq, key_of_lt hlen, key_of_lt hlen']
    exact round_eq hnext (skipSpaces_start leading hp).2 (skipSpaces_start leading hq).2
      (hstart.trans hfuel)

/-- The comparison of two strings is the order of their keys, and reads nothing behind a NUL. -/
theorem strnatcmpEx_eq (a b : Bytes) : strnatcmpEx ctype foldCase a b =
      some (order (key ctype foldCase true (a ++ [0])) (key ctype foldCase true (b ++ [0]))) := by
  match a, b with
  | [], [] => rw [order_self]; rfl
  | [], d :: b =>
    obtain ⟨x, l, hl⟩ : ∃ x l, key ctype foldCase true (d :: b ++ [0]) = x :: l :=
      exists_key_cons (by simp)
    have hnil : key ctype foldCase true ([] ++ [0]) = [] := key_of_le le_rfl
    rw [hnil, hl]
    rfl
  | c :: a, [] =>
    obtain ⟨x, l, hl⟩ : ∃ x l, key ctype foldCase true (c :: a ++ [0]) = x :: l :=
      exists_key_cons (by simp)
    have hnil : key ctype foldCase true ([] ++ [0]) = [] := key_of_le le_rfl
    rw [hnil, hl]
    rfl
  | c :: a, d :: b =>
    exact strnatcmpLoop_eq _ true ⟨_, rfl⟩ ⟨_, rfl⟩ (by simp) (by simp) (by simp)

/-- The comparison changes its sign with its arguments, and is transitive: it is a total order on
the keys.  It returns for all strings, and so reads no byte behind a NUL. -/
theorem strnatcmpEx_preorder (ctype : Ctype) (foldCase : Bool) (a b c : Bytes) : ∃ ab ba bc ac : ℤ,
      strnatcmpEx ctype foldCase a b = some ab ∧ strnatcmpEx ctype foldCase b a = some ba ∧
      strnatcmpEx ctype foldCase b c = some bc ∧ strnatcmpEx ctype foldCase a c = some ac ∧
      ab = -ba ∧ (ab ≤ 0 → bc ≤ 0 → ac ≤ 0) := by
  refine ⟨_, _, _, _, strnatcmpEx_eq a b, strnatcmpEx_eq b a, strnatcmpEx_eq b c,
    strnatcmpEx_eq a c, order_swap _ _, ?_⟩
  simp only [order_le_zero_iff]
  exact le_trans

/-! ## The C locale -/

/-- The bytes in the C locale. -/
def cLocale : Ctype where
  isspace c := c = 32 ∨ (9 ≤ c ∧ c ≤ 13)
  toupper c := if 97 ≤ c ∧ c ≤ 122 then c - 32 else c
  isspace_nul := by decide
  toupper_digit c hc := by
    simp only [isdigit, decide_eq_true_iff, UInt8.le_iff_toNat_le, UInt8.reduceToNat] at hc
    refine if_neg fun h => ?_
    simp only [UInt8.le_iff_toNat_le, UInt8.reduceToNat] at h
    omega
  isdigit_toupper c hc := by
    split
    · have h : 97 ≤ c ∧ c ≤ 122 := ‹_›
      have hsub := UInt8.toNat_sub_of_le c 32 (by
        simp only [UInt8.le_iff_toNat_le, UInt8.reduceToNat] at h ⊢
        omega)
      simp only [isdigit, decide_eq_false_iff_not, UInt8.le_iff_toNat_le, UInt8.reduceToNat,
        hsub] at h ⊢
      omega
    · exact hc

-- "img2" comes before "img10", and "1.5" before "1.05" does not.
example : strnatcmpEx cLocale false [105, 50] [105, 49, 48] = some (-1) := by decide

example : strnatcmpEx cLocale true [49, 46, 53] [49, 46, 48, 53] = some 1 := by decide

end StrNatCmp
