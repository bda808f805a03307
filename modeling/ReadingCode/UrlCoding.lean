/-
# URL coding

`php_url_encode` and `php_raw_url_encode` write at most three bytes for one.  The decoders write
over the text that they read, and never at a place that is still to be read.
-/
import ReadingCode.BoundedMemory
import ReadingCode.PostVars

open BoundedMemory PhpVariables

namespace PhpUrl

open List Option

/-! ## The encoders -/

/-- `hexchars` -/
def hexchars : Bytes := [48, 49, 50, 51, 52, 53, 54, 55, 56, 57, 65, 66, 67, 68, 69, 70]

/-- The bytes that `php_url_encode` writes as `%` and two digits; the space is none of them. -/
def escaped (c : UInt8) : Bool :=
  (c < 48 && c ≠ 45 && c ≠ 46) || (c < 65 && c > 57) || (c > 90 && c < 97 && c ≠ 95) || c > 122

/-- The bytes that `php_raw_url_encode` writes as `%` and two digits.  They are compared as `char`,
so that those from 128 on are negative. -/
def rawEscaped (c : UInt8) : Bool :=
  let y := c.toInt8
  (y < 48 && y ≠ 45 && y ≠ 46) || (y < 65 && y > 57) || (y > 90 && y < 97 && y ≠ 95)
    || (y > 122 && y ≠ 126)

/-- `%` and two digits. -/
def escape (a : Area UInt8) (c : UInt8) : Option (Area UInt8) := do
  let a ← a.put 37
  let a ← a.put (hexchars.getD (c >>> 4).toNat 0)
  a.put (hexchars.getD (c &&& 15).toNat 0)

/-- A round of `php_url_encode`. -/
def urlEncodeByte (a : Area UInt8) (c : UInt8) : Option (Area UInt8) :=
  if c = 32 then a.put 43
  else if escaped c then escape a c
  else a.put c

/-- A round of `php_raw_url_encode`.  The byte itself, which is written first, is written over. -/
def rawUrlEncodeByte (a : Area UInt8) (c : UInt8) : Option (Area UInt8) :=
  if rawEscaped c then escape a c else a.put c

/-- The area of `zend_string_safe_alloc(3, len, 0, 0)` has a byte more for the NUL. -/
def encodeWith (round : Area UInt8 → UInt8 → Option (Area UInt8)) (s : Bytes) :
    Option Bytes := do
  let a ← s.foldlM round (Area.alloc (3 * s.length + 1))
  let _ ← a.put 0
  pure a.written

/-- `php_url_encode` -/
def urlEncode (s : Bytes) : Option Bytes := encodeWith urlEncodeByte s

/-- `php_raw_url_encode` -/
def rawUrlEncode (s : Bytes) : Option Bytes := encodeWith rawUrlEncodeByte s

/-! ## The decoders -/

/-- The cells of a string, where the next byte is written and read, and how many are left. -/
structure Cursors where
  str : Bytes
  dest : ℕ
  data : ℕ
  len : ℕ

/-- A round of the decoders; for `php_url_decode` a plus stands for a space. -/
def decodeByte (plus : Bool) (s : Cursors) : Option Cursors := do
  let len := s.len - 1
  let c ← s.str[s.data]?
  if plus ∧ c = 43 then
    let str ← store s.str s.dest 32
    pure { str, dest := s.dest + 1, data := s.data + 1, len }
  else if c = 37 ∧ 2 ≤ len then
    let h ← s.str[s.data + 1]?
    let l ← s.str[s.data + 2]?
    if isxdigit h ∧ isxdigit l then
      let str ← store s.str s.dest (htoi h l)
      pure { str, dest := s.dest + 1, data := s.data + 3, len := len - 2 }
    else
      let str ← store s.str s.dest c
      pure { str, dest := s.dest + 1, data := s.data + 1, len }
  else
    let str ← store s.str s.dest c
    pure { str, dest := s.dest + 1, data := s.data + 1, len }

/-- `while (len--)` -/
def decodeLoop (plus : Bool) : Loop Cursors where
  guard s := s.len ≠ 0
  body := decodeByte plus

/-- A string with the NUL behind it. -/
def Cursors.start (s : Bytes) : Cursors := ⟨s ++ [0], 0, 0, s.length⟩

/-- The string in the end, of the length that is returned. -/
def decodeWith (plus : Bool) (s : Bytes) : Option Bytes := do
  let t ← (decodeLoop plus).run s.length (Cursors.start s)
  let str ← store t.str t.dest 0
  pure (str.take t.dest)

/-- `php_url_decode` -/
def urlDecodeInPlace (s : Bytes) : Option Bytes := decodeWith true s

/-- `php_raw_url_decode` -/
def rawUrlDecodeInPlace (s : Bytes) : Option Bytes := decodeWith false s

/-! ## What is written -/

/-- The text for a byte. -/
def codeOf (space : Bool) (esc : UInt8 → Bool) (c : UInt8) : Bytes :=
  if space ∧ c = 32 then [43]
  else if esc c then
    [37, hexchars.getD (c >>> 4).toNat 0, hexchars.getD (c &&& 15).toNat 0]
  else [c]

theorem length_codeOf_le (space : Bool) (esc : UInt8 → Bool) (c : UInt8) :
    (codeOf space esc c).length ≤ 3 := by
  unfold codeOf
  split_ifs <;> simp

theorem escape_eq (a : Area UInt8) (c : UInt8) : escape a c =
    a.putAll [37, hexchars.getD (c >>> 4).toNat 0, hexchars.getD (c &&& 15).toNat 0] := by
  simp only [Area.putAll, bind_fun_some]
  rfl

theorem urlEncodeByte_eq (a : Area UInt8) (c : UInt8) :
    urlEncodeByte a c = a.putAll (codeOf true escaped c) := by
  unfold urlEncodeByte codeOf
  simp only [true_and]
  split_ifs
  · exact (Area.putAll_singleton a 43).symm
  · exact escape_eq a c
  · exact (Area.putAll_singleton a c).symm

theorem rawUrlEncodeByte_eq (a : Area UInt8) (c : UInt8) :
    rawUrlEncodeByte a c = a.putAll (codeOf false rawEscaped c) := by
  unfold rawUrlEncodeByte codeOf
  simp only [Bool.false_eq_true, false_and, if_false]
  split_ifs
  · exact escape_eq a c
  · exact (Area.putAll_singleton a c).symm

variable {round : Area UInt8 → UInt8 → Option (Area UInt8)}

theorem foldlM_eq {code : UInt8 → Bytes}
    (hround : ∀ a c, round a c = a.putAll (code c)) (s : Bytes) (a : Area UInt8) :
    s.foldlM round a = a.putAll (s.flatMap code) := by
  induction s generalizing a with
  | nil => rfl
  | cons c s ih =>
    rw [foldlM_cons, flatMap_cons, Area.putAll_append, hround]
    congr 1
    funext b
    exact ih b

variable {esc : UInt8 → Bool}

/-- The text fits the area with the NUL. -/
theorem encodeWith_eq {space : Bool} (hround : ∀ a c, round a c = a.putAll (codeOf space esc c))
    (s : Bytes) : encodeWith round s = some (s.flatMap (codeOf space esc)) := by
  have hlen : (s.flatMap (codeOf space esc)).length ≤ 3 * s.length := by
    induction s with
    | nil => exact le_rfl
    | cons c s ih =>
      have h3 := length_codeOf_le space esc c
      rw [flatMap_cons, length_append, length_cons]
      omega
  obtain ⟨k, hk⟩ : ∃ k, 3 * s.length + 1 - (s.flatMap (codeOf space esc)).length = k + 1 :=
    ⟨3 * s.length - (s.flatMap (codeOf space esc)).length, by omega⟩
  rw [encodeWith, foldlM_eq hround, Area.putAll_of_le _ _ (Nat.le_succ_of_le hlen)]
  simp only [Area.alloc, hk]
  rfl

/-! ## What is read -/

/-- The text that a decoder makes of a text. -/
def decoded (plus : Bool) : Bytes → Bytes
  | [] => []
  | c :: h :: l :: s =>
    if plus ∧ c = 43 then 32 :: decoded plus (h :: l :: s)
    else if c = 37 ∧ isxdigit h ∧ isxdigit l then htoi h l :: decoded plus s
    else c :: decoded plus (h :: l :: s)
  | c :: s => (if plus ∧ c = 43 then 32 else c) :: decoded plus s

/-- The reading of names and values in a form. -/
theorem decoded_true : ∀ s : Bytes, decoded true s = urlDecode s
  | [] => rfl
  | [c] => by simp [decoded, urlDecode]
  | [c, h] => by simp [decoded, urlDecode]
  | c :: h :: l :: s => by
    rw [decoded, urlDecode, decoded_true s, decoded_true (h :: l :: s)]
    simp only [true_and]

variable {plus : Bool}

theorem decoded_space {c : UInt8} (h : plus ∧ c = 43) (s : Bytes) :
    decoded plus (c :: s) = 32 :: decoded plus s := by
  match s with
  | [] => simp only [decoded, if_pos h]
  | [_] => simp only [decoded, if_pos h]
  | _ :: _ :: _ => rw [decoded, if_pos h]

theorem decoded_escape {h l : UInt8} (hh : isxdigit h ∧ isxdigit l) (s : Bytes) :
    decoded plus (37 :: h :: l :: s) = htoi h l :: decoded plus s := by
  rw [decoded, if_neg (by simp), if_pos ⟨rfl, hh⟩]

theorem decoded_other {c : UInt8} {s : Bytes} (hplus : ¬ (plus ∧ c = 43))
    (hesc : ∀ h l r, c = 37 → s = h :: l :: r → ¬ (isxdigit h ∧ isxdigit l)) :
    decoded plus (c :: s) = c :: decoded plus s := by
  match s with
  | [] => simp only [decoded, if_neg hplus]
  | [_] => simp only [decoded, if_neg hplus]
  | h :: l :: r => rw [decoded, if_neg hplus, if_neg fun hx => hesc h l r hx.1 rfl hx.2]

/-- Behind what was written and read. -/
theorem getElem?_cells (out gap rest : Bytes) (k : ℕ) :
    (out ++ (gap ++ rest))[out.length + gap.length + k]? = rest[k]? := by
  rw [Nat.add_assoc, getElem?_append_right (Nat.le_add_right _ _), Nat.add_sub_cancel_left,
    getElem?_append_right (Nat.le_add_right _ _), Nat.add_sub_cancel_left]

/-- A cell that was read is written. -/
theorem store_cells (out cells rest : Bytes) (y : UInt8) (hne : cells ≠ []) :
    store (out ++ (cells ++ rest)) out.length y = some ((out ++ [y]) ++ (cells.tail ++ rest)) := by
  obtain ⟨c, cells, rfl⟩ := exists_cons_of_ne_nil hne
  rw [cons_append, store_append, tail_cons, append_assoc, singleton_append]

/-- A decoder in the middle of a text: what it has written in front, cells that it has read, and
what is still to be read.  The result is known by then. -/
def Decoding (plus : Bool) (text : Bytes) (s : Cursors) : Prop :=
  ∃ out gap rest, s.str = out ++ (gap ++ (rest ++ [0])) ∧ s.dest = out.length ∧
    s.data = out.length + gap.length ∧ s.len = rest.length ∧
    out ++ decoded plus rest = decoded plus text

theorem decoding_start (plus : Bool) (text : Bytes) : Decoding plus text (Cursors.start text) :=
  ⟨[], [], text, rfl, rfl, rfl, rfl, rfl⟩

variable {text : Bytes}

/-- A byte is written for the bytes `read`. -/
theorem Decoding.write {out rest : Bytes} {y : UInt8} (gap read : Bytes) (hne : read ≠ [])
    (hdecoded : out ++ decoded plus (read ++ rest) = decoded plus text)
    (hy : decoded plus (read ++ rest) = y :: decoded plus rest) :
    ∃ str, store (out ++ (gap ++ ((read ++ rest) ++ [0]))) out.length y = some str ∧
      Decoding plus text
        ⟨str, out.length + 1, out.length + gap.length + read.length, rest.length⟩ := by
  have hcells : gap ++ read ≠ [] := by simp [hne]
  refine ⟨(out ++ [y]) ++ ((gap ++ read).tail ++ (rest ++ [0])), ?_, out ++ [y], (gap ++ read).tail,
    rest, rfl, ?_, ?_, rfl, ?_⟩
  · rw [← store_cells out (gap ++ read) (rest ++ [0]) y hcells]
    simp only [append_assoc]
  · simp
  · have hpos : 0 < read.length := length_pos_of_ne_nil hne
    simp only [length_append, length_tail, length_singleton]
    omega
  · rw [← hdecoded, hy, append_assoc, singleton_append]

theorem decodeByte_spec {s : Cursors} (h : Decoding plus text s) (hlen : s.len ≠ 0) :
    ∃ t, decodeByte plus s = some t ∧ Decoding plus text t ∧ t.len < s.len := by
  obtain ⟨str, dest, data, len⟩ := s
  obtain ⟨out, gap, rest, rfl, rfl, rfl, rfl, hdecoded⟩ := h
  obtain ⟨c, rest, rfl⟩ := exists_cons_of_ne_nil (ne_nil_of_length_pos
    (Nat.pos_of_ne_zero hlen))
  have hread : ∀ k, (out ++ (gap ++ ((c :: rest) ++ [0])))[out.length + gap.length + k]?
      = ((c :: rest) ++ [0])[k]? := fun k => getElem?_cells out gap _ k
  -- one byte is written for the byte `c`
  have hone : ∀ y, decoded plus (c :: rest) = y :: decoded plus rest →
      ∃ str, store (out ++ (gap ++ ((c :: rest) ++ [0]))) out.length y = some str ∧
        Decoding plus text ⟨str, out.length + 1, out.length + gap.length + 1, rest.length⟩ :=
    fun y hy => Decoding.write gap [c] (by simp) hdecoded hy
  have hc := hread 0
  rw [Nat.add_zero, cons_append, getElem?_cons_zero, ← cons_append] at hc
  simp only [decodeByte, hc, length_cons, Nat.add_sub_cancel, bind_eq_bind, bind_some]
  split_ifs with hplus hpercent
  · obtain ⟨str, hstr, ht⟩ := hone 32 (decoded_space hplus rest)
    exact ⟨_, by rw [hstr]; rfl, ht, Nat.lt_succ_self _⟩
  · obtain ⟨rfl, htwo⟩ := hpercent
    match rest with
    | [] | [_] => simp at htwo
    | h :: l :: rest =>
      have hh : _ = some h := hread 1
      have hl : _ = some l := hread 2
      simp only [hh, hl, bind_some]
      split_ifs with hdigits
      · obtain ⟨str, hstr, ht⟩ := Decoding.write gap [37, h, l] (by simp) hdecoded
          (decoded_escape hdigits rest)
        have hstr' : store (out ++ (gap ++ (37 :: h :: l :: rest ++ [0]))) out.length (htoi h l)
            = some str := hstr
        refine ⟨_, by rw [hstr']; rfl, ht, ?_⟩
        simp only [length_cons]
        omega
      · obtain ⟨str, hstr, ht⟩ := hone 37 (decoded_other hplus (by simpa using hdigits))
        exact ⟨_, by rw [hstr]; rfl, ht, Nat.lt_succ_self _⟩
  · have hother : decoded plus (c :: rest) = c :: decoded plus rest := by
      refine decoded_other hplus fun h l r hc hr => absurd ⟨hc, ?_⟩ hpercent
      rw [hr]
      simp
    obtain ⟨str, hstr, ht⟩ := hone c hother
    exact ⟨_, by rw [hstr]; rfl, ht, Nat.lt_succ_self _⟩

/-- The decoders end, and what they leave is the text decoded. -/
theorem decodeWith_eq (plus : Bool) (text : Bytes) :
    decodeWith plus text = some (decoded plus text) := by
  obtain ⟨t, hrun, ht, hguard⟩ := Loop.run_of_measure (L := decodeLoop plus)
    (P := Decoding plus text) Cursors.len
    (fun s hs hg => decodeByte_spec hs (by simpa [decodeLoop] using hg)) text.length
    (Cursors.start text) (decoding_start plus text) le_rfl
  have hlen : t.len = 0 := by simpa [decodeLoop] using hguard
  obtain ⟨str, dest, data, len⟩ := t
  obtain ⟨out, gap, rest, rfl, rfl, rfl, rfl, hdecoded⟩ := ht
  obtain rfl := eq_nil_of_length_eq_zero hlen
  rw [decoded, append_nil] at hdecoded
  have hnul : store (out ++ (gap ++ ([] ++ [0]))) out.length 0
      = some ((out ++ [0]) ++ ((gap ++ [0]).tail ++ [])) := by
    rw [← store_cells out (gap ++ [0]) [] 0 (by simp), append_nil, nil_append]
  rw [← hdecoded]
  simp only [decodeWith, hrun, hnul, bind_eq_bind, bind_some, Option.pure_def,
    append_assoc, take_left]

/-- It is the decoder of the names and values of a form. -/
theorem urlDecodeInPlace_eq (text : Bytes) : urlDecodeInPlace text = some (urlDecode text) := by
  rw [urlDecodeInPlace, decodeWith_eq, decoded_true]

/-- What is written is at a place that was read, whatever the text. -/
theorem dest_le_data {s : Cursors}
    (h : (decodeLoop plus).Reaches (Cursors.start text) s) : s.dest ≤ s.data := by
  have hs : Decoding plus text s := by
    refine h.keeps (fun s t hs hst => ?_) (decoding_start plus text)
    obtain ⟨t', ht', hd, -⟩ := decodeByte_spec hs (by simpa [decodeLoop] using hst.1)
    obtain rfl := Option.some.inj (hst.2.symm.trans ht')
    exact hd
  obtain ⟨out, gap, rest, -, hdest, hdata, -⟩ := hs
  rw [hdest, hdata]
  exact Nat.le_add_right _ _

/-! ## The round trip -/

/-- The bytes that are written as they are. -/
theorem not_escaped (c : UInt8) :
    (escaped c = false → c ≠ 43 ∧ c ≠ 37) ∧ (rawEscaped c = false → c ≠ 37) := by
  constructor
  · grind [escaped]
  · rintro h rfl
    exact absurd h (by decide)

theorem decoded_codeOf (hesc : ∀ c, esc c = false → c ≠ 37 ∧ (plus → c ≠ 43)) (c : UInt8)
    (rest : Bytes) : decoded plus (codeOf plus esc c ++ rest) = c :: decoded plus rest := by
  unfold codeOf
  split_ifs with hspace he
  · rw [singleton_append, decoded_space ⟨hspace.1, rfl⟩, hspace.2]
  · obtain ⟨-, hh, hl, hc⟩ := digits_spec hexchars rfl c
    simp only [cons_append, nil_append]
    rw [decoded_escape ⟨hh, hl⟩, hc]
  · obtain ⟨hpercent, hplus⟩ := hesc c (by simpa using he)
    exact decoded_other (fun h => hplus h.1 h.2) fun _ _ _ hc => absurd hc hpercent

theorem decoded_flatMap (hesc : ∀ c, esc c = false → c ≠ 37 ∧ (plus → c ≠ 43)) (s : Bytes) :
    decoded plus (s.flatMap (codeOf plus esc)) = s := by
  induction s with
  | nil => rfl
  | cons c s ih => rw [flatMap_cons, decoded_codeOf hesc, ih]

/-! ## The encoded text -/

/-- The characters that need no escape in the text of a form; the other text has `~` besides. -/
def Unreserved (tilde : Bool) (c : UInt8) : Prop :=
  (48 ≤ c ∧ c ≤ 57) ∨ (65 ≤ c ∧ c ≤ 90) ∨ (97 ≤ c ∧ c ≤ 122) ∨ c = 45 ∨ c = 46 ∨ c = 95 ∨
    (tilde ∧ c = 126)

instance (tilde : Bool) (c : UInt8) : Decidable (Unreserved tilde c) := by
  unfold Unreserved
  infer_instance

/-- A text of unreserved characters, escapes and, in a form, plus signs. -/
inductive Encoded (form : Bool) : Bytes → Prop
  | nil : Encoded form []
  | unreserved {c : UInt8} {t : Bytes} :
      Unreserved (!form) c → Encoded form t → Encoded form (c :: t)
  | escape {h l : UInt8} {t : Bytes} :
      h ∈ hexchars → l ∈ hexchars → Encoded form t → Encoded form (37 :: h :: l :: t)
  | plus {t : Bytes} : form = true → Encoded form t → Encoded form (43 :: t)

theorem unreserved_of_not_escaped (c : UInt8) : (c ≠ 32 → escaped c = false → Unreserved false c) ∧
      (rawEscaped c = false → Unreserved true c) := by
  obtain ⟨⟨n⟩⟩ := c
  revert n
  decide +kernel

theorem encoded_flatMap {form : Bool}
    (hesc : ∀ c, ¬ (form ∧ c = 32) → esc c = false → Unreserved (!form) c) (s : Bytes) :
    Encoded form (s.flatMap (codeOf form esc)) := by
  induction s with
  | nil => exact .nil
  | cons c s ih =>
    rw [flatMap_cons, codeOf]
    split_ifs with hspace he
    · exact .plus hspace.1 ih
    · obtain ⟨⟨hhigh, hlow⟩, -⟩ := digits_spec hexchars rfl c
      exact .escape hhigh hlow ih
    · exact .unreserved (hesc c hspace (by simpa using he)) ih

/-- The encoders fit their areas, their texts are of the characters that need no escape, and the
decoders give the bytes back; on every text the decoders end without an access outside of it, and
write nowhere ahead of where they read. -/
theorem urlDecode_urlEncode (s : Bytes) :
    (∃ t, urlEncode s = some t ∧ Encoded true t ∧ urlDecodeInPlace t = some s) ∧
    (∃ t, rawUrlEncode s = some t ∧ Encoded false t ∧ rawUrlDecodeInPlace t = some s) ∧
    ∀ (plus : Bool) (text : Bytes), (decodeWith plus text).isSome ∧
      ∀ c, (decodeLoop plus).Reaches (Cursors.start text) c → c.dest ≤ c.data := by
  refine ⟨⟨s.flatMap (codeOf true escaped), encodeWith_eq urlEncodeByte_eq s, ?_, ?_⟩,
    ⟨s.flatMap (codeOf false rawEscaped), encodeWith_eq rawUrlEncodeByte_eq s, ?_, ?_⟩, ?_⟩
  · exact encoded_flatMap (fun c hc he => (unreserved_of_not_escaped c).1
      (fun h => hc ⟨rfl, h⟩) he) s
  · rw [urlDecodeInPlace, decodeWith_eq, decoded_flatMap fun c hc =>
      ⟨((not_escaped c).1 hc).2, fun _ => ((not_escaped c).1 hc).1⟩]
  · exact encoded_flatMap (fun c _ he =>
      show Unreserved (!false) c from (unreserved_of_not_escaped c).2 he) s
  · rw [rawUrlDecodeInPlace, decodeWith_eq, decoded_flatMap fun c hc =>
      ⟨(not_escaped c).2 hc, fun h => absurd h (by simp)⟩]
  · intro plus text
    rw [decodeWith_eq]
    exact ⟨rfl, fun c hc => dest_le_data hc⟩

end PhpUrl
