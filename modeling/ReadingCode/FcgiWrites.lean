/-
# What a write adds to the packets

A write of the fast path and one of the plain loop do the same to the packets: they add
packets of the type that is written, with the bytes that are written after those of the open
packet.  They differ in when one of these is empty.  The fast path opens a packet that it
closes at once where the buffer has no room for anything after a header; the plain loop
flushes the buffer first when there is no room for the header itself, and sends an empty
record only where a header fills the buffer exactly.
-/
import ReadingCode.FcgiOutput

open Cyclic

namespace PhpFcgi

variable {id : ℕ} {base : Bytes} {ps new : List Packet} {cur cur' : Option Packet}
  {t : UInt8} {c str : Bytes} {req : Request} {link : ℕ → Option ℕ}

/-! ## The state between two calls -/

/-- Between two calls the buffer is not full and no empty packet is open. -/
structure Ready (id : ℕ) (base : Bytes) (ps : List Packet) (cur : Option Packet)
    (req : Request) : Prop where
  holds : Holds id base ps cur req
  fits : ∀ p ∈ ps, p.2.length < 2 ^ 16
  room : req.outPos + (if cur.isSome then 1 else 0) ≤ outBufSize
  filled : ∀ p ∈ cur, p.2 ≠ []

/-- The content of the open packet. -/
def contentOf (cur : Option Packet) : Bytes := cur.elim [] (·.2)

/-- The packets `new` and the open packet `cur'` hold the content of the open packet `cur`
and `str`, all of the type `t`. -/
structure Adds (t : UInt8) (str : Bytes) (cur : Option Packet) (new : List Packet)
    (cur' : Option Packet) : Prop where
  type : ∀ p ∈ new ++ cur'.toList, p.1 = t
  content : (new ++ cur'.toList).flatMap (·.2) = contentOf cur ++ str

/-- What a write leaves: the packets it added, and whether one of them is empty; or nothing
after an error. -/
def Wrote (id : ℕ) (base : Bytes) (ps : List Packet) (cur : Option Packet) (t : UInt8)
    (str : Bytes) (sendsEmpty : Prop) (done : Bool) (req : Request) : Prop :=
  if done then ∃ new cur', Ready id base (ps ++ new) cur' req ∧ Adds t str cur new cur' ∧
    ((∃ p ∈ new, p.2 = []) ↔ sendsEmpty)
  else Ready id req.sent [] none req

theorem ready_of_failed (hc : Closed id req.sent [] req) (hpos : req.outPos = 0) :
    Ready id req.sent [] none req :=
  ⟨hc, fun _ hp => absurd hp List.not_mem_nil, by rw [hpos]; exact Nat.zero_le _,
    fun _ hp => absurd hp (Option.not_mem_none _)⟩

theorem wrote_failed {E : Prop} (hc : Closed id req.sent [] req) (hpos : req.outPos = 0) :
    Wrote id base ps cur t str E false req := by
  exact ready_of_failed hc hpos

namespace Ready

/-- The open packet is in the buffer. -/
theorem length_lt (hr : Ready id base ps (some (t, c)) req) :
    ∃ h, OpenAt id base ps t c h req ∧ h + 8 + c.length < 8192 := by
  obtain ⟨h, ho⟩ := hr.holds
  have hroom := hr.room
  have hpos := ho.pos
  have hs := sizes
  rw [Option.isSome_some, if_pos rfl] at hroom
  dsimp only at hpos
  exact ⟨h, ho, by omega⟩

theorem closedPos_le (hr : Ready id base ps cur req) : closedPos req ≤ outBufSize := by
  have hroom := hr.room
  have hs := sizes
  unfold closedPos
  omega

/-- Room for one more packet. -/
theorem close (hr : Ready id base ps cur req) :
    closePacket.Returns req fun _ req' => Closed id base (ps ++ cur.toList) req' ∧
      req'.outPos = closedPos req :=
  closePacket_returns hr.holds (hr.closedPos_le.trans (Nat.le_add_right _ _))

theorem fits_closed (hr : Ready id base ps cur req) :
    ∀ p ∈ ps ++ cur.toList, p.2.length < 2 ^ 16 := by
  intro p hp
  rcases List.mem_append.mp hp with hp | hp
  · exact hr.fits p hp
  · rcases cur with _ | ⟨t, c⟩
    · exact absurd hp List.not_mem_nil
    · obtain ⟨h, -, hlt⟩ := hr.length_lt
      rw [Option.toList_some, List.mem_singleton] at hp
      subst hp
      show c.length < 2 ^ 16
      omega

end Ready

/-! ## The free space -/

/-- The free space as a natural number. -/
def space (cur : Option Packet) (req : Request) : ℕ :=
  if cur.isNone then 8184 - req.outPos else 8192 - req.outPos

theorem Holds.outHdr_isNone (hh : Holds id base ps cur req) : req.outHdr.isNone = cur.isNone := by
  cases cur with
  | none =>
    rw [Closed.hdr hh]
    rfl
  | some p =>
    obtain ⟨h, ho⟩ := hh
    rw [ho.hdr]
    rfl

theorem spaceLeft_eq (hr : Ready id base ps cur req) : spaceLeft req = space cur req := by
  have hroom := hr.room
  have hs := sizes
  unfold spaceLeft space
  rw [hr.holds.outHdr_isNone]
  cases cur with
  | none =>
    simp only [Option.isNone_none, if_true]
    split_ifs with h <;> omega
  | some p =>
    simp only [Option.isNone_some, Bool.false_eq_true, if_false]
    omega

/-- Opening a packet unless one of the type is open. -/
theorem openUnlessOpen_returns (hr : Ready id base ps cur req) (ht : ∀ p ∈ cur, p.1 = t) :
    (openUnlessOpen t).Returns req fun _ req' => (∃ h, OpenAt id base ps t (contentOf cur) h req') ∧
        req'.outPos = req.outPos + (if cur.isNone then 8 else 0) := by
  have hroom := hr.room
  refine .bind (.get ?_)
  rw [hr.holds.outHdr_isNone]
  cases cur with
  | none =>
    refine (openPacket_returns hr.holds (by simpa using hroom)).imp ?_
    rintro _ req' ⟨ho, hpos⟩
    exact ⟨⟨_, ho⟩, hpos⟩
  | some p =>
    obtain ⟨h, ho⟩ := hr.holds
    rw [ht p rfl] at ho
    exact .pure ⟨⟨h, ho⟩, rfl⟩

variable {h : ℕ}

/-- The packet is closed and sent. -/
theorem flush_open (ho : OpenAt id base ps t c h req) (hpos : req.outPos ≤ 8200) :
    (fcgiFlush link false).Returns req fun done req' => req'.outPos = 0 ∧
      After id base (ps ++ [(t, c)]) none done req' := by
  refine flush_returns (show Holds id base ps (some (t, c)) req from ⟨h, ho⟩) ?_
  have hs := sizes
  unfold closedPos
  omega

theorem ready_of_closed (hc : Closed id base ps req) (hfits : ∀ p ∈ ps, p.2.length < 2 ^ 16)
    (hpos : req.outPos ≤ 8192) : Ready id base ps none req :=
  ⟨hc, hfits, by simpa using hpos, fun _ hp => absurd hp (Option.not_mem_none _)⟩

theorem ready_of_open (ho : OpenAt id base ps t c h req)
    (hfits : ∀ p ∈ ps, p.2.length < 2 ^ 16) (hpos : req.outPos < 8192) (hc : c ≠ []) :
    Ready id base ps (some (t, c)) req := by
  refine ⟨⟨h, ho⟩, hfits, hpos, ?_⟩
  intro p hp
  cases hp
  exact hc

/-- A packet is opened in the empty buffer for bytes that fit. -/
theorem openPut_returns (hc : Closed id base ps req) (hpos : req.outPos ≤ outBufSize)
    (hfits : ∀ p ∈ ps, p.2.length < 2 ^ 16) (hlen : req.outPos + 8 + str.length < 8192)
    (hne : str ≠ []) :
    (openPacket t >>= fun _ => put str >>= fun _ => pure true).Returns req fun done req' =>
      done = true ∧ Ready id base ps (some (t, str)) req' := by
  have hs := sizes
  refine .bind ((openPacket_returns hc hpos).imp ?_)
  rintro _ req1 ⟨ho, hpos1⟩
  refine .bind ((put_returns ho (by omega)).imp ?_)
  rintro _ req2 ⟨ho, hpos2⟩
  exact .pure ⟨rfl, ready_of_open ho hfits (by omega) hne⟩

theorem fits_snoc (hfits : ∀ p ∈ ps, p.2.length < 2 ^ 16) (hc : c.length < 2 ^ 16) :
    ∀ p ∈ ps ++ [(t, c)], p.2.length < 2 ^ 16 := by
  intro p hp
  rcases List.mem_append.mp hp with hp | hp
  · exact hfits p hp
  · rw [List.mem_singleton] at hp
    rw [hp]
    exact hc

/-! ## The fast path -/

/-- The fast path sends an empty record when no packet is open: a header leaves no room in the
buffer, and what is written is not sent directly. -/
def OpensEmpty (str : Bytes) (pos : ℕ) : Prop := 8184 ≤ pos ∧ str.length < 8184

theorem adds_one {x : Bytes} (h : c = contentOf cur ++ x) : Adds t x cur [] (some (t, c)) := by
  refine ⟨?_, ?_⟩
  · intro p hp
    rw [List.nil_append, Option.toList_some, List.mem_singleton] at hp
    rw [hp]
  · simpa using h

theorem writeBytes_fits (hr : Ready id base ps cur req) (ht : ∀ p ∈ cur, p.1 = t)
    (hstr : str ≠ []) (hlt : str.length < space cur req) : (writeFitting t str).Returns req
      (Wrote id base ps cur t str (cur = none ∧ OpensEmpty str req.outPos)) := by
  have hs := sizes
  refine .bind ((openUnlessOpen_returns hr ht).imp ?_)
  rintro _ req1 ⟨⟨h, ho⟩, hpos1⟩
  have hspace : req1.outPos + str.length < 8192 := by
    unfold space at hlt
    split_ifs at hlt hpos1 <;> omega
  refine .bind ((put_returns ho (by omega)).imp ?_)
  rintro _ req2 ⟨ho2, hpos2⟩
  refine .pure ?_
  refine ⟨[], some (t, contentOf cur ++ str), ?_, adds_one rfl, ?_⟩
  · rw [List.append_nil]
    exact ready_of_open ho2 hr.fits (by omega) (List.append_ne_nil_of_right_ne_nil _ hstr)
  · refine ⟨fun ⟨_, hp, _⟩ => absurd hp List.not_mem_nil, ?_⟩
    rintro ⟨rfl, hpos, -⟩
    rw [space, Option.isNone_none, if_pos rfl] at hlt
    omega

theorem fill_eq_nil (hr : Ready id base ps cur req) (hge : space cur req ≤ str.length)
    (hlt : str.length - space cur req < 8184) :
    contentOf cur ++ str.take (space cur req) = [] ↔ cur = none ∧ OpensEmpty str req.outPos := by
  unfold OpensEmpty
  cases cur with
  | none =>
    rw [space, Option.isNone_none, if_pos rfl] at *
    rw [show contentOf none = [] from rfl, List.nil_append, List.take_eq_nil_iff,
      ← List.length_eq_zero_iff]
    refine ⟨fun h => ⟨rfl, ?_, ?_⟩, fun h => ?_⟩
    · omega
    · omega
    · omega
  | some p =>
    have hne : p.2 ≠ [] := hr.filled p rfl
    refine ⟨fun h => absurd (List.append_eq_nil_iff.mp h).1 hne, fun h => ?_⟩
    exact absurd h.1 (Option.some_ne_none p)

theorem fillBuffer_returns {n : ℕ} (ho : OpenAt id base ps t c h req) (hn : req.outPos + n ≤ 8200) :
    (fillBuffer str n).Returns req fun _ req' =>
      OpenAt id base ps t (c ++ str.take n) h req' ∧ req'.outPos ≤ 8200 := by
  have hs := sizes
  unfold fillBuffer
  by_cases hpos : n = 0
  · subst hpos
    rw [List.take_zero, List.append_nil]
    exact .pure ⟨ho, by omega⟩
  · have hle := List.length_take_le n str
    rw [if_pos (by omega), Int.toNat_natCast]
    refine (put_returns ho (by omega)).imp ?_
    rintro _ req' ⟨ho', hpos'⟩
    exact ⟨ho', by omega⟩

/-- What the buffer has no room for goes to a second packet. -/
theorem writeSplit_returns (hr : Ready id base ps cur req) (ht : ∀ p ∈ cur, p.1 = t)
    (hge : space cur req ≤ str.length) (hlt : str.length - space cur req < 8184) :
    (writeSplit link t str (space cur req)).Returns req
      (Wrote id base ps cur t str (cur = none ∧ OpensEmpty str req.outPos)) := by
  have hs := sizes
  have hroom := hr.room
  have hempty := fill_eq_nil hr hge hlt
  have hspace : space cur req + (if cur.isNone then 8 else 0) + req.outPos ≤ 8200 := by
    unfold space
    split_ifs <;> omega
  generalize space cur req = n at *
  refine .bind ((openUnlessOpen_returns hr ht).imp ?_)
  rintro _ req1 ⟨⟨h, ho⟩, hpos1⟩
  refine .bind ((fillBuffer_returns ho (by omega)).imp ?_)
  rintro _ req2 ⟨ho2, hpos2⟩
  have hlen : (contentOf cur ++ str.take n).length < 2 ^ 16 := by
    have := ho2.pos
    omega
  refine .bind ((flush_open ho2 hpos2).imp ?_)
  rintro done req3 ⟨hpos3, hafter⟩
  cases done with
  | false => exact .pure (wrote_failed hafter hpos3)
  | true =>
    have hfits := fits_snoc (t := t) hr.fits hlen
    have hnew : (∃ p ∈ [(t, contentOf cur ++ str.take n)], p.2 = []) ↔
        cur = none ∧ OpensEmpty str req.outPos := by
      rw [← hempty]
      simp only [List.mem_singleton, exists_eq_left]
    rw [writeRest]
    by_cases hmore : (str.length : ℤ) > n
    · rw [if_pos hmore]
      refine (openPut_returns hafter (by omega) hfits ?_ ?_).imp ?_
      · rw [List.length_drop]
        omega
      · rw [ne_eq, List.drop_eq_nil_iff]
        omega
      rintro done req4 ⟨rfl, hready⟩
      refine ⟨_, _, hready, ⟨?_, ?_⟩, hnew⟩
      · intro p hp
        simp only [Option.toList_some, List.mem_append, List.mem_singleton] at hp
        rcases hp with rfl | rfl <;> rfl
      · simp
    · rw [if_neg hmore]
      refine .pure ?_
      refine ⟨_, none, ready_of_closed hafter hfits (by omega), ⟨?_, ?_⟩, hnew⟩
      · intro p hp
        simp only [Option.toList_none, List.append_nil, List.mem_singleton] at hp
        rw [hp]
      · simp only [Option.toList_none, List.append_nil, List.flatMap_singleton]
        rw [List.take_of_length_le (by omega)]

/-! ## Large writes -/

/-- The packets of a large write: all of the type `t`, none of them empty. -/
structure Direct (t : UInt8) (new : List Packet) : Prop where
  type : ∀ p ∈ new, p.1 = t
  filled : ∀ p ∈ new, p.2 ≠ []
  fits : ∀ p ∈ new, p.2.length < 2 ^ 16

theorem direct_cons (hd : Direct t new) (hc : c ≠ []) (hlen : c.length < 2 ^ 16) :
    Direct t ((t, c) :: new) := by
  refine ⟨?_, ?_, ?_⟩
  · intro p hp
    rcases List.mem_cons.mp hp with rfl | hp
    · rfl
    · exact hd.type p hp
  · intro p hp
    rcases List.mem_cons.mp hp with rfl | hp
    · exact hc
    · exact hd.filled p hp
  · intro p hp
    rcases List.mem_cons.mp hp with rfl | hp
    · exact hlen
    · exact hd.fits p hp

/-- The loop leaves between 8 and `0xffff` bytes. -/
theorem sendLarge_returns (hc : Closed id base ps req) (hpos : req.outPos ≤ outBufSize)
    (hstr : 8 ≤ str.length) : (sendLarge link t str).Returns req fun rest req' => match rest with
      | none => Closed id req'.sent [] req' ∧ req'.outPos = 0
      | some rest => ∃ new, Closed id base (ps ++ new) req' ∧ req'.outPos ≤ outBufSize ∧
          Direct t new ∧ new.flatMap (·.2) ++ rest = str ∧
          8 ≤ rest.length ∧ rest.length ≤ 0xffff := by
  induction hn : str.length using Nat.strong_induction_on generalizing str ps req with
  | _ n ih =>
    rw [sendLarge]
    by_cases hlt : str.length > 0xffff
    · have hlen : (str.take 0xfff8).length = 0xfff8 := List.length_take_of_le (by omega)
      have hrest : (str.drop 0xfff8).length = str.length - 0xfff8 := List.length_drop ..
      rw [if_pos hlt]
      refine .bind ((sendThrough_returns hc hpos (by rw [hlen]; decide)).imp ?_)
      rintro done req1 ⟨hpos1, hafter⟩
      cases done with
      | false => exact .pure ⟨hafter, hpos1⟩
      | true =>
        refine (ih _ (by omega) hafter (by omega) (by omega) rfl).imp ?_
        intro rest req2 hrest2
        cases rest with
        | none => exact hrest2
        | some rest =>
          obtain ⟨new, hc2, hpos2, hd, hcat, hlo, hhi⟩ := hrest2
          refine ⟨(t, str.take 0xfff8) :: new, ?_, hpos2, ?_, ?_, hlo, hhi⟩
          · rw [List.append_assoc] at hc2
            exact hc2
          · refine direct_cons hd ?_ (by omega)
            exact List.ne_nil_of_length_pos (by omega)
          · rw [List.flatMap_cons, List.append_assoc, hcat]
            exact List.take_append_drop ..
    · rw [if_neg hlt]
      refine .pure ⟨[], ?_, hpos, ⟨?_, ?_, ?_⟩, rfl, hstr, by omega⟩
      · rw [List.append_nil]
        exact hc
      all_goals exact fun _ hp => absurd hp List.not_mem_nil

/-- Whole words are sent, fewer than 8 bytes stay in the buffer. -/
theorem sendTail_returns (hc : Closed id base ps req) (hpos : req.outPos ≤ outBufSize)
    (hfits : ∀ p ∈ ps, p.2.length < 2 ^ 16) (hlo : 8 ≤ str.length) (hhi : str.length ≤ 0xffff) :
    (sendTail link t str).Returns req fun done req' =>
      if done then ∃ c cur', Ready id base (ps ++ [(t, c)]) cur' req' ∧ c ≠ [] ∧
        c ++ contentOf cur' = str ∧ ∀ p ∈ cur', p.1 = t
      else Closed id req'.sent [] req' ∧ req'.outPos = 0 := by
  unfold sendTail
  dsimp only
  generalize hrest : (if paddingOf str.length ≠ 0 then 8 - paddingOf str.length else 0) = rest
  have hword : 8 ∣ str.length - rest ∧ rest < 8 ∧ (paddingOf str.length ≠ 0 ↔ rest ≠ 0) := by
    unfold paddingOf at *
    split_ifs at hrest <;> omega
  obtain ⟨hdvd, hrest8, hpad⟩ := hword
  have hlen : (str.take (str.length - rest)).length = str.length - rest :=
    List.length_take_of_le (by omega)
  refine .bind ((sendThrough_returns hc hpos (by rw [hlen]; exact hdvd)).imp ?_)
  rintro done req1 ⟨hpos1, hafter⟩
  cases done with
  | false => exact .pure ⟨hafter, hpos1⟩
  | true =>
    have hfits1 := fits_snoc (t := t) (c := str.take (str.length - rest)) hfits (by omega)
    have hne : str.take (str.length - rest) ≠ [] := List.ne_nil_of_length_pos (by omega)
    by_cases hzero : paddingOf str.length ≠ 0
    · have hdrop : (str.drop (str.length - rest)).length = rest := by
        rw [List.length_drop]
        omega
      rw [if_pos hzero]
      refine (openPut_returns hafter (by omega) hfits1 (by omega)
        (List.ne_nil_of_length_pos (by omega))).imp ?_
      rintro done req2 ⟨rfl, hready⟩
      refine ⟨_, _, hready, hne, List.take_append_drop .., ?_⟩
      intro p hp
      cases hp
      rfl
    · have hrest0 : rest = 0 := by
        by_contra hne'
        exact hzero (hpad.mpr hne')
      rw [if_neg hzero]
      refine .pure ?_
      refine ⟨_, none, ready_of_closed hafter hfits1 (by omega), hne, ?_, fun _ hp =>
        absurd hp (Option.not_mem_none _)⟩
      subst hrest0
      simp [contentOf]

theorem writeLarge_returns (hr : Ready id base ps cur req) (ht : ∀ p ∈ cur, p.1 = t)
    (hlen : 8184 ≤ str.length) : (writeLarge link t str).Returns req
      (Wrote id base ps cur t str (cur = none ∧ OpensEmpty str req.outPos)) := by
  have hcur : Direct t cur.toList ∧ cur.toList.flatMap (·.2) = contentOf cur := by
    cases cur with
    | none =>
      refine ⟨⟨?_, ?_, ?_⟩, rfl⟩
      all_goals exact fun _ hp => absurd hp List.not_mem_nil
    | some p =>
      obtain ⟨t', c⟩ := p
      obtain ⟨h, -, hlt⟩ := hr.length_lt
      obtain rfl : t' = t := ht _ rfl
      refine ⟨direct_cons ⟨?_, ?_, ?_⟩ (hr.filled _ rfl) (by omega), by simp [contentOf]⟩
      all_goals exact fun _ hp => absurd hp List.not_mem_nil
  refine .bind (hr.close.imp ?_)
  rintro _ req1 ⟨hc, hpos1⟩
  have hle := hr.closedPos_le
  refine .bind ((sendLarge_returns hc (by omega) (by omega)).imp ?_)
  intro rest req2 hrest
  cases rest with
  | none => exact .pure (wrote_failed hrest.1 hrest.2)
  | some rest =>
    obtain ⟨new, hc2, hpos2, hd, hcat, hlo, hhi⟩ := hrest
    have hfits : ∀ p ∈ ps ++ cur.toList ++ new, p.2.length < 2 ^ 16 := by
      intro p hp
      rcases List.mem_append.mp hp with hp | hp
      · exact hr.fits_closed p hp
      · exact hd.fits p hp
    refine (sendTail_returns hc2 hpos2 hfits hlo hhi).imp ?_
    intro done req3 htail
    cases done with
    | false => exact wrote_failed htail.1 htail.2
    | true =>
      obtain ⟨c, cur', hready, hne, hcat', htype⟩ := htail
      refine ⟨cur.toList ++ new ++ [(t, c)], cur', ?_, ⟨?_, ?_⟩, ?_⟩
      · simpa only [List.append_assoc] using hready
      · intro p hp
        simp only [List.mem_append, List.mem_singleton, Option.mem_toList] at hp
        rcases hp with ((hp | hp) | rfl) | hp
        · exact ht p hp
        · exact hd.type p hp
        · rfl
        · exact htype p hp
      · have hcur' : cur'.toList.flatMap (·.2) = contentOf cur' := by
          cases cur' <;> simp [contentOf]
        simp only [List.flatMap_append, List.flatMap_singleton, hcur.2, hcur']
        rw [List.append_assoc, hcat', List.append_assoc, hcat]
      · refine ⟨?_, fun h => absurd h.2.2 (by omega)⟩
        rintro ⟨p, hp, hnil⟩
        simp only [List.mem_append, List.mem_singleton] at hp
        rcases hp with (hp | hp) | rfl
        · exact absurd hnil (hcur.1.filled p hp)
        · exact absurd hnil (hd.filled p hp)
        · exact absurd hnil hne

/-- **The fast path** of `fcgi_write`. -/
theorem writeBytes_returns (hr : Ready id base ps cur req) (ht : ∀ p ∈ cur, p.1 = t)
    (hstr : str ≠ []) : (writeBytes link t str).Returns req
      (Wrote id base ps cur t str (cur = none ∧ OpensEmpty str req.outPos)) := by
  have hs := sizes
  refine .bind (.get ?_)
  rw [spaceLeft_eq hr]
  dsimp only
  split_ifs with h1 h2
  · exact writeBytes_fits hr ht hstr (by omega)
  · exact writeSplit_returns hr ht (by omega) (by omega)
  · exact writeLarge_returns hr ht (by omega)

/-! ## The plain loop -/

/-- The plain loop sends an empty record when no packet is open: a header fills the buffer. -/
def PlainEmpty (str : Bytes) (pos : ℕ) : Prop := str ≠ [] ∧ pos = 8184

/-- After the first half of a turn a packet is open; with one that is empty the buffer is
full if and only if a header filled it. -/
theorem plainOpen_returns (hr : Ready id base ps cur req) (ht : ∀ p ∈ cur, p.1 = t) :
    (plainOpen link t).Returns req fun opened req' =>
      if opened then (∃ h, OpenAt id base ps t (contentOf cur) h req') ∧ req'.outPos ≤ 8192 ∧
        ((cur = none ∧ req'.outPos = 8192) ↔ (cur = none ∧ req.outPos = 8184)) ∧
        (cur = none → req.outPos = 0 → req'.outPos = 8)
      else Closed id req'.sent [] req' ∧ req'.outPos = 0 := by
  have hs := sizes
  have hroom := hr.room
  refine .bind (.get ?_)
  rw [hr.holds.outHdr_isNone]
  cases cur with
  | some p =>
    obtain ⟨h, ho⟩ := hr.holds
    rw [ht p rfl] at ho
    refine .pure ?_
    refine ⟨⟨h, ho⟩, by omega, ?_, fun h => absurd h (Option.some_ne_none p)⟩
    exact ⟨fun h => absurd h.1 (Option.some_ne_none p), fun h => absurd h.1 (Option.some_ne_none p)⟩
  | none =>
    have hc : Closed id base ps req := hr.holds
    have hal := hc.aligned
    rw [Option.isNone_none]
    -- where there is no room for a header the buffer is full, as positions are aligned
    have hflush : (plainFlush link req).Returns req fun flushed req' =>
        if flushed then Closed id base ps req' ∧
          req'.outPos = if req.outPos = 8192 then 0 else req.outPos
        else Closed id req'.sent [] req' ∧ req'.outPos = 0 := by
      unfold plainFlush
      by_cases hfull : req.outPos = 8192
      · rw [if_pos (by omega), if_pos hfull]
        refine (flush_returns (show Holds id base ps none req from hc) ?_).imp ?_
        · rw [closedPos_of_closed hc]
          omega
        rintro flushed req' ⟨hpos, hafter⟩
        cases flushed with
        | false => exact ⟨hafter, hpos⟩
        | true =>
          rw [Option.toList_none, List.append_nil] at hafter
          exact ⟨hafter, hpos⟩
      · rw [if_neg (by omega), if_neg hfull]
        exact .pure ⟨hc, rfl⟩
    refine .bind (hflush.imp ?_)
    intro flushed req1 hreq1
    cases flushed with
    | false => exact .pure hreq1
    | true =>
      obtain ⟨hc1, hpos1⟩ := hreq1
      have hle : req1.outPos ≤ 8184 := by split_ifs at hpos1 <;> omega
      refine .bind ((openPacket_returns hc1 (by omega)).imp ?_)
      rintro _ req2 ⟨ho, hpos2⟩
      refine .pure ?_
      refine ⟨⟨_, ho⟩, by omega, ?_, fun _ h0 => ?_⟩
      · split_ifs at hpos1
        · omega
        · simp only [true_and]
          omega
      · split_ifs at hpos1 <;> omega

theorem contentOf_eq_nil (hr : Ready id base ps cur req) : contentOf cur = [] ↔ cur = none := by
  cases cur with
  | none => exact ⟨fun _ => rfl, fun _ => rfl⟩
  | some p =>
    exact ⟨fun h => absurd h (hr.filled p rfl), fun h => absurd h (Option.some_ne_none p)⟩

/-- **The plain loop** of `fcgi_write`, with fuel for one turn more than there are bytes, and
for one more where the buffer is not empty. -/
theorem plainLoop_returns {fuel : ℕ} (hr : Ready id base ps cur req) (ht : ∀ p ∈ cur, p.1 = t)
    (hfuel : str.length + (if cur.isNone ∧ req.outPos = 0 then 1 else 2) ≤ fuel) :
    (plainLoop link t fuel str).Returns req
      (Wrote id base ps cur t str (cur = none ∧ PlainEmpty str req.outPos)) := by
  induction fuel generalizing str ps cur req with
  | zero => split_ifs at hfuel <;> omega
  | succ fuel ih =>
    have hs := sizes
    rw [plainLoop]
    by_cases hnil : str.length = 0
    · obtain rfl := List.eq_nil_of_length_eq_zero hnil
      refine .pure ?_
      refine ⟨[], cur, ?_, ⟨?_, ?_⟩, fun ⟨_, hp, _⟩ => absurd hp List.not_mem_nil,
        fun h => absurd rfl h.2.1⟩
      · rw [List.append_nil]
        exact hr
      · intro p hp
        rw [List.nil_append, Option.mem_toList] at hp
        exact ht p hp
      · cases cur <;> simp [contentOf]
    · have hne : str ≠ [] := fun h => hnil (by rw [h]; rfl)
      rw [if_neg hnil]
      refine .bind ((plainOpen_returns hr ht).imp ?_)
      intro opened req1 hopen
      cases opened with
      | false => exact .pure (wrote_failed hopen.1 hopen.2)
      | true =>
        obtain ⟨⟨h, ho⟩, hpos1, hplain, hzero⟩ := hopen
        refine .bind (.get ?_)
        dsimp only
        generalize hn : 8192 - req1.outPos = n
        have hlimit : (outBufSize : ℤ) - req1.outPos = n := by omega
        have hempty : contentOf cur ++ str.take n = [] ↔ (cur = none ∧ req.outPos = 8184) := by
          rw [List.append_eq_nil_iff, contentOf_eq_nil hr, ← hplain, List.take_eq_nil_iff]
          refine and_congr_right fun _ => ⟨fun h => ?_, fun h => .inl (by omega)⟩
          rcases h with h | h
          · omega
          · exact absurd h hne
        rw [hlimit, Int.toNat_natCast]
        by_cases hlt : (str.length : ℤ) < n
        · rw [if_pos hlt]
          refine .bind ((put_returns ho (by omega)).imp ?_)
          rintro _ req2 ⟨ho2, hpos2⟩
          refine .pure ?_
          refine ⟨[], _, ?_, adds_one rfl, fun ⟨_, hp, _⟩ => absurd hp List.not_mem_nil,
            fun h => ?_⟩
          · rw [List.append_nil]
            exact ready_of_open ho2 hr.fits (by omega) (List.append_ne_nil_of_right_ne_nil _ hne)
          · have := (hplain.mpr ⟨h.1, h.2.2⟩).2
            omega
        · have hlen : (str.take n).length = n := List.length_take_of_le (by omega)
          rw [if_neg hlt]
          refine .bind ((put_returns ho (by omega)).imp ?_)
          rintro _ req2 ⟨ho2, hpos2⟩
          refine .bind ((flush_open ho2 (by omega)).imp ?_)
          rintro flushed req3 ⟨hpos3, hafter⟩
          cases flushed with
          | false => exact .pure (wrote_failed hafter hpos3)
          | true =>
            have hlen1 : (contentOf cur ++ str.take n).length < 2 ^ 16 := by
              have := ho2.pos
              omega
            have hready := ready_of_closed hafter (fits_snoc (t := t) hr.fits hlen1)
              (by omega)
            have hdrop : (str.drop n).length + (if (none : Option Packet).isNone ∧
                req3.outPos = 0 then 1 else 2) ≤ fuel := by
              rw [if_pos ⟨rfl, hpos3⟩, List.length_drop]
              -- only a full buffer leaves everything to the next turn
              split_ifs at hfuel with hstart
              · have := hzero (Option.isNone_iff_eq_none.mp hstart.1) hstart.2
                omega
              · omega
            refine (ih hready (fun _ hp => absurd hp (Option.not_mem_none _)) hdrop).imp ?_
            intro done req4 hwrote
            cases done with
            | false => exact hwrote
            | true =>
              obtain ⟨new, cur', hready', hadds, hnew⟩ := hwrote
              refine ⟨(t, contentOf cur ++ str.take n) :: new, cur', ?_, ⟨?_, ?_⟩, ?_⟩
              · rw [List.append_assoc] at hready'
                exact hready'
              · intro p hp
                rcases List.mem_cons.mp hp with rfl | hp
                · rfl
                · exact hadds.type p hp
              · rw [List.cons_append, List.flatMap_cons, hadds.content]
                show contentOf cur ++ str.take n ++ ([] ++ str.drop n) = _
                rw [List.nil_append, List.append_assoc, List.take_append_drop]
              · rw [List.exists_mem_cons_iff, hnew, hempty]
                unfold PlainEmpty
                constructor
                · rintro (h | h)
                  · exact ⟨h.1, hne, h.2⟩
                  · omega
                · exact fun h => .inl ⟨h.1, h.2.2⟩

/-!
# What a run sends

For each type the contents are what the calls were given, in their order, by the fast path and by
the plain loop alike.  A short write with no open packet of its type, where the buffer has room for
no more than a header, sends an empty record, which ends a stream.
-/

open FastcgiWire

open List Option

variable {id : ℕ} {base : Bytes} {ps new closed : List Packet} {cur cur' : Option Packet}
  {t : UInt8} {c str : Bytes} {req : Request} {link : ℕ → Option ℕ}
  {body : UInt8 → Bytes → Run Request Bool} {E : Bytes → ℕ → Prop}

/-! ## Streams -/

/-- The contents of the packets of a type. -/
def stream (type : UInt8) (ps : List Packet) : Bytes :=
  (ps.filter fun p => p.1 = type).flatMap (·.2)

@[simp] theorem stream_append (type : UInt8) (ps qs : List Packet) :
    stream type (ps ++ qs) = stream type ps ++ stream type qs := by
  rw [stream, filter_append, flatMap_append]
  rfl

theorem stream_of_type (h : ∀ p ∈ ps, p.1 = t) (type : UInt8) :
    stream type ps = if t = type then ps.flatMap (·.2) else [] := by
  unfold stream
  by_cases ht : t = type
  · rw [if_pos ht, filter_eq_self.mpr]
    intro p hp
    rw [h p hp]
    exact decide_eq_true ht
  · rw [if_neg ht, filter_eq_nil_iff.mpr]
    · rfl
    · intro p hp
      rw [h p hp]
      simpa using ht

theorem Adds.stream (ha : Adds t str cur new cur') (ht : ∀ p ∈ cur, p.1 = t) (type : UInt8) :
    stream type (new ++ cur'.toList) = stream type cur.toList ++ if t = type then str else [] := by
  have hcur : ∀ p ∈ cur.toList, p.1 = t := fun p hp => ht p (mem_toList.mp hp)
  have hcontent : cur.toList.flatMap (·.2) = contentOf cur := by
    cases cur <;> simp [contentOf]
  rw [stream_of_type ha.type, stream_of_type hcur, ha.content, hcontent]
  split_ifs <;> rfl

/-! ## Calls -/

/-- A packet of the type is open. -/
def openFor (type : UInt8) (req : Request) : Bool :=
  match req.outHdr with
  | none => false
  | some hdr => req.outBuf (hdr + 1) = type

/-- Closing the open packet of another type leaves one of the type, or none. -/
theorem closeOther_returns (hr : Ready id base ps cur req) :
    (closeOther t).Returns req fun _ req' => ∃ closed cur',
      Ready id base (ps ++ closed) cur' req' ∧ (∀ p ∈ cur', p.1 = t) ∧
      closed ++ cur'.toList = cur.toList ∧ (cur' = none ↔ openFor t req = false) ∧
      (cur' = none → req'.outPos = closedPos req) := by
  have hle := hr.closedPos_le
  refine .bind (.get ?_)
  cases cur with
  | none =>
    have hc : Closed id base ps req := hr.holds
    have hother : otherOpen t req = false := by rw [otherOpen, hc.hdr]
    rw [hother]
    refine .pure ⟨[], none, ?_, fun _ hp => absurd hp (not_mem_none _), rfl,
      ?_, fun _ => (closedPos_of_closed hc).symm⟩
    · rw [append_nil]
      exact hr
    · rw [openFor, hc.hdr]
      exact ⟨fun _ => rfl, fun _ => rfl⟩
  | some p =>
    obtain ⟨h, ho⟩ := hr.holds
    by_cases htype : p.1 = t
    · have hother : otherOpen t req = false := by
        rw [otherOpen, ho.hdr]
        simpa [ho.type] using htype
      rw [hother]
      refine .pure ⟨[], some p, ?_, ?_, rfl, ?_, fun h => absurd h
        (some_ne_none p)⟩
      · rw [append_nil]
        exact hr
      · intro q hq
        cases hq
        exact htype
      · refine ⟨fun h => absurd h (some_ne_none p), fun h => ?_⟩
        rw [openFor, ho.hdr] at h
        simp [ho.type, htype] at h
    · have hother : otherOpen t req = true := by
        rw [otherOpen, ho.hdr]
        simpa [ho.type] using htype
      rw [hother]
      refine hr.close.imp ?_
      rintro _ req' ⟨hc, hpos⟩
      refine ⟨[p], none, ready_of_closed hc hr.fits_closed (by rw [hpos]; exact hle),
        fun _ hp => absurd hp (not_mem_none _), rfl, ?_, fun _ => hpos⟩
      rw [openFor, ho.hdr]
      simpa [ho.type] using htype

/-- What `body` does with bytes of the type of the open packet, where it sends an empty record
if no packet is open and the position satisfies `E`. -/
def Spec (body : UInt8 → Bytes → Run Request Bool) (E : Bytes → ℕ → Prop) : Prop :=
  ∀ {id base ps cur req t str}, Ready id base ps cur req → (∀ p ∈ cur, p.1 = t) → str ≠ [] →
    (body t str).Returns req (Wrote id base ps cur t str (cur = none ∧ E str req.outPos))

theorem spec_writeBytes (link : ℕ → Option ℕ) : Spec (writeBytes link) OpensEmpty :=
  fun hr ht hstr => writeBytes_returns hr ht hstr

theorem spec_plainBytes (link : ℕ → Option ℕ) : Spec (plainBytes link) PlainEmpty :=
  fun hr ht _ => plainLoop_returns hr ht (by split_ifs <;> omega)

/-- The call sends an empty record. -/
def Call.SendsEmpty (E : Bytes → ℕ → Prop) (req : Request) : Call → Prop
  | .write type str len _ =>
    0 < len ∧ openFor type req = false ∧ E (str.take len.toNat) (closedPos req)
  | .flush => False

/-- What a call leaves. -/
def Called (id : ℕ) (base : Bytes) (ps : List Packet) (cur : Option Packet) (c : Call)
    (sendsEmpty : Prop) (done : Bool) (req : Request) : Prop :=
  if done then ∃ new cur', Ready id base (ps ++ new) cur' req ∧
    (∀ type, stream type (new ++ cur'.toList) = stream type cur.toList ++ c.argument type) ∧
    ((∃ p ∈ new, p.2 = []) ↔ sendsEmpty)
  else ∃ base', Ready id base' [] none req

/-- **One call** does what it was given, and goes on after errors. -/
theorem call_returns (link : ℕ → Option ℕ) (hb : Spec body E) (hr : Ready id base ps cur req)
    (c : Call) : (c.run link body).Returns req (Called id base ps cur c (c.SendsEmpty E req)) := by
  cases c with
  | flush =>
    have hroom := hr.closedPos_le.trans (Nat.le_add_right outBufSize reservedSize)
    refine (flush_returns hr.holds hroom).imp ?_
    rintro done req' ⟨hpos, hafter⟩
    cases done with
    | false => exact ⟨_, ready_of_failed hafter hpos⟩
    | true =>
      refine ⟨cur.toList, none, ready_of_closed hafter hr.fits_closed (by omega), ?_, ?_⟩
      · intro type
        show stream type (cur.toList ++ []) = stream type cur.toList ++ []
        rw [append_nil, append_nil]
      · refine ⟨fun ⟨p, hp, hnil⟩ => ?_, False.elim⟩
        exact hr.filled p (mem_toList.mp hp) hnil
  | write t str len hvalid =>
    refine .bind (f := fun ret : ℤ => pure (decide (0 ≤ ret))) ?_
    unfold fcgiWrite
    by_cases hlen : len ≤ 0
    · rw [if_pos hlen]
      refine .pure (.pure ?_)
      refine ⟨[], cur, by rw [append_nil]; exact hr, ?_, ?_⟩
      · intro type
        have hzero : len.toNat = 0 := by omega
        show stream type ([] ++ cur.toList)
          = stream type cur.toList ++ if t = type then str.take len.toNat else []
        rw [hzero, take_zero, ite_self, append_nil, nil_append]
      · exact ⟨fun ⟨_, hp, _⟩ => absurd hp not_mem_nil, fun h => absurd h.1 (by omega)⟩
    · rw [if_neg hlen]
      have hne : str.take len.toNat ≠ [] := by
        apply ne_nil_of_length_pos
        rw [length_take]
        omega
      refine .bind ((closeOther_returns hr).imp ?_)
      rintro _ req1 ⟨closed, cur1, hr1, ht1, hclosed, hopen, hpos1⟩
      refine .bind ((hb hr1 ht1 hne).imp ?_)
      intro done req2 hwrote
      refine .pure (.pure ?_)
      cases done with
      | false => exact ⟨_, hwrote⟩
      | true =>
        obtain ⟨new, cur', hr2, hadds, hempty⟩ := hwrote
        rw [Called, if_pos (by simpa using (not_le.mp hlen).le)]
        refine ⟨closed ++ new, cur', by rw [← append_assoc]; exact hr2, ?_, ?_⟩
        · intro type
          rw [append_assoc, stream_append, hadds.stream ht1, ← hclosed, stream_append, append_assoc]
          rfl
        · have hfilled : ¬ ∃ p ∈ closed, p.2 = [] := by
            rintro ⟨p, hp, hnil⟩
            have hmem : p ∈ cur.toList := by
              rw [← hclosed]
              exact mem_append_left _ hp
            exact hr.filled p (mem_toList.mp hmem) hnil
          simp only [mem_append, or_and_right, exists_or, hfilled, false_or]
          rw [hempty, Call.SendsEmpty, ← hopen]
          refine ⟨fun ⟨h1, h2⟩ => ⟨by omega, h1, hpos1 h1 ▸ h2⟩, fun ⟨_, h1, h2⟩ => ⟨h1, ?_⟩⟩
          rw [hpos1 h1]
          exact h2

/-! ## The end of the request -/

/-- The packet that ends a request; its reserved bytes are those of the buffer. -/
def endPacket (reserved : Bytes) : Packet := (END_REQUEST, [0, 0, 0, 0, 0] ++ reserved)

theorem endRecord_returns (hc : Closed id base ps req) (hpos : req.outPos ≤ outBufSize) :
    (endRecord true).Returns req fun len req' => ∃ reserved, reserved.length = 3 ∧
      req'.sent ++ slice req'.outBuf 0 len
        = base ++ (ps ++ [endPacket reserved]).flatMap (packetBytes id) := by
  have hs := sizes
  refine .bind (.get ?_)
  have hpad : paddingOf 8 = 0 := rfl
  refine .bind (makeHeader_returns (by omega) (fun h => absurd hpad h)
    (.bind (store_returns ?_ (.pure ?_))))
  · show req.outPos + headerSize + 5 ≤ _
    omega
  · obtain ⟨out, hsent, hout⟩ := hc.carries
    refine ⟨slice (withHeader req.outBuf req.outPos END_REQUEST req.id 8) (req.outPos + 13) 3,
      length_slice .., ?_⟩
    generalize hm : withHeader req.outBuf req.outPos END_REQUEST req.id 8 = m
    have hbefore : slice m 0 req.outPos = slice req.outBuf 0 req.outPos := by
      rw [← hm]
      exact slice_withHeader_before _ _ _ _ le_rfl
    have hheader : slice m req.outPos 8 = header END_REQUEST id 8 := by
      rw [← hm, withHeader, slice_blit_of_le _ (by omega), hc.same]
      exact slice_blit_self req.outBuf req.outPos (header END_REQUEST id 8)
    have hbody : slice (blit m (req.outPos + headerSize) [0, 0, 0, 0, 0])
        (req.outPos + headerSize) 5 = [0, 0, 0, 0, 0] :=
      slice_blit_self m (req.outPos + headerSize) [0, 0, 0, 0, 0]
    have hrest : slice (blit m (req.outPos + headerSize) [0, 0, 0, 0, 0]) (req.outPos + 13) 3
        = slice m (req.outPos + 13) 3 := slice_blit_of_ge (by
          show req.outPos + headerSize + 5 ≤ _
          omega)
    rw [show req.outPos + reservedSize = req.outPos + (8 + (5 + 3)) from rfl, slice_add, slice_add,
      slice_add, zero_add, slice_blit_of_le _ (by omega), slice_blit_of_le _ (by omega),
      hbefore, hheader, hsent, flatMap_append, ← hout, flatMap_singleton]
    rw [hbody, hrest]
    simp only [endPacket, packetBytes, append_assoc, length_append, length_slice]
    rfl

/-- What `fcgi_end` leaves. -/
theorem fcgiEnd_returns (hr : Ready id base ps cur req) :
    (fcgiEnd link).Returns req fun done req' => done = true → ∃ reserved, reserved.length = 3 ∧
        req'.sent = base ++
        (ps ++ cur.toList ++ [endPacket reserved]).flatMap (packetBytes id) := by
  have hended : req.ended = false := by
    cases cur with
    | none => exact Closed.ended hr.holds
    | some p =>
      obtain ⟨h, ho⟩ := hr.holds
      exact ho.ended
  refine .bind (.get ?_)
  rw [hended]
  refine .bind (.bind (hr.close.imp ?_))
  rintro _ req1 ⟨hc, hpos1⟩
  refine .bind ((endRecord_returns hc (hpos1.le.trans hr.closedPos_le)).imp ?_)
  rintro len req2 ⟨reserved, hlen, hbytes⟩
  refine .bind (.get (.bind
    (safeWrite_returns (fun w => ?_) (fun s w => ?_))))
  · exact .bind (.modify (.pure (.bind
      (.modify (.pure fun _ => ⟨reserved, hlen, hbytes⟩)))))
  · exact .bind (.modify (.pure (.bind
      (.modify (.pure fun h => absurd h (by decide))))))

/-! ## Runs -/

/-- No call of the run sends an empty record. -/
def Clear (link : ℕ → Option ℕ) (body : UInt8 → Bytes → Run Request Bool)
    (E : Bytes → ℕ → Prop) : List Call → Request → Prop
  | [], _ => True
  | c :: cs, req => ¬ c.SendsEmpty E req ∧ Clear link body E cs (c.run link body req).2

/-- The bytes that the calls are given for a type. -/
def arguments (type : UInt8) (calls : List Call) : Bytes :=
  calls.flatMap (Call.argument type)

/-- **A run** never fails.  If no call reports an error, it sends packets with what the calls
were given and the packet that ends the request; none of them is empty if and only if no call
sends an empty record. -/
theorem runCalls_returns (link : ℕ → Option ℕ) (hb : Spec body E) (calls : List Call)
    (hr : Ready id base ps cur req) :
    (runCalls link body calls).Returns req fun done req' => done = true →
      ∃ new reserved, reserved.length = 3 ∧
        req'.sent = base ++ (ps ++ new ++ [endPacket reserved]).flatMap (packetBytes id) ∧
        (∀ type, stream type new = stream type cur.toList ++ arguments type calls) ∧
        (∀ p ∈ new, p.2.length < 2 ^ 16) ∧
        ((∃ p ∈ new, p.2 = []) ↔ ¬ Clear link body E calls req) := by
  induction calls generalizing base ps cur req with
  | nil =>
    refine (fcgiEnd_returns hr).imp ?_
    intro done req' hend hdone
    obtain ⟨reserved, hlen, hsent⟩ := hend hdone
    refine ⟨cur.toList, reserved, hlen, hsent, fun type => (append_nil _).symm,
      fun p hp => hr.fits_closed p (mem_append_right _ hp), ?_⟩
    refine ⟨fun ⟨p, hp, hnil⟩ => ?_, fun h => absurd trivial h⟩
    exact absurd hnil (hr.filled p (mem_toList.mp hp))
  | cons c cs ih =>
    obtain ⟨done, req1, hrun, hcalled⟩ := call_returns link hb hr c
    have hreq1 : (c.run link body req).2 = req1 := by rw [hrun]
    refine .bind ⟨done, req1, hrun, ?_⟩
    cases done with
    | false =>
      obtain ⟨base', hr1⟩ := hcalled
      refine .bind ((ih hr1).imp ?_)
      intro rest req2 _
      exact .pure fun h => absurd h Bool.false_ne_true
    | true =>
      obtain ⟨new, cur', hr1, hstream, hempty⟩ := hcalled
      refine .bind ((ih hr1).imp ?_)
      intro rest req2 hrest
      refine .pure ?_
      intro hdone
      obtain ⟨more, reserved, hlen, hsent, hstream', hfits, hempty'⟩ := hrest hdone
      refine ⟨new ++ more, reserved, hlen, ?_, ?_, ?_, ?_⟩
      · rw [hsent]
        simp only [append_assoc]
      · intro type
        rw [stream_append, hstream', ← append_assoc, ← stream_append, hstream, append_assoc]
        rfl
      · intro p hp
        rcases mem_append.mp hp with hp | hp
        · exact hr1.fits p (mem_append_right _ hp)
        · exact hfits p hp
      · rw [Clear, hreq1, not_and_or, not_not, ← hempty, ← hempty']
        simp only [mem_append, or_and_right, exists_or]

/-! ## Reading what is sent -/

/-- The record that a packet is read as. -/
def recordOf (id : ℕ) (p : Packet) : Record :=
  ⟨p.1, id % 2 ^ 16, p.2, paddingOf p.2.length⟩

theorem readRecord_packetBytes {p : Packet} (h : p.2.length < 2 ^ 16) (u : Bytes) :
    readRecord (packetBytes id p ++ u) = some (recordOf id p, u) := by
  have hpad := paddingOf_lt p.2.length
  have hbyte : ∀ n : ℕ, (UInt8.ofNat (n &&& 0xff)).toNat = n % 256 := by
    intro n
    rw [show n &&& 0xff = n % 256 from Nat.and_two_pow_sub_one_eq_mod n 8, UInt8.toNat_ofNat']
    omega
  have htwo : ∀ n : ℕ, (UInt8.ofNat ((n >>> 8) &&& 0xff)).toNat * 2 ^ 8
      + (UInt8.ofNat (n &&& 0xff)).toNat = n % 2 ^ 16 := by
    intro n
    rw [hbyte, hbyte]
    omega
  have hlen : p.2.length = (UInt8.ofNat ((p.2.length >>> 8) &&& 0xff)).toNat * 2 ^ 8
      + (UInt8.ofNat (p.2.length &&& 0xff)).toNat := by
    rw [htwo, Nat.mod_eq_of_lt h]
  have hzeros : (replicate (paddingOf p.2.length) (0 : UInt8)).length
      = (UInt8.ofNat (paddingOf p.2.length)).toNat := by
    rw [length_replicate, UInt8.toNat_ofNat']
    omega
  have hread := readRecord_append p.1 (UInt8.ofNat ((id >>> 8) &&& 0xff))
    (UInt8.ofNat (id &&& 0xff)) _ _ _ 0 hlen hzeros u
  rw [length_replicate, htwo] at hread
  exact hread

theorem readRecords_packets (h : ∀ p ∈ ps, p.2.length < 2 ^ 16) :
    readRecords (ps.flatMap (packetBytes id)) = some (ps.map (recordOf id)) := by
  have hread := readAll_flatMap consumes_readRecord (packetBytes id) (recordOf id) ps []
    fun p hp u => readRecord_packetBytes (h p hp) u
  rw [append_nil, readAll_nil, map_some, append_nil] at hread
  exact hread

/-- The contents of the records of a type. -/
def contents (type : UInt8) (rs : List Record) : Bytes :=
  (rs.filter fun r => r.type = type).flatMap (·.content)

theorem contents_map (type : UInt8) (ps : List Packet) :
    contents type (ps.map (recordOf id)) = stream type ps := by
  rw [contents, List.filter_map, flatMap_map]
  rfl

/-- The bytes that were sent are the records `rs` and one that ends the request, all whole
and padded to words, with the bytes that the calls were given for each type. -/
structure Framed (calls : List Call) (sent : Bytes) (rs : List Record) : Prop where
  whole : ∃ e, readRecords sent = some (rs ++ [e]) ∧ e.type = END_REQUEST
  length : ∀ r ∈ rs, r.content.length ≤ 65535 ∧ 8 ∣ r.content.length + r.padding
  contents : ∀ type, contents type rs = arguments type calls

theorem ready_start (id : ℕ) (outBuf : ℕ → UInt8) : Ready id [] [] none (Request.start id outBuf) :=
  ready_of_closed ⟨rfl, rfl, rfl, Nat.dvd_zero 8, [], rfl, rfl⟩
    (fun _ hp => absurd hp not_mem_nil) (Nat.zero_le _)

/-- The run of the calls on a new request. -/
def runNew (link : ℕ → Option ℕ) (body : UInt8 → Bytes → Run Request Bool) (id : ℕ)
    (outBuf : ℕ → UInt8) (calls : List Call) : Option Bool × Request :=
  runCalls link body calls (Request.start id outBuf)

/-- A run on a new request does not fail, and without an error it sends what `Framed` says,
with an empty record if and only if a call sends one. -/
theorem runNew_framed (hb : Spec body E) (id : ℕ) (outBuf : ℕ → UInt8) (calls : List Call) :
    (runNew link body id outBuf calls).1 ≠ none ∧
    ((runNew link body id outBuf calls).1 = some true →
      ∃ rs, Framed calls (runNew link body id outBuf calls).2.sent rs ∧
        ((∃ r ∈ rs, r.content = []) ↔ ¬ Clear link body E calls (Request.start id outBuf))) := by
  obtain ⟨done, req, hrun, hpost⟩ :=
    runCalls_returns link hb calls (ready_start id outBuf)
  unfold runNew
  rw [hrun]
  refine ⟨some_ne_none done, fun hdone => ?_⟩
  obtain ⟨new, reserved, hlen, hsent, hstream, hfits, hempty⟩ := hpost (Option.some.inj hdone)
  have hall : ∀ p ∈ new ++ [endPacket reserved], p.2.length < 2 ^ 16 := by
    intro p hp
    rcases mem_append.mp hp with hp | hp
    · exact hfits p hp
    · rw [mem_singleton.mp hp, endPacket, length_append, hlen]
      decide
  refine ⟨new.map (recordOf id), ⟨⟨recordOf id (endPacket reserved), ?_, rfl⟩, ?_, ?_⟩, ?_⟩
  · rw [hsent, nil_append, nil_append, readRecords_packets hall, map_append]
    rfl
  · intro r hr
    obtain ⟨p, hp, rfl⟩ := mem_map.mp hr
    have hlt := hfits p hp
    exact ⟨by show p.2.length ≤ _; omega, eight_dvd_paddingOf _⟩
  · intro type
    rw [contents_map, hstream]
    rfl
  · rw [← hempty]
    constructor
    · rintro ⟨r, hr, hnil⟩
      obtain ⟨p, hp, rfl⟩ := mem_map.mp hr
      exact ⟨p, hp, hnil⟩
    · rintro ⟨p, hp, hnil⟩
      exact ⟨_, mem_map_of_mem hp, hnil⟩

/-! ## A descriptor that takes everything -/

section Open

variable (hlink : ∀ w, link w = none)

include hlink

theorem safeWrite_true (bytes : Bytes) : (safeWrite link bytes).Always (· = true) := by
  intro req done hdone
  rw [safeWrite, hlink] at hdone
  exact (Option.some.inj hdone).symm

theorem sendBuffer_true (last : Bool) : (sendBuffer link last).Always (· = true) := by
  refine .seq fun len => .seq fun req => ?_
  refine .bind (safeWrite_true hlink _) ?_
  rintro done rfl
  exact .seq fun _ => .pure rfl

theorem fcgiFlush_true (last : Bool) : (fcgiFlush link last).Always (· = true) :=
  .seq fun _ => sendBuffer_true hlink last

theorem sendThrough_true (type : UInt8) (content : Bytes) :
    (sendThrough link type content).Always (· = true) := by
  refine .seq fun req => .seq fun _ => .seq fun _ =>
    .seq fun _ => .bind (fcgiFlush_true hlink false) ?_
  rintro flushed rfl
  refine .bind (safeWrite_true hlink content) ?_
  rintro done rfl
  exact .pure rfl

theorem sendLarge_some (type : UInt8) (str : Bytes) :
    (sendLarge link type str).Always (·.isSome = true) := by
  induction hn : str.length using Nat.strong_induction_on generalizing str with
  | _ n ih =>
    rw [sendLarge]
    by_cases hlt : str.length > 0xffff
    · rw [if_pos hlt]
      refine .bind (sendThrough_true hlink type _) ?_
      rintro done rfl
      refine ih _ ?_ _ rfl
      rw [length_drop]
      omega
    · rw [if_neg hlt]
      exact .pure rfl

theorem sendTail_true (type : UInt8) (str : Bytes) :
    (sendTail link type str).Always (· = true) := by
  refine .bind (sendThrough_true hlink type _) ?_
  rintro done rfl
  rw [if_pos rfl]
  refine .ite ?_ (.pure rfl)
  exact .seq fun _ => .seq fun _ => .pure rfl

theorem writeSplit_true (type : UInt8) (str : Bytes) (limit : ℤ) :
    (writeSplit link type str limit).Always (· = true) := by
  refine .seq fun _ => .seq fun _ =>
    .bind (fcgiFlush_true hlink false) ?_
  rintro flushed rfl
  rw [if_pos rfl]
  refine .ite ?_ (.pure rfl)
  exact .seq fun _ => .seq fun _ => .pure rfl

theorem writeBytes_true (type : UInt8) (str : Bytes) :
    (writeBytes link type str).Always (· = true) := by
  refine .seq fun req => .ite ?_ (.ite ?_ ?_)
  · exact .seq fun _ => .seq fun _ => .pure rfl
  · exact writeSplit_true hlink type str _
  · refine .seq fun _ => .bind (sendLarge_some hlink type str) ?_
    rintro (_ | rest) hrest
    · cases hrest
    · exact sendTail_true hlink type rest

theorem call_true (c : Call) : (c.run link (writeBytes link)).Always (· = true) := by
  cases c with
  | flush => exact fcgiFlush_true hlink false
  | write type str len hvalid =>
    have hret : (fcgiWrite (writeBytes link) type str len).Always (0 ≤ ·) := by
      unfold fcgiWrite
      by_cases hlen : len ≤ 0
      · rw [if_pos hlen]
        exact .pure le_rfl
      · rw [if_neg hlen]
        refine .seq fun _ => .bind (writeBytes_true hlink type _) ?_
        rintro done rfl
        exact .pure (not_le.mp hlen).le
    refine .bind hret fun ret h => .pure (decide_eq_true h)

theorem runCalls_true (calls : List Call) :
    (runCalls link (writeBytes link) calls).Always (· = true) := by
  induction calls with
  | nil =>
    refine .seq fun req => .ite (.pure rfl) ?_
    refine .bind (fcgiFlush_true hlink true) ?_
    rintro ret rfl
    exact .seq fun _ => .pure rfl
  | cons c cs ih =>
    refine .bind (call_true hlink c) ?_
    rintro done rfl
    refine .bind ih ?_
    rintro rest rfl
    exact .pure rfl

end Open

/-! ## What the client reads -/

/-- The run sends what `Framed` says without an empty record, and the plain loop, whenever it
reports no error, sends the same contents. -/
def Delivered (link : ℕ → Option ℕ) (id : ℕ) (outBuf : ℕ → UInt8) (calls : List Call) : Prop :=
  ∃ rs, Framed calls (runNew link (writeBytes link) id outBuf calls).2.sent rs ∧
    (∀ r ∈ rs, r.content ≠ []) ∧
    ∀ link', (runNew link' (plainBytes link') id outBuf calls).1 = some true →
      ∃ rs', Framed calls (runNew link' (plainBytes link') id outBuf calls).2.sent rs' ∧
        ∀ type, contents type rs' = contents type rs

/-- No `fcgi_write` of the run has fewer than 8184 bytes, finds no open packet of its type
and, once the open packet of another type is closed, no room in the buffer after a header. -/
def HasRoom (link : ℕ → Option ℕ) (id : ℕ) (outBuf : ℕ → UInt8) (calls : List Call) : Prop :=
  Clear link (writeBytes link) OpensEmpty calls (Request.start id outBuf)

theorem delivered_iff_hasRoom (link : ℕ → Option ℕ) (id : ℕ) (outBuf : ℕ → UInt8)
    (calls : List Call) (hdone : (runNew link (writeBytes link) id outBuf calls).1 = some true) :
    Delivered link id outBuf calls ↔ HasRoom link id outBuf calls := by
  obtain ⟨rs, hframed, hempty⟩ :=
    (runNew_framed (spec_writeBytes link) id outBuf calls).2 hdone
  constructor
  · rintro ⟨rs', hframed', hfilled, -⟩
    by_contra hroom
    obtain ⟨r, hr, hnil⟩ := hempty.mpr hroom
    obtain ⟨e, hread, -⟩ := hframed.whole
    obtain ⟨e', hread', -⟩ := hframed'.whole
    rw [hread] at hread'
    have hsame : rs = rs' := (append_inj' (Option.some.inj hread') rfl).1
    exact hfilled r (hsame ▸ hr) hnil
  · intro hroom
    refine ⟨rs, hframed, fun r hr hnil => hempty.mp ⟨r, hr, hnil⟩ hroom, ?_⟩
    intro link' hdone'
    obtain ⟨rs', hframed', -⟩ := (runNew_framed (spec_plainBytes link') id outBuf calls).2 hdone'
    refine ⟨rs', hframed', fun type => ?_⟩
    rw [hframed'.contents, hframed.contents]

/-- **The output of a request.**  No run of calls stores anything outside the buffer and the
reserved bytes after it; while the descriptor takes everything no call reports an error; and
a run without errors delivers the streams if and only if every short write has room. -/
theorem output_delivered (link : ℕ → Option ℕ) (id : ℕ) (outBuf : ℕ → UInt8) (calls : List Call) :
    (runNew link (writeBytes link) id outBuf calls).1 ≠ none ∧
    ((∀ w, link w = none) → (runNew link (writeBytes link) id outBuf calls).1 = some true) ∧
    ((runNew link (writeBytes link) id outBuf calls).1 = some true →
      (Delivered link id outBuf calls ↔ HasRoom link id outBuf calls)) := by
  have hnever : (runNew link (writeBytes link) id outBuf calls).1 ≠ none :=
    (runNew_framed (spec_writeBytes link) id outBuf calls).1
  refine ⟨hnever, fun hlink => ?_, delivered_iff_hasRoom link id outBuf calls⟩
  obtain ⟨done, hdone⟩ := ne_none_iff_exists'.mp hnever
  rw [hdone, runCalls_true hlink calls _ done hdone]

/-- 8175 bytes for the standard output and one for the errors. -/
def fullBuffer : List Call :=
  [.write 6 (replicate 8175 0x41) 8175 (by rw [length_replicate]; rfl),
    .write 7 [0x42] 1 le_rfl]

/-- An empty record of the errors is sent before the byte. -/
theorem not_delivered_fullBuffer : ¬ Delivered (fun _ => none) 1 (fun _ => 0) fullBuffer := by
  have hdone : (runNew (fun _ => none) (writeBytes fun _ => none) 1 (fun _ => 0) fullBuffer).1
      = some true := by
    have hnever : (runNew (fun _ => none) (writeBytes fun _ => none) 1 (fun _ => 0)
        fullBuffer).1 ≠ none := (runNew_framed (spec_writeBytes _) 1 _ fullBuffer).1
    obtain ⟨done, hdone⟩ := ne_none_iff_exists'.mp hnever
    rw [hdone, runCalls_true (fun _ => rfl) fullBuffer _ done hdone]
  rw [delivered_iff_hasRoom _ _ _ _ hdone]
  rintro ⟨-, hroom, -⟩
  exact hroom ⟨by decide, by decide +kernel, by decide +kernel, by decide⟩

end PhpFcgi
