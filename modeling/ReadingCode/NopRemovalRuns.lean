/-
# What a run sees after NOP removal

The kept instructions, the data behind them, and the tables that exceptions use, in the array
that NOP removal leaves: they are those of the original with new numbers.
-/
import Mathlib
import ReadingCode.NopRemoval

namespace NopRemoval

open List

variable {abs : Bool} {a b : OpArray} {k n p q x : ℕ} {o : Op}

/-! ## Arrays for execution -/

/-- What the executor relies on: the tables hold the numbers of the instructions that they are
for, a live range is inside a FINALLY or around all of it, and ends at the instruction that uses
the variable up, and data are behind the instruction that they belong to. -/
structure Executable (abs : Bool) (a : OpArray) : Prop extends WellFormed abs a where
  catchOp : ∀ t ∈ a.tryCatchArray, t.catchOp ≠ 0 → (a.opcodes t.catchOp).opcode = .catchOp
  finallyEnd : ∀ t ∈ a.tryCatchArray, t.finallyOp ≠ 0 →
    t.finallyOp ≤ t.finallyEnd ∧ (a.opcodes t.finallyEnd).opcode = .fastRet
  nested : ∀ t ∈ a.tryCatchArray, ∀ r ∈ a.liveRange, r.start < t.finallyOp →
    t.finallyOp < r.stop → t.finallyEnd < r.stop
  stop : ∀ r ∈ a.liveRange,
    (a.opcodes r.stop).opcode ≠ .nop ∧ (a.opcodes r.stop).opcode ≠ .jmp
  opData : ∀ k < a.last, (a.opcodes k).opcode = .opData →
    ∃ i n, k = i + 1 ∧ (a.opcodes i).opcode = .other n

theorem opcode_of_not_kept (h : ¬ Kept abs a.opcodes k) :
    (a.opcodes k).opcode = .nop ∨ (a.opcodes k).opcode = .jmp := by
  by_contra hop
  rw [not_or] at hop
  exact h (kept_of_opcode hop.1 hop.2)

/-- Behind every instruction there is a first kept one. -/
theorem WellFormed.exists_firstKept (h : WellFormed abs a) (hk : k < a.last) :
    ∃ q < a.last, FirstKept abs a.opcodes k q := by
  obtain ⟨q, hq, hfirst⟩ := NopRemoval.exists_firstKept (t := k) h.last_kept (by omega)
  exact ⟨q, by omega, hfirst⟩

theorem FirstKept.eq_of_kept (h : FirstKept abs a.opcodes k q) (hk : Kept abs a.opcodes k) :
    q = k := by
  by_contra hne
  have hle := h.1
  exact h.2.2 k le_rfl (by omega) hk

/-- From an instruction that is not kept on. -/
theorem FirstKept.of_le (h : FirstKept abs a.opcodes k q) (hkn : k ≤ n) (hnq : n ≤ q) :
    FirstKept abs a.opcodes n q :=
  ⟨hnq, h.2.1, fun j hj hjq => h.2.2 j (le_trans hkn hj) hjq⟩

theorem FirstKept.unique (h : FirstKept abs a.opcodes k p) (h' : FirstKept abs a.opcodes k q) :
    p = q := by
  rcases Nat.lt_trichotomy p q with hlt | heq | hgt
  · exact absurd h.2.1 (h'.2.2 p h.1 hlt)
  · exact heq
  · exact absurd h'.2.1 (h.2.2 q h'.1 hgt)

/-! ## Instructions -/

/-- An instruction that is no data. -/
theorem filter_opline (hop : (a.opcodes q).opcode ≠ .opData) :
    ((a.opline q).filter fun o => o.opcode = .opData) = none := by
  rw [OpArray.opline]
  split_ifs
  · rw [Option.filter_some, if_neg]
    rw [opcode_content, decide_eq_true_iff]
    exact hop
  · rfl

section

variable (hr : Renumbered abs (newNum abs a.opcodes) a b)
include hr

theorem opline_newNum (hq : q < a.last) (hkept : Kept abs a.opcodes q) :
    b.opline (newNum abs a.opcodes q) = a.opline q := by
  rw [OpArray.opline, OpArray.opline, if_pos hq, hr.last, if_pos ((newNum_lt_iff hkept).mpr hq),
    hr.content q hq hkept]

theorem opline_newNum_of_le (hk : a.last ≤ k) : b.opline (newNum abs a.opcodes k) = none := by
  rw [OpArray.opline, hr.last, if_neg (not_lt.mpr (newNum_mono abs a.opcodes hk))]

/-- The data are still behind the instruction that they belong to. -/
theorem opData_newNum (h : Executable abs a) (hkept : Kept abs a.opcodes k) :
    b.opData (newNum abs a.opcodes k) = a.opData k := by
  rw [OpArray.opData, OpArray.opData, ← newNum_succ_of_kept hkept]
  rcases lt_or_ge (k + 1) a.last with hlt | hge
  · obtain ⟨q, hq, hfirst⟩ := h.exists_firstKept hlt
    rw [← hfirst.newNum_eq, opline_newNum hr hq hfirst.2.1]
    rcases lt_or_eq_of_le hfirst.1 with hkq | rfl
    · -- neither the first kept instruction nor what is between can be data
      have hnone := opcode_of_not_kept (hfirst.2.2 (k + 1) le_rfl hkq)
      have hdata : (a.opcodes q).opcode ≠ .opData := by
        intro hop
        obtain ⟨i, n, rfl, hi⟩ := h.opData q hq hop
        refine hfirst.2.2 i (by omega) (by omega) (kept_of_opcode ?_ ?_)
        · rw [hi]
          exact nofun
        · rw [hi]
          exact nofun
      have hother : (a.opcodes (k + 1)).opcode ≠ .opData := by
        rcases hnone with hop | hop
        · rw [hop]
          exact nofun
        · rw [hop]
          exact nofun
      rw [filter_opline hdata, filter_opline hother]
    · rfl
  · rw [opline_newNum_of_le hr hge, OpArray.opline, if_neg (not_lt.mpr hge)]

/-- **The instructions** are the kept ones in the same order. -/
theorem opcodes_eq_filter (hn : n ≤ a.last) :
    ((List.range (newNum abs a.opcodes n)).map fun i => (b.opcodes i).content)
      = ((List.range n).filter (Kept abs a.opcodes)).map fun i => (a.opcodes i).content := by
  induction n with
  | zero => rfl
  | succ n ih =>
    rw [range_succ, filter_append, map_append, ← ih (by omega)]
    by_cases hkept : Kept abs a.opcodes n
    · rw [newNum_succ_of_kept hkept, range_succ, map_append, filter_singleton, decide_eq_true hkept]
      exact congrArg (_ ++ [·]) (hr.content n (by omega) hkept)
    · rw [newNum_succ_of_not hkept, filter_singleton, decide_eq_false hkept]
      exact (append_nil _).symm

theorem before_newNum (hn : n ≤ a.last) : b.before (newNum abs a.opcodes n) = a.before n := by
  rw [OpArray.before, opcodes_eq_filter hr hn, OpArray.before, filter_map, filter_map,
    filter_filter]
  apply congrArg
  apply filter_congr
  intro i _
  by_cases hkept : Kept abs a.opcodes i
  · rw [decide_eq_true hkept, Bool.and_true]
  · rw [Function.comp_apply, opcode_content]
    rcases opcode_of_not_kept hkept with hop | hop
    · rw [hop]
      rfl
    · rw [hop]
      rfl

end

/-! ## The tables -/

section

variable (hr : Renumbered abs (newNum abs a.opcodes) a b)
include hr

/-- The variables that are freed, for an instruction that an exception can go to. -/
theorem liveVars_newNum (hk : Kept abs a.opcodes k)
    (hx : ∀ r ∈ a.liveRange, r.start ≤ k → k < r.stop →
      ((newNum abs a.opcodes x = 0 ∨ newNum abs a.opcodes r.stop ≤ newNum abs a.opcodes x) ↔
        (x = 0 ∨ r.stop ≤ x))) :
    b.liveVars (newNum abs a.opcodes k) (newNum abs a.opcodes x) = a.liveVars k x := by
  have hstart : ∀ r : LiveRange, (LiveRange.map (newNum abs a.opcodes) r).start
      ≤ newNum abs a.opcodes k ↔ r.start ≤ k := by
    intro r
    rw [← not_lt, ← not_lt]
    exact not_congr (newNum_lt_iff hk)
  have htake : ((fun r : LiveRange => decide (r.start ≤ newNum abs a.opcodes k))
      ∘ LiveRange.map (newNum abs a.opcodes)) = fun r => decide (r.start ≤ k) := by
    funext r
    exact decide_eq_decide.mpr (hstart r)
  rw [OpArray.liveVars, hr.liveRange, takeWhile_map, htake, filter_map, map_map]
  refine congrArg (List.map LiveRange.var) (filter_congr fun r hmem => ?_)
  have hr' := (takeWhile_subset _) hmem
  have hbefore : decide (r.start ≤ k) = true :=
    mem_takeWhile_imp (p := fun r : LiveRange => decide (r.start ≤ k)) hmem
  have hle := of_decide_eq_true hbefore
  rw [Function.comp_apply, decide_eq_decide]
  constructor
  · rintro ⟨hlt, hend⟩
    have hlt' := (newNum_lt_iff hk).mp hlt
    exact ⟨hlt', (hx r hr' hle hlt').mp hend⟩
  · rintro ⟨hlt, hend⟩
    exact ⟨(newNum_lt_iff hk).mpr hlt, (hx r hr' hle hlt).mpr hend⟩

theorem throwOpNum_newNum (h : Executable abs a) (hk : k < a.last) (hkept : Kept abs a.opcodes k) :
    b.throwOpNum (newNum abs a.opcodes k) = newNum abs a.opcodes (a.throwOpNum k) ∧
      a.throwOpNum k < a.last ∧ Kept abs a.opcodes (a.throwOpNum k) := by
  rw [OpArray.throwOpNum, OpArray.throwOpNum, hr.content k hk hkept, hr.liveRange]
  split_ifs with hfree
  · rw [getElem?_map]
    cases hget : a.liveRange[(a.opcodes k).content.op2.toNat]? with
    | none => exact ⟨rfl, hk, hkept⟩
    | some r =>
      have hmem := mem_of_getElem? hget
      obtain ⟨hnop, hjmp⟩ := h.stop r hmem
      exact ⟨rfl, (h.liveRange r hmem).2, kept_of_opcode hnop hjmp⟩
  · exact ⟨rfl, hk, hkept⟩

omit hr in
theorem innermost_map (hk : Kept abs a.opcodes k) (l : List TryCatch) (n p : ℕ) :
    innermost (newNum abs a.opcodes k) (l.map (TryCatch.map (newNum abs a.opcodes))) n p
      = innermost k l n p := by
  induction l generalizing n p with
  | nil => rfl
  | cons t l ih =>
    rw [map_cons, innermost, innermost, TryCatch.map]
    dsimp only
    simp only [gt_iff_lt, newNum_lt_iff hk]
    rw [ih]

omit hr in
theorem tryCatches_subset (n : ℕ) : a.tryCatches n ⊆ a.tryCatchArray := by
  intro t ht
  exact mem_of_mem_take (mem_reverse.mp ht)

theorem tryCatches_newNum (n : ℕ) :
    b.tryCatches n = (a.tryCatches n).map (TryCatch.map (newNum abs a.opcodes)) := by
  rw [OpArray.tryCatches, OpArray.tryCatches, hr.tryCatch, ← map_take, map_reverse]

end

/-!
# Runs after NOP removal

A run without NOPs waits where the original passes a NOP or a redundant jump.  A handler that looks
at the next instruction may do the work of it, which is the same where the instruction is there for
what the handler has found.
-/

open Stuttering

open Option Function

variable {abs : Bool} {a b : OpArray} {k n p q x : ℕ} {o j : Op} {c c' : Config} {m : Machine}
  {r r' : Outcome} {e : Event}

/-! ## Runs at the same place -/

/-- Two runs are at the same place, one of the array `a` and one of what is left of it. -/
structure SamePlace (abs : Bool) (a : OpArray) (c c' : Config) : Prop where
  pc : c'.pc = c.pc.map (newNum abs a.opcodes)
  events : c'.events = c.events
  fastCall : c'.fastCall = fun v => (c.fastCall v).map (newNum abs a.opcodes)
  returns : ∀ v n, c.fastCall v = some n → n < a.last ∧ Kept abs a.opcodes n

theorem SamePlace.record (h : SamePlace abs a c c') (e : Event) :
    SamePlace abs a (c.record e) (c'.record e) where
  pc := h.pc
  events := congrArg (· ++ [e]) h.events
  fastCall := h.fastCall
  returns := h.returns

theorem SamePlace.goTo (h : SamePlace abs a c c') (pc : Option ℕ) :
    SamePlace abs a { c with pc := pc }
      { c' with pc := pc.map (newNum abs a.opcodes) } where
  pc := rfl
  events := h.events
  fastCall := h.fastCall
  returns := h.returns

/-- Another return address in a FAST_CALL variable. -/
theorem SamePlace.setFastCall (h : SamePlace abs a c c') (v : ℤ) (ret : Option ℕ)
    (hret : ∀ n, ret = some n → n < a.last ∧ Kept abs a.opcodes n) :
    SamePlace abs a { c with fastCall := update c.fastCall v ret }
      { c' with
        fastCall := update c'.fastCall v (ret.map (newNum abs a.opcodes)) } where
  pc := h.pc
  events := h.events
  fastCall := by
    funext w
    dsimp only
    by_cases hw : w = v
    · rw [hw, update_self, update_self]
    · rw [update_of_ne hw, update_of_ne hw, h.fastCall]
  returns := by
    intro w n hn
    dsimp only at hn
    by_cases hw : w = v
    · rw [hw, update_self] at hn
      exact hret n hn
    · rw [update_of_ne hw] at hn
      exact h.returns w n hn

/-! ## Exceptions -/

theorem dispatch_pending (opNum : ℕ) (l : List TryCatch) (c : Config) :
    (dispatch m a opNum l c).pending = c.pending := by
  induction l generalizing c with
  | nil => rfl
  | cons t l ih =>
    rw [dispatch]
    split_ifs
    · rfl
    · rfl
    · rw [ih]
      rfl
    · exact ih c

section

variable (h : Executable abs a) (hr : Renumbered abs (newNum abs a.opcodes) a b)
include h hr

/-- An exception comes to the same place. -/
theorem dispatch_samePlace (hk : Kept abs a.opcodes k) {l : List TryCatch}
    (hl : l ⊆ a.tryCatchArray) (hcc : SamePlace abs a c c') : SamePlace abs a (dispatch m a k l c)
      (dispatch m b (newNum abs a.opcodes k) (l.map (TryCatch.map (newNum abs a.opcodes))) c') := by
  induction l generalizing c c' with
  | nil =>
    have hlive : b.liveVars (newNum abs a.opcodes k) 0 = a.liveVars k 0 := by
      have hvars := liveVars_newNum (x := 0) hr hk fun r _ _ _ => by
        exact ⟨fun _ => .inl rfl, fun _ => .inl rfl⟩
      rwa [newNum_zero] at hvars
    rw [List.map_nil, dispatch, dispatch, hlive]
    exact (hcc.record _).goTo none
  | cons t l ih =>
    have ht := hl List.mem_cons_self
    have hl' : l ⊆ a.tryCatchArray := fun x hx => hl (List.mem_cons_of_mem t hx)
    obtain ⟨-, -, -, hend⟩ := h.tryCatch t ht
    -- where the FAST_RET of the block is
    have hret : k < t.finallyOp ∨ k < t.finallyEnd → Kept abs a.opcodes t.finallyEnd ∧
        t.finallyOp ≤ t.finallyEnd := by
      intro hlt
      have hne : t.finallyOp ≠ 0 := by
        intro hzero
        have hendzero := h.finally_eq_zero t ht hzero
        omega
      obtain ⟨hle, hop⟩ := h.finallyEnd t ht hne
      exact ⟨kept_of_opcode (by rw [hop]; decide) (by rw [hop]; decide), hle⟩
    rw [List.map_cons, dispatch, dispatch, TryCatch.map]
    simp only [newNum_lt_iff hk, hcc.events]
    by_cases hcatch : k < t.catchOp ∧ m.exception c.events = true
    · rw [if_pos hcatch, if_pos hcatch]
      have hop := h.catchOp t ht (by omega)
      have hkept : Kept abs a.opcodes t.catchOp :=
        kept_of_opcode (by rw [hop]; decide) (by rw [hop]; decide)
      rw [liveVars_newNum hr hk fun r _ _ _ => by
        have hpos : 0 < newNum abs a.opcodes t.catchOp :=
          Nat.zero_lt_of_lt ((newNum_lt_iff hk).mpr hcatch.1)
        have hlt := newNum_lt_iff hkept (j := r.stop)
        omega]
      exact (hcc.record _).goTo (some t.catchOp)
    rw [if_neg hcatch, if_neg hcatch]
    by_cases hfinally : k < t.finallyOp
    · rw [if_pos hfinally, if_pos hfinally]
      obtain ⟨hkept, hle⟩ := hret (.inl hfinally)
      rw [hr.content _ hend hkept, liveVars_newNum hr hk fun r hmem hstart _ => by
        have hpos : 0 < newNum abs a.opcodes t.finallyOp :=
          Nat.zero_lt_of_lt ((newNum_lt_iff hk).mpr hfinally)
        -- a live range that goes on in the FINALLY goes on behind it
        have hnested := h.nested t ht r hmem (by omega)
        have hlt := newNum_lt_iff hkept (j := r.stop)
        have hmono := newNum_mono abs a.opcodes hle
        have hmono' : r.stop ≤ t.finallyOp →
            newNum abs a.opcodes r.stop ≤ newNum abs a.opcodes t.finallyOp :=
          newNum_mono abs a.opcodes
        omega]
      refine SamePlace.goTo (SamePlace.setFastCall ((hcc.record _).record _) _ none ?_) _
      intro n hn
      cases hn
    rw [if_neg hfinally, if_neg hfinally]
    by_cases hin : k < t.finallyEnd
    · rw [if_pos hin, if_pos hin, hr.content _ hend (hret (.inr hin)).1]
      exact ih hl' (hcc.record _)
    · rw [if_neg hin, if_neg hin]
      exact ih hl' hcc

theorem handleException_samePlace (hk : k < a.last) (hkept : Kept abs a.opcodes k)
    (hcc : SamePlace abs a c c') : SamePlace abs a (handleException m a k c)
      (handleException m b (newNum abs a.opcodes k) c') := by
  obtain ⟨hthrow, hlt, hkept'⟩ := throwOpNum_newNum hr h hk hkept
  have hbefore := before_newNum hr (n := a.throwOpNum k + 1) hlt
  rw [newNum_succ_of_kept hkept'] at hbefore
  rw [handleException, handleException, hthrow, hbefore, tryCatches_newNum hr, hr.tryCatch,
    innermost_map hkept']
  exact dispatch_samePlace h hr hkept' (tryCatches_subset _) (hcc.record _)

end

/-! ## Handlers that look at the next instruction -/

/-- A handler does the work of the next instruction in two cases. -/
theorem fused_cases (h : fused o j r = some r') :
    zendIsSmartBranch o.opcode = true ∧ (j.opcode = .jmpz ∨ j.opcode = .jmpnz) ∨
      o.opcode = .new ∧ j.opcode = .doFcall := by
  cases r with
  | truth t =>
    rw [fused] at h
    by_cases hsmart : zendIsSmartBranch o.opcode = true
    · rw [if_pos hsmart] at h
      left
      refine ⟨hsmart, ?_⟩
      split at h
      · exact .inl ‹_›
      · exact .inr ‹_›
      · cases h
    · right
      split_ifs at h with hnew
      exact ⟨hnew.1, hnew.2.2.1⟩
  | next => cases h
  | jump i => cases h
  | throw => cases h
  | leave => cases h

/-- Nobody does the work of an instruction that is not kept. -/
theorem bind_fused_of_not_kept (hnot : ¬ Kept abs a.opcodes k) (o : Op) (r : Outcome) :
    ((a.opline k).bind fun j => fused o j r) = none := by
  rw [OpArray.opline]
  split_ifs
  · rw [← not_isSome_iff_eq_none, isSome_iff_exists]
    rintro ⟨r', hfused⟩
    have hpassed := opcode_of_not_kept hnot
    rw [← opcode_content] at hpassed
    rcases fused_cases hfused with ⟨-, hop | hop⟩ | ⟨-, hop⟩ <;> rw [hop] at hpassed <;>
      exact hpassed.elim nofun nofun
  · rfl

/-- The handler of the instruction `k` looks for a jump that tests what it finds, and only NOPs
and redundant jumps keep it from one that tests something else. -/
def Splits (abs : Bool) (a : OpArray) (k : ℕ) : Prop :=
  zendIsSmartBranch (a.opcodes k).opcode = true ∧
    ∃ q < a.last, k + 1 < q ∧ FirstKept abs a.opcodes (k + 1) q ∧
      ((a.opcodes q).opcode = .jmpz ∨ (a.opcodes q).opcode = .jmpnz) ∧
      ¬ AsksFor (a.opcodes k).content (a.opcodes q).content

/-- The outcome of the next kept instruction is known, from a handler that the original has not
yet come to the end of the work of. -/
def Foreseen (m : Machine) (abs : Bool) (a : OpArray) (c : Config) (r : Option Outcome) : Prop :=
  c.pending = none ∧ ∃ k q j, c.pc = some k ∧ FirstKept abs a.opcodes k q ∧
    a.opline q = some j ∧ (j.opcode = .jmpz ∨ j.opcode = .jmpnz ∨ j.opcode = .doFcall) ∧
    r = some (m.exec c.events j none)

/-- The runs are at the same place, and of the next instruction the same is known or more. -/
structure Related (m : Machine) (abs : Bool) (a : OpArray) (c c' : Config) : Prop where
  samePlace : SamePlace abs a c c'
  pending : c'.pending = c.pending ∨ Foreseen m abs a c c'.pending

section

variable (h : Executable abs a) (hr : Renumbered abs (newNum abs a.opcodes) a b)

include h in
theorem opData_eq_none (hop : ∀ n, (a.opcodes k).opcode ≠ .other n) : a.opData k = none := by
  rw [OpArray.opData]
  rcases lt_or_ge (k + 1) a.last with hlt | hge
  · apply filter_opline
    intro hdata
    obtain ⟨i, n, hi, hother⟩ := h.opData _ hlt hdata
    obtain rfl : k = i := by omega
    exact hop n hother
  · rw [OpArray.opline, if_neg (not_lt.mpr hge)]
    rfl

theorem kept_of_opData (hdata : a.opData k ≠ none) : Kept abs a.opcodes (k + 1) := by
  have hop : (a.opcodes (k + 1)).opcode = .opData := by
    by_contra hne
    exact hdata (filter_opline hne)
  exact kept_of_opcode (by rw [hop]; exact nofun) (by rw [hop]; exact nofun)

include h hr

variable {h0 : List Event}

/-- What is known of the next instruction, behind one that may do the work of it. -/
theorem pending_related {t : Bool}
    (hkept : Kept abs a.opcodes k) (hsplit : ¬ Splits abs a k) (hpc : c.pc = some (k + 1))
    (hevents : c.events = h0 ++ [.performed (a.opcodes k).content (a.opData k) (.truth t)])
    (hpending : c.pending
      = (a.opline (k + 1)).bind fun j => fused (a.opcodes k).content j (.truth t)) :
    ((b.opline (newNum abs a.opcodes k + 1)).bind fun j =>
        fused (a.opcodes k).content j (.truth t)) = c.pending ∨
      Foreseen m abs a c ((b.opline (newNum abs a.opcodes k + 1)).bind fun j =>
        fused (a.opcodes k).content j (.truth t)) := by
  rw [← newNum_succ_of_kept hkept]
  rcases lt_or_ge (k + 1) a.last with hlt | hge
  · obtain ⟨q, hq, hfirst⟩ := h.exists_firstKept hlt
    rw [← hfirst.newNum_eq, opline_newNum hr hq hfirst.2.1]
    rcases lt_or_eq_of_le hfirst.1 with hkq | rfl
    · have hnone : c.pending = none := by
        rw [hpending]
        exact bind_fused_of_not_kept (hfirst.2.2 (k + 1) le_rfl hkq) _ _
      rw [OpArray.opline, if_pos hq, bind_some, hnone]
      cases hfused : fused (a.opcodes k).content (a.opcodes q).content (.truth t) with
      | none => exact .inl rfl
      | some r' =>
        right
        have hcases := fused_cases hfused
        have hdata : a.opData k = none := by
          apply opData_eq_none h
          intro n hn
          rw [opcode_content, hn] at hcases
          rcases hcases with ⟨hsmart, -⟩ | ⟨hnew, -⟩
          · cases hsmart
          · cases hnew
        have hasks : AsksFor (a.opcodes k).content (a.opcodes q).content := by
          rcases hcases with ⟨hsmart, hop⟩ | ⟨hnew, -⟩
          · by_contra hno
            rw [opcode_content] at hsmart hop
            exact hsplit ⟨hsmart, q, hq, hkq, hfirst, hop, hno⟩
          · exact .inl hnew
        refine ⟨hnone, k + 1, q, (a.opcodes q).content, hpc, hfirst, ?_, ?_, ?_⟩
        · rw [OpArray.opline, if_pos hq]
        · rcases hcases with ⟨-, hop | hop⟩ | ⟨-, hop⟩
          · exact .inl hop
          · exact .inr (.inl hop)
          · exact .inr (.inr hop)
        · rw [hevents, hdata, m.exec_of_asksFor h0 _ _ _ r' hfused hasks]
    · rw [hpending]
      exact .inl rfl
  · left
    rw [opline_newNum_of_le hr hge, hpending, OpArray.opline, if_neg (not_lt.mpr hge)]

/-- The run goes on from an instruction at the same place. -/
theorem goOn_related (hk : k < a.last) (hkept : Kept abs a.opcodes k)
    (hsplit : ∀ t, r = .truth t → ¬ Splits abs a k) (hcc : SamePlace abs a c c')
    (hevents : c.events = h0 ++ [.performed (a.opcodes k).content (a.opData k) r])
    (hnone : c.pending = none) (hnone' : c'.pending = none) :
    Related m abs a (goOn m abs a k c r) (goOn m abs b (newNum abs a.opcodes k) c' r) := by
  have hsucc := newNum_succ_of_kept hkept
  cases r with
  | next =>
    rw [goOn, goOn, opData_newNum hr h hkept]
    by_cases hdata : a.opData k = none
    · rw [if_pos hdata, if_pos hdata, ← hsucc]
      exact ⟨hcc.goTo (some (k + 1)), .inl (hnone'.trans hnone.symm)⟩
    · have hnext : Kept abs a.opcodes (k + 1) := kept_of_opData hdata
      have hsucc' := newNum_succ_of_kept hnext
      rw [hsucc] at hsucc'
      rw [if_neg hdata, if_neg hdata, ← hsucc']
      exact ⟨hcc.goTo (some (k + 2)), .inl (hnone'.trans hnone.symm)⟩
  | truth t =>
    have hsplit := hsplit t rfl
    rw [goOn, goOn, hr.content k hk hkept]
    refine ⟨?_, pending_related h hr hkept hsplit rfl hevents rfl⟩
    rw [← hsucc]
    exact ⟨rfl, hcc.events, hcc.fastCall, hcc.returns⟩
  | jump i =>
    rw [goOn, goOn, hr.targets k hk hkept, List.getElem?_map]
    exact ⟨hcc.goTo _, .inl (hnone'.trans hnone.symm)⟩
  | throw =>
    rw [goOn, goOn]
    refine ⟨handleException_samePlace h hr hk hkept hcc, .inl ?_⟩
    rw [handleException, handleException, dispatch_pending, dispatch_pending]
    exact hnone'.trans hnone.symm
  | leave => exact ⟨hcc.goTo none, .inl (hnone'.trans hnone.symm)⟩

/-- Both runs find the same in the next instruction. -/
theorem outcome_eq (hk : k < a.last) (hkept : Kept abs a.opcodes k) (hpc : c.pc = some k)
    (hcc : Related m abs a c c') : outcome m b (newNum abs a.opcodes k) c' = outcome m a k c := by
  rw [outcome, outcome, hr.content k hk hkept, opData_newNum hr h hkept, hcc.samePlace.events]
  rcases hcc.pending with hsame | ⟨hnone, k', q, j, hpc', hfirst, hj, hop, hr'⟩
  · rw [hsame]
  · obtain rfl : k' = k := Option.some.inj (hpc'.symm.trans hpc)
    obtain rfl := hfirst.eq_of_kept hkept
    rw [OpArray.opline, if_pos hk] at hj
    obtain rfl := Option.some.inj hj
    rw [opcode_content] at hop
    have hdata : a.opData q = none := by
      apply opData_eq_none h
      intro n hn
      rw [hn] at hop
      exact hop.elim nofun fun hop => hop.elim nofun nofun
    rw [hr', hnone, hdata]
    rfl

theorem perform_related (hk : k < a.last) (hkept : Kept abs a.opcodes k) (hpc : c.pc = some k)
    (hsplit : ∀ t, outcome m a k c = .truth t → ¬ Splits abs a k) (hcc : Related m abs a c c') :
    Related m abs a (perform m abs a k c) (perform m abs b (newNum abs a.opcodes k) c') := by
  rw [perform, perform, outcome_eq h hr hk hkept hpc hcc, hr.content k hk hkept,
    opData_newNum hr h hkept]
  apply goOn_related h hr hk hkept hsplit _ rfl rfl rfl
  have hrecord := hcc.samePlace.record
    (.performed (a.opcodes k).content (a.opData k) (outcome m a k c))
  exact ⟨hrecord.pc, hrecord.events, hrecord.fastCall, hrecord.returns⟩

omit h hr in
/-- An instruction that no handler does the work of before. -/
theorem Related.pending_eq (hcc : Related m abs a c c') (hpc : c.pc = some k) (hk : k < a.last)
    (hkept : Kept abs a.opcodes k) (hop : (a.opcodes k).opcode ≠ .jmpz ∧
      (a.opcodes k).opcode ≠ .jmpnz ∧ (a.opcodes k).opcode ≠ .doFcall) :
    c'.pending = c.pending := by
  rcases hcc.pending with hsame | ⟨-, k', q, j, hpc', hfirst, hj, hop', -⟩
  · exact hsame
  · obtain rfl : k' = k := Option.some.inj (hpc'.symm.trans hpc)
    obtain rfl := hfirst.eq_of_kept hkept
    rw [OpArray.opline, if_pos hk] at hj
    obtain rfl := Option.some.inj hj
    rw [opcode_content] at hop'
    rcases hop' with hop' | hop' | hop'
    · exact absurd hop' hop.1
    · exact absurd hop' hop.2.1
    · exact absurd hop' hop.2.2

omit h in
theorem performFastCall_related (hk : k < a.last) (hkept : Kept abs a.opcodes k)
    (hcc : SamePlace abs a c c') (hpending : c'.pending = c.pending) :
    Related m abs a (performFastCall abs a k c)
      (performFastCall abs b (newNum abs a.opcodes k) c') := by
  rw [performFastCall, performFastCall, hr.content k hk hkept, hr.targets k hk hkept,
    List.getElem?_map]
  refine ⟨?_, .inl hpending⟩
  have hret : ∀ n, some k = some n → n < a.last ∧ Kept abs a.opcodes n := by
    rintro n hn
    obtain rfl := Option.some.inj hn
    exact ⟨hk, hkept⟩
  exact ((hcc.record _).setFastCall _ (some k) hret).goTo _

theorem performFastRet_related (hk : k < a.last) (hkept : Kept abs a.opcodes k)
    (hcc : SamePlace abs a c c') (hpending : c'.pending = c.pending) :
    Related m abs a (performFastRet m a k c) (performFastRet m b (newNum abs a.opcodes k) c') := by
  rw [performFastRet, performFastRet, hr.content k hk hkept, hcc.fastCall]
  dsimp only
  cases hret : c.fastCall (a.opcodes k).content.op1 with
  | none =>
    refine ⟨?_, .inl ?_⟩
    · rw [tryCatches_newNum hr]
      exact dispatch_samePlace h hr hkept (tryCatches_subset _) (hcc.record _)
    · dsimp only [map_none]
      rw [dispatch_pending, dispatch_pending]
      exact hpending
  | some n =>
    obtain ⟨-, hn⟩ := hcc.returns _ n hret
    refine ⟨?_, .inl hpending⟩
    dsimp only [map_some]
    rw [← newNum_succ_of_kept hn]
    exact (hcc.record _).goTo (some (n + 1))

end

/-! ## Steps -/

/-- The step of the original, where the jumps that are removed do not show. -/
abbrev original (m : Machine) (abs : Bool) (a : OpArray) : Config → Config :=
  step m abs a (jumpsOverNops abs a.opcodes)

/-- No step of the run is one of a handler that finds a truth and splits. -/
def Unsplit (m : Machine) (abs : Bool) (a : OpArray) (c : Config) : Prop :=
  ∀ n k t, ((original m abs a)^[n] c).pc = some k →
    outcome m a k ((original m abs a)^[n] c) = .truth t → ¬ Splits abs a k

theorem Unsplit.run (h : Unsplit m abs a c) (n : ℕ) :
    Unsplit m abs a ((original m abs a)^[n] c) := by
  intro i k t hpc hout
  rw [← iterate_add_apply] at hpc hout
  exact h (i + n) k t hpc hout

section

variable (h : Executable abs a) (hr : Renumbered abs (newNum abs a.opcodes) a b)

/-- A run passes an instruction that is not kept. -/
theorem original_of_not_kept (hpc : c.pc = some k) (hk : k < a.last)
    (hnot : ¬ Kept abs a.opcodes k) (hfirst : FirstKept abs a.opcodes k q) :
    ∃ k', original m abs a c = { c with pc := some k' } ∧ k < k' ∧
      FirstKept abs a.opcodes k' q := by
  have hkq : k < q := by
    rcases lt_or_eq_of_le hfirst.1 with hlt | rfl
    · exact hlt
    · exact absurd hfirst.2.1 hnot
  rw [original, step, hpc]
  dsimp only
  rw [if_pos hk]
  by_cases hnop : (a.opcodes k).opcode = .nop
  · rw [hnop]
    exact ⟨k + 1, rfl, Nat.lt_succ_self k, hfirst.of_le (Nat.le_succ k) hkq⟩
  · -- a jump over NOPs only
    have hjumps : jumpsOverNops abs a.opcodes k = true := by
      by_contra hno
      exact hnot ⟨hnop, Bool.not_eq_true _ ▸ hno⟩
    obtain ⟨hjmp, hlt, hnops⟩ := jumpsOverNops_iff.mp hjumps
    have hle : opJmpAddr abs k (a.opcodes k).op1 ≤ q := by
      by_contra hgt
      exact hfirst.2.1.1 (hnops q hkq (not_le.mp hgt))
    rw [if_pos hjumps, Op.targets, hjmp]
    exact ⟨_, rfl, hlt, hfirst.of_le (le_of_lt hlt) hle⟩

/-- The run without NOPs waits. -/
theorem Related.wait {k' : ℕ} (hcc : Related m abs a c c') (hpc : c.pc = some k)
    (hq : FirstKept abs a.opcodes k q) (hq' : FirstKept abs a.opcodes k' q) :
    Related m abs a { c with pc := some k' } c' := by
  have hcc' := hcc.samePlace
  refine ⟨⟨?_, hcc'.events, hcc'.fastCall, hcc'.returns⟩, ?_⟩
  · rw [hcc'.pc, hpc, map_some, map_some, ← hq.newNum_eq, hq'.newNum_eq]
  · rcases hcc.pending with hsame | ⟨hnone, i, p, j, hpc', hp, hj, hop, hr'⟩
    · exact .inl hsame
    · obtain rfl : i = k := Option.some.inj (hpc'.symm.trans hpc)
      obtain rfl := hp.unique hq
      exact .inr ⟨hnone, k', p, j, rfl, hq', hj, hop, hr'⟩

variable {redundant : ℕ → Bool}

/-- The step of an instruction that has a handler of the machine. -/
theorem step_eq_perform (hpc : c.pc = some k) (hk : k < a.last)
    (hop : (a.opcodes k).opcode ≠ .nop ∧ (a.opcodes k).opcode ≠ .jmp ∧
      (a.opcodes k).opcode ≠ .fastCall ∧ (a.opcodes k).opcode ≠ .fastRet) :
    step m abs a redundant c = perform m abs a k c := by
  obtain ⟨hnop, hjmp, hcall, hret⟩ := hop
  rw [step, hpc]
  dsimp only
  rw [if_pos hk]
  split
  · exact absurd ‹_› hnop
  · exact absurd ‹_› hjmp
  · exact absurd ‹_› hcall
  · exact absurd ‹_› hret
  · rfl

include h hr in
/-- Both runs perform an instruction that is kept. -/
theorem Related.next (hcc : Related m abs a c c') (hpc : c.pc = some k) (hk : k < a.last)
    (hkept : Kept abs a.opcodes k) (hsplit : ∀ t, outcome m a k c = .truth t → ¬ Splits abs a k) :
    Related m abs a (original m abs a c) (step m abs b (fun _ => false) c') := by
  have hop : (b.opcodes (newNum abs a.opcodes k)).opcode = (a.opcodes k).opcode := by
    rw [← opcode_content, hr.content k hk hkept, opcode_content]
  have hpc' : c'.pc = some (newNum abs a.opcodes k) := by
    rw [hcc.samePlace.pc, hpc]
    rfl
  have hk' : newNum abs a.opcodes k < b.last := by
    rw [hr.last]
    exact (newNum_lt_iff hkept).mpr hk
  by_cases hjmp : (a.opcodes k).opcode = .jmp
  · have hpending := hcc.pending_eq hpc hk hkept (by rw [hjmp]; exact ⟨nofun, nofun, nofun⟩)
    rw [original, step, step, hpc, hpc']
    dsimp only
    rw [if_pos hk, if_pos hk', hop, hjmp]
    dsimp only
    rw [if_neg (by rw [hkept.2]; exact nofun), if_neg nofun, hr.content k hk hkept,
      hr.targets k hk hkept, List.getElem?_map]
    exact ⟨(hcc.samePlace.goTo _).record _, .inl hpending⟩
  by_cases hcall : (a.opcodes k).opcode = .fastCall
  · have hpending := hcc.pending_eq hpc hk hkept (by rw [hcall]; exact ⟨nofun, nofun, nofun⟩)
    rw [original, step, step, hpc, hpc']
    dsimp only
    rw [if_pos hk, if_pos hk', hop, hcall]
    exact performFastCall_related hr hk hkept hcc.samePlace hpending
  by_cases hret : (a.opcodes k).opcode = .fastRet
  · have hpending := hcc.pending_eq hpc hk hkept (by rw [hret]; exact ⟨nofun, nofun, nofun⟩)
    rw [original, step, step, hpc, hpc']
    dsimp only
    rw [if_pos hk, if_pos hk', hop, hret]
    exact performFastRet_related h hr hk hkept hcc.samePlace hpending
  rw [original, step_eq_perform hpc hk ⟨hkept.1, hjmp, hcall, hret⟩,
    step_eq_perform hpc' hk' (by rw [hop]; exact ⟨hkept.1, hjmp, hcall, hret⟩)]
  exact perform_related h hr hk hkept hpc hsplit hcc

/-- Nothing goes on behind the last instruction. -/
theorem step_of_le (hpc : ∀ k, c.pc = some k → a.last ≤ k) : step m abs a redundant c = c := by
  rw [step]
  split
  · rfl
  · exact if_neg (not_lt.mpr (hpc _ ‹_›))

include hr in
theorem Related.stop (hcc : Related m abs a c c') (hpc : ∀ k, c.pc = some k → a.last ≤ k) :
    original m abs a c = c ∧ step m abs b (fun _ => false) c' = c' := by
  refine ⟨step_of_le hpc, step_of_le ?_⟩
  intro i hi
  rw [hcc.samePlace.pc] at hi
  obtain ⟨k, hk, rfl⟩ := map_eq_some_iff.mp hi
  rw [hr.last]
  exact newNum_mono abs a.opcodes (hpc k hk)

include h hr in
/-- A step of the original is a step of the run without NOPs or none. -/
theorem Related.follow (hcc : Related m abs a c c')
    (hsplit : ∀ k t, c.pc = some k → outcome m a k c = .truth t → ¬ Splits abs a k) :
    Related m abs a (original m abs a c) c' ∨
      Related m abs a (original m abs a c) (step m abs b (fun _ => false) c') := by
  by_cases hend : ∀ k, c.pc = some k → a.last ≤ k
  · left
    rw [(hcc.stop hr hend).1]
    exact hcc
  · push Not at hend
    obtain ⟨k, hpc, hk⟩ := hend
    by_cases hkept : Kept abs a.opcodes k
    · exact .inr (hcc.next h hr hpc hk hkept fun t => hsplit k t hpc)
    · obtain ⟨q, -, hfirst⟩ := h.exists_firstKept hk
      obtain ⟨k', hstep, -, hfirst'⟩ := original_of_not_kept (m := m) hpc hk hkept hfirst
      left
      rw [hstep]
      exact hcc.wait hpc hfirst hfirst'

include h hr in
/-- As long as the original does not split the run without NOPs goes along. -/
theorem exists_related (hcc : Related m abs a c c')
    (hsplit : ∀ i < n, ∀ k t, ((original m abs a)^[i] c).pc = some k →
      outcome m a k ((original m abs a)^[i] c) = .truth t → ¬ Splits abs a k) :
    ∃ i, Related m abs a ((original m abs a)^[n] c) ((step m abs b fun _ => false)^[i] c') := by
  induction n with
  | zero => exact ⟨0, hcc⟩
  | succ n ih =>
    obtain ⟨i, hi⟩ := ih fun i hin => hsplit i (Nat.lt_succ_of_lt hin)
    rw [iterate_succ_apply']
    rcases hi.follow h hr (hsplit n (Nat.lt_succ_self n)) with hwait | hstep
    · exact ⟨i, hwait⟩
    · refine ⟨i + 1, ?_⟩
      rw [iterate_succ_apply']
      exact hstep

/-- The original comes to the next kept instruction. -/
theorem exists_run_to (hq : q < a.last) (hfirst : FirstKept abs a.opcodes k q)
    (hpc : c.pc = some k) : ∃ n, (original m abs a)^[n] c = { c with pc := some q } := by
  obtain ⟨d, hd⟩ : ∃ d, q - k = d := ⟨_, rfl⟩
  induction d using Nat.strong_induction_on generalizing k c with
  | _ d ih =>
    by_cases hkept : Kept abs a.opcodes k
    · rw [hfirst.eq_of_kept hkept, ← hpc]
      exact ⟨0, rfl⟩
    · have hle := hfirst.1
      obtain ⟨k', hstep, hlt, hfirst'⟩ :=
        original_of_not_kept (m := m) hpc (lt_of_le_of_lt hle hq) hkept hfirst
      have hle' := hfirst'.1
      obtain ⟨n, hn⟩ := ih (q - k') (by omega) hfirst' (c := { c with pc := some k' }) rfl rfl
      refine ⟨n + 1, ?_⟩
      rw [iterate_succ_apply, hstep, hn]

/-- Related runs, of which the first never splits. -/
def Joined (m : Machine) (abs : Bool) (a : OpArray) (c c' : Config) : Prop :=
  Related m abs a c c' ∧ Unsplit m abs a c

include h hr in
theorem joined_follows :
    Follows (original m abs a) (step m abs b fun _ => false) (Joined m abs a) := by
  rintro c c' ⟨hcc, hun⟩
  rcases hcc.follow h hr (hun 0) with hwait | hstep
  · exact .inl ⟨hwait, hun.run 1⟩
  · exact .inr ⟨hstep, hun.run 1⟩

include h hr in
theorem joined_leads : Leads (original m abs a) (step m abs b fun _ => false) (Joined m abs a) := by
  rintro c c' ⟨hcc, hun⟩
  by_cases hend : ∀ k, c.pc = some k → a.last ≤ k
  · refine ⟨0, ?_⟩
    rw [(hcc.stop hr hend).2]
    exact ⟨hcc, hun⟩
  · push Not at hend
    obtain ⟨k, hpc, hk⟩ := hend
    obtain ⟨q, hq, hfirst⟩ := h.exists_firstKept hk
    obtain ⟨n, hn⟩ := exists_run_to (m := m) hq hfirst hpc
    have hwait : Related m abs a ((original m abs a)^[n] c) c' := by
      rw [hn]
      exact hcc.wait hpc hfirst (hfirst.of_le hfirst.1 le_rfl)
    have hpc' : ((original m abs a)^[n] c).pc = some q := by rw [hn]
    refine ⟨n + 1, ?_⟩
    rw [iterate_succ_apply']
    refine ⟨hwait.next h hr hpc' hq hfirst.2.1 fun t => hun n q t hpc', ?_⟩
    have hun' := hun.run (n + 1)
    rwa [iterate_succ_apply'] at hun'

theorem related_start (k : ℕ) :
    Related m abs a (Config.start k) (Config.start (newNum abs a.opcodes k)) :=
  ⟨⟨rfl, rfl, rfl, nofun⟩, .inl rfl⟩

include h hr in
/-- **A run that never splits** performs the same without the NOPs. -/
theorem performs_iff (hun : Unsplit m abs a (Config.start k)) (l : List Event) :
    Performs m abs a (jumpsOverNops abs a.opcodes) k l ↔
      Performs m abs b (fun _ => false) (newNum abs a.opcodes k) l :=
  records_iff (joined_follows h hr) (joined_leads h hr)
    (fun _ _ hcc => hcc.1.samePlace.events.symm) ⟨related_start k, hun⟩ l

end

end NopRemoval
