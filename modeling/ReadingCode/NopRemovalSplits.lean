/-
# Runs that split

When a handler finds a jump behind it that was kept apart from it, the run without NOPs takes
the jump by what the handler has found.  For some machine the original does not.
-/
import ReadingCode.NopRemovalRuns

open Stuttering

namespace NopRemoval

open List Function

variable {abs : Bool} {a b : OpArray} {k n p q x : ℕ} {o j : Op} {c c' : Config} {m : Machine}
  {r r' : Outcome} {e : Event} {redundant : ℕ → Bool}

/-! ## Records -/

theorem record_grows (c : Config) (e : Event) : c.events <+: (c.record e).events :=
  prefix_append c.events [e]

theorem dispatch_grows (opNum : ℕ) (l : List TryCatch) (c : Config) :
    c.events <+: (dispatch m a opNum l c).events := by
  induction l generalizing c with
  | nil => exact record_grows c _
  | cons t l ih =>
    rw [dispatch]
    split_ifs
    · exact record_grows c _
    · exact (record_grows c _).trans (record_grows _ _)
    · exact (record_grows c _).trans (ih _)
    · exact ih c

theorem goOn_grows (k : ℕ) (c : Config) (r : Outcome) :
    c.events <+: (goOn m abs a k c r).events := by
  cases r with
  | throw => exact (record_grows c _).trans (dispatch_grows _ _ _)
  | _ => exact prefix_rfl

theorem perform_grows (k : ℕ) (c : Config) : c.events <+: (perform m abs a k c).events := by
  refine List.IsPrefix.trans ?_ (goOn_grows k _ _)
  exact record_grows c _

theorem performFastRet_grows (k : ℕ) (c : Config) :
    c.events <+: (performFastRet m a k c).events := by
  rw [performFastRet]
  split
  · exact record_grows c _
  · exact (record_grows c _).trans (dispatch_grows _ _ _)

/-- A run goes on recording. -/
theorem step_grows : Grows (step m abs a redundant) Config.events := by
  intro c
  rw [step]
  split
  · exact prefix_rfl
  · rename_i k _
    by_cases hk : k < a.last
    · rw [if_pos hk]
      split
      · exact prefix_rfl
      · cases hred : redundant k with
        | true => exact prefix_rfl
        | false => exact record_grows _ _
      · exact record_grows c _
      · exact performFastRet_grows k c
      · exact perform_grows k c
    · rw [if_neg hk]

/-! ## Another machine -/

/-- The machine `m` but for what the instruction `j` comes to right behind `o`, when that comes
to `r` after the events `h`. -/
def Machine.override (m : Machine) (h : List Event) (o j : Op) (r r' : Outcome)
    (hasks : ¬ AsksFor o j) : Machine where
  exec h' i data := if h' = h ++ [.performed o none r] ∧ i = j then r' else m.exec h' i data
  exception := m.exception
  exec_of_asksFor := by
    intro h' o' j' s s' hfused hasks'
    rw [if_neg]
    · exact m.exec_of_asksFor h' o' j' s s' hfused hasks'
    · rintro ⟨heq, rfl⟩
      obtain ⟨-, hlast⟩ := append_inj' heq rfl
      cases hlast
      exact hasks hasks'

section

variable {h : List Event} {hasks : ¬ AsksFor o j}

/-- Up to there the machines are alike. -/
theorem outcome_override (hlen : c.events.length ≤ h.length) (k : ℕ) :
    outcome (m.override h o j r r' hasks) a k c = outcome m a k c := by
  rw [outcome, outcome, Machine.override]
  dsimp only
  rw [if_neg]
  rintro ⟨heq, -⟩
  rw [heq, length_append] at hlen
  exact absurd hlen (by rw [length_singleton]; omega)

theorem dispatch_override (opNum : ℕ) (l : List TryCatch) (c : Config) :
    dispatch (m.override h o j r r' hasks) a opNum l c = dispatch m a opNum l c := by
  induction l generalizing c with
  | nil => rfl
  | cons t l ih =>
    rw [dispatch, ih, ih]
    rfl

theorem step_override (hlen : c.events.length ≤ h.length) :
    step (m.override h o j r r' hasks) abs a redundant c = step m abs a redundant c := by
  rw [step, step]
  split
  · rfl
  · rename_i k _
    congr 1
    split
    · rfl
    · rfl
    · rfl
    · rw [performFastRet]
      congr 1
      funext
      exact dispatch_override _ _ _
    · rw [perform, perform, outcome_override hlen]
      cases outcome m a k c with
      | throw =>
        exact dispatch_override _ _ _
      | _ => rfl

theorem run_override (hlen : ((step m abs a redundant)^[n] c).events.length ≤ h.length) :
    (step (m.override h o j r r' hasks) abs a redundant)^[n] c
      = (step m abs a redundant)^[n] c := by
  induction n with
  | zero => rfl
  | succ n ih =>
    rw [iterate_succ_apply'] at hlen
    have hle := ((step_grows _).length_le).trans hlen
    rw [iterate_succ_apply', iterate_succ_apply', ih hle, step_override hle]

end

/-! ## Behind a handler that splits -/

/-- A jump that the handler of `o` finds is taken or not. -/
theorem fused_jump {t : Bool} (hsmart : zendIsSmartBranch o.opcode = true)
    (hop : j.opcode = .jmpz ∨ j.opcode = .jmpnz) :
    ∃ r', fused o j (.truth t) = some r' ∧ (r' = .next ∨ r' = .jump 0) := by
  rw [fused, if_pos hsmart]
  rcases hop with hop | hop <;> rw [hop] <;> cases t
  · exact ⟨_, rfl, .inr rfl⟩
  · exact ⟨_, rfl, .inl rfl⟩
  · exact ⟨_, rfl, .inl rfl⟩
  · exact ⟨_, rfl, .inr rfl⟩

theorem goOn_events (hr : r = .next ∨ r = .jump 0) (k : ℕ) (c : Config) :
    (goOn m abs a k c r).events = c.events := by
  rcases hr with rfl | rfl
  · rfl
  · rfl

section

variable (h : Executable abs a) {t : Bool}
include h

/-- A jump has no data behind it. -/
theorem opData_of_jump (hop : (a.opcodes q).opcode = .jmpz ∨ (a.opcodes q).opcode = .jmpnz) :
    a.opData q = none := by
  apply opData_eq_none h
  intro n hn
  rw [hn] at hop
  exact hop.elim nofun nofun

theorem opData_of_smart (hsmart : zendIsSmartBranch (a.opcodes k).opcode = true) :
    a.opData k = none := by
  apply opData_eq_none h
  intro n hn
  rw [hn] at hsmart
  cases hsmart

/-- The original asks the machine for the outcome of the jump. -/
theorem original_splits (hpc : c.pc = some k) (hk : k < a.last) (hout : outcome m a k c = .truth t)
    (hsmart : zendIsSmartBranch (a.opcodes k).opcode = true) (hq : q < a.last)
    (hkq : k + 1 < q) (hfirst : FirstKept abs a.opcodes (k + 1) q)
    (hop : (a.opcodes q).opcode = .jmpz ∨ (a.opcodes q).opcode = .jmpnz)
    (hexec : m.exec (c.events ++ [.performed (a.opcodes k).content none (.truth t)])
      (a.opcodes q).content none = r) (hr : r = .next ∨ r = .jump 0) :
    Records (original m abs a) Config.events c
      (c.events ++ [.performed (a.opcodes k).content none (.truth t),
        .performed (a.opcodes q).content none r]) := by
  have hdata := opData_of_smart h hsmart
  have hstep : original m abs a c = perform m abs a k c := by
    apply step_eq_perform hpc hk
    refine ⟨?_, ?_, ?_, ?_⟩ <;> intro heq <;> rw [heq] at hsmart <;> cases hsmart
  have hnone := bind_fused_of_not_kept (hfirst.2.2 (k + 1) le_rfl hkq) (a.opcodes k).content
    (.truth t)
  rw [perform, hout, hdata, goOn, hnone] at hstep
  obtain ⟨n, hn⟩ := exists_run_to (m := m) (c := original m abs a c) hq hfirst (by rw [hstep])
  rw [hstep] at hn
  -- the jump is performed by itself
  have hjump : ((original m abs a)^[n + 2] c).events
      = c.events ++ [.performed (a.opcodes k).content none (.truth t),
        .performed (a.opcodes q).content none r] := by
    rw [iterate_succ_apply', iterate_succ_apply, hstep, hn, original,
      step_eq_perform rfl hq, perform, outcome, opData_of_jump h hop]
    · dsimp only [Option.getD_none, Config.record]
      rw [hexec, goOn_events hr, append_assoc]
      rfl
    · refine ⟨?_, ?_, ?_, ?_⟩ <;> intro heq <;> rw [heq] at hop <;> exact absurd hop (by decide)
  exact ⟨n + 2, by rw [hjump]⟩

/-- Without the NOPs the jump goes by what the handler has found. -/
theorem removed_splits (hr : Renumbered abs (newNum abs a.opcodes) a b) (hpc : c.pc = some k)
    (hk : k < a.last) (hout : outcome m a k c = .truth t)
    (hsmart : zendIsSmartBranch (a.opcodes k).opcode = true) (hq : q < a.last)
    (hfirst : FirstKept abs a.opcodes (k + 1) q)
    (hop : (a.opcodes q).opcode = .jmpz ∨ (a.opcodes q).opcode = .jmpnz)
    (hfused : fused (a.opcodes k).content (a.opcodes q).content (.truth t) = some r)
    (hr' : r = .next ∨ r = .jump 0) (hcc : Related m abs a c c') :
    Records (step m abs b fun _ => false) Config.events c'
      (c.events ++ [.performed (a.opcodes k).content none (.truth t),
        .performed (a.opcodes q).content none r]) := by
  have hkept : Kept abs a.opcodes k := by
    apply kept_of_opcode <;> intro heq <;> rw [heq] at hsmart <;> cases hsmart
  have hopcode : ∀ i < a.last, Kept abs a.opcodes i →
      (b.opcodes (newNum abs a.opcodes i)).opcode = (a.opcodes i).opcode := by
    intro i hi hikept
    rw [← opcode_content, hr.content i hi hikept, opcode_content]
  have hlt : ∀ i < a.last, Kept abs a.opcodes i → newNum abs a.opcodes i < b.last := by
    intro i hi hikept
    rw [hr.last]
    exact (newNum_lt_iff hikept).mpr hi
  have hpc' : c'.pc = some (newNum abs a.opcodes k) := by
    rw [hcc.samePlace.pc, hpc]
    rfl
  have hpending : ((b.opline (newNum abs a.opcodes k + 1)).bind fun j =>
      fused (a.opcodes k).content j (.truth t)) = some r := by
    rw [← newNum_succ_of_kept hkept, ← hfirst.newNum_eq, opline_newNum hr hq hfirst.2.1,
      OpArray.opline, if_pos hq, Option.bind_some, hfused]
  have hstep : step m abs b (fun _ => false) c' = perform m abs b (newNum abs a.opcodes k) c' := by
    apply step_eq_perform hpc' (hlt k hk hkept)
    rw [hopcode k hk hkept]
    refine ⟨?_, ?_, ?_, ?_⟩ <;> intro heq <;> rw [heq] at hsmart <;> cases hsmart
  rw [perform, outcome_eq h hr hk hkept hpc hcc, hout, opData_newNum hr h hkept,
    opData_of_smart h hsmart, goOn, hr.content k hk hkept, hpending,
    ← newNum_succ_of_kept hkept, ← hfirst.newNum_eq] at hstep
  have hjump : ((step m abs b fun _ => false)^[2] c').events
      = c.events ++ [.performed (a.opcodes k).content none (.truth t),
        .performed (a.opcodes q).content none r] := by
    rw [iterate_succ_apply, iterate_one, hstep,
      step_eq_perform rfl (hlt q hq hfirst.2.1), perform, outcome,
      opData_newNum hr h hfirst.2.1, opData_of_jump h hop, hr.content q hq hfirst.2.1]
    · dsimp only [Option.getD_some, Config.record]
      rw [goOn_events hr', hcc.samePlace.events, append_assoc]
      rfl
    · rw [hopcode q hq hfirst.2.1]
      refine ⟨?_, ?_, ?_, ?_⟩ <;> intro heq <;> rw [heq] at hop <;> exact absurd hop (by decide)
  exact ⟨2, by rw [hjump]⟩

/-- **A run that splits** is one that some machine performs otherwise without the NOPs. -/
theorem exists_machine_of_splits (hr : Renumbered abs (newNum abs a.opcodes) a b)
    (hun : ¬ Unsplit m abs a (Config.start x)) :
    ∃ m' l, Performs m' abs a (jumpsOverNops abs a.opcodes) x l ∧
      ¬ Performs m' abs b (fun _ => false) (newNum abs a.opcodes x) l := by
  -- the first step that splits
  have hex : ∃ n, ∃ k t, ((original m abs a)^[n] (Config.start x)).pc = some k ∧
      outcome m a k ((original m abs a)^[n] (Config.start x)) = .truth t ∧ Splits abs a k := by
    by_contra hno
    apply hun
    intro n k t hpc hout hsplit
    exact hno ⟨n, k, t, hpc, hout, hsplit⟩
  classical
  obtain ⟨k, t, hpc, hout, hsmart, q, hq, hkq, hfirst, hop, hasks⟩ := Nat.find_spec hex
  have hmin := fun i hi => Nat.find_min (m := i) hex hi
  generalize Nat.find hex = n at hpc hout hmin
  obtain ⟨r, hfused, hr'⟩ := fused_jump (o := (a.opcodes k).content)
    (j := (a.opcodes q).content) (t := t) (by rwa [opcode_content])
    (by rwa [opcode_content])
  -- the machine that comes to the opposite
  obtain ⟨r1, hr1, hne⟩ : ∃ r1 : Outcome, (r1 = .next ∨ r1 = .jump 0) ∧ r1 ≠ r := by
    rcases hr' with rfl | rfl
    · exact ⟨.jump 0, .inr rfl, nofun⟩
    · exact ⟨.next, .inl rfl, nofun⟩
  generalize hcn : (original m abs a)^[n] (Config.start x) = cn at hpc hout
  have hlen : ∀ i ≤ n, ((original m abs a)^[i] (Config.start x)).events.length
      ≤ cn.events.length := fun i hi => hcn ▸ step_grows.length_le (Config.start x) hi
  let m' := m.override cn.events (a.opcodes k).content (a.opcodes q).content (.truth t) r1 hasks
  have hrun : ∀ i ≤ n, (original m' abs a)^[i] (Config.start x)
      = (original m abs a)^[i] (Config.start x) := fun i hi => run_override (hlen i hi)
  have hout' : outcome m' a k cn = .truth t := (outcome_override le_rfl k).trans hout
  obtain ⟨i, hrelated⟩ := exists_related (m := m') (n := n) h hr (related_start x) fun i hi k t
      hpc hout hsplit => by
    rw [hrun i (le_of_lt hi)] at hpc hout
    rw [outcome_override (hlen i (le_of_lt hi))] at hout
    exact hmin i hi ⟨k, t, hpc, hout, hsplit⟩
  have hstart := (hrun n le_rfl).trans hcn
  rw [hstart] at hrelated
  have hexec : m'.exec (cn.events ++ [.performed (a.opcodes k).content none (.truth t)])
      (a.opcodes q).content none = r1 := if_pos ⟨rfl, rfl⟩
  have hsplits := original_splits h hpc (by omega) hout' hsmart hq hkq hfirst hop hexec hr1
  have hremoved := removed_splits h hr hpc (by omega) hout' hsmart hq hfirst hop hfused hr'
    hrelated
  refine ⟨m', _, Records.of_iterate (n := n) (by rw [hstart]; exact hsplits),
    fun hsame => hne ?_⟩
  have heq := hsame.unique step_grows hremoved.of_iterate (by
    rw [length_append, length_append]
    rfl)
  have hlast := append_cancel_left heq
  injection hlast with _ hlast
  injection hlast with hlast
  injection hlast

end

end NopRemoval

/-!
# What NOP removal preserves

The instructions and all that designates them are what they were.  The runs are, unless a
handler comes to a jump that only a NOP has kept it from: `zend_emit_cond_jump` puts a NOP
between a comparison and a jump by something else, as the handler of the comparison takes a jump
right behind it for its own.
-/

namespace NopRemoval

variable {abs : Bool} {a : OpArray}

/-- Where a run starts: at the first instruction, or at a CATCH or a FINALLY. -/
def OpArray.entries (a : OpArray) : List ℕ :=
  0 :: a.tryCatchArray.flatMap fun t => [t.catchOp, t.finallyOp]

/-- The array `b` is the program `a` without NOPs and redundant jumps: its instructions are the
kept ones in their order, what held the number of an instruction designates the first kept one
from there on, which for a redundant jump is the one its target designates, and runs perform the
same. -/
structure Preserved (abs : Bool) (a b : OpArray) : Prop where
  opcodes : ((List.range b.last).map fun i => (b.opcodes i).content)
    = ((List.range a.last).filter (Kept abs a.opcodes)).map fun i => (a.opcodes i).content
  renumbered : Renumbered abs (newNum abs a.opcodes) a b
  designates : ∀ t < a.last, ∃ k < a.last, FirstKept abs a.opcodes t k ∧
    (b.opcodes (newNum abs a.opcodes t)).content = (a.opcodes k).content
  redundant : ∀ i, jumpsOverNops abs a.opcodes i = true →
    newNum abs a.opcodes (opJmpAddr abs i (a.opcodes i).op1) = newNum abs a.opcodes i
  performs : ∀ m, ∀ e ∈ a.entries, ∀ l,
    Performs m abs a (jumpsOverNops abs a.opcodes) e l ↔
      Performs m abs b (fun _ => false) (newNum abs a.opcodes e) l

/-- What is designated after the removal. -/
theorem designates_of_renumbered {b : OpArray} (h : WellFormed abs a)
    (hr : Renumbered abs (newNum abs a.opcodes) a b) {t : ℕ} (ht : t < a.last) :
    ∃ k < a.last, FirstKept abs a.opcodes t k ∧
      (b.opcodes (newNum abs a.opcodes t)).content = (a.opcodes k).content := by
  obtain ⟨k, hk, hfirst⟩ := h.exists_firstKept ht
  refine ⟨k, hk, hfirst, ?_⟩
  rw [← hfirst.newNum_eq]
  exact hr.content k hk hfirst.2.1

/-- **NOP removal preserves a program** if and only if no run of it comes to a handler that finds
a jump behind it which is not its own.  A run that does not, performs the same. -/
theorem nopRemoval_preserves_iff (h : Executable abs a) : (Preserved abs a (nopRemoval abs a) ↔
        ∀ m, ∀ e ∈ a.entries, Unsplit m abs a (Config.start e)) ∧
      ∀ m k, Unsplit m abs a (Config.start k) → ∀ l,
        Performs m abs a (jumpsOverNops abs a.opcodes) k l ↔
          Performs m abs (nopRemoval abs a) (fun _ => false) (newNum abs a.opcodes k) l := by
  have hr := nopRemoval_renumbered h.toWellFormed
  refine ⟨⟨fun hp m e he => ?_, fun hun => ?_⟩, fun m k hun => performs_iff h hr hun⟩
  · by_contra hsplit
    obtain ⟨m', l, hl, hno⟩ := exists_machine_of_splits h hr hsplit
    exact hno ((hp.performs m' e he l).mp hl)
  · refine ⟨?_, hr, fun t ht => designates_of_renumbered h.toWellFormed hr ht,
      fun i hi => newNum_target hi, fun m e he => performs_iff h hr (hun m e he)⟩
    rw [hr.last]
    exact opcodes_eq_filter hr le_rfl

/-! ## A comparison and its own jump -/

/-- `if ($a == $b) { echo 1; }` with a redundant jump and NOPs in it. -/
def comparisonEcho : OpArray where
  opcodes
    | 0 => ⟨.nop, .unused, .unused, .unused, 0, 0, 0, 0, 1⟩
    | 1 => ⟨.isEqual, .cv, .cv, .tmpVar, 80, 96, 112, 0, 1⟩
    | 2 => ⟨.nop, .unused, .unused, .unused, 0, 0, 0, 0, 1⟩
    | 3 => ⟨.jmpz, .tmpVar, .unused, .unused, 112, 96, 0, 0, 1⟩
    | 4 => ⟨.other 40, .const, .unused, .unused, 0, 0, 0, 0, 1⟩
    | 5 => ⟨.jmp, .unused, .unused, .unused, 64, 0, 0, 0, 1⟩
    | 6 => ⟨.nop, .unused, .unused, .unused, 0, 0, 0, 0, 1⟩
    | _ => ⟨.other 62, .const, .unused, .unused, 1, 0, 0, 0, 1⟩
  last := 8
  liveRange := []
  tryCatchArray := []
  earlyBinding := NO_OPLINE

theorem comparisonEcho_executable : Executable false comparisonEcho where
  last_pos := by decide
  last_lt := by decide
  last_op := by decide
  targets := by decide
  liveRange := nofun
  tryCatch := nofun
  finally_eq_zero := nofun
  bindings := ⟨[], rfl, List.nodup_nil, nofun⟩
  catchOp := nofun
  finallyEnd := nofun
  nested := nofun
  stop := nofun
  opData := by
    intro k hk hop
    exact absurd hop (by revert k; decide)

/-- The jump behind the comparison tests its result. -/
theorem comparisonEcho_not_splits (k : ℕ) : ¬ Splits false comparisonEcho k := by
  rintro ⟨hsmart, q, hq, hkq, -, hop, hno⟩
  have hcomparison : ∀ k < 8, zendIsSmartBranch (comparisonEcho.opcodes k).opcode → k = 1 := by
    decide
  have hjump : ∀ q < 8, (comparisonEcho.opcodes q).opcode = .jmpz ∨
      (comparisonEcho.opcodes q).opcode = .jmpnz → q = 3 := by
    decide
  have hq8 : q < 8 := hq
  obtain rfl := hcomparison k (by omega) hsmart
  obtain rfl := hjump q hq8 hop
  exact hno (by decide)

theorem comparisonEcho_preserved :
    Preserved false comparisonEcho (nopRemoval false comparisonEcho) :=
  (nopRemoval_preserves_iff comparisonEcho_executable).1.mpr
    fun _ _ _ _ k _ _ _ => comparisonEcho_not_splits k

/-! ## A comparison and a jump by something else -/

/-- A machine whose handlers come to what `f` says, except where the instruction is there for
what the one before has found. -/
def Machine.ofFun (f : Op → Outcome) : Machine where
  exec h j _ :=
    match h.getLast? with
    | some (.performed o none r) => if AsksFor o j then (fused o j r).getD (f j) else f j
    | _ => f j
  exception _ := false
  exec_of_asksFor := by
    intro h o j r r' hfused hasks
    rw [List.getLast?_append, List.getLast?_singleton, Option.some_or]
    dsimp only
    rw [if_pos hasks, hfused]
    rfl

/-- `($a == $b) + ($c ? 1 : 2)` with the NOP of `zend_emit_cond_jump`. -/
def comparisonSum : OpArray where
  opcodes
    | 0 => ⟨.isEqual, .cv, .cv, .tmpVar, 80, 96, 128, 0, 1⟩
    | 1 => ⟨.nop, .unused, .unused, .unused, 0, 0, 0, 0, 1⟩
    | 2 => ⟨.jmpz, .cv, .unused, .unused, 112, 96, 0, 0, 1⟩
    | 3 => ⟨.other 22, .const, .unused, .tmpVar, 0, 0, 144, 0, 1⟩
    | 4 => ⟨.jmp, .unused, .unused, .unused, 64, 0, 0, 0, 1⟩
    | 5 => ⟨.other 22, .const, .unused, .tmpVar, 1, 0, 144, 0, 1⟩
    | 6 => ⟨.other 1, .tmpVar, .tmpVar, .tmpVar, 128, 144, 160, 0, 1⟩
    | _ => ⟨.other 62, .tmpVar, .unused, .unused, 160, 0, 0, 0, 1⟩
  last := 8
  liveRange := []
  tryCatchArray := []
  earlyBinding := NO_OPLINE

theorem comparisonSum_executable : Executable false comparisonSum where
  last_pos := by decide
  last_lt := by decide
  last_op := by decide
  targets := by decide
  liveRange := nofun
  tryCatch := nofun
  finally_eq_zero := nofun
  bindings := ⟨[], rfl, List.nodup_nil, nofun⟩
  catchOp := nofun
  finallyEnd := nofun
  nested := nofun
  stop := nofun
  opData := by
    intro k hk hop
    exact absurd hop (by revert k; decide)

/-- The machine when `$a == $b` holds and `$c` does not. -/
def equalMachine : Machine :=
  Machine.ofFun fun o => if o.opcode = .isEqual then .truth true else .jump 0

/-- The jump goes by `$c`, and without the NOP by the comparison. -/
theorem nopRemoval_joins_comparison : Executable false comparisonSum ∧
      ¬ Preserved false comparisonSum (nopRemoval false comparisonSum) := by
  refine ⟨comparisonSum_executable, fun hp => ?_⟩
  have hfirst : Performs equalMachine false comparisonSum
      (jumpsOverNops false comparisonSum.opcodes) 0
      [.performed (comparisonSum.opcodes 0) none (.truth true),
        .performed (comparisonSum.opcodes 2).content none (.jump 0)] := ⟨3, by decide⟩
  have hsecond : Performs equalMachine false (nopRemoval false comparisonSum) (fun _ => false) 0
      [.performed (comparisonSum.opcodes 0) none (.truth true),
        .performed (comparisonSum.opcodes 2).content none .next] := ⟨2, by decide⟩
  have heq := Records.unique step_grows
    ((hp.performs equalMachine 0 List.mem_cons_self _).mp hfirst) hsecond rfl
  exact absurd heq (by decide)

end NopRemoval
