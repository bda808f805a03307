/-
# Removing NOPs

`zend_optimizer_nop_removal` of `ext/opcache/Optimizer/nop_removal.c`: the instructions move
down over the NOPs, and everything that holds the number of an instruction is set to its new
one.  A jump over NOPs only becomes a NOP first.

The field of an instruction that holds a jump is an address of an instruction or an offset from
the instruction itself, as `ZEND_USE_ABS_JMP_ADDR` says; other jumps are offsets always.  Here an
address is the number of the instruction that is there.
-/
import Mathlib.Data.Int.Basic
import ReadingCode.Stuttering
import Mathlib.Data.Nat.Count
import ReadingCode.IndexChains

namespace NopRemoval

/-! ## Instructions -/

/-- The opcodes that hold an instruction number or that control comes to in a way of its own. -/
inductive Opcode where
  | nop
  | jmp
  | jmpz
  | jmpnz
  | jmpznz
  | jmpzEx
  | jmpnzEx
  | feResetR
  | feResetRw
  | feFetchR
  | feFetchRw
  | jmpSet
  | coalesce
  | assertCheck
  | catchOp
  | fastCall
  | fastRet
  | declareAnonClass
  | declareAnonInheritedClass
  | declareInheritedClassDelayed
  | isIdentical
  | isNotIdentical
  | isEqual
  | isNotEqual
  | isSmaller
  | isSmallerOrEqual
  | case
  | issetIsemptyVar
  | issetIsemptyDimObj
  | issetIsemptyPropObj
  | issetIsemptyStaticProp
  | instanceof
  | typeCheck
  | defined
  | new
  | doFcall
  | opData
  | free
  | feFree
  | other (n : ℕ)
  deriving DecidableEq

/-- The type of an operand. -/
inductive OpType where
  | unused
  | const
  | tmpVar
  | var
  | cv
  deriving DecidableEq

/-- `zend_op`; an operand is a number, whatever it stands for. -/
structure Op where
  opcode : Opcode
  op1Type : OpType
  op2Type : OpType
  resultType : OpType
  op1 : ℤ
  op2 : ℤ
  result : ℕ
  extendedValue : ℤ
  lineno : ℕ
  deriving DecidableEq

/-- `sizeof(zend_op)` -/
abbrev SIZEOF_OP : ℤ := 32

/-- `ZEND_OPLINE_NUM_TO_OFFSET` -/
def oplineNumToOffset (opline num : ℕ) : ℤ := ((num : ℤ) - opline) * SIZEOF_OP

/-- `ZEND_OFFSET_TO_OPLINE_NUM` -/
def offsetToOplineNum (base : ℕ) (offset : ℤ) : ℕ := (base + offset / SIZEOF_OP).toNat

section

variable (abs : Bool)

/-- `OP_JMP_ADDR` -/
def opJmpAddr (opline : ℕ) (node : ℤ) : ℕ :=
  if abs then node.toNat else offsetToOplineNum opline node

/-- `ZEND_SET_OP_JMP_ADDR` -/
def setOpJmpAddr (opline val : ℕ) : ℤ := if abs then val else oplineNumToOffset opline val

/-- The targets of the instruction `opline`, which it can jump to. -/
def Op.targets (opline : ℕ) (o : Op) : List ℕ :=
  match o.opcode with
  | .jmp | .fastCall => [opJmpAddr abs opline o.op1]
  | .jmpznz => [opJmpAddr abs opline o.op2, offsetToOplineNum opline o.extendedValue]
  | .jmpz | .jmpnz | .jmpzEx | .jmpnzEx | .feResetR | .feResetRw | .jmpSet | .coalesce
  | .assertCheck => [opJmpAddr abs opline o.op2]
  | .catchOp => if o.result = 0 then [offsetToOplineNum opline o.extendedValue] else []
  | .declareAnonClass | .declareAnonInheritedClass | .feFetchR | .feFetchRw =>
    [offsetToOplineNum opline o.extendedValue]
  | _ => []

/-- The instruction `opline` is at `new`, and its jumps go to what `f` makes of their targets. -/
def Op.rebase (f : ℕ → ℕ) (opline new : ℕ) (o : Op) : Op :=
  match o.opcode with
  | .jmp | .fastCall => { o with op1 := setOpJmpAddr abs new (f (opJmpAddr abs opline o.op1)) }
  | .jmpznz =>
    { o with
      extendedValue := oplineNumToOffset new (f (offsetToOplineNum opline o.extendedValue))
      op2 := setOpJmpAddr abs new (f (opJmpAddr abs opline o.op2)) }
  | .jmpz | .jmpnz | .jmpzEx | .jmpnzEx | .feResetR | .feResetRw | .jmpSet | .coalesce
  | .assertCheck => { o with op2 := setOpJmpAddr abs new (f (opJmpAddr abs opline o.op2)) }
  | .catchOp | .declareAnonClass | .declareAnonInheritedClass | .feFetchR | .feFetchRw =>
    { o with
      extendedValue := oplineNumToOffset new (f (offsetToOplineNum opline o.extendedValue)) }
  | _ => o

/-- The copy of an instruction that moves, with the same targets. -/
def Op.moved (opline new : ℕ) (o : Op) : Op :=
  if o.opcode = .catchOp ∧ o.result ≠ 0 then o else o.rebase abs id opline new

end

/-! ## The tables -/

/-- `zend_live_range` -/
structure LiveRange where
  var : ℕ
  start : ℕ
  stop : ℕ

/-- `zend_try_catch_element` -/
structure TryCatch where
  tryOp : ℕ
  catchOp : ℕ
  finallyOp : ℕ
  finallyEnd : ℕ

/-- `(uint32_t)-1` -/
abbrev NO_OPLINE : ℕ := 4294967295

/-- `zend_op_array`, as far as it holds instruction numbers; the list of the early bindings goes
on in the results of the instructions. -/
structure OpArray where
  opcodes : ℕ → Op
  last : ℕ
  liveRange : List LiveRange
  tryCatchArray : List TryCatch
  earlyBinding : ℕ

/-! ## The scan -/

section

variable (abs : Bool)

/-- The loop that goes back over NOPs. -/
def backOverNops (opcodes : ℕ → Op) : ℕ → ℕ
  | 0 => 0
  | target + 1 =>
    if (opcodes (target + 1)).opcode = .nop then backOverNops opcodes target else target + 1

/-- There are only NOPs under the jump `i`. -/
def jumpsOverNops (opcodes : ℕ → Op) (i : ℕ) : Bool :=
  let target := opJmpAddr abs i (opcodes i).op1
  (opcodes i).opcode = .jmp ∧ target > i ∧ backOverNops opcodes (target - 1) = i

/-- The variables of the first loop. -/
structure Scan where
  opcodes : ℕ → Op
  newCount : ℕ
  shift : ℕ
  shiftlist : ℕ → ℕ

/-- The body of the first loop, for the instruction `i`. -/
def Scan.next (i : ℕ) (s : Scan) : Scan :=
  let opcodes :=
    if jumpsOverNops abs s.opcodes i then
      Function.update s.opcodes i { s.opcodes i with opcode := .nop }
    else s.opcodes
  let shiftlist := Function.update s.shiftlist i s.shift
  if (opcodes i).opcode = .nop then ⟨opcodes, s.newCount, s.shift + 1, shiftlist⟩
  else
    ⟨if s.shift ≠ 0 then
        Function.update opcodes s.newCount ((opcodes i).moved abs i s.newCount)
      else opcodes,
      s.newCount + 1, s.shift, shiftlist⟩

/-- The first loop, with `n` instructions to go from `i` on. -/
def scan : ℕ → ℕ → Scan → Scan
  | 0, _, s => s
  | n + 1, i, s => scan n (i + 1) (s.next abs i)

end

/-! ## The updates -/

section

variable (shiftlist : ℕ → ℕ)

/-- The new number of an instruction. -/
def shifted (num : ℕ) : ℕ := num - shiftlist num

/-- `live_range[j]` -/
def LiveRange.update (r : LiveRange) : LiveRange where
  var := r.var
  start := shifted shiftlist r.start
  stop := shifted shiftlist r.stop

/-- `try_catch_array[j]` -/
def TryCatch.update (t : TryCatch) : TryCatch where
  tryOp := shifted shiftlist t.tryOp
  catchOp := shifted shiftlist t.catchOp
  finallyOp := if t.finallyOp ≠ 0 then shifted shiftlist t.finallyOp else t.finallyOp
  finallyEnd := if t.finallyOp ≠ 0 then shifted shiftlist t.finallyEnd else t.finallyEnd

/-- The instruction with another number in its result. -/
def Op.setResult (o : Op) (num : ℕ) : Op := { o with result := num }

/-- The loop over the early bindings, for at most `fuel` of them, when the instruction `num` has
the next number. -/
def updateBindings : ℕ → ℕ → (ℕ → Op) → ℕ → Op
  | 0, _, opcodes => opcodes
  | fuel + 1, num, opcodes =>
    if (opcodes num).result = NO_OPLINE then opcodes
    else
      let next := shifted shiftlist (opcodes num).result
      updateBindings fuel next (Function.update opcodes num ((opcodes num).setResult next))

end

/-- `zend_optimizer_nop_removal` -/
def nopRemoval (abs : Bool) (a : OpArray) : OpArray :=
  let s := scan abs a.last 0 ⟨a.opcodes, 0, 0, fun _ => 0⟩
  if s.shift = 0 then { a with opcodes := s.opcodes }
  else
    let opcodes := fun i =>
      if i < s.newCount then (s.opcodes i).rebase abs (shifted s.shiftlist) i i else s.opcodes i
    if a.earlyBinding = NO_OPLINE then
      { a with
        opcodes := opcodes, last := s.newCount
        liveRange := a.liveRange.map (LiveRange.update s.shiftlist)
        tryCatchArray := a.tryCatchArray.map (TryCatch.update s.shiftlist) }
    else
      let earlyBinding := shifted s.shiftlist a.earlyBinding
      { opcodes := updateBindings s.shiftlist s.newCount earlyBinding opcodes
        last := s.newCount
        liveRange := a.liveRange.map (LiveRange.update s.shiftlist)
        tryCatchArray := a.tryCatchArray.map (TryCatch.update s.shiftlist)
        earlyBinding := earlyBinding }

/-!
# The control flow of the virtual machine

Which instruction the executor performs next: its jumps, the exceptions with the tables of the
array, and the handlers that look at the next instruction.  What an instruction does to the values
is up to a machine that knows all that has happened, but not the numbers of instructions.
-/

open Stuttering

/-! ## Instructions to the machine -/

/-- What an instruction has besides the numbers of instructions. -/
def Op.content (o : Op) : Op :=
  match o.opcode with
  | .jmp | .fastCall => { o with op1 := 0 }
  | .jmpznz => { o with op2 := 0, extendedValue := 0 }
  | .jmpz | .jmpnz | .jmpzEx | .jmpnzEx | .feResetR | .feResetRw | .jmpSet | .coalesce
  | .assertCheck => { o with op2 := 0 }
  | .catchOp | .declareAnonClass | .declareAnonInheritedClass | .feFetchR | .feFetchRw =>
    { o with extendedValue := 0 }
  | .declareInheritedClassDelayed => { o with result := 0 }
  | _ => o

/-- `zend_is_smart_branch` -/
def zendIsSmartBranch : Opcode → Bool
  | .isIdentical | .isNotIdentical | .isEqual | .isNotEqual | .isSmaller | .isSmallerOrEqual
  | .case | .issetIsemptyVar | .issetIsemptyDimObj | .issetIsemptyPropObj
  | .issetIsemptyStaticProp | .instanceof | .typeCheck | .defined => true
  | _ => false

/-- What a handler comes to.  It goes on behind the instruction, or to one of its targets, or an
exception is thrown, or it leaves the function.  With `truth` it goes on behind the instruction
and has found what the next one may be there for: whether a condition holds, or whether an object
has a constructor. -/
inductive Outcome where
  | next
  | truth (b : Bool)
  | jump (i : ℕ)
  | throw
  | leave
  deriving DecidableEq

/-- What happens in a run of a function: an instruction is performed, with the data behind it, or
an exception makes the calls end that the instructions before it have begun, ends the life of
variables, enters a FINALLY or leaves one whose FAST_CALL variable it then is chained to. -/
inductive Event where
  | performed (o : Op) (data : Option Op) (r : Outcome)
  | unwound (before : List Op)
  | freed (vars : List ℕ)
  | entered (fastCall : ℤ)
  | chained (fastCall : ℤ)
  deriving DecidableEq

/-- The outcome that the handler of `o` gives to the next instruction `j`, which it does the work
of as well: `ZEND_VM_SMART_BRANCH`, and the call of a constructor that is not there. -/
def fused (o j : Op) : Outcome → Option Outcome
  | .truth b =>
    if zendIsSmartBranch o.opcode then
      match j.opcode with
      | .jmpz => some (if b then .next else .jump 0)
      | .jmpnz => some (if b then .jump 0 else .next)
      | _ => none
    else if o.opcode = .new ∧ o.extendedValue = 0 ∧ j.opcode = .doFcall ∧ b = false then
      some .next
    else none
  | _ => none

/-- The instruction `j` is there for what `o` has found. -/
def AsksFor (o j : Op) : Prop :=
  o.opcode = .new ∨
    (o.resultType = .tmpVar ∨ o.resultType = .var) ∧ j.op1Type = o.resultType ∧ j.op1 = o.result

instance (o j : Op) : Decidable (AsksFor o j) :=
  inferInstanceAs (Decidable (_ ∨ _ ∧ _ ∧ _))

/-- What is behind the instructions: their handlers, and whether an exception is under way.  An
instruction right behind the one whose result it tests finds there what that one has found, and a
call without a constructor does nothing. -/
structure Machine where
  exec : List Event → Op → Option Op → Outcome
  exception : List Event → Bool
  exec_of_asksFor : ∀ h o j r r', fused o j r = some r' → AsksFor o j →
    exec (h ++ [.performed o none r]) j none = r'

/-! ## The tables -/

section

variable (a : OpArray)

/-- The instruction `k` as the machine sees it. -/
def OpArray.opline (k : ℕ) : Option Op := if k < a.last then some (a.opcodes k).content else none

/-- The data behind the instruction `k`. -/
def OpArray.opData (k : ℕ) : Option Op := (a.opline (k + 1)).filter fun o => o.opcode = .opData

/-- The instructions before `k` that `cleanup_unfinished_calls` goes back through. -/
def OpArray.before (k : ℕ) : List Op :=
  ((List.range k).map fun i => (a.opcodes i).content).filter fun o =>
    o.opcode ≠ .nop ∧ o.opcode ≠ .jmp

/-- The variables that `cleanup_live_vars` frees. -/
def OpArray.liveVars (opNum catchOpNum : ℕ) : List ℕ :=
  ((a.liveRange.takeWhile fun r => r.start ≤ opNum).filter fun r =>
    opNum < r.stop ∧ (catchOpNum = 0 ∨ r.stop ≤ catchOpNum)).map LiveRange.var

/-- The number of the instruction that an exception in `k` is thrown at: for a FREE on the way
to a RETURN, with `ZEND_FREE_ON_RETURN`, the end of the loop. -/
def OpArray.throwOpNum (k : ℕ) : ℕ :=
  let o := (a.opcodes k).content
  if (o.opcode = .free ∨ o.opcode = .feFree) ∧ o.extendedValue % 2 = 1 then
    (a.liveRange[o.op2.toNat]?).elim k LiveRange.stop
  else k

/-- The number of try blocks up to the innermost around the instruction, with `i` of them seen. -/
def innermost (throwOpNum : ℕ) : List TryCatch → ℕ → ℕ → ℕ
  | [], _, found => found
  | t :: l, i, found =>
    if t.tryOp > throwOpNum then found
    else innermost throwOpNum l (i + 1)
      (if throwOpNum < t.catchOp ∨ throwOpNum < t.finallyEnd then i + 1 else found)

end

/-! ## Steps -/

/-- Where a run of a function is; `fastCall` has the return addresses in the FAST_CALL variables,
and an outcome is `pending` for an instruction that the one before has done the work of. -/
structure Config where
  pc : Option ℕ
  pending : Option Outcome
  fastCall : ℤ → Option ℕ
  events : List Event

/-- The run goes on with the event `e`. -/
def Config.record (c : Config) (e : Event) : Config := { c with events := c.events ++ [e] }

section

variable (m : Machine) (abs : Bool) (a : OpArray)

/-- `zend_dispatch_try_catch_finally_helper`, with the try blocks from the innermost one on. -/
def dispatch (opNum : ℕ) : List TryCatch → Config → Config
  | [], c => { c.record (.freed (a.liveVars opNum 0)) with pc := none }
  | t :: l, c =>
    if opNum < t.catchOp ∧ m.exception c.events = true then
      { c.record (.freed (a.liveVars opNum t.catchOp)) with pc := some t.catchOp }
    else if opNum < t.finallyOp then
      let fastCall := (a.opcodes t.finallyEnd).content.op1
      { (c.record (.freed (a.liveVars opNum t.finallyOp))).record (.entered fastCall) with
        pc := some t.finallyOp, fastCall := Function.update c.fastCall fastCall none }
    else if opNum < t.finallyEnd then
      dispatch opNum l (c.record (.chained (a.opcodes t.finallyEnd).content.op1))
    else dispatch opNum l c

/-- The first `n` try blocks, from the last of them on. -/
def OpArray.tryCatches (n : ℕ) : List TryCatch := (a.tryCatchArray.take n).reverse

/-- `ZEND_HANDLE_EXCEPTION`, for an exception in the instruction `k`. -/
def handleException (k : ℕ) (c : Config) : Config :=
  let throwOpNum := a.throwOpNum k
  dispatch m a throwOpNum (a.tryCatches (innermost throwOpNum a.tryCatchArray 0 0))
    (c.record (.unwound (a.before (throwOpNum + 1))))

/-- What the handler of the instruction `k` comes to. -/
def outcome (k : ℕ) (c : Config) : Outcome :=
  c.pending.getD (m.exec c.events (a.opcodes k).content (a.opData k))

/-- The run goes on from the instruction `k` as its handler says. -/
def goOn (k : ℕ) (c : Config) : Outcome → Config
  | .next => { c with pc := some (if a.opData k = none then k + 1 else k + 2) }
  | .truth b =>
    { c with
      pc := some (k + 1)
      pending := (a.opline (k + 1)).bind fun j => fused (a.opcodes k).content j (.truth b) }
  | .jump i => { c with pc := ((a.opcodes k).targets abs k)[i]? }
  | .throw => handleException m a k c
  | .leave => { c with pc := none }

/-- An instruction `k` that the machine has the handler of. -/
def perform (k : ℕ) (c : Config) : Config :=
  let r := outcome m a k c
  goOn m abs a k
    { c.record (.performed (a.opcodes k).content (a.opData k) r) with pending := none } r

/-- The FAST_CALL `k`. -/
def performFastCall (k : ℕ) (c : Config) : Config :=
  let o := (a.opcodes k).content
  { c.record (.performed o none (.jump 0)) with
    pc := ((a.opcodes k).targets abs k)[0]?
    fastCall := Function.update c.fastCall o.result (some k) }

/-- The FAST_RET `k`. -/
def performFastRet (k : ℕ) (c : Config) : Config :=
  let o := (a.opcodes k).content
  match c.fastCall o.op1 with
  | some n => { c.record (.performed o none (.jump 0)) with pc := some (n + 1) }
  | none =>
    dispatch m a k (a.tryCatches (if o.op2 = NO_OPLINE then 0 else o.op2.toNat + 1))
      (c.record (.performed o none .throw))

variable (redundant : ℕ → Bool)

/-- The run goes on for an instruction.  Of the jumps those that are `redundant` are not
recorded. -/
def step (c : Config) : Config :=
  match c.pc with
  | none => c
  | some k =>
    if k < a.last then
      match (a.opcodes k).opcode with
      | .nop => { c with pc := some (k + 1) }
      | .jmp =>
        let c' := { c with pc := ((a.opcodes k).targets abs k)[0]? }
        if redundant k then c' else c'.record (.performed (a.opcodes k).content none (.jump 0))
      | .fastCall => performFastCall abs a k c
      | .fastRet => performFastRet m a k c
      | _ => perform m abs a k c
    else c

/-- A run from the instruction `k` on. -/
def Config.start (k : ℕ) : Config := ⟨some k, none, fun _ => none, []⟩

/-- A run from the instruction `k` on performs this, first of all. -/
def Performs (k : ℕ) (l : List Event) : Prop :=
  Records (step m abs a redundant) Config.events (Config.start k) l

end

/-!
# What NOP removal leaves

The new number of an instruction is the number of kept ones before it.  Every kept instruction is at
its new number, and what held the number of an instruction holds the new one.
-/

open IndexChains

open List Function

variable {abs : Bool} {ops ops' : ℕ → Op} {i j k t n p q : ℕ} {o : Op} {f : ℕ → ℕ} {s : Scan}

/-! ## Jumps -/

@[simp] theorem offsetToOplineNum_oplineNumToOffset (i n : ℕ) :
    offsetToOplineNum i (oplineNumToOffset i n) = n := by
  rw [offsetToOplineNum, oplineNumToOffset, Int.mul_ediv_cancel _ (by decide)]
  omega

@[simp] theorem opJmpAddr_setOpJmpAddr (i n : ℕ) : opJmpAddr abs i (setOpJmpAddr abs i n) = n := by
  cases abs with
  | false => exact offsetToOplineNum_oplineNumToOffset i n
  | true => exact Int.toNat_natCast n

@[simp] theorem opcode_content (o : Op) : o.content.opcode = o.opcode := by
  unfold Op.content
  split <;> rfl

theorem rebase_spec (abs : Bool) (f : ℕ → ℕ) (p q : ℕ) (o : Op) :
    (o.rebase abs f p q).content = o.content ∧
      (o.rebase abs f p q).targets abs q = (o.targets abs p).map f ∧
      (o.rebase abs f p q).result = o.result := by
  obtain ⟨opcode, op1Type, op2Type, resultType, op1, op2, result, extendedValue, lineno⟩ := o
  cases opcode with
  | catchOp =>
    refine ⟨rfl, ?_, rfl⟩
    rw [Op.rebase, Op.targets, Op.targets]
    split_ifs
    · rw [offsetToOplineNum_oplineNumToOffset]
      rfl
    · rfl
  | _ => simp [Op.rebase, Op.content, Op.targets]

theorem moved_spec (abs : Bool) (p q : ℕ) (o : Op) : (o.moved abs p q).content = o.content ∧
      (o.moved abs p q).targets abs q = o.targets abs p ∧ (o.moved abs p q).result = o.result := by
  rw [Op.moved]
  split_ifs with hlast
  · -- the last CATCH of a try has no target
    refine ⟨rfl, ?_, rfl⟩
    rw [Op.targets, Op.targets, hlast.1]
    rw [if_neg hlast.2, if_neg hlast.2]
  · obtain ⟨hcontent, htargets, hresult⟩ := rebase_spec abs id p q o
    rw [map_id] at htargets
    exact ⟨hcontent, htargets, hresult⟩

/-! ## The kept instructions -/

/-- The loop back over NOPs stops at the last instruction that is not a NOP. -/
theorem backOverNops_eq_iff (hi : (ops i).opcode ≠ .nop) (hit : i ≤ t) :
    backOverNops ops t = i ↔ ∀ j, i < j → j ≤ t → (ops j).opcode = .nop := by
  induction t with
  | zero =>
    rw [backOverNops]
    constructor
    · intro _ j hj hjt
      omega
    · intro _
      omega
  | succ t ih =>
    rw [backOverNops]
    by_cases hnop : (ops (t + 1)).opcode = .nop
    · rw [if_pos hnop]
      have hne : i ≠ t + 1 := by
        rintro rfl
        exact hi hnop
      rw [ih (by omega)]
      constructor
      · intro h j hj hjt
        rcases lt_or_eq_of_le hjt with hlt | rfl
        · exact h j hj (by omega)
        · exact hnop
      · intro h j hj hjt
        exact h j hj (by omega)
    · rw [if_neg hnop]
      constructor
      · omega
      · intro h
        by_contra hne
        exact hnop (h (t + 1) (by omega) le_rfl)

/-- A jump over NOPs only. -/
theorem jumpsOverNops_iff : jumpsOverNops abs ops i = true ↔ (ops i).opcode = .jmp ∧
    i < opJmpAddr abs i (ops i).op1 ∧
    ∀ j, i < j → j < opJmpAddr abs i (ops i).op1 → (ops j).opcode = .nop := by
  rw [jumpsOverNops, decide_eq_true_iff]
  refine and_congr_right fun hjmp => and_congr_right fun hlt => ?_
  rw [backOverNops_eq_iff (by rw [hjmp]; exact nofun) (by omega)]
  constructor
  · intro h j hj hjt
    exact h j hj (by omega)
  · intro h j hj hjt
    exact h j hj (by omega)

/-- The instructions before `i` do not matter for the jump `i`. -/
theorem jumpsOverNops_congr (h : ∀ j, i ≤ j → ops j = ops' j) :
    jumpsOverNops abs ops i = jumpsOverNops abs ops' i := by
  rw [Bool.eq_iff_iff, jumpsOverNops_iff, jumpsOverNops_iff, h i le_rfl]
  refine and_congr_right fun _ => and_congr_right fun _ => ?_
  constructor
  · intro hnops j hj hjt
    rw [← h j (le_of_lt hj)]
    exact hnops j hj hjt
  · intro hnops j hj hjt
    rw [h j (le_of_lt hj)]
    exact hnops j hj hjt

/-- The instruction is kept. -/
def Kept (abs : Bool) (ops : ℕ → Op) (i : ℕ) : Prop :=
  (ops i).opcode ≠ .nop ∧ jumpsOverNops abs ops i = false

instance (abs : Bool) (ops : ℕ → Op) : DecidablePred (Kept abs ops) := fun i =>
  inferInstanceAs (Decidable ((ops i).opcode ≠ .nop ∧ jumpsOverNops abs ops i = false))

theorem kept_of_opcode (hnop : (ops i).opcode ≠ .nop) (hjmp : (ops i).opcode ≠ .jmp) :
    Kept abs ops i := by
  refine ⟨hnop, ?_⟩
  rw [← Bool.not_eq_true, jumpsOverNops_iff]
  exact fun h => hjmp h.1

/-- The new number of an instruction. -/
def newNum (abs : Bool) (ops : ℕ → Op) (i : ℕ) : ℕ := Nat.count (Kept abs ops) i

@[simp] theorem newNum_zero : newNum abs ops 0 = 0 := rfl

theorem newNum_succ_of_kept (h : Kept abs ops i) :
    newNum abs ops (i + 1) = newNum abs ops i + 1 := by
  rw [newNum, Nat.count_succ, if_pos h]
  rfl

theorem newNum_succ_of_not (h : ¬ Kept abs ops i) : newNum abs ops (i + 1) = newNum abs ops i := by
  rw [newNum, Nat.count_succ, if_neg h]
  rfl

theorem newNum_le (abs : Bool) (ops : ℕ → Op) (i : ℕ) : newNum abs ops i ≤ i := Nat.count_le _

theorem newNum_mono (abs : Bool) (ops : ℕ → Op) (h : i ≤ j) : newNum abs ops i ≤ newNum abs ops j :=
  Nat.count_monotone _ h

theorem newNum_lt_iff (h : Kept abs ops i) : newNum abs ops i < newNum abs ops j ↔ i < j := by
  constructor
  · intro hlt
    by_contra hle
    exact absurd (newNum_mono abs ops (not_lt.mp hle)) (not_le.mpr hlt)
  · exact Nat.count_strict_mono h

/-- Nothing kept between two instructions. -/
theorem newNum_eq_of_none (hij : i ≤ j) (h : ∀ k, i ≤ k → k < j → ¬ Kept abs ops k) :
    newNum abs ops j = newNum abs ops i := by
  induction hij with
  | refl => rfl
  | @step j hij ih =>
    rw [newNum_succ_of_not (h j hij (Nat.lt_succ_self j)),
      ih fun k hk hkj => h k hk (Nat.lt_succ_of_lt hkj)]

/-- Where a jump over NOPs only goes has the same new number. -/
theorem newNum_target (h : jumpsOverNops abs ops i = true) :
    newNum abs ops (opJmpAddr abs i (ops i).op1) = newNum abs ops i := by
  obtain ⟨-, hlt, hnops⟩ := jumpsOverNops_iff.mp h
  apply newNum_eq_of_none (le_of_lt hlt)
  intro k hk hkt hkept
  rcases lt_or_eq_of_le hk with hik | rfl
  · exact hkept.1 (hnops k hik hkt)
  · rw [hkept.2] at h
    cases h

/-- The first instruction from `t` on that is kept. -/
def FirstKept (abs : Bool) (ops : ℕ → Op) (t k : ℕ) : Prop :=
  t ≤ k ∧ Kept abs ops k ∧ ∀ j, t ≤ j → j < k → ¬ Kept abs ops j

theorem FirstKept.newNum_eq (h : FirstKept abs ops t k) : newNum abs ops k = newNum abs ops t :=
  newNum_eq_of_none h.1 h.2.2

/-- Where something is kept there is a first one. -/
theorem exists_firstKept (h : Kept abs ops n) (htn : t ≤ n) : ∃ k ≤ n, FirstKept abs ops t k := by
  induction htn using Nat.decreasingInduction with
  | self => exact ⟨n, le_rfl, le_rfl, h, fun j hj hjn => absurd hj (not_le.mpr hjn)⟩
  | of_succ t htn ih =>
    by_cases hkept : Kept abs ops t
    · refine ⟨t, le_of_lt htn, le_rfl, hkept, fun j hj hjt => ?_⟩
      omega
    · obtain ⟨k, hkn, hk, hkk, hnone⟩ := ih
      refine ⟨k, hkn, Nat.le_of_succ_le hk, hkk, fun j hj hjk => ?_⟩
      rcases lt_or_eq_of_le hj with hlt | rfl
      · exact hnone j hlt hjk
      · exact hkept

/-! ## The scan -/

/-- What the instruction `k` is after the scan. -/
def scanned (abs : Bool) (ops : ℕ → Op) (k : ℕ) : Op :=
  if newNum abs ops k = k then ops k else (ops k).moved abs k (newNum abs ops k)

/-- The scan when it has come to the instruction `i`. -/
structure Scanning (abs : Bool) (ops : ℕ → Op) (i : ℕ) (s : Scan) : Prop where
  rest : ∀ j, i ≤ j → s.opcodes j = ops j
  newCount : s.newCount = newNum abs ops i
  shift : s.shift + newNum abs ops i = i
  shiftlist : ∀ j < i, s.shiftlist j + newNum abs ops j = j
  done : ∀ k < i, Kept abs ops k → s.opcodes (newNum abs ops k) = scanned abs ops k

theorem Scanning.next (h : Scanning abs ops i s) : Scanning abs ops (i + 1) (s.next abs i) := by
  have hjumps : jumpsOverNops abs s.opcodes i = jumpsOverNops abs ops i :=
    jumpsOverNops_congr h.rest
  have hlist : ∀ j < i + 1,
      update s.shiftlist i s.shift j + newNum abs ops j = j := by
    intro j hj
    rcases Nat.lt_succ_iff_lt_or_eq.mp hj with hj | rfl
    · rw [update_of_ne (ne_of_lt hj)]
      exact h.shiftlist j hj
    · rw [update_self]
      exact h.shift
  -- an instruction that is not kept changes nothing in front of it
  have hpass : ∀ opcodes : ℕ → Op, (∀ j, j ≠ i → opcodes j = s.opcodes j) →
      ¬ Kept abs ops i →
      Scanning abs ops (i + 1)
        ⟨opcodes, s.newCount, s.shift + 1, update s.shiftlist i s.shift⟩ := by
    intro opcodes hsame hnot
    have hnum := newNum_succ_of_not hnot
    refine ⟨fun j hj => ?_, ?_, ?_, hlist, fun k hk hkept => ?_⟩
    · exact (hsame j (by omega)).trans (h.rest j (by omega))
    · rw [hnum]
      exact h.newCount
    · have hshift := h.shift
      dsimp only
      omega
    · have hki : k < i := by
        rcases Nat.lt_succ_iff_lt_or_eq.mp hk with hk | rfl
        · exact hk
        · exact absurd hkept hnot
      have hle := newNum_le abs ops k
      dsimp only
      rw [hsame _ (by omega)]
      exact h.done k hki hkept
  rw [Scan.next, hjumps]
  by_cases hover : jumpsOverNops abs ops i = true
  · rw [if_pos hover, if_pos (by rw [update_self])]
    refine hpass _ (fun j hj => update_of_ne hj ..) fun hkept => ?_
    rw [hkept.2] at hover
    cases hover
  · rw [if_neg hover]
    by_cases hnop : (s.opcodes i).opcode = .nop
    · rw [if_pos hnop]
      refine hpass _ (fun _ _ => rfl) fun hkept => ?_
      rw [h.rest i le_rfl] at hnop
      exact hkept.1 hnop
    · rw [if_neg hnop]
      rw [h.rest i le_rfl] at hnop
      have hkept : Kept abs ops i := ⟨hnop, Bool.not_eq_true _ ▸ hover⟩
      have hnum := newNum_succ_of_kept hkept
      have hshift := h.shift
      have hcount := h.newCount
      have hold : ∀ k < i, Kept abs ops k → newNum abs ops k < newNum abs ops i :=
        fun k hk hkk => (newNum_lt_iff hkk).mpr hk
      by_cases hzero : s.shift = 0
      · rw [if_neg (not_not_intro hzero)]
        refine ⟨fun j hj => h.rest j (by omega), by dsimp only; omega, by dsimp only; omega,
          hlist, fun k hk hkk => ?_⟩
        rcases Nat.lt_succ_iff_lt_or_eq.mp hk with hk | rfl
        · exact h.done k hk hkk
        · have hsame : newNum abs ops k = k := by omega
          rw [scanned, if_pos hsame, hsame]
          exact h.rest k le_rfl
      · rw [if_pos hzero]
        have hlt : newNum abs ops i < i := by omega
        refine ⟨fun j hj => ?_, by dsimp only; omega, by dsimp only; omega, hlist,
          fun k hk hkk => ?_⟩
        · dsimp only
          rw [update_of_ne (by omega)]
          exact h.rest j (by omega)
        · dsimp only
          rw [hcount]
          rcases Nat.lt_succ_iff_lt_or_eq.mp hk with hk | rfl
          · rw [update_of_ne (ne_of_lt (hold k hk hkk))]
            exact h.done k hk hkk
          · rw [update_self, scanned, if_neg (ne_of_lt hlt), h.rest k le_rfl]

theorem scan_spec (h : Scanning abs ops i s) : Scanning abs ops (i + n) (scan abs n i s) := by
  induction n generalizing i s with
  | zero => exact h
  | succ n ih =>
    rw [Nat.add_succ, ← Nat.succ_add]
    exact ih h.next

theorem scan_start (abs : Bool) (ops : ℕ → Op) : Scanning abs ops 0 ⟨ops, 0, 0, fun _ => 0⟩ where
  rest _ _ := rfl
  newCount := rfl
  shift := rfl
  shiftlist _ h := absurd h (Nat.not_lt_zero _)
  done _ h := absurd h (Nat.not_lt_zero _)

/-! ## The early bindings -/

/-- The list of the early bindings with its numbers set to the new ones. -/
theorem updateBindings_spec {shiftlist : ℕ → ℕ} {l : List ℕ} {fuel : ℕ} (old new : ℕ → Op)
    (hf : ∀ m ∈ n :: l, shifted shiftlist m = f m ∧ f m ≠ NO_OPLINE)
    (hnodup : ((n :: l).map f).Nodup) (hnew : ∀ m ∈ n :: l, (new (f m)).result = (old m).result)
    (hchain : Chain (fun i => (old i).result) NO_OPLINE (old n).result l) (hfuel : l.length < fuel)
    : Chain (fun i => (updateBindings shiftlist fuel (f n) new i).result) NO_OPLINE (f n)
        ((n :: l).map f) ∧
      (∀ j, j ∉ (n :: l).map f → updateBindings shiftlist fuel (f n) new j = new j) ∧
      ∀ j, updateBindings shiftlist fuel (f n) new j
        = (new j).setResult (updateBindings shiftlist fuel (f n) new j).result := by
  induction l generalizing n new fuel with
  | nil =>
    obtain ⟨fuel, rfl⟩ : ∃ m, fuel = m + 1 := ⟨fuel - 1, by omega⟩
    have hend : (new (f n)).result = NO_OPLINE :=
      (hnew n mem_cons_self).trans hchain
    rw [updateBindings, if_pos hend]
    exact ⟨⟨rfl, (hf n mem_cons_self).2, hend⟩, fun _ _ => rfl, fun _ => rfl⟩
  | cons m l ih =>
    obtain ⟨fuel, rfl⟩ : ∃ x, fuel = x + 1 := ⟨fuel - 1, by omega⟩
    obtain ⟨hm, hne, hrest⟩ := hchain
    have hresult : (new (f n)).result = m := (hnew n mem_cons_self).trans hm
    rw [map_cons, nodup_cons] at hnodup
    obtain ⟨hfresh, hnodup'⟩ := hnodup
    rw [updateBindings, if_neg (by rwa [hresult]), hresult,
      (hf m (mem_cons_of_mem _ mem_cons_self)).1]
    have hother : ∀ x ∈ m :: l, f x ≠ f n := fun x hx heq =>
      hfresh (heq ▸ mem_map_of_mem hx)
    have hfuel' : l.length < fuel := by
      rw [length_cons] at hfuel
      omega
    obtain ⟨hchain', hsame, hfields⟩ := ih
      (update new (f n) ((new (f n)).setResult (f m)))
      (fun x hx => hf x (mem_cons_of_mem n hx)) hnodup'
      (fun x hx => by
        rw [update_of_ne (hother x hx)]
        exact hnew x (mem_cons_of_mem n hx))
      hrest hfuel'
    have hthis := hsame (f n) hfresh
    rw [update_self] at hthis
    refine ⟨⟨rfl, (hf n mem_cons_self).2, ?_⟩, fun j hj => ?_, fun j => ?_⟩
    · beta_reduce
      rw [hthis]
      exact hchain'
    · rw [map_cons, mem_cons, not_or] at hj
      rw [hsame j hj.2, update_of_ne hj.1]
    · by_cases hj : j = f n
      · subst hj
        rw [hthis]
        rfl
      · have hj' := hfields j
        rwa [update_of_ne hj] at hj'

/-! ## The result -/

/-- The list of the early bindings of an array: the instructions that declare classes. -/
def EarlyBindings (a : OpArray) (l : List ℕ) : Prop :=
  Chain (fun i => (a.opcodes i).result) NO_OPLINE a.earlyBinding l

/-- The numbers in an array are numbers of instructions, and its last instruction is no NOP. -/
structure WellFormed (abs : Bool) (a : OpArray) : Prop where
  last_pos : 0 < a.last
  last_lt : a.last < NO_OPLINE
  last_op : (a.opcodes (a.last - 1)).opcode ≠ .nop
  targets : ∀ i < a.last, ∀ t ∈ (a.opcodes i).targets abs i, t < a.last
  liveRange : ∀ r ∈ a.liveRange, r.start < a.last ∧ r.stop < a.last
  tryCatch : ∀ t ∈ a.tryCatchArray,
    t.tryOp < a.last ∧ t.catchOp < a.last ∧ t.finallyOp < a.last ∧ t.finallyEnd < a.last
  finally_eq_zero : ∀ t ∈ a.tryCatchArray, t.finallyOp = 0 → t.finallyEnd = 0
  bindings : ∃ l, EarlyBindings a l ∧ l.Nodup ∧
    ∀ i ∈ l, i < a.last ∧ (a.opcodes i).opcode = .declareInheritedClassDelayed

/-- A live range and a try block with other numbers of their instructions. -/
def LiveRange.map (f : ℕ → ℕ) (r : LiveRange) : LiveRange := ⟨r.var, f r.start, f r.stop⟩

@[inherit_doc LiveRange.map]
def TryCatch.map (f : ℕ → ℕ) (t : TryCatch) : TryCatch :=
  ⟨f t.tryOp, f t.catchOp, f t.finallyOp, f t.finallyEnd⟩

/-- What the removal leaves of an array, with `f` for the new numbers. -/
structure Renumbered (abs : Bool) (f : ℕ → ℕ) (a b : OpArray) : Prop where
  last : b.last = f a.last
  content : ∀ k < a.last, Kept abs a.opcodes k →
    (b.opcodes (f k)).content = (a.opcodes k).content
  targets : ∀ k < a.last, Kept abs a.opcodes k →
    (b.opcodes (f k)).targets abs (f k) = ((a.opcodes k).targets abs k).map f
  liveRange : b.liveRange = a.liveRange.map (LiveRange.map f)
  tryCatch : b.tryCatchArray = a.tryCatchArray.map (TryCatch.map f)
  bindings : ∀ l, EarlyBindings a l → l.Nodup →
    (∀ i ∈ l, i < a.last ∧ (a.opcodes i).opcode = .declareInheritedClassDelayed) →
    EarlyBindings b (l.map f)

variable {a : OpArray}

theorem WellFormed.last_kept (h : WellFormed abs a) : Kept abs a.opcodes (a.last - 1) := by
  refine ⟨h.last_op, ?_⟩
  rw [← Bool.not_eq_true, jumpsOverNops_iff]
  rintro ⟨hjmp, hlt, -⟩
  have hpos := h.last_pos
  have htarget := h.targets (a.last - 1) (by omega)
    (opJmpAddr abs (a.last - 1) (a.opcodes (a.last - 1)).op1) (by
      rw [Op.targets, hjmp]
      exact mem_singleton_self _)
  omega

/-- The numbers of the instructions that are in use. -/
theorem shifted_eq {last : ℕ} (h : Scanning abs ops last s) (hi : i < last) :
    shifted s.shiftlist i = newNum abs ops i := by
  have hlist := h.shiftlist i hi
  rw [shifted]
  omega

/-- Without anything to remove the array stays as it is. -/
theorem renumbered_of_shift_eq_zero (hwf : WellFormed abs a)
    (h : Scanning abs a.opcodes a.last s) (hzero : s.shift = 0) :
    Renumbered abs (newNum abs a.opcodes) a { a with opcodes := s.opcodes } := by
  have hall : newNum abs a.opcodes a.last = a.last := by
    have hshift := h.shift
    omega
  have hkept : ∀ k < a.last, Kept abs a.opcodes k := Nat.count_iff_forall.mp hall
  have hnum : ∀ i ≤ a.last, newNum abs a.opcodes i = i := fun i hi =>
    Nat.count_iff_forall.mpr fun k hk => hkept k (lt_of_lt_of_le hk hi)
  have hops : s.opcodes = a.opcodes := by
    funext j
    rcases lt_or_ge j a.last with hj | hj
    · have hdone := h.done j hj (hkept j hj)
      rwa [scanned, if_pos (hnum j (le_of_lt hj)), hnum j (le_of_lt hj)] at hdone
    · exact h.rest j hj
  rw [hops]
  refine ⟨hall.symm, fun k hk _ => ?_, fun k hk _ => ?_, ?_, ?_, fun l hl _ hin => ?_⟩
  · rw [hnum k (le_of_lt hk)]
  · rw [hnum k (le_of_lt hk)]
    symm
    conv_rhs => rw [← map_id ((a.opcodes k).targets abs k)]
    apply map_congr_left
    intro t ht
    exact hnum t (le_of_lt (hwf.targets k hk t ht))
  · symm
    conv_rhs => rw [← map_id a.liveRange]
    apply map_congr_left
    intro r hr
    obtain ⟨hstart, hstop⟩ := hwf.liveRange r hr
    rw [LiveRange.map, hnum _ (le_of_lt hstart), hnum _ (le_of_lt hstop)]
    rfl
  · symm
    conv_rhs => rw [← map_id a.tryCatchArray]
    apply map_congr_left
    intro t ht
    obtain ⟨htry, hcatch, hfinally, hend⟩ := hwf.tryCatch t ht
    rw [TryCatch.map, hnum _ (le_of_lt htry), hnum _ (le_of_lt hcatch),
      hnum _ (le_of_lt hfinally), hnum _ (le_of_lt hend)]
    rfl
  · have hmap : l.map (newNum abs a.opcodes) = l := by
      conv_rhs => rw [← map_id l]
      apply map_congr_left
      intro i hi
      exact hnum i (le_of_lt (hin i hi).1)
    rw [hmap]
    exact hl

/-- A change in results only. -/
theorem setResult_spec (abs : Bool) (p m : ℕ) (o : Op)
    (h : o.opcode = .declareInheritedClassDelayed) :
    (o.setResult m).content = o.content ∧ (o.setResult m).targets abs p = o.targets abs p := by
  rw [Op.content, Op.content, Op.targets, Op.targets, Op.setResult, h]
  exact ⟨rfl, rfl⟩

/-- The kept instructions at their new numbers, before the early bindings are updated. -/
theorem rebased_spec (hwf : WellFormed abs a)
    (h : Scanning abs a.opcodes a.last s) (hk : k < a.last) (hkept : Kept abs a.opcodes k) :
    let o := (s.opcodes (newNum abs a.opcodes k)).rebase abs (shifted s.shiftlist)
      (newNum abs a.opcodes k) (newNum abs a.opcodes k)
    o.content = (a.opcodes k).content ∧
      o.targets abs (newNum abs a.opcodes k)
        = ((a.opcodes k).targets abs k).map (newNum abs a.opcodes) ∧
      o.result = (a.opcodes k).result := by
  intro o
  obtain ⟨hcontent, htargets, hresult⟩ := rebase_spec abs (shifted s.shiftlist)
    (newNum abs a.opcodes k) (newNum abs a.opcodes k) (s.opcodes (newNum abs a.opcodes k))
  have hscanned : (s.opcodes (newNum abs a.opcodes k)).content = (a.opcodes k).content ∧
      (s.opcodes (newNum abs a.opcodes k)).targets abs (newNum abs a.opcodes k)
        = (a.opcodes k).targets abs k ∧
      (s.opcodes (newNum abs a.opcodes k)).result = (a.opcodes k).result := by
    rw [h.done k hk hkept, scanned]
    split_ifs with hsame
    · rw [hsame]
      exact ⟨rfl, rfl, rfl⟩
    · exact moved_spec abs k _ _
  refine ⟨hcontent.trans hscanned.1, ?_, hresult.trans hscanned.2.2⟩
  rw [htargets, hscanned.2.1]
  apply map_congr_left
  intro t ht
  exact shifted_eq h (hwf.targets k hk t ht)

/-- An instruction `k` of the array, at its new number among `new`. -/
def Placed (abs : Bool) (a : OpArray) (new : ℕ → Op) (k : ℕ) : Prop :=
  (new (newNum abs a.opcodes k)).content = (a.opcodes k).content ∧
    (new (newNum abs a.opcodes k)).targets abs (newNum abs a.opcodes k)
      = ((a.opcodes k).targets abs k).map (newNum abs a.opcodes)

variable {new : ℕ → Op}

/-- The update of the early bindings, of which there are some. -/
theorem updated_spec {l : List ℕ} (hwf : WellFormed abs a)
    (h : Scanning abs a.opcodes a.last s) (hend : a.earlyBinding ≠ NO_OPLINE)
    (hnew : ∀ k < a.last, Kept abs a.opcodes k →
      (new (newNum abs a.opcodes k)).result = (a.opcodes k).result)
    (hl : EarlyBindings a l) (hnodup : l.Nodup)
    (hin : ∀ i ∈ l, i < a.last ∧ (a.opcodes i).opcode = .declareInheritedClassDelayed) :
    let ops := updateBindings s.shiftlist s.newCount (shifted s.shiftlist a.earlyBinding) new
    Chain (fun i => (ops i).result) NO_OPLINE (shifted s.shiftlist a.earlyBinding)
        (l.map (newNum abs a.opcodes)) ∧
      (∀ j, j ∉ l.map (newNum abs a.opcodes) → ops j = new j) ∧
      ∀ j, ops j = (new j).setResult (ops j).result := by
  cases l with
  | nil => exact absurd hl hend
  | cons n l =>
    obtain ⟨hn, hne, hrest⟩ := hl
    have hnum : ∀ m ∈ n :: l, shifted s.shiftlist m = newNum abs a.opcodes m :=
      fun m hm => shifted_eq h (hin m hm).1
    have hkept : ∀ m ∈ n :: l, Kept abs a.opcodes m := by
      intro m hm
      have hop := (hin m hm).2
      exact kept_of_opcode (by rw [hop]; exact nofun) (by rw [hop]; exact nofun)
    have hinj : ((n :: l).map (newNum abs a.opcodes)).Nodup :=
      List.Nodup.map_on (fun x hx y hy hxy =>
        Nat.count_injective (hkept x hx) (hkept y hy) hxy) hnodup
    have hlen : (n :: l).length ≤ s.newCount := by
      have hsub : (n :: l).map (newNum abs a.opcodes) ⊆ List.range s.newCount := by
        intro x hx
        obtain ⟨m, hm, rfl⟩ := mem_map.mp hx
        rw [mem_range, h.newCount]
        exact (newNum_lt_iff (hkept m hm)).mpr (hin m hm).1
      have hle := (hinj.subperm hsub).length_le
      rwa [length_map, length_range] at hle
    rw [hn, hnum n mem_cons_self]
    refine updateBindings_spec a.opcodes new (fun m hm => ⟨hnum m hm, ?_⟩) hinj
      (fun m hm => hnew m (hin m hm).1 (hkept m hm)) hrest
      (by rw [length_cons] at hlen; omega)
    have hle := newNum_le abs a.opcodes m
    have hlast := hwf.last_lt
    have hm' := (hin m hm).1
    omega

/-- The update leaves the instructions where they are. -/
theorem updated_placed (hwf : WellFormed abs a)
    (h : Scanning abs a.opcodes a.last s) (hend : a.earlyBinding ≠ NO_OPLINE)
    (hnew : ∀ k < a.last, Kept abs a.opcodes k →
      (new (newNum abs a.opcodes k)).result = (a.opcodes k).result)
    (hkept : Kept abs a.opcodes k) (hplaced : Placed abs a new k) : Placed abs a
      (updateBindings s.shiftlist s.newCount (shifted s.shiftlist a.earlyBinding) new) k := by
  obtain ⟨l, hl, hnodup, hin⟩ := hwf.bindings
  obtain ⟨-, hother, hfields⟩ := updated_spec hwf h hend hnew hl hnodup hin
  rw [Placed]
  by_cases hmem : newNum abs a.opcodes k ∈ l.map (newNum abs a.opcodes)
  · obtain ⟨m, hm, hmk⟩ := mem_map.mp hmem
    have hop := (hin m hm).2
    have hmkept : Kept abs a.opcodes m :=
      kept_of_opcode (by rw [hop]; exact nofun) (by rw [hop]; exact nofun)
    rw [Nat.count_injective hmkept hkept hmk] at hop
    have hopcode := congrArg Op.opcode hplaced.1
    rw [opcode_content, opcode_content, hop] at hopcode
    rw [hfields (newNum abs a.opcodes k)]
    obtain ⟨hcontent, htargets⟩ := setResult_spec abs (newNum abs a.opcodes k) _ _ hopcode
    exact ⟨hcontent.trans hplaced.1, htargets.trans hplaced.2⟩
  · rw [hother _ hmem]
    exact hplaced

/-- **NOP removal** keeps the instructions, and gives every number of one its new number. -/
theorem nopRemoval_renumbered (hwf : WellFormed abs a) :
    Renumbered abs (newNum abs a.opcodes) a (nopRemoval abs a) := by
  have h : Scanning abs a.opcodes a.last (scan abs a.last 0 ⟨a.opcodes, 0, 0, fun _ => 0⟩) := by
    have hscan := scan_spec (n := a.last) (scan_start abs a.opcodes)
    rwa [zero_add] at hscan
  rw [nopRemoval]
  generalize scan abs a.last 0 ⟨a.opcodes, 0, 0, fun _ => 0⟩ = s at h ⊢
  by_cases hzero : s.shift = 0
  · rw [if_pos hzero]
    exact renumbered_of_shift_eq_zero hwf h hzero
  rw [if_neg hzero]
  have hnum : ∀ i < a.last, shifted s.shiftlist i = newNum abs a.opcodes i :=
    fun i hi => shifted_eq h hi
  have hlive : a.liveRange.map (LiveRange.update s.shiftlist)
      = a.liveRange.map (LiveRange.map (newNum abs a.opcodes)) := by
    apply map_congr_left
    intro r hr
    obtain ⟨hstart, hstop⟩ := hwf.liveRange r hr
    rw [LiveRange.update, LiveRange.map, hnum _ hstart, hnum _ hstop]
  have htry : a.tryCatchArray.map (TryCatch.update s.shiftlist)
      = a.tryCatchArray.map (TryCatch.map (newNum abs a.opcodes)) := by
    apply map_congr_left
    intro t ht
    obtain ⟨htry, hcatch, hfinally, hend⟩ := hwf.tryCatch t ht
    rw [TryCatch.update, TryCatch.map, hnum _ htry, hnum _ hcatch]
    by_cases hnone : t.finallyOp = 0
    · rw [hwf.finally_eq_zero t ht hnone, hnone]
      rfl
    · rw [if_pos hnone, if_pos hnone, hnum _ hfinally, hnum _ hend]
  have hlt : ∀ k < a.last, Kept abs a.opcodes k → newNum abs a.opcodes k < s.newCount := by
    intro k hk hkept
    rw [h.newCount]
    exact (newNum_lt_iff hkept).mpr hk
  generalize hrebase : (fun i => if i < s.newCount then
    (s.opcodes i).rebase abs (shifted s.shiftlist) i i else s.opcodes i) = new
  have hplaced : ∀ k < a.last, Kept abs a.opcodes k → Placed abs a new k ∧
      (new (newNum abs a.opcodes k)).result = (a.opcodes k).result := by
    intro k hk hkept
    obtain ⟨hcontent, htargets, hresult⟩ := rebased_spec hwf h hk hkept
    rw [Placed, ← hrebase]
    dsimp only
    rw [if_pos (hlt k hk hkept)]
    exact ⟨⟨hcontent, htargets⟩, hresult⟩
  by_cases hend : a.earlyBinding = NO_OPLINE
  · rw [if_pos hend]
    refine ⟨h.newCount, fun k hk hkept => (hplaced k hk hkept).1.1,
      fun k hk hkept => (hplaced k hk hkept).1.2, hlive, htry, fun l hl _ _ => ?_⟩
    cases l with
    | nil => exact hend
    | cons n l =>
      obtain ⟨hn, hne, -⟩ := hl
      exact absurd (hn.symm.trans hend) hne
  · rw [if_neg hend]
    have hresult := fun k hk hkept => (hplaced k hk hkept).2
    have hupdated := fun k hk hkept =>
      updated_placed hwf h hend hresult hkept (hplaced k hk hkept).1
    exact ⟨h.newCount, fun k hk hkept => (hupdated k hk hkept).1,
      fun k hk hkept => (hupdated k hk hkept).2, hlive, htry,
      fun l hl hnodup hin => (updated_spec hwf h hend hresult hl hnodup hin).1⟩

end NopRemoval
