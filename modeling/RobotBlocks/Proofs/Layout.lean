import Mathlib
import RobotBlocks.Compiler

/-! Code laid out from an offset on, with every address known in advance, and the proof that the
one-pass emission with slots writes exactly these bytes. -/

namespace RobotBlocks

/-- The encoded length of some code. -/
def codeSize : List Instruction → Nat
  | [] => 0
  | i :: rest => i.opcode.size + codeSize rest

def codeBytes (code : List Instruction) : List UInt8 := code.flatMap Instruction.encode

@[simp] theorem codeSize_nil : codeSize [] = 0 := rfl

@[simp] theorem codeSize_cons (i : Instruction) (code : List Instruction) :
    codeSize (i :: code) = i.opcode.size + codeSize code := rfl

@[simp] theorem codeSize_append (c d : List Instruction) :
    codeSize (c ++ d) = codeSize c + codeSize d := by
  induction c with
  | nil => simp
  | cons i c ih => simp [ih, Nat.add_assoc]

@[simp] theorem codeBytes_nil : codeBytes [] = [] := rfl

@[simp] theorem codeBytes_cons (i : Instruction) (code : List Instruction) :
    codeBytes (i :: code) = i.encode ++ codeBytes code := rfl

@[simp] theorem codeBytes_append (c d : List Instruction) :
    codeBytes (c ++ d) = codeBytes c ++ codeBytes d := by
  simp [codeBytes]

theorem Operand.length_encode (o : Operand) : o.encode.length = o.kind.width := by
  cases o <;> rfl

theorem Operand.length_flatMap_encode (os : List Operand) :
    (os.flatMap Operand.encode).length = OperandKind.totalWidth (os.map Operand.kind) := by
  induction os with
  | nil => rfl
  | cons o os ih => simp [OperandKind.totalWidth, ih, Operand.length_encode]

theorem Instruction.WellFormed.length_encode {i : Instruction} (h : i.WellFormed) :
    i.encode.length = i.opcode.size := by
  rw [Instruction.encode, List.length_cons, Operand.length_flatMap_encode, h, Opcode.size,
    Nat.add_comm]

theorem length_codeBytes {code : List Instruction} (h : ∀ i ∈ code, i.WellFormed) :
    (codeBytes code).length = codeSize code := by
  induction code with
  | nil => rfl
  | cons i code ih =>
    have hi := (h i (by simp)).length_encode
    have hc := ih fun j hj => h j (by simp [hj])
    simp [hi, hc]

/-- What a statement may be compiled to: anything well-formed except the end of the program and
timed driving with four motors. -/
def Instruction.Emittable (i : Instruction) : Prop :=
  i.WellFormed ∧ i.opcode ≠ .halt ∧ i.opcode ≠ .driveFour

theorem length_codeBytes_of_emittable {code : List Instruction} (h : ∀ i ∈ code, i.Emittable) :
    (codeBytes code).length = codeSize code := length_codeBytes fun i hi => (h i hi).1

namespace CodeBuffer

variable (b : CodeBuffer)

@[simp] theorem emitAll_nil : b.emitAll [] = b := rfl

@[simp] theorem emitAll_emitAll (xs ys : List UInt8) :
    (b.emitAll xs).emitAll ys = b.emitAll (xs ++ ys) := by
  simp [emitAll]

theorem emitAll_eq (xs : List UInt8) : b.emitAll xs = ⟨b.code ++ xs.toArray, b.unresolved⟩ := by
  induction xs generalizing b with
  | nil => simp
  | cons x xs ih =>
    have h : b.emitAll (x :: xs) = (b.emit x).emitAll xs := rfl
    rw [h, ih]
    simp [emit]

@[simp] theorem pc_emitAll (xs : List UInt8) : (b.emitAll xs).pc = b.pc + xs.length := by
  simp [emitAll_eq, pc]

@[simp] theorem unresolved_emitAll (xs : List UInt8) :
    (b.emitAll xs).unresolved = b.unresolved := by
  simp [emitAll_eq]

theorem emitInstruction_eq (op : Opcode) (operands : List Operand) :
    b.emitInstruction op operands = b.emitAll (codeBytes [⟨op, operands⟩]) := by
  simp [emitInstruction]

theorem emitOpcode_eq (op : Opcode) : b.emitOpcode op = b.emitAll [op.byte] := rfl

theorem emitAddress_eq (address : Nat) :
    b.emitAddress address = b.emitAll (wordBytes (addressWord address)) := rfl

@[simp] theorem pc_reserve : b.reserve.2.pc = b.pc + 2 := by
  simp [reserve, pc]

@[simp] theorem unresolved_reserve : b.reserve.2.unresolved = b.unresolved + 1 := rfl

@[simp] theorem offset_reserve : b.reserve.1.offset = b.pc := rfl

@[simp] theorem pc_resolve (slot : Slot) (address : Nat) : (b.resolve slot address).pc = b.pc := by
  simp [resolve, pc]

/-- A slot that is resolved after more bytes were written gives the same buffer as an address
written in place. -/
theorem resolve_reserve (xs : List UInt8) (address : Nat) :
    (b.reserve.2.emitAll xs).resolve b.reserve.1 address =
      b.emitAll (wordBytes (addressWord address) ++ xs) := by
  obtain ⟨code, unresolved⟩ := b
  simp only [reserve, emitAll_eq, resolve, pc, wordBytes, CodeBuffer.mk.injEq]
  refine ⟨?_, by omega⟩
  apply Array.toList_inj.mp
  simp

/-- A slot can be resolved before or after a later one is reserved. -/
theorem resolve_of_reserve {slot : Slot} (hs : slot.offset + 1 < b.pc) (hu : 0 < b.unresolved)
    (address : Nat) : b.reserve.2.resolve slot address = (b.resolve slot address).reserve.2 := by
  obtain ⟨code, unresolved⟩ := b
  simp only [pc] at hs
  simp only [reserve, resolve, CodeBuffer.mk.injEq]
  refine ⟨?_, by simp only at hu; omega⟩
  apply Array.toList_inj.mp
  simp [Nat.lt_of_succ_lt hs, hs]

/-- Resolving moves no byte, so slots resolved in a row all get the same address. -/
theorem foldl_resolveHere_eq (slots : List Slot) {address : Nat} (h : b.pc = address) :
    slots.foldl resolveHere b = slots.foldl (fun b slot => b.resolve slot address) b := by
  induction slots generalizing b with
  | nil => rfl
  | cons slot slots ih =>
    simp only [List.foldl_cons, resolveHere, h]
    exact ih _ (by simpa using h)

end CodeBuffer

/-- The code that pushes the value of an expression. -/
def Expression.code : Expression → List Instruction
  | constant x => [⟨.pushConst, [.word x.toWord]⟩]
  | boolean v => [⟨.pushBool, [.byte v.toUInt8]⟩]
  | sensor id => [⟨.pushSensor, [.byte id]⟩]
  | timer => [⟨.pushTimer, []⟩, ⟨.pushConst, [.word ticksPerSecond]⟩, ⟨.divide, []⟩]
  | not e => e.code ++ [⟨.not, []⟩]
  | binary op l r => l.code ++ r.code ++ [⟨op.opcode, []⟩]

theorem Expression.emit_eq (e : Expression) (b : CodeBuffer) :
    e.emit b = b.emitAll (codeBytes e.code) := by
  induction e generalizing b with
  | constant x => simp [emit, code, CodeBuffer.emitInstruction_eq]
  | boolean v => simp [emit, code, CodeBuffer.emitInstruction_eq]
  | sensor id => simp [emit, code, CodeBuffer.emitInstruction_eq]
  | timer => simp [emit, code, CodeBuffer.emitInstruction_eq]
  | not e ih => simp [emit, code, CodeBuffer.emitInstruction_eq, ih]
  | binary op l r ihl ihr => simp [emit, code, CodeBuffer.emitInstruction_eq, ihl, ihr]

theorem Operator.emittable_opcode (op : Operator) : (⟨op.opcode, []⟩ : Instruction).Emittable := by
  cases op <;> exact ⟨rfl, by decide⟩

theorem Expression.code_emittable (e : Expression) : ∀ i ∈ e.code, i.Emittable := by
  induction e with
  | constant x | boolean v | sensor id | timer =>
    simp [code, Instruction.Emittable, Instruction.WellFormed, Operand.kind, Opcode.operands]
  | not e ih =>
    simp only [code, List.forall_mem_append, List.forall_mem_cons]
    exact ⟨ih, ⟨rfl, by simp⟩, by simp⟩
  | binary op l r ihl ihr =>
    simp only [code, List.forall_mem_append, List.forall_mem_cons]
    exact ⟨⟨ihl, ihr⟩, op.emittable_opcode, by simp⟩

theorem Expression.code_wellFormed (e : Expression) : ∀ i ∈ e.code, i.WellFormed := fun i hi =>
  (e.code_emittable i hi).1

/-- An instruction that jumps to an address. -/
def jumpTo (op : Opcode) (address : Nat) : Instruction := ⟨op, [.address (addressWord address)]⟩

/-- An address that fits is not cut off. -/
theorem addressWord_of_le {n : Nat} (h : n ≤ maxProgram) : addressWord n = n.toUInt16 := by
  rw [addressWord, Nat.min_eq_left h]

theorem toNat_addressWord {n : Nat} (h : n ≤ maxProgram) : (addressWord n).toNat = n := by
  rw [addressWord_of_le h]
  exact UInt16.toNat_ofNat_of_lt (Nat.lt_of_le_of_lt h (by decide))

/-- The instructions with an address. -/
inductive Opcode.IsJump : Opcode → Prop where
  | jump : IsJump .jump
  | jumpIfFalse : IsJump .jumpIfFalse
  | loopEnd : IsJump .loopEnd

theorem Opcode.IsJump.emittable {op : Opcode} (h : op.IsJump) (address : Nat) :
    (jumpTo op address).Emittable := by
  cases h <;> exact ⟨rfl, by simp [jumpTo]⟩

namespace Statement

/-- The code of a statement without parts. It stands anywhere. -/
def simpleCode : Statement → List Instruction
  | move l r => [⟨.driveSet, [.speed l.toSpeed, .speed r.toSpeed]⟩]
  | moveFor speed seconds =>
    [⟨.drive, [.speed speed.toSpeed, .speed speed.toSpeed, .millis seconds.toMillis]⟩]
  | turnFor toLeft seconds =>
    [⟨.drive, [.speed (turnSpeeds toLeft).1, .speed (turnSpeeds toLeft).2,
      .millis seconds.toMillis]⟩, ⟨.stop, []⟩]
  | stop => [⟨.stop, []⟩]
  | setSpeed percent => [⟨.setSpeed, [.byte percent.toPercent]⟩]
  | moveFour m₁ m₂ m₃ m₄ =>
    [⟨.driveFourSet,
      [.speed m₁.toSpeed, .speed m₂.toSpeed, .speed m₃.toSpeed, .speed m₄.toSpeed]⟩]
  | setMotor id speed => [⟨.setMotor, [.byte id, .speed speed.toSpeed]⟩]
  | wait seconds => [⟨.wait, [.millis seconds.toMillis]⟩]
  | resetTimer => [⟨.timerReset, []⟩]
  | _ => []

def pauseCode : Option Binary64 → List Instruction
  | some seconds => if seconds.isPositive then [⟨.wait, [.millis seconds.toMillis]⟩] else []
  | none => []

/-- The comparison of a sensor with a constant. -/
def guardCode (sensor : UInt8) (op : Operator) (value : Binary64) : List Instruction :=
  [⟨.pushSensor, [.byte sensor]⟩, ⟨.pushConst, [.word value.toWord]⟩, ⟨op.opcode, []⟩]

def conditionCode (negated : Bool) (condition : Expression) : List Instruction :=
  condition.code ++ if negated then [⟨.not, []⟩] else []

@[simp] theorem conditionCode_false (condition : Expression) :
    conditionCode false condition = condition.code := List.append_nil _

/-- The encoded length of a jump: an opcode and an address. -/
def jumpSize : Nat := 3

@[simp] theorem size_jump : Opcode.jump.size = jumpSize := rfl

@[simp] theorem size_jumpIfFalse : Opcode.jumpIfFalse.size = jumpSize := rfl

@[simp] theorem size_loopEnd : Opcode.loopEnd.size = jumpSize := rfl

@[simp] theorem opcode_jumpTo (op : Opcode) (address : Nat) : (jumpTo op address).opcode = op := rfl

mutual

/-- The encoded length of a statement. It does not depend on where the statement stands. -/
def size : Statement → Nat
  | waitUntil sensor op value => codeSize (guardCode sensor op value) + jumpSize + jumpSize
  | choose arms otherwise => armsSize arms + chainSize otherwise
  | repeatTimes _ pause body =>
    Opcode.repeatStart.size + chainSize body + codeSize (pauseCode pause) + Opcode.repeatEnd.size
  | forever body => chainSize body + jumpSize
  | loopWhile negated condition body =>
    codeSize (conditionCode negated condition) + jumpSize + chainSize body + jumpSize
  | s => codeSize s.simpleCode

def chainSize : List Statement → Nat
  | [] => 0
  | s :: rest => size s + chainSize rest

def armsSize : List (Expression × List Statement) → Nat
  | [] => 0
  | (condition, body) :: rest =>
    codeSize condition.code + jumpSize + chainSize body + jumpSize + armsSize rest

end

mutual

/-- The code of a statement whose first byte is at `base`. -/
def layout : Statement → Nat → List Instruction
  | waitUntil sensor op value, base =>
    guardCode sensor op value
      ++ [jumpTo .jumpIfFalse (base + codeSize (guardCode sensor op value) + jumpSize + jumpSize),
        jumpTo .jump base]
  | choose arms otherwise, base =>
    armsLayout arms base (base + armsSize arms + chainSize otherwise)
      ++ chainLayout otherwise (base + armsSize arms)
  | repeatTimes times pause body, base =>
    ⟨.repeatStart, [.count times.toCount]⟩ :: chainLayout body (base + Opcode.repeatStart.size)
      ++ pauseCode pause ++ [⟨.repeatEnd, []⟩]
  | forever body, base => chainLayout body base ++ [jumpTo .loopEnd base]
  | loopWhile negated condition body, base =>
    let start := base + codeSize (conditionCode negated condition) + jumpSize
    conditionCode negated condition
      ++ jumpTo .jumpIfFalse (start + chainSize body + jumpSize)
        :: chainLayout body start ++ [jumpTo .loopEnd base]
  | s, _ => s.simpleCode

def chainLayout : List Statement → Nat → List Instruction
  | [], _ => []
  | s :: rest, base => layout s base ++ chainLayout rest (base + size s)

/-- The arms of a conditional that is left at `exit`. -/
def armsLayout : List (Expression × List Statement) → Nat → Nat → List Instruction
  | [], _, _ => []
  | (condition, body) :: rest, base, exit =>
    let start := base + codeSize condition.code + jumpSize
    let next := start + chainSize body + jumpSize
    condition.code ++ jumpTo .jumpIfFalse next :: chainLayout body start
      ++ jumpTo .jump exit :: armsLayout rest next exit

end

/-- A statement without parts and without jumps. -/
def isSimple : Statement → Bool
  | waitUntil _ _ _ | choose _ _ | repeatTimes _ _ _ | forever _ | loopWhile _ _ _ => false
  | _ => true

theorem layout_of_simple {s : Statement} (h : s.isSimple) (base : Nat) :
    layout s base = s.simpleCode := by
  cases s <;> simp_all [isSimple, layout]

theorem size_of_simple {s : Statement} (h : s.isSimple) : size s = codeSize s.simpleCode := by
  cases s <;> simp_all [isSimple, size]

/-- The cases of an induction over statements, chains and arms at once. All simple statements are
one case. -/
structure InductionCases (P : Statement → Prop) (Q : List Statement → Prop)
    (R : List (Expression × List Statement) → Prop) : Prop where
  simple : ∀ s : Statement, s.isSimple → P s
  waitUntil : ∀ sensor op value, P (waitUntil sensor op value)
  choose : ∀ arms otherwise, R arms → Q otherwise → P (choose arms otherwise)
  repeatTimes : ∀ times pause body, Q body → P (repeatTimes times pause body)
  forever : ∀ body, Q body → P (forever body)
  loopWhile : ∀ negated condition body, Q body → P (loopWhile negated condition body)
  nil : Q []
  cons : ∀ s rest, P s → Q rest → Q (s :: rest)
  armsNil : R []
  armsCons : ∀ condition body rest, Q body → R rest → R ((condition, body) :: rest)

namespace InductionCases

variable {P : Statement → Prop} {Q : List Statement → Prop}
  {R : List (Expression × List Statement) → Prop}

mutual

theorem statement (h : InductionCases P Q R) : ∀ s, P s
  | .waitUntil sensor op value => h.waitUntil sensor op value
  | .choose arms otherwise => h.choose arms otherwise (h.arms arms) (h.chain otherwise)
  | .repeatTimes times pause body => h.repeatTimes times pause body (h.chain body)
  | .forever body => h.forever body (h.chain body)
  | .loopWhile negated condition body => h.loopWhile negated condition body (h.chain body)
  | .move _ _ | .moveFor _ _ | .turnFor _ _ | .stop | .setSpeed _ | .moveFour _ _ _ _
  | .setMotor _ _ | .wait _ | .resetTimer | .unknown _ => h.simple _ rfl

theorem chain (h : InductionCases P Q R) : ∀ ss, Q ss
  | [] => h.nil
  | s :: rest => h.cons s rest (h.statement s) (h.chain rest)

theorem arms (h : InductionCases P Q R) : ∀ arms, R arms
  | [] => h.armsNil
  | (condition, body) :: rest => h.armsCons condition body rest (h.chain body) (h.arms rest)

end

end InductionCases

theorem pauseCode_emittable (pause : Option Binary64) : ∀ i ∈ pauseCode pause, i.Emittable := by
  cases pause with
  | none => simp [pauseCode]
  | some seconds =>
    unfold pauseCode
    split <;> simp [Instruction.Emittable, Instruction.WellFormed, Operand.kind, Opcode.operands]

theorem guardCode_emittable (sensor : UInt8) (op : Operator) (value : Binary64) :
    ∀ i ∈ guardCode sensor op value, i.Emittable := by
  simp only [guardCode, List.forall_mem_cons]
  exact ⟨⟨rfl, by simp⟩, ⟨rfl, by simp⟩, op.emittable_opcode, by simp⟩

theorem conditionCode_emittable (negated : Bool) (condition : Expression) :
    ∀ i ∈ conditionCode negated condition, i.Emittable := by
  intro i hi
  rcases List.mem_append.mp hi with hi | hi
  · exact condition.code_emittable i hi
  · cases negated
    · simp at hi
    · rw [List.mem_singleton.mp hi]
      exact ⟨rfl, by simp⟩

theorem simpleCode_emittable (s : Statement) : ∀ i ∈ s.simpleCode, i.Emittable := by
  cases s <;> simp [simpleCode, Instruction.Emittable, Instruction.WellFormed, Operand.kind,
    Opcode.operands]

theorem emittable_cases : InductionCases
    (fun s => ∀ base, ∀ i ∈ layout s base, i.Emittable)
    (fun ss => ∀ base, ∀ i ∈ chainLayout ss base, i.Emittable)
    (fun arms => ∀ base exit, ∀ i ∈ armsLayout arms base exit, i.Emittable) where
  simple s hs base := by
    rw [layout_of_simple hs]
    exact simpleCode_emittable s
  waitUntil sensor op value base := by
    simp only [layout, List.forall_mem_append, List.forall_mem_cons]
    exact ⟨guardCode_emittable sensor op value, Opcode.IsJump.jumpIfFalse.emittable _,
      Opcode.IsJump.jump.emittable _, by simp⟩
  choose arms otherwise iha iho base := by
    simp only [layout, List.forall_mem_append]
    exact ⟨iha _ _, iho _⟩
  repeatTimes times pause body ih base := by
    simp only [layout, List.forall_mem_append, List.forall_mem_cons]
    exact ⟨⟨⟨⟨rfl, by simp⟩, ih _⟩, pauseCode_emittable pause⟩, ⟨rfl, by simp⟩, by simp⟩
  forever body ih base := by
    simp only [layout, List.forall_mem_append, List.forall_mem_cons]
    exact ⟨ih _, Opcode.IsJump.loopEnd.emittable _, by simp⟩
  loopWhile negated condition body ih base := by
    simp only [layout, List.forall_mem_append, List.forall_mem_cons]
    exact ⟨⟨conditionCode_emittable negated condition, Opcode.IsJump.jumpIfFalse.emittable _, ih _⟩,
      Opcode.IsJump.loopEnd.emittable _, by simp⟩
  nil base := by simp [chainLayout]
  cons s rest ihs ihr base := by
    simp only [chainLayout, List.forall_mem_append]
    exact ⟨ihs _, ihr _⟩
  armsNil base exit := by simp [armsLayout]
  armsCons condition body rest ihb ihr base exit := by
    simp only [armsLayout, List.forall_mem_append, List.forall_mem_cons]
    exact ⟨⟨condition.code_emittable, Opcode.IsJump.jumpIfFalse.emittable _, ihb _⟩,
      Opcode.IsJump.jump.emittable _, ihr _ _⟩

theorem size_cases : InductionCases
    (fun s => ∀ base, codeSize (layout s base) = size s)
    (fun ss => ∀ base, codeSize (chainLayout ss base) = chainSize ss)
    (fun arms => ∀ base exit, codeSize (armsLayout arms base exit) = armsSize arms) where
  simple s hs base := by rw [layout_of_simple hs, size_of_simple hs]
  waitUntil sensor op value base := by simp [layout, size, Nat.add_assoc]
  choose arms otherwise iha iho base := by simp [layout, size, iha, iho]
  repeatTimes times pause body ih base := by simp [layout, size, ih, Nat.add_assoc]
  forever body ih base := by simp [layout, size, ih]
  loopWhile negated condition body ih base := by simp [layout, size, ih, Nat.add_assoc]
  nil base := rfl
  cons s rest ihs ihr base := by simp [chainLayout, chainSize, ihs, ihr]
  armsNil base exit := rfl
  armsCons condition body rest ihb ihr base exit := by
    simp [armsLayout, armsSize, ihb, ihr, Nat.add_assoc]

theorem chainLayout_emittable (ss : List Statement) (base : Nat) :
    ∀ i ∈ chainLayout ss base, i.Emittable := emittable_cases.chain ss base

@[simp] theorem codeSize_layout (s : Statement) (base : Nat) :
    codeSize (layout s base) = size s := size_cases.statement s base

@[simp] theorem codeSize_chainLayout (ss : List Statement) (base : Nat) :
    codeSize (chainLayout ss base) = chainSize ss := size_cases.chain ss base

@[simp] theorem codeSize_armsLayout (arms : List (Expression × List Statement)) (base exit : Nat) :
    codeSize (armsLayout arms base exit) = armsSize arms := size_cases.arms arms base exit

@[simp] theorem length_layout (s : Statement) (base : Nat) :
    (codeBytes (layout s base)).length = size s := by
  rw [length_codeBytes_of_emittable (emittable_cases.statement s base), codeSize_layout]

@[simp] theorem length_chainLayout (ss : List Statement) (base : Nat) :
    (codeBytes (chainLayout ss base)).length = chainSize ss := by
  rw [length_codeBytes_of_emittable (chainLayout_emittable ss base), codeSize_chainLayout]

@[simp] theorem length_conditionCode (negated : Bool) (condition : Expression) :
    (codeBytes (conditionCode negated condition)).length =
      codeSize (conditionCode negated condition) :=
  length_codeBytes_of_emittable (conditionCode_emittable negated condition)

@[simp] theorem length_expressionCode (e : Expression) :
    (codeBytes e.code).length = codeSize e.code :=
  length_codeBytes_of_emittable e.code_emittable

@[simp] theorem length_guardCode (sensor : UInt8) (op : Operator) (value : Binary64) :
    (codeBytes (guardCode sensor op value)).length = codeSize (guardCode sensor op value) :=
  length_codeBytes_of_emittable (guardCode_emittable sensor op value)

@[simp] theorem encode_jumpTo (op : Opcode) (address : Nat) :
    (jumpTo op address).encode = op.byte :: wordBytes (addressWord address) := by
  simp [jumpTo, Instruction.encode, Operand.encode]

@[simp] theorem length_wordBytes (w : UInt16) : (wordBytes w).length = 2 := rfl

/-- What the arms of a conditional leave behind: slots for the jumps to its end. Resolving them
later, behind any further bytes, gives the arms laid out with that end. -/
def EmitsArms (arms : List (Expression × List Statement)) (b : CodeBuffer) (ends : List Slot)
    (after : CodeBuffer × List Slot) : Prop :=
  after.1.pc = b.pc + armsSize arms ∧
  ∃ slots, after.2 = slots ++ ends ∧ ∀ xs address,
    slots.foldl (fun b slot => b.resolve slot address) (after.1.emitAll xs) =
      b.emitAll (codeBytes (armsLayout arms b.pc address) ++ xs)

theorem emit_of_simple {s : Statement} (h : s.isSimple) (b : CodeBuffer) :
    emit s b = b.emitAll (codeBytes s.simpleCode) := by
  cases s <;> simp_all [isSimple, emit, simpleCode, CodeBuffer.emitInstruction_eq]

theorem emitPause_eq (pause : Option Binary64) (b : CodeBuffer) :
    emitPause pause b = b.emitAll (codeBytes (pauseCode pause)) := by
  cases pause with
  | none => rfl
  | some seconds =>
    simp only [emitPause, pauseCode]
    split
    · rw [CodeBuffer.emitInstruction_eq]
    · rfl

theorem emitWaitUntil_eq (sensor : UInt8) (op : Operator) (value : Binary64) (b : CodeBuffer) :
    emitWaitUntil sensor op value b =
      b.emitAll (codeBytes (layout (waitUntil sensor op value) b.pc)) := by
  have hb : ((b.emitInstruction .pushSensor [.byte sensor]).emitInstruction .pushConst
      [.word value.toWord]).emitInstruction op.opcode [] =
        b.emitAll (codeBytes (guardCode sensor op value)) := by
    simp [guardCode, CodeBuffer.emitInstruction_eq]
  simp only [emitWaitUntil, hb, CodeBuffer.resolveHere]
  rw [CodeBuffer.emitOpcode_eq _ .jump, CodeBuffer.emitAddress_eq, CodeBuffer.emitAll_emitAll,
    CodeBuffer.resolve_reserve]
  simp [layout, CodeBuffer.emitOpcode_eq, jumpSize, Nat.add_assoc]

/-- The bytes of an arm up to the address of its end jump. -/
def armBytes (condition : Expression) (body : List Statement) (base : Nat) : List UInt8 :=
  let start := base + codeSize condition.code + jumpSize
  codeBytes (condition.code ++ jumpTo .jumpIfFalse (start + chainSize body + jumpSize)
    :: chainLayout body start) ++ [Opcode.jump.byte]

@[simp] theorem length_armBytes (condition : Expression) (body : List Statement) (base : Nat) :
    (armBytes condition body base).length =
      codeSize condition.code + jumpSize + chainSize body + 1 := by
  simp [armBytes, jumpSize]
  omega

/-- The skip of an arm is resolved while the slot of its end jump is still open; the arm before that
slot is then complete. -/
theorem emitArms_cons {condition : Expression} {body : List Statement}
    (hbody : ∀ b, emitChain body b = b.emitAll (codeBytes (chainLayout body b.pc)))
    (rest : List (Expression × List Statement)) (b : CodeBuffer) (ends : List Slot) :
    emitArms ((condition, body) :: rest) b ends =
      emitArms rest (b.emitAll (armBytes condition body b.pc)).reserve.2
        ((b.emitAll (armBytes condition body b.pc)).reserve.1 :: ends) := by
  have hskip : ((condition.emit b).emitOpcode .jumpIfFalse) =
      b.emitAll (codeBytes condition.code ++ [Opcode.jumpIfFalse.byte]) := by
    simp [Expression.emit_eq, CodeBuffer.emitOpcode_eq]
  -- `c` is the buffer before the slot of the skip, `d` the one before the slot of the end jump
  generalize hc : b.emitAll (codeBytes condition.code ++ [Opcode.jumpIfFalse.byte]) = c at hskip
  have hpc : c.reserve.2.pc = b.pc + codeSize condition.code + jumpSize := by
    simp [← hc, jumpSize]
    omega
  have hdone : (emitChain body c.reserve.2).emitOpcode .jump =
      c.reserve.2.emitAll (codeBytes (chainLayout body c.reserve.2.pc) ++ [Opcode.jump.byte]) := by
    rw [hbody, CodeBuffer.emitOpcode_eq, CodeBuffer.emitAll_emitAll]
  generalize hd : c.reserve.2.emitAll
    (codeBytes (chainLayout body c.reserve.2.pc) ++ [Opcode.jump.byte]) = d at hdone
  have hnext : d.reserve.2.pc =
      b.pc + codeSize condition.code + jumpSize + chainSize body + jumpSize := by
    rw [CodeBuffer.pc_reserve, ← hd, CodeBuffer.pc_emitAll, hpc]
    simp [jumpSize, Nat.add_assoc]
  have hhere : d.reserve.2.resolveHere c.reserve.1 =
      (d.resolve c.reserve.1 d.reserve.2.pc).reserve.2 := by
    apply CodeBuffer.resolve_of_reserve
    · rw [CodeBuffer.offset_reserve, ← hd, CodeBuffer.pc_emitAll, CodeBuffer.pc_reserve]
      omega
    · simp [← hd]
  have hresolve : d.resolve c.reserve.1 d.reserve.2.pc =
      b.emitAll (armBytes condition body b.pc) := by
    rw [hnext, ← hd, CodeBuffer.resolve_reserve, hpc, ← hc]
    simp [armBytes]
  have hslot : (b.emitAll (armBytes condition body b.pc)).reserve.1 = d.reserve.1 := by
    rw [← hresolve]
    simp [CodeBuffer.reserve]
  simp only [emitArms, hskip, hdone, hhere, hresolve, hslot]

theorem emission_cases : InductionCases
    (fun s => ∀ b, emit s b = b.emitAll (codeBytes (layout s b.pc)))
    (fun ss => ∀ b, emitChain ss b = b.emitAll (codeBytes (chainLayout ss b.pc)))
    (fun arms => ∀ b ends, EmitsArms arms b ends (emitArms arms b ends)) where
  simple s hs b := by rw [emit_of_simple hs, layout_of_simple hs]
  waitUntil sensor op value b := by rw [emit, emitWaitUntil_eq]
  choose arms otherwise iha iho b := by
    -- the end jumps of all arms are resolved together, behind the last branch
    obtain ⟨hpc, slots, hslots, hfold⟩ := iha b []
    rw [List.append_nil] at hslots
    simp only [emit, hslots, iho]
    rw [CodeBuffer.foldl_resolveHere_eq _ _ rfl, hfold]
    simp [layout, hpc, Nat.add_assoc]
  repeatTimes times pause body ih b := by
    simp only [emit, ih, emitPause_eq, CodeBuffer.emitInstruction_eq]
    simp [layout, Instruction.encode, Operand.encode, Opcode.size, OperandKind.totalWidth,
      OperandKind.width, Opcode.operands]
  forever body ih b := by
    simp [emit, ih, layout, CodeBuffer.emitOpcode_eq, CodeBuffer.emitAddress_eq]
  loopWhile negated condition body ih b := by
    have hcond : (if negated then (condition.emit b).emitInstruction .not [] else condition.emit b)
        = b.emitAll (codeBytes (conditionCode negated condition)) := by
      cases negated <;> simp [conditionCode, Expression.emit_eq, CodeBuffer.emitInstruction_eq]
    simp only [emit, hcond, ih, CodeBuffer.resolveHere, CodeBuffer.emitAddress_eq,
      CodeBuffer.emitOpcode_eq _ .loopEnd, CodeBuffer.emitAll_emitAll]
    rw [CodeBuffer.resolve_reserve]
    simp [layout, CodeBuffer.emitOpcode_eq, jumpSize, Nat.add_assoc]
  nil b := rfl
  cons s rest ihs ihr b := by simp [emitChain, ihs, ihr, chainLayout]
  armsNil b ends := ⟨rfl, [], rfl, fun _ _ => rfl⟩
  armsCons condition body rest ihb ihr b ends := by
    rw [emitArms_cons ihb]
    set c := b.emitAll (armBytes condition body b.pc) with hc
    have hnext : c.reserve.2.pc =
        b.pc + codeSize condition.code + jumpSize + chainSize body + jumpSize := by
      simp [hc, jumpSize]
      omega
    obtain ⟨hpc, slots, hslots, hfold⟩ := ihr c.reserve.2 (c.reserve.1 :: ends)
    refine ⟨?_, slots ++ [c.reserve.1], ?_, ?_⟩
    · rw [hpc, hnext, armsSize]
      omega
    · simp [hslots]
    · intro xs address
      rw [List.foldl_append, hfold, hnext]
      simp only [List.foldl_cons, List.foldl_nil]
      rw [CodeBuffer.resolve_reserve, hc]
      simp [armsLayout, armBytes]

/-- The one-pass emission of a chain writes the chain's layout. -/
theorem emitChain_eq (ss : List Statement) (b : CodeBuffer) :
    emitChain ss b = b.emitAll (codeBytes (chainLayout ss b.pc)) := emission_cases.chain ss b

/-- The code of a whole program. -/
def programCode (ss : List Statement) : List Instruction := chainLayout ss 0 ++ [⟨.halt, []⟩]

theorem programCode_wellFormed (ss : List Statement) : ∀ i ∈ programCode ss, i.WellFormed := by
  simp only [programCode, List.forall_mem_append, List.forall_mem_cons]
  exact ⟨fun i hi => (chainLayout_emittable ss 0 i hi).1, rfl, by simp⟩

@[simp] theorem codeSize_programCode (ss : List Statement) :
    codeSize (programCode ss) = chainSize ss + 1 := by
  simp [programCode, Opcode.size, OperandKind.totalWidth, Opcode.operands]

theorem length_programCode (ss : List Statement) :
    (codeBytes (programCode ss)).length = chainSize ss + 1 := by
  rw [length_codeBytes (programCode_wellFormed ss), codeSize_programCode]

end Statement

theorem CodeBuffer.finish_emitAll (xs : List UInt8) :
    (CodeBuffer.empty.emitAll xs).finish =
      if maxProgram < xs.length then .error (.tooLarge xs.length) else .ok xs := by
  simp [finish, emitAll_eq, empty, pc]

/-- A fresh generator gives the layout of the statements behind the start block, if that is not too
long. -/
theorem Generator.generate_new {w : Workspace} {start : Block} (hs : w.start? = some start) :
    (Generator.new.generate w).1 =
      let bytes := codeBytes (Statement.programCode (Block.readingNext start.next))
      if maxProgram < bytes.length then .error (.programTooLarge bytes.length) else .ok bytes := by
  have hb : (Generator.new.addStatements (Block.readingNext start.next)).buffer.emitOpcode .halt =
      CodeBuffer.empty.emitAll
        (codeBytes (Statement.programCode (Block.readingNext start.next))) := by
    simp [Generator.addStatements, Generator.new, Statement.emitChain_eq,
      CodeBuffer.emitOpcode_eq, Statement.programCode, CodeBuffer.empty, CodeBuffer.pc,
      Instruction.encode]
  simp only [Generator.generate, hs, hb, CodeBuffer.finish_emitAll]
  split <;> rfl

theorem Generator.generate_new_ok {w : Workspace} {program : List UInt8}
    (h : (Generator.new.generate w).1 = .ok program) :
    ∃ start, w.start? = some start ∧
      program = codeBytes (Statement.programCode (Block.readingNext start.next)) ∧
      program.length ≤ maxProgram := by
  cases hs : w.start? with
  | none => simp [Generator.generate, hs] at h
  | some start =>
    simp only [Generator.generate_new hs] at h
    split at h
    · cases h
    next hlen =>
      cases h
      exact ⟨start, rfl, rfl, Nat.not_lt.mp hlen⟩

theorem generate_of_compile {w : Workspace} {out : CompileOutput} (h : compile w = .ok out) :
    (Generator.new.generate w).1 = .ok out.program := by
  unfold compile at h
  cases hg : (Generator.new.generate w).1 with
  | error e => simp [hg, Except.map] at h
  | ok program =>
    simp only [hg, Except.map, Except.ok.injEq] at h
    rw [← h]

/-- A compiled program is the code of some statements, and not too long. -/
theorem exists_programCode {w : Workspace} {out : CompileOutput} (h : compile w = .ok out) :
    ∃ ss, out.program = codeBytes (Statement.programCode ss) ∧
      codeSize (Statement.programCode ss) ≤ maxProgram := by
  obtain ⟨start, -, hprogram, hlen⟩ := Generator.generate_new_ok (generate_of_compile h)
  rw [hprogram, length_codeBytes (Statement.programCode_wellFormed _)] at hlen
  exact ⟨_, hprogram, hlen⟩

end RobotBlocks
