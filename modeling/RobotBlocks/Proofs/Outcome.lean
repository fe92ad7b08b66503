import Mathlib
import RobotBlocks.Proofs.Reached

/-! How compilation ends. The size of a program is the total size of the opcodes that each reached
block contributes, and of the end of the program. The main result is that this size alone decides
between a program of that length and the error that names it. -/

namespace RobotBlocks

/-- The encoded length of instructions with some opcodes. -/
def opcodesSize (ops : List Opcode) : Nat := (ops.map Opcode.size).sum

@[simp] theorem opcodesSize_nil : opcodesSize [] = 0 := rfl

@[simp] theorem opcodesSize_cons (op : Opcode) (ops : List Opcode) :
    opcodesSize (op :: ops) = op.size + opcodesSize ops := rfl

@[simp] theorem opcodesSize_append (ops rest : List Opcode) :
    opcodesSize (ops ++ rest) = opcodesSize ops + opcodesSize rest := by
  simp [opcodesSize]

theorem opcodesSize_flatMap {α : Type} (f : α → List Opcode) (xs : List α) :
    opcodesSize (xs.flatMap f) = (xs.map fun x => opcodesSize (f x)).sum := by
  induction xs with
  | nil => rfl
  | cons x xs ih => simp [ih]

theorem codeSize_eq_opcodesSize (code : List Instruction) :
    codeSize code = opcodesSize (code.map Instruction.opcode) := by
  induction code with
  | nil => rfl
  | cons i code ih => simp [ih]

namespace Block

/-- The opcodes of a value. A missing one is the constant zero, and so is an unknown one. -/
def valueOpcodes : Option Block → List Opcode
  | none => [.pushConst]
  | some b => match b.kind with
    | "logic_boolean" => [.pushBool]
    | "logic_compare" =>
      valueOpcodes (b.input? "A") ++ valueOpcodes (b.input? "B")
        ++ [(Operator.comparison (b.textAt "OP" "EQ")).opcode]
    | "logic_operation" =>
      valueOpcodes (b.input? "A") ++ valueOpcodes (b.input? "B")
        ++ [if b.textAt "OP" "AND" = "AND" then .and else .or]
    | "logic_negate" => valueOpcodes (b.input? "BOOL") ++ [.not]
    | "sensor_get" => [.pushSensor]
    | "math_arithmetic" =>
      valueOpcodes (b.input? "A") ++ valueOpcodes (b.input? "B")
        ++ [(Operator.arithmetic (b.textAt "OP" "ADD")).opcode]
    | "timer_get" => [.pushTimer, .pushConst, .divide]
    | _ => [.pushConst]
termination_by o => sizeOf o
decreasing_by all_goals exact sizeOf_input? b _

/-- The opcodes that a statement contributes besides those of its bodies. -/
def ownOpcodes (b : Block) : List Opcode :=
  match b.kind with
  | "robot_move" => [.driveSet]
  | "robot_move_soft" => [.drive]
  | "robot_turn_timed" => [.drive, .stop]
  | "robot_stop" => [.stop]
  | "robot_set_speed" => [.setSpeed]
  | "move_4_motors" => [.driveFourSet]
  | "motor_single" => [.setMotor]
  | "wait_seconds" => [.wait]
  | "wait_until_sensor" =>
    [.pushSensor, .pushConst, (Operator.comparison (b.textAt "OP" "LT")).opcode, .jumpIfFalse,
      .jump]
  | "timer_reset" => [.timerReset]
  | "controls_if" =>
    (List.range (b.shape.elseIfCount + 1)).flatMap fun i =>
      valueOpcodes (b.input? ("IF" ++ toString i)) ++ [.jumpIfFalse, .jump]
  | "controls_repeat_ext" => [.repeatStart, .repeatEnd]
  | "loop_repeat_pause" =>
    if (b.numberAt "PAUSE" (.ofNat 0)).isPositive then [.repeatStart, .wait, .repeatEnd]
    else [.repeatStart, .repeatEnd]
  | "controls_forever" | "loop_forever" => [.loopEnd]
  | "controls_whileUntil" =>
    valueOpcodes (b.input? "BOOL") ++ (if b.textAt "MODE" "WHILE" = "UNTIL" then [.not] else [])
      ++ [.jumpIfFalse, .loopEnd]
  | _ => []

/-- The size of the program under a start block. -/
def programSize (start : Block) : Nat :=
  opcodesSize ((reached start.next?).flatMap ownOpcodes) + 1

open Generator Statement

theorem valueOpcodes_eq (o : Option Block) :
    valueOpcodes o = (valueOf o).code.map Instruction.opcode := by
  induction o using chainInduction with
  | none => rw [valueOpcodes]; rfl
  | some b ih _ =>
    rw [valueOpcodes, valueOf_some]
    unfold OpenBlock.expression
    rw [opened_kind]
    split <;> simp [Expression.code, OpenBlock.binary, opened_value, opened_text, *]
    case h_3 => by_cases hop : b.textAt "OP" "AND" = "AND" <;> simp [hop, Operator.opcode]

theorem codeSize_valueOf (o : Option Block) :
    codeSize (valueOf o).code = opcodesSize (valueOpcodes o) := by
  rw [codeSize_eq_opcodesSize, valueOpcodes_eq]

theorem armsSize_map (b : Block) (indices : List Nat) :
    armsSize (indices.map b.armStatements) =
      opcodesSize (indices.flatMap fun i =>
          valueOpcodes (b.input? ("IF" ++ toString i)) ++ [.jumpIfFalse, .jump])
        + (indices.map fun i => chainSize (statementsOf (b.input? ("DO" ++ toString i)))).sum := by
  induction indices with
  | nil => rfl
  | cons i indices ih =>
    simp only [List.map_cons, armsSize, armStatements, ih, List.flatMap_cons, opcodesSize_append,
      opcodesSize_cons, opcodesSize_nil, List.sum_cons, codeSize_valueOf, size_jumpIfFalse,
      size_jump]
    omega

/-- A statement is as long as its own opcodes and its bodies. -/
theorem size_statement (b : Block) :
    size b.opened.statement = opcodesSize b.ownOpcodes
      + (b.bodySlots.map fun name => chainSize (statementsOf (b.input? name))).sum := by
  unfold OpenBlock.statement bodySlots ownOpcodes
  rw [opened_kind]
  split <;> simp [-Nat.toString_eq_repr, size, simpleCode, guardCode, conditionCode, pauseCode,
    opened_body, opened_text, opened_value, opened_number, codeSize_valueOf, *]
  -- left are the kinds with bodies or jumps, whose parts stand in another order in the code
  case h_11 =>
    have hs : b.opened.shape = b.shape := rfl
    rw [opened_arms, arms_statements, armsSize_map, hs, Nat.add_assoc]
    by_cases helse : b.shape.hasElse <;> simp [helse, Function.comp_def, chainSize]
  case h_13 =>
    by_cases hpause : (b.numberAt "PAUSE" (.ofNat 0)).isPositive <;> simp [hpause] <;> omega
  case h_16 =>
    by_cases hmode : b.textAt "MODE" "WHILE" = "UNTIL" <;> simp [hmode] <;> omega
  all_goals omega

/-- The size of a chain is the sum over its reached blocks. -/
theorem chainSize_statementsOf (o : Option Block) :
    chainSize (statementsOf o) = opcodesSize ((reached o).flatMap ownOpcodes) := by
  induction o using chainInduction with
  | none => simp [reached, statementsOf, chainSize]
  | some b ih ihn =>
    have hbodies : (b.bodySlots.map fun name => chainSize (statementsOf (b.input? name))).sum =
        opcodesSize ((b.bodySlots.flatMap fun name => reached (b.input? name)).flatMap
          ownOpcodes) := by
      simp only [ih, List.flatMap_assoc, opcodesSize_flatMap]
    have hnext : chainSize (if b.kind ∈ endlessKinds then [] else statementsOf b.next?) =
        opcodesSize ((if b.kind ∈ endlessKinds then [] else reached b.next?).flatMap
          ownOpcodes) := by
      split
      · rfl
      · exact ihn
    rw [statementsOf_cons, chainSize, size_statement, hbodies, hnext, reached]
    simp [Nat.add_assoc]

end Block

/-- Compilation fails without a start block exactly if there is none. Otherwise no slot is left open,
and the size of the program decides: up to the limit there is a program of that size, and above it
the error that names the size. -/
theorem generate_outcome (w : Workspace) :
    ((Generator.new.generate w).1 = .error .noStartBlock ↔
      ∀ b ∈ w.blocks, b.kind ≠ startKind) ∧
    ∀ start, w.blocks.find? (·.kind = startKind) = some start →
      ((Generator.new.compileChain start.next?).buffer.emitOpcode .halt).unresolved = 0 ∧
      (start.programSize ≤ maxProgram → ∃ program,
        (Generator.new.generate w).1 = .ok program ∧ program.length = start.programSize) ∧
      (maxProgram < start.programSize →
        (Generator.new.generate w).1 = .error (.programTooLarge start.programSize)) := by
  have hlen (start : Block) :
      (codeBytes (Statement.programCode (Block.readingNext start.next))).length =
        start.programSize := by
    rw [Statement.length_programCode, Block.readingNext_eq, Block.chainSize_statementsOf]
    rfl
  constructor
  · cases hs : w.start? with
    | none =>
      have hnone := w.start?_eq_find?.symm.trans hs
      simpa [Generator.generate, hs] using hnone
    | some start =>
      have hmem := List.mem_of_find?_eq_some (w.start?_eq_find?.symm.trans hs)
      have hkind := List.find?_some (w.start?_eq_find?.symm.trans hs)
      have hne : (Generator.new.generate w).1 ≠ .error .noStartBlock := by
        rw [Generator.generate_new hs]
        dsimp only
        split <;> simp
      simp only [hne, false_iff, not_forall]
      exact ⟨start, hmem, fun h => h (by simpa using hkind)⟩
  · intro start hfind
    have hs := w.start?_eq_find?.trans hfind
    refine ⟨?_, fun hle => ?_, fun hlt => ?_⟩
    · show (Statement.emitChain (Generator.statementsOf start.next?) .empty).unresolved = 0
      rw [Statement.emitChain_eq, CodeBuffer.unresolved_emitAll]
      rfl
    · refine ⟨codeBytes (Statement.programCode (Block.readingNext start.next)), ?_, hlen start⟩
      simp only [Generator.generate_new hs, hlen, if_neg (Nat.not_lt.mpr hle)]
    · simp only [Generator.generate_new hs, hlen, if_pos hlt]

/-- A counted loop with a pause, and an unknown block in it. -/
def pausedStart : Block :=
  let body := (Block.bare "robot_stop").append (.bare "say_hello")
  let loop := (Block.bare "loop_repeat_pause").withInput "PAUSE" (.number (.ofNat 1))
  (Block.bare "start_hat").append (loop.withInput "DO" body)

theorem generate_outcome_paused :
    (Workspace.ofBlocks [pausedStart]).blocks.find? (·.kind = startKind) = some pausedStart ∧
      pausedStart.programSize = 9 ∧ pausedStart.programSize ≤ maxProgram ∧
      ∃ program, (Generator.new.generate (.ofBlocks [pausedStart])).1 = .ok program ∧
        program.length = pausedStart.programSize := by
  have hfind : (Workspace.ofBlocks [pausedStart]).blocks.find? (·.kind = startKind) =
      some pausedStart := rfl
  have hsize : pausedStart.programSize = 9 := by decide +kernel
  have hle : pausedStart.programSize ≤ maxProgram := by
    rw [hsize]
    decide
  obtain ⟨-, hstart⟩ := generate_outcome (.ofBlocks [pausedStart])
  exact ⟨hfind, hsize, hle, (hstart pausedStart hfind).2.1 hle⟩

end RobotBlocks
