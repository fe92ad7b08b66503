import Mathlib
import RobotBlocks.Proofs.Layout
import RobotBlocks.Proofs.Names

/-! Blocks as a source language: the form of a block is found from its kind, fields, literal inputs
and shape alone, and the reading of a block is shown to have that form. -/

namespace RobotBlocks

namespace Block

theorem sizeOf_target? {c : Connection Block} {b : Block} (h : c.target? = some b) :
    sizeOf b < sizeOf c := by
  obtain ⟨block, shadow⟩ := c
  cases block with
  | some a =>
    obtain rfl : a = b := by simpa [Connection.target?] using h
    simp
    omega
  | none =>
    obtain rfl : shadow = some b := by simpa [Connection.target?] using h
    simp
    omega

/-- What is plugged into an input is smaller than the block. -/
theorem sizeOf_input? (b : Block) (name : String) :
    sizeOf (b.input? name) < sizeOf (some b) := by
  cases h : b.input? name with
  | none =>
    obtain ⟨kind, id, fields, inputs, next, extraState, legacy⟩ := b
    simp
  | some c =>
    obtain ⟨connection, hl, ht⟩ := Option.bind_eq_some_iff.mp h
    have h₁ := sizeOf_target? ht
    have h₂ := NameMap.sizeOf_of_mem (NameMap.mem_of_lookup hl)
    obtain ⟨kind, id, fields, inputs, next, extraState, legacy⟩ := b
    simp at h₂ ⊢
    omega

/-- What stands behind a block is smaller than the block. -/
theorem sizeOf_next? (b : Block) : sizeOf b.next? < sizeOf (some b) := by
  cases h : b.next? with
  | none =>
    obtain ⟨kind, id, fields, inputs, next, extraState, legacy⟩ := b
    simp
  | some c =>
    obtain ⟨connection, hn, ht⟩ := Option.bind_eq_some_iff.mp h
    have h₁ := sizeOf_target? ht
    obtain ⟨kind, id, fields, inputs, next, extraState, legacy⟩ := b
    simp only at hn
    simp [hn]
    omega

/-- Induction over a chain of blocks: over all inputs of a block and over what stands behind it. -/
theorem chainInduction {P : Option Block → Prop} (none : P none)
    (some : ∀ b : Block, (∀ name, P (b.input? name)) → P b.next? → P (some b)) : ∀ o, P o
  | .none => none
  | .some b =>
    some b (fun name => chainInduction none some (b.input? name))
      (chainInduction none some b.next?)
termination_by o => sizeOf o
decreasing_by
  · exact sizeOf_input? b name
  · exact sizeOf_next? b

/-- The blocks of a chain, in order. -/
def chain : Option Block → List Block
  | none => []
  | some b => b :: chain b.next?
termination_by o => sizeOf o
decreasing_by exact sizeOf_next? b

theorem nextKinds_eq_elim (next : Option (Connection Block)) :
    nextKinds next = (next.bind (·.target?)).elim [] chainKinds := by
  cases next with
  | none => simp [nextKinds]
  | some c =>
    obtain ⟨block, shadow⟩ := c
    cases block <;> cases shadow <;> simp [nextKinds, Connection.target?]

theorem nextKinds_eq (b : Block) : nextKinds b.next = (chain b.next?).map Block.kind := by
  have hkinds (o : Option Block) : o.elim [] chainKinds = (chain o).map Block.kind := by
    induction o using chainInduction with
    | none => simp [chain]
    | some b _ ihn =>
      rw [chain, List.map_cons, ← ihn]
      obtain ⟨kind, id, fields, inputs, next, extraState, legacy⟩ := b
      rw [Option.elim_some, chainKinds, nextKinds_eq_elim]
      rfl
  rw [nextKinds_eq_elim, ← hkinds]
  rfl

mutual

/-- Whether a block of some kind occurs in a tree of blocks. -/
def mentions (kind : String) : Block → Bool
  | ⟨own, _, _, inputs, next, _, _⟩ =>
    own = kind || inputsMention kind inputs || nextMentions kind next

def inputsMention {low : Option String} (kind : String) : NameMap (Connection Block) low → Bool
  | .nil => false
  | .cons _ _ c rest => targetMentions kind c || inputsMention kind rest

def nextMentions (kind : String) : Option (Connection Block) → Bool
  | none => false
  | some c => targetMentions kind c

def targetMentions (kind : String) : Connection Block → Bool
  | ⟨some b, _⟩ => b.mentions kind
  | ⟨none, some b⟩ => b.mentions kind
  | ⟨none, none⟩ => false

end

/-- No block of some kind occurs in a chain. -/
def Free (kind : String) (o : Option Block) : Prop := ∀ b, o = some b → b.mentions kind = false

theorem free_target? {kind : String} {c : Connection Block} (h : targetMentions kind c = false) :
    Free kind c.target? := by
  intro b hb
  obtain ⟨block, shadow⟩ := c
  cases block with
  | some a =>
    obtain rfl : a = b := by simpa [Connection.target?] using hb
    simpa [targetMentions] using h
  | none =>
    obtain rfl : shadow = some b := by simpa [Connection.target?] using hb
    simpa [targetMentions] using h

theorem targetMentions_of_mem {kind : String} {low : Option String}
    {inputs : NameMap (Connection Block) low} (h : inputsMention kind inputs = false)
    {e : String × Connection Block} (he : e ∈ inputs.entries) :
    targetMentions kind e.2 = false := by
  induction inputs with
  | nil => cases he
  | cons name above c rest ih =>
    obtain ⟨hc, hrest⟩ : targetMentions kind c = false ∧ inputsMention kind rest = false := by
      simpa [inputsMention] using h
    rcases List.mem_cons.mp he with rfl | he
    · exact hc
    · exact ih hrest he

/-- What is free of a kind is so in all its parts. -/
theorem Free.parts {kind : String} {b : Block} (h : Free kind (some b)) :
    b.kind ≠ kind ∧ (∀ name, Free kind (b.input? name)) ∧ Free kind b.next? := by
  have hb := h b rfl
  obtain ⟨own, id, fields, inputs, next, extraState, legacy⟩ := b
  obtain ⟨⟨hown, hinputs⟩, hnext⟩ : (own ≠ kind ∧ inputsMention kind inputs = false) ∧
      nextMentions kind next = false := by
    simpa [mentions] using hb
  refine ⟨hown, fun name c hc => ?_, fun c hc => ?_⟩
  · obtain ⟨connection, hl, ht⟩ := Option.bind_eq_some_iff.mp hc
    exact free_target? (targetMentions_of_mem hinputs (NameMap.mem_of_lookup hl)) c ht
  · obtain ⟨connection, hl, ht⟩ := Option.bind_eq_some_iff.mp hc
    obtain rfl : next = some connection := hl
    exact free_target? (by simpa [nextMentions] using hnext) c ht

end Block

/-- What a block asks for as a value. Operands are in its inputs. -/
inductive ValueForm where
  | constant (value : UInt16)
  | boolean (value : Bool)
  | sensor (id : UInt8)
  | timer
  | negation
  | binary (op : Operator)
  deriving DecidableEq, Repr

/-- What a block asks for as a statement. Conditions and bodies are in its inputs. -/
inductive StatementForm where
  | simple (code : List Instruction)
  | conditional
  | counted (times : UInt16) (pause : Option UInt16)
  | endless
  | guarded (negated : Bool)
  | awaiting (sensor : UInt8) (op : Operator) (value : UInt16)
  | unknown
  deriving DecidableEq, Repr

namespace Block

/-- The number in a literal block. -/
def literal? (b : Block) : Option Binary64 :=
  if b.kind = "math_number" ∨ b.kind = "math_number_limited" then
    (b.field? "NUM").bind FieldValue.number?
  else none

def numberAt (b : Block) (name : String) (default : Binary64) : Binary64 :=
  ((b.input? name).bind literal?).getD default

def textAt (b : Block) (name default : String) : String :=
  match b.field? name with
  | some v => if v.toText = "" then default else v.toText
  | none => default

def idAt (b : Block) (name : String) (default : Int) : UInt8 :=
  lowByte (((b.field? name).bind FieldValue.integer?).getD default)

def valueForm (b : Block) : ValueForm :=
  match b.kind with
  | "math_number" | "math_number_limited" => .constant (b.literal?.getD (.ofNat 0)).toWord
  | "logic_boolean" => .boolean (b.textAt "BOOL" "" = "TRUE")
  | "logic_compare" => .binary (.comparison (b.textAt "OP" "EQ"))
  | "logic_operation" => .binary (if b.textAt "OP" "AND" = "AND" then .and else .or)
  | "logic_negate" => .negation
  | "sensor_get" => .sensor (b.idAt "SENS" 0)
  | "math_arithmetic" => .binary (.arithmetic (b.textAt "OP" "ADD"))
  | "timer_get" => .timer
  | _ => .constant 0

/-- The milliseconds of a pause; one that is not positive is left out. -/
def pauseOf (seconds : Binary64) : Option UInt16 :=
  if seconds.isPositive then some seconds.toMillis else none

def turnCode (toLeft : Bool) (seconds : Binary64) : List Instruction :=
  [⟨.drive, [.speed (if toLeft then -80 else 80), .speed (if toLeft then 80 else -80),
    .millis seconds.toMillis]⟩, ⟨.stop, []⟩]

def statementForm (b : Block) : StatementForm :=
  match b.kind with
  | "robot_move" =>
    .simple [⟨.driveSet, [.speed (b.numberAt "L" (.ofNat 0)).toSpeed,
      .speed (b.numberAt "R" (.ofNat 0)).toSpeed]⟩]
  | "robot_move_soft" =>
    .simple [⟨.drive, [.speed (b.numberAt "TARGET" (.ofNat 100)).toSpeed,
      .speed (b.numberAt "TARGET" (.ofNat 100)).toSpeed,
      .millis (b.numberAt "SEC" (.ofNat 1)).toMillis]⟩]
  | "robot_turn_timed" => .simple (turnCode (b.textAt "DIR" "" = "LEFT") (b.numberAt "SEC" .half))
  | "robot_stop" => .simple [⟨.stop, []⟩]
  | "robot_set_speed" =>
    .simple [⟨.setSpeed, [.byte (b.numberAt "SPEED" (.ofNat 100)).toPercent]⟩]
  | "move_4_motors" =>
    .simple [⟨.driveFourSet, ["M1", "M2", "M3", "M4"].map fun name =>
      .speed (b.numberAt name (.ofNat 0)).toSpeed⟩]
  | "motor_single" =>
    .simple [⟨.setMotor, [.byte (b.idAt "MOTOR" 1),
      .speed (b.numberAt "SPEED" (.ofNat 0)).toSpeed]⟩]
  | "wait_seconds" => .simple [⟨.wait, [.millis (b.numberAt "SECONDS" (.ofNat 1)).toMillis]⟩]
  | "wait_until_sensor" =>
    .awaiting (b.idAt "SENS" 0) (.comparison (b.textAt "OP" "LT"))
      (b.numberAt "VAL" (.ofNat 50)).toWord
  | "timer_reset" => .simple [⟨.timerReset, []⟩]
  | "controls_if" => .conditional
  | "controls_repeat_ext" => .counted (b.numberAt "TIMES" (.ofNat 1)).toCount none
  | "loop_repeat_pause" =>
    .counted (b.numberAt "TIMES" (.ofNat 1)).toCount (pauseOf (b.numberAt "PAUSE" (.ofNat 0)))
  | "controls_forever" | "loop_forever" => .endless
  | "controls_whileUntil" => .guarded (b.textAt "MODE" "WHILE" = "UNTIL")
  | _ => .unknown

/-- The block with its inputs read, from which its own reading is made. -/
def opened (b : Block) : OpenBlock := ⟨b.kind, b.fields, readingInputs b.inputs, b.shape⟩

/-- An input as a value. -/
def valueOf : Option Block → Expression
  | some b => b.reading.value.get
  | none => .constant (.ofNat 0)

theorem lookup_readingInputs {low : Option String} (inputs : NameMap (Connection Block) low)
    (name : String) :
    (readingInputs inputs).lookup name = (inputs.lookup name).map readingTarget := by
  induction inputs with
  | nil => rfl
  | cons other above c rest ih =>
    rw [readingInputs, NameMap.lookup, NameMap.lookup, ih]
    split <;> rfl

theorem readingTarget_eq (c : Connection Block) : readingTarget c = c.target?.map reading := by
  obtain ⟨block, shadow⟩ := c
  cases block <;> cases shadow <;> simp [readingTarget, Connection.target?]

theorem opened_input? (b : Block) (name : String) :
    b.opened.input? name = (b.input? name).map reading := by
  simp only [OpenBlock.input?, opened, lookup_readingInputs, input?]
  cases b.inputs.lookup name with
  | none => rfl
  | some c => exact readingTarget_eq c

theorem opened_kind (b : Block) : b.opened.kind = b.kind := rfl

theorem opened_text (b : Block) (name default : String) :
    b.opened.text name default = b.textAt name default := rfl

theorem opened_id (b : Block) (name : String) (default : Int) :
    b.opened.id name default = b.idAt name default := rfl

theorem opened_literal (b : Block) : b.opened.literal = b.literal? := by
  have hl : b.opened.isLiteral = true ↔
      b.kind = "math_number" ∨ b.kind = "math_number_limited" := by
    simp only [OpenBlock.isLiteral, Bool.or_eq_true, decide_eq_true_iff]
    rfl
  simp only [OpenBlock.literal, literal?, hl]
  rfl

theorem reading_literal (b : Block) : b.reading.literal = b.literal? := by
  rw [← opened_literal]
  obtain ⟨kind, id, fields, inputs, next, extraState, legacy⟩ := b
  simp only [reading]
  rfl

theorem opened_number (b : Block) (name : String) (default : Binary64) :
    b.opened.number name default = b.numberAt name default := by
  simp only [OpenBlock.number, opened_input?, numberAt]
  cases b.input? name with
  | none => rfl
  | some c => simp [reading_literal]

theorem opened_value (b : Block) (name : String) :
    b.opened.value name = valueOf (b.input? name) := by
  simp only [OpenBlock.value, opened_input?]
  cases b.input? name <;> rfl

theorem opened_body (b : Block) (name : String) :
    b.opened.body name = Generator.statementsOf (b.input? name) := by
  simp only [OpenBlock.body, opened_input?]
  cases b.input? name <;> rfl

theorem valueOf_some (b : Block) : valueOf (some b) = b.opened.expression := by
  obtain ⟨kind, id, fields, inputs, next, extraState, legacy⟩ := b
  simp [valueOf, reading, Thunk.get, opened]

theorem readingNext_eq (b : Block) :
    readingNext b.next = Generator.statementsOf b.next? := by
  unfold next?
  cases b.next with
  | none => simp [readingNext, Generator.statementsOf]
  | some c =>
    rw [readingNext, readingTarget_eq, Option.bind_some]
    cases c.target? <;> rfl

theorem statementsOf_some (b : Block) :
    Generator.statementsOf (some b) =
      if b.opened.statement.isEndless then [b.opened.statement]
      else b.opened.statement :: Generator.statementsOf b.next? := by
  rw [← readingNext_eq]
  obtain ⟨kind, id, fields, inputs, next, extraState, legacy⟩ := b
  simp only [Generator.statementsOf, reading]
  rfl

theorem toWord_zero : (Binary64.ofNat 0).toWord = 0 := by decide +kernel

/-- The code of a value, by the form of its block. -/
theorem code_valueOf_some (b : Block) :
    (valueOf (some b)).code = match b.valueForm with
      | .constant x => [⟨.pushConst, [.word x]⟩]
      | .boolean v => [⟨.pushBool, [.byte v.toUInt8]⟩]
      | .sensor id => [⟨.pushSensor, [.byte id]⟩]
      | .timer => [⟨.pushTimer, []⟩, ⟨.pushConst, [.word ticksPerSecond]⟩, ⟨.divide, []⟩]
      | .negation => (valueOf (b.input? "BOOL")).code ++ [⟨.not, []⟩]
      | .binary op =>
        (valueOf (b.input? "A")).code ++ (valueOf (b.input? "B")).code ++ [⟨op.opcode, []⟩] := by
  rw [valueOf_some]
  unfold OpenBlock.expression valueForm
  rw [opened_kind]
  split <;> simp only [*, Expression.code, OpenBlock.binary, opened_value, opened_text, opened_id]
  case h_1 => rfl
  case h_3 => rfl
  case h_8 =>
    -- a block that is no other value is a literal number or counts as zero
    by_cases h₁ : b.kind = "math_number"
    · simp [h₁, opened_literal]
    by_cases h₂ : b.kind = "math_number_limited"
    · simp [h₂, opened_literal]
    simp [*, opened_literal, literal?, toWord_zero]

/-- The conditions and bodies of a conditional, in order. -/
def arms (b : Block) : List (Option Block × Option Block) :=
  (List.range (b.shape.elseIfCount + 1)).map fun i =>
    (b.input? ("IF" ++ toString i), b.input? ("DO" ++ toString i))

/-- What a conditional runs when no condition holds. -/
def otherwise (b : Block) : Option Block := if b.shape.hasElse then b.input? "ELSE" else none

theorem otherwise_of {P : Option Block → Prop} (b : Block) (hn : P none)
    (hi : ∀ name, P (b.input? name)) : P b.otherwise := by
  unfold otherwise
  split
  · exact hi "ELSE"
  · exact hn

theorem sizeOf_otherwise (b : Block) : sizeOf b.otherwise < sizeOf (some b) := by
  apply otherwise_of (P := fun o => sizeOf o < sizeOf (some b)) b _ (sizeOf_input? b)
  obtain ⟨kind, id, fields, inputs, next, extraState, legacy⟩ := b
  simp

/-- The code of a pause at the end of a body. -/
def pauseInstructions (pause : Option UInt16) : List Instruction :=
  pause.toList.map fun ms => ⟨.wait, [.millis ms]⟩

/-- The comparison of a guard that waits. -/
def guardInstructions (sensor : UInt8) (op : Operator) (value : UInt16) : List Instruction :=
  [⟨.pushSensor, [.byte sensor]⟩, ⟨.pushConst, [.word value]⟩, ⟨op.opcode, []⟩]

/-- A statement that does what a form asks for, with its parts read from the block's inputs. -/
def Realizes (b : Block) (s : Statement) : StatementForm → Prop
  | .simple code => s.isSimple ∧ s.simpleCode = code
  | .conditional =>
    s = .choose (b.arms.map fun (condition, body) =>
      (valueOf condition, Generator.statementsOf body)) (Generator.statementsOf b.otherwise)
  | .counted times pause => ∃ x p,
    s = .repeatTimes x p (Generator.statementsOf (b.input? "DO")) ∧ x.toCount = times ∧
      Statement.pauseCode p = pauseInstructions pause
  | .endless => s = .forever (Generator.statementsOf (b.input? "DO"))
  | .guarded negated =>
    s = .loopWhile negated (valueOf (b.input? "BOOL")) (Generator.statementsOf (b.input? "DO"))
  | .awaiting sensor op value => ∃ x, s = .waitUntil sensor op x ∧ x.toWord = value
  | .unknown => s.isSimple ∧ s.simpleCode = []

theorem opened_arms (b : Block) : b.opened.arms =
    b.arms.map fun (condition, body) => (valueOf condition, Generator.statementsOf body) := by
  simp only [OpenBlock.arms, arms, List.map_map, opened_value, opened_body]
  rfl

theorem opened_otherwise (b : Block) :
    (if b.opened.shape.hasElse then Generator.statementsOf (b.input? "ELSE") else []) =
      Generator.statementsOf b.otherwise := by
  have hs : b.opened.shape = b.shape := rfl
  unfold otherwise
  rw [hs]
  split <;> rfl

theorem simpleCode_turnFor (toLeft : Bool) (seconds : Binary64) :
    (Statement.turnFor toLeft seconds).simpleCode = turnCode toLeft seconds := by
  cases toLeft <;> rfl

theorem pauseCode_some (seconds : Binary64) :
    Statement.pauseCode (some seconds) = pauseInstructions (pauseOf seconds) := by
  simp only [Statement.pauseCode, pauseOf]
  split <;> rfl

/-- A block is read as a statement that does what its form asks for. -/
theorem realizes_form (b : Block) : b.Realizes b.opened.statement b.statementForm := by
  unfold OpenBlock.statement statementForm
  rw [opened_kind]
  split <;> simp only [*, Realizes, opened_number, opened_text, opened_id, opened_body,
    opened_value, opened_arms, Statement.isSimple, Statement.simpleCode, Statement.choose.injEq,
    Statement.repeatTimes.injEq, Statement.loopWhile.injEq, Statement.waitUntil.injEq,
    List.map_cons, List.map_nil, true_and, and_true, and_self, ↓existsAndEq, exists_eq_left']
  -- left are the kinds whose statement spells its parts otherwise: turns, the last branch of a
  -- conditional, pauses, and the mode of a loop
  case h_3 => exact simpleCode_turnFor _ _
  case h_11 => exact opened_otherwise b
  case h_12 => rfl
  case h_13 => exact pauseCode_some _
  case h_16 => rfl

/-- The arms of a conditional as statements. -/
def armStatements (b : Block) (i : Nat) : Expression × List Statement :=
  (valueOf (b.input? ("IF" ++ toString i)),
    Generator.statementsOf (b.input? ("DO" ++ toString i)))

theorem arms_statements (b : Block) :
    (b.arms.map fun (condition, body) => (valueOf condition, Generator.statementsOf body)) =
      (List.range (b.shape.elseIfCount + 1)).map b.armStatements := by
  simp [arms, armStatements, Function.comp_def]

open Generator Statement in
/-- The layout of a chain, by the form of its first block. -/
theorem chainLayout_some (b : Block) (base : Nat) :
    chainLayout (statementsOf (some b)) base = match b.statementForm with
      | .simple code => code ++ chainLayout (statementsOf b.next?) (base + codeSize code)
      | .conditional =>
        let arms := b.arms.map fun (condition, body) => (valueOf condition, statementsOf body)
        let middle := base + armsSize arms
        let exit := middle + chainSize (statementsOf b.otherwise)
        armsLayout arms base exit ++ chainLayout (statementsOf b.otherwise) middle
          ++ chainLayout (statementsOf b.next?) exit
      | .counted times pause =>
        let body := statementsOf (b.input? "DO")
        ⟨.repeatStart, [.count times]⟩ :: chainLayout body (base + Opcode.repeatStart.size)
          ++ pauseInstructions pause ++ [⟨.repeatEnd, []⟩] ++ chainLayout (statementsOf b.next?)
            (base + Opcode.repeatStart.size + chainSize body + codeSize (pauseInstructions pause)
              + Opcode.repeatEnd.size)
      | .endless => chainLayout (statementsOf (b.input? "DO")) base ++ [jumpTo .loopEnd base]
      | .guarded negated =>
        let condition := conditionCode negated (valueOf (b.input? "BOOL"))
        let body := statementsOf (b.input? "DO")
        let start := base + codeSize condition + jumpSize
        let exit := start + chainSize body + jumpSize
        condition ++ jumpTo .jumpIfFalse exit :: chainLayout body start ++ [jumpTo .loopEnd base]
          ++ chainLayout (statementsOf b.next?) exit
      | .awaiting sensor op value =>
        let guard := guardInstructions sensor op value
        let exit := base + codeSize guard + jumpSize + jumpSize
        guard ++ [jumpTo .jumpIfFalse exit, jumpTo .jump base]
          ++ chainLayout (statementsOf b.next?) exit
      | .unknown => chainLayout (statementsOf b.next?) base := by
  have hb := realizes_form b
  rw [statementsOf_some]
  generalize b.opened.statement = s at hb
  cases hf : b.statementForm with
  | simple code =>
    rw [hf] at hb
    obtain ⟨hs, rfl⟩ := hb
    have he : s.isEndless = false := by cases s <;> simp_all [isSimple, isEndless]
    simp [he, chainLayout, layout_of_simple hs, size_of_simple hs]
  | conditional =>
    rw [hf] at hb
    obtain rfl := hb
    simp [isEndless, chainLayout, layout, size, Nat.add_assoc]
  | counted times pause =>
    rw [hf] at hb
    obtain ⟨x, p, rfl, rfl, hp⟩ := hb
    simp [isEndless, chainLayout, layout, size, hp, Nat.add_assoc]
  | endless =>
    rw [hf] at hb
    obtain rfl := hb
    simp [isEndless, chainLayout, layout]
  | guarded negated =>
    rw [hf] at hb
    obtain rfl := hb
    simp [isEndless, chainLayout, layout, size, Nat.add_assoc]
  | awaiting sensor op value =>
    rw [hf] at hb
    obtain ⟨x, rfl, rfl⟩ := hb
    simp [isEndless, chainLayout, layout, size, guardCode, guardInstructions, Nat.add_assoc]
  | unknown =>
    rw [hf] at hb
    obtain ⟨hs, hc⟩ := hb
    have he : s.isEndless = false := by cases s <;> simp_all [isSimple, isEndless]
    simp [he, chainLayout, layout_of_simple hs, size_of_simple hs, hc]

end Block

end RobotBlocks
