import RobotBlocks.Block
import RobotBlocks.Instruction
import RobotBlocks.Rounding

/-! The program that blocks denote: expressions and statements, and how a block is read as either.
Missing and unreadable parts take defaults, so every block can be read. -/

namespace RobotBlocks

/-- Operators on two values. -/
inductive Operator where
  | less | greater | equal | notEqual | atMost | atLeast
  | and | or
  | add | subtract | multiply | divide
  deriving DecidableEq, Repr

namespace Operator

def opcode : Operator → Opcode
  | less => .less
  | greater => .greater
  | equal => .equal
  | notEqual => .notEqual
  | atMost => .atMost
  | atLeast => .atLeast
  | and => .and
  | or => .or
  | add => .add
  | subtract => .subtract
  | multiply => .multiply
  | divide => .divide

/-- A comparison by name; an unknown name means "less than". -/
def comparison : String → Operator
  | "GT" => greater
  | "EQ" => equal
  | "NEQ" => notEqual
  | "LTE" => atMost
  | "GTE" => atLeast
  | _ => less

/-- An arithmetic operator by name; an unknown name means addition. -/
def arithmetic : String → Operator
  | "MINUS" => subtract
  | "MULTIPLY" => multiply
  | "DIVIDE" => divide
  | _ => add

end Operator

inductive Expression where
  | constant (value : Binary64)
  | boolean (value : Bool)
  | sensor (id : UInt8)
  | timer
  | not (operand : Expression)
  | binary (op : Operator) (left right : Expression)
  deriving DecidableEq, Repr

inductive Statement where
  | move (left right : Binary64)
  | moveFor (speed seconds : Binary64)
  | turnFor (toLeft : Bool) (seconds : Binary64)
  | stop
  | setSpeed (percent : Binary64)
  | moveFour (first second third fourth : Binary64)
  | setMotor (id : UInt8) (speed : Binary64)
  | wait (seconds : Binary64)
  | waitUntil (sensor : UInt8) (op : Operator) (value : Binary64)
  | resetTimer
  | choose (arms : List (Expression × List Statement)) (otherwise : List Statement)
  | repeatTimes (times : Binary64) (pause : Option Binary64) (body : List Statement)
  | forever (body : List Statement)
  | loopWhile (negated : Bool) (condition : Expression) (body : List Statement)
  | unknown (kind : String)

/-- Whether a statement never comes to an end, so that nothing behind it is reached. -/
def Statement.isEndless : Statement → Bool
  | forever _ => true
  | _ => false

/-- The three ways to read a block: as a literal number, as a value, and as the first of a chain of
statements. A reading that is not asked for is not computed. -/
structure Reading where
  literal : Option Binary64
  value : Thunk Expression
  chain : Thunk (List Statement)

/-- A block whose inputs have been read. An input with nothing plugged in has no reading. -/
structure OpenBlock where
  kind : String
  fields : NameMap FieldValue none
  inputs : NameMap (Option Reading) none
  shape : Shape

namespace OpenBlock

/-- A text field. A missing or empty one takes the default. -/
def text (b : OpenBlock) (name default : String) : String :=
  match b.fields.lookup name with
  | some v => if v.toText = "" then default else v.toText
  | none => default

def id (b : OpenBlock) (name : String) (default : Int) : UInt8 :=
  lowByte (((b.fields.lookup name).bind FieldValue.integer?).getD default)

def input? (b : OpenBlock) (name : String) : Option Reading := (b.inputs.lookup name).join

/-- A number from a literal block in an input. Any other input takes the default. -/
def number (b : OpenBlock) (name : String) (default : Binary64) : Binary64 :=
  ((b.input? name).bind Reading.literal).getD default

/-- An input as a value. A missing one is zero. -/
def value (b : OpenBlock) (name : String) : Expression :=
  match b.input? name with
  | some r => r.value.get
  | none => .constant (.ofNat 0)

/-- An input as a chain of statements. -/
def body (b : OpenBlock) (name : String) : List Statement :=
  match b.input? name with
  | some r => r.chain.get
  | none => []

def isLiteral (b : OpenBlock) : Bool := b.kind = "math_number" || b.kind = "math_number_limited"

def literal (b : OpenBlock) : Option Binary64 :=
  if b.isLiteral then (b.fields.lookup "NUM").bind FieldValue.number? else none

def binary (b : OpenBlock) (op : Operator) : Expression := .binary op (b.value "A") (b.value "B")

/-- A block that is no value is read as zero. -/
def expression (b : OpenBlock) : Expression :=
  match b.kind with
  | "logic_boolean" => .boolean (b.text "BOOL" "" = "TRUE")
  | "logic_compare" => b.binary (.comparison (b.text "OP" "EQ"))
  | "logic_operation" => b.binary (if b.text "OP" "AND" = "AND" then .and else .or)
  | "logic_negate" => .not (b.value "BOOL")
  | "sensor_get" => .sensor (b.id "SENS" 0)
  | "math_arithmetic" => b.binary (.arithmetic (b.text "OP" "ADD"))
  | "timer_get" => .timer
  | _ => .constant (b.literal.getD (.ofNat 0))

/-- The conditions of a conditional, each with its body. -/
def arms (b : OpenBlock) : List (Expression × List Statement) :=
  (List.range (b.shape.elseIfCount + 1)).map fun i =>
    (b.value ("IF" ++ toString i), b.body ("DO" ++ toString i))

def statement (b : OpenBlock) : Statement :=
  match b.kind with
  | "robot_move" => .move (b.number "L" (.ofNat 0)) (b.number "R" (.ofNat 0))
  | "robot_move_soft" => .moveFor (b.number "TARGET" (.ofNat 100)) (b.number "SEC" (.ofNat 1))
  | "robot_turn_timed" => .turnFor (b.text "DIR" "" = "LEFT") (b.number "SEC" .half)
  | "robot_stop" => .stop
  | "robot_set_speed" => .setSpeed (b.number "SPEED" (.ofNat 100))
  | "move_4_motors" =>
    .moveFour (b.number "M1" (.ofNat 0)) (b.number "M2" (.ofNat 0)) (b.number "M3" (.ofNat 0))
      (b.number "M4" (.ofNat 0))
  | "motor_single" => .setMotor (b.id "MOTOR" 1) (b.number "SPEED" (.ofNat 0))
  | "wait_seconds" => .wait (b.number "SECONDS" (.ofNat 1))
  | "wait_until_sensor" =>
    .waitUntil (b.id "SENS" 0) (.comparison (b.text "OP" "LT")) (b.number "VAL" (.ofNat 50))
  | "timer_reset" => .resetTimer
  | "controls_if" => .choose b.arms (if b.shape.hasElse then b.body "ELSE" else [])
  | "controls_repeat_ext" => .repeatTimes (b.number "TIMES" (.ofNat 1)) none (b.body "DO")
  | "loop_repeat_pause" =>
    .repeatTimes (b.number "TIMES" (.ofNat 1)) (some (b.number "PAUSE" (.ofNat 0))) (b.body "DO")
  | "controls_forever" | "loop_forever" => .forever (b.body "DO")
  | "controls_whileUntil" =>
    .loopWhile (b.text "MODE" "WHILE" = "UNTIL") (b.value "BOOL") (b.body "DO")
  | kind => .unknown kind

end OpenBlock

namespace Block

mutual

/-- Reads a block. Its chain ends with the first endless statement. -/
def reading : Block → Reading
  | ⟨kind, id, fields, inputs, next, extraState, legacy⟩ =>
    let shape := shape ⟨kind, id, fields, inputs, next, extraState, legacy⟩
    let opened : OpenBlock := ⟨kind, fields, readingInputs inputs, shape⟩
    ⟨opened.literal, ⟨fun _ => opened.expression⟩, ⟨fun _ =>
      let first := opened.statement
      if first.isEndless then [first] else first :: readingNext next⟩⟩

def readingInputs {low : Option String} :
    NameMap (Connection Block) low → NameMap (Option Reading) low
  | .nil => .nil
  | .cons name above c rest => .cons name above (readingTarget c) (readingInputs rest)

def readingNext : Option (Connection Block) → List Statement
  | none => []
  | some c => match readingTarget c with
    | some r => r.chain.get
    | none => []

def readingTarget : Connection Block → Option Reading
  | ⟨some b, _⟩ => some b.reading
  | ⟨none, some b⟩ => some b.reading
  | ⟨none, none⟩ => none

end

mutual

/-- The kinds of a block and of those chained behind it. -/
def chainKinds : Block → List String
  | ⟨kind, _, _, _, next, _, _⟩ => kind :: nextKinds next

def nextKinds : Option (Connection Block) → List String
  | some ⟨some b, _⟩ => b.chainKinds
  | some ⟨none, some b⟩ => b.chainKinds
  | _ => []

end

end Block

end RobotBlocks
