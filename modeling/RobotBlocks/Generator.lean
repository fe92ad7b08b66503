import RobotBlocks.CodeBuffer
import RobotBlocks.Statement

/-! Code for expressions and statements, written in one pass into a code buffer. -/

namespace RobotBlocks

/-- Timer ticks in a second. -/
def ticksPerSecond : UInt16 := 1000

/-- The wheel speed of a turn. -/
def turnSpeed : Int8 := 80

/-- Postfix code that pushes the value of an expression. -/
def Expression.emit : Expression → CodeBuffer → CodeBuffer
  | constant x, b => b.emitInstruction .pushConst [.word x.toWord]
  | boolean v, b => b.emitInstruction .pushBool [.byte v.toUInt8]
  | sensor id, b => b.emitInstruction .pushSensor [.byte id]
  | timer, b =>
    ((b.emitInstruction .pushTimer []).emitInstruction .pushConst [.word ticksPerSecond])
      |>.emitInstruction .divide []
  | not e, b => (e.emit b).emitInstruction .not []
  | binary op l r, b => (r.emit (l.emit b)).emitInstruction op.opcode []

namespace Statement

/-- The speeds of the left and right wheels in a turn. -/
def turnSpeeds (toLeft : Bool) : Int8 × Int8 :=
  if toLeft then (-turnSpeed, turnSpeed) else (turnSpeed, -turnSpeed)

/-- A pause at the end of a loop's body, if there is one. -/
def emitPause (pause : Option Binary64) (b : CodeBuffer) : CodeBuffer :=
  match pause with
  | some seconds =>
    if seconds.isPositive then b.emitInstruction .wait [.millis seconds.toMillis] else b
  | none => b

/-- A guard that reads a sensor and compares it, then either leaves or goes back to its start. -/
def emitWaitUntil (sensor : UInt8) (op : Operator) (value : Binary64) (b : CodeBuffer) :
    CodeBuffer :=
  let start := b.pc
  let b := b.emitInstruction .pushSensor [.byte sensor]
  let b := b.emitInstruction .pushConst [.word value.toWord]
  let b := (b.emitInstruction op.opcode []).emitOpcode .jumpIfFalse
  let (exit, b) := b.reserve
  ((b.emitOpcode .jump).emitAddress start).resolveHere exit

mutual

def emit : Statement → CodeBuffer → CodeBuffer
  | move l r, b => b.emitInstruction .driveSet [.speed l.toSpeed, .speed r.toSpeed]
  | moveFor speed seconds, b =>
    b.emitInstruction .drive [.speed speed.toSpeed, .speed speed.toSpeed, .millis seconds.toMillis]
  | turnFor toLeft seconds, b =>
    let (l, r) := turnSpeeds toLeft
    let b := b.emitInstruction .drive [.speed l, .speed r, .millis seconds.toMillis]
    b.emitInstruction .stop []
  | stop, b => b.emitInstruction .stop []
  | setSpeed percent, b => b.emitInstruction .setSpeed [.byte percent.toPercent]
  | moveFour m₁ m₂ m₃ m₄, b =>
    b.emitInstruction .driveFourSet
      [.speed m₁.toSpeed, .speed m₂.toSpeed, .speed m₃.toSpeed, .speed m₄.toSpeed]
  | setMotor id speed, b => b.emitInstruction .setMotor [.byte id, .speed speed.toSpeed]
  | wait seconds, b => b.emitInstruction .wait [.millis seconds.toMillis]
  | waitUntil sensor op value, b => emitWaitUntil sensor op value b
  | resetTimer, b => b.emitInstruction .timerReset []
  | choose arms otherwise, b =>
    let (b, ends) := emitArms arms b []
    ends.foldl CodeBuffer.resolveHere (emitChain otherwise b)
  | repeatTimes times pause body, b =>
    let b := emitChain body (b.emitInstruction .repeatStart [.count times.toCount])
    (emitPause pause b).emitInstruction .repeatEnd []
  | forever body, b =>
    let start := b.pc
    ((emitChain body b).emitOpcode .loopEnd).emitAddress start
  | loopWhile negated condition body, b =>
    let start := b.pc
    let b := condition.emit b
    let b := if negated then b.emitInstruction .not [] else b
    let (exit, b) := (b.emitOpcode .jumpIfFalse).reserve
    (((emitChain body b).emitOpcode .loopEnd).emitAddress start).resolveHere exit
  | unknown _, b => b

def emitChain : List Statement → CodeBuffer → CodeBuffer
  | [], b => b
  | s :: rest, b => emitChain rest (emit s b)

/-- The arms of a conditional. A false condition skips to the next arm; each body ends with a jump
whose slot is added to `ends`, to be pointed behind the whole conditional. -/
def emitArms : List (Expression × List Statement) → CodeBuffer → List Slot → CodeBuffer × List Slot
  | [], b, ends => (b, ends)
  | (condition, body) :: rest, b, ends =>
    let (skip, b) := ((condition.emit b).emitOpcode .jumpIfFalse).reserve
    let (done, b) := ((emitChain body b).emitOpcode .jump).reserve
    emitArms rest (b.resolveHere skip) (done :: ends)

end

mutual

/-- The kinds of the unknown statements in a statement, in source order. -/
def unknowns : Statement → List String
  | unknown kind => [kind]
  | choose arms otherwise => armUnknowns arms ++ chainUnknowns otherwise
  | repeatTimes _ _ body | forever body | loopWhile _ _ body => chainUnknowns body
  | _ => []

def chainUnknowns : List Statement → List String
  | [] => []
  | s :: rest => unknowns s ++ chainUnknowns rest

def armUnknowns : List (Expression × List Statement) → List String
  | [] => []
  | (_, body) :: rest => chainUnknowns body ++ armUnknowns rest

end

end Statement

end RobotBlocks
