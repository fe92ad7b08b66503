import RobotBlocks.Text

/-! The runner's instructions: opcodes, the operands each one takes, and their encoding in bytes. -/

namespace RobotBlocks

inductive Opcode where
  | driveSet | drive | driveFourSet | driveFour | setMotor | stop | wait | setSpeed
  | jump | jumpIfFalse | repeatStart | repeatEnd | loopEnd
  | pushConst | pushSensor | pushBool | pushTimer | timerReset
  | less | greater | equal | notEqual | atMost | atLeast
  | and | or | not
  | add | subtract | multiply | divide
  | halt
  deriving DecidableEq, Repr

inductive OperandKind where
  | speed | byte | word | address | count | millis
  deriving DecidableEq, Repr

/-- The number of bytes an operand takes. -/
def OperandKind.width : OperandKind → Nat
  | speed | byte => 1
  | word | address | count | millis => 2

/-- The number of bytes that operands take together. -/
def OperandKind.totalWidth : List OperandKind → Nat
  | [] => 0
  | kind :: rest => kind.width + totalWidth rest

namespace Opcode

def all : List Opcode :=
  [driveSet, drive, driveFourSet, driveFour, setMotor, stop, wait, setSpeed, jump, jumpIfFalse,
    repeatStart, repeatEnd, loopEnd, pushConst, pushSensor, pushBool, pushTimer, timerReset, less,
    greater, equal, notEqual, atMost, atLeast, and, or, not, add, subtract, multiply, divide, halt]

def byte : Opcode → UInt8
  | driveSet => 0x01 | drive => 0x02 | driveFourSet => 0x03 | driveFour => 0x04
  | setMotor => 0x05 | stop => 0x06 | wait => 0x07 | setSpeed => 0x08
  | jump => 0x10 | jumpIfFalse => 0x11 | repeatStart => 0x12 | repeatEnd => 0x13 | loopEnd => 0x14
  | pushConst => 0x20 | pushSensor => 0x21 | pushBool => 0x22 | pushTimer => 0x23
  | timerReset => 0x24
  | less => 0x30 | greater => 0x31 | equal => 0x32 | notEqual => 0x33 | atMost => 0x34
  | atLeast => 0x35
  | and => 0x38 | or => 0x39 | not => 0x3A
  | add => 0x40 | subtract => 0x41 | multiply => 0x42 | divide => 0x43
  | halt => 0xFF

def ofByte? (b : UInt8) : Option Opcode := all.find? (·.byte = b)

open OperandKind in
def operands : Opcode → List OperandKind
  | driveSet => [speed, speed]
  | drive => [speed, speed, millis]
  | driveFourSet => [speed, speed, speed, speed]
  | driveFour => [speed, speed, speed, speed, millis]
  | setMotor => [.byte, speed]
  | wait => [millis]
  | setSpeed => [.byte]
  | jump | jumpIfFalse | loopEnd => [address]
  | repeatStart => [count]
  | pushConst => [word]
  | pushSensor | pushBool => [.byte]
  | _ => []

/-- The encoded length: one byte for the opcode, and its operands. -/
def size (op : Opcode) : Nat := 1 + OperandKind.totalWidth op.operands

def mnemonic : Opcode → String
  | driveSet => "DRIVE_SET" | drive => "DRIVE" | driveFourSet => "DRIVE4_SET"
  | driveFour => "DRIVE4" | setMotor => "SET_MOTOR" | stop => "STOP" | wait => "WAIT"
  | setSpeed => "SET_SPEED"
  | jump => "JUMP" | jumpIfFalse => "JUMP_IF_F" | repeatStart => "REPEAT_START"
  | repeatEnd => "REPEAT_END" | loopEnd => "LOOP_END"
  | pushConst => "PUSH_CONST" | pushSensor => "PUSH_SENSOR" | pushBool => "PUSH_BOOL"
  | pushTimer => "PUSH_TIMER" | timerReset => "TIMER_RESET"
  | less => "CMP_LT" | greater => "CMP_GT" | equal => "CMP_EQ" | notEqual => "CMP_NEQ"
  | atMost => "CMP_LTE" | atLeast => "CMP_GTE"
  | and => "AND" | or => "OR" | not => "NOT"
  | add => "ADD" | subtract => "SUB" | multiply => "MUL" | divide => "DIV"
  | halt => "END"

end Opcode

/-- A word as two bytes, the high one first. -/
def wordBytes (w : UInt16) : List UInt8 := [(w.toNat / 256).toUInt8, (w.toNat % 256).toUInt8]

def wordOfBytes (high low : UInt8) : UInt16 := (256 * high.toNat + low.toNat).toUInt16

inductive Operand where
  | speed (value : Int8)
  | byte (value : UInt8)
  | word (value : UInt16)
  | address (value : UInt16)
  | count (value : UInt16)
  | millis (value : UInt16)
  deriving DecidableEq, Repr

namespace Operand

def kind : Operand → OperandKind
  | speed _ => .speed
  | byte _ => .byte
  | word _ => .word
  | address _ => .address
  | count _ => .count
  | millis _ => .millis

def encode : Operand → List UInt8
  | speed v => [v.toUInt8]
  | byte v => [v]
  | word v | address v | count v | millis v => wordBytes v

/-- An operand of a kind from the front of some bytes. -/
def read? : OperandKind → List UInt8 → Option (Operand × List UInt8)
  | .speed, b :: rest => some (speed b.toInt8, rest)
  | .byte, b :: rest => some (byte b, rest)
  | .word, a :: b :: rest => some (word (wordOfBytes a b), rest)
  | .address, a :: b :: rest => some (address (wordOfBytes a b), rest)
  | .count, a :: b :: rest => some (count (wordOfBytes a b), rest)
  | .millis, a :: b :: rest => some (millis (wordOfBytes a b), rest)
  | _, _ => none

/-- Operands of several kinds in a row. -/
def readAll? : List OperandKind → List UInt8 → Option (List Operand × List UInt8)
  | [], bytes => some ([], bytes)
  | k :: kinds, bytes => do
    let (operand, rest) ← read? k bytes
    let (operands, rest) ← readAll? kinds rest
    return (operand :: operands, rest)

/-- Constants are signed on the runner. -/
def text : Operand → String
  | speed v => toString v.toInt
  | byte v => toString v.toNat
  | word v => toString v.toInt16.toInt
  | address v => "@" ++ Text.offset v.toNat
  | count v => "x" ++ toString v.toNat
  | millis v => toString v.toNat ++ "ms"

end Operand

structure Instruction where
  opcode : Opcode
  operands : List Operand
  deriving DecidableEq, Repr

namespace Instruction

def encode (i : Instruction) : List UInt8 := i.opcode.byte :: i.operands.flatMap Operand.encode

/-- The operands are those that the opcode takes. -/
def WellFormed (i : Instruction) : Prop := i.operands.map Operand.kind = i.opcode.operands

instance (i : Instruction) : Decidable i.WellFormed := inferInstanceAs (Decidable (_ = _))

/-- Where a jump goes. -/
def target? (i : Instruction) : Option Nat :=
  i.operands.findSome? fun
    | .address a => some a.toNat
    | _ => none

end Instruction

end RobotBlocks
