import RobotBlocks.Instruction
import RobotBlocks.Rounding

/-! A buffer of program bytes. Jumps forward are written before their target is known: a slot is
reserved for the address and resolved later. -/

namespace RobotBlocks

/-- The greatest length of a program, and the greatest address. -/
def maxProgram : Nat := 65535

structure CodeBuffer where
  code : Array UInt8
  unresolved : Nat
  deriving DecidableEq, Repr

/-- A reserved address, by the offset of its high byte. -/
structure Slot where
  offset : Nat
  deriving DecidableEq, Repr

/-- Why a buffer gives no program. -/
inductive FinishError where
  | unresolved (count : Nat)
  | tooLarge (length : Nat)
  deriving DecidableEq, Repr

/-- An address as a word. One that does not fit is written as the greatest. -/
def addressWord (n : Nat) : UInt16 := (min n maxProgram).toUInt16

namespace CodeBuffer

def empty : CodeBuffer := ⟨#[], 0⟩

/-- The offset of the next byte. -/
def pc (b : CodeBuffer) : Nat := b.code.size

def emit (b : CodeBuffer) (byte : UInt8) : CodeBuffer := { b with code := b.code.push byte }

def emitAll (b : CodeBuffer) (bytes : List UInt8) : CodeBuffer := bytes.foldl emit b

def emitOpcode (b : CodeBuffer) (op : Opcode) : CodeBuffer := b.emit op.byte

def emitOperand (b : CodeBuffer) (operand : Operand) : CodeBuffer := b.emitAll operand.encode

def emitInstruction (b : CodeBuffer) (op : Opcode) (operands : List Operand) : CodeBuffer :=
  b.emitAll (Instruction.encode ⟨op, operands⟩)

def emitWord (b : CodeBuffer) (w : UInt16) : CodeBuffer := b.emitAll (wordBytes w)

def emitAddress (b : CodeBuffer) (address : Nat) : CodeBuffer := b.emitWord (addressWord address)

/-- Reserves two bytes for an address. -/
def reserve (b : CodeBuffer) : Slot × CodeBuffer :=
  (⟨b.pc⟩, ⟨(b.code.push 0).push 0, b.unresolved + 1⟩)

/-- Writes an address into a slot, which must not have been resolved before. -/
def resolve (b : CodeBuffer) (slot : Slot) (address : Nat) : CodeBuffer :=
  let w := (addressWord address).toNat
  ⟨(b.code.setIfInBounds slot.offset (w / 256).toUInt8).setIfInBounds (slot.offset + 1)
    (w % 256).toUInt8, b.unresolved - 1⟩

/-- Points a slot at the next byte. -/
def resolveHere (b : CodeBuffer) (slot : Slot) : CodeBuffer := b.resolve slot b.pc

/-- The finished program. That no slot is left unresolved is an assertion on the caller, checked
first and reported as `unresolved`. Where assertions are off there is no such result: the program is
given out with zeros in the slot, and only its length is checked. -/
def finish (b : CodeBuffer) : Except FinishError (List UInt8) :=
  if b.unresolved ≠ 0 then .error (.unresolved b.unresolved)
  else if maxProgram < b.pc then .error (.tooLarge b.pc)
  else .ok b.code.toList

end CodeBuffer

end RobotBlocks
