import RobotBlocks.Instruction

/-! Decoding bytes into instructions, and the listing of a program. -/

namespace RobotBlocks

/-- An instruction and the offset of its first byte. -/
structure Line where
  offset : Nat
  instruction : Instruction
  deriving DecidableEq, Repr

/-- Why bytes are no instruction. -/
inductive DecodeError where
  | unknownOpcode (offset : Nat) (byte : UInt8)
  | truncated (offset : Nat) (opcode : Opcode)
  deriving DecidableEq, Repr

namespace DecodeError

def offset : DecodeError → Nat
  | unknownOpcode offset _ | truncated offset _ => offset

def message : DecodeError → String
  | unknownOpcode offset b =>
    "unknown opcode 0x" ++ String.ofList (Text.hexByte true b) ++ " at offset " ++ toString offset
  | truncated offset op =>
    op.mnemonic ++ " at offset " ++ toString offset ++ " is missing operand bytes"

end DecodeError

namespace Line

/-- The instruction with a given first byte, and the bytes behind it. -/
def read (offset : Nat) (first : UInt8) (rest : List UInt8) :
    Except DecodeError (Line × List UInt8) :=
  match Opcode.ofByte? first with
  | none => .error (.unknownOpcode offset first)
  | some op => match Operand.readAll? op.operands rest with
    | none => .error (.truncated offset op)
    | some (operands, rest) => .ok (⟨offset, op, operands⟩, rest)

/-- The encoded length. -/
def size (l : Line) : Nat := l.instruction.opcode.size

def text (l : Line) : String :=
  Text.offset l.offset ++ "  " ++ Text.padRight 12 l.instruction.opcode.mnemonic
    ++ String.join (l.instruction.operands.map fun o => " " ++ o.text)

end Line

/-- Decodes instruction after instruction; `done` holds the earlier ones, last first. An instruction
takes at least a byte, so the number of bytes bounds the turns. -/
def decodeFrom : Nat → Nat → List UInt8 → List Line → Except DecodeError (List Line)
  | 0, _, _, done | _, _, [], done => .ok done.reverse
  | turns + 1, offset, b :: rest, done =>
    match Line.read offset b rest with
    | .error e => .error e
    | .ok (line, rest) => decodeFrom turns (offset + line.size) rest (line :: done)

/-- Decodes a whole program. -/
def decode (code : List UInt8) : Except DecodeError (List Line) := decodeFrom code.length 0 code []

/-- Decodes the instruction at an offset; nothing is there at or past the end. -/
def decodeAt? (code : List UInt8) (offset : Nat) : Option (Except DecodeError Line) :=
  match code.drop offset with
  | [] => none
  | b :: rest => some ((Line.read offset b rest).map Prod.fst)

/-- The lines of a listing. Bytes that cannot be decoded are shown as they are, on a last line. -/
def listingFrom : Nat → Nat → List UInt8 → List String → List String
  | 0, _, _, done | _, _, [], done => done.reverse
  | turns + 1, offset, b :: rest, done =>
    match Line.read offset b rest with
    | .error e =>
      ((Text.offset offset ++ "  ?? " ++ e.message ++ ": " ++ Text.byteList (b :: rest))
        :: done).reverse
    | .ok (line, rest) => listingFrom turns (offset + line.size) rest (line.text :: done)

/-- The listing of a program under a name, each line with its end. -/
def listing (code : List UInt8) (name : String) : String :=
  let title := "== " ++ name ++ " (" ++ toString code.length ++ " bytes) =="
  String.join ((title :: listingFrom code.length 0 code []).map (· ++ "\n"))

end RobotBlocks
