import RobotBlocks.Text

/-! Packets: a command byte and its payload. -/

namespace RobotBlocks

/-- `opening` starts a new program and drops a partial one; `closing` ends it; `chunk` carries a
part. -/
inductive Command where
  | opening | closing | run | stop | clear | chunk
  deriving DecidableEq, Repr

namespace Command

def all : List Command := [opening, closing, run, stop, clear, chunk]

def byte : Command → UInt8
  | opening => 0xA0
  | closing => 0xA1
  | run => 0xA2
  | stop => 0xA3
  | clear => 0xA4
  | chunk => 0xB0

def ofByte? (b : UInt8) : Option Command := all.find? (·.byte = b)

def name : Command → String
  | opening => "BEGIN"
  | closing => "END"
  | run => "RUN"
  | stop => "STOP"
  | clear => "CLEAR"
  | chunk => "CHUNK"

end Command

structure Packet where
  command : Command
  payload : List UInt8
  deriving DecidableEq, Repr

namespace Packet

def bare (command : Command) : Packet := ⟨command, []⟩

def toBytes (p : Packet) : List UInt8 := p.command.byte :: p.payload

def parse? : List UInt8 → Option Packet
  | [] => none
  | b :: payload => (Command.ofByte? b).map (⟨·, payload⟩)

def text (p : Packet) : String :=
  if p.payload.isEmpty then p.command.name
  else p.command.name ++ " [" ++ toString p.payload.length ++ " bytes] " ++ Text.byteList p.payload

end Packet

end RobotBlocks
