import RobotBlocks.Text

/-! Frames on a byte stream. A delimiter stands at both ends of a frame; delimiters and escapes
inside the packet are written as two bytes, so a delimiter never stands inside a frame. -/

namespace RobotBlocks.Frame

def delimiter : UInt8 := 0xC0

def escape : UInt8 := 0xDB

/-- Behind an escape, stands for a delimiter. -/
def escapedDelimiter : UInt8 := 0xDC

/-- Behind an escape, stands for an escape. -/
def escapedEscape : UInt8 := 0xDD

def stuffByte (b : UInt8) : List UInt8 :=
  if b = delimiter then [escape, escapedDelimiter]
  else if b = escape then [escape, escapedEscape]
  else [b]

def stuff (packet : List UInt8) : List UInt8 := packet.flatMap stuffByte

def encode (packet : List UInt8) : List UInt8 := delimiter :: stuff packet ++ [delimiter]

inductive Error where
  | invalidEscape (byte : UInt8)
  | danglingEscape
  | missingDelimiter
  | strayDelimiter (offset : Nat)
  deriving DecidableEq, Repr

def Error.message : Error → String
  | invalidEscape b => "invalid escape sequence 0xDB 0x" ++ String.ofList (Text.hexByte true b)
  | danglingEscape => "frame ended inside an escape sequence"
  | missingDelimiter => "frame is not enclosed in 0xC0 delimiters"
  | strayDelimiter offset => "delimiter inside frame body at offset " ++ toString offset

/-- The byte that a second byte of an escape sequence stands for. -/
def unescape? (b : UInt8) : Option UInt8 :=
  if b = escapedDelimiter then some delimiter
  else if b = escapedEscape then some escape
  else none

/-- Undoes the stuffing of a body that starts at `offset`; `done` holds the packet so far, last byte
first. -/
def unstuff (offset : Nat) (done : List UInt8) : List UInt8 → Except Error (List UInt8)
  | [] => .ok done.reverse
  | b :: rest =>
    if b = delimiter then .error (.strayDelimiter offset)
    else if b = escape then
      match rest with
      | [] => .error .danglingEscape
      | c :: rest => match unescape? c with
        | some plain => unstuff (offset + 2) (plain :: done) rest
        | none => .error (.invalidEscape c)
    else unstuff (offset + 1) (b :: done) rest

/-- The bytes between the outer delimiters. -/
def body? : List UInt8 → Option (List UInt8)
  | [] => none
  | b :: rest =>
    if b = delimiter ∧ rest.getLast? = some delimiter then some rest.dropLast else none

/-- Decodes exactly one frame. -/
def decode (frame : List UInt8) : Except Error (List UInt8) :=
  match body? frame with
  | none => .error .missingDelimiter
  | some body => unstuff 1 [] body

/-- A decoder of a stream: the bytes since the last delimiter, whether the last one was an escape,
and the first error among them. -/
structure Decoder where
  current : Array UInt8
  escaped : Bool
  error : Option Error
  deriving DecidableEq, Repr

abbrev Result := Except Error (List UInt8)

namespace Decoder

def new : Decoder := ⟨#[], false, none⟩

def pending (d : Decoder) : Nat := d.current.size

/-- What a delimiter completes. Empty frames are dropped. -/
def close (d : Decoder) : Option Result :=
  match d.error with
  | some e => some (.error e)
  | none =>
    if d.escaped then some (.error .danglingEscape)
    else if d.current.isEmpty then none
    else some (.ok d.current.toList)

/-- Takes a byte that is no delimiter. After an error the rest of the frame is ignored. -/
def take (d : Decoder) (b : UInt8) : Decoder :=
  if d.error.isSome then d
  else if d.escaped then
    match unescape? b with
    | some plain => { d with current := d.current.push plain, escaped := false }
    | none => { d with escaped := false, error := some (.invalidEscape b) }
  else if b = escape then { d with escaped := true }
  else { d with current := d.current.push b }

def pushByte (d : Decoder) (b : UInt8) : Option Result × Decoder :=
  if b = delimiter then (d.close, new) else (none, d.take b)

/-- Takes bytes one by one; `done` holds the earlier results, last first. -/
def pushFrom (done : List Result) : List UInt8 → Decoder → List Result × Decoder
  | [], d => (done.reverse, d)
  | b :: rest, d => match d.pushByte b with
    | (some r, d) => pushFrom (r :: done) rest d
    | (none, d) => pushFrom done rest d

/-- Takes bytes and gives the frames that they complete, in order. -/
def push (d : Decoder) (bytes : List UInt8) : List Result × Decoder := pushFrom [] bytes d

end Decoder

/-- All frames of a capture. -/
def decodeAll (bytes : List UInt8) : List Result := (Decoder.new.push bytes).1

end RobotBlocks.Frame
