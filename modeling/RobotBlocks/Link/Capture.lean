import RobotBlocks.Link.Frame
import RobotBlocks.Link.Packet
import RobotBlocks.Listing

/-! The report on a captured byte stream: its packets, and a listing of each program sent. -/

namespace RobotBlocks

/-- The receiver of packets: the program so far, and how many were completed. -/
structure Receiver where
  program : Array UInt8
  uploads : Nat
  deriving DecidableEq, Repr

namespace Receiver

def new : Receiver := ⟨#[], 0⟩

def receive (r : Receiver) (p : Packet) : Receiver :=
  match p.command with
  | .opening => { r with program := #[] }
  | .chunk => { r with program := r.program ++ p.payload }
  | .closing => { r with uploads := r.uploads + 1 }
  | _ => r

/-- What is printed for a packet that has been received. -/
def report (r : Receiver) (p : Packet) : String :=
  let program := if p.command = .closing then
      listing r.program.toList ("upload " ++ toString r.uploads)
    else ""
  p.text ++ "\n" ++ program

/-- Receives a frame and gives what is printed for it. -/
def frame (r : Receiver) : Frame.Result → String × Receiver
  | .error e => ("!! " ++ e.message ++ "\n", r)
  | .ok bytes => match Packet.parse? bytes with
    | none => ("?? unknown packet " ++ Text.byteList bytes ++ "\n", r)
    | some p =>
      let r := r.receive p
      (r.report p, r)

/-- Receives frames; `done` holds what was printed, last first. -/
def frames : List Frame.Result → Receiver → List String → List String
  | [], _, done => done.reverse
  | f :: rest, r, done =>
    let (text, r) := r.frame f
    frames rest r (text :: done)

end Receiver

/-- The report on a capture. -/
def captureReport (capture : List UInt8) : String :=
  String.join (Receiver.frames (Frame.decodeAll capture) .new [])

end RobotBlocks
