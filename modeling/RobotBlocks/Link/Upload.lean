import RobotBlocks.Chunks
import RobotBlocks.CodeBuffer
import RobotBlocks.IoFault
import RobotBlocks.Link.Frame
import RobotBlocks.Link.Packet
import RobotBlocks.Link.Pacing

/-! Paced uploads over a link that may fail. An upload is a plan of steps; the first packet that
cannot be sent ends it. The link is whatever bytes go out through: a port of the system, or a
transport in memory over which all that happens is kept. -/

namespace RobotBlocks

/-- The most program bytes in one packet. -/
def chunkSize : Nat := 18

/-- How far the last upload got. -/
inductive UploadState where
  | idle | begun | transferring | ended
  deriving DecidableEq, Repr

def UploadState.name : UploadState → String
  | idle => "idle"
  | begun => "begun"
  | transferring => "transferring"
  | ended => "ended"

inductive LinkError where
  | transport (command : Command) (fault : IoFault)
  | programTooLarge (length : Nat)
  deriving DecidableEq, Repr

def LinkError.message : LinkError → String
  | transport command fault => "failed to send " ++ command.name ++ " packet: " ++ fault.message
  | programTooLarge n =>
    "program is " ++ toString n ++ " bytes; the runner accepts at most " ++ toString maxProgram

/-- What is reported during an upload. -/
inductive LinkEvent where
  | starting (bytes chunks : Nat)
  | sentChunk (progress : Bool) (index total : Nat)
  | complete (bytes chunks : Nat)
  | sendFailed (fault : IoFault) (command : Command) (state : UploadState)
  deriving DecidableEq, Repr

def LinkEvent.text : LinkEvent → String
  | starting bytes chunks =>
    "INFO starting upload bytes=" ++ toString bytes ++ " chunks=" ++ toString chunks
  | sentChunk progress index total =>
    (if progress then "INFO" else "DEBUG") ++ " sent chunk " ++ toString index ++ "/"
      ++ toString total
  | complete bytes chunks =>
    "INFO upload complete bytes=" ++ toString bytes ++ " chunks=" ++ toString chunks
  | sendFailed fault command state =>
    "ERROR send failed: " ++ fault.message ++ " packet=" ++ command.name ++ " state=" ++ state.name

inductive Step where
  | send (packet : Packet)
  | pause (ms : Nat)
  | enter (state : UploadState)
  | log (event : LinkEvent)
  deriving DecidableEq, Repr

/-- The chunks of a program, in the order they are sent. -/
def programChunks (program : List UInt8) : List (List UInt8) := chunksOf chunkSize program

/-- How many chunks are announced for a program. -/
def chunkTotal (program : List UInt8) : Nat := chunkCount program.length chunkSize

namespace Step

def chunkSteps (pacing : Pacing) (total : Nat) (chunk : List UInt8) (index : Nat) : List Step :=
  [send ⟨.chunk, chunk⟩, pause pacing.interPacket,
    log (.sentChunk (pacing.reports index total) index total)]

/-- The steps of an upload. -/
def plan (pacing : Pacing) (program : List UInt8) : List Step :=
  let total := chunkTotal program
  [log (.starting program.length total), send (.bare .opening), enter .begun, pause pacing.settle,
      enter .transferring]
    ++ ((programChunks program).zipIdx 1).flatMap
      (fun (chunk, i) => chunkSteps pacing total chunk i)
    ++ [send (.bare .closing), enter .ended, pause pacing.settle,
      log (.complete program.length total)]

end Step

structure UploadReport where
  bytes : Nat
  chunks : Nat
  state : UploadState
  deriving DecidableEq, Repr

/-- What an upload asks of the system it runs on. A write takes some bytes from the front of what it
is given, or fails. -/
structure Link (m : Type → Type) where
  write : List UInt8 → m (Except IoFault Nat)
  flush : m (Except IoFault Unit)
  pause : Nat → m Unit
  log : LinkEvent → m Unit

namespace Link

variable {m : Type → Type} [Monad m] (link : Link m)

/-- Writes until all bytes are taken. A write that takes nothing is a failure, so the number of
bytes bounds the turns. -/
@[specialize] def writeAll : Nat → List UInt8 → m (Except IoFault Unit)
  | _, [] => return .ok ()
  | 0, _ :: _ => return .error .nothingTaken
  | turns + 1, bytes => do
    match ← link.write bytes with
    | .error fault => return .error fault
    | .ok 0 => return .error .nothingTaken
    | .ok n => writeAll turns (bytes.drop n)

/-- Writes a packet's frame and flushes it. -/
@[specialize] def sendFrame (frame : List UInt8) : m (Except IoFault Unit) := do
  match ← link.writeAll frame.length frame with
  | .error fault => return .error fault
  | .ok () => link.flush

/-- Runs steps until one fails, and gives the state that is left. -/
@[specialize] def run : List Step → UploadState → m (Except LinkError Unit × UploadState)
  | [], state => return (.ok (), state)
  | .log event :: rest, state => do
    link.log event
    run rest state
  | .pause ms :: rest, state => do
    link.pause ms
    run rest state
  | .enter next :: rest, _ => run rest next
  | .send packet :: rest, state => do
    match ← link.sendFrame (Frame.encode packet.toBytes) with
    | .ok () => run rest state
    | .error fault => do
      link.log (.sendFailed fault packet.command state)
      return (.error (.transport packet.command fault), state)

/-- Sends a whole program. One that is too long is refused before anything is sent. -/
@[specialize] def upload (pacing : Pacing) (program : List UInt8) :
    m (Except LinkError UploadReport × UploadState) := do
  if maxProgram < program.length then
    return (.error (.programTooLarge program.length), .idle)
  else
    let (result, state) ← link.run (Step.plan pacing program) .idle
    return (result.map fun _ => ⟨program.length, chunkTotal program, state⟩, state)

/-- Sends one command without a payload. It leaves the state of the last upload. -/
@[specialize] def command (c : Command) (state : UploadState) :
    m (Except LinkError Unit × UploadState) :=
  link.run [.send (.bare c)] state

end Link

/-- What can be seen of an upload from outside, in order. -/
inductive Effect where
  | wrote (bytes : List UInt8)
  | flushed
  | paused (ms : Nat)
  | logged (event : LinkEvent)
  deriving DecidableEq, Repr

/-- A byte sink in memory. -/
structure Transport (σ : Type) where
  write : σ → List UInt8 → Except IoFault Nat × σ
  flush : σ → Except IoFault Unit × σ

structure Uploader (σ : Type) where
  transport : σ
  state : UploadState

/-- The end of an operation: its result, the uploader after it, and its effects. -/
structure Outcome (σ α : Type) where
  result : Except LinkError α
  uploader : Uploader σ
  effects : List Effect

namespace Transport

variable {σ α : Type} (t : Transport σ)

/-- The link over a transport. It keeps the effects so far, last first; a pause is only noted. -/
def link : Link (StateM (σ × List Effect)) where
  write bytes := fun (s, done) =>
    match t.write s bytes with
    | (.error fault, s) => (.error fault, s, done)
    | (.ok n, s) => (.ok n, s, .wrote (bytes.take n) :: done)
  flush := fun (s, done) =>
    match t.flush s with
    | (.error fault, s) => (.error fault, s, done)
    | (.ok (), s) => (.ok (), s, .flushed :: done)
  pause ms := modify fun (s, done) => (s, .paused ms :: done)
  log event := modify fun (s, done) => (s, .logged event :: done)

/-- The outcome of an operation on the link, when some effects came before it. -/
def outcome (act : StateM (σ × List Effect) (Except LinkError α × UploadState)) (s : σ)
    (done : List Effect) : Outcome σ α :=
  let ((result, state), s, done) := act.run (s, done)
  ⟨result, ⟨s, state⟩, done.reverse⟩

def upload (pacing : Pacing) (program : List UInt8) (u : Uploader σ) : Outcome σ UploadReport :=
  outcome (t.link.upload pacing program) u.transport []

def command (c : Command) (u : Uploader σ) : Outcome σ Unit :=
  outcome (t.link.command c u.state) u.transport []

end Transport

end RobotBlocks
