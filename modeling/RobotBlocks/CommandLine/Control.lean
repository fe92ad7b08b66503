import RobotBlocks.CommandLine.Host
import RobotBlocks.Link.Capture

/-! The command that sends programs and commands to a robot, and reports on captured streams. -/

namespace RobotBlocks.CommandLine.Control

def specs : List OptionSpec :=
  [⟨"port", none, .path⟩, ⟨"tcp", none, .text⟩, ⟨"config", none, .path⟩,
    ⟨"settle-ms", none, .milliseconds⟩, ⟨"inter-packet-ms", none, .milliseconds⟩,
    ⟨"verbose", some 'v', .flag⟩, ⟨"help", some 'h', .help⟩, ⟨"version", some 'V', .version⟩]

inductive Action where
  | upload (file : String)
  | send (command : Command)
  | decode (file : String)
  deriving DecidableEq, Repr

structure Options where
  port : Option String
  tcp : Option String
  config : Option String
  settle : Option Nat
  interPacket : Option Nat
  verbose : Bool
  action : Action
  deriving DecidableEq, Repr

/-- The positional arguments of a command. -/
def operands (count : Nat) (args : List String) : Except Stop (List String) := do
  let (p, _) ← readArguments [⟨"help", some 'h', .help⟩] (.atMost count) args .empty
  if p.positionals.length = count then return p.positionals else throw .usage

def fileAction (action : String → Action) (args : List String) : Except Stop Action := do
  match ← operands 1 args with
  | [file] => return action file
  | _ => throw .usage

def bareAction (command : Command) (args : List String) : Except Stop Action := do
  discard (operands 0 args)
  return .send command

/-- Help is given on all commands or on one of them. -/
def helpOn : List String → Except Stop Action
  | [] => throw .help
  | [topic] =>
    if topic ∈ ["upload", "run", "stop", "clear", "decode", "help"] then throw .help
    else throw .usage
  | _ => throw .usage

def action : List String → Except Stop Action
  | "upload" :: args => fileAction .upload args
  | "decode" :: args => fileAction .decode args
  | "run" :: args => bareAction .run args
  | "stop" :: args => bareAction .stop args
  | "clear" :: args => bareAction .clear args
  | "help" :: topics => helpOn topics
  | _ => throw .usage

def options (args : List String) : Except Stop Options := do
  let (p, rest) ← readArguments specs .command args .empty
  let a ← action rest
  if (p.value? "port").isSome ∧ (p.value? "tcp").isSome then throw .usage
  return ⟨p.value? "port", p.value? "tcp", p.value? "config", p.milliseconds? "settle-ms",
    p.milliseconds? "inter-packet-ms", p.hasFlag "verbose", a⟩

variable {m : Type → Type} [Monad m]

/-- The pacing of a configuration file's content. -/
def pacingOf (path : String) (content : Except IoFault (List UInt8)) : Except Failure Pacing := do
  let unreadable := Failure.ofIo ("failed to read config " ++ path)
  let bytes ← content.mapError unreadable
  match textOf? bytes with
  | none => throw (unreadable .notText)
  | some text => (Pacing.parse text).mapError fun _ =>
    ⟨["in config " ++ path, "invalid link configuration:"], true⟩

/-- The pacing: from the configuration, with the options put over it. -/
def pacing (host : Host m) (o : Options) : Run m Pacing := do
  let base ← match o.config with
    | none => pure Pacing.default
    | some path => do orFail id (pacingOf path (← host.read path))
  return { base with
    settle := o.settle.getD base.settle
    interPacket := o.interPacket.getD base.interPacket }

def openTransport (host : Host m) (o : Options) : Run m Unit := do
  match o.tcp, o.port with
  | some address, _ => do
    orFail (.ofIo ("failed to connect to " ++ address)) (← host.connect address)
  | none, some port => do orFail (.ofIo ("failed to open " ++ port)) (← host.openPort port)
  | none, none => throw ⟨["no transport given; pass --port or --tcp"], false⟩

/-- The last part of a path. -/
def fileName (path : String) : List Char :=
  let parts := (path.splitOn "/").filter fun part => part ≠ "" ∧ part ≠ "."
  ((parts.getLast?).getD "").toList

/-- What follows the last point of a file's name. A point in front starts the name itself. -/
def extension? (path : String) : Option String :=
  let name := fileName path
  if name = "..".toList then none
  else
    let reversed := name.reverse
    match reversed.dropWhile (· ≠ '.') with
    | [] | [_] => none
    | _ => some (String.ofList (reversed.takeWhile (· ≠ '.')).reverse)

/-- A workspace is compiled; any other file is the program itself. -/
def program (host : Host m) (path : String) (verbose : Bool) : Run m (List UInt8) := do
  let content ← host.read path
  if extension? path = some "json" then
    let out ← orFail (.ofCompile ("failed to compile " ++ path))
      (compileFile path content verbose).1
    return out.program
  else orFail (.ofIo ("failed to read " ++ path)) content

def uploadFile (host : Host m) (o : Options) (pacing : Pacing) (path : String) : Run m Unit := do
  let code ← program host path o.verbose
  let (result, state) ← host.upload pacing code
  let stopped := "upload stopped while " ++ state.name
  let report ← orFail (fun e => (Failure.ofLink e).within stopped) result
  host.print ("Uploaded " ++ toString report.bytes ++ " bytes in " ++ toString report.chunks
    ++ " chunks\n")

def decodeFile (host : Host m) (path : String) : Run m Unit := do
  let capture ← orFail (.ofIo ("failed to read " ++ path)) (← host.read path)
  host.print (captureReport capture)

def run (host : Host m) (o : Options) : Run m Unit := do
  match o.action with
  | .decode file => decodeFile host file
  | .upload file => do
    let pacing ← pacing host o
    openTransport host o
    uploadFile host o pacing file
  | .send command => do
    discard (pacing host o)
    openTransport host o
    orFail .ofLink (← host.command command)

def usage : String :=
  "usage: botlink [--port PATH | --tcp ADDR] [--config FILE] [--settle-ms MS]"
    ++ " [--inter-packet-ms MS] [-v] (upload FILE | run | stop | clear | decode FILE)"

/-- Runs the command to its exit code. -/
def start (host : Host m) (args : List String) : m Nat :=
  match options args with
  | .error stop => stop.exit host "botlink" usage
  | .ok o => (run host o).exit host

end RobotBlocks.CommandLine.Control
