import RobotBlocks.CommandLine.Compile
import RobotBlocks.CommandLine.Control

/-! The command lines on a real system. The first argument names the command. -/

namespace RobotBlocks.CommandLine

/-- The fault that a system's error stands for. -/
def faultOf : IO.Error → IoFault
  | .noFileOrDirectory .. => .notFound
  | .inappropriateType .. => .isDirectory
  | .resourceExhausted .. => .noSpace
  | e => .other (toString e)

def attempt {α : Type} (act : IO α) : IO (Except IoFault α) := do
  try return .ok (← act)
  catch e => return .error (faultOf e)

/-- A port as a link. What is logged is not shown. -/
def portLink (port : IO.FS.Handle) : Link IO where
  write bytes := attempt do
    port.write ⟨bytes.toArray⟩
    return bytes.length
  flush := attempt port.flush
  pause ms := IO.sleep ms.toUInt32
  log _ := return

/-- The link of a command that finds no open port. -/
def closedLink : Link IO where
  write _ := return .error .notFound
  flush := return .error .notFound
  pause _ := return
  log _ := return

/-- The link over the opened port. -/
def openLink (port : IO.Ref (Option IO.FS.Handle)) : IO (Link IO) := do
  return (← port.get).elim closedLink portLink

/-- The system as a host; `port` holds the opened port. -/
def systemHost (port : IO.Ref (Option IO.FS.Handle)) : Host IO where
  read path := attempt do return (← IO.FS.readBinFile path).toList
  create path bytes := attempt (IO.FS.writeBinFile path ⟨bytes.toArray⟩)
  openPort path := attempt do port.set (some (← IO.FS.Handle.mk path .readWrite))
  connect _ := return .error (.other "connections are not supported")
  upload pacing program := do (← openLink port).upload pacing program
  command c := do return (← (← openLink port).command c .idle).1
  print := IO.print
  printError := IO.eprint

end RobotBlocks.CommandLine

open RobotBlocks.CommandLine in
def main (args : List String) : IO UInt32 := do
  let host := systemHost (← IO.mkRef none)
  match args with
  | "botc" :: rest => return (← Compile.start host rest).toUInt32
  | "botlink" :: rest => return (← Control.start host rest).toUInt32
  | _ => do
    IO.eprint (Compile.usage ++ "\n" ++ Control.usage ++ "\n")
    return usageExit.toUInt32
