import RobotBlocks.CommandLine.Arguments
import RobotBlocks.Compiler
import RobotBlocks.Link.Upload

/-! What the command lines ask of the system they run on, and how they report a failure. -/

namespace RobotBlocks.CommandLine

/-- The system under a command. A port or connection, once opened, is where uploads and commands go.
-/
structure Host (m : Type → Type) where
  read : String → m (Except IoFault (List UInt8))
  create : String → List UInt8 → m (Except IoFault Unit)
  openPort : String → m (Except IoFault Unit)
  connect : String → m (Except IoFault Unit)
  upload : Pacing → List UInt8 → m (Except LinkError UploadReport × UploadState)
  command : Command → m (Except LinkError Unit)
  print : String → m Unit
  printError : String → m Unit

/-- A failure: what went wrong, and why, from the outside in. The wording of a fault in JSON text is
not reported; the report ends before it. -/
structure Failure where
  messages : List String
  inJson : Bool
  deriving DecidableEq, Repr

namespace Failure

def ofIo (context : String) (fault : IoFault) : Failure := ⟨[context, fault.message], false⟩

def ofCompile (context : String) : CompileError → Failure
  | .malformed fault => ⟨[context, CompileError.message (.malformed fault) ++ ":"], true⟩
  | .unreadable fault => ⟨[context, CompileError.message (.unreadable fault), fault.message], false⟩
  | e => ⟨[context, e.message], false⟩

def ofLink : LinkError → Failure
  | .transport command fault =>
    ⟨[LinkError.message (.transport command fault), fault.message], false⟩
  | e => ⟨[e.message], false⟩

def within (context : String) (f : Failure) : Failure :=
  { f with messages := context :: f.messages }

/-- The causes of a failure, one a line. They are numbered when there are several. -/
def causes (inJson : Bool) : List String → String
  | [] => ""
  | [cause] => if inJson then "    0: " ++ cause else "    " ++ cause ++ "\n"
  | several =>
    String.join (several.zipIdx.map fun (cause, i) => "    " ++ toString i ++ ": " ++ cause ++ "\n")

def report (f : Failure) : String :=
  match f.messages with
  | [] => ""
  | outer :: inner =>
    "Error: " ++ outer ++ "\n" ++
      (if inner.isEmpty then "" else "\nCaused by:\n" ++ causes f.inJson inner)

end Failure

/-- A command that may fail. -/
abbrev Run (m : Type → Type) := ExceptT Failure m

variable {m : Type → Type} [Monad m]

def orFail {α ε : Type} (failure : ε → Failure) (result : Except ε α) : Run m α :=
  ExceptT.mk (pure (result.mapError failure))

/-- Runs a command to its exit code, and reports its failure. -/
def Run.exit (host : Host m) (run : Run m Unit) : m Nat := do
  match ← run.run with
  | .ok () => return 0
  | .error f => do host.printError f.report; return 1

/-- The exit code of arguments that cannot be used. -/
def usageExit : Nat := 2

/-- Ends a command that does not run. -/
def Stop.exit (host : Host m) (name usage : String) : Stop → m Nat
  | .usage => do host.printError (usage ++ "\n"); return usageExit
  | .version => do host.print (name ++ " 0.1.0\n"); return 0
  | .help => do host.print (usage ++ "\n"); return 0

end RobotBlocks.CommandLine
