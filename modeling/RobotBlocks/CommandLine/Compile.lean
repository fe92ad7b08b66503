import RobotBlocks.CommandLine.Host
import RobotBlocks.Chunks
import RobotBlocks.Listing

/-! The command that compiles a workspace file. -/

namespace RobotBlocks.CommandLine.Compile

def specs : List OptionSpec :=
  [⟨"output", some 'o', .path⟩, ⟨"hex", none, .flag⟩, ⟨"disasm", none, .flag⟩,
    ⟨"verbose", some 'v', .flag⟩, ⟨"help", some 'h', .help⟩, ⟨"version", some 'V', .version⟩]

structure Options where
  input : String
  output : Option String
  hex : Bool
  disasm : Bool
  verbose : Bool
  deriving DecidableEq, Repr

def options (args : List String) : Except Stop Options := do
  let (p, _) ← readArguments specs (.atMost 1) args .empty
  match p.positionals with
  | [input] =>
    return ⟨input, p.value? "output", p.hasFlag "hex", p.hasFlag "disasm", p.hasFlag "verbose"⟩
  | _ => throw .usage

/-- The bytes of a program as hexadecimal lines of 16 bytes. -/
def hexLines (program : List UInt8) : String :=
  String.join ((chunksOf 16 program).map fun line => Text.hex true line ++ "\n")

def chainLine (chain : List String) : String :=
  "Blocks: " ++ (if chain.isEmpty then "(none)" else chainText chain) ++ "\n"

variable {m : Type → Type} [Monad m]

def run (host : Host m) (o : Options) : Run m Unit := do
  let content ← host.read o.input
  let out ← orFail (.ofCompile "compilation failed") (compileFile o.input content o.verbose).1
  let length := toString out.program.length
  if o.verbose then host.printError (chainLine out.chain ++ "Compiled " ++ length ++ " bytes\n")
  if let some path := o.output then
    orFail (.ofIo ("failed to write " ++ path)) (← host.create path out.program)
    host.print ("Wrote " ++ length ++ " bytes to " ++ path ++ "\n")
  if o.hex || (o.output.isNone && !o.disasm) then host.print (hexLines out.program)
  if o.disasm then host.print (listing out.program o.input)

def usage : String := "usage: botc [-o OUT] [--hex] [--disasm] [-v] FILE"

/-- Runs the command to its exit code. -/
def start (host : Host m) (args : List String) : m Nat :=
  match options args with
  | .error stop => stop.exit host "botc" usage
  | .ok o => (run host o).exit host

end RobotBlocks.CommandLine.Compile
