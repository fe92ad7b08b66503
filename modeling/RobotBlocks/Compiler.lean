import RobotBlocks.Block.Json
import RobotBlocks.Chunks
import RobotBlocks.Generator
import RobotBlocks.IoFault

/-! Compiling a workspace: the program under its first start block, with diagnostics for the blocks
that were skipped. -/

namespace RobotBlocks

/-- Why there is no program. -/
inductive CompileError where
  | noStartBlock
  | programTooLarge (length : Nat)
  | unresolvedSlots (count : Nat)
  | unreadable (fault : IoFault)
  | malformed (fault : Json.Fault)
  deriving DecidableEq, Repr

namespace CompileError

def ofFinish : FinishError → CompileError
  | .unresolved n => unresolvedSlots n
  | .tooLarge n => programTooLarge n

def message : CompileError → String
  | noStartBlock => "no \"start_hat\" block in the workspace"
  | programTooLarge n =>
    "program is " ++ toString n ++ " bytes; the runner addresses at most " ++ toString maxProgram
  | unresolvedSlots n => toString n ++ " unresolved addresses"
  | unreadable fault => "failed to read workspace: " ++ fault.message
  | malformed _ => "malformed workspace JSON"

end CompileError

/-- A block that was skipped because its kind is unknown. -/
structure Diagnostic where
  kind : String
  deriving DecidableEq, Repr

def Diagnostic.message (d : Diagnostic) : String := "unknown block \"" ++ d.kind ++ "\" skipped"

/-- What the compiler reports while it works. -/
inductive CompileEvent where
  | compiling (file : String)
  | nothingAttached
  | compilingChain (kinds : List String)
  | skipped (kind : String)
  | finished (bytes blocks diagnostics : Nat)
  deriving DecidableEq, Repr

def chainText (kinds : List String) : String := " -> ".intercalate kinds

/-- A log line: level, message and named values. -/
def CompileEvent.text : CompileEvent → String
  | compiling file => "INFO compiling workspace input=" ++ file
  | nothingAttached => "DEBUG start block has no blocks attached"
  | compilingChain kinds => "DEBUG compiling block chain chain=" ++ chainText kinds
  | skipped kind => "WARN unknown block skipped block=" ++ kind
  | finished bytes blocks diagnostics =>
    "INFO compilation finished bytes=" ++ toString bytes ++ " blocks=" ++ toString blocks
      ++ " diagnostics=" ++ toString diagnostics

/-- The kind of the block where a program starts. -/
def startKind : String := "start_hat"

def Workspace.start? (w : Workspace) : Option Block := (w.roots startKind).head?

/-- A code generator keeps its buffer, the diagnostics not yet taken, and the kinds of the last
chain. -/
structure Generator where
  buffer : CodeBuffer
  diagnostics : List Diagnostic
  chain : List String

namespace Generator

def new : Generator := ⟨.empty, [], []⟩

def addStatements (g : Generator) (statements : List Statement) : Generator :=
  { g with
    buffer := Statement.emitChain statements g.buffer
    diagnostics := g.diagnostics ++ (Statement.chainUnknowns statements).map Diagnostic.mk }

/-- The statements of a block and those behind it. -/
def statementsOf : Option Block → List Statement
  | some b => b.reading.chain.get
  | none => []

def compileChain (g : Generator) (b : Option Block) : Generator := g.addStatements (statementsOf b)

/-- Compiles the program of a workspace and leaves the buffer empty. Without a start block nothing
changes. -/
def generate (g : Generator) (w : Workspace) : Except CompileError (List UInt8) × Generator :=
  match w.start? with
  | none => (.error .noStartBlock, g)
  | some start =>
    let compiled := g.addStatements (Block.readingNext start.next)
    ((compiled.buffer.emitOpcode .halt).finish.mapError CompileError.ofFinish,
      { compiled with buffer := .empty, chain := Block.nextKinds start.next })

def takeDiagnostics (g : Generator) : List Diagnostic × Generator :=
  (g.diagnostics, { g with diagnostics := [] })

/-- What is reported while statements are compiled. -/
def skipEvents (statements : List Statement) : List CompileEvent :=
  (Statement.chainUnknowns statements).map .skipped

/-- What is reported while a workspace is compiled. -/
def events (w : Workspace) : List CompileEvent :=
  match w.start? with
  | none => []
  | some start =>
    let kinds := Block.nextKinds start.next
    (if kinds.isEmpty then .nothingAttached else .compilingChain kinds)
      :: skipEvents (Block.readingNext start.next)

end Generator

/-- A compiled program. -/
structure CompileOutput where
  program : List UInt8
  diagnostics : List Diagnostic
  chain : List String
  deriving DecidableEq, Repr

/-- The number of chunks of a size that some bytes fill; none for size zero. -/
def chunkCount? (length size : Nat) : Option Nat :=
  if size = 0 then none else some (chunkCount length size)

def compile (w : Workspace) : Except CompileError CompileOutput :=
  let (result, g) := Generator.new.generate w
  result.map fun program => ⟨program, g.diagnostics, g.chain⟩

def compileText (text : String) : Except CompileError CompileOutput :=
  match Workspace.parse text with
  | .error fault => .error (.malformed fault)
  | .ok w => compile w

/-- The text of a file's bytes. -/
def textOf? (bytes : List UInt8) : Option String := String.fromUTF8? ⟨bytes.toArray⟩

/-- A file's content as a workspace. -/
def workspaceOf (content : Except IoFault (List UInt8)) : Except CompileError Workspace :=
  match content with
  | .error fault => .error (.unreadable fault)
  | .ok bytes => match textOf? bytes with
    | none => .error (.unreadable .notText)
    | some text => (Workspace.parse text).mapError .malformed

/-- Compiles a file and gives what is reported on the way. -/
def compileFile (name : String) (content : Except IoFault (List UInt8)) (verbose : Bool) :
    Except CompileError CompileOutput × List CompileEvent :=
  match workspaceOf content with
  | .error e => (.error e, [.compiling name])
  | .ok w =>
    let result := compile w
    let closing := match result with
      | .ok out =>
        if verbose then
          [.finished out.program.length out.chain.length out.diagnostics.length]
        else []
      | .error _ => []
    (result, .compiling name :: Generator.events w ++ closing)

end RobotBlocks
