import RobotBlocks.Block
import RobotBlocks.Json.Container
import RobotBlocks.Json.Writer

/-! Reading and writing blocks and workspaces as JSON. -/

namespace RobotBlocks

open Json

namespace FieldValue

/-- A number, truth value or string. Anything else is read whole before it is refused. -/
def read (bound depth : Nat) : Reader FieldValue := do
  let c ← Reader.peek
  if c = '"' then return text (← Reader.string)
  else if c = 't' ∨ c = 'f' then return flag (← Reader.flag)
  else if c = '-' ∨ c.isDigit then return number (← Reader.number).2
  else do
    Reader.any bound depth
    throw .mismatched

/-- An object of fields by name. -/
def readMap (bound : Nat) : (depth : Nat) → Reader (NameMap FieldValue none) :=
  Reader.nested Reader.mapOpens fun depth => Reader.map bound (read bound depth)

def write : FieldValue → List Char
  | number x => Writer.number x
  | flag b => Writer.flag b
  | text s => Writer.string s

def writeMembers (fields : NameMap FieldValue none) : List (List Char) :=
  fields.map fun (name, v) => Writer.member name v.write

def parse (text : String) : Except Fault FieldValue :=
  Reader.parse (fun bound => read bound Reader.maxDepth) text

end FieldValue

namespace ExtraState

def read (bound : Nat) : (depth : Nat) → Reader ExtraState :=
  Reader.nested Reader.recordOpens fun _ => Reader.record bound
    [ .of "elseIfCount" (Reader.natural UInt64.size)
        fun n s => { s with elseIfCount := n.toUInt64 },
      .of "hasElse" Reader.flag fun b s => { s with hasElse := b } ] [] ⟨0, false⟩

def write (s : ExtraState) : List Char :=
  Writer.object [Writer.member "elseIfCount" (Writer.natural s.elseIfCount.toNat),
    Writer.member "hasElse" (Writer.flag s.hasElse)]

end ExtraState

namespace LegacyShape

def read (bound : Nat) : (depth : Nat) → Reader LegacyShape :=
  Reader.nested Reader.recordOpens fun depth =>
    let value := Reader.optional (FieldValue.read bound depth)
    Reader.record bound
      [ .of "elseif" value fun v s => { s with elseIf := v },
        .of "else" value fun v s => { s with otherwise := v } ] [] ⟨none, none⟩

def write (s : LegacyShape) : List Char :=
  Writer.object (Writer.member? "elseif" (s.elseIf.map FieldValue.write)
    ++ Writer.member? "else" (s.otherwise.map FieldValue.write))

end LegacyShape

namespace Block

mutual

/-- A block, with room for `depth` containers inside one another. -/
def read (bound : Nat) : (depth : Nat) → List Char → Except Fault (Block × List Char)
  | 0, text => Reader.closed Reader.recordOpens text
  | depth + 1, text =>
    Reader.record bound
      [ .of "type" Reader.string fun s b => { b with kind := s },
        .of "id" (Reader.optional Reader.string) fun s b => { b with id := s },
        .of "fields" (FieldValue.readMap bound depth) fun m b => { b with fields := m },
        .of "inputs" (readInputs bound depth) fun m b => { b with inputs := m },
        .of "next" (Reader.optional (readConnection bound depth)) fun c b => { b with next := c },
        .of "extraState" (Reader.optional (ExtraState.read bound depth))
          fun s b => { b with extraState := s },
        .of "mutation" (Reader.optional (LegacyShape.read bound depth))
          fun s b => { b with legacy := s } ]
      ["type"] (bare "") text

def readInputs (bound : Nat) :
    (depth : Nat) → List Char → Except Fault (NameMap (Connection Block) none × List Char)
  | 0, text => Reader.closed Reader.mapOpens text
  | depth + 1, text => Reader.map bound (readConnection bound depth) text

def readConnection (bound : Nat) :
    (depth : Nat) → List Char → Except Fault (Connection Block × List Char)
  | 0, text => Reader.closed Reader.recordOpens text
  | depth + 1, text =>
    Reader.record bound
      [ .of "block" (Reader.optional (read bound depth)) fun b c => { c with block := b },
        .of "shadow" (Reader.optional (read bound depth)) fun b c => { c with shadow := b } ]
      [] ⟨none, none⟩ text

end

/-- A map, left out when it is empty. -/
def writeMap? (members : List (List Char)) : Option (List Char) :=
  if members.isEmpty then none else some (Writer.object members)

mutual

/-- A block as an object. What is absent or empty is left out. -/
def write : Block → List Char
  | ⟨kind, id, fields, inputs, next, extraState, legacy⟩ =>
    Writer.object (Writer.member "type" (Writer.string kind)
      :: Writer.member? "id" (id.map Writer.string)
      ++ Writer.member? "fields" (writeMap? (FieldValue.writeMembers fields))
      ++ Writer.member? "inputs" (writeMap? (writeInputs inputs))
      ++ Writer.member? "next" (writeNext next)
      ++ Writer.member? "extraState" (extraState.map ExtraState.write)
      ++ Writer.member? "mutation" (legacy.map LegacyShape.write))

def writeInputs {low : Option String} : NameMap (Connection Block) low → List (List Char)
  | .nil => []
  | .cons name _ c rest => Writer.member name (writeConnection c) :: writeInputs rest

def writeNext : Option (Connection Block) → Option (List Char)
  | none => none
  | some c => some (writeConnection c)

def writeConnection : Connection Block → List Char
  | ⟨block, shadow⟩ =>
    Writer.object (Writer.member? "block" (writeAttached block)
      ++ Writer.member? "shadow" (writeAttached shadow))

def writeAttached : Option Block → Option (List Char)
  | none => none
  | some b => some (write b)

end

def parse (text : String) : Except Fault Block :=
  Reader.parse (fun bound => read bound Reader.maxDepth) text

def toJson (b : Block) : String := String.ofList b.write

end Block

namespace Workspace

/-- A list of top-level blocks. -/
def readList (bound : Nat) : (depth : Nat) → Reader (List Block) :=
  Reader.nested Reader.listOpens fun depth => Reader.list bound (Block.read bound depth)

/-- The blocks with their version. -/
def readBlocks (bound : Nat) : (depth : Nat) → Reader Workspace :=
  Reader.nested Reader.recordOpens fun depth => Reader.record bound
    [ .of "languageVersion" (Reader.natural UInt32.size)
        fun n w => { w with languageVersion := n.toUInt32 },
      .of "blocks" (readList bound depth) fun bs w => { w with blocks := bs } ] [] ⟨0, []⟩

def read (bound : Nat) : (depth : Nat) → Reader Workspace :=
  Reader.nested Reader.recordOpens fun depth =>
    Reader.record bound [.of "blocks" (readBlocks bound depth) fun w _ => w] [] ⟨0, []⟩

def parse (text : String) : Except Fault Workspace :=
  Reader.parse (fun bound => read bound Reader.maxDepth) text

def write (w : Workspace) : List Char :=
  Writer.object [Writer.member "blocks" (Writer.object
    [Writer.member "languageVersion" (Writer.natural w.languageVersion.toNat),
      Writer.member "blocks" (Writer.list (w.blocks.map Block.write))])]

def toJson (w : Workspace) : String := String.ofList w.write

end Workspace

end RobotBlocks
