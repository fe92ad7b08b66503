import RobotBlocks.Field
import RobotBlocks.NameMap

/-! Blocks of a visual program: a tree of typed blocks with named fields, named inputs and a
successor. -/

namespace RobotBlocks

/-- What is plugged into an input or behind a block. A shadow stands in while no block is attached.
-/
structure Connection (β : Type) where
  block : Option β
  shadow : Option β
  deriving DecidableEq, Repr

def Connection.target? {β : Type} (c : Connection β) : Option β := c.block.or c.shadow

/-- A connection with a block attached and no shadow. -/
def Connection.to {β : Type} (b : β) : Connection β := ⟨some b, none⟩

/-- The shape of a conditional as newer saves record it. -/
structure ExtraState where
  elseIfCount : UInt64
  hasElse : Bool
  deriving DecidableEq, Repr

/-- The shape of a conditional as older saves record it. -/
structure LegacyShape where
  elseIf : Option FieldValue
  otherwise : Option FieldValue
  deriving DecidableEq, Repr

structure Block where
  kind : String
  id : Option String
  fields : NameMap FieldValue none
  inputs : NameMap (Connection Block) none
  next : Option (Connection Block)
  extraState : Option ExtraState
  legacy : Option LegacyShape

structure Workspace where
  languageVersion : UInt32
  blocks : List Block

/-- How many further conditions a conditional has, and whether a last branch follows them. -/
structure Shape where
  elseIfCount : Nat
  hasElse : Bool
  deriving DecidableEq, Repr

namespace LegacyShape

def shape (s : LegacyShape) : Shape where
  elseIfCount := ((s.elseIf.bind FieldValue.integer?).getD 0).toNat
  hasElse := (s.otherwise.bind FieldValue.integer?).getD 0 != 0

end LegacyShape

namespace Block

/-- A block with nothing in it. -/
def bare (kind : String) : Block := ⟨kind, none, .nil, .nil, none, none, none⟩

def withField (b : Block) (name : String) (value : FieldValue) : Block :=
  { b with fields := NameMap.insert name value b.fields }

def withInput (b : Block) (name : String) (child : Block) : Block :=
  { b with inputs := NameMap.insert name (.to child) b.inputs }

def withExtraState (b : Block) (elseIfCount : UInt64) (hasElse : Bool) : Block :=
  { b with extraState := some ⟨elseIfCount, hasElse⟩ }

/-- A literal number. -/
def number (value : Binary64) : Block := (bare "math_number").withField "NUM" (.number value)

/-- Puts a block behind the last block attached in this one's chain. A shadow there gives way. -/
def append : Block → Block → Block
  | ⟨kind, id, fields, inputs, some ⟨some b, shadow⟩, extraState, legacy⟩, tail =>
    ⟨kind, id, fields, inputs, some ⟨some (b.append tail), shadow⟩, extraState, legacy⟩
  | ⟨kind, id, fields, inputs, _, extraState, legacy⟩, tail =>
    ⟨kind, id, fields, inputs, some (.to tail), extraState, legacy⟩

/-- Links blocks into one chain, each before the next. What was behind a block is replaced, except
behind the last. -/
def link? : List Block → Option Block
  | [] => none
  | b :: rest => match link? rest with
    | none => some b
    | some tail => some { b with next := some (.to tail) }

def field? (b : Block) (name : String) : Option FieldValue := b.fields.lookup name

def input? (b : Block) (name : String) : Option Block := (b.inputs.lookup name).bind (·.target?)

def next? (b : Block) : Option Block := b.next.bind (·.target?)

/-- The shape of a conditional; newer records win over older ones. -/
def shape (b : Block) : Shape :=
  match b.extraState, b.legacy with
  | some s, _ => ⟨s.elseIfCount.toNat, s.hasElse⟩
  | none, some s => s.shape
  | none, none => ⟨0, false⟩

end Block

namespace Workspace

def ofBlocks (blocks : List Block) : Workspace := ⟨0, blocks⟩

/-- The top-level blocks of a kind, in order. -/
def roots (w : Workspace) (kind : String) : List Block := w.blocks.filter (·.kind = kind)

end Workspace

end RobotBlocks
