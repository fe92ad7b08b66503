import RobotBlocks.Json.Reader
import RobotBlocks.NameMap

/-! Reading JSON lists, objects and records. Loops carry a bound on the number of their turns; the
length of the text is always enough, because each turn takes a character. -/

namespace RobotBlocks.Json.Reader

variable {α σ : Type}

/-- Whether another item follows in a container that `close` ends. Takes the comma, or the end. -/
def more (close : Char) (first : Bool) : Reader Bool := do
  let c ← peek
  if c = close then do advance; return false
  else if first then return true
  else if c = ',' then do
    advance
    if (← peek) = close then throw .malformed else return true
  else throw .malformed

/-- The items of a list behind its bracket; `done` holds the earlier ones, last first. -/
def elements (item : Reader α) : Nat → Bool → List α → Reader (List α)
  | 0, _, _ => throw .malformed
  | bound + 1, first, done => do
    if ← more ']' first then do
      let a ← item
      elements item bound false (a :: done)
    else return done.reverse

def key : Reader String := do
  if (← peek) = '"' then do advance; quoted [] else throw .malformed

def colon : Reader Unit := do
  if (← peek) = ':' then advance else throw .malformed

/-- The members of an object behind its brace; `done` holds the earlier ones, last first. -/
def members (item : Reader α) : Nat → Bool → List (String × α) → Reader (List (String × α))
  | 0, _, _ => throw .malformed
  | bound + 1, first, done => do
    if ← more '\x7d' first then do
      let name ← key
      colon
      let a ← item
      members item bound false ((name, a) :: done)
    else return done.reverse

/-- The brackets that may open a list, a map and a record. -/
def listOpens : List Char := ['[']

def mapOpens : List Char := ['\x7b']

def recordOpens : List Char := ['[', '\x7b']

/-- Refuses a container of the right shape that would nest too deep, and anything else by its shape.
-/
def closed (opens : List Char) : Reader α := do
  let c ← peek
  if c ∈ opens then throw .malformed else refuse c

/-- Gives a container's reader the room left inside it. -/
def nested (opens : List Char) (item : Nat → Reader α) : Nat → Reader α
  | 0 => closed opens
  | depth + 1 => item depth

/-- A list; `item` reads each element. -/
def list (bound : Nat) (item : Reader α) : Reader (List α) := do
  let c ← peek
  if c = '[' then do advance; elements item bound true [] else refuse c

/-- An object read as a map. Of members of one name the last counts. -/
def map (bound : Nat) (item : Reader α) : Reader (NameMap α none) := do
  let c ← peek
  if c = '\x7b' then do
    advance
    return NameMap.ofPairs (← members item bound true [])
  else refuse c

/-- Reads any value whole and drops it, with room for `depth` containers inside one another. -/
def any (bound : Nat) : Nat → Reader Unit
  | 0 => do
    let c ← peek
    scalar c
  | depth + 1 => do
    let c ← peek
    if c = '[' then do advance; discard (elements (any bound depth) bound true [])
    else if c = '\x7b' then do advance; discard (members (any bound depth) bound true [])
    else scalar c
where
  scalar (c : Char) : Reader Unit := do
    if c = 'n' then word "null".toList
    else if c = 't' then word "true".toList
    else if c = 'f' then word "false".toList
    else if c = '"' then do advance; discard (quoted [])
    else if c = '-' ∨ c.isDigit then discard number
    else throw .malformed

def skipKey : Reader Unit := do
  if (← peek) = '"' then do advance; skipQuoted else throw .malformed
  colon

/-- Passes over a value, at any depth; `ends` holds the brackets that are still open. After a value
(`ended`) a comma or the innermost bracket's end must follow. -/
def skip : Nat → Bool → List Char → Reader Unit
  | 0, _, _ => throw .malformed
  | _ + 1, true, [] => return
  | bound + 1, true, close :: ends => do
    let c ← peek
    if c = close then do advance; skip bound true ends
    else if c = ',' then do
      advance
      if close = '\x7d' then skipKey
      skip bound false (close :: ends)
    else throw .malformed
  | bound + 1, false, ends => do
    let c ← peek
    if c = '[' then do
      advance
      if (← peek) = ']' then do advance; skip bound true ends
      else skip bound false (']' :: ends)
    else if c = '\x7b' then do
      advance
      if (← peek) = '\x7d' then do advance; skip bound true ends
      else do skipKey; skip bound false ('\x7d' :: ends)
    else do
      if c = 'n' then word "null".toList
      else if c = 't' then word "true".toList
      else if c = 'f' then word "false".toList
      else if c = '"' then do advance; skipQuoted
      else if c = '-' ∨ c.isDigit then discard (numberText .malformed)
      else throw .malformed
      skip bound true ends

/-- A named part of a record, and how its value is read into the record. -/
structure Slot (σ : Type) where
  name : String
  read : Reader (σ → σ)

/-- A part whose value replaces another. -/
def Slot.of (name : String) (item : Reader α) (put : α → σ → σ) : Slot σ :=
  ⟨name, do return put (← item)⟩

/-- The members of a record written as an object. A member of an unknown name is passed over; a
known name must not come twice. Gives the names met as well. -/
def recordMembers (slots : List (Slot σ)) (bound : Nat) :
    Nat → Bool → List String → σ → Reader (List String × σ)
  | 0, _, _, _ => throw .malformed
  | turns + 1, first, met, s => do
    if ← more '\x7d' first then do
      let name ← key
      match slots.find? (·.name = name) with
      | some slot =>
        if name ∈ met then throw .mismatched
        colon
        let put ← slot.read
        recordMembers slots bound turns false (name :: met) (put s)
      | none => do
        colon
        skip bound false []
        recordMembers slots bound turns false met s
    else return (met, s)

/-- The end of a list that may hold no further item. -/
def listEnd : Reader Unit := do
  if (← peek) = ']' then advance else throw .malformed

/-- The items of a record written as a list, in the order of its parts. It may stop early. -/
def recordItems : List (Slot σ) → Bool → List String → σ → Reader (List String × σ)
  | [], _, met, s => do listEnd; return (met, s)
  | slot :: rest, first, met, s => do
    if ← more ']' first then do
      let put ← slot.read
      recordItems rest false (slot.name :: met) (put s)
    else return (met, s)

/-- A record, written as an object or as the list of its parts. All names in `needed` must be given.
-/
def record (bound : Nat) (slots : List (Slot σ)) (needed : List String) (start : σ) : Reader σ := do
  let c ← peek
  let (met, s) ←
    if c = '\x7b' then do advance; recordMembers slots bound bound true [] start
    else if c = '[' then do advance; recordItems slots true [] start
    else refuse c
  if needed.all (· ∈ met) then return s else throw .mismatched

/-- How many containers may stand inside one another. -/
def maxDepth : Nat := 127

/-- Reads a whole text; only blanks may follow the value. -/
def parse (item : Nat → Reader α) (text : String) : Except Fault α := do
  let chars := text.toList
  let (a, rest) ← item (chars.length + 1) chars
  if rest.all isSpace then return a else throw .malformed

end RobotBlocks.Json.Reader
