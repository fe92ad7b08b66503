import RobotBlocks.Binary64.Decimal
import RobotBlocks.Binary64.Shortest
import RobotBlocks.Text

/-! Values of block fields and their readings as text, number and whole number. -/

namespace RobotBlocks

inductive FieldValue where
  | number (value : Binary64)
  | flag (value : Bool)
  | text (value : String)
  deriving DecidableEq, Repr

namespace FieldValue

def toText : FieldValue → String
  | text s => s
  | number x => String.ofList x.plain
  | flag b => if b then "TRUE" else "FALSE"

/-- Text counts as a number when it is one, blanks around it aside. -/
def number? : FieldValue → Option Binary64
  | number x => some x
  | flag b => some (.ofNat b.toNat)
  | text s => Binary64.ofText? (Text.trim s.toList)

/-- Plain digits with an optional sign, of a 64-bit number. -/
def digits? (text : List Char) : Option Int :=
  let (negative, digits) := Binary64.splitSign text
  let n := Binary64.signed negative (Binary64.ofDigits digits)
  if digits ≠ [] ∧ digits.all Char.isDigit ∧ Binary64.minWhole ≤ n ∧ n ≤ Binary64.maxWhole then
    some n
  else none

/-- A finite number without its fraction, kept within 64 bits. -/
def whole? (x : Binary64) : Option Int :=
  if x.isFinite then some (x.truncateWithin Binary64.minWhole Binary64.maxWhole) else none

def integer? (v : FieldValue) : Option Int :=
  let exact := match v with
    | text s => digits? (Text.trim s.toList)
    | _ => none
  exact.or (v.number?.bind whole?)

end FieldValue

end RobotBlocks
