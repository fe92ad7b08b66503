import RobotBlocks.Binary64.Decimal
import RobotBlocks.Text

/-! Reading JSON tokens in one pass from left to right. The first fault met ends the reading. -/

namespace RobotBlocks.Json

/-- Why a text was refused: it ends too early, it is no JSON, or it is JSON of another shape than
asked for. -/
inductive Fault where
  | truncated
  | malformed
  | mismatched
  deriving DecidableEq, Repr

/-- A reader takes characters from the front of a text. -/
abbrev Reader := StateT (List Char) (Except Fault)

namespace Reader

def isSpace (c : Char) : Bool := c = ' ' || c = '\t' || c = '\n' || c = '\r'

/-- The next character behind blanks. It is not taken. -/
def peek : Reader Char := fun text =>
  match text.dropWhile isSpace with
  | [] => .error .truncated
  | c :: rest => .ok (c, c :: rest)

def advance : Reader Unit := modify List.tail

/-- Takes exactly these characters. -/
def word : List Char → Reader Unit
  | [] => pure ()
  | c :: more => do
    match ← get with
    | [] => throw .truncated
    | d :: rest => if c = d then do set rest; word more else throw .malformed

/-- The characters that a backslash may stand before, besides `u`. -/
def escape? : Char → Option Char
  | '"' => some '"'
  | '\\' => some '\\'
  | '/' => some '/'
  | 'b' => some '\x08'
  | 'f' => some '\x0C'
  | 'n' => some '\n'
  | 'r' => some '\r'
  | 't' => some '\t'
  | _ => none

def unit? (a b c d : Char) : Option Nat := do
  return ((← Text.hexValue? a) * 16 + (← Text.hexValue? b)) * 256
    + (← Text.hexValue? c) * 16 + (← Text.hexValue? d)

/-- The fault of an escape that lacks its four digits: they may be cut off or wrong. -/
def unitFault (text : List Char) : Fault :=
  if (String.ofList text).utf8ByteSize < 4 then .truncated else .malformed

def isHighSurrogate (n : Nat) : Bool := 0xD800 ≤ n && n < 0xDC00

def isLowSurrogate (n : Nat) : Bool := 0xDC00 ≤ n && n < 0xE000

def joinSurrogates (high low : Nat) : Char :=
  Char.ofNat (0x10000 + (high - 0xD800) * 0x400 + (low - 0xDC00))

/-- The rest of a string behind its opening quote; `done` holds the characters so far, last first.
-/
def quoted (done : List Char) : List Char → Except Fault (String × List Char)
  | [] => .error .truncated
  | '"' :: rest => .ok (String.ofList done.reverse, rest)
  | '\\' :: 'u' :: a :: b :: c :: d :: rest =>
    match unit? a b c d with
    | none => .error .malformed
    | some n =>
      if isLowSurrogate n then .error .malformed
      else if isHighSurrogate n then
        match rest with
        | [] => .error .truncated
        | ['\\'] => .error .truncated
        | '\\' :: 'u' :: e :: f :: g :: h :: more =>
          match unit? e f g h with
          | none => .error .malformed
          | some m =>
            if isLowSurrogate m then quoted (joinSurrogates n m :: done) more
            else .error .malformed
        | '\\' :: 'u' :: more => .error (unitFault more)
        | _ => .error .malformed
      else quoted (Char.ofNat n :: done) rest
  | '\\' :: 'u' :: rest => .error (unitFault rest)
  | '\\' :: c :: rest => match escape? c with
    | some e => quoted (e :: done) rest
    | none => .error .malformed
  | ['\\'] => .error .truncated
  | c :: rest => if c < ' ' then .error .malformed else quoted (c :: done) rest

/-- Passes over the rest of a string. Escaped surrogates need not be paired here. -/
def skipQuoted : List Char → Except Fault (Unit × List Char)
  | [] => .error .truncated
  | '"' :: rest => .ok ((), rest)
  | '\\' :: 'u' :: a :: b :: c :: d :: rest =>
    if (unit? a b c d).isSome then skipQuoted rest else .error .malformed
  | '\\' :: 'u' :: rest => .error (unitFault rest)
  | '\\' :: c :: rest => if (escape? c).isSome then skipQuoted rest else .error .malformed
  | ['\\'] => .error .truncated
  | c :: rest => if c < ' ' then .error .malformed else skipQuoted rest

/-- A number as it is written. -/
structure NumberText where
  negative : Bool
  whole : List Char
  fraction : List Char := []
  exponent : Option (Bool × List Char) := none

/-- One or more digits; `atEnd` is the fault when the text ends instead. -/
def digits (atEnd : Fault) : Reader (List Char) := fun text =>
  match text with
  | [] => .error atEnd
  | c :: _ =>
    if c.isDigit then .ok (text.takeWhile Char.isDigit, text.dropWhile Char.isDigit)
    else .error .malformed

/-- Digits without a needless zero in front. -/
def wholeDigits (atEnd : Fault) : Reader (List Char) := do
  let ds ← digits atEnd
  if ds.head? = some '0' ∧ ds.length ≠ 1 then throw .malformed else return ds

def fractionDigits (atEnd : Fault) : Reader (List Char) := do
  if (← get).head? = some '.' then do advance; digits atEnd else return []

def exponentDigits (atEnd : Fault) : Reader (Option (Bool × List Char)) := do
  let mark := (← get).head?
  if mark = some 'e' ∨ mark = some 'E' then do
    advance
    let (negative, rest) := Binary64.splitSign (← get)
    set rest
    return some (negative, ← digits atEnd)
  else return none

def numberText (atEnd : Fault) : Reader NumberText := do
  let negative := (← get).head? = some '-'
  if negative then advance
  let whole ← wholeDigits atEnd
  let fraction ← fractionDigits atEnd
  return ⟨negative, whole, fraction, ← exponentDigits atEnd⟩

namespace NumberText

/-- Neither a fraction nor an exponent is written. -/
def isWhole (t : NumberText) : Bool := t.fraction.isEmpty && t.exponent.isNone

/-- A whole number below `2 ^ 64` is rounded once; any other number is scaled step by step. Nothing
when the result would be infinite. -/
def value? (t : NumberText) : Option Binary64 :=
  let n := Binary64.ofDigits t.whole
  if t.isWhole ∧ n < UInt64.size then some (if t.negative then -.ofNat n else .ofNat n)
  else
    let kept := (Binary64.Scaled.whole 0 t.whole).fraction t.fraction
    let shift := match t.exponent with
      | some (negative, ds) => Binary64.signed negative (Binary64.ofDigits ds)
      | none => 0
    Binary64.Scaled.value? t.negative { kept with exponent := kept.exponent + shift }

/-- The number, if it is written without sign, fraction and exponent. -/
def natural? (t : NumberText) : Option Nat :=
  if t.isWhole && !t.negative then some (Binary64.ofDigits t.whole) else none

end NumberText

/-- A number and its text. -/
def number : Reader (NumberText × Binary64) := do
  let t ← numberText .truncated
  match t.value? with
  | some x => return (t, x)
  | none => throw .malformed

/-- Refuses a value of the wrong shape that starts with `c`. A scalar is read first, so that a fault
inside it counts. -/
def refuse {α : Type} (c : Char) : Reader α := do
  if c = 'n' then word "null".toList
  else if c = 't' then word "true".toList
  else if c = 'f' then word "false".toList
  else if c = '"' then do advance; discard (quoted [])
  else if c = '-' ∨ c.isDigit then discard number
  else if ¬(c = '[' ∨ c = '\x7b') then throw .malformed
  throw .mismatched

def string : Reader String := do
  let c ← peek
  if c = '"' then do advance; quoted [] else refuse c

def flag : Reader Bool := do
  let c ← peek
  if c = 't' then do word "true".toList; return true
  else if c = 'f' then do word "false".toList; return false
  else refuse c

/-- A whole number below `limit`. -/
def natural (limit : Nat) : Reader Nat := do
  let c ← peek
  if c = '-' ∨ c.isDigit then
    match (← number).1.natural? with
    | some n => if n < limit then return n else throw .mismatched
    | none => throw .mismatched
  else refuse c

/-- A value, or `null` for none. -/
def optional {α : Type} (item : Reader α) : Reader (Option α) := do
  if (← peek) = 'n' then do word "null".toList; return none else return some (← item)

end Reader

end RobotBlocks.Json
