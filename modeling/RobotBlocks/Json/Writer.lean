import RobotBlocks.Binary64.Shortest
import RobotBlocks.Text

/-! Writing JSON without blanks. -/

namespace RobotBlocks.Json.Writer

/-- A character inside a string. Only quotes, backslashes and control characters are escaped. -/
def escape (c : Char) : List Char :=
  if c = '"' then ['\\', '"']
  else if c = '\\' then ['\\', '\\']
  else if c = '\x08' then ['\\', 'b']
  else if c = '\x0C' then ['\\', 'f']
  else if c = '\n' then ['\\', 'n']
  else if c = '\r' then ['\\', 'r']
  else if c = '\t' then ['\\', 't']
  else if c < ' ' then "\\u00".toList ++ Text.hexByte false c.toNat.toUInt8
  else [c]

def string (s : String) : List Char := '"' :: s.toList.flatMap escape ++ ['"']

def flag (b : Bool) : List Char := (if b then "true" else "false").toList

def natural (n : Nat) : List Char := Nat.toDigits 10 n

/-- Fewest digits, ties to the even one: positional from `1e-5` up to below `1e16`, else with an
exponent. What is not finite is written as `null`. -/
def number : Binary64 → List Char
  | .nan | .infinite _ => "null".toList
  | .finite s a =>
    let magnitude :=
      if a.val = 0 then "0.0".toList
      else
        let d := Binary64.shortest .even a.val
        if -5 ≤ d.magnitude ∧ d.magnitude < 16 then d.positional ".0" else d.scientific
    if s then '-' :: magnitude else magnitude

/-- Items with commas between them. -/
def separated : List (List Char) → List Char
  | [] => []
  | [item] => item
  | item :: rest => item ++ ',' :: separated rest

def list (items : List (List Char)) : List Char := '[' :: separated items ++ [']']

def member (name : String) (value : List Char) : List Char := string name ++ ':' :: value

def object (members : List (List Char)) : List Char := '\x7b' :: separated members ++ ['\x7d']

/-- A member that is left out when there is no value. -/
def member? (name : String) (value : Option (List Char)) : List (List Char) :=
  (value.map (member name)).toList

end RobotBlocks.Json.Writer
