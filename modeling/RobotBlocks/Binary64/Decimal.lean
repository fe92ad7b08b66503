import RobotBlocks.Binary64

/-! Reading decimal text as binary64 numbers: correctly rounded, or scaled step by step. -/

namespace RobotBlocks.Binary64

/-- The number that a string of decimal digits denotes. -/
def ofDigits (digits : List Char) : Nat :=
  digits.foldl (fun n c => 10 * n + (c.toNat - '0'.toNat)) 0

/-- `digits * 10 ^ exponent`, rounded to the nearest number. The two cut-offs lie far outside the
finite range, so no power beyond them is ever formed. -/
def ofDecimal (negative : Bool) (digits : Nat) (exponent : Int) : Binary64 :=
  if digits = 0 ∨ exponent < -(digits.log2 + 401) then zero negative
  else if 400 < exponent then infinite negative
  else if exponent < 0 then round negative (digits * one) (Nat.pow 10 exponent.natAbs)
  else round negative (digits * Nat.pow 10 exponent.natAbs * one) 1

def powerOfTen (exponent : Nat) : Binary64 := ofDecimal false 1 exponent

/-- An exponent sign and the rest of the text. -/
def splitSign : List Char → Bool × List Char
  | '-' :: rest => (true, rest)
  | '+' :: rest => (false, rest)
  | rest => (false, rest)

def exponentOf? : List Char → Option Int
  | [] => some 0
  | mark :: rest =>
    let (negative, digits) := splitSign rest
    if (mark = 'e' ∨ mark = 'E') ∧ digits ≠ [] ∧ digits.all Char.isDigit then
      some (signed negative (ofDigits digits))
    else none

/-- An unsigned decimal: digits with at most one point among or beside them, then an exponent. -/
def magnitudeOf? (negative : Bool) (text : List Char) : Option Binary64 :=
  let whole := text.takeWhile Char.isDigit
  let afterWhole := text.dropWhile Char.isDigit
  let (fraction, rest) := match afterWhole with
    | '.' :: more => (more.takeWhile Char.isDigit, more.dropWhile Char.isDigit)
    | _ => ([], afterWhole)
  if whole = [] ∧ fraction = [] then none
  else (exponentOf? rest).map fun e =>
    ofDecimal negative (ofDigits (whole ++ fraction)) (e - fraction.length)

/-- The names of the numbers that are not finite, in any letter case. -/
def named? (negative : Bool) (text : List Char) : Option Binary64 :=
  let word := text.map Char.toLower
  if word = "inf".toList ∨ word = "infinity".toList then some (infinite negative)
  else if word = "nan".toList then some nan
  else none

/-- Reads a whole text as a decimal number, rounded to the nearest. -/
def ofText? (text : List Char) : Option Binary64 :=
  let (negative, rest) := splitSign text
  (magnitudeOf? negative rest).or (named? negative rest)

/-- The leading digits kept in a 64-bit significand, and the power of ten that goes with them. -/
structure Scaled where
  significand : Nat
  exponent : Int

namespace Scaled

def appendDigit? (n : Nat) (c : Char) : Option Nat :=
  let next := 10 * n + (c.toNat - '0'.toNat)
  if next < UInt64.size then some next else none

/-- Digits before the point: from the first that does not fit, each one only raises the exponent. -/
def whole (n : Nat) : List Char → Scaled
  | [] => ⟨n, 0⟩
  | c :: rest => match appendDigit? n c with
    | some next => whole next rest
    | none => ⟨n, rest.length + 1⟩

/-- Digits after the point: from the first that does not fit, all are dropped. -/
def fraction (s : Scaled) : List Char → Scaled
  | [] => s
  | c :: rest => match appendDigit? s.significand c with
    | some next => fraction ⟨next, s.exponent - 1⟩ rest
    | none => s

/-- The significand, rounded, then multiplied or divided once by a rounded power of ten (twice when
one power would be too large). Nothing when the result is infinite. -/
def value? (negative : Bool) (s : Scaled) : Option Binary64 :=
  let n := ofNat s.significand
  let k := s.exponent.natAbs
  let magnitude :=
    if s.significand = 0 then zero false
    else if 0 ≤ s.exponent then n * powerOfTen k
    else if k ≤ 308 then n / powerOfTen k
    else if k ≤ 616 then n / powerOfTen 308 / powerOfTen (k - 308)
    else zero false
  match magnitude with
  | finite _ a => some (finite negative a)
  | _ => none

end Scaled

end RobotBlocks.Binary64
