import RobotBlocks.Binary64

/-! The fewest decimal digits that read back as a given number, and the ways to lay them out. -/

namespace RobotBlocks.Binary64

/-- Which digit wins when two shortest decimals are equally near. -/
inductive Tie where
  | up
  | even
  deriving DecidableEq, Repr

/-- `digits * 10 ^ exponent`. -/
structure Decimal where
  digits : Nat
  exponent : Int
  deriving DecidableEq, Repr

/-- The reals that round to a rank, in half units. Both ends belong to it when the rank is even. -/
structure Basin where
  low : Nat
  high : Nat
  closed : Bool

def Basin.ofRank (rank : Nat) : Basin :=
  ⟨units (rank - 1) + units rank, units rank + units (rank + 1), rank % 2 == 0⟩

def Basin.contains (b : Basin) (num den : Nat) : Bool :=
  if b.closed then b.low * den ≤ num && num ≤ b.high * den
  else b.low * den < num && num < b.high * den

/-- The better of the two neighbours of a rank's magnitude among the multiples of `10 ^ exponent`,
if one of them rounds to that rank. -/
def onGrid? (tie : Tie) (rank : Nat) (exponent : Int) : Option Decimal :=
  let basin := Basin.ofRank rank
  let step := if exponent < 0 then 2 * one else 2 * one * Nat.pow 10 exponent.natAbs
  let den := if exponent < 0 then Nat.pow 10 exponent.natAbs else 1
  let target := 2 * units rank * den
  let below := target / step
  let gap := 2 * (target % step)
  let upper := gap > step || (gap == step && (tie == .up || below % 2 == 1))
  match basin.contains (below * step) den, basin.contains ((below + 1) * step) den with
  | true, true => some ⟨if upper then below + 1 else below, exponent⟩
  | true, false => some ⟨below, exponent⟩
  | false, true => some ⟨below + 1, exponent⟩
  | false, false => none

/-- The first of `count` grids, from coarse to fine, that has a decimal for the rank. -/
def search (tie : Tie) (rank : Nat) : Nat → Int → Decimal
  | 0, _ => ⟨units rank, 0⟩
  | count + 1, exponent => (onGrid? tie rank exponent).getD (search tie rank count (exponent - 1))

/-- A power of ten above the magnitude of a rank, at most two too large. -/
def startExponent (rank : Nat) : Int := ((units rank).log2 - 1073 : Int) * 30103 / 100000 + 1

/-- Moves the zeros at the end of the digits into the exponent. -/
def Decimal.trim (count : Nat) (d : Decimal) : Decimal :=
  match count with
  | 0 => d
  | count + 1 =>
    if d.digits ≠ 0 ∧ d.digits % 10 = 0 then
      Decimal.trim count ⟨d.digits / 10, d.exponent + 1⟩
    else d

/-- The shortest decimal that rounds to a positive rank, and of those the nearest. -/
def shortest (tie : Tie) (rank : Nat) : Decimal :=
  (search tie rank 21 (startExponent rank)).trim 20

def zeros (n : Nat) : List Char := List.replicate n '0'

/-- Positional notation; `whole` is written after a number without a fraction. -/
def Decimal.positional (whole : String) (d : Decimal) : List Char :=
  let digits := Nat.toDigits 10 d.digits
  let k := d.exponent.natAbs
  if 0 ≤ d.exponent then digits ++ zeros k ++ whole.toList
  else if k < digits.length then
    digits.take (digits.length - k) ++ '.' :: digits.drop (digits.length - k)
  else "0.".toList ++ zeros (k - digits.length) ++ digits

/-- One digit before the point, and a signed exponent. -/
def Decimal.scientific (d : Decimal) : List Char :=
  let digits := Nat.toDigits 10 d.digits
  let e := d.exponent + digits.length - 1
  let mantissa := match digits with
    | [] => []
    | [c] => [c]
    | c :: rest => c :: '.' :: rest
  mantissa ++ 'e' :: (if e < 0 then '-' else '+') :: Nat.toDigits 10 e.natAbs

/-- The power of ten of the leading digit. -/
def Decimal.magnitude (d : Decimal) : Int := d.exponent + (Nat.toDigits 10 d.digits).length - 1

/-- Positional text without a fraction for whole numbers. Ties go up. -/
def plain : Binary64 → List Char
  | nan => "NaN".toList
  | infinite s => (if s then "-inf" else "inf").toList
  | finite s a =>
    let magnitude := if a.val = 0 then ['0'] else (shortest .up a.val).positional ""
    if s then '-' :: magnitude else magnitude

end RobotBlocks.Binary64
