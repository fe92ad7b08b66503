/-! Binary64 numbers, held exactly. A finite magnitude is its rank among the finite magnitudes in
increasing order, and arithmetic is done on whole multiples of the least positive magnitude. -/

namespace RobotBlocks

/-- The number of magnitudes from one power of two up to the next. -/
def Binary64.binade : Nat := 0x10000000000000

/-- The number of finite magnitudes. The rank after the last one stands for infinity. -/
def Binary64.ranks : Nat := 2047 * binade

inductive Binary64 where
  | nan
  | infinite (negative : Bool)
  | finite (negative : Bool) (rank : Fin Binary64.ranks)
  deriving DecidableEq, Repr

namespace Binary64

/-- The magnitude of a rank, counted in units of the least positive magnitude. -/
def units (rank : Nat) : Nat :=
  if rank < 2 * binade then rank
  else (binade + rank % binade) * Nat.pow 2 (rank / binade - 1)

/-- The number one, in units. -/
def one : Nat := Nat.pow 2 1074

/-- The quotient rounded to the nearest whole number, a half to the even one. -/
def roundHalfEven (num den : Nat) : Nat :=
  let q := num / den
  let twice := 2 * (num % den)
  if twice < den ∨ (twice = den ∧ q % 2 = 0) then q else q + 1

/-- The rank nearest to `num / den` units, a tie to the even rank. -/
def nearest (num den : Nat) : Nat :=
  let shift := (num / den).log2 - 52
  shift * binade + roundHalfEven num (den * Nat.pow 2 shift)

def ofRank (negative : Bool) (rank : Nat) : Binary64 :=
  if h : rank < ranks then .finite negative ⟨rank, h⟩ else .infinite negative

/-- `num / den` units with a sign, rounded to the nearest number. -/
def round (negative : Bool) (num den : Nat) : Binary64 := ofRank negative (nearest num den)

def zero (negative : Bool) : Binary64 := ofRank negative 0

/-- A whole number of units, rounded. -/
def ofUnits (n : Int) : Binary64 := round (n < 0) n.natAbs 1

def ofInt (n : Int) : Binary64 := ofUnits (n * one)

def ofNat (n : Nat) : Binary64 := ofInt n

def half : Binary64 := ofUnits (one / 2 : Nat)

def signed (negative : Bool) (n : Nat) : Int := if negative then -n else n

def isNaN : Binary64 → Bool
  | nan => true
  | _ => false

def isFinite : Binary64 → Bool
  | finite _ _ => true
  | _ => false

/-- Strictly above zero. -/
def isPositive : Binary64 → Bool
  | finite false rank => rank.val != 0
  | infinite false => true
  | _ => false

def add : Binary64 → Binary64 → Binary64
  | nan, _ | _, nan => nan
  | infinite s, infinite t => if s = t then infinite s else nan
  | infinite s, finite _ _ | finite _ _, infinite s => infinite s
  | finite s a, finite t b =>
    let sum := signed s (units a) + signed t (units b)
    if sum = 0 then zero (s && t) else ofUnits sum

def mul : Binary64 → Binary64 → Binary64
  | nan, _ | _, nan => nan
  | infinite s, infinite t => infinite (s ^^ t)
  | infinite s, finite t a | finite s a, infinite t => if a.val = 0 then nan else infinite (s ^^ t)
  | finite s a, finite t b => round (s ^^ t) (units a * units b) one

def div : Binary64 → Binary64 → Binary64
  | nan, _ | _, nan | infinite _, infinite _ => nan
  | infinite s, finite t _ => infinite (s ^^ t)
  | finite s _, infinite t => zero (s ^^ t)
  | finite s a, finite t b =>
    if b.val = 0 then (if a.val = 0 then nan else infinite (s ^^ t))
    else round (s ^^ t) (units a * one) (units b)

def neg : Binary64 → Binary64
  | nan => nan
  | infinite s => infinite !s
  | finite s a => finite (!s) a

instance : Add Binary64 := ⟨add⟩
instance : Mul Binary64 := ⟨mul⟩
instance : Div Binary64 := ⟨div⟩
instance : Neg Binary64 := ⟨neg⟩

/-- The ends of the range of 64-bit whole numbers. -/
def minWhole : Int := -0x8000000000000000

def maxWhole : Int := 0x7FFFFFFFFFFFFFFF

/-- The whole part towards zero, kept within `low` and `high`. NaN gives zero. -/
def truncateWithin (low high : Int) : Binary64 → Int
  | nan => 0
  | infinite true => low
  | infinite false => high
  | finite s a => max low (min high ((signed s (units a)).tdiv one))

/-- Strictly below. NaN is below nothing, and nothing is below it. -/
def lt : Binary64 → Binary64 → Bool
  | nan, _ | _, nan => false
  | infinite s, infinite t => s && !t
  | infinite s, finite _ _ => s
  | finite _ _, infinite t => !t
  | finite s a, finite t b => signed s (units a) < signed t (units b)

/-- The nearest number from `low` to `high`. NaN stays as it is. -/
def clamp (x low high : Binary64) : Binary64 :=
  if x.lt low then low else if high.lt x then high else x

/-- The greater one of a number and `low`, which is put for NaN, too. -/
def atLeast (x low : Binary64) : Binary64 := if low.lt x then x else low

/-- The greatest whole number not above. -/
def floor : Binary64 → Binary64
  | nan => nan
  | infinite s => infinite s
  | finite s a =>
    let n := (signed s (units a)).fdiv one
    if n = 0 then zero s else ofInt n

/-- The nearest whole number, a half upwards. The sum with one half is itself rounded, so the number
just below one half gives one. -/
def roundHalfUp (x : Binary64) : Binary64 := (x + half).floor

/-- The interchange encoding. -/
def bits : Binary64 → UInt64
  | nan => 0x7FF8000000000000
  | infinite s => (if s then 0x8000000000000000 else 0) + 0x7FF0000000000000
  | finite s a => (if s then 0x8000000000000000 else 0) + a.val.toUInt64

end Binary64

end RobotBlocks
