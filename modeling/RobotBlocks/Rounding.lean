import RobotBlocks.Binary64

/-! Rounding numbers to the operands of instructions. Each operand is the nearest whole number,
halves upwards, kept within the range that the runner takes. NaN counts as zero. -/

namespace RobotBlocks

/-- The low eight bits of a whole number. -/
def lowByte (n : Int) : UInt8 := (n % 256).toNat.toUInt8

namespace Binary64

/-- Limits a number to a range, then rounds it. -/
def limited (low high : Int) (x : Binary64) : Binary64 :=
  let x := if x.isNaN then zero false else x.clamp (ofInt low) (ofInt high)
  x.roundHalfUp

/-- A motor speed from -100 to 100. -/
def toSpeed (x : Binary64) : Int8 := ((x.limited (-100) 100).truncateWithin (-128) 127).toInt8

def toPercent (x : Binary64) : UInt8 := ((x.limited 0 100).truncateWithin 0 255).toNat.toUInt8

/-- Seconds as milliseconds. -/
def toMillis (seconds : Binary64) : UInt16 :=
  (((seconds * ofNat 1000).limited 0 65535).truncateWithin 0 65535).toNat.toUInt16

/-- A 16-bit constant: negative numbers in two's complement, large ones cut off at the greatest. -/
def toWord (x : Binary64) : UInt16 :=
  let v := x.roundHalfUp
  if x.isNaN then 0
  else if v.lt (ofNat 0) then (v.truncateWithin minWhole maxWhole % 65536).toNat.toUInt16
  else if (ofNat 65535).lt v then 65535
  else (v.truncateWithin 0 65535).toNat.toUInt16

/-- How often a loop runs, at least once. The rounded count is rounded again as a constant. -/
def toCount (x : Binary64) : UInt16 := (x.roundHalfUp.atLeast (ofNat 1)).toWord

end Binary64

end RobotBlocks
