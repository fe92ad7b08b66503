import RobotBlocks.Link.Upload

/-! A transport whose faults are scripted. -/

namespace RobotBlocks

/-- After `failAfter` writes every write fails, after `zeroAfter` writes every write is refused for
taking nothing, and after `flushFailAfter` flushes every flush fails. A write takes at most
`maxWrite` bytes, and counts even if that is none. -/
structure Script where
  failAfter : Option Nat
  zeroAfter : Option Nat
  flushFailAfter : Option Nat
  maxWrite : Option Nat
  deriving DecidableEq, Repr

/-- A script and how many writes and flushes have succeeded under it. -/
structure Scripted where
  script : Script
  writes : Nat
  flushes : Nat
  deriving DecidableEq, Repr

namespace Scripted

def new (script : Script) : Scripted := ⟨script, 0, 0⟩

def write (s : Scripted) (bytes : List UInt8) : Except IoFault Nat × Scripted :=
  if s.script.failAfter = some s.writes then (.error .linkDropped, s)
  else if s.script.zeroAfter = some s.writes then (.error .nothingTaken, s)
  else
    let taken := match s.script.maxWrite with
      | some most => min most bytes.length
      | none => bytes.length
    (.ok taken, { s with writes := s.writes + 1 })

def flush (s : Scripted) : Except IoFault Unit × Scripted :=
  if s.script.flushFailAfter = some s.flushes then (.error .flushStalled, s)
  else (.ok (), { s with flushes := s.flushes + 1 })

def transport : Transport Scripted := ⟨write, flush⟩

end Scripted

end RobotBlocks
