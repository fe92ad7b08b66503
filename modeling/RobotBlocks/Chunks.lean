/-! Cutting a list into chunks of a size. -/

namespace RobotBlocks

variable {α : Type}

/-- Cuts off chunks from the front, at most `turns` of them. -/
def cutChunks (size : Nat) : Nat → List α → List (List α)
  | 0, _ | _, [] => []
  | turns + 1, items => items.take size :: cutChunks size turns (items.drop size)

/-- The chunks of a list, in order. All but the last are full. -/
def chunksOf (size : Nat) (items : List α) : List (List α) := cutChunks size items.length items

/-- The number of chunks that some items fill, counted from their number alone. -/
def chunkCount (length size : Nat) : Nat := (length + size - 1) / size

end RobotBlocks
