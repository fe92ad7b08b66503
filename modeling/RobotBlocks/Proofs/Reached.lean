import Mathlib
import RobotBlocks.Proofs.Source

/-! The statements that are reached in a chain of blocks, in source order: those of the chain up to
its first endless loop, each followed by those reached in its bodies. What the statements of a chain
report is found from this list alone. -/

namespace RobotBlocks

/-- The kinds of blocks that are statements. -/
def statementKinds : List String :=
  ["robot_move", "robot_move_soft", "robot_turn_timed", "robot_stop", "robot_set_speed",
    "move_4_motors", "motor_single", "wait_seconds", "wait_until_sensor", "timer_reset",
    "controls_if", "controls_repeat_ext", "loop_repeat_pause", "controls_forever", "loop_forever",
    "controls_whileUntil"]

/-- The kinds of loops without an end. -/
def endlessKinds : List String := ["controls_forever", "loop_forever"]

namespace Block

/-- The inputs of a block that are compiled as chains of statements, in order. -/
def bodySlots (b : Block) : List String :=
  match b.kind with
  | "controls_if" =>
    (List.range (b.shape.elseIfCount + 1)).map (fun i => "DO" ++ toString i)
      ++ if b.shape.hasElse then ["ELSE"] else []
  | "controls_repeat_ext" | "loop_repeat_pause" | "controls_forever" | "loop_forever"
  | "controls_whileUntil" => ["DO"]
  | _ => []

/-- The statements reached in a chain. -/
def reached : Option Block → List Block
  | none => []
  | some b =>
    b :: b.bodySlots.flatMap (fun name => reached (b.input? name))
      ++ if b.kind ∈ endlessKinds then [] else reached b.next?
termination_by o => sizeOf o
decreasing_by
  · exact sizeOf_input? b name
  · exact sizeOf_next? b

/-- What is gathered along a chain, block by block and body by body, is gathered along its reached
blocks. -/
theorem eq_flatMap_reached {α : Type} {F : Option Block → List α} {own : Block → List α}
    (hnone : F none = [])
    (hsome : ∀ b, F (some b) = own b ++ b.bodySlots.flatMap (fun name => F (b.input? name))
      ++ if b.kind ∈ endlessKinds then [] else F b.next?) (o : Option Block) :
    F o = (reached o).flatMap own := by
  induction o using chainInduction with
  | none =>
    rw [hnone, reached]
    rfl
  | some b ih ihn =>
    have hbodies : b.bodySlots.flatMap (fun name => F (b.input? name)) =
        (b.bodySlots.flatMap fun name => reached (b.input? name)).flatMap own := by
      simp only [ih, List.flatMap_assoc]
    have hnext : (if b.kind ∈ endlessKinds then [] else F b.next?) =
        (if b.kind ∈ endlessKinds then [] else reached b.next?).flatMap own := by
      split
      · rfl
      · exact ihn
    rw [hsome, reached, hbodies, hnext, List.flatMap_append, List.flatMap_cons]

open Generator Statement

/-- Exactly the kinds of endless loops are read as statements without an end. -/
theorem isEndless_statement (b : Block) :
    b.opened.statement.isEndless ↔ b.kind ∈ endlessKinds := by
  unfold OpenBlock.statement
  rw [opened_kind]
  split <;> simp [isEndless, endlessKinds, *]
  case h_17 => and_intros <;> assumption

theorem statementsOf_cons (b : Block) :
    statementsOf (some b) = b.opened.statement ::
      if b.kind ∈ endlessKinds then [] else statementsOf b.next? := by
  rw [statementsOf_some]
  simp only [isEndless_statement]
  split <;> rfl

theorem armUnknowns_map (f : Nat → Expression × List Statement) (indices : List Nat) :
    armUnknowns (indices.map f) = indices.flatMap fun i => chainUnknowns (f i).2 := by
  induction indices with
  | nil => rfl
  | cons i indices ih => simp [armUnknowns, ih]

/-- A statement reports its own kind if that is unknown, and what its bodies report. -/
theorem unknowns_statement (b : Block) :
    unknowns b.opened.statement = (if b.kind ∉ statementKinds then [b.kind] else [])
      ++ b.bodySlots.flatMap fun name => chainUnknowns (statementsOf (b.input? name)) := by
  unfold OpenBlock.statement bodySlots
  rw [opened_kind]
  split <;> simp [-Nat.toString_eq_repr, unknowns, statementKinds, opened_body, *]
  case h_11 =>
    rw [opened_arms, arms_statements, armUnknowns_map, List.flatMap_map]
    have hs : b.opened.shape = b.shape := rfl
    rw [hs]
    split <;> simp [armStatements, chainUnknowns]
  case h_17 => and_intros <;> assumption

theorem flatMap_singleton_if {α β : Type} (p : α → Prop) [DecidablePred p] (f : α → β)
    (xs : List α) : (xs.flatMap fun x => if p x then [f x] else []) = (xs.filter p).map f := by
  induction xs with
  | nil => rfl
  | cons x xs ih => by_cases hx : p x <;> simp [hx, ih]

/-- The unknown statements of a chain are the reached blocks whose kind is no statement's. -/
theorem chainUnknowns_statementsOf (o : Option Block) :
    chainUnknowns (statementsOf o) =
      ((reached o).filter (·.kind ∉ statementKinds)).map Block.kind := by
  rw [← flatMap_singleton_if]
  apply eq_flatMap_reached (F := fun o => chainUnknowns (statementsOf o))
  · rfl
  · intro b
    rw [statementsOf_cons, chainUnknowns, unknowns_statement, apply_ite chainUnknowns]
    rfl

end Block

/-- The first start block is the one whose chain is compiled. -/
theorem Workspace.start?_eq_find? (w : Workspace) :
    w.start? = w.blocks.find? (·.kind = startKind) := by
  rw [start?, roots, List.head?_filter]

end RobotBlocks
