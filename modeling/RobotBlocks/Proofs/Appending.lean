import Mathlib
import RobotBlocks.Proofs.Source

/-! Appending to a chain of blocks. A chain goes on with the target of each connection, a shadow if
no block is attached, while appending passes over attached blocks alone. The main result says what
becomes of a chain: its attached blocks are kept as they are, and a shadow behind the last of them
is lost with all that follows it. -/

namespace RobotBlocks.Block

/-- A block by itself, without what stands behind it. -/
def alone (b : Block) : Block := { b with next := none }

/-- A block and those attached behind it, in order, without shadows. -/
def attached : Block → List Block
  | ⟨kind, id, fields, inputs, some ⟨some b, shadow⟩, extraState, legacy⟩ =>
    ⟨kind, id, fields, inputs, some ⟨some b, shadow⟩, extraState, legacy⟩ :: b.attached
  | b => [b]

/-- The last of the attached blocks. -/
def lastAttached : Block → Block
  | ⟨_, _, _, _, some ⟨some b, _⟩, _, _⟩ => b.lastAttached
  | b => b

theorem getLast?_attached (a : Block) : a.attached.getLast? = some a.lastAttached := by
  fun_induction attached a with
  | case1 kind id fields inputs b shadow extraState legacy ih =>
    rw [List.getLast?_cons, ih, lastAttached]
    rfl
  | case2 b hb =>
    rw [lastAttached]
    · rfl
    · exact hb

theorem block_lastAttached (a : Block) : a.lastAttached.next.bind Connection.block = none := by
  fun_induction lastAttached a with
  | case1 _ _ _ _ b _ _ _ ih => exact ih
  | case2 b hb =>
    obtain ⟨kind, id, fields, inputs, next, extraState, legacy⟩ := b
    cases next with
    | none => rfl
    | some c =>
      obtain ⟨block, shadow⟩ := c
      cases block with
      | none => rfl
      | some block => exact absurd rfl (hb kind id fields inputs block shadow extraState legacy)

/-- A chain is its attached blocks and what stands in behind the last of them. -/
theorem chain_eq_attached (a : Block) :
    chain (some a) = a.attached ++ chain a.lastAttached.next? := by
  fun_induction attached a with
  | case1 kind id fields inputs b shadow extraState legacy ih =>
    rw [chain, lastAttached, List.cons_append, ← ih]
    rfl
  | case2 b hb =>
    rw [chain, lastAttached]
    · rfl
    · exact hb

/-- Appending keeps the attached blocks, each as it is by itself, and puts the other chain behind
them. -/
theorem chain_append (a b : Block) : ∃ front, chain (some (a.append b)) = front ++ chain (some b) ∧
    front.map alone = a.attached.map alone := by
  fun_induction append a b with
  | case1 kind id fields inputs next shadow extraState legacy tail ih =>
    obtain ⟨front, hchain, hfront⟩ := ih
    rw [chain, attached]
    refine ⟨_ :: front, congrArg _ hchain, ?_⟩
    rw [List.map_cons, List.map_cons, hfront]
    rfl
  | case2 kind id fields inputs next extraState legacy tail hnext =>
    -- no block is attached here, so the connection is replaced, with a shadow that is in it
    have hattached : attached ⟨kind, id, fields, inputs, next, extraState, legacy⟩ =
        [⟨kind, id, fields, inputs, next, extraState, legacy⟩] := by
      rw [attached]
      intro _ _ _ _ b shadow _ _ h
      cases h
      exact hnext b shadow rfl
    rw [chain, hattached]
    exact ⟨[_], rfl, rfl⟩

theorem chain_eq_nil {o : Option Block} : chain o = [] ↔ o = none := by
  cases o with
  | none => simp [chain]
  | some b => simp [chain]

/-- Appending keeps the attached blocks of a chain, with all that is in them, and puts the other
chain behind them as it is. Behind the last attached block a chain goes on with a shadow, if there
is one, and from there on it is lost; so the one chain stands whole before the other exactly if
there is none. -/
theorem append_keeps_attached (a b : Block) :
    (chain (some a) = a.attached ++ chain a.lastAttached.next? ∧
        a.attached.getLast? = some a.lastAttached ∧
        a.lastAttached.next.bind Connection.block = none) ∧
      (∃ front, chain (some (a.append b)) = front ++ chain (some b) ∧
        front.map alone = a.attached.map alone) ∧
      ((chain (some (a.append b))).map alone =
          (chain (some a)).map alone ++ (chain (some b)).map alone ↔
        a.lastAttached.next? = none) := by
  obtain ⟨front, hchain, hfront⟩ := chain_append a b
  refine ⟨⟨chain_eq_attached a, getLast?_attached a, block_lastAttached a⟩,
    ⟨front, hchain, hfront⟩, ?_⟩
  rw [hchain, chain_eq_attached a, List.map_append, List.map_append, hfront, List.append_left_inj,
    List.self_eq_append_right, List.map_eq_nil_iff, chain_eq_nil]

/-- A start block with a shadow behind it. -/
def shadowedStart : Block :=
  { bare "start_hat" with next := some ⟨none, some (bare "timer_reset")⟩ }

/-- The shadow is a block of the chain, and it is gone when another block is appended. -/
theorem append_loses_shadow :
    (chain (some shadowedStart)).map kind = ["start_hat", "timer_reset"] ∧
      (chain (some (shadowedStart.append (bare "robot_stop")))).map kind =
        ["start_hat", "robot_stop"] ∧
      (chain (some (shadowedStart.append (bare "robot_stop")))).map alone ≠
        (chain (some shadowedStart)).map alone ++ (chain (some (bare "robot_stop"))).map alone := by
  have hshadowed : chain (some shadowedStart) = [shadowedStart, bare "timer_reset"] := by
    simp [chain, shadowedStart, bare, next?, Connection.target?]
  have happended : chain (some (shadowedStart.append (bare "robot_stop"))) =
      [shadowedStart.append (bare "robot_stop"), bare "robot_stop"] := by
    simp [chain, shadowedStart, bare, append, next?, Connection.target?, Connection.to]
  rw [hshadowed, happended]
  refine ⟨rfl, rfl, fun h => ?_⟩
  have hlength := congrArg List.length h
  simp [chain, bare, next?] at hlength

end RobotBlocks.Block
