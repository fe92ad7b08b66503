import Mathlib
import RobotBlocks.Proofs.Control

/-! Straight runs of the machine: through some code from front to back, with a part of the operand
stack that no instruction on the way takes anything from. -/

namespace RobotBlocks.Machine

variable {W V : Type*}

/-- The machine goes through some code, one instruction after the other, and each instruction finds
all values that it takes above `base`. -/
inductive Straight (d : Device W V) (program : List UInt8) (base : List V) :
    List Instruction → Machine W V → Machine W V → Prop where
  | refl (m : Machine W V) : Straight d program base [] m m
  | step {i : Instruction} {code : List Instruction} {m n o : Machine W V} {top : List V}
      (hread : decodeAt? program m.pc = some (.ok ⟨m.pc, i⟩)) (hstack : m.stack = top ++ base)
      (hpops : i.opcode.pops ≤ top.length) (hexecute : m.execute d i = .running n)
      (hnext : n.pc = m.pc + i.opcode.size) (hrest : Straight d program base code n o) :
      Straight d program base (i :: code) m o

section Straight

variable {d : Device W V} {program : List UInt8} {base : List V} {c e : List Instruction}
  {m n o : Machine W V}

theorem Straight.trans (h : Straight d program base c m n) (h' : Straight d program base e n o) :
    Straight d program base (c ++ e) m o := by
  induction h with
  | refl m => exact h'
  | step hread hstack hpops hexecute hnext _ ih =>
    exact .step hread hstack hpops hexecute hnext (ih h')

/-- What is above more of the stack is above less of it. -/
theorem Straight.lower {v : V} (h : Straight d program (v :: base) c m n) :
    Straight d program base c m n := by
  induction h with
  | refl m => exact .refl m
  | @step i code m n o top hread hstack hpops hexecute hnext _ ih =>
    have habove : m.stack = (top ++ [v]) ++ base := by
      rw [hstack, List.append_assoc]
      rfl
    refine .step hread habove ?_ hexecute hnext ih
    rw [List.length_append]
    omega

/-- A straight run takes one step for each instruction. -/
theorem Straight.run_eq (h : Straight d program base c m n) :
    run d program c.length m = .running n := by
  induction h with
  | refl m => rfl
  | step hread _ _ hexecute _ _ ih =>
    rw [List.length_cons, run, Machine.step, hread]
    simp only [hexecute]
    exact ih

theorem Straight.reaches (h : Straight d program base c m n) : Reaches d program 0 m n :=
  ⟨c.length, Nat.zero_le _, h.run_eq⟩

theorem Straight.single {i : Instruction} {pc : Nat} (h : BytesAt program pc [i])
    (hi : i.WellFormed) (top : List V) {stack : List V} {loops loops' : List (Nat × Nat)}
    {s s' : Scene W} (hpops : i.opcode.pops ≤ top.length)
    (hexecute : execute d ⟨pc, top ++ base, loops, s⟩ i =
      .running ⟨pc + i.opcode.size, stack, loops', s'⟩) :
    Straight d program base [i] ⟨pc, top ++ base, loops, s⟩
      ⟨pc + codeSize [i], stack, loops', s'⟩ :=
  .step (h.decodeAt? hi) rfl hpops hexecute rfl (.refl _)

variable {pc : Nat} (base) (loops : List (Nat × Nat)) (s : Scene W)

theorem straight_not (h : BytesAt program pc [⟨.not, []⟩]) (v : V) :
    Straight d program base [⟨.not, []⟩] ⟨pc, v :: base, loops, s⟩
      ⟨pc + codeSize [⟨.not, []⟩], d.negate v :: base, loops, s⟩ :=
  .single h rfl [v] le_rfl rfl

theorem straight_operator {op : Operator} (h : BytesAt program pc [⟨op.opcode, []⟩]) (l r : V) :
    Straight d program base [⟨op.opcode, []⟩] ⟨pc, r :: l :: base, loops, s⟩
      ⟨pc + codeSize [⟨op.opcode, []⟩], d.binary op l r :: base, loops, s⟩ := by
  apply Straight.single h op.emittable_opcode.1 [r, l]
  · cases op <;> exact le_rfl
  · cases op <;> rfl

end Straight

end RobotBlocks.Machine
