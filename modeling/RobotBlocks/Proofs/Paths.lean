import Mathlib
import RobotBlocks.Proofs.Control

/-! Safety on every path through a compiled program: operands are there when they are needed and used
up when a statement ends. The machine that does look at values takes one of these paths, so it never
gets stuck. -/

namespace RobotBlocks

namespace Machine

open Statement

variable {W V : Type*} {d : Device W V}

/-- What remains of a machine without its values. -/
def control (m : Machine W V) : Control := ⟨m.pc, m.stack.length, m.loops.map Prod.fst⟩

/-- What an instruction does to a machine, without regard to values: it goes on, jumps to its
address, or goes back to the start of the innermost loop. -/
theorem control_execute {m n : Machine W V} {i : Instruction} (h : m.execute d i = .running n) :
    (i.opcode.falls ∧ n.control = m.control.next i.opcode) ∨
    (∃ a, i.target? = some a ∧ n.control = { m.control.next i.opcode with pc := a }) ∨
    (i.opcode = .repeatEnd ∧ ∃ start rest, m.control.loops = start :: rest ∧
      n.control = { m.control with pc := start }) := by
  obtain ⟨op, operands⟩ := i
  unfold execute at h
  split at h
  case h_1 => cases h
  case h_2 a hop ha | h_3 a hop ha =>
    cases hop
    cases ha
    cases h
    exact .inr (.inl ⟨a.toNat, rfl, rfl⟩)
  case h_4 a hop ha =>
    cases hop
    cases ha
    split at h
    next v rest hstack =>
      cases h
      by_cases hv : d.truth v
      · exact .inl ⟨rfl, by simp [control, Control.next, hv, hstack, Opcode.pops, Opcode.pushes]⟩
      · exact .inr (.inl ⟨a.toNat, rfl, by
          simp [control, Control.next, hv, hstack, Opcode.pops, Opcode.pushes]⟩)
    next => cases h
  case h_5 k hop hk =>
    cases hop
    cases h
    exact .inl ⟨rfl, rfl⟩
  case h_6 hop =>
    cases hop
    split at h
    next start k rest hloops =>
      split at h
      · cases h
        exact .inr (.inr ⟨rfl, start, rest.map Prod.fst, by simp [control, hloops], by
          simp [control, hloops]⟩)
      · cases h
        exact .inl ⟨rfl, by simp [control, Control.next, hloops, Opcode.pops, Opcode.pushes]⟩
    next => cases h
  case h_7 hop _ | h_8 hop _ | h_9 hop _ | h_10 hop =>
    cases hop
    cases h
    exact .inl ⟨rfl, rfl⟩
  case h_11 hop =>
    cases hop
    split at h
    next v rest hstack =>
      cases h
      exact .inl ⟨rfl, by simp [control, Control.next, hstack, Opcode.pops, Opcode.pushes]⟩
    next => cases h
  case h_12 =>
    split at h
    next heffect =>
      cases h
      exact .inl ⟨Control.falls_of_isEffect heffect, (Control.next_of_isEffect heffect m.control).symm⟩
    next =>
      split at h
      next o right left rest hoperator hstack =>
        cases h
        have hnext := Control.next_of_operator? hoperator m.control
        exact .inl ⟨Control.falls_of_operator? hoperator, by rw [hnext]; simp [control, hstack]⟩
      next => cases h

/-- A step of a machine is one of the steps that are possible without regard to values. -/
theorem control_step {program : List UInt8} {m n : Machine W V}
    (h : m.step d program = .running n) : Control.Step program m.control n.control := by
  unfold step at h
  split at h
  next line hline =>
    rcases control_execute h with ⟨hfalls, hn⟩ | ⟨a, ha, hn⟩ | ⟨hop, start, rest, hloops, hn⟩
    · exact hn ▸ .onward hline hfalls
    · exact hn ▸ .jump hline ha
    · exact hn ▸ .back hline hop hloops
  next => cases h

theorem operand_of_wellFormed {op : Opcode} {operands : List Operand} {k : OperandKind}
    (h : (⟨op, operands⟩ : Instruction).WellFormed) (hk : op.operands = [k]) :
    ∃ o : Operand, operands = [o] ∧ o.kind = k :=
  List.map_eq_singleton_iff.mp (h.trans hk)

/-- A machine is not stuck at an instruction that is ready and has the operands it takes. -/
theorem execute_ne_stuck {m : Machine W V} {i : Instruction} (hwf : i.WellFormed)
    (hready : m.control.Ready i.opcode) (s : Scene W) : m.execute d i ≠ .stuck s := by
  intro h
  have hoperands := hready.operands
  have hlooping := hready.looping
  obtain ⟨op, operands⟩ := i
  unfold execute at h
  split at h
  case h_4 a hop ha =>
    cases hop
    split at h
    next => cases h
    next hstack => simp [control, hstack, Opcode.pops] at hoperands
  case h_6 hop =>
    cases hop
    split at h
    next => split at h <;> cases h
    next hloops => simp [control, hloops] at hlooping
  case h_11 hop =>
    cases hop
    split at h
    next => cases h
    next hstack => simp [control, hstack, Opcode.pops] at hoperands
  case h_12 hhalt hend htimer hnot hjump hloop hbranch hstart hconst hbool hsensor =>
    split at h
    next => cases h
    next heffect =>
      split at h
      next => cases h
      next hmissing =>
        cases hoperator : op.operator? with
        | some o =>
          have hpops := Control.pops_of_operator? hoperator
          rcases hstack : m.stack with _ | ⟨right, _ | ⟨left, rest⟩⟩
          · simp [hpops, control, hstack] at hoperands
          · simp [hpops, control, hstack] at hoperands
          · exact hmissing o right left rest hoperator hstack
        | none =>
          -- all other instructions have a case of their own for the operand they take
          cases op
          case jump | loopEnd | jumpIfFalse | repeatStart | pushConst | pushBool | pushSensor =>
            obtain ⟨o, rfl, ho⟩ := operand_of_wellFormed hwf rfl
            cases o <;> cases ho
            simp_all
          all_goals simp_all [Opcode.isEffect, Opcode.operator?]
  all_goals cases h

/-- From a place on a path, a machine runs without ever getting stuck. -/
theorem run_ne_stuck {ss : List Statement} (hlen : codeSize (programCode ss) ≤ maxProgram)
    {m : Machine W V} (hm : Control.Reachable (codeBytes (programCode ss)) m.control) (steps : Nat)
    (s : Scene W) : run d (codeBytes (programCode ss)) steps m ≠ .stuck s := by
  induction steps generalizing m with
  | zero => simp [run]
  | succ steps ih =>
    have hwf := programCode_wellFormed ss
    obtain ⟨i, hcode, hfits, -⟩ := (hm.visits hlen).instruction
    rw [run]
    cases hs : m.step d (codeBytes (programCode ss)) with
    | running n => exact ih (hm.tail (control_step hs))
    | halted s' => simp
    | stuck s' =>
      have hi : i.WellFormed := hcode.wellFormed hwf
      rw [CodeAt.step hwf hcode] at hs
      exact absurd hs (execute_ne_stuck hi hfits.ready s')

/-- No run of a compiled program gets stuck, whatever the device does. -/
theorem run_compiled_ne_stuck (d : Device W V) {w : Workspace} {out : CompileOutput}
    (h : compile w = .ok out) (world : W) (steps : Nat) (s : Scene W) :
    run d out.program steps (initial world) ≠ .stuck s := by
  obtain ⟨ss, hprogram, hlen⟩ := exists_programCode h
  rw [hprogram]
  exact run_ne_stuck (m := initial world) hlen (.start _) steps s

end Machine

/-- On every path through a compiled program, whichever branches are taken, control is at an
instruction of the program that is ready: its operands are there, a condition is tested as the only
operand, statements begin without operands, and the end of a counted loop is reached in a loop. -/
theorem compiled_paths_ready {w : Workspace} {out : CompileOutput} (h : compile w = .ok out) :
    ∃ lines, decode out.program = .ok lines ∧ ∀ c, Control.Reachable out.program c →
      ∃ line ∈ lines, line.offset = c.pc ∧ decodeAt? out.program c.pc = some (.ok line) ∧
        c.Ready line.instruction.opcode := by
  obtain ⟨ss, hprogram, hlen⟩ := exists_programCode h
  have hwf := Statement.programCode_wellFormed ss
  rw [hprogram]
  refine ⟨_, decode_codeBytes hwf, fun c hc => ?_⟩
  obtain ⟨i, hcode, hfits, -⟩ := (hc.visits hlen).instruction
  exact ⟨⟨c.pc, i⟩, hcode.mem_lines, rfl, hcode.decodeAt? hwf, hfits.ready⟩

/-- A loop that stops twice if a condition holds. The end of the conditional is the end of the body.
-/
def loopedStart : Block :=
  let inner := (Block.bare "controls_if").withInput "DO0" (.bare "robot_stop")
  let loop := (Block.bare "controls_repeat_ext").withInput "TIMES" (.number (.ofNat 2))
  (Block.bare "start_hat").append (loop.withInput "DO" inner)

def loopedProgram : List UInt8 := [18, 0, 2, 32, 0, 0, 17, 0, 13, 6, 16, 0, 13, 19, 255]

theorem loopedStart_program :
    ∃ out, compile (.ofBlocks [loopedStart]) = .ok out ∧ out.program = loopedProgram := by
  have hk : (compile (.ofBlocks [loopedStart])).toOption.map CompileOutput.program =
      some loopedProgram := by decide +kernel
  cases hc : compile (.ofBlocks [loopedStart]) with
  | error e => simp [hc, Except.toOption] at hk
  | ok out => exact ⟨out, rfl, by simpa [hc, Except.toOption] using hk⟩

/-- The condition may fail, and the end of the loop is reached without the stop. -/
theorem reachable_loopedProgram : Control.Reachable loopedProgram ⟨13, 0, [3]⟩ := by
  have hstart : decodeAt? loopedProgram 0 = some (.ok ⟨0, .repeatStart, [.count 2]⟩) := rfl
  have hpush : decodeAt? loopedProgram 3 = some (.ok ⟨3, .pushConst, [.word 0]⟩) := rfl
  have htest : decodeAt? loopedProgram 6 = some (.ok ⟨6, .jumpIfFalse, [.address 13]⟩) := rfl
  have henter := Control.Step.onward (c := .initial) hstart rfl
  have hcondition := Control.Step.onward (c := ⟨3, 0, [3]⟩) hpush rfl
  have hbranch := Control.Step.jump (c := ⟨6, 1, [3]⟩) htest rfl
  exact ((Relation.ReflTransGen.single henter).tail hcondition).tail hbranch

theorem compiled_paths_ready_looped :
    (∃ out, compile (.ofBlocks [loopedStart]) = .ok out ∧ out.program = loopedProgram) ∧
      Control.Reachable loopedProgram ⟨13, 0, [3]⟩ ∧
      Control.Ready ⟨13, 0, [3]⟩ .repeatEnd := by
  obtain ⟨out, hc, hp⟩ := loopedStart_program
  obtain ⟨lines, -, hready⟩ := compiled_paths_ready hc
  rw [hp] at hready
  obtain ⟨line, -, -, hline, h⟩ := hready _ reachable_loopedProgram
  have hdecode : decodeAt? loopedProgram 13 = some (.ok ⟨13, .repeatEnd, []⟩) := rfl
  obtain rfl : ⟨13, .repeatEnd, []⟩ = line := by
    simpa using hdecode.symm.trans hline
  exact ⟨⟨out, hc, hp⟩, reachable_loopedProgram, h⟩

end RobotBlocks
