import Mathlib
import RobotBlocks.Proofs.Simulation

/-! The values of operands. Whatever numbers the blocks hold, the operands of a compiled program are
ones that the runner takes: numbers are limited before they are cut down to bytes and words, so
nothing wraps around. -/

namespace RobotBlocks

namespace Binary64

theorem toInt_toSpeed (x : Binary64) : x.toSpeed.toInt = x.roundWithin (-100) 100 := by
  have hrange : -100 ≤ x.roundWithin (-100) 100 ∧ x.roundWithin (-100) 100 ≤ 100 :=
    x.roundWithin_mem (by decide) (by decide)
  rw [toSpeed_eq]
  apply Int8.toInt_ofInt_of_le
  · exact le_trans (by decide) hrange.1
  · exact lt_of_le_of_lt hrange.2 (by decide)

theorem toNat_toPercent (x : Binary64) : (x.toPercent.toNat : Int) = x.roundWithin 0 100 := by
  have hrange : 0 ≤ x.roundWithin 0 100 ∧ x.roundWithin 0 100 ≤ 100 :=
    x.roundWithin_mem le_rfl (by decide)
  have hbyte : x.toPercent.toNat = (x.roundWithin 0 100).toNat := by
    rw [toPercent_eq]
    apply UInt8.toNat_ofNat_of_lt
    show _ < 256
    omega
  omega

end Binary64

/-- An instruction whose operands the runner takes. -/
structure Instruction.Legal (i : Instruction) : Prop where
  speed : ∀ v, .speed v ∈ i.operands → -100 ≤ v.toInt ∧ v.toInt ≤ 100
  setSpeed : i.opcode = .setSpeed → ∃ v, i.operands = [.byte v] ∧ v.toNat ≤ 100
  pushBool : i.opcode = .pushBool → i.operands = [.byte 0] ∨ i.operands = [.byte 1]
  repeatStart : i.opcode = .repeatStart → ∃ n, i.operands = [.count n] ∧ 1 ≤ n.toNat
  drive : i.opcode = .drive → ∃ left right time,
    i.operands = [.speed left, .speed right, .millis time] ∧
      (left = right ∨ (left = -80 ∧ right = 80) ∨ (left = 80 ∧ right = -80))

/-- The opcodes whose operands are limited otherwise than as speeds. -/
def Opcode.isLimited : Opcode → Bool
  | setSpeed | pushBool | repeatStart | drive => true
  | _ => false

namespace Instruction

theorem legal_of_not_limited {i : Instruction} (h : i.opcode.isLimited = false)
    (hspeed : ∀ v, .speed v ∈ i.operands → -100 ≤ v.toInt ∧ v.toInt ≤ 100) : i.Legal := by
  constructor
  case speed => exact hspeed
  all_goals
    intro hop
    rw [hop] at h
    cases h

/-- An instruction without speeds whose other operands are not limited. -/
theorem legal_of_plain {i : Instruction} (h : i.opcode.isLimited = false)
    (hkinds : ∀ o ∈ i.operands, o.kind ≠ .speed) : i.Legal := by
  apply legal_of_not_limited h
  intro v hv
  exact absurd rfl (hkinds _ hv)

theorem legal_jumpTo {op : Opcode} (h : op.IsJump) (address : Nat) : (jumpTo op address).Legal := by
  cases h <;> exact legal_of_plain rfl (by simp [jumpTo, Operand.kind])

theorem legal_operator (op : Operator) : (⟨op.opcode, []⟩ : Instruction).Legal := by
  cases op <;> exact legal_of_plain rfl (by simp)

/-- Instructions whose operands are all speeds, made from numbers. -/
theorem legal_speeds {op : Opcode} (h : op.isLimited = false) {operands : List Operand}
    (hoperands : ∀ o ∈ operands, o.kind = .speed → ∃ x : Binary64, o = .speed x.toSpeed) :
    (⟨op, operands⟩ : Instruction).Legal := by
  apply legal_of_not_limited h
  intro v hv
  obtain ⟨x, hx⟩ := hoperands _ hv rfl
  obtain rfl : v = x.toSpeed := by simpa using hx
  rw [x.toInt_toSpeed]
  exact x.roundWithin_mem (by decide) (by decide)

theorem legal_drive {left right : Int8} (time : UInt16)
    (h : (∃ x : Binary64, left = x.toSpeed ∧ right = x.toSpeed) ∨
      (left = -80 ∧ right = 80) ∨ (left = 80 ∧ right = -80)) :
    (⟨.drive, [.speed left, .speed right, .millis time]⟩ : Instruction).Legal := by
  constructor
  case speed =>
    intro v hv
    obtain rfl | rfl : v = left ∨ v = right := by simpa using hv
    all_goals
      rcases h with ⟨x, rfl, rfl⟩ | ⟨rfl, rfl⟩ | ⟨rfl, rfl⟩
      · rw [x.toInt_toSpeed]
        exact x.roundWithin_mem (by decide) (by decide)
      · decide
      · decide
  case drive =>
    intro _
    refine ⟨left, right, time, rfl, ?_⟩
    rcases h with ⟨x, rfl, rfl⟩ | h
    · exact .inl rfl
    · exact .inr h
  all_goals
    intro hop
    cases hop

theorem legal_setSpeed (x : Binary64) :
    (⟨.setSpeed, [.byte x.toPercent]⟩ : Instruction).Legal := by
  constructor
  case setSpeed =>
    intro _
    refine ⟨x.toPercent, rfl, ?_⟩
    have hle : x.roundWithin 0 100 ≤ 100 := (x.roundWithin_mem le_rfl (by decide)).2
    have hpercent := x.toNat_toPercent
    omega
  case speed => simp
  all_goals
    intro hop
    cases hop

theorem legal_pushBool (v : Bool) : (⟨.pushBool, [.byte v.toUInt8]⟩ : Instruction).Legal := by
  constructor
  case pushBool =>
    intro _
    cases v
    · exact .inl rfl
    · exact .inr rfl
  case speed => simp
  all_goals
    intro hop
    cases hop

theorem legal_repeatStart (x : Binary64) :
    (⟨.repeatStart, [.count x.toCount]⟩ : Instruction).Legal := by
  constructor
  case repeatStart =>
    intro _
    exact ⟨x.toCount, rfl, Block.toCount_pos x⟩
  case speed => simp
  all_goals
    intro hop
    cases hop

end Instruction

open Instruction

theorem Expression.legal_code (e : Expression) : ∀ i ∈ e.code, i.Legal := by
  induction e with
  | constant x => exact List.forall_mem_singleton.mpr (legal_of_plain rfl (by simp [Operand.kind]))
  | boolean v => exact List.forall_mem_singleton.mpr (legal_pushBool v)
  | sensor id => exact List.forall_mem_singleton.mpr (legal_of_plain rfl (by simp [Operand.kind]))
  | timer =>
    simp only [code, List.forall_mem_cons]
    exact ⟨legal_of_plain rfl (by simp), legal_of_plain rfl (by simp [Operand.kind]),
      legal_operator .divide, by simp⟩
  | not e ih =>
    simp only [code, List.forall_mem_append, List.forall_mem_cons]
    exact ⟨ih, legal_of_plain rfl (by simp), by simp⟩
  | binary op l r ihl ihr =>
    simp only [code, List.forall_mem_append, List.forall_mem_cons]
    exact ⟨⟨ihl, ihr⟩, legal_operator op, by simp⟩

namespace Statement

theorem legal_simpleCode (s : Statement) : ∀ i ∈ s.simpleCode, i.Legal := by
  have hstop : (⟨.stop, []⟩ : Instruction).Legal := legal_of_plain rfl (by simp)
  cases s with
  | moveFor speed seconds =>
    exact List.forall_mem_singleton.mpr (legal_drive _ (.inl ⟨speed, rfl, rfl⟩))
  | turnFor toLeft seconds =>
    simp only [simpleCode, List.forall_mem_cons]
    refine ⟨legal_drive _ (.inr ?_), hstop, by simp⟩
    cases toLeft
    · exact .inr ⟨rfl, rfl⟩
    · exact .inl ⟨rfl, rfl⟩
  | setSpeed percent => exact List.forall_mem_singleton.mpr (legal_setSpeed percent)
  | stop => exact List.forall_mem_singleton.mpr hstop
  | move l r | moveFour m₁ m₂ m₃ m₄ | setMotor id speed =>
    exact List.forall_mem_singleton.mpr (legal_speeds rfl (by simp [Operand.kind]))
  | wait seconds =>
    exact List.forall_mem_singleton.mpr (legal_of_plain rfl (by simp [Operand.kind]))
  | resetTimer => exact List.forall_mem_singleton.mpr (legal_of_plain rfl (by simp))
  | _ => simp [simpleCode]

theorem legal_pauseCode (pause : Option Binary64) : ∀ i ∈ pauseCode pause, i.Legal := by
  cases pause with
  | none => simp [pauseCode]
  | some seconds =>
    have hwait : (⟨.wait, [.millis seconds.toMillis]⟩ : Instruction).Legal :=
      legal_of_plain rfl (by simp [Operand.kind])
    simp only [pauseCode]
    split
    · exact List.forall_mem_singleton.mpr hwait
    · simp

theorem legal_conditionCode (negated : Bool) (condition : Expression) :
    ∀ i ∈ conditionCode negated condition, i.Legal := by
  simp only [conditionCode, List.forall_mem_append]
  refine ⟨condition.legal_code, ?_⟩
  cases negated
  · simp
  · exact List.forall_mem_singleton.mpr (legal_of_plain rfl (by simp))

theorem legal_guardCode (sensor : UInt8) (op : Operator) (value : Binary64) :
    ∀ i ∈ guardCode sensor op value, i.Legal := by
  simp only [guardCode, List.forall_mem_cons]
  exact ⟨legal_of_plain rfl (by simp [Operand.kind]), legal_of_plain rfl (by simp [Operand.kind]),
    legal_operator op, by simp⟩

/-- All instructions are legal, wherever the code stands. -/
theorem legal_cases : InductionCases
    (fun s => ∀ base, ∀ i ∈ layout s base, i.Legal)
    (fun ss => ∀ base, ∀ i ∈ chainLayout ss base, i.Legal)
    (fun arms => ∀ base exit, ∀ i ∈ armsLayout arms base exit, i.Legal) where
  simple s hs base := by
    rw [layout_of_simple hs]
    exact legal_simpleCode s
  waitUntil sensor op value base := by
    simp only [layout, List.forall_mem_append, List.forall_mem_cons]
    exact ⟨legal_guardCode sensor op value, legal_jumpTo .jumpIfFalse _, legal_jumpTo .jump _,
      by simp⟩
  choose arms otherwise iha iho base := by
    simp only [layout, List.forall_mem_append]
    exact ⟨iha _ _, iho _⟩
  repeatTimes times pause body ih base := by
    simp only [layout, List.forall_mem_append, List.forall_mem_cons]
    exact ⟨⟨⟨legal_repeatStart times, ih _⟩, legal_pauseCode pause⟩,
      legal_of_plain rfl (by simp), by simp⟩
  forever body ih base := by
    simp only [layout, List.forall_mem_append, List.forall_mem_cons]
    exact ⟨ih _, legal_jumpTo .loopEnd _, by simp⟩
  loopWhile negated condition body ih base := by
    simp only [layout, List.forall_mem_append, List.forall_mem_cons]
    exact ⟨⟨legal_conditionCode negated condition, legal_jumpTo .jumpIfFalse _, ih _⟩,
      legal_jumpTo .loopEnd _, by simp⟩
  nil base := by simp [chainLayout]
  cons s rest ihs ihr base := by
    simp only [chainLayout, List.forall_mem_append]
    exact ⟨ihs _, ihr _⟩
  armsNil base exit := by simp [armsLayout]
  armsCons condition body rest ihb ihr base exit := by
    simp only [armsLayout, List.forall_mem_append, List.forall_mem_cons]
    exact ⟨⟨condition.legal_code, legal_jumpTo .jumpIfFalse _, ihb _⟩, legal_jumpTo .jump _,
      ihr _ _⟩

theorem legal_programCode (ss : List Statement) : ∀ i ∈ programCode ss, i.Legal := by
  simp only [programCode, List.forall_mem_append, List.forall_mem_singleton]
  exact ⟨legal_cases.chain ss 0, legal_of_plain rfl (by simp)⟩

end Statement

/-- A compiled program is decoded to instructions whose operands are all legal. -/
theorem compiled_operands_legal {w : Workspace} {out : CompileOutput} (h : compile w = .ok out) :
    ∃ lines, decode out.program = .ok lines ∧ ∀ line ∈ lines, line.instruction.Legal := by
  obtain ⟨ss, hprogram, -⟩ := exists_programCode h
  refine ⟨linesFrom 0 (Statement.programCode ss), ?_, ?_⟩
  · rw [hprogram]
    exact decode_codeBytes (Statement.programCode_wellFormed ss)
  · intro line hline
    exact Statement.legal_programCode ss _ (instruction_mem hline)

/-- Speeds and a count that no robot takes: infinite, no number at all, and far too large. -/
def extremeStart : Block :=
  let move := ((Block.bare "robot_move").withInput "L" (.number (.infinite false))).withInput "R"
    (.number .nan)
  let soft := (Block.bare "robot_move_soft").withInput "TARGET" (.number (.ofInt (-1000)))
  let limit := (Block.bare "robot_set_speed").withInput "SPEED"
    ((Block.bare "math_number").withField "NUM" (.text " 1e999 "))
  let loop := ((Block.bare "controls_repeat_ext").withInput "TIMES"
    (.number (.infinite true))).withInput "DO" (.bare "robot_turn_timed")
  (Block.bare "start_hat").append (move.append (soft.append (limit.append loop)))

def extremeProgram : List UInt8 :=
  [1, 100, 0, 2, 156, 156, 3, 232, 8, 100, 18, 0, 1, 2, 80, 176, 1, 244, 6, 19, 255]

theorem compiled_operands_legal_extreme :
    ∃ out lines, compile (.ofBlocks [extremeStart]) = .ok out ∧ out.program = extremeProgram ∧
      decode extremeProgram = .ok lines ∧ ∀ line ∈ lines, line.instruction.Legal := by
  have hk : (compile (.ofBlocks [extremeStart])).toOption.map CompileOutput.program =
      some extremeProgram := by decide +kernel
  cases hc : compile (.ofBlocks [extremeStart]) with
  | error e => simp [hc, Except.toOption] at hk
  | ok out =>
    have hp : out.program = extremeProgram := by simpa [hc, Except.toOption] using hk
    obtain ⟨lines, hlines⟩ := compiled_operands_legal hc
    rw [hp] at hlines
    exact ⟨out, lines, rfl, hp, hlines⟩

end RobotBlocks
