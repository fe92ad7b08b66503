import Mathlib
import RobotBlocks.Proofs.Decoding

/-! The runner as a machine over the bytes of a program. What sensors, timer, effects and operators
mean is left open; what happens is recorded event by event. -/

namespace RobotBlocks

variable {W V : Type*}

/-- What values, operators, sensors, the timer and effects are, over a world of any kind. -/
structure Device (W V : Type*) where
  word : UInt16 → V
  flag : UInt8 → V
  truth : V → Bool
  negate : V → V
  binary : Operator → V → V → V
  sensor : UInt8 → W → V × W
  timer : W → V × W
  perform : Instruction → W → W

/-- What can be seen of a run from outside. -/
inductive Event where
  | performed (effect : Instruction)
  | sensed (id : UInt8)
  | timed
  deriving DecidableEq, Repr

/-- A world and what has happened in it so far, in order. -/
structure Scene (W : Type*) where
  world : W
  events : List Event
  deriving DecidableEq, Repr

namespace Scene

def perform (d : Device W V) (s : Scene W) (i : Instruction) : Scene W :=
  ⟨d.perform i s.world, s.events ++ [.performed i]⟩

def sense (d : Device W V) (s : Scene W) (id : UInt8) : V × Scene W :=
  ((d.sensor id s.world).1, ⟨(d.sensor id s.world).2, s.events ++ [.sensed id]⟩)

def readTimer (d : Device W V) (s : Scene W) : V × Scene W :=
  ((d.timer s.world).1, ⟨(d.timer s.world).2, s.events ++ [.timed]⟩)

end Scene

/-- Instructions that act on the robot. -/
def Opcode.isEffect : Opcode → Bool
  | driveSet | drive | driveFourSet | driveFour | setMotor | stop | wait | setSpeed
  | timerReset => true
  | _ => false

/-- The operator that an instruction applies. -/
def Opcode.operator? : Opcode → Option Operator
  | less => some .less
  | greater => some .greater
  | equal => some .equal
  | notEqual => some .notEqual
  | atMost => some .atMost
  | atLeast => some .atLeast
  | and => some .and
  | or => some .or
  | add => some .add
  | subtract => some .subtract
  | multiply => some .multiply
  | divide => some .divide
  | _ => none

/-- A machine between two instructions. Each loop that is being repeated has the address of its body
and the number of rounds left. -/
structure Machine (W V : Type*) where
  pc : Nat
  stack : List V
  loops : List (Nat × Nat)
  scene : Scene W
  deriving DecidableEq, Repr

/-- What becomes of a machine. It is stuck at bytes that are no instruction, and when a stack is
empty that should not be. -/
inductive Machine.Status (W V : Type*) where
  | running (m : Machine W V)
  | halted (scene : Scene W)
  | stuck (scene : Scene W)
  deriving DecidableEq, Repr

def Machine.Status.scene : Machine.Status W V → Scene W
  | running m => m.scene
  | halted s | stuck s => s

namespace Machine

/-- A machine at the start of a program. -/
def initial (world : W) : Machine W V := ⟨0, [], [], ⟨world, []⟩⟩

def push (m : Machine W V) (next : Nat) (value : V × Scene W) : Status W V :=
  .running ⟨next, value.1 :: m.stack, m.loops, value.2⟩

/-- Executes one instruction. -/
def execute (d : Device W V) (m : Machine W V) (i : Instruction) : Status W V :=
  let next := m.pc + i.opcode.size
  match i.opcode, i.operands with
  | .halt, _ => .halted m.scene
  | .jump, [.address a] | .loopEnd, [.address a] => .running { m with pc := a.toNat }
  | .jumpIfFalse, [.address a] => match m.stack with
    | v :: rest =>
      .running { m with pc := if d.truth v then next else a.toNat, stack := rest }
    | [] => .stuck m.scene
  | .repeatStart, [.count n] => .running { m with pc := next, loops := (next, n.toNat) :: m.loops }
  | .repeatEnd, _ => match m.loops with
    | (start, n) :: rest =>
      if 0 < n - 1 then .running { m with pc := start, loops := (start, n - 1) :: rest }
      else .running { m with pc := next, loops := rest }
    | [] => .stuck m.scene
  | .pushConst, [.word x] => m.push next (d.word x, m.scene)
  | .pushBool, [.byte b] => m.push next (d.flag b, m.scene)
  | .pushSensor, [.byte id] => m.push next (m.scene.sense d id)
  | .pushTimer, _ => m.push next (m.scene.readTimer d)
  | .not, _ => match m.stack with
    | v :: rest => .running { m with pc := next, stack := d.negate v :: rest }
    | [] => .stuck m.scene
  | op, _ =>
    if op.isEffect then .running { m with pc := next, scene := m.scene.perform d i }
    else match op.operator?, m.stack with
      | some o, right :: left :: rest =>
        .running { m with pc := next, stack := d.binary o left right :: rest }
      | _, _ => .stuck m.scene

/-- Decodes and executes the instruction at the program counter. -/
def step (d : Device W V) (program : List UInt8) (m : Machine W V) : Status W V :=
  match decodeAt? program m.pc with
  | some (.ok line) => m.execute d line.instruction
  | _ => .stuck m.scene

/-- Takes up to a number of steps. -/
def run (d : Device W V) (program : List UInt8) : Nat → Machine W V → Status W V
  | 0, m => .running m
  | k + 1, m => match m.step d program with
    | .running next => run d program k next
    | status => status

section Steps

variable {d : Device W V} {program : List UInt8}

theorem run_add (j k : Nat) (m : Machine W V) :
    run d program (j + k) m = match run d program j m with
      | .running next => run d program k next
      | status => status := by
  induction j generalizing m with
  | zero => simp [run]
  | succ j ih =>
    rw [Nat.succ_add, run, run]
    cases m.step d program with
    | running next => exact ih next
    | halted s => rfl
    | stuck s => rfl

/-- The machine comes from one state to another in at least so many steps. -/
def Reaches (d : Device W V) (program : List UInt8) (least : Nat) (m next : Machine W V) : Prop :=
  ∃ k, least ≤ k ∧ run d program k m = .running next

theorem Reaches.refl (m : Machine W V) : Reaches d program 0 m m := ⟨0, le_rfl, rfl⟩

theorem Reaches.trans {i j : Nat} {m n o : Machine W V} (h : Reaches d program i m n)
    (h' : Reaches d program j n o) : Reaches d program (i + j) m o := by
  obtain ⟨k, hk, hm⟩ := h
  obtain ⟨l, hl, hn⟩ := h'
  refine ⟨k + l, Nat.add_le_add hk hl, ?_⟩
  rw [run_add, hm]
  exact hn

theorem Reaches.weaken {i j : Nat} {m n : Machine W V} (h : Reaches d program i m n) (hj : j ≤ i) :
    Reaches d program j m n := by
  obtain ⟨k, hk, hm⟩ := h
  exact ⟨k, hj.trans hk, hm⟩

theorem Reaches.single {m n : Machine W V} (h : m.step d program = .running n) :
    Reaches d program 1 m n := ⟨1, le_rfl, by rw [run, h]; rfl⟩

/-- One step never takes back what has happened. -/
theorem events_step (m : Machine W V) :
    m.scene.events <+: (m.step d program).scene.events := by
  unfold step
  split
  next line _ =>
    unfold execute
    split <;> (repeat' split) <;>
      simp [Status.scene, push, Scene.sense, Scene.readTimer, Scene.perform]
  next => exact List.prefix_rfl

theorem events_run (k : Nat) (m : Machine W V) :
    m.scene.events <+: (run d program k m).scene.events := by
  induction k generalizing m with
  | zero => exact List.prefix_rfl
  | succ k ih =>
    have hstep : m.scene.events <+: (m.step d program).scene.events := events_step m
    rw [run]
    cases hs : m.step d program with
    | running next =>
      rw [hs] at hstep
      exact hstep.trans (ih next)
    | halted s => rwa [hs] at hstep
    | stuck s => rwa [hs] at hstep

/-- A machine that is still running was running before, with less behind it. -/
theorem running_of_le {j k : Nat} {m n : Machine W V} (hjk : j ≤ k)
    (h : run d program k m = .running n) :
    ∃ o, run d program j m = .running o ∧ o.scene.events <+: n.scene.events := by
  obtain ⟨i, rfl⟩ := Nat.exists_eq_add_of_le hjk
  rw [run_add] at h
  cases hj : run d program j m with
  | running o =>
    simp only [hj] at h
    have hevents : o.scene.events <+: (run d program i o).scene.events := events_run i o
    rw [h] at hevents
    exact ⟨o, rfl, hevents⟩
  | halted s => simp [hj] at h
  | stuck s => simp [hj] at h

end Steps

/-- The bytes of some code stand at an address of a program, with any bytes around them. -/
def BytesAt (program : List UInt8) (pc : Nat) (code : List Instruction) : Prop :=
  ∃ before after, program = before ++ codeBytes code ++ after ∧ pc = before.length

section BytesAt

variable {program : List UInt8} {c e : List Instruction} {pc : Nat}

theorem BytesAt.left (h : BytesAt program pc (c ++ e)) : BytesAt program pc c := by
  obtain ⟨before, after, rfl, rfl⟩ := h
  exact ⟨before, codeBytes e ++ after, by simp, rfl⟩

theorem BytesAt.right (hc : ∀ i ∈ c, i.WellFormed) (h : BytesAt program pc (c ++ e)) :
    BytesAt program (pc + codeSize c) e := by
  obtain ⟨before, after, rfl, rfl⟩ := h
  exact ⟨before ++ codeBytes c, after, by simp, by simp [length_codeBytes hc]⟩

/-- The instruction whose bytes stand at an address is decoded there. -/
theorem BytesAt.decodeAt? {i : Instruction} (hi : i.WellFormed) (h : BytesAt program pc [i]) :
    decodeAt? program pc = some (.ok ⟨pc, i⟩) := by
  obtain ⟨before, after, rfl, rfl⟩ := h
  have hdrop : (before ++ codeBytes [i] ++ after).drop before.length =
      i.opcode.byte :: (i.operands.flatMap Operand.encode ++ after) := by
    simp [Instruction.encode]
  rw [RobotBlocks.decodeAt?, hdrop]
  simp [Line.read_encode hi, Except.map]

end BytesAt

/-- Some code stands at an address of a program. -/
def CodeAt (full : List Instruction) (pc : Nat) (code : List Instruction) : Prop :=
  ∃ before after, full = before ++ code ++ after ∧ pc = codeSize before

section CodeAt

variable {full c e : List Instruction} {pc : Nat}

theorem CodeAt.left (h : CodeAt full pc (c ++ e)) : CodeAt full pc c := by
  obtain ⟨before, after, rfl, rfl⟩ := h
  exact ⟨before, e ++ after, by simp, rfl⟩

theorem CodeAt.right (h : CodeAt full pc (c ++ e)) : CodeAt full (pc + codeSize c) e := by
  obtain ⟨before, after, rfl, rfl⟩ := h
  exact ⟨before ++ c, after, by simp, by simp⟩

theorem CodeAt.le (h : CodeAt full pc c) : pc + codeSize c ≤ codeSize full := by
  obtain ⟨before, after, rfl, rfl⟩ := h
  simp

theorem CodeAt.head {i : Instruction} (h : CodeAt full pc (i :: c)) : CodeAt full pc [i] :=
  CodeAt.left (c := [i]) h

theorem CodeAt.tail {i : Instruction} (h : CodeAt full pc (i :: c)) :
    CodeAt full (pc + i.opcode.size) c := CodeAt.right (c := [i]) h

theorem CodeAt.bytesAt (hfull : ∀ i ∈ full, i.WellFormed) (h : CodeAt full pc c) :
    BytesAt (codeBytes full) pc c := by
  obtain ⟨before, after, rfl, rfl⟩ := h
  have hlen : (codeBytes before).length = codeSize before :=
    length_codeBytes fun i hi => hfull i (by simp [hi])
  exact ⟨codeBytes before, codeBytes after, by simp, hlen.symm⟩

/-- The instruction that stands at an address is decoded there. -/
theorem CodeAt.decodeAt? {i : Instruction} (hfull : ∀ i ∈ full, i.WellFormed)
    (h : CodeAt full pc [i]) : decodeAt? (codeBytes full) pc = some (.ok ⟨pc, i⟩) := by
  have hi : i.WellFormed := by
    obtain ⟨before, after, rfl, -⟩ := h
    exact hfull i (by simp)
  exact (h.bytesAt hfull).decodeAt? hi

theorem CodeAt.step {i : Instruction} (hfull : ∀ i ∈ full, i.WellFormed)
    {m : Machine W V} (h : CodeAt full m.pc [i]) (d : Device W V) :
    m.step d (codeBytes full) = m.execute d i := by
  rw [Machine.step, h.decodeAt? hfull]

theorem Reaches.of_execute {i : Instruction} (hfull : ∀ i ∈ full, i.WellFormed)
    {d : Device W V} {m n : Machine W V} (h : CodeAt full m.pc [i])
    (he : m.execute d i = .running n) : Reaches d (codeBytes full) 1 m n :=
  .single ((h.step hfull d).trans he)

end CodeAt

section Instructions

variable {full : List Instruction} (hfull : ∀ i ∈ full, i.WellFormed) {d : Device W V} {pc : Nat}
  (stack : List V) (loops : List (Nat × Nat)) (s : Scene W)
include hfull

theorem reaches_jump {op : Opcode} {a : Nat} (hop : op = .jump ∨ op = .loopEnd)
    (ha : a ≤ maxProgram) (h : CodeAt full pc [jumpTo op a]) :
    Reaches d (codeBytes full) 1 ⟨pc, stack, loops, s⟩ ⟨a, stack, loops, s⟩ := by
  apply Reaches.of_execute hfull h
  rcases hop with rfl | rfl <;> simp [jumpTo, execute, toNat_addressWord ha]

theorem reaches_jumpIfFalse {a : Nat} (ha : a ≤ maxProgram)
    (h : CodeAt full pc [jumpTo .jumpIfFalse a]) (v : V) :
    Reaches d (codeBytes full) 1 ⟨pc, v :: stack, loops, s⟩
      ⟨if d.truth v then pc + Statement.jumpSize else a, stack, loops, s⟩ := by
  apply Reaches.of_execute hfull h
  simp [jumpTo, execute, toNat_addressWord ha]

theorem reaches_repeatStart {n : UInt16} (h : CodeAt full pc [⟨.repeatStart, [.count n]⟩]) :
    Reaches d (codeBytes full) 1 ⟨pc, stack, loops, s⟩
      ⟨pc + Opcode.repeatStart.size, stack, (pc + Opcode.repeatStart.size, n.toNat) :: loops, s⟩ :=
  .of_execute hfull h rfl

/-- More rounds are left at the end of a body. -/
theorem reaches_repeatAgain {start n : Nat} (h : CodeAt full pc [⟨.repeatEnd, []⟩]) :
    Reaches d (codeBytes full) 1 ⟨pc, stack, (start, n + 2) :: loops, s⟩
      ⟨start, stack, (start, n + 1) :: loops, s⟩ :=
  .of_execute hfull h rfl

/-- The last round is over. -/
theorem reaches_repeatDone {start : Nat} (h : CodeAt full pc [⟨.repeatEnd, []⟩]) :
    Reaches d (codeBytes full) 1 ⟨pc, stack, (start, 1) :: loops, s⟩
      ⟨pc + Opcode.repeatEnd.size, stack, loops, s⟩ :=
  .of_execute hfull h rfl

theorem reaches_not (h : CodeAt full pc [⟨.not, []⟩]) (v : V) :
    Reaches d (codeBytes full) 1 ⟨pc, v :: stack, loops, s⟩
      ⟨pc + Opcode.not.size, d.negate v :: stack, loops, s⟩ :=
  .of_execute hfull h rfl

theorem reaches_effect {i : Instruction} (hi : i.opcode.isEffect) (h : CodeAt full pc [i]) :
    Reaches d (codeBytes full) 1 ⟨pc, stack, loops, s⟩
      ⟨pc + i.opcode.size, stack, loops, s.perform d i⟩ := by
  apply Reaches.of_execute hfull h
  obtain ⟨op, operands⟩ := i
  cases op <;> simp_all [Opcode.isEffect, execute]

/-- A run of effects takes place in order. -/
theorem reaches_effects {code : List Instruction} (hcode : ∀ i ∈ code, i.opcode.isEffect)
    (h : CodeAt full pc code) :
    Reaches d (codeBytes full) 0 ⟨pc, stack, loops, s⟩
      ⟨pc + codeSize code, stack, loops, code.foldl (Scene.perform d) s⟩ := by
  induction code generalizing pc s with
  | nil => exact Reaches.refl _
  | cons i code ih =>
    obtain ⟨hi, hcode⟩ := List.forall_mem_cons.mp hcode
    have hfirst := reaches_effect (d := d) hfull stack loops s hi h.head
    have hrest := ih (s.perform d i) hcode h.tail
    rw [Nat.add_assoc] at hrest
    exact (hfirst.trans hrest).weaken (Nat.zero_le _)

end Instructions

end Machine

end RobotBlocks
