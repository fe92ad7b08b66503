import Mathlib
import RobotBlocks.Proofs.Machine

/-! Control flow without values: what remains of a machine is its place, the height of its operand
stack and the loops it is in, and branches are taken freely. A walk over compiled code from front to
back gives one such state to each place, and no path comes to a place in another. -/

namespace RobotBlocks

namespace Opcode

/-- The number of values that an instruction takes from the operand stack. -/
def pops : Opcode → Nat
  | jumpIfFalse | not => 1
  | less | greater | equal | notEqual | atMost | atLeast | and | or | add | subtract | multiply
  | divide => 2
  | _ => 0

/-- The number of values that an instruction puts on the operand stack. -/
def pushes : Opcode → Nat
  | pushConst | pushSensor | pushBool | pushTimer | not | less | greater | equal | notEqual | atMost
  | atLeast | and | or | add | subtract | multiply | divide => 1
  | _ => 0

/-- Whether control may go on to the instruction behind. -/
def falls : Opcode → Bool
  | jump | loopEnd | halt => false
  | _ => true

/-- Instructions that stand between expressions and use no operands. -/
def isStatement : Opcode → Bool
  | jump | loopEnd | repeatStart | repeatEnd | halt => true
  | op => op.isEffect

end Opcode

/-- A machine without its values: where it is, how many operands are on its stack, and where the
bodies of the loops start that are being repeated, the innermost first. -/
structure Control where
  pc : Nat
  height : Nat
  loops : List Nat
  deriving DecidableEq, Repr

namespace Control

/-- The state at the start of a program. -/
def initial : Control := ⟨0, 0, []⟩

/-- The state at the next instruction. A counted loop is entered at its start and left at its end. -/
def next (c : Control) (op : Opcode) : Control where
  pc := c.pc + op.size
  height := c.height - op.pops + op.pushes
  loops := match op with
    | .repeatStart => (c.pc + op.size) :: c.loops
    | .repeatEnd => c.loops.tail
    | _ => c.loops

/-- One step that does not look at values: a branch may be taken or not, and at the end of a counted
loop its body may be repeated or left. -/
inductive Step (program : List UInt8) (c : Control) : Control → Prop where
  | onward {line : Line} (hline : decodeAt? program c.pc = some (.ok line))
      (hfalls : line.instruction.opcode.falls) : Step program c (c.next line.instruction.opcode)
  | jump {line : Line} {a : Nat} (hline : decodeAt? program c.pc = some (.ok line))
      (ha : line.instruction.target? = some a) :
      Step program c { c.next line.instruction.opcode with pc := a }
  | back {line : Line} {start : Nat} {rest : List Nat}
      (hline : decodeAt? program c.pc = some (.ok line))
      (hop : line.instruction.opcode = .repeatEnd) (hloops : c.loops = start :: rest) :
      Step program c { c with pc := start }

/-- The states on the paths through a program. -/
def Reachable (program : List UInt8) : Control → Prop :=
  Relation.ReflTransGen (Step program) initial

theorem Reachable.start (program : List UInt8) : Reachable program initial := .refl

/-- What has to hold before an instruction is executed: its operands are there, a condition is the
only operand, statements start without operands, and the end of a loop is reached in a loop. -/
structure Ready (c : Control) (op : Opcode) : Prop where
  operands : op.pops ≤ c.height
  condition : op = .jumpIfFalse → c.height = 1
  clear : op.isStatement → c.height = 0
  looping : op = .repeatEnd → c.loops ≠ []

/-- The state behind some code that is walked over from front to back. -/
def walk (c : Control) : List Instruction → Control
  | [] => c
  | i :: rest => (c.next i.opcode).walk rest

@[simp] theorem walk_nil (c : Control) : c.walk [] = c := rfl

@[simp] theorem walk_cons (c : Control) (i : Instruction) (code : List Instruction) :
    c.walk (i :: code) = (c.next i.opcode).walk code := rfl

@[simp] theorem walk_append (c : Control) (x y : List Instruction) :
    c.walk (x ++ y) = (c.walk x).walk y := by
  induction x generalizing c with
  | nil => rfl
  | cons i x ih => exact ih _

@[simp] theorem pc_next (c : Control) (op : Opcode) : (c.next op).pc = c.pc + op.size := rfl

@[simp] theorem pc_walk (c : Control) (code : List Instruction) :
    (c.walk code).pc = c.pc + codeSize code := by
  induction code generalizing c with
  | nil => rfl
  | cons i code ih => rw [walk_cons, ih, pc_next, codeSize_cons, Nat.add_assoc]

/-- A walk over some code comes through a state. -/
def Visits (c : Control) (code : List Instruction) (v : Control) : Prop :=
  ∃ before after, code = before ++ after ∧ v = c.walk before

section Visits

variable {c v : Control} {x y : List Instruction}

theorem Visits.start (c : Control) (x : List Instruction) : c.Visits x c := ⟨[], x, rfl, rfl⟩

theorem Visits.finish (c : Control) (x : List Instruction) : c.Visits x (c.walk x) :=
  ⟨x, [], by simp, rfl⟩

theorem Visits.left (h : c.Visits x v) (y : List Instruction) : c.Visits (x ++ y) v := by
  obtain ⟨before, after, rfl, rfl⟩ := h
  exact ⟨before, after ++ y, by simp, rfl⟩

theorem Visits.right (x : List Instruction) (h : (c.walk x).Visits y v) : c.Visits (x ++ y) v := by
  obtain ⟨before, after, rfl, rfl⟩ := h
  exact ⟨x ++ before, after, by simp, by simp⟩

theorem Visits.pc_le (h : c.Visits x v) : v.pc ≤ c.pc + codeSize x := by
  obtain ⟨before, after, rfl, rfl⟩ := h
  simp

theorem Visits.tail {i : Instruction} (h : (c.next i.opcode).Visits y v) : c.Visits (i :: y) v :=
  Visits.right [i] h

end Visits

/-- An instruction that is ready in a state and leads only to valid states, apart from the one at the
next instruction. -/
structure Fits (valid : Control → Prop) (c : Control) (i : Instruction) : Prop where
  ready : c.Ready i.opcode
  jump : i.target? = none ∨ ∃ op n, i = jumpTo op n ∧ valid { c.next op with pc := n }
  back : i.opcode = .repeatEnd → ∀ start rest, c.loops = start :: rest → valid { c with pc := start }

/-- All instructions on a walk fit. -/
def AllFit (valid : Control → Prop) : Control → List Instruction → Prop
  | _, [] => True
  | c, i :: rest => Fits valid c i ∧ AllFit valid (c.next i.opcode) rest

section AllFit

variable {valid : Control → Prop} {c : Control}

@[simp] theorem allFit_nil : AllFit valid c [] := trivial

@[simp] theorem allFit_cons {i : Instruction} {code : List Instruction} :
    AllFit valid c (i :: code) ↔ Fits valid c i ∧ AllFit valid (c.next i.opcode) code := Iff.rfl

@[simp] theorem allFit_append {x y : List Instruction} :
    AllFit valid c (x ++ y) ↔ AllFit valid c x ∧ AllFit valid (c.walk x) y := by
  induction x generalizing c with
  | nil => simp
  | cons i x ih => simp [ih, and_assoc]

/-- An instruction without an address that ends no loop fits where it is ready. -/
theorem fits_of_ready {i : Instruction} (h : c.Ready i.opcode) (ht : i.target? = none)
    (hop : i.opcode ≠ .repeatEnd) : Fits valid c i :=
  ⟨h, .inl ht, fun hr => absurd hr hop⟩

theorem fits_jumpTo {op : Opcode} {n : Nat} (h : c.Ready op) (hop : op ≠ .repeatEnd)
    (hv : valid { c.next op with pc := n }) : Fits valid c (jumpTo op n) :=
  ⟨h, .inr ⟨op, n, rfl, hv⟩, fun hr => absurd hr hop⟩

/-- If valid states have addresses that fit into a word, the address of an instruction that fits is
one of them. -/
theorem Fits.target {i : Instruction} {n : Nat} (h : Fits valid c i)
    (hvalid : ∀ v, valid v → v.pc ≤ maxProgram) (hn : i.target? = some n) :
    valid { c.next i.opcode with pc := n } := by
  rcases h.jump with hnone | ⟨op, m, rfl, hm⟩
  · simp [hnone] at hn
  · rw [target?_jumpTo (hvalid _ hm)] at hn
    obtain rfl := Option.some.inj hn
    exact hm

end AllFit

section Ready

variable {c : Control} {op : Opcode}

/-- Instructions of expressions need only their operands. -/
theorem ready_of_operands (h : op.pops ≤ c.height) (hop : op.isStatement = false)
    (hc : op ≠ .jumpIfFalse) : c.Ready op where
  operands := h
  condition hj := absurd hj hc
  clear hs := by simp [hop] at hs
  looping hr := by simp [hr, Opcode.isStatement] at hop

theorem pops_of_isStatement (h : op.isStatement) : op.pops = 0 := by
  cases op <;> first | rfl | cases h

/-- Statements are ready without operands, the end of a loop within a loop. -/
theorem ready_of_clear (h : c.height = 0) (hop : op.isStatement)
    (hl : op = .repeatEnd → c.loops ≠ []) : c.Ready op where
  operands := by rw [pops_of_isStatement hop]; exact Nat.zero_le _
  condition hj := by simp [hj, Opcode.isStatement, Opcode.isEffect] at hop
  clear _ := h
  looping := hl

theorem ready_jumpIfFalse (h : c.height = 1) : c.Ready .jumpIfFalse where
  operands := h.ge
  condition _ := h
  clear hs := by simp [Opcode.isStatement, Opcode.isEffect] at hs
  looping hr := by cases hr

end Ready

/-- Code that puts one value on the operand stack and leaves all else as it is. -/
structure Pushes (code : List Instruction) : Prop where
  walk : ∀ c : Control, c.walk code = ⟨c.pc + codeSize code, c.height + 1, c.loops⟩
  fit : ∀ valid c, AllFit valid c code

section Pushes

variable {x y : List Instruction}

theorem pushes_single {op : Opcode} {operands : List Operand}
    (hop : op = .pushConst ∨ op = .pushSensor ∨ op = .pushBool ∨ op = .pushTimer)
    (ht : (⟨op, operands⟩ : Instruction).target? = none) : Pushes [⟨op, operands⟩] := by
  rcases hop with rfl | rfl | rfl | rfl <;>
    exact ⟨fun c => rfl, fun valid c =>
      ⟨fits_of_ready (ready_of_operands (Nat.zero_le _) rfl (by simp)) ht (by simp), trivial⟩⟩

theorem Pushes.not (h : Pushes x) : Pushes (x ++ [⟨.not, []⟩]) where
  walk c := by
    rw [walk_append, h.walk, codeSize_append, ← Nat.add_assoc]
    rfl
  fit valid c := by
    rw [allFit_append, h.walk]
    refine ⟨h.fit valid c, fits_of_ready (ready_of_operands ?_ rfl (by simp)) rfl (by simp), trivial⟩
    exact Nat.le_add_left _ _

theorem Pushes.operator (hx : Pushes x) (hy : Pushes y) (op : Operator) :
    Pushes (x ++ y ++ [⟨op.opcode, []⟩]) where
  walk c := by
    rw [walk_append, walk_append, hx.walk, hy.walk, codeSize_append, codeSize_append]
    simp only [← Nat.add_assoc]
    cases op <;> rfl
  fit valid c := by
    rw [allFit_append, allFit_append, walk_append, hx.walk, hy.walk]
    have hop : op.opcode ≠ .repeatEnd := by
      cases op <;> simp [Operator.opcode]
    refine ⟨⟨hx.fit valid c, hy.fit valid _⟩, fits_of_ready ?_ rfl hop, trivial⟩
    apply ready_of_operands
    · cases op <;> exact Nat.le_add_left _ _
    · cases op <;> rfl
    · cases op <;> simp [Operator.opcode]

theorem pushes_expression (e : Expression) : Pushes e.code := by
  induction e with
  | constant x => exact pushes_single (by simp) rfl
  | boolean v => exact pushes_single (by simp) rfl
  | sensor id => exact pushes_single (by simp) rfl
  | timer => exact (pushes_single (by simp) rfl).operator (pushes_single (by simp) rfl) .divide
  | not e ih => exact ih.not
  | binary op l r ihl ihr => exact ihl.operator ihr op

end Pushes

/-- The state between two statements. -/
def between (pc : Nat) (loops : List Nat) : Control := ⟨pc, 0, loops⟩

@[simp] theorem next_between_jumpIfFalse (pc : Nat) (loops : List Nat) :
    next ⟨pc, 0 + 1, loops⟩ .jumpIfFalse = between (pc + Statement.jumpSize) loops := rfl

@[simp] theorem next_between_jump (pc : Nat) (loops : List Nat) :
    (between pc loops).next .jump = between (pc + Statement.jumpSize) loops := rfl

@[simp] theorem next_between_loopEnd (pc : Nat) (loops : List Nat) :
    (between pc loops).next .loopEnd = between (pc + Statement.jumpSize) loops := rfl

@[simp] theorem next_between_repeatStart (pc : Nat) (loops : List Nat) :
    (between pc loops).next .repeatStart =
      between (pc + Opcode.repeatStart.size) ((pc + Opcode.repeatStart.size) :: loops) := rfl

@[simp] theorem next_between_repeatEnd (pc start : Nat) (loops : List Nat) :
    (between pc (start :: loops)).next .repeatEnd =
      between (pc + Opcode.repeatEnd.size) loops := rfl

theorem next_of_isEffect {op : Opcode} (h : op.isEffect) (c : Control) :
    c.next op = ⟨c.pc + op.size, c.height, c.loops⟩ := by
  cases op <;> first | rfl | cases h

theorem isStatement_of_isEffect {op : Opcode} (h : op.isEffect) : op.isStatement := by
  cases op <;> first | rfl | cases h

theorem falls_of_isEffect {op : Opcode} (h : op.isEffect) : op.falls := by
  cases op <;> first | rfl | cases h

theorem next_of_operator? {op : Opcode} {o : Operator} (h : op.operator? = some o) (c : Control) :
    c.next op = ⟨c.pc + op.size, c.height - 2 + 1, c.loops⟩ := by
  cases op <;> first | rfl | cases h

theorem pops_of_operator? {op : Opcode} {o : Operator} (h : op.operator? = some o) : op.pops = 2 := by
  cases op <;> first | rfl | cases h

theorem falls_of_operator? {op : Opcode} {o : Operator} (h : op.operator? = some o) : op.falls := by
  cases op <;> first | rfl | cases h

/-- The test of a condition ends between statements. -/
theorem Pushes.walk_between {code : List Instruction} (h : Pushes code) (pc : Nat)
    (loops : List Nat) :
    (between pc loops).walk code = ⟨pc + codeSize code, 0 + 1, loops⟩ := h.walk _

/-- Effects follow each other between statements. -/
theorem walk_effects {code : List Instruction} (h : ∀ i ∈ code, i.opcode.isEffect) (pc : Nat)
    (loops : List Nat) : (between pc loops).walk code = between (pc + codeSize code) loops := by
  induction code generalizing pc with
  | nil => rfl
  | cons i code ih =>
    obtain ⟨hi, hcode⟩ := List.forall_mem_cons.mp h
    rw [walk_cons, next_of_isEffect hi, codeSize_cons, ← Nat.add_assoc]
    exact ih hcode _

theorem allFit_effects {valid : Control → Prop} {code : List Instruction}
    (h : ∀ i ∈ code, i.opcode.isEffect) (ht : ∀ i ∈ code, i.target? = none) (pc : Nat)
    (loops : List Nat) : AllFit valid (between pc loops) code := by
  induction code generalizing pc with
  | nil => trivial
  | cons i code ih =>
    obtain ⟨hi, hcode⟩ := List.forall_mem_cons.mp h
    obtain ⟨hti, htcode⟩ := List.forall_mem_cons.mp ht
    have hne : i.opcode ≠ .repeatEnd := by
      intro hr
      simp [hr, Opcode.isEffect] at hi
    have hs := isStatement_of_isEffect hi
    refine ⟨fits_of_ready (ready_of_clear rfl hs fun hr => absurd hr hne) hti hne, ?_⟩
    rw [next_of_isEffect hi]
    exact ih hcode htcode _

end Control

namespace Statement

open Control

theorem isEffect_simpleCode (s : Statement) : ∀ i ∈ s.simpleCode, i.opcode.isEffect := by
  cases s <;> simp [simpleCode, Opcode.isEffect]

theorem isEffect_pauseCode (pause : Option Binary64) :
    ∀ i ∈ pauseCode pause, i.opcode.isEffect := by
  cases pause with
  | none => simp [pauseCode]
  | some seconds =>
    unfold pauseCode
    split <;> simp [Opcode.isEffect]

theorem pushes_guardCode (sensor : UInt8) (op : Operator) (value : Binary64) :
    Pushes (guardCode sensor op value) :=
  (pushes_single (by simp) rfl).operator (pushes_single (by simp) rfl) op

theorem pushes_conditionCode (negated : Bool) (condition : Expression) :
    Pushes (conditionCode negated condition) := by
  cases negated with
  | false =>
    rw [conditionCode_false]
    exact pushes_expression condition
  | true => exact (pushes_expression condition).not

/-- The code of statements, walked over from front to back, begins and ends between statements and
in the same loops. -/
theorem walk_cases : InductionCases
    (fun s => ∀ base loops, (between base loops).walk (layout s base) =
      between (base + size s) loops)
    (fun ss => ∀ base loops, (between base loops).walk (chainLayout ss base) =
      between (base + chainSize ss) loops)
    (fun arms => ∀ base exit loops, (between base loops).walk (armsLayout arms base exit) =
      between (base + armsSize arms) loops) where
  simple s hs base loops := by
    rw [layout_of_simple hs, size_of_simple hs, walk_effects s.isEffect_simpleCode]
  waitUntil sensor op value base loops := by
    simp [layout, size, (pushes_guardCode sensor op value).walk_between, Nat.add_assoc]
  choose arms otherwise iha iho base loops := by simp [layout, size, iha, iho, Nat.add_assoc]
  repeatTimes times pause body ih base loops := by
    simp [layout, size, ih, walk_effects (isEffect_pauseCode pause), Nat.add_assoc]
  forever body ih base loops := by simp [layout, size, ih, Nat.add_assoc]
  loopWhile negated condition body ih base loops := by
    simp [layout, size, (pushes_conditionCode negated condition).walk_between, ih, Nat.add_assoc]
  nil base loops := rfl
  cons s rest ihs ihr base loops := by simp [chainLayout, chainSize, ihs, ihr, Nat.add_assoc]
  armsNil base exit loops := rfl
  armsCons condition body rest ihb ihr base exit loops := by
    simp [armsLayout, armsSize, (pushes_expression condition).walk_between, ihb, ihr, Nat.add_assoc]

@[simp] theorem walk_layout (s : Statement) (base : Nat) (loops : List Nat) :
    (between base loops).walk (layout s base) = between (base + size s) loops :=
  walk_cases.statement s base loops

@[simp] theorem walk_chainLayout (ss : List Statement) (base : Nat) (loops : List Nat) :
    (between base loops).walk (chainLayout ss base) = between (base + chainSize ss) loops :=
  walk_cases.chain ss base loops

@[simp] theorem walk_armsLayout (arms : List (Expression × List Statement)) (base exit : Nat)
    (loops : List Nat) :
    (between base loops).walk (armsLayout arms base exit) = between (base + armsSize arms) loops :=
  walk_cases.arms arms base exit loops

/-- A test at the end of a condition, and the code behind it. -/
theorem allFit_test {valid : Control → Prop} {code rest : List Instruction} (h : Pushes code)
    {pc n : Nat} {loops : List Nat} (hn : valid (between n loops))
    (hrest : AllFit valid (between (pc + codeSize code + jumpSize) loops) rest) :
    AllFit valid (between pc loops) (code ++ jumpTo .jumpIfFalse n :: rest) := by
  rw [allFit_append, h.walk_between]
  exact ⟨h.fit valid _, fits_jumpTo (ready_jumpIfFalse rfl) (by simp) hn, hrest⟩

theorem fits_jump {valid : Control → Prop} {pc n : Nat} {loops : List Nat}
    (hn : valid (between n loops)) : Fits valid (between pc loops) (jumpTo .jump n) :=
  fits_jumpTo (ready_of_clear rfl rfl (by simp)) (by simp) hn

theorem fits_loopEnd {valid : Control → Prop} {pc n : Nat} {loops : List Nat}
    (hn : valid (between n loops)) : Fits valid (between pc loops) (jumpTo .loopEnd n) :=
  fits_jumpTo (ready_of_clear rfl rfl (by simp)) (by simp) hn

/-- Every instruction of a statement fits where the walk comes to it, and all its jumps go to states
on the walk; those of the arms of a conditional may also go to the end of the conditional. -/
theorem fit_cases : InductionCases
    (fun s => ∀ base loops valid, (∀ v, (between base loops).Visits (layout s base) v → valid v) →
      AllFit valid (between base loops) (layout s base))
    (fun ss => ∀ base loops valid,
      (∀ v, (between base loops).Visits (chainLayout ss base) v → valid v) →
        AllFit valid (between base loops) (chainLayout ss base))
    (fun arms => ∀ base exit loops valid,
      (∀ v, (between base loops).Visits (armsLayout arms base exit) v → valid v) →
        valid (between exit loops) → AllFit valid (between base loops) (armsLayout arms base exit))
    where
  simple s hs base loops valid h := by
    rw [layout_of_simple hs]
    exact allFit_effects s.isEffect_simpleCode s.target?_simpleCode base loops
  waitUntil sensor op value base loops valid h := by
    have hstart := h _ (.start _ _)
    have hexit := h _ (.finish _ _)
    simp only [walk_layout, size, ← Nat.add_assoc] at hexit
    rw [layout]
    apply allFit_test (pushes_guardCode sensor op value) hexit
    exact ⟨fits_jump hstart, trivial⟩
  choose arms otherwise iha iho base loops valid h := by
    have hexit := h _ (.finish _ _)
    simp only [walk_layout, size, ← Nat.add_assoc] at hexit
    rw [layout] at h ⊢
    rw [allFit_append, walk_armsLayout]
    refine ⟨iha _ _ _ valid (fun v hv => h v (hv.left _)) hexit, iho _ _ valid fun v hv => h v ?_⟩
    exact .right _ (by rwa [walk_armsLayout])
  repeatTimes times pause body ih base loops valid h := by
    rw [layout, List.append_assoc, List.cons_append] at h ⊢
    set start := base + Opcode.repeatStart.size with hstart
    have hbody : AllFit valid (between start (start :: loops)) (chainLayout body start) :=
      ih _ _ valid fun v hv => h v (.tail (hv.left _))
    have hend : Fits valid
        (between (start + chainSize body + codeSize (pauseCode pause)) (start :: loops))
        ⟨.repeatEnd, []⟩ := by
      refine ⟨ready_of_clear rfl rfl (by simp [between]), .inl rfl, fun _ first rest hl => ?_⟩
      -- the innermost loop is this one, and the walk has come through the start of its body
      obtain ⟨rfl, rfl⟩ := List.cons.inj hl
      exact h _ (.tail (.start _ _))
    refine ⟨fits_of_ready (ready_of_clear rfl rfl (by simp)) rfl (by simp), ?_⟩
    rw [next_between_repeatStart, ← hstart, allFit_append, walk_chainLayout, allFit_append,
      walk_effects (isEffect_pauseCode pause)]
    exact ⟨hbody, allFit_effects (isEffect_pauseCode pause) (target?_pauseCode pause) _ _, hend,
      trivial⟩
  forever body ih base loops valid h := by
    rw [layout] at h ⊢
    rw [allFit_append, walk_chainLayout]
    refine ⟨ih _ _ valid fun v hv => h v (hv.left _), ?_⟩
    exact ⟨fits_loopEnd (h _ (.start _ _)), trivial⟩
  loopWhile negated condition body ih base loops valid h := by
    have hstart := h _ (.start _ _)
    have hexit := h _ (.finish _ _)
    simp only [walk_layout, size, ← Nat.add_assoc] at hexit
    rw [layout] at h ⊢
    simp only [List.append_assoc, List.cons_append] at h ⊢
    apply allFit_test (pushes_conditionCode negated condition) hexit
    rw [allFit_append, walk_chainLayout]
    refine ⟨ih _ _ valid fun v hv => h v ?_, fits_loopEnd hstart, trivial⟩
    apply Visits.right
    rw [(pushes_conditionCode negated condition).walk_between]
    exact .tail (hv.left _)
  nil base loops valid h := trivial
  cons s rest ihs ihr base loops valid h := by
    rw [chainLayout] at h ⊢
    rw [allFit_append, walk_layout]
    refine ⟨ihs _ _ valid fun v hv => h v (hv.left _), ihr _ _ valid fun v hv => h v ?_⟩
    exact .right _ (by rwa [walk_layout])
  armsNil base exit loops valid h hexit := trivial
  armsCons condition body rest ihb ihr base exit loops valid h hexit := by
    rw [armsLayout] at h ⊢
    simp only [List.append_assoc, List.cons_append] at h ⊢
    set start := base + codeSize condition.code + jumpSize with hstart
    set next := start + chainSize body + jumpSize with hnext
    have hinner (v : Control) (hv : (between start loops).Visits (chainLayout body start ++
        jumpTo .jump exit :: armsLayout rest next exit) v) : valid v := by
      apply h v
      apply Visits.right
      rw [(pushes_expression condition).walk_between]
      exact .tail hv
    have hrest (v : Control) (hv : (between next loops).Visits (armsLayout rest next exit) v) :
        valid v := by
      apply hinner v
      apply Visits.right
      rw [walk_chainLayout]
      exact .tail hv
    apply allFit_test (pushes_expression condition) (hrest _ (.start _ _))
    rw [allFit_append, walk_chainLayout]
    exact ⟨ihb _ _ valid fun v hv => hinner v (hv.left _), fits_jump hexit,
      ihr _ _ _ valid hrest hexit⟩

/-- All instructions of a program fit, and its jumps stay within the walk over the statements. -/
theorem allFit_program (ss : List Statement) :
    AllFit (Control.initial.Visits (chainLayout ss 0)) Control.initial (programCode ss) := by
  have hend : Control.initial.walk (chainLayout ss 0) = between (chainSize ss) [] :=
    (walk_chainLayout ss 0 []).trans (by rw [Nat.zero_add])
  rw [programCode, allFit_append, hend]
  refine ⟨fit_cases.chain ss 0 [] _ fun _ hv => hv, ?_, trivial⟩
  exact fits_of_ready (ready_of_clear rfl rfl (by simp)) rfl (by simp)

end Statement

namespace Machine.CodeAt

variable {full : List Instruction} {pc : Nat} {i : Instruction}

theorem wellFormed (hfull : ∀ i ∈ full, i.WellFormed) (h : CodeAt full pc [i]) : i.WellFormed := by
  obtain ⟨before, after, rfl, -⟩ := h
  exact hfull i (by simp)

/-- An instruction that stands at an address has a line there. -/
theorem mem_lines (h : CodeAt full pc [i]) : ⟨pc, i⟩ ∈ linesFrom 0 full := by
  obtain ⟨before, after, rfl, rfl⟩ := h
  rw [List.append_assoc, linesFrom_append]
  simp [linesFrom]

theorem eq_of_decodeAt? (hfull : ∀ i ∈ full, i.WellFormed) (h : CodeAt full pc [i]) {line : Line}
    (hline : RobotBlocks.decodeAt? (codeBytes full) pc = some (.ok line)) :
    line.instruction = i := by
  rw [h.decodeAt? hfull, Option.some.injEq, Except.ok.injEq] at hline
  rw [← hline]

end Machine.CodeAt

namespace Control

open Statement

/-- Where the walk over a chain comes by, the program has an instruction that fits. -/
theorem Visits.instruction {ss : List Statement} {c : Control}
    (h : initial.Visits (chainLayout ss 0) c) :
    ∃ i, Machine.CodeAt (programCode ss) c.pc [i] ∧
      Fits (initial.Visits (chainLayout ss 0)) c i ∧
      (i.opcode.falls → initial.Visits (chainLayout ss 0) (c.next i.opcode)) := by
  obtain ⟨before, after, hsplit, rfl⟩ := h
  have hpc : (initial.walk before).pc = codeSize before := by
    rw [pc_walk]
    exact Nat.zero_add _
  have hprogram : programCode ss = before ++ (after ++ [⟨.halt, []⟩]) := by simp [programCode, hsplit]
  have hfit := allFit_program ss
  rw [hprogram, allFit_append] at hfit
  cases after with
  | nil =>
    refine ⟨⟨.halt, []⟩, ⟨before, [], by simp [hprogram], hpc⟩, hfit.2.1, by simp [Opcode.falls]⟩
  | cons i after =>
    refine ⟨i, ⟨before, after ++ [⟨.halt, []⟩], by simp [hprogram], hpc⟩, hfit.2.1, fun _ => ?_⟩
    exact ⟨before ++ [i], after, by simp [hsplit], by simp⟩

theorem Visits.pc_le_maxProgram {ss : List Statement}
    (hlen : codeSize (programCode ss) ≤ maxProgram) {v : Control}
    (h : initial.Visits (chainLayout ss 0) v) : v.pc ≤ maxProgram := by
  have hpc : v.pc ≤ 0 + codeSize (chainLayout ss 0) := h.pc_le
  rw [codeSize_chainLayout] at hpc
  rw [codeSize_programCode] at hlen
  omega

/-- One step from a state on the walk leads to a state on the walk. -/
theorem Step.visits {ss : List Statement} (hlen : codeSize (programCode ss) ≤ maxProgram)
    {c d : Control} (hstep : Step (codeBytes (programCode ss)) c d)
    (h : initial.Visits (chainLayout ss 0) c) : initial.Visits (chainLayout ss 0) d := by
  obtain ⟨i, hcode, hfits, hnext⟩ := h.instruction
  have hwf := programCode_wellFormed ss
  cases hstep with
  | onward hline hfalls =>
    rw [hcode.eq_of_decodeAt? hwf hline] at hfalls ⊢
    exact hnext hfalls
  | jump hline ha =>
    rw [hcode.eq_of_decodeAt? hwf hline] at ha ⊢
    exact hfits.target (fun v hv => hv.pc_le_maxProgram hlen) ha
  | back hline hop hloops =>
    rw [hcode.eq_of_decodeAt? hwf hline] at hop
    exact hfits.back hop _ _ hloops

/-- All paths through a program stay on the walk. -/
theorem Reachable.visits {ss : List Statement} (hlen : codeSize (programCode ss) ≤ maxProgram)
    {c : Control} (h : Reachable (codeBytes (programCode ss)) c) :
    initial.Visits (chainLayout ss 0) c := by
  induction h with
  | refl => exact .start _ _
  | tail _ hstep ih => exact hstep.visits hlen ih

end Control

end RobotBlocks
