import Mathlib
import RobotBlocks.Proofs.Decoding
import RobotBlocks.Proofs.Reached

/-! Code that stands elsewhere. A chain is compiled to the same instructions wherever it is put, with
every address moved along; what is in the buffer already stays as it is. -/

namespace RobotBlocks

/-- An operand in code that stands `n` bytes later. -/
def Operand.relocate (n : Nat) : Operand → Operand
  | address a => address (a.toNat + n).toUInt16
  | o => o

def Instruction.relocate (n : Nat) (i : Instruction) : Instruction :=
  ⟨i.opcode, i.operands.map (Operand.relocate n)⟩

def relocated (n : Nat) (code : List Instruction) : List Instruction :=
  code.map (Instruction.relocate n)

section Relocate

variable {n : Nat}

@[simp] theorem relocated_nil : relocated n [] = [] := rfl

@[simp] theorem relocated_cons (i : Instruction) (code : List Instruction) :
    relocated n (i :: code) = i.relocate n :: relocated n code := rfl

@[simp] theorem relocated_append (c d : List Instruction) :
    relocated n (c ++ d) = relocated n c ++ relocated n d := List.map_append

theorem Instruction.relocate_of_none {i : Instruction} (h : i.target? = none) :
    i.relocate n = i := by
  obtain ⟨op, operands⟩ := i
  have hall : ∀ o ∈ operands, o.relocate n = o := by
    intro o ho
    have hnone := List.findSome?_eq_none_iff.mp h o ho
    cases o with
    | address a => simp at hnone
    | _ => rfl
  show (⟨op, operands.map (Operand.relocate n)⟩ : Instruction) = ⟨op, operands⟩
  rw [List.map_congr_left hall, List.map_id']

/-- Code without jumps is the same everywhere. -/
theorem relocated_of_none {code : List Instruction} (h : ∀ i ∈ code, i.target? = none) :
    relocated n code = code := by
  have hall : ∀ i ∈ code, i.relocate n = i := fun i hi => Instruction.relocate_of_none (h i hi)
  rw [relocated, List.map_congr_left hall, List.map_id']

theorem relocate_jumpTo (op : Opcode) {address moved : Nat} (hmoved : moved = address + n)
    (h : moved ≤ maxProgram) : (jumpTo op address).relocate n = jumpTo op moved := by
  have haddress : address ≤ maxProgram := by omega
  subst hmoved
  simp only [jumpTo, Instruction.relocate, List.map_cons, List.map_nil, Operand.relocate,
    toNat_addressWord haddress, addressWord_of_le h]

end Relocate

namespace Statement

/-- A layout at another base is the relocated one, as long as all of it can be addressed. -/
theorem relocation_cases (n : Nat) : InductionCases
    (fun s => ∀ base moved, moved = base + n → moved + size s ≤ maxProgram →
      layout s moved = relocated n (layout s base))
    (fun ss => ∀ base moved, moved = base + n → moved + chainSize ss ≤ maxProgram →
      chainLayout ss moved = relocated n (chainLayout ss base))
    (fun arms => ∀ base moved exit left, moved = base + n → left = exit + n →
      moved + armsSize arms ≤ maxProgram → left ≤ maxProgram →
      armsLayout arms moved left = relocated n (armsLayout arms base exit)) where
  simple s hs base moved hmoved h := by
    rw [layout_of_simple hs, layout_of_simple hs, relocated_of_none s.target?_simpleCode]
  waitUntil sensor op value base moved hmoved h := by
    rw [size] at h
    have hexit : (jumpTo .jumpIfFalse (base + codeSize (guardCode sensor op value) + jumpSize
        + jumpSize)).relocate n = jumpTo .jumpIfFalse
          (moved + codeSize (guardCode sensor op value) + jumpSize + jumpSize) :=
      relocate_jumpTo _ (by omega) (by omega)
    simp only [layout, relocated_append, relocated_cons, relocated_nil,
      relocated_of_none (target?_guardCode sensor op value)]
    rw [hexit, relocate_jumpTo .jump hmoved (by omega)]
  choose arms otherwise iha iho base moved hmoved h := by
    rw [size] at h
    rw [layout, layout, relocated_append]
    rw [iha base moved (base + armsSize arms + chainSize otherwise) _ hmoved (by omega) (by omega)
      (by omega), iho (base + armsSize arms) _ (by omega) (by omega)]
  repeatTimes times pause body ih base moved hmoved h := by
    rw [size] at h
    simp only [layout, relocated_append, relocated_cons, relocated_nil,
      relocated_of_none (target?_pauseCode pause)]
    rw [ih (base + Opcode.repeatStart.size) _ (by omega) (by omega)]
    rfl
  forever body ih base moved hmoved h := by
    rw [size] at h
    simp only [layout, relocated_append, relocated_cons, relocated_nil]
    rw [ih base moved hmoved (by omega), relocate_jumpTo .loopEnd hmoved (by omega)]
  loopWhile negated condition body ih base moved hmoved h := by
    rw [size] at h
    have hexit : (jumpTo .jumpIfFalse (base + codeSize (conditionCode negated condition) + jumpSize
        + chainSize body + jumpSize)).relocate n = jumpTo .jumpIfFalse
          (moved + codeSize (conditionCode negated condition) + jumpSize + chainSize body
            + jumpSize) := relocate_jumpTo _ (by omega) (by omega)
    simp only [layout, relocated_append, relocated_cons, relocated_nil,
      relocated_of_none (target?_conditionCode negated condition)]
    rw [ih (base + codeSize (conditionCode negated condition) + jumpSize) _ (by omega) (by omega),
      hexit, relocate_jumpTo .loopEnd hmoved (by omega)]
  nil base moved hmoved h := rfl
  cons s rest ihs ihr base moved hmoved h := by
    rw [chainSize] at h
    rw [chainLayout, chainLayout, relocated_append, ihs base moved hmoved (by omega),
      ihr (base + size s) _ (by omega) (by omega)]
  armsNil base moved exit left hmoved hleft h hle := rfl
  armsCons condition body rest ihb ihr base moved exit left hmoved hleft h hle := by
    rw [armsSize] at h
    have hskip : (jumpTo .jumpIfFalse (base + codeSize condition.code + jumpSize + chainSize body
        + jumpSize)).relocate n = jumpTo .jumpIfFalse
          (moved + codeSize condition.code + jumpSize + chainSize body + jumpSize) :=
      relocate_jumpTo _ (by omega) (by omega)
    simp only [armsLayout, relocated_append, relocated_cons,
      relocated_of_none condition.target?_code]
    rw [ihb (base + codeSize condition.code + jumpSize) _ (by omega) (by omega),
      ihr (base + codeSize condition.code + jumpSize + chainSize body + jumpSize) _ exit left
        (by omega) hleft (by omega) hle, hskip, relocate_jumpTo .jump hleft hle]

theorem chainLayout_relocated (ss : List Statement) {n : Nat} (h : n + chainSize ss ≤ maxProgram) :
    chainLayout ss n = relocated n (chainLayout ss 0) :=
  (relocation_cases n).chain ss 0 n (Nat.zero_add n).symm h

theorem emitChain_append (ss ts : List Statement) (b : CodeBuffer) :
    emitChain (ss ++ ts) b = emitChain ts (emitChain ss b) := by
  induction ss generalizing b with
  | nil => rfl
  | cons s ss ih => exact ih (emit s b)

end Statement

/-- One buffer is another with code added behind it: as many bytes as a fresh buffer holds, and if
all of it can be addressed, the fresh buffer's instructions with every address greater by the earlier
length. Nothing else changes. -/
structure ExtendsBy (earlier fresh later : CodeBuffer) : Prop where
  unresolved : later.unresolved = earlier.unresolved
  code : ∃ added : Array UInt8, later.code = earlier.code ++ added ∧
    added.size = fresh.code.size ∧
    (later.pc ≤ maxProgram → ∃ lines, decode fresh.code.toList = .ok lines ∧
      fresh.code.toList = codeBytes (lines.map Line.instruction) ∧
      added.toList = codeBytes (relocated earlier.pc (lines.map Line.instruction)) ∧
      ∀ line ∈ lines, (line.instruction.relocate earlier.pc).target? =
        line.instruction.target?.map (· + earlier.pc))

/-- No address of a chain passes the greatest one when it is moved. -/
theorem target?_relocate {ss : List Statement} {n : Nat}
    (h : n + Statement.chainSize ss ≤ maxProgram) {line : Line}
    (hline : line ∈ linesFrom 0 (Statement.chainLayout ss 0)) :
    (line.instruction.relocate n).target? = line.instruction.target?.map (· + n) := by
  have hjumps := jumpsWell_of_mem (Statement.allJumpWell_chain ss 0) line hline
  rcases hjumps with hnone | ⟨op, address, hi, hboundary, -, -⟩
  · rw [Instruction.relocate_of_none hnone, hnone]
    rfl
  · have hle := hboundary.le
    rw [Statement.codeSize_chainLayout] at hle
    rw [hi, relocate_jumpTo op rfl (by omega), target?_jumpTo (by omega), target?_jumpTo (by omega)]
    rfl

theorem extendsBy_emitChain (ss : List Statement) (b : CodeBuffer) :
    ExtendsBy b (Statement.emitChain ss .empty) (Statement.emitChain ss b) := by
  have hfresh : (Statement.emitChain ss .empty).code =
      (codeBytes (Statement.chainLayout ss 0)).toArray := by
    simp [Statement.emitChain_eq, CodeBuffer.emitAll_eq, CodeBuffer.empty, CodeBuffer.pc]
  rw [Statement.emitChain_eq ss b]
  constructor
  case unresolved => exact CodeBuffer.unresolved_emitAll b _
  case code =>
    refine ⟨(codeBytes (Statement.chainLayout ss b.pc)).toArray, ?_, ?_, fun hle => ?_⟩
    · rw [CodeBuffer.emitAll_eq]
    · simp [hfresh]
    · rw [CodeBuffer.pc_emitAll, Statement.length_chainLayout] at hle
      have hwell : ∀ i ∈ Statement.chainLayout ss 0, i.WellFormed :=
        fun i hi => (Statement.chainLayout_emittable ss 0 i hi).1
      refine ⟨linesFrom 0 (Statement.chainLayout ss 0), ?_, ?_, ?_,
        fun line => target?_relocate hle⟩
      · rw [hfresh]
        exact decode_codeBytes hwell
      · rw [hfresh, instruction_linesFrom]
      · rw [instruction_linesFrom, ← Statement.chainLayout_relocated ss hle]

/-- A chain that runs through the blocks of one chain and then through another. -/
inductive Concatenates : Option Block → Option Block → Option Block → Prop where
  | nil (o : Option Block) : Concatenates none o o
  | cons {b : Block} {o : Option Block} {next : Option (Connection Block)}
      (hrest : Concatenates b.next? o (next.bind (·.target?))) :
      Concatenates (some b) o (some { b with next := next })

namespace Block

/-- The kinds of the blocks of a chain. -/
def kindsOf (o : Option Block) : List String := (o.map chainKinds).getD []

theorem kindsOf_some (b : Block) : kindsOf (some b) = b.kind :: kindsOf b.next? := by
  have hkinds (o : Option Block) : o.elim [] chainKinds = kindsOf o := by cases o <;> rfl
  obtain ⟨kind, id, fields, inputs, next, extraState, legacy⟩ := b
  show chainKinds _ = _
  rw [chainKinds, nextKinds_eq_elim, hkinds]
  rfl

/-- A chain without endless loops in front does not hide the chain behind it. -/
theorem statementsOf_concatenates {a o c : Option Block} (h : Concatenates a o c)
    (ha : ∀ kind ∈ kindsOf a, kind ∉ endlessKinds) :
    Generator.statementsOf c = Generator.statementsOf a ++ Generator.statementsOf o := by
  induction h with
  | nil o => rfl
  | @cons b o next hrest ih =>
    rw [kindsOf_some, List.forall_mem_cons] at ha
    have hopened : opened { b with next := next } = b.opened := rfl
    rw [statementsOf_cons, statementsOf_cons b, hopened]
    simp only [ha.1, if_false, List.cons_append]
    rw [← ih ha.2]
    rfl

end Block

/-- Compiling a chain adds relocated code behind what is in the buffer. A chain that is put together
from two is compiled to the code of the first and, behind it, the relocated code of the second. -/
theorem compileChain_relocates :
    (∀ (g : Generator) (o : Option Block),
      ExtendsBy g.buffer (Generator.new.compileChain o).buffer (g.compileChain o).buffer) ∧
    ∀ (g : Generator) (first second joined : Option Block), Concatenates first second joined →
      (∀ kind ∈ Block.kindsOf first, kind ∉ endlessKinds) →
      ExtendsBy (g.compileChain first).buffer (Generator.new.compileChain second).buffer
        (g.compileChain joined).buffer := by
  constructor
  · intro g o
    exact extendsBy_emitChain (Generator.statementsOf o) g.buffer
  · intro g first second joined hjoined hfirst
    have hbuffer : (g.compileChain joined).buffer =
        Statement.emitChain (Generator.statementsOf second) (g.compileChain first).buffer := by
      show Statement.emitChain (Generator.statementsOf joined) g.buffer = _
      rw [Block.statementsOf_concatenates hjoined hfirst, Statement.emitChain_append]
      rfl
    rw [hbuffer]
    exact extendsBy_emitChain (Generator.statementsOf second) (g.compileChain first).buffer

/-- A generator in the middle of a conditional: a statement, and a jump that is still open. -/
def openGenerator : Generator := ⟨⟨#[6, 17, 0, 0], 1⟩, [], []⟩

def loopBlock : Block :=
  (Block.bare "controls_whileUntil").withInput "DO" (.bare "robot_stop")

theorem compileChain_relocates_open :
    Concatenates (some (.bare "robot_stop")) (some loopBlock)
        (some ((Block.bare "robot_stop").append loopBlock)) ∧
      (Generator.new.compileChain (some loopBlock)).buffer =
        ⟨#[32, 0, 0, 17, 0, 10, 6, 20, 0, 0], 0⟩ ∧
      (openGenerator.compileChain (some ((Block.bare "robot_stop").append loopBlock))).buffer =
        ⟨#[6, 17, 0, 0, 6, 32, 0, 0, 17, 0, 15, 6, 20, 0, 5], 1⟩ ∧
      ExtendsBy (openGenerator.compileChain (some (.bare "robot_stop"))).buffer
        ⟨#[32, 0, 0, 17, 0, 10, 6, 20, 0, 0], 0⟩
        ⟨#[6, 17, 0, 0, 6, 32, 0, 0, 17, 0, 15, 6, 20, 0, 5], 1⟩ := by
  have hjoined : Concatenates (some (.bare "robot_stop")) (some loopBlock)
      (some ((Block.bare "robot_stop").append loopBlock)) := .cons (.nil _)
  have hfresh : (Generator.new.compileChain (some loopBlock)).buffer =
      ⟨#[32, 0, 0, 17, 0, 10, 6, 20, 0, 0], 0⟩ := by decide +kernel
  have hopen : (openGenerator.compileChain
      (some ((Block.bare "robot_stop").append loopBlock))).buffer =
        ⟨#[6, 17, 0, 0, 6, 32, 0, 0, 17, 0, 15, 6, 20, 0, 5], 1⟩ := by decide +kernel
  have hextends := compileChain_relocates.2 openGenerator _ _ _ hjoined (by decide +kernel)
  rw [hfresh, hopen] at hextends
  exact ⟨hjoined, hfresh, hopen, hextends⟩

end RobotBlocks
