import Mathlib
import RobotBlocks.Listing
import RobotBlocks.Proofs.Layout

/-! Decoding what was compiled: the lines of a program, and where its jumps go. -/

namespace RobotBlocks

theorem Opcode.ofByte?_byte (op : Opcode) : Opcode.ofByte? op.byte = some op := by
  cases op <;> decide

theorem wordOfBytes_wordBytes (w : UInt16) :
    wordOfBytes (w.toNat / 256).toUInt8 (w.toNat % 256).toUInt8 = w := by
  have hw := w.toNat_lt
  apply UInt16.toNat_inj.mp
  simp [wordOfBytes]
  omega

/-- An operand is read back from its bytes, whatever follows them. -/
theorem Operand.read?_encode (o : Operand) (rest : List UInt8) :
    Operand.read? o.kind (o.encode ++ rest) = some (o, rest) := by
  cases o <;> simp [kind, encode, read?, wordBytes, wordOfBytes_wordBytes]

theorem Operand.readAll?_encode (os : List Operand) (rest : List UInt8) :
    Operand.readAll? (os.map Operand.kind) (os.flatMap Operand.encode ++ rest) =
      some (os, rest) := by
  induction os with
  | nil => rfl
  | cons o os ih =>
    simp [readAll?, Operand.read?_encode, ih]

theorem Line.read_encode {i : Instruction} (h : i.WellFormed) (offset : Nat) (rest : List UInt8) :
    Line.read offset i.opcode.byte (i.operands.flatMap Operand.encode ++ rest) =
      .ok (⟨offset, i⟩, rest) := by
  have hr := Operand.readAll?_encode i.operands rest
  rw [h] at hr
  simp [Line.read, Opcode.ofByte?_byte, hr]

/-- The lines of some code whose first byte is at an offset. -/
def linesFrom : Nat → List Instruction → List Line
  | _, [] => []
  | offset, i :: rest => ⟨offset, i⟩ :: linesFrom (offset + i.opcode.size) rest

theorem length_le_codeSize (code : List Instruction) : code.length ≤ codeSize code := by
  induction code with
  | nil => simp
  | cons i code ih =>
    simp only [List.length_cons, codeSize_cons, Opcode.size]
    omega

/-- Instructions at the front are decoded first, whatever stands behind them. -/
theorem decodeFrom_append {code : List Instruction} (h : ∀ i ∈ code, i.WellFormed)
    (turns offset : Nat) (rest : List UInt8) (done : List Line) :
    decodeFrom (code.length + turns) offset (codeBytes code ++ rest) done =
      decodeFrom turns (offset + codeSize code) rest ((linesFrom offset code).reverse ++ done) := by
  induction code generalizing offset done with
  | nil => simp [linesFrom]
  | cons i code ih =>
    obtain ⟨hi, hcode⟩ := List.forall_mem_cons.mp h
    have hturns : (i :: code).length + turns = code.length + turns + 1 := by
      rw [List.length_cons]
      omega
    rw [hturns, codeBytes_cons, Instruction.encode, List.append_assoc, List.cons_append, decodeFrom,
      Line.read_encode hi]
    show decodeFrom (code.length + turns) (offset + i.opcode.size) (codeBytes code ++ rest)
      (⟨offset, i⟩ :: done) = _
    rw [ih hcode, codeSize_cons, Nat.add_assoc]
    simp [linesFrom]

/-- The bytes of some code allow a turn for each instruction, and those behind it further turns. -/
theorem exists_turns {code : List Instruction} (h : ∀ i ∈ code, i.WellFormed) (rest : List UInt8) :
    ∃ turns, rest.length ≤ turns ∧ (codeBytes code ++ rest).length = code.length + turns := by
  have hlen := length_codeBytes h
  have hle := length_le_codeSize code
  refine ⟨codeSize code - code.length + rest.length, by omega, ?_⟩
  rw [List.length_append]
  omega

/-- Decoding passes over instructions and goes on with the bytes behind them. -/
theorem decode_append {code : List Instruction} (h : ∀ i ∈ code, i.WellFormed)
    (rest : List UInt8) : ∃ turns, rest.length ≤ turns ∧
      decode (codeBytes code ++ rest) =
        decodeFrom turns (codeSize code) rest (linesFrom 0 code).reverse := by
  obtain ⟨turns, hle, hturns⟩ := exists_turns h rest
  refine ⟨turns, hle, ?_⟩
  rw [decode, hturns, decodeFrom_append h, Nat.zero_add, List.append_nil]

/-- Encoded code is decoded to its lines. -/
theorem decode_codeBytes {code : List Instruction} (h : ∀ i ∈ code, i.WellFormed) :
    decode (codeBytes code) = .ok (linesFrom 0 code) := by
  obtain ⟨turns, -, hdecode⟩ := decode_append h []
  rw [List.append_nil] at hdecode
  rw [hdecode]
  cases turns <;> simp [decodeFrom]

/-- An offset between two instructions of some code at `base`, or at either end of it. -/
def Boundary (base : Nat) (code : List Instruction) (n : Nat) : Prop :=
  ∃ before after, code = before ++ after ∧ n = base + codeSize before

theorem Boundary.start (base : Nat) (code : List Instruction) : Boundary base code base :=
  ⟨[], code, rfl, rfl⟩

theorem Boundary.finish (base : Nat) (code : List Instruction) :
    Boundary base code (base + codeSize code) := ⟨code, [], by simp, rfl⟩

theorem Boundary.left {base n : Nat} {c : List Instruction} (h : Boundary base c n)
    (d : List Instruction) : Boundary base (c ++ d) n := by
  obtain ⟨before, after, rfl, rfl⟩ := h
  exact ⟨before, after ++ d, by simp, rfl⟩

theorem Boundary.right {base n : Nat} (c : List Instruction) {d : List Instruction}
    (h : Boundary (base + codeSize c) d n) : Boundary base (c ++ d) n := by
  obtain ⟨before, after, rfl, rfl⟩ := h
  exact ⟨c ++ before, after, by simp, by simp [Nat.add_assoc]⟩

/-- An instruction at an offset that has no address, or whose address is a valid one on the right
side of the instruction. -/
def JumpsWell (valid : Nat → Prop) (offset : Nat) (i : Instruction) : Prop :=
  i.target? = none ∨ ∃ op n, i = jumpTo op n ∧ valid n ∧
    (op = .jumpIfFalse → offset < n) ∧ (op = .loopEnd → n ≤ offset)

/-- All instructions of some code at an offset jump well. -/
def AllJumpWell (valid : Nat → Prop) : Nat → List Instruction → Prop
  | _, [] => True
  | offset, i :: rest =>
    JumpsWell valid offset i ∧ AllJumpWell valid (offset + i.opcode.size) rest

section Jumps

variable {valid : Nat → Prop}

theorem allJumpWell_append {offset : Nat} {c d : List Instruction} :
    AllJumpWell valid offset (c ++ d) ↔
      AllJumpWell valid offset c ∧ AllJumpWell valid (offset + codeSize c) d := by
  induction c generalizing offset with
  | nil => simp [AllJumpWell]
  | cons i c ih => simp [AllJumpWell, ih, and_assoc, Nat.add_assoc]

theorem allJumpWell_of_none {code : List Instruction} (h : ∀ i ∈ code, i.target? = none)
    (offset : Nat) : AllJumpWell valid offset code := by
  induction code generalizing offset with
  | nil => trivial
  | cons i code ih =>
    obtain ⟨hi, hcode⟩ := List.forall_mem_cons.mp h
    exact ⟨.inl hi, ih hcode _⟩

theorem jumpsWell_forward {offset n : Nat} (hv : valid n) (hn : offset < n) :
    JumpsWell valid offset (jumpTo .jumpIfFalse n) :=
  .inr ⟨_, n, rfl, hv, fun _ => hn, by simp⟩

theorem jumpsWell_back {offset n : Nat} (hv : valid n) (hn : n ≤ offset) :
    JumpsWell valid offset (jumpTo .loopEnd n) :=
  .inr ⟨_, n, rfl, hv, by simp, fun _ => hn⟩

theorem jumpsWell_jump {offset n : Nat} (hv : valid n) : JumpsWell valid offset (jumpTo .jump n) :=
  .inr ⟨_, n, rfl, hv, by simp, by simp⟩

end Jumps

theorem Expression.target?_code (e : Expression) : ∀ i ∈ e.code, i.target? = none := by
  induction e with
  | constant x | boolean v | sensor id | timer => simp [code, Instruction.target?]
  | not e ih =>
    simp only [code, List.forall_mem_append, List.forall_mem_cons]
    exact ⟨ih, rfl, by simp⟩
  | binary op l r ihl ihr =>
    simp only [code, List.forall_mem_append, List.forall_mem_cons]
    exact ⟨⟨ihl, ihr⟩, rfl, by simp⟩

namespace Statement

theorem target?_simpleCode (s : Statement) : ∀ i ∈ s.simpleCode, i.target? = none := by
  cases s <;> simp [simpleCode, Instruction.target?]

theorem target?_pauseCode (pause : Option Binary64) : ∀ i ∈ pauseCode pause, i.target? = none := by
  cases pause with
  | none => simp [pauseCode]
  | some seconds =>
    unfold pauseCode
    split <;> simp [Instruction.target?]

theorem target?_conditionCode (negated : Bool) (condition : Expression) :
    ∀ i ∈ conditionCode negated condition, i.target? = none := by
  simp only [conditionCode, List.forall_mem_append]
  refine ⟨condition.target?_code, ?_⟩
  cases negated <;> simp [Instruction.target?]

theorem target?_guardCode (sensor : UInt8) (op : Operator) (value : Binary64) :
    ∀ i ∈ guardCode sensor op value, i.target? = none := by
  simp [guardCode, Instruction.target?]

/-- The jumps of a statement stay within its code; those of the arms of a conditional may also go to
the end of the conditional. -/
theorem jump_cases : InductionCases
    (fun s => ∀ base valid, (∀ n, Boundary base (layout s base) n → valid n) →
      AllJumpWell valid base (layout s base))
    (fun ss => ∀ base valid, (∀ n, Boundary base (chainLayout ss base) n → valid n) →
      AllJumpWell valid base (chainLayout ss base))
    (fun arms => ∀ base exit valid, (∀ n, Boundary base (armsLayout arms base exit) n → valid n) →
      valid exit → AllJumpWell valid base (armsLayout arms base exit)) where
  simple s hs base valid h := by
    rw [layout_of_simple hs]
    exact allJumpWell_of_none s.target?_simpleCode base
  waitUntil sensor op value base valid h := by
    have hstart := h base (.start _ _)
    have hexit := h _ (.finish _ _)
    simp only [codeSize_layout, size, ← Nat.add_assoc] at hexit
    rw [layout, allJumpWell_append]
    refine ⟨allJumpWell_of_none (target?_guardCode sensor op value) base, ?_⟩
    exact ⟨jumpsWell_forward hexit (by rw [jumpSize]; omega), jumpsWell_jump hstart, trivial⟩
  choose arms otherwise iha iho base valid h := by
    have hexit := h _ (.finish _ _)
    simp only [codeSize_layout, size, ← Nat.add_assoc] at hexit
    rw [layout] at h ⊢
    rw [allJumpWell_append, codeSize_armsLayout]
    refine ⟨iha _ _ valid (fun n hn => h n (hn.left _)) hexit, iho _ valid fun n hn => h n ?_⟩
    exact .right _ (by simpa using hn)
  repeatTimes times pause body ih base valid h := by
    rw [layout, List.append_assoc] at h ⊢
    have hbody : AllJumpWell valid (base + Opcode.repeatStart.size)
        (chainLayout body (base + Opcode.repeatStart.size)) :=
      ih _ valid fun n hn => h n ((Boundary.right [_] hn).left _)
    rw [allJumpWell_append, allJumpWell_append]
    refine ⟨⟨.inl rfl, hbody⟩, allJumpWell_of_none (target?_pauseCode pause) _, ?_⟩
    exact allJumpWell_of_none (by simp [Instruction.target?]) _
  forever body ih base valid h := by
    rw [layout] at h ⊢
    rw [allJumpWell_append]
    refine ⟨ih _ valid fun n hn => h n (hn.left _), ?_⟩
    exact ⟨jumpsWell_back (h base (.start _ _)) (by omega), trivial⟩
  loopWhile negated condition body ih base valid h := by
    have hstart := h base (.start _ _)
    have hexit := h _ (.finish _ _)
    simp only [codeSize_layout, size, ← Nat.add_assoc] at hexit
    rw [layout] at h ⊢
    simp only [List.append_assoc, List.cons_append] at h ⊢
    rw [allJumpWell_append]
    refine ⟨allJumpWell_of_none (target?_conditionCode negated condition) base,
      jumpsWell_forward hexit (by rw [jumpSize]; omega), ?_⟩
    rw [allJumpWell_append]
    refine ⟨ih _ valid fun n hn => h n ?_, jumpsWell_back hstart (by omega), trivial⟩
    exact .right _ (.right [_] (hn.left _))
  nil base valid h := by
    rw [chainLayout]
    trivial
  cons s rest ihs ihr base valid h := by
    rw [chainLayout] at h ⊢
    rw [allJumpWell_append, codeSize_layout]
    refine ⟨ihs base valid fun n hn => h n (hn.left _), ihr _ valid fun n hn => h n ?_⟩
    exact .right _ (by simpa using hn)
  armsNil base exit valid h hexit := by
    rw [armsLayout]
    trivial
  armsCons condition body rest ihb ihr base exit valid h hexit := by
    rw [armsLayout] at h ⊢
    simp only [List.append_assoc, List.cons_append] at h ⊢
    set next := base + codeSize condition.code + jumpSize + chainSize body + jumpSize with hnext
    have hrest (n : Nat) (hn : Boundary next (armsLayout rest next exit) n) : valid n := by
      apply h n
      apply Boundary.right condition.code
      apply Boundary.right [_]
      apply Boundary.right (chainLayout body _)
      apply Boundary.right [_]
      simpa [← hnext] using hn
    rw [allJumpWell_append]
    refine ⟨allJumpWell_of_none condition.target?_code base,
      jumpsWell_forward (hrest _ (.start _ _)) (by rw [hnext, jumpSize]; omega), ?_⟩
    rw [allJumpWell_append, codeSize_chainLayout]
    refine ⟨ihb _ valid fun n hn => h n ?_, jumpsWell_jump hexit, ihr _ exit valid hrest hexit⟩
    exact .right _ (.right [_] (hn.left _))

/-- The jumps of a chain stay within its code. -/
theorem allJumpWell_chain (ss : List Statement) (base : Nat) :
    AllJumpWell (Boundary base (chainLayout ss base)) base (chainLayout ss base) :=
  jump_cases.chain ss base _ fun _ hn => hn

end Statement

/-- Lines that follow each other without a gap, from one offset to another. -/
def Tiles : Nat → List Line → Nat → Prop
  | start, [], stop => start = stop
  | start, line :: rest, stop => line.offset = start ∧ Tiles (start + line.size) rest stop

/-- The lines of a compiled program. -/
structure IsProgram (program : List UInt8) (lines : List Line) : Prop where
  tiles : Tiles 0 lines program.length
  bytes : codeBytes (lines.map Line.instruction) = program
  halts : ∃ earlier last, lines = earlier ++ [last] ∧ last.instruction = ⟨.halt, []⟩ ∧
    ∀ line ∈ earlier, line.instruction.opcode ≠ .halt
  noDriveFour : ∀ line ∈ lines, line.instruction.opcode ≠ .driveFour
  target : ∀ line ∈ lines, ∀ n, line.instruction.target? = some n →
    n < program.length ∧ n ∈ lines.map Line.offset ∧
      (line.instruction.opcode = .jumpIfFalse → line.offset < n) ∧
      (line.instruction.opcode = .loopEnd → n ≤ line.offset)

theorem tiles_linesFrom (offset : Nat) (code : List Instruction) :
    Tiles offset (linesFrom offset code) (offset + codeSize code) := by
  induction code generalizing offset with
  | nil => rfl
  | cons i code ih =>
    have hrest := ih (offset + i.opcode.size)
    rw [Nat.add_assoc] at hrest
    exact ⟨rfl, hrest⟩

@[simp] theorem instruction_linesFrom (offset : Nat) (code : List Instruction) :
    (linesFrom offset code).map Line.instruction = code := by
  induction code generalizing offset with
  | nil => rfl
  | cons i code ih => simp [linesFrom, ih]

theorem linesFrom_append (offset : Nat) (c d : List Instruction) :
    linesFrom offset (c ++ d) = linesFrom offset c ++ linesFrom (offset + codeSize c) d := by
  induction c generalizing offset with
  | nil => simp [linesFrom]
  | cons i c ih => simp [linesFrom, ih, Nat.add_assoc]

/-- Every line jumps well if the code does. -/
theorem jumpsWell_of_mem {valid : Nat → Prop} {offset : Nat} {code : List Instruction}
    (h : AllJumpWell valid offset code) :
    ∀ line ∈ linesFrom offset code, JumpsWell valid line.offset line.instruction := by
  induction code generalizing offset with
  | nil => simp [linesFrom]
  | cons i code ih =>
    rw [linesFrom, List.forall_mem_cons]
    exact ⟨h.1, ih h.2⟩

/-- A boundary within some code is the offset of a line if more code follows. -/
theorem Boundary.mem_offsets {base n : Nat} {code : List Instruction} (h : Boundary base code n)
    (i : Instruction) (rest : List Instruction) :
    n ∈ (linesFrom base (code ++ i :: rest)).map Line.offset := by
  obtain ⟨before, after, rfl, rfl⟩ := h
  rw [List.append_assoc, linesFrom_append]
  cases after <;> simp [linesFrom]

theorem Boundary.le {base n : Nat} {code : List Instruction} (h : Boundary base code n) :
    n ≤ base + codeSize code := by
  obtain ⟨before, after, rfl, rfl⟩ := h
  simp

theorem instruction_mem {offset : Nat} {code : List Instruction} {line : Line}
    (h : line ∈ linesFrom offset code) : line.instruction ∈ code := by
  rw [← instruction_linesFrom offset code]
  exact List.mem_map_of_mem h

theorem target?_jumpTo {n : Nat} (h : n ≤ maxProgram) (op : Opcode) :
    (jumpTo op n).target? = some n := by
  show some (addressWord n).toNat = some n
  rw [toNat_addressWord h]

/-- The lines of the code of a program that is not too long. -/
theorem isProgram_lines {ss : List Statement}
    (h : (codeBytes (Statement.programCode ss)).length ≤ maxProgram) :
    IsProgram (codeBytes (Statement.programCode ss)) (linesFrom 0 (Statement.programCode ss)) := by
  have hlen := Statement.length_programCode ss
  have hlines : linesFrom 0 (Statement.programCode ss) =
      linesFrom 0 (Statement.chainLayout ss 0) ++ [⟨Statement.chainSize ss, .halt, []⟩] := by
    simp [Statement.programCode, linesFrom_append, linesFrom]
  constructor
  case tiles =>
    rw [length_codeBytes (Statement.programCode_wellFormed ss)]
    simpa using tiles_linesFrom 0 (Statement.programCode ss)
  case bytes => simp
  case halts =>
    refine ⟨_, _, hlines, rfl, fun line hline => ?_⟩
    exact (Statement.chainLayout_emittable ss 0 _ (instruction_mem hline)).2.1
  case noDriveFour =>
    rw [hlines, List.forall_mem_append, List.forall_mem_singleton]
    refine ⟨fun line hline => ?_, by simp⟩
    exact (Statement.chainLayout_emittable ss 0 _ (instruction_mem hline)).2.2
  case target =>
    intro line hline n hn
    have hjumps : AllJumpWell (Boundary 0 (Statement.chainLayout ss 0)) 0
        (Statement.programCode ss) := by
      rw [Statement.programCode, allJumpWell_append]
      exact ⟨Statement.allJumpWell_chain ss 0, .inl rfl, trivial⟩
    rcases jumpsWell_of_mem hjumps line hline with hnone | ⟨op, m, hi, hm, hforward, hback⟩
    · simp [hnone] at hn
    · have hle := hm.le
      rw [Statement.codeSize_chainLayout] at hle
      rw [hi, target?_jumpTo (by omega)] at hn
      obtain rfl : m = n := Option.some.inj hn
      rw [hi]
      exact ⟨by omega, hm.mem_offsets _ [], hforward, hback⟩

/-- A compiled program is decoded to lines that cover it, end where it ends, and jump only to each
other. -/
theorem decode_compiled {w : Workspace} {out : CompileOutput} (h : compile w = .ok out) :
    ∃ lines, decode out.program = .ok lines ∧ IsProgram out.program lines := by
  obtain ⟨start, -, hprogram, hlen⟩ := Generator.generate_new_ok (generate_of_compile h)
  rw [hprogram] at hlen ⊢
  exact ⟨_, decode_codeBytes (Statement.programCode_wellFormed _), isProgram_lines hlen⟩

/-- A loop with a conditional in it, and an endless loop behind. -/
def untilStart : Block :=
  let inner := (Block.bare "controls_if").withInput "DO0" (.bare "robot_stop")
  let loop := ((Block.bare "controls_whileUntil").withField "MODE" (.text "UNTIL")).withInput
    "DO" inner
  (Block.bare "start_hat").append (loop.append (.bare "loop_forever"))

def untilProgram : List UInt8 :=
  [32, 0, 0, 58, 17, 0, 20, 32, 0, 0, 17, 0, 17, 6, 16, 0, 17, 20, 0, 0, 20, 0, 20, 255]

theorem decode_compiled_until :
    ∃ out lines, compile (.ofBlocks [untilStart]) = .ok out ∧ out.program = untilProgram ∧
      decode untilProgram = .ok lines ∧ IsProgram untilProgram lines := by
  have hk : (compile (.ofBlocks [untilStart])).toOption.map CompileOutput.program =
      some untilProgram := by decide +kernel
  cases hc : compile (.ofBlocks [untilStart]) with
  | error e => simp [hc, Except.toOption] at hk
  | ok out =>
    have hp : out.program = untilProgram := by simpa [hc, Except.toOption] using hk
    obtain ⟨lines, hlines⟩ := decode_compiled hc
    rw [hp] at hlines
    exact ⟨out, lines, rfl, hp, hlines⟩

end RobotBlocks
