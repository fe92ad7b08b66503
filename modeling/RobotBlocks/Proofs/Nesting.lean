import Mathlib
import RobotBlocks.Proofs.Paths

/-! Counted loops in compiled code: their starts and ends are well nested, no jump leads into or out
of one, and no path enters or leaves one but at its start and its end. -/

namespace RobotBlocks

/-- Code in which each start of a counted loop has its end, with well-nested code between them. -/
inductive Nested : List Instruction → Prop where
  | nil : Nested []
  | plain {i : Instruction} {rest : List Instruction} (hs : i.opcode ≠ .repeatStart)
      (he : i.opcode ≠ .repeatEnd) (hrest : Nested rest) : Nested (i :: rest)
  | loop {first last : Instruction} {body rest : List Instruction}
      (hf : first.opcode = .repeatStart) (hl : last.opcode = .repeatEnd) (hbody : Nested body)
      (hrest : Nested rest) : Nested (first :: (body ++ last :: rest))

/-- A counted loop among some lines, by its first and its last line. -/
def IsLoop (lines : List Line) (first last : Line) : Prop :=
  ∃ before body after, lines = before ++ first :: (body ++ last :: after) ∧
    first.instruction.opcode = .repeatStart ∧ last.instruction.opcode = .repeatEnd ∧
    Nested (body.map Line.instruction)

/-- An offset within a counted loop. The end of the loop counts as inside, its start does not. -/
def Within (first last : Line) (n : Nat) : Prop := first.offset < n ∧ n ≤ last.offset

namespace Control

variable {op : Opcode}

theorem loops_repeatStart (h : op = .repeatStart) (c : Control) :
    (c.next op).loops = (c.pc + Opcode.repeatStart.size) :: c.loops := by
  rw [h]
  rfl

theorem loops_repeatEnd (h : op = .repeatEnd) (c : Control) :
    (c.next op).loops = c.loops.tail := by
  rw [h]
  rfl

/-- No other instruction enters or leaves a loop. -/
theorem loops_next (hs : op ≠ .repeatStart) (he : op ≠ .repeatEnd) (c : Control) :
    (c.next op).loops = c.loops := by
  unfold next
  split <;> simp_all

/-- A loop that a walk is in was entered before it or on it. -/
theorem mem_loops_walk {code : List Instruction} {c : Control} {n : Nat}
    (h : n ∈ (c.walk code).loops) : n ∈ c.loops ∨ (c.pc < n ∧ n ≤ c.pc + codeSize code) := by
  induction code generalizing c with
  | nil => exact .inl h
  | cons i code ih =>
    have hsize : 0 < i.opcode.size := by
      rw [Opcode.size]
      omega
    rw [codeSize_cons]
    rcases ih h with hn | ⟨hlt, hle⟩
    · by_cases hs : i.opcode = .repeatStart
      · rw [loops_repeatStart hs, List.mem_cons] at hn
        rcases hn with rfl | hn
        · rw [hs] at hsize ⊢
          right
          omega
        · exact .inl hn
      by_cases he : i.opcode = .repeatEnd
      · rw [loops_repeatEnd he] at hn
        exact .inl (List.mem_of_mem_tail hn)
      · rw [loops_next hs he] at hn
        exact .inl hn
    · rw [pc_next] at hlt hle
      right
      omega

end Control

namespace Nested

theorem append {x y : List Instruction} (hx : Nested x) (hy : Nested y) : Nested (x ++ y) := by
  induction hx with
  | nil => exact hy
  | plain hs he _ ih => exact .plain hs he ih
  | loop hf hl hbody _ _ ih =>
    rw [List.cons_append, List.append_assoc, List.cons_append]
    exact .loop hf hl hbody ih

theorem of_plain {code : List Instruction}
    (h : ∀ i ∈ code, i.opcode ≠ .repeatStart ∧ i.opcode ≠ .repeatEnd) : Nested code := by
  induction code with
  | nil => exact .nil
  | cons i code ih =>
    obtain ⟨hi, hcode⟩ := List.forall_mem_cons.mp h
    exact .plain hi.1 hi.2 (ih hcode)

/-- Effects are no starts or ends of loops. -/
theorem of_isEffect {code : List Instruction} (h : ∀ i ∈ code, i.opcode.isEffect) :
    Nested code := by
  apply of_plain
  intro i hi
  have hop := h i hi
  constructor <;> intro heq <;> simp [heq, Opcode.isEffect] at hop

theorem jumpTo {op : Opcode} (hop : op.IsJump) (n : Nat) {rest : List Instruction}
    (h : Nested rest) : Nested (RobotBlocks.jumpTo op n :: rest) := by
  cases hop <;> exact .plain (by simp) (by simp) h

/-- An element of two lists in a row stands in one of them. -/
theorem split_append {x y before after : List Instruction} {i : Instruction}
    (h : x ++ y = before ++ i :: after) :
    (∃ z, x = before ++ i :: z ∧ after = z ++ y) ∨ (∃ z, before = x ++ z ∧ y = z ++ i :: after) := by
  rcases List.append_eq_append_iff.mp h with ⟨z, rfl, hz⟩ | ⟨z, rfl, hz⟩
  · exact .inr ⟨z, rfl, hz⟩
  · rcases List.cons_eq_append_iff.mp hz with ⟨rfl, rfl⟩ | ⟨z, rfl, rfl⟩
    · exact .inr ⟨[], by simp, by simp⟩
    · exact .inl ⟨z, rfl, rfl⟩

/-- In well-nested code every start has its end and every end its start, with well-nested code
between the two. -/
theorem matched {code before after : List Instruction} {i : Instruction} (h : Nested code)
    (hsplit : code = before ++ i :: after) :
    (i.opcode = .repeatStart → ∃ body last rest, after = body ++ last :: rest ∧
      last.opcode = .repeatEnd ∧ Nested body) ∧
    (i.opcode = .repeatEnd → ∃ rest first body, before = rest ++ first :: body ∧
      first.opcode = .repeatStart ∧ Nested body) := by
  induction h generalizing before after with
  | nil => simp at hsplit
  | plain hs he _ ih =>
    rcases List.cons_eq_append_iff.mp hsplit with ⟨rfl, hi⟩ | ⟨before, rfl, hrest⟩
    · obtain ⟨rfl, -⟩ := List.cons.inj hi
      exact ⟨fun h => absurd h hs, fun h => absurd h he⟩
    · refine ⟨(ih hrest).1, fun h => ?_⟩
      obtain ⟨front, first, body, rfl, hf, hb⟩ := (ih hrest).2 h
      exact ⟨_ :: front, first, body, rfl, hf, hb⟩
  | @loop first last body rest hf hl hbody _ ihb ihr =>
    rcases List.cons_eq_append_iff.mp hsplit with ⟨rfl, hi⟩ | ⟨before, rfl, htail⟩
    · obtain ⟨rfl, rfl⟩ := List.cons.inj hi
      exact ⟨fun _ => ⟨body, last, rest, rfl, hl, hbody⟩, fun h => by simp [hf] at h⟩
    rcases split_append htail with ⟨z, hz, rfl⟩ | ⟨z, rfl, hz⟩
    · -- in the body
      constructor
      · intro h
        obtain ⟨inner, stop, back, rfl, hs, hi⟩ := (ihb hz).1 h
        exact ⟨inner, stop, back ++ last :: rest, by simp, hs, hi⟩
      · intro h
        obtain ⟨front, start, inner, rfl, hs, hi⟩ := (ihb hz).2 h
        exact ⟨first :: front, start, inner, rfl, hs, hi⟩
    rcases List.cons_eq_append_iff.mp hz with ⟨rfl, hi⟩ | ⟨z, rfl, hrest⟩
    · -- at the end of this loop
      obtain ⟨rfl, rfl⟩ := List.cons.inj hi
      exact ⟨fun h => by simp [hl] at h, fun _ => ⟨[], first, body, by simp, hf, hbody⟩⟩
    · -- behind the loop
      refine ⟨(ihr hrest).1, fun h => ?_⟩
      obtain ⟨front, start, inner, rfl, hs, hi⟩ := (ihr hrest).2 h
      exact ⟨first :: (body ++ last :: front), start, inner, by simp, hs, hi⟩

/-- Walking over well-nested code leaves all loops that it enters. -/
theorem loops_walk {code : List Instruction} (h : Nested code) (c : Control) :
    (c.walk code).loops = c.loops := by
  induction h generalizing c with
  | nil => rfl
  | @plain i rest hs he _ ih =>
    rw [Control.walk_cons, ih, Control.loops_next hs he]
  | @loop first last body rest hf hl _ _ ihb ihr =>
    rw [Control.walk_cons, Control.walk_append, Control.walk_cons, ihr, Control.loops_repeatEnd hl,
      ihb, Control.loops_repeatStart hf]
    rfl

/-- On the way through well-nested code the loops around it are never left. -/
theorem loops_suffix {code x y : List Instruction} (h : Nested code) (hxy : code = x ++ y)
    (c : Control) : c.loops <:+ (c.walk x).loops := by
  induction h generalizing x y c with
  | nil =>
    obtain ⟨rfl, -⟩ := List.append_eq_nil_iff.mp hxy.symm
    exact List.suffix_rfl
  | @plain i rest hs he _ ih =>
    rcases List.cons_eq_append_iff.mp hxy with ⟨rfl, -⟩ | ⟨x, rfl, hrest⟩
    · exact List.suffix_rfl
    · rw [Control.walk_cons, ← Control.loops_next hs he c]
      exact ih hrest _
  | @loop first last body rest hf hl hbody _ ihb ihr =>
    rcases List.cons_eq_append_iff.mp hxy with ⟨rfl, -⟩ | ⟨x, rfl, htail⟩
    · exact List.suffix_rfl
    have hstart := Control.loops_repeatStart hf c
    rw [Control.walk_cons]
    rcases List.append_eq_append_iff.mp htail with ⟨z, rfl, hz⟩ | ⟨z, rfl, -⟩
    · -- the way leads through the whole body
      rcases List.cons_eq_append_iff.mp hz with ⟨rfl, -⟩ | ⟨z, rfl, hrest⟩
      · rw [List.append_nil, hbody.loops_walk, hstart]
        exact List.suffix_cons _ _
      · have hend : (((c.next first.opcode).walk body).next last.opcode).loops = c.loops := by
          rw [Control.loops_repeatEnd hl, hbody.loops_walk, hstart]
          rfl
        rw [Control.walk_append, Control.walk_cons, ← hend]
        exact ihr hrest _
    · have hinner := ihb rfl (c.next first.opcode)
      rw [hstart] at hinner
      exact (List.suffix_cons _ _).trans hinner

end Nested

theorem Expression.nested_code (e : Expression) : Nested e.code := by
  induction e with
  | constant x | boolean v | sensor id | timer => exact .of_plain (by simp [code])
  | not e ih => exact ih.append (.of_plain (by simp))
  | binary op l r ihl ihr =>
    exact (ihl.append ihr).append (.of_plain (by cases op <;> simp [Operator.opcode]))

namespace Statement

theorem nested_guardCode (sensor : UInt8) (op : Operator) (value : Binary64) :
    Nested (guardCode sensor op value) :=
  .of_plain (by cases op <;> simp [guardCode, Operator.opcode])

theorem nested_conditionCode (negated : Bool) (condition : Expression) :
    Nested (conditionCode negated condition) := by
  apply condition.nested_code.append
  cases negated
  · exact .nil
  · exact .of_plain (by simp)

/-- The code of a statement is well nested, so a loop lies within one body. -/
theorem nested_cases : InductionCases
    (fun s => ∀ base, Nested (layout s base))
    (fun ss => ∀ base, Nested (chainLayout ss base))
    (fun arms => ∀ base exit, Nested (armsLayout arms base exit)) where
  simple s hs base := by
    rw [layout_of_simple hs]
    exact .of_isEffect s.isEffect_simpleCode
  waitUntil sensor op value base := by
    rw [layout]
    exact (nested_guardCode sensor op value).append (.jumpTo .jumpIfFalse _ (.jumpTo .jump _ .nil))
  choose arms otherwise iha iho base := by
    rw [layout]
    exact (iha _ _).append (iho _)
  repeatTimes times pause body ih base := by
    rw [layout, List.cons_append, List.cons_append]
    exact .loop rfl rfl ((ih _).append (.of_isEffect (isEffect_pauseCode pause))) .nil
  forever body ih base := by
    rw [layout]
    exact (ih _).append (.jumpTo .loopEnd _ .nil)
  loopWhile negated condition body ih base := by
    rw [layout, List.append_assoc]
    exact (nested_conditionCode negated condition).append
      (.jumpTo .jumpIfFalse _ ((ih _).append (.jumpTo .loopEnd _ .nil)))
  nil base := .nil
  cons s rest ihs ihr base := by
    rw [chainLayout]
    exact (ihs _).append (ihr _)
  armsNil base exit := .nil
  armsCons condition body rest ihb ihr base exit := by
    rw [armsLayout, List.append_assoc]
    exact condition.nested_code.append
      (.jumpTo .jumpIfFalse _ ((ihb _).append (.jumpTo .jump _ (ihr _ _))))

theorem nested_program (ss : List Statement) : Nested (programCode ss) :=
  (nested_cases.chain ss 0).append (.of_plain (by simp))

end Statement

/-- A counted loop of some code, by the offsets of its start and its end. -/
structure LoopAt (code : List Instruction) (first last : Nat) : Prop where
  exists_split : ∃ before start body stop after,
    code = before ++ start :: (body ++ stop :: after) ∧ start.opcode = .repeatStart ∧
      stop.opcode = .repeatEnd ∧ Nested body ∧ first = codeSize before ∧
      last = first + Opcode.repeatStart.size + codeSize body

section Loop

variable {start stop : Instruction} {body : List Instruction} (hs : start.opcode = .repeatStart)
  (he : stop.opcode = .repeatEnd) (hbody : Nested body)
include hs hbody

/-- A walk through the body of a loop is in the loop. -/
theorem mem_loops_inside {x y : List Instruction} (hxy : body = x ++ y) (c : Control) :
    c.pc + Opcode.repeatStart.size ∈ (c.walk (start :: x)).loops := by
  have hsuffix := hbody.loops_suffix hxy (c.next start.opcode)
  rw [Control.loops_repeatStart hs] at hsuffix
  exact hsuffix.subset (by simp)

include he

/-- Behind a loop, a walk is in those loops that it was in before, and in later ones. -/
theorem mem_loops_behind (x : List Instruction) {c : Control}
    (h : c.pc + Opcode.repeatStart.size ∈ (c.walk (start :: (body ++ stop :: x))).loops) :
    c.pc + Opcode.repeatStart.size ∈ c.loops := by
  set e := ((c.next start.opcode).walk body).next stop.opcode with hdef
  have hpc : c.pc + Opcode.repeatStart.size < e.pc := by
    have hsize : 0 < Opcode.repeatEnd.size := by decide
    rw [hdef, Control.pc_next, Control.pc_walk, Control.pc_next, hs, he]
    omega
  have hloops : e.loops = c.loops := by
    rw [hdef, Control.loops_repeatEnd he, hbody.loops_walk, Control.loops_repeatStart hs]
    rfl
  rw [Control.walk_cons, Control.walk_append, Control.walk_cons, ← hdef] at h
  rcases Control.mem_loops_walk h with hn | ⟨hlt, -⟩
  · rwa [hloops] at hn
  · omega

end Loop

/-- A place before the body of a loop, in the body or at its end, or behind the loop. -/
theorem place_cases {before body after x y : List Instruction} {start stop : Instruction}
    (h : before ++ start :: (body ++ stop :: after) = x ++ y) :
    (∃ z, before = x ++ z) ∨ (∃ z w, x = before ++ start :: z ∧ body = z ++ w) ∨
      ∃ z, x = before ++ start :: (body ++ stop :: z) := by
  rcases List.append_eq_append_iff.mp h with ⟨z, rfl, hz⟩ | ⟨z, hz, -⟩
  · rcases List.cons_eq_append_iff.mp hz with ⟨rfl, -⟩ | ⟨z, rfl, hrest⟩
    · exact .inl ⟨[], by simp⟩
    rcases List.append_eq_append_iff.mp hrest with ⟨w, rfl, hw⟩ | ⟨w, rfl, -⟩
    · rcases List.cons_eq_append_iff.mp hw with ⟨rfl, -⟩ | ⟨w, rfl, -⟩
      · exact .inr (.inl ⟨body, [], by simp, by simp⟩)
      · exact .inr (.inr ⟨w, rfl⟩)
    · exact .inr (.inl ⟨z, w, rfl, rfl⟩)
  · exact .inl ⟨z, hz⟩

/-- A walk is in a loop, which it knows by the start of the body, exactly while it is within the
code of the loop. -/
theorem LoopAt.mem_loops_iff {code : List Instruction} {first last : Nat} {c : Control}
    (h : LoopAt code first last) (hc : Control.initial.Visits code c) :
    first + Opcode.repeatStart.size ∈ c.loops ↔ first < c.pc ∧ c.pc ≤ last := by
  obtain ⟨before, start, body, stop, after, hcode, hs, he, hbody, rfl, rfl⟩ := h
  obtain ⟨x, y, hxy, rfl⟩ := hc
  have hpc (z : List Instruction) : (Control.initial.walk z).pc = codeSize z := by
    rw [Control.pc_walk]
    exact Nat.zero_add _
  -- loops that are entered before this one start at smaller addresses
  have hearlier {z w : List Instruction} (hb : before = z ++ w) :
      codeSize before + Opcode.repeatStart.size ∉ (Control.initial.walk z).loops := by
    intro hn
    rcases Control.mem_loops_walk hn with hn | ⟨-, hle⟩
    · cases hn
    · have hsize : 0 < Opcode.repeatStart.size := by decide
      have hzero : Control.initial.pc = 0 := rfl
      rw [hb, codeSize_append] at hle
      omega
  have hstart := hpc before
  rw [hpc]
  rcases place_cases (hcode.symm.trans hxy) with ⟨z, hz⟩ | ⟨z, w, rfl, hw⟩ | ⟨z, rfl⟩
  · apply iff_of_false (hearlier hz)
    rw [hz, codeSize_append]
    omega
  · have hin := mem_loops_inside hs hbody hw (Control.initial.walk before)
    rw [hstart, ← Control.walk_append] at hin
    apply iff_of_true hin
    rw [hw, codeSize_append, codeSize_append, codeSize_cons, hs]
    have hsize : 0 < Opcode.repeatStart.size := by decide
    omega
  · rw [Control.walk_append, ← hstart]
    apply iff_of_false
    · intro hn
      have houter := mem_loops_behind hs he hbody z hn
      rw [hstart] at houter
      exact hearlier (List.append_nil before).symm houter
    · have hsize : 0 < Opcode.repeatEnd.size := by decide
      rw [hstart, codeSize_append, codeSize_cons, codeSize_append, codeSize_cons, hs, he]
      omega

section Lines

variable {offset : Nat} {code : List Instruction}

theorem exists_of_linesFrom_append {x y : List Line} (h : linesFrom offset code = x ++ y) :
    ∃ c d, code = c ++ d ∧ x = linesFrom offset c ∧ y = linesFrom (offset + codeSize c) d := by
  induction x generalizing offset code with
  | nil => exact ⟨[], code, rfl, rfl, h.symm⟩
  | cons line x ih =>
    cases code with
    | nil => simp [linesFrom] at h
    | cons i code =>
      obtain ⟨rfl, hrest⟩ := List.cons.inj h
      obtain ⟨c, d, rfl, rfl, rfl⟩ := ih hrest
      exact ⟨i :: c, d, rfl, rfl, by rw [codeSize_cons, ← Nat.add_assoc]⟩

theorem exists_of_linesFrom_cons {line : Line} {y : List Line}
    (h : linesFrom offset code = line :: y) :
    ∃ i d, code = i :: d ∧ line = ⟨offset, i⟩ ∧ y = linesFrom (offset + i.opcode.size) d := by
  cases code with
  | nil => simp [linesFrom] at h
  | cons i code =>
    obtain ⟨rfl, rfl⟩ := List.cons.inj h
    exact ⟨i, code, rfl, rfl, rfl⟩

/-- A line stands for an instruction of the code. -/
theorem exists_of_mem_lines {line : Line} (h : line ∈ linesFrom 0 code) :
    ∃ before i after, code = before ++ i :: after ∧ line = ⟨codeSize before, i⟩ := by
  obtain ⟨x, y, hxy⟩ := List.append_of_mem h
  obtain ⟨before, rest, rfl, -, hrest⟩ := exists_of_linesFrom_append hxy
  obtain ⟨i, after, rfl, rfl, -⟩ := exists_of_linesFrom_cons hrest.symm
  exact ⟨before, i, after, rfl, by rw [Nat.zero_add]⟩

theorem IsLoop.loopAt {first last : Line} (h : IsLoop (linesFrom 0 code) first last) :
    LoopAt code first.offset last.offset := by
  obtain ⟨x, y, z, hlines, hs, he, hnested⟩ := h
  obtain ⟨before, rest, rfl, -, hrest⟩ := exists_of_linesFrom_append hlines
  obtain ⟨start, rest, rfl, rfl, htail⟩ := exists_of_linesFrom_cons hrest.symm
  obtain ⟨body, rest, rfl, rfl, hend⟩ := exists_of_linesFrom_append htail.symm
  obtain ⟨stop, after, rfl, rfl, -⟩ := exists_of_linesFrom_cons hend.symm
  rw [instruction_linesFrom] at hnested
  refine ⟨before, start, body, stop, after, rfl, hs, he, hnested, Nat.zero_add _, ?_⟩
  rw [← hs]

/-- The lines of a counted loop of some code. -/
theorem isLoop_lines {before body after : List Instruction} {start stop : Instruction}
    (hs : start.opcode = .repeatStart) (he : stop.opcode = .repeatEnd) (hbody : Nested body) :
    IsLoop (linesFrom 0 (before ++ start :: (body ++ stop :: after))) ⟨codeSize before, start⟩
      ⟨codeSize before + start.opcode.size + codeSize body, stop⟩ := by
  refine ⟨linesFrom 0 before, linesFrom (codeSize before + start.opcode.size) body,
    linesFrom (codeSize before + start.opcode.size + codeSize body + stop.opcode.size) after, ?_, hs,
    he, ?_⟩
  · rw [linesFrom_append, Nat.zero_add, linesFrom, linesFrom_append, linesFrom]
  · rwa [instruction_linesFrom]

end Lines

/-- A jump has an address. -/
theorem exists_target? {i : Instruction} (hwf : i.WellFormed) (hjump : i.opcode.IsJump) :
    ∃ n, i.target? = some n := by
  obtain ⟨op, operands⟩ := i
  have hkind : op.operands = [.address] := by
    cases hjump <;> rfl
  obtain ⟨o, rfl, ho⟩ := Machine.operand_of_wellFormed hwf hkind
  cases o <;> cases ho
  exact ⟨_, rfl⟩

/-- An instruction with an address is a jump. -/
theorem isJump_of_target? {i : Instruction} (hwf : i.WellFormed) {n : Nat}
    (hn : i.target? = some n) : i.opcode.IsJump := by
  obtain ⟨o, ho, hsome⟩ := List.exists_of_findSome?_eq_some hn
  have hkind : o.kind = .address := by
    cases o <;> simp_all [Operand.kind]
  have hmem : OperandKind.address ∈ i.opcode.operands := by
    rw [← hwf]
    exact List.mem_map.mpr ⟨o, ho, hkind⟩
  cases hop : i.opcode
  case jump => exact .jump
  case jumpIfFalse => exact .jumpIfFalse
  case loopEnd => exact .loopEnd
  all_goals simp [hop, Opcode.operands] at hmem

namespace Control

theorem loops_of_isJump {op : Opcode} (h : op.IsJump) (c : Control) :
    (c.next op).loops = c.loops := by
  cases h <;> rfl

/-- A step keeps the loops that control is in, enters one, or leaves the innermost one. -/
theorem Step.loops_cases {full : List Instruction} (hfull : ∀ i ∈ full, i.WellFormed)
    {c d : Control} {i : Instruction} (hcode : Machine.CodeAt full c.pc [i])
    (h : Step (codeBytes full) c d) :
    d.loops = c.loops ∨ d.loops = (c.pc + Opcode.repeatStart.size) :: c.loops ∨
      (d.pc = c.pc + Opcode.repeatEnd.size ∧ d.loops = c.loops.tail) := by
  cases h with
  | onward hline _ =>
    rw [hcode.eq_of_decodeAt? hfull hline]
    by_cases hs : i.opcode = .repeatStart
    · exact .inr (.inl (loops_repeatStart hs c))
    by_cases he : i.opcode = .repeatEnd
    · exact .inr (.inr ⟨by rw [pc_next, he], loops_repeatEnd he c⟩)
    · exact .inl (loops_next hs he c)
  | jump hline hn =>
    rw [hcode.eq_of_decodeAt? hfull hline] at hn ⊢
    exact .inl (loops_of_isJump (isJump_of_target? (hcode.wellFormed hfull) hn) c)
  | back => exact .inl rfl

end Control

section Program

variable {ss : List Statement} (hlen : codeSize (Statement.programCode ss) ≤ maxProgram)
include hlen

/-- Both ends of a jump are in the same loops. -/
theorem exists_target_of_isJump {line : Line}
    (hline : line ∈ linesFrom 0 (Statement.programCode ss))
    (hjump : line.instruction.opcode.IsJump) :
    ∃ c d, Control.initial.Visits (Statement.programCode ss) c ∧
      Control.initial.Visits (Statement.programCode ss) d ∧ c.pc = line.offset ∧
      line.instruction.target? = some d.pc ∧ d.loops = c.loops := by
  obtain ⟨before, i, after, hsplit, rfl⟩ := exists_of_mem_lines hline
  have hwf : i.WellFormed := Statement.programCode_wellFormed ss i (by simp [hsplit])
  obtain ⟨n, hn⟩ := exists_target? hwf hjump
  have hfit := Statement.allFit_program ss
  rw [hsplit, Control.allFit_append] at hfit
  have hvisits := hfit.2.1.target (fun v hv => hv.pc_le_maxProgram hlen) hn
  refine ⟨Control.initial.walk before, _, ⟨before, i :: after, hsplit, rfl⟩, hvisits.left _, ?_, hn,
    Control.loops_of_isJump hjump _⟩
  rw [Control.pc_walk]
  exact Nat.zero_add _

/-- The loops around the places before and after a step. -/
theorem loops_of_step {c d : Control}
    (hc : Control.Reachable (codeBytes (Statement.programCode ss)) c)
    (hstep : Control.Step (codeBytes (Statement.programCode ss)) c d) :
    Control.initial.Visits (Statement.programCode ss) c ∧
      Control.initial.Visits (Statement.programCode ss) d ∧
      (d.loops = c.loops ∨ d.loops = (c.pc + Opcode.repeatStart.size) :: c.loops ∨
        (d.pc = c.pc + Opcode.repeatEnd.size ∧ d.loops = c.loops.tail)) := by
  have hvisits := hc.visits hlen
  obtain ⟨i, hcode, -, -⟩ := hvisits.instruction
  exact ⟨hvisits.left _, (hstep.visits hlen hvisits).left _,
    hstep.loops_cases (Statement.programCode_wellFormed ss) hcode⟩

end Program

/-- The counted loops of a program. They are well nested, and a jump and its target are within the
same loops. A step of control comes into a loop from its start only, and leaves it from its end only.
-/
structure LoopsNest (program : List UInt8) (lines : List Line) : Prop where
  nested : Nested (lines.map Line.instruction)
  start : ∀ line ∈ lines, line.instruction.opcode = .repeatStart → ∃ last, IsLoop lines line last
  stop : ∀ line ∈ lines, line.instruction.opcode = .repeatEnd → ∃ first, IsLoop lines first line
  jumps : ∀ line ∈ lines, line.instruction.opcode.IsJump →
    ∃ n, line.instruction.target? = some n ∧ ∀ first last, IsLoop lines first last →
      (Within first last line.offset ↔ Within first last n)
  enters : ∀ c d, Control.Reachable program c → Control.Step program c d → ∀ first last,
    IsLoop lines first last → ¬Within first last c.pc → Within first last d.pc → c.pc = first.offset
  leaves : ∀ c d, Control.Reachable program c → Control.Step program c d → ∀ first last,
    IsLoop lines first last → Within first last c.pc → ¬Within first last d.pc → c.pc = last.offset

theorem Statement.loopsNest_program {ss : List Statement}
    (hlen : codeSize (programCode ss) ≤ maxProgram) :
    LoopsNest (codeBytes (programCode ss)) (linesFrom 0 (programCode ss)) where
  nested := by
    rw [instruction_linesFrom]
    exact nested_program ss
  start line hline hop := by
    obtain ⟨before, i, after, hsplit, rfl⟩ := exists_of_mem_lines hline
    obtain ⟨body, last, rest, rfl, he, hbody⟩ := ((nested_program ss).matched hsplit).1 hop
    rw [hsplit]
    exact ⟨_, isLoop_lines hop he hbody⟩
  stop line hline hop := by
    obtain ⟨before, i, after, hsplit, rfl⟩ := exists_of_mem_lines hline
    obtain ⟨front, first, body, rfl, hs, hbody⟩ := ((nested_program ss).matched hsplit).2 hop
    rw [hsplit, List.append_assoc, List.cons_append, codeSize_append, codeSize_cons,
      ← Nat.add_assoc]
    exact ⟨_, isLoop_lines hs hop hbody⟩
  jumps line hline hjump := by
    obtain ⟨c, d, hc, hd, hpc, htarget, hloops⟩ := exists_target_of_isJump hlen hline hjump
    refine ⟨d.pc, htarget, fun first last hloop => ?_⟩
    rw [Within, Within, ← hpc, ← hloop.loopAt.mem_loops_iff hc, ← hloop.loopAt.mem_loops_iff hd,
      hloops]
  enters c d hreach hstep first last hloop hout hin := by
    obtain ⟨hc, hd, hcases⟩ := loops_of_step hlen hreach hstep
    have hmem := (hloop.loopAt.mem_loops_iff hd).mpr hin
    have hnew : first.offset + Opcode.repeatStart.size ∉ c.loops :=
      fun hold => hout ((hloop.loopAt.mem_loops_iff hc).mp hold)
    rcases hcases with heq | heq | ⟨-, heq⟩
    · exact absurd (heq ▸ hmem) hnew
    · rw [heq, List.mem_cons] at hmem
      rcases hmem with hentered | hold
      · omega
      · exact absurd hold hnew
    · exact absurd (List.mem_of_mem_tail (heq ▸ hmem)) hnew
  leaves c d hreach hstep first last hloop hin hout := by
    obtain ⟨hc, hd, hcases⟩ := loops_of_step hlen hreach hstep
    have hmem := (hloop.loopAt.mem_loops_iff hc).mpr hin
    have hleft : first.offset + Opcode.repeatStart.size ∉ d.loops :=
      fun hstill => hout ((hloop.loopAt.mem_loops_iff hd).mp hstill)
    rcases hcases with heq | heq | ⟨hpc, -⟩
    · exact absurd (heq ▸ hmem) hleft
    · exact absurd (heq ▸ List.mem_cons_of_mem _ hmem) hleft
    · have hsize : Opcode.repeatEnd.size = 1 := by decide
      rw [Within] at hin hout
      omega

/-- The counted loops of a compiled program are well nested, and no path crosses their borders but at
their starts and ends. -/
theorem compiled_loops_nest {w : Workspace} {out : CompileOutput} (h : compile w = .ok out) :
    ∃ lines, decode out.program = .ok lines ∧ LoopsNest out.program lines := by
  obtain ⟨ss, hprogram, hlen⟩ := exists_programCode h
  rw [hprogram]
  exact ⟨_, decode_codeBytes (Statement.programCode_wellFormed ss), Statement.loopsNest_program hlen⟩

def loopedLines : List Line :=
  [⟨0, .repeatStart, [.count 2]⟩, ⟨3, .pushConst, [.word 0]⟩, ⟨6, .jumpIfFalse, [.address 13]⟩,
    ⟨9, .stop, []⟩, ⟨10, .jump, [.address 13]⟩, ⟨13, .repeatEnd, []⟩, ⟨14, .halt, []⟩]

theorem decode_loopedProgram : decode loopedProgram = .ok loopedLines := by
  have hk : (decode loopedProgram).toOption = some loopedLines := by decide +kernel
  cases hd : decode loopedProgram with
  | error e => simp [hd, Except.toOption] at hk
  | ok lines => exact congrArg _ (by simpa [hd, Except.toOption] using hk)

/-- Two jumps lead to the end of the loop. -/
theorem compiled_loops_nest_looped :
    (∃ out, compile (.ofBlocks [loopedStart]) = .ok out ∧ out.program = loopedProgram) ∧
      LoopsNest loopedProgram loopedLines ∧
      IsLoop loopedLines ⟨0, .repeatStart, [.count 2]⟩ ⟨13, .repeatEnd, []⟩ := by
  obtain ⟨out, hc, hp⟩ := loopedStart_program
  obtain ⟨lines, hdecode, hnest⟩ := compiled_loops_nest hc
  rw [hp] at hdecode hnest
  obtain rfl : loopedLines = lines := Except.ok.inj (decode_loopedProgram.symm.trans hdecode)
  refine ⟨⟨out, hc, hp⟩, hnest, [], loopedLines.tail.take 4, [⟨14, .halt, []⟩], rfl, rfl, rfl, ?_⟩
  exact .of_plain (by decide)

end RobotBlocks
