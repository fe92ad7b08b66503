import Mathlib
import RobotBlocks.Proofs.Source
import RobotBlocks.Proofs.Symbolic

/-! Two-pass assembly of blocks. A chain of blocks is lowered to symbolic code, with labels at the
next arm and the end of a conditional and at the start and the exit of a loop. The main result is
that the one-pass compiler gives the bytes that this code is assembled to. -/

namespace RobotBlocks

namespace Block

/-- Postfix code for a value. -/
def valueCode : Option Block → List Instruction
  | none => [⟨.pushConst, [.word 0]⟩]
  | some b => match b.valueForm with
    | .constant x => [⟨.pushConst, [.word x]⟩]
    | .boolean v => [⟨.pushBool, [.byte v.toUInt8]⟩]
    | .sensor id => [⟨.pushSensor, [.byte id]⟩]
    | .timer => [⟨.pushTimer, []⟩, ⟨.pushConst, [.word 1000]⟩, ⟨.divide, []⟩]
    | .negation => valueCode (b.input? "BOOL") ++ [⟨.not, []⟩]
    | .binary op =>
      valueCode (b.input? "A") ++ valueCode (b.input? "B") ++ [⟨op.opcode, []⟩]
termination_by o => sizeOf o
decreasing_by all_goals exact sizeOf_input? b _

open Symbolic

/-- An arm of a conditional around its body. -/
def armSymbols (path : List Nat) (index : Nat) (condition : Option Block)
    (body : List Symbolic) : List Symbolic :=
  (valueCode condition).map plain ++ jump .jumpIfFalse ⟨path, .nextArm index⟩ :: body
    ++ [jump .jump ⟨path, .conditionalEnd⟩, mark ⟨path, .nextArm index⟩]

/-- Lowers a chain of blocks. The path of the block behind a block is one step `0` longer, those of
its bodies one step above `0`. -/
def lower (path : List Nat) : Option Block → List Symbolic
  | none => []
  | some b => match b.statementForm with
    | .simple code => code.map plain ++ lower (0 :: path) b.next?
    | .conditional =>
      let count := b.shape.elseIfCount + 1
      (List.range count).flatMap (fun i =>
          armSymbols path i (b.input? ("IF" ++ toString i))
            (lower ((i + 1) :: path) (b.input? ("DO" ++ toString i))))
        ++ lower ((count + 1) :: path) b.otherwise
        ++ mark ⟨path, .conditionalEnd⟩ :: lower (0 :: path) b.next?
    | .counted times pause =>
      plain ⟨.repeatStart, [.count times]⟩ :: lower (1 :: path) (b.input? "DO")
        ++ pause.toList.map (fun ms => plain ⟨.wait, [.millis ms]⟩)
        ++ plain ⟨.repeatEnd, []⟩ :: lower (0 :: path) b.next?
    | .endless =>
      mark ⟨path, .loopStart⟩ :: lower (1 :: path) (b.input? "DO")
        ++ [jump .loopEnd ⟨path, .loopStart⟩]
    | .guarded negated =>
      mark ⟨path, .loopStart⟩ :: (valueCode (b.input? "BOOL")).map plain
        ++ (if negated then [plain ⟨.not, []⟩] else [])
        ++ jump .jumpIfFalse ⟨path, .loopExit⟩ :: lower (1 :: path) (b.input? "DO")
        ++ jump .loopEnd ⟨path, .loopStart⟩ :: mark ⟨path, .loopExit⟩
          :: lower (0 :: path) b.next?
    | .awaiting sensor op value =>
      [mark ⟨path, .loopStart⟩, plain ⟨.pushSensor, [.byte sensor]⟩,
          plain ⟨.pushConst, [.word value]⟩, plain ⟨op.opcode, []⟩,
          jump .jumpIfFalse ⟨path, .loopExit⟩, jump .jump ⟨path, .loopStart⟩,
          mark ⟨path, .loopExit⟩]
        ++ lower (0 :: path) b.next?
    | .unknown => lower (0 :: path) b.next?
termination_by o => sizeOf o
decreasing_by
  all_goals first
    | exact sizeOf_next? b
    | exact sizeOf_input? b _
    | exact sizeOf_otherwise b

theorem valueCode_eq (o : Option Block) : valueCode o = (valueOf o).code := by
  induction o using chainInduction with
  | none =>
    rw [valueCode, valueOf, Expression.code, toWord_zero]
  | some b ih _ =>
    rw [valueCode, code_valueOf_some]
    cases b.valueForm with
    | negation => simp only [ih]
    | binary op => simp only [ih]
    | _ => rfl

open Generator Statement

/-- The symbolic code of an arm. -/
def armCode (b : Block) (path : List Nat) (i : Nat) : List Symbolic :=
  armSymbols path i (b.input? ("IF" ++ toString i))
    (lower ((i + 1) :: path) (b.input? ("DO" ++ toString i)))

theorem lower_conditional {b : Block} (h : b.statementForm = .conditional) (path : List Nat) :
    lower path (some b) = (List.range (b.shape.elseIfCount + 1)).flatMap (b.armCode path)
      ++ lower ((b.shape.elseIfCount + 2) :: path) b.otherwise
      ++ mark ⟨path, .conditionalEnd⟩ :: lower (0 :: path) b.next? := by
  rw [lower, h]
  rfl

theorem lower_counted {b : Block} {times : UInt16} {pause : Option UInt16}
    (h : b.statementForm = .counted times pause) (path : List Nat) :
    lower path (some b) =
      plain ⟨.repeatStart, [.count times]⟩ :: lower (1 :: path) (b.input? "DO")
        ++ (pauseInstructions pause).map plain
        ++ plain ⟨.repeatEnd, []⟩ :: lower (0 :: path) b.next? := by
  rw [lower, h]
  simp [pauseInstructions, Function.comp_def]

theorem lower_guarded {b : Block} {negated : Bool} (h : b.statementForm = .guarded negated)
    (path : List Nat) :
    lower path (some b) =
      mark ⟨path, .loopStart⟩ :: (conditionCode negated (valueOf (b.input? "BOOL"))).map plain
        ++ jump .jumpIfFalse ⟨path, .loopExit⟩ :: lower (1 :: path) (b.input? "DO")
        ++ jump .loopEnd ⟨path, .loopStart⟩ :: mark ⟨path, .loopExit⟩
          :: lower (0 :: path) b.next? := by
  rw [lower, h]
  cases negated <;> simp [conditionCode, valueCode_eq]

theorem lower_awaiting {b : Block} {sensor : UInt8} {op : Operator} {value : UInt16}
    (h : b.statementForm = .awaiting sensor op value) (path : List Nat) :
    lower path (some b) =
      mark ⟨path, .loopStart⟩ :: (guardInstructions sensor op value).map plain
        ++ jump .jumpIfFalse ⟨path, .loopExit⟩ :: jump .jump ⟨path, .loopStart⟩
          :: mark ⟨path, .loopExit⟩ :: lower (0 :: path) b.next? := by
  rw [lower, h]
  rfl

theorem totalSize_armCode {b : Block} (path indices : List Nat)
    (ih : ∀ name path, totalSize (lower path (b.input? name)) =
      chainSize (statementsOf (b.input? name))) :
    totalSize (indices.flatMap (b.armCode path)) = armsSize (indices.map b.armStatements) := by
  induction indices with
  | nil => simp [armsSize]
  | cons i indices ihi =>
    simp [ihi, armCode, armSymbols, ih, valueCode_eq, armStatements, armsSize, Symbolic.size,
      Nat.add_assoc]

/-- Lowering keeps sizes, so labels can be given their offsets before any address is known. -/
theorem totalSize_lower (o : Option Block) (path : List Nat) :
    totalSize (lower path o) = chainSize (statementsOf o) := by
  induction o using chainInduction generalizing path with
  | none => simp [lower, statementsOf, chainSize]
  | some b ih ihn =>
    have hl := congrArg codeSize (chainLayout_some b 0)
    rw [codeSize_chainLayout] at hl
    rw [hl]
    cases hf : b.statementForm with
    | simple code => simp [lower, hf, ihn]
    | conditional =>
      have ha := totalSize_armCode path (List.range (b.shape.elseIfCount + 1)) ih
      have ho := b.otherwise_of (P := fun o => ∀ path, totalSize (lower path o) =
        chainSize (statementsOf o)) (by simp [lower, statementsOf, chainSize]) ih
      simp [lower_conditional hf, ha, ho, ihn, arms_statements, Symbolic.size]
    | counted times pause =>
      simp [lower_counted hf, ih, ihn, Symbolic.size, Nat.add_assoc]
    | endless => simp [lower, hf, ih, Symbolic.size]
    | guarded negated => simp [lower_guarded hf, ih, ihn, Symbolic.size, Nat.add_assoc]
    | awaiting sensor op value =>
      simp [lower_awaiting hf, ihn, Symbolic.size, Nat.add_assoc]
    | unknown => simp [lower, hf, ihn]

section Resolve

variable {place : Label → Option Nat} (hplace : ∀ label n, place label = some n → n ≤ maxProgram)
include hplace

theorem resolve_armCode {b : Block} (path indices : List Nat)
    (ih : ∀ name path base, Agrees place base (lower path (b.input? name)) →
      resolveAll place (lower path (b.input? name)) =
        some (chainLayout (statementsOf (b.input? name)) base))
    {exit : Nat} (hexit : place ⟨path, .conditionalEnd⟩ = some exit) (base : Nat)
    (h : Agrees place base (indices.flatMap (b.armCode path))) :
    resolveAll place (indices.flatMap (b.armCode path)) =
      some (armsLayout (indices.map b.armStatements) base exit) := by
  induction indices generalizing base with
  | nil => simp [armsLayout]
  | cons i indices ihi =>
    simp only [List.flatMap_cons, armCode, armSymbols, valueCode_eq, List.append_assoc,
      List.cons_append, List.nil_append, agrees_append, agrees_map_plain, totalSize_plain,
      agrees_jump, size_jumpIfFalse, totalSize_lower, size_jump, agrees_mark, true_and] at h
    obtain ⟨hbody, hskip, hrest⟩ := h
    simp [-Nat.toString_eq_repr, armCode, armSymbols, valueCode_eq, ih _ _ _ hbody, ihi _ hrest,
      armsLayout, armStatements, resolveAll_jump hskip (hplace _ _ hskip),
      resolveAll_jump hexit (hplace _ _ hexit)]

/-- Putting offsets for labels in the lowered code of a chain gives its layout. -/
theorem resolve_lower (o : Option Block) (path : List Nat) (base : Nat)
    (h : Agrees place base (lower path o)) :
    resolveAll place (lower path o) = some (chainLayout (statementsOf o) base) := by
  induction o using chainInduction generalizing path base with
  | none => simp [lower, statementsOf, chainLayout]
  | some b ih ihn =>
    cases hf : b.statementForm with
    | simple code =>
      simp only [lower, hf, agrees_append, agrees_map_plain, totalSize_plain, true_and] at h
      simp [chainLayout_some, lower, hf, ihn _ _ h]
    | conditional =>
      have ho := b.otherwise_of (P := fun o => ∀ path base, Agrees place base (lower path o) →
        resolveAll place (lower path o) = some (chainLayout (statementsOf o) base))
        (by simp [lower, statementsOf, chainLayout]) ih
      have hsize := totalSize_armCode path (List.range (b.shape.elseIfCount + 1))
        fun name path => totalSize_lower (b.input? name) path
      simp only [lower_conditional hf, List.append_assoc, agrees_append, hsize, totalSize_lower,
        agrees_mark] at h
      obtain ⟨harms, hotherwise, hexit, hnext⟩ := h
      have ha := resolve_armCode hplace path _ ih hexit base harms
      simp [chainLayout_some, lower_conditional hf, hf, arms_statements, ha, ho _ _ hotherwise,
        ihn _ _ hnext]
    | counted times pause =>
      simp only [lower_counted hf, List.cons_append, List.append_assoc, agrees_plain, agrees_append,
        totalSize_lower, agrees_map_plain, totalSize_plain, true_and] at h
      obtain ⟨hbody, hnext⟩ := h
      simp [chainLayout_some, lower_counted hf, hf, ih _ _ _ hbody, ihn _ _ hnext]
    | endless =>
      simp only [lower, hf, List.cons_append, agrees_mark, agrees_append, agrees_jump, agrees_nil,
        and_true] at h
      obtain ⟨hstart, hbody⟩ := h
      simp [chainLayout_some, lower, hf, ih _ _ _ hbody, resolveAll_jump hstart (hplace _ _ hstart)]
    | guarded negated =>
      simp only [lower_guarded hf, List.cons_append, List.append_assoc, agrees_mark, agrees_append,
        agrees_map_plain, totalSize_plain, agrees_jump, size_jumpIfFalse, totalSize_lower,
        size_loopEnd, true_and] at h
      obtain ⟨hstart, hbody, hexit, hnext⟩ := h
      simp [chainLayout_some, lower_guarded hf, hf, ih _ _ _ hbody, ihn _ _ hnext,
        resolveAll_jump hstart (hplace _ _ hstart), resolveAll_jump hexit (hplace _ _ hexit)]
    | awaiting sensor op value =>
      simp only [lower_awaiting hf, List.cons_append, agrees_mark, agrees_append, agrees_map_plain,
        totalSize_plain, agrees_jump, size_jumpIfFalse, size_jump, true_and] at h
      obtain ⟨hstart, hexit, hnext⟩ := h
      simp [chainLayout_some, lower_awaiting hf, hf, ihn _ _ hnext,
        resolveAll_jump hstart (hplace _ _ hstart), resolveAll_jump hexit (hplace _ _ hexit)]
    | unknown =>
      simp only [lower, hf] at h
      simp [chainLayout_some, lower, hf, ihn _ _ h]

end Resolve

theorem suffix_step_inj {i j : Nat} {path q : List Nat} (hi : (i :: path) <:+ q)
    (hj : (j :: path) <:+ q) : i = j := by
  have h := List.suffix_of_suffix_length_le hi hj (by simp)
  exact (List.cons.inj (h.eq_of_length (by simp))).1

/-- All labels of some code belong to blocks one step `i` below a path. -/
def StepBelow (i : Nat) (path : List Nat) (code : List Symbolic) : Prop :=
  ∀ label ∈ labels code, (i :: path) <:+ label.path

theorem StepBelow.disjoint {i j : Nat} {path : List Nat} {c d : List Symbolic}
    (hc : StepBelow i path c) (hd : StepBelow j path d) (h : i ≠ j) :
    List.Disjoint (labels c) (labels d) :=
  fun label hlc hld => h (suffix_step_inj (hc label hlc) (hd label hld))

theorem StepBelow.notMem {i : Nat} {path : List Nat} {code : List Symbolic}
    (h : StepBelow i path code) (place : Place) : (⟨path, place⟩ : Label) ∉ labels code := by
  intro hm
  have := (h _ hm).length_le
  simp at this

theorem labels_flatMap {α : Type} (f : α → List Symbolic) (xs : List α) :
    labels (xs.flatMap f) = xs.flatMap fun x => labels (f x) := by
  induction xs with
  | nil => rfl
  | cons x xs ih => simp [ih]

/-- The labels of a chain, by the form of its first block. -/
theorem labels_lower_some (b : Block) (path : List Nat) :
    labels (lower path (some b)) = match b.statementForm with
      | .conditional =>
        (List.range (b.shape.elseIfCount + 1)).flatMap (fun i =>
            labels (lower ((i + 1) :: path) (b.input? ("DO" ++ toString i)))
              ++ [⟨path, .nextArm i⟩])
          ++ labels (lower ((b.shape.elseIfCount + 2) :: path) b.otherwise)
          ++ ⟨path, .conditionalEnd⟩ :: labels (lower (0 :: path) b.next?)
      | .counted _ _ =>
        labels (lower (1 :: path) (b.input? "DO")) ++ labels (lower (0 :: path) b.next?)
      | .endless => ⟨path, .loopStart⟩ :: labels (lower (1 :: path) (b.input? "DO"))
      | .guarded _ =>
        ⟨path, .loopStart⟩ :: labels (lower (1 :: path) (b.input? "DO"))
          ++ ⟨path, .loopExit⟩ :: labels (lower (0 :: path) b.next?)
      | .awaiting _ _ _ =>
        ⟨path, .loopStart⟩ :: ⟨path, .loopExit⟩ :: labels (lower (0 :: path) b.next?)
      | .simple _ | .unknown => labels (lower (0 :: path) b.next?) := by
  cases hf : b.statementForm with
  | conditional => simp [lower_conditional hf, labels_flatMap, armCode, armSymbols]
  | counted times pause => simp [lower_counted hf]
  | guarded negated => simp [lower_guarded hf]
  | awaiting sensor op value => simp [lower_awaiting hf]
  | simple _ | endless | unknown => simp [lower, hf]

/-- The labels of a chain belong to its blocks. -/
theorem path_suffix_of_mem (o : Option Block) (path : List Nat) :
    ∀ label ∈ labels (lower path o), path <:+ label.path := by
  induction o using chainInduction generalizing path with
  | none => simp [lower]
  | some b ih ihn =>
    have hnext : ∀ label ∈ labels (lower (0 :: path) b.next?), path <:+ label.path :=
      fun label hl => (List.suffix_cons 0 path).trans (ihn _ label hl)
    have hin : ∀ i name, ∀ label ∈ labels (lower (i :: path) (b.input? name)),
        path <:+ label.path :=
      fun i name label hl => (List.suffix_cons i path).trans (ih name _ label hl)
    have ho := b.otherwise_of (P := fun o => ∀ i, ∀ label ∈ labels (lower (i :: path) o),
      path <:+ label.path) (by simp [lower]) fun name i => hin i name
    rw [labels_lower_some]
    cases b.statementForm <;> simp only [List.cons_append, List.forall_mem_append,
      List.forall_mem_cons, List.forall_mem_flatMap]
    case conditional =>
      exact ⟨⟨fun i _ => ⟨hin _ _, List.suffix_refl _, by simp⟩, ho _⟩, List.suffix_refl _, hnext⟩
    case counted => exact ⟨hin _ _, hnext⟩
    case endless => exact ⟨List.suffix_refl _, hin _ _⟩
    case guarded => exact ⟨List.suffix_refl _, hin _ _, List.suffix_refl _, hnext⟩
    case awaiting => exact ⟨List.suffix_refl _, List.suffix_refl _, hnext⟩
    case simple | unknown => exact hnext

theorem stepBelow_lower (i : Nat) (path : List Nat) (o : Option Block) :
    StepBelow i path (lower (i :: path) o) := path_suffix_of_mem o (i :: path)

theorem nodup_labels_arms {b : Block} (path : List Nat) {indices : List Nat}
    (hindices : indices.Nodup)
    (ih : ∀ name path, (labels (lower path (b.input? name))).Nodup) :
    (indices.flatMap fun i => labels (lower ((i + 1) :: path) (b.input? ("DO" ++ toString i)))
      ++ [(⟨path, .nextArm i⟩ : Label)]).Nodup := by
  rw [List.nodup_flatMap]
  constructor
  · intro i _
    rw [List.nodup_append_comm, List.singleton_append, List.nodup_cons]
    exact ⟨(stepBelow_lower _ _ _).notMem _, ih _ _⟩
  · refine hindices.imp fun {i j} hij label hi hj => ?_
    rcases List.mem_append.mp hi with hi | hi <;> rcases List.mem_append.mp hj with hj | hj
    · exact (stepBelow_lower _ _ _).disjoint (stepBelow_lower _ _ _) (by omega) hi hj
    · rw [List.mem_singleton.mp hj] at hi
      exact (stepBelow_lower _ _ _).notMem _ hi
    · rw [List.mem_singleton.mp hi] at hj
      exact (stepBelow_lower _ _ _).notMem _ hj
    · rw [List.mem_singleton.mp hi] at hj
      simp [hij] at hj

/-- The labels of the arms are neither those of the branch behind them nor of the next block. -/
theorem disjoint_labels_arms {b : Block} (path : List Nat) {indices : List Nat} {k : Nat}
    (hindices : ∀ i ∈ indices, i + 1 ≠ k) {code : List Symbolic} (hcode : StepBelow k path code) :
    List.Disjoint (indices.flatMap fun i =>
      labels (lower ((i + 1) :: path) (b.input? ("DO" ++ toString i)))
        ++ [(⟨path, .nextArm i⟩ : Label)]) (labels code) := by
  intro label hl hr
  obtain ⟨i, hi, hl⟩ := List.mem_flatMap.mp hl
  rcases List.mem_append.mp hl with hl | hl
  · exact (stepBelow_lower _ _ _).disjoint hcode (hindices i hi) hl hr
  · rw [List.mem_singleton.mp hl] at hr
    exact hcode.notMem _ hr

theorem conditionalEnd_notMem_arms {b : Block} (path indices : List Nat) :
    (⟨path, .conditionalEnd⟩ : Label) ∉ indices.flatMap fun i =>
      labels (lower ((i + 1) :: path) (b.input? ("DO" ++ toString i)))
        ++ [(⟨path, .nextArm i⟩ : Label)] := by
  intro hl
  obtain ⟨i, hi, hl⟩ := List.mem_flatMap.mp hl
  rcases List.mem_append.mp hl with hl | hl
  · exact (stepBelow_lower _ _ _).notMem _ hl
  · simp at hl

/-- No label stands twice. -/
theorem nodup_labels_lower (o : Option Block) (path : List Nat) :
    (labels (lower path o)).Nodup := by
  induction o using chainInduction generalizing path with
  | none => simp [lower]
  | some b ih ihn =>
    have ho := b.otherwise_of (P := fun o => ∀ path, (labels (lower path o)).Nodup)
      (by simp [lower]) ih
    -- each part has a step of its own below the path of the block, which keeps the labels apart
    have hnext := stepBelow_lower 0 path b.next?
    have hbody := stepBelow_lower 1 path (b.input? "DO")
    rw [labels_lower_some]
    cases b.statementForm <;> simp only [List.cons_append]
    case conditional =>
      have hother := stepBelow_lower (b.shape.elseIfCount + 2) path b.otherwise
      have hrange : ∀ i ∈ List.range (b.shape.elseIfCount + 1),
          i + 1 ≠ b.shape.elseIfCount + 2 := by
        intro i hi
        have := List.mem_range.mp hi
        omega
      apply List.Nodup.append
      · exact (nodup_labels_arms path List.nodup_range ih).append (ho _)
          (disjoint_labels_arms path hrange hother)
      · exact List.nodup_cons.mpr ⟨hnext.notMem _, ihn _⟩
      · rw [List.disjoint_append_left, List.disjoint_cons_right, List.disjoint_cons_right]
        exact ⟨⟨conditionalEnd_notMem_arms path _, disjoint_labels_arms path (by simp) hnext⟩,
          hother.notMem _, hother.disjoint hnext (by omega)⟩
    case counted => exact (ih _ _).append (ihn _) (hbody.disjoint hnext (by omega))
    case endless => exact List.nodup_cons.mpr ⟨hbody.notMem _, ih _ _⟩
    case guarded =>
      rw [List.nodup_cons]
      constructor
      · simp [hbody.notMem, hnext.notMem]
      · apply (ih _ _).append (List.nodup_cons.mpr ⟨hnext.notMem _, ihn _⟩)
        exact List.disjoint_cons_right.mpr ⟨hbody.notMem _, hbody.disjoint hnext (by omega)⟩
    case awaiting => simp [hnext.notMem, ihn]
    case simple | unknown => exact ihn _

theorem armsClose_arm (path : List Nat) (index : Nat) (condition : Option Block)
    {body : List Symbolic} (h : ArmsClose body) :
    ArmsClose (armSymbols path index condition body) := by
  have hfront : ArmsClose ((valueCode condition).map plain
      ++ [jump .jumpIfFalse ⟨path, .nextArm index⟩]) := armsClose_of_labels (by simp)
  have hback : ArmsClose [jump .jump ⟨path, .conditionalEnd⟩, mark ⟨path, .nextArm index⟩] := by
    intro before other i after hb
    match before with
    | [] => simp at hb
    | [s] =>
      simp only [List.cons_append, List.nil_append, List.cons.injEq, mark.injEq, Label.mk.injEq]
        at hb
      obtain ⟨rfl, ⟨rfl, -⟩, -⟩ := hb
      exact ⟨[], rfl⟩
    | s :: t :: before => simp at hb
  have happ := (hfront.append h).append hback
  simpa [armSymbols] using happ

/-- Each arm is followed by its own end jump, whatever is nested inside. -/
theorem armsClose_lower (o : Option Block) (path : List Nat) : ArmsClose (lower path o) := by
  induction o using chainInduction generalizing path with
  | none => exact armsClose_of_labels (by simp [lower])
  | some b ih ihn =>
    have ho := b.otherwise_of (P := fun o => ∀ path, ArmsClose (lower path o))
      (fun _ => armsClose_of_labels (by simp [lower])) ih
    have hend (s : Symbolic) (hs : ∀ path index, s ≠ mark ⟨path, .nextArm index⟩) :
        ArmsClose (s :: lower (0 :: path) b.next?) := (ihn _).cons hs
    cases hf : b.statementForm with
    | simple code =>
      rw [lower, hf]
      exact (armsClose_plain code).append (ihn _)
    | conditional =>
      rw [lower_conditional hf]
      refine ((ArmsClose.flatMap _ fun i _ => ?_).append (ho _)).append (hend _ (by simp))
      exact armsClose_arm path i _ (ih _ _)
    | counted times pause =>
      rw [lower_counted hf]
      exact (((ih _ _).cons (by simp)).append (armsClose_plain _)).append (hend _ (by simp))
    | endless =>
      rw [lower, hf]
      exact ((ih _ _).cons (by simp)).append (armsClose_of_labels (by simp))
    | guarded negated =>
      rw [lower_guarded hf]
      have hfront := (armsClose_plain (conditionCode negated (valueOf (b.input? "BOOL")))).cons
        (s := mark ⟨path, .loopStart⟩) (by simp)
      have hback := (hend (mark ⟨path, .loopExit⟩) (by simp)).cons
        (s := jump .loopEnd ⟨path, .loopStart⟩) (by simp)
      exact (hfront.append ((ih _ _).cons (by simp))).append hback
    | awaiting sensor op value =>
      rw [lower, hf]
      exact (armsClose_of_labels (by simp)).append (ihn _)
    | unknown =>
      rw [lower, hf]
      exact ihn _

/-- Both passes over the code of a chain that is short enough. -/
theorem resolveAll_lower {o : Option Block} (h : totalSize (lower [] o) < maxProgram) :
    resolveAll (fun label => offsetOf? label (lower [] o)) (lower [] o) =
      some (chainLayout (statementsOf o) 0) := by
  refine resolve_lower (fun label n hn => ?_) o [] 0 (agrees_offsetOf? (nodup_labels_lower o []))
  exact (offsetOf?_le hn).trans h.le

end Block

open Symbolic

theorem Generator.generate_of_start {w : Workspace} {start : Block} (hs : w.start? = some start) :
    (Generator.new.generate w).1 =
      if totalSize (Block.lower [] start.next?) < maxProgram then
        .ok (codeBytes (Statement.chainLayout (Generator.statementsOf start.next?) 0)
          ++ [Opcode.halt.byte])
      else .error (.programTooLarge (totalSize (Block.lower [] start.next?) + 1)) := by
  have hlen := Statement.length_programCode (Block.readingNext start.next)
  rw [Block.readingNext_eq] at hlen
  rw [Generator.generate_new hs, Block.readingNext_eq, Block.totalSize_lower]
  simp only [hlen]
  split <;> split
  · omega
  · rfl
  · simp [Statement.programCode, Instruction.encode]
  · omega

/-- One-pass compilation with slots gives the two-pass assembly of the blocks behind the start block
and the end of the program, exactly if that is short enough. All addresses are then in place. -/
theorem generate_eq_assembly {w : Workspace} {start : Block} (hs : w.start? = some start)
    (program : List UInt8) :
    ((Generator.new.generate w).1 = .ok program ↔
      totalSize (Block.lower [] start.next?) < maxProgram ∧
        ∃ body, assemble (Block.lower [] start.next?) = some body ∧
          program = body ++ [Opcode.halt.byte]) ∧
    ((Generator.new.generate w).1 = .ok program →
      Placed (Block.lower [] start.next?) program) := by
  rw [Generator.generate_of_start hs]
  by_cases hlt : totalSize (Block.lower [] start.next?) < maxProgram
  · have hall := Block.resolveAll_lower hlt
    have hplaced := placed_of_resolveAll (Block.nodup_labels_lower start.next? [])
      (Block.armsClose_lower start.next? []) hlt hall
      fun i hi => (Statement.chainLayout_emittable _ 0 i hi).1
    simp only [assemble, hall, Option.map_some, hlt, if_true, true_and, Except.ok.injEq]
    constructor
    · constructor
      · rintro rfl
        exact ⟨_, rfl, rfl⟩
      · rintro ⟨body, hbody, rfl⟩
        cases hbody
        rfl
    · rintro rfl
      exact hplaced
  · simp [hlt]

/-- A conditional with a loop in its first arm and a conditional in its second. -/
def nestedStart : Block :=
  let loop := ((Block.bare "controls_whileUntil").withInput "BOOL"
    (.bare "logic_boolean")).withInput "DO" (.bare "robot_stop")
  let inner := (Block.bare "controls_if").withInput "DO0" (.bare "timer_reset")
  let outer := (((Block.bare "controls_if").withExtraState 1 true).withInput "DO0" loop).withInput
    "DO1" inner
  (Block.bare "start_hat").append (outer.withInput "ELSE" (.bare "robot_stop"))

def nestedProgram : List UInt8 :=
  [32, 0, 0, 17, 0, 18, 34, 0, 17, 0, 15, 6, 20, 0, 6, 16, 0, 38, 32, 0, 0, 17, 0, 37, 32, 0, 0, 17,
    0, 34, 36, 16, 0, 34, 16, 0, 38, 6, 255]

theorem generate_eq_assembly_nested :
    (Workspace.ofBlocks [nestedStart]).start? = some nestedStart ∧
      (∃ body, assemble (Block.lower [] nestedStart.next?) = some body ∧
        nestedProgram = body ++ [Opcode.halt.byte]) ∧
      Placed (Block.lower [] nestedStart.next?) nestedProgram := by
  have hs : (Workspace.ofBlocks [nestedStart]).start? = some nestedStart := rfl
  have hg : (Generator.new.generate (.ofBlocks [nestedStart])).1 = .ok nestedProgram := by
    decide +kernel
  obtain ⟨hiff, hplaced⟩ := generate_eq_assembly hs nestedProgram
  exact ⟨hs, (hiff.mp hg).2, hplaced hg⟩

end RobotBlocks
