import Mathlib
import RobotBlocks.Proofs.Reached

/-! Blocks that leave no trace in a program: unknown statements, and whatever stands behind an
endless loop. The diagnostics of a compilation are one for each unknown statement that is reached;
without these blocks the program is the same and nothing is reported. -/

namespace RobotBlocks

namespace Statement

def isUnknown : Statement → Bool
  | unknown _ => true
  | _ => false

mutual

/-- A statement without the unknown statements in its bodies. -/
def prune : Statement → Statement
  | choose arms otherwise => choose (pruneArms arms) (pruneChain otherwise)
  | repeatTimes times pause body => repeatTimes times pause (pruneChain body)
  | forever body => forever (pruneChain body)
  | loopWhile negated condition body => loopWhile negated condition (pruneChain body)
  | s => s

def pruneChain : List Statement → List Statement
  | [] => []
  | s :: rest => if s.isUnknown then pruneChain rest else prune s :: pruneChain rest

def pruneArms : List (Expression × List Statement) → List (Expression × List Statement)
  | [] => []
  | (condition, body) :: rest => (condition, pruneChain body) :: pruneArms rest

end

theorem prune_of_simple {s : Statement} (h : s.isSimple) : prune s = s := by
  cases s <;> simp_all [isSimple, prune]

theorem pruneArms_map (f : Nat → Expression × List Statement) (indices : List Nat) :
    pruneArms (indices.map f) = indices.map fun i => ((f i).1, pruneChain (f i).2) := by
  induction indices with
  | nil => rfl
  | cons i indices ih => simp [pruneArms, ih]

theorem layout_of_isUnknown {s : Statement} (h : s.isUnknown) (base : Nat) : layout s base = [] := by
  cases s <;> simp_all [isUnknown, layout, simpleCode]

theorem size_eq_of_layout {s t : Statement} (h : ∀ base, layout s base = layout t base) :
    size s = size t := by
  rw [← codeSize_layout s 0, h, codeSize_layout]

theorem chainSize_eq_of_layout {ss ts : List Statement}
    (h : ∀ base, chainLayout ss base = chainLayout ts base) : chainSize ss = chainSize ts := by
  rw [← codeSize_chainLayout ss 0, h, codeSize_chainLayout]

theorem armsSize_eq_of_layout {xs ys : List (Expression × List Statement)}
    (h : ∀ base exit, armsLayout xs base exit = armsLayout ys base exit) :
    armsSize xs = armsSize ys := by
  rw [← codeSize_armsLayout xs 0 0, h, codeSize_armsLayout]

/-- Unknown statements take no place, so that no address changes without them. -/
theorem prune_cases : InductionCases
    (fun s => ∀ base, layout (prune s) base = layout s base)
    (fun ss => ∀ base, chainLayout (pruneChain ss) base = chainLayout ss base)
    (fun arms => ∀ base exit, armsLayout (pruneArms arms) base exit = armsLayout arms base exit) where
  simple s hs base := by rw [prune_of_simple hs]
  waitUntil sensor op value base := rfl
  choose arms otherwise iha iho base := by
    simp only [prune, layout, iha, iho, armsSize_eq_of_layout iha, chainSize_eq_of_layout iho]
  repeatTimes times pause body ih base := by simp only [prune, layout, ih]
  forever body ih base := by simp only [prune, layout, ih]
  loopWhile negated condition body ih base := by
    simp only [prune, layout, ih, chainSize_eq_of_layout ih]
  nil base := rfl
  cons s rest ihs ihr base := by
    rw [pruneChain]
    by_cases hs : s.isUnknown
    · have hsize : size s = 0 := by
        rw [← codeSize_layout s 0, layout_of_isUnknown hs, codeSize_nil]
      rw [if_pos hs, ihr, chainLayout, layout_of_isUnknown hs, hsize, List.nil_append, Nat.add_zero]
    · rw [if_neg hs, chainLayout, chainLayout, ihs, ihr, size_eq_of_layout ihs]
  armsNil base exit := rfl
  armsCons condition body rest ihb ihr base exit := by
    simp only [pruneArms, armsLayout, ihb, ihr, chainSize_eq_of_layout ihb]

theorem programCode_pruneChain (ss : List Statement) :
    programCode (pruneChain ss) = programCode ss := by
  rw [programCode, programCode, prune_cases.chain ss 0]

end Statement

namespace Block

/-- Whether an input of a block of some kind takes a chain of statements. -/
def isBodySlot (kind name : String) : Bool :=
  match kind with
  | "controls_if" => name = "ELSE" || "DO".toList.isPrefixOf name.toList
  | "controls_repeat_ext" | "loop_repeat_pause" | "controls_forever" | "loop_forever"
  | "controls_whileUntil" => name = "DO"
  | _ => false

mutual

/-- The chain of a block without its unknown statements and without what stands behind an endless
loop, in all bodies as well. A connection is replaced by what is left of its target, since a shadow
must not come forth where a block is taken away. -/
def prune : Block → Option Block
  | ⟨kind, id, fields, inputs, next, extraState, legacy⟩ =>
    let rest := pruneNext next
    if kind ∈ statementKinds then
      some ⟨kind, id, fields, pruneInputs kind inputs,
        if kind ∈ endlessKinds then none else rest.map .to, extraState, legacy⟩
    else rest

def pruneNext : Option (Connection Block) → Option Block
  | none => none
  | some c => pruneTarget c

def pruneTarget : Connection Block → Option Block
  | ⟨some b, _⟩ => b.prune
  | ⟨none, some b⟩ => b.prune
  | ⟨none, none⟩ => none

def pruneInputs {low : Option String} (kind : String) :
    NameMap (Connection Block) low → NameMap (Connection Block) low
  | .nil => .nil
  | .cons name above c rest =>
    .cons name above (if isBodySlot kind name then ⟨pruneTarget c, none⟩ else c)
      (pruneInputs kind rest)

end

/-- A block that stays, with its bodies and what stands behind it pruned. -/
def trimmed (b : Block) : Block :=
  { b with
    inputs := pruneInputs b.kind b.inputs
    next := if b.kind ∈ endlessKinds then none else (pruneNext b.next).map .to }

def pruneChain (o : Option Block) : Option Block := o.bind prune

theorem pruneTarget_eq (c : Connection Block) : pruneTarget c = pruneChain c.target? := by
  obtain ⟨block, shadow⟩ := c
  cases block <;> cases shadow <;> simp [pruneTarget, pruneChain, Connection.target?]

theorem pruneNext_eq (b : Block) : pruneNext b.next = pruneChain b.next? := by
  unfold next?
  cases b.next with
  | none => rfl
  | some c => exact pruneTarget_eq c

theorem pruneChain_some (b : Block) :
    pruneChain (some b) = if b.kind ∈ statementKinds then some b.trimmed else pruneChain b.next? := by
  rw [← pruneNext_eq]
  obtain ⟨kind, id, fields, inputs, next, extraState, legacy⟩ := b
  show prune _ = _
  rw [prune]
  rfl

theorem trimmed_next? (b : Block) :
    b.trimmed.next? = if b.kind ∈ endlessKinds then none else pruneChain b.next? := by
  rw [← pruneNext_eq]
  unfold next? trimmed
  split
  · rfl
  · cases pruneNext b.next <;> rfl

theorem lookup_pruneInputs {low : Option String} (kind name : String)
    (inputs : NameMap (Connection Block) low) :
    (pruneInputs kind inputs).lookup name = (inputs.lookup name).map fun c =>
      if isBodySlot kind name then ⟨pruneTarget c, none⟩ else c := by
  induction inputs with
  | nil => rfl
  | cons other above c rest ih =>
    rw [pruneInputs, NameMap.lookup, NameMap.lookup, ih]
    by_cases hn : name = other
    · simp [hn]
    · simp [hn]

theorem trimmed_input? (b : Block) (name : String) :
    b.trimmed.input? name =
      if isBodySlot b.kind name then pruneChain (b.input? name) else b.input? name := by
  show ((pruneInputs b.kind b.inputs).lookup name).bind _ = _
  rw [lookup_pruneInputs, input?]
  cases b.inputs.lookup name with
  | none => simp [pruneChain]
  | some c =>
    by_cases hslot : isBodySlot b.kind name
    · simp [hslot, pruneTarget_eq, Connection.target?]
    · simp [hslot]

theorem isBodySlot_arm (i : Nat) : isBodySlot "controls_if" ("DO" ++ toString i) := by
  simp [isBodySlot, String.toList_append]

theorem isBodySlot_condition (i : Nat) :
    isBodySlot "controls_if" ("IF" ++ toString i) = false := by
  have helse : "IF" ++ toString i ≠ "ELSE" := by
    intro h
    have hlist := congrArg String.toList h
    simp [String.toList_append] at hlist
  have hdo : "DO".toList.isPrefixOf ("IF" ++ toString i).toList = false := by
    rw [String.toList_append]
    rfl
  simp only [isBodySlot, helse, hdo, decide_false, Bool.or_self]

/-- The bodies that are compiled are pruned. -/
theorem isBodySlot_of_mem {b : Block} {name : String} (h : name ∈ b.bodySlots) :
    isBodySlot b.kind name := by
  unfold bodySlots at h
  split at h
  case h_1 hk =>
    rw [hk]
    rcases List.mem_append.mp h with h | h
    · obtain ⟨i, -, rfl⟩ := List.mem_map.mp h
      exact isBodySlot_arm i
    · split at h <;> simp_all [isBodySlot]
  all_goals simp_all [isBodySlot]

theorem bodySlots_of_notMem {b : Block} (h : b.kind ∉ statementKinds) : b.bodySlots = [] := by
  unfold bodySlots
  split <;> simp_all [statementKinds]

theorem notMem_endlessKinds {b : Block} (h : b.kind ∉ statementKinds) : b.kind ∉ endlessKinds := by
  have hsub : endlessKinds ⊆ statementKinds := by decide
  exact fun he => h (hsub he)

/-- What is reached in a pruned chain: the blocks of known kinds that were reached before. -/
theorem reached_pruneChain (o : Option Block) :
    reached (pruneChain o) =
      ((reached o).filter (·.kind ∈ statementKinds)).map trimmed := by
  rw [← flatMap_singleton_if]
  apply eq_flatMap_reached (F := fun o => reached (pruneChain o))
  · rw [pruneChain, Option.bind_none, reached]
  · intro b
    rw [pruneChain_some]
    by_cases hk : b.kind ∈ statementKinds
    · have hslots : b.trimmed.bodySlots = b.bodySlots := rfl
      have hkind : b.trimmed.kind = b.kind := rfl
      have hbodies : (b.bodySlots.flatMap fun name => reached (b.trimmed.input? name)) =
          b.bodySlots.flatMap fun name => reached (pruneChain (b.input? name)) := by
        apply List.flatMap_congr
        intro name hname
        rw [trimmed_input?, if_pos (isBodySlot_of_mem hname)]
      rw [if_pos hk, if_pos hk, reached, hslots, hkind, hbodies, trimmed_next?]
      split <;> rfl
    · rw [if_neg hk, if_neg hk, bodySlots_of_notMem hk, if_neg (notMem_endlessKinds hk)]
      rfl

open Generator

theorem isUnknown_statement (b : Block) :
    b.opened.statement.isUnknown ↔ b.kind ∉ statementKinds := by
  unfold OpenBlock.statement
  rw [opened_kind]
  split <;> simp [Statement.isUnknown, statementKinds, *]
  case h_17 => and_intros <;> assumption

section Trimmed

variable {b : Block} {name : String}

theorem opened_number_trimmed (h : isBodySlot b.kind name = false) (default : Binary64) :
    b.trimmed.opened.number name default = b.opened.number name default := by
  rw [opened_number, opened_number, numberAt, trimmed_input?, h]
  rfl

theorem opened_value_trimmed (h : isBodySlot b.kind name = false) :
    b.trimmed.opened.value name = b.opened.value name := by
  rw [opened_value, opened_value, trimmed_input?, h]
  rfl

variable (ih : ∀ name, statementsOf (pruneChain (b.input? name)) =
  Statement.pruneChain (statementsOf (b.input? name)))
include ih

theorem opened_body_trimmed (h : isBodySlot b.kind name) :
    b.trimmed.opened.body name = Statement.pruneChain (b.opened.body name) := by
  rw [opened_body, opened_body, trimmed_input?, if_pos h, ih]

theorem opened_arms_trimmed (h : b.kind = "controls_if") :
    b.trimmed.opened.arms = Statement.pruneArms b.opened.arms := by
  have hvalue (i : Nat) : b.trimmed.opened.value ("IF" ++ toString i) =
      b.opened.value ("IF" ++ toString i) := by
    apply opened_value_trimmed
    rw [h]
    exact isBodySlot_condition i
  have hbody (i : Nat) : b.trimmed.opened.body ("DO" ++ toString i) =
      Statement.pruneChain (b.opened.body ("DO" ++ toString i)) := by
    apply opened_body_trimmed ih
    rw [h]
    exact isBodySlot_arm i
  have hs : b.trimmed.opened.shape = b.opened.shape := rfl
  simp only [OpenBlock.arms, Statement.pruneArms_map, hvalue, hbody, hs]

/-- A trimmed block is read as the pruned statement. -/
theorem statement_trimmed : b.trimmed.opened.statement = b.opened.statement.prune := by
  have hkind : b.trimmed.kind = b.kind := rfl
  have hs : b.trimmed.opened.shape = b.opened.shape := rfl
  have htext (name default : String) :
      b.trimmed.opened.text name default = b.opened.text name default := rfl
  have hid (name : String) (default : Int) :
      b.trimmed.opened.id name default = b.opened.id name default := rfl
  unfold OpenBlock.statement
  rw [opened_kind, opened_kind, hkind]
  split
  case h_11 hk =>
    rw [Statement.prune, opened_arms_trimmed ih hk, hs]
    split
    · rw [opened_body_trimmed ih (by rw [hk]; rfl)]
    · rfl
  all_goals simp_all [Statement.prune, isBodySlot, opened_number_trimmed, opened_value_trimmed,
    opened_body_trimmed ih]

end Trimmed

/-- Pruning blocks prunes the statements they are read as. -/
theorem statementsOf_pruneChain (o : Option Block) :
    statementsOf (pruneChain o) = Statement.pruneChain (statementsOf o) := by
  induction o using chainInduction with
  | none => rfl
  | some b ih ihn =>
    rw [pruneChain_some, statementsOf_cons b, Statement.pruneChain]
    by_cases hk : b.kind ∈ statementKinds
    · have hkind : b.trimmed.kind = b.kind := rfl
      have hknown : ¬ b.opened.statement.isUnknown := by
        rw [isUnknown_statement]
        exact fun h => h hk
      rw [if_pos hk, if_neg hknown, statementsOf_cons, statement_trimmed ih, hkind, trimmed_next?]
      split
      · rfl
      · rw [ihn]
    · rw [if_neg hk, if_pos (b.isUnknown_statement.mpr hk), if_neg (notMem_endlessKinds hk), ihn]

/-- Nothing is reported for a pruned chain. -/
theorem chainUnknowns_pruneChain (o : Option Block) :
    Statement.chainUnknowns (statementsOf (pruneChain o)) = [] := by
  rw [chainUnknowns_statementsOf, reached_pruneChain, List.map_eq_nil_iff, List.filter_eq_nil_iff]
  intro c hc
  obtain ⟨b, hb, rfl⟩ := List.mem_map.mp hc
  have hknown : b.kind ∈ statementKinds := by simpa using (List.mem_filter.mp hb).2
  have hkind : b.trimmed.kind = b.kind := rfl
  simp [hkind, hknown]

end Block

/-- Compilation of the statements behind a start block: their program and diagnostics, if that is
not too long. -/
theorem compile_of_start {w : Workspace} {start : Block} (hs : w.start? = some start)
    {ss : List Statement} (hss : Generator.statementsOf start.next? = ss) :
    compile w =
      if maxProgram < (codeBytes (Statement.programCode ss)).length then
        .error (.programTooLarge (codeBytes (Statement.programCode ss)).length)
      else .ok ⟨codeBytes (Statement.programCode ss),
        (Statement.chainUnknowns ss).map Diagnostic.mk, Block.nextKinds start.next⟩ := by
  have hdiagnostics : (Generator.new.generate w).2.diagnostics =
      (Statement.chainUnknowns ss).map Diagnostic.mk := by
    simp [Generator.generate, hs, Generator.addStatements, Generator.new, Block.readingNext_eq, hss]
  have hchain : (Generator.new.generate w).2.chain = Block.nextKinds start.next := by
    simp [Generator.generate, hs]
  have hresult := Generator.generate_new hs
  rw [Block.readingNext_eq, hss] at hresult
  simp only [compile, hdiagnostics, hchain, hresult]
  split <;> rfl

/-- The workspace with all its chains pruned. Blocks without a block before them stay. -/
def Workspace.pruned (w : Workspace) : Workspace := { w with blocks := w.blocks.map Block.trimmed }

theorem Workspace.find?_pruned (w : Workspace) (kind : String) :
    w.pruned.blocks.find? (·.kind = kind) = (w.blocks.find? (·.kind = kind)).map Block.trimmed := by
  rw [pruned, List.find?_map]
  rfl

/-- The diagnostics are those of the unknown statements that are reached, in source order. Without
them, and without what stands behind endless loops, the program is the same and has none. -/
theorem diagnostics_exact {w : Workspace} {out : CompileOutput} (h : compile w = .ok out) :
    ∃ start, w.blocks.find? (·.kind = startKind) = some start ∧
      out.diagnostics = ((Block.reached start.next?).filter (·.kind ∉ statementKinds)).map
        (fun b => ⟨b.kind⟩) ∧
      w.pruned.blocks.find? (·.kind = startKind) = some start.trimmed ∧
      Block.reached start.trimmed.next? =
        ((Block.reached start.next?).filter (·.kind ∈ statementKinds)).map Block.trimmed ∧
      ∃ pruned, compile w.pruned = .ok pruned ∧ pruned.program = out.program ∧
        pruned.diagnostics = [] := by
  cases hs : w.start? with
  | none => simp [compile, Generator.generate, hs, Except.map] at h
  | some start =>
    have hfind : w.blocks.find? (·.kind = startKind) = some start := by
      rw [← w.start?_eq_find?, hs]
    have hkind : start.kind = startKind := by simpa using List.find?_some hfind
    have hnext : start.trimmed.next? = Block.pruneChain start.next? := by
      rw [Block.trimmed_next?, hkind, if_neg (by decide)]
    have hfindPruned : w.pruned.blocks.find? (·.kind = startKind) = some start.trimmed := by
      rw [w.find?_pruned, hfind]
      rfl
    have hreached := Block.reached_pruneChain start.next?
    rw [compile_of_start hs rfl] at h
    split at h
    · cases h
    next hlen =>
      cases h
      refine ⟨start, hfind, ?_, hfindPruned, hnext ▸ hreached, ?_⟩
      · rw [Block.chainUnknowns_statementsOf, List.map_map]
        rfl
      · have hstatements : Generator.statementsOf start.trimmed.next? =
            Statement.pruneChain (Generator.statementsOf start.next?) := by
          rw [hnext, Block.statementsOf_pruneChain]
        have hcompile := compile_of_start (w.pruned.start?_eq_find?.trans hfindPruned) hstatements
        rw [Statement.programCode_pruneChain, if_neg hlen] at hcompile
        refine ⟨_, hcompile, rfl, ?_⟩
        show (Statement.chainUnknowns _).map Diagnostic.mk = []
        rw [← Block.statementsOf_pruneChain, Block.chainUnknowns_pruneChain, List.map_nil]

/-- An unknown block in an arm that ends with an endless loop, and more behind that loop. -/
def unknownStart : Block :=
  let loop := ((Block.bare "loop_forever").withInput "DO" (.bare "sing")).append (.bare "dance")
  let body := (Block.bare "say_hello").append loop
  let conditional := ((Block.bare "controls_if").withInput "IF0" (.bare "ask")).withInput "DO0" body
  let unread := conditional.withInput "ELSE" (.bare "wave")
  (Block.bare "start_hat").append (unread.append ((Block.bare "jump").append (.bare "robot_stop")))

def unknownOutput : CompileOutput :=
  ⟨[32, 0, 0, 17, 0, 12, 20, 0, 6, 16, 0, 12, 6, 255], [⟨"say_hello"⟩, ⟨"sing"⟩, ⟨"jump"⟩],
    ["controls_if", "jump", "robot_stop"]⟩

theorem diagnostics_exact_nested :
    compile (.ofBlocks [unknownStart]) = .ok unknownOutput ∧
      ∃ start, (Workspace.ofBlocks [unknownStart]).blocks.find? (·.kind = startKind) = some start ∧
        unknownOutput.diagnostics =
          ((Block.reached start.next?).filter (·.kind ∉ statementKinds)).map (fun b => ⟨b.kind⟩) ∧
        ∃ pruned, compile (Workspace.ofBlocks [unknownStart]).pruned = .ok pruned ∧
          pruned.program = unknownOutput.program ∧ pruned.diagnostics = [] := by
  have hcompile : compile (.ofBlocks [unknownStart]) = .ok unknownOutput := by decide +kernel
  obtain ⟨start, hfind, hdiagnostics, -, -, hpruned⟩ := diagnostics_exact hcompile
  exact ⟨hcompile, start, hfind, hdiagnostics, hpruned⟩

end RobotBlocks
