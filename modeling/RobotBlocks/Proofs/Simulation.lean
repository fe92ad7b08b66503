import Mathlib
import RobotBlocks.Proofs.Rounding
import RobotBlocks.Proofs.Source
import RobotBlocks.Proofs.Straight

/-! The meaning of blocks as a structured language, and the proof that the machine does what the
blocks mean when it runs the compiled program. -/

namespace RobotBlocks

variable {W V : Type*}

/-- How far a run of blocks came: to its end, or to the bound on the rounds of a loop. -/
inductive Progress (W : Type*) where
  | finished (scene : Scene W)
  | cut (scene : Scene W)

namespace Progress

def scene : Progress W → Scene W
  | finished s | cut s => s

/-- Goes on where a run has finished. -/
def andThen (p : Progress W) (f : Scene W → Progress W) : Progress W :=
  match p with
  | finished s => f s
  | cut s => cut s

end Progress

/-- Runs a body a number of times. -/
def repeated (body : Scene W → Progress W) : Nat → Scene W → Progress W
  | 0, s => .finished s
  | n + 1, s => (body s).andThen (repeated body n)

/-- Runs a body again and again, for a bounded number of rounds. -/
def forever (body : Scene W → Progress W) : Nat → Scene W → Progress W
  | 0, s => .cut s
  | n + 1, s => (body s).andThen (forever body n)

/-- Runs a body while a condition holds, for a bounded number of rounds. -/
def whileLoop (condition : Scene W → Bool × Scene W) (body : Scene W → Progress W) :
    Nat → Scene W → Progress W
  | 0, s => .cut s
  | n + 1, s =>
    if (condition s).1 then (body (condition s).2).andThen (whileLoop condition body n)
    else .finished (condition s).2

/-- Runs the body of the first arm whose condition holds. -/
def firstArm (otherwise : Scene W → Progress W) :
    List ((Scene W → Bool × Scene W) × (Scene W → Progress W)) → Scene W → Progress W
  | [], s => otherwise s
  | (condition, body) :: rest, s =>
    if (condition s).1 then body (condition s).2 else firstArm otherwise rest (condition s).2

namespace Block

/-- The value of a block. Both operands of an operator are always evaluated, the left one first. -/
def evaluate (d : Device W V) : Option Block → Scene W → V × Scene W
  | none => fun s => (d.word 0, s)
  | some b => match b.valueForm with
    | .constant x => fun s => (d.word x, s)
    | .boolean v => fun s => (d.flag v.toUInt8, s)
    | .sensor id => fun s => s.sense d id
    | .timer => fun s => (d.binary .divide (s.readTimer d).1 (d.word 1000), (s.readTimer d).2)
    | .negation => fun s =>
      let (v, s) := evaluate d (b.input? "BOOL") s
      (d.negate v, s)
    | .binary op => fun s =>
      let (l, s) := evaluate d (b.input? "A") s
      let (r, s) := evaluate d (b.input? "B") s
      (d.binary op l r, s)
termination_by o => sizeOf o
decreasing_by all_goals exact sizeOf_input? b _

/-- Whether a condition holds. -/
def holds (d : Device W V) (negated : Bool) (o : Option Block) (s : Scene W) : Bool × Scene W :=
  let (v, s) := evaluate d o s
  (d.truth (if negated then d.negate v else v), s)

/-- Runs a chain of blocks. Loops without a count take at most `rounds` rounds each. -/
def interpret (d : Device W V) (rounds : Nat) : Option Block → Scene W → Progress W
  | none => .finished
  | some b => match b.statementForm with
    | .simple effects => fun s => interpret d rounds b.next? (effects.foldl (Scene.perform d) s)
    | .conditional => fun s =>
      (firstArm (interpret d rounds b.otherwise)
          ((List.range (b.shape.elseIfCount + 1)).map fun i =>
            (holds d false (b.input? ("IF" ++ toString i)),
              interpret d rounds (b.input? ("DO" ++ toString i)))) s).andThen
        (interpret d rounds b.next?)
    | .counted times pause => fun s =>
      (repeated (fun s => (interpret d rounds (b.input? "DO") s).andThen fun s =>
          .finished ((pauseInstructions pause).foldl (Scene.perform d) s)) times.toNat s).andThen
        (interpret d rounds b.next?)
    | .endless => forever (interpret d rounds (b.input? "DO")) rounds
    | .guarded negated => fun s =>
      (whileLoop (holds d negated (b.input? "BOOL")) (interpret d rounds (b.input? "DO")) rounds
          s).andThen (interpret d rounds b.next?)
    | .awaiting sensor op value => fun s =>
      (whileLoop (fun s => let (v, s) := s.sense d sensor
          (!d.truth (d.binary op v (d.word value)), s)) .finished rounds s).andThen
        (interpret d rounds b.next?)
    | .unknown => interpret d rounds b.next?
termination_by o => sizeOf o
decreasing_by
  all_goals first
    | exact sizeOf_next? b
    | exact sizeOf_input? b _
    | exact sizeOf_otherwise b

/-- The condition and the body of an arm. -/
def armMeaning (d : Device W V) (rounds : Nat) (b : Block) (i : Nat) :
    (Scene W → Bool × Scene W) × (Scene W → Progress W) :=
  (holds d false (b.input? ("IF" ++ toString i)),
    interpret d rounds (b.input? ("DO" ++ toString i)))

/-- The instructions of a simple block act on the robot. -/
theorem isEffect_of_simple {b : Block} {effects : List Instruction}
    (h : b.statementForm = .simple effects) : ∀ i ∈ effects, i.opcode.isEffect := by
  unfold statementForm at h
  split at h <;> cases h <;> simp [turnCode, Opcode.isEffect]

theorem isEffect_pause (pause : Option UInt16) :
    ∀ i ∈ pauseInstructions pause, i.opcode.isEffect := by
  cases pause <;> simp [pauseInstructions, Opcode.isEffect]

theorem kind_of_awaiting {b : Block} {sensor : UInt8} {op : Operator} {value : UInt16}
    (h : b.statementForm = .awaiting sensor op value) : b.kind = "wait_until_sensor" := by
  unfold statementForm at h
  split at h <;> simp_all

/-- A counted loop runs at least once. -/
theorem toCount_pos (x : Binary64) : 0 < x.toCount.toNat := by
  have hle : x.roundWithin 0 65535 ≤ 65535 := (x.roundWithin_mem le_rfl (by decide)).2
  have hcount : x.toCount.toNat = (max 1 (x.roundWithin 0 65535)).toNat := by
    rw [x.toCount_eq]
    apply UInt16.toNat_ofNat_of_lt
    change _ < 65536
    omega
  omega

theorem counted_pos {b : Block} {times : UInt16} {pause : Option UInt16}
    (h : b.statementForm = .counted times pause) : 0 < times.toNat := by
  obtain ⟨x, hcount⟩ : ∃ x : Binary64, x.toCount = times := by
    unfold statementForm at h
    split at h <;> simp only [reduceCtorEq, StatementForm.counted.injEq] at h <;> exact ⟨_, h.1⟩
  rw [← hcount]
  exact toCount_pos x

end Block

open Machine Statement Generator

section Simulation

variable {d : Device W V} {full : List Instruction}

/-- From a machine the program does what a run of the blocks does: it comes to a place with given
stacks in the same scene, or it is still running in the same scene after at least so many steps. -/
def Arrives (d : Device W V) (full : List Instruction) (least : Nat) (m : Machine W V) (pc : Nat)
    (stack : List V) (loops : List (Nat × Nat)) : Progress W → Prop
  | .finished s => Reaches d (codeBytes full) 0 m ⟨pc, stack, loops, s⟩
  | .cut s => ∃ n, Reaches d (codeBytes full) least m n ∧ n.scene = s

variable {least : Nat} {m : Machine W V} {pc : Nat} {stack : List V} {loops : List (Nat × Nat)}

theorem Arrives.after {n : Machine W V} {i : Nat} {p : Progress W}
    (h : Reaches d (codeBytes full) i m n) (hp : Arrives d full least n pc stack loops p) :
    Arrives d full (i + least) m pc stack loops p := by
  cases p with
  | finished s => exact (h.trans hp).weaken (Nat.zero_le _)
  | cut s =>
    obtain ⟨o, ho, hs⟩ := hp
    exact ⟨o, h.trans ho, hs⟩

theorem Arrives.weaken {i : Nat} {p : Progress W} (hi : least ≤ i)
    (hp : Arrives d full i m pc stack loops p) : Arrives d full least m pc stack loops p := by
  cases p with
  | finished s => exact hp
  | cut s =>
    obtain ⟨n, hn, hs⟩ := hp
    exact ⟨n, hn.weaken hi, hs⟩

theorem Arrives.andThen {i : Nat} {p : Progress W} {f : Scene W → Progress W} {pc' : Nat}
    {stack' : List V} {loops' : List (Nat × Nat)} (hi : least ≤ i)
    (hp : Arrives d full i m pc stack loops p)
    (hf : ∀ s, Arrives d full least ⟨pc, stack, loops, s⟩ pc' stack' loops' (f s)) :
    Arrives d full least m pc' stack' loops' (p.andThen f) := by
  cases p with
  | finished s =>
    have h := Arrives.after hp (hf s)
    rwa [Nat.zero_add] at h
  | cut s =>
    obtain ⟨n, hn, hs⟩ := hp
    exact ⟨n, hn.weaken hi, hs⟩

/-- More steps at the end that change nothing but the place and the stacks. -/
theorem Arrives.goto {i : Nat} {p : Progress W} {pc' : Nat} {stack' : List V}
    {loops' : List (Nat × Nat)} (hp : Arrives d full least m pc stack loops p)
    (h : ∀ s, Reaches d (codeBytes full) i ⟨pc, stack, loops, s⟩ ⟨pc', stack', loops', s⟩) :
    Arrives d full least m pc' stack' loops' p := by
  cases p with
  | finished s => exact (hp.trans (h s)).weaken (Nat.zero_le _)
  | cut s => exact hp

/-- A round of a loop whose body ends with a jump back. The jump is a step, so the machine takes at
least as many steps as rounds. -/
theorem Arrives.nextRound {n rounds start back : Nat} {p : Progress W} {f : Scene W → Progress W}
    (hn : n + 1 ≤ rounds) (hbody : Arrives d full rounds m back stack loops p)
    (hback : ∀ s, Reaches d (codeBytes full) 1 ⟨back, stack, loops, s⟩ ⟨start, stack, loops, s⟩)
    (hloop : ∀ s, Arrives d full n ⟨start, stack, loops, s⟩ pc stack loops (f s)) :
    Arrives d full (n + 1) m pc stack loops (p.andThen f) := by
  apply hbody.andThen hn
  intro s
  have h := Arrives.after (hback s) (hloop s)
  rwa [Nat.add_comm] at h

theorem arrives_forever {body : Scene W → Progress W} {rounds start back : Nat}
    (hbody : ∀ s, Arrives d full rounds ⟨start, stack, loops, s⟩ back stack loops (body s))
    (hback : ∀ s, Reaches d (codeBytes full) 1 ⟨back, stack, loops, s⟩ ⟨start, stack, loops, s⟩)
    {n : Nat} (hn : n ≤ rounds) (s : Scene W) :
    Arrives d full n ⟨start, stack, loops, s⟩ pc stack loops (forever body n s) := by
  induction n generalizing s with
  | zero => exact ⟨_, Reaches.refl _, rfl⟩
  | succ n ih => exact (hbody s).nextRound hn hback (ih (Nat.le_of_succ_le hn))

/-- The rounds of a loop that tests its condition first. -/
theorem arrives_whileLoop {condition : Scene W → Bool × Scene W} {body : Scene W → Progress W}
    {rounds start inner back : Nat}
    (htest : ∀ s, Reaches d (codeBytes full) 1 ⟨start, stack, loops, s⟩
      ⟨if (condition s).1 then inner else pc, stack, loops, (condition s).2⟩)
    (hbody : ∀ s, Arrives d full rounds ⟨inner, stack, loops, s⟩ back stack loops (body s))
    (hback : ∀ s, Reaches d (codeBytes full) 1 ⟨back, stack, loops, s⟩ ⟨start, stack, loops, s⟩)
    {n : Nat} (hn : n ≤ rounds) (s : Scene W) :
    Arrives d full n ⟨start, stack, loops, s⟩ pc stack loops (whileLoop condition body n s) := by
  induction n generalizing s with
  | zero => exact ⟨_, Reaches.refl _, rfl⟩
  | succ n ih =>
    have ht := htest s
    rw [whileLoop]
    cases hc : (condition s).1 with
    | false =>
      rw [hc] at ht
      exact ht.weaken (Nat.zero_le _)
    | true =>
      rw [hc] at ht
      have hround := (hbody (condition s).2).nextRound hn hback (ih (Nat.le_of_succ_le hn))
      exact (Arrives.after ht hround).weaken (Nat.le_add_left _ _)

/-- The rounds of a counted loop, which keeps its place and its count on top of the other loops. -/
theorem arrives_repeated {body : Scene W → Progress W} {start back : Nat}
    (hbody : ∀ n s, Arrives d full least ⟨start, stack, (start, n) :: loops, s⟩ back stack
      ((start, n) :: loops) (body s))
    (hagain : ∀ n s, Reaches d (codeBytes full) 1 ⟨back, stack, (start, n + 2) :: loops, s⟩
      ⟨start, stack, (start, n + 1) :: loops, s⟩)
    (hdone : ∀ s, Reaches d (codeBytes full) 1 ⟨back, stack, (start, 1) :: loops, s⟩
      ⟨pc, stack, loops, s⟩) (n : Nat) (s : Scene W) :
    Arrives d full least ⟨start, stack, (start, n + 1) :: loops, s⟩ pc stack loops
      (repeated body (n + 1) s) := by
  induction n generalizing s with
  | zero => exact (hbody 1 s).andThen le_rfl fun s' => (hdone s').weaken (Nat.zero_le _)
  | succ n ih =>
    apply (hbody (n + 2) s).andThen le_rfl
    intro s'
    exact (Arrives.after (hagain n s') (ih s')).weaken (Nat.le_add_left _ _)

/-- From its address on, the code of a chain does what the chain means. -/
def Follows (d : Device W V) (full : List Instruction) (rounds : Nat) (o : Option Block) : Prop :=
  ∀ pc stack loops s, CodeAt full pc (chainLayout (statementsOf o) pc) →
    Arrives d full rounds ⟨pc, stack, loops, s⟩ (pc + chainSize (statementsOf o)) stack loops
      (Block.interpret d rounds o s)

theorem follows_none {rounds : Nat} : Follows d full rounds none := by
  intro pc stack loops s h
  rw [Block.interpret]
  exact Reaches.refl _

/-- The code of a value pushes it and leaves the stack below alone, wherever its bytes stand. -/
theorem straight_value {program : List UInt8} (o : Option Block)
    (h : BytesAt program pc (Block.valueOf o).code) (stack : List V) (loops : List (Nat × Nat))
    (s : Scene W) :
    Straight d program stack (Block.valueOf o).code ⟨pc, stack, loops, s⟩
      ⟨pc + codeSize (Block.valueOf o).code, (Block.evaluate d o s).1 :: stack, loops,
        (Block.evaluate d o s).2⟩ := by
  induction o using Block.chainInduction generalizing pc stack s with
  | none =>
    have hcode : (Block.valueOf none).code = [⟨.pushConst, [.word 0]⟩] := by
      rw [Block.valueOf, Expression.code, Block.toWord_zero]
    rw [hcode] at h ⊢
    rw [Block.evaluate]
    exact .single h rfl [] le_rfl rfl
  | some b ih _ =>
    rw [Block.code_valueOf_some] at h ⊢
    rw [Block.evaluate]
    generalize b.valueForm = form at h ⊢
    cases form with
    | constant x => exact .single h rfl [] le_rfl rfl
    | boolean v => exact .single h rfl [] le_rfl rfl
    | sensor id => exact .single h rfl [] le_rfl rfl
    | timer =>
      have hunits : BytesAt program (pc + 1)
          [⟨.pushConst, [.word ticksPerSecond]⟩, ⟨.divide, []⟩] :=
        BytesAt.right (c := [⟨.pushTimer, []⟩]) (by decide) h
      have htimer : Straight d program stack [⟨.pushTimer, []⟩] ⟨pc, stack, loops, s⟩
          ⟨pc + 1, (s.readTimer d).1 :: stack, loops, (s.readTimer d).2⟩ :=
        .single (h.left (c := [_])) rfl [] le_rfl rfl
      have hunit : Straight d program ((s.readTimer d).1 :: stack)
          [⟨.pushConst, [.word ticksPerSecond]⟩]
          ⟨pc + 1, (s.readTimer d).1 :: stack, loops, (s.readTimer d).2⟩
          ⟨pc + 4, d.word ticksPerSecond :: (s.readTimer d).1 :: stack, loops,
            (s.readTimer d).2⟩ :=
        .single (hunits.left (c := [_])) rfl [] le_rfl rfl
      have hdivide := straight_operator (d := d) stack loops
        (s.readTimer d).2 (show BytesAt program (pc + 4) [⟨Operator.divide.opcode, []⟩] from
          hunits.right (c := [_]) (by decide)) (s.readTimer d).1 (d.word ticksPerSecond)
      exact htimer.trans ((hunit.lower).trans hdivide)
    | negation =>
      have hvalue := ih "BOOL" h.left stack s
      have hnot := straight_not (d := d) stack loops
        (Block.evaluate d (b.input? "BOOL") s).2 (h.right (Expression.code_wellFormed _))
        (Block.evaluate d (b.input? "BOOL") s).1
      rw [codeSize_append, ← Nat.add_assoc]
      exact hvalue.trans hnot
    | binary op =>
      -- the right operand finds the value of the left one below it
      have hwell (name : String) : ∀ i ∈ (Block.valueOf (b.input? name)).code, i.WellFormed :=
        Expression.code_wellFormed _
      have hoperands := h.left
      have hleft := ih "A" hoperands.left stack s
      have hright := ih "B" (hoperands.right (hwell "A"))
        ((Block.evaluate d (b.input? "A") s).1 :: stack) (Block.evaluate d (b.input? "A") s).2
      have hcode := h.right (List.forall_mem_append.mpr ⟨hwell "A", hwell "B"⟩)
      rw [codeSize_append, ← Nat.add_assoc] at hcode
      have hoperator := straight_operator (d := d) stack loops
        (Block.evaluate d (b.input? "B") (Block.evaluate d (b.input? "A") s).2).2 hcode
        (Block.evaluate d (b.input? "A") s).1
        (Block.evaluate d (b.input? "B") (Block.evaluate d (b.input? "A") s).2).1
      rw [codeSize_append, codeSize_append, ← Nat.add_assoc, ← Nat.add_assoc]
      exact (hleft.trans (hright.lower)).trans hoperator

variable (hfull : ∀ i ∈ full, i.WellFormed)
include hfull

theorem reaches_value (o : Option Block) (h : CodeAt full pc (Block.valueOf o).code)
    (stack : List V) (loops : List (Nat × Nat)) (s : Scene W) :
    Reaches d (codeBytes full) 0 ⟨pc, stack, loops, s⟩
      ⟨pc + codeSize (Block.valueOf o).code, (Block.evaluate d o s).1 :: stack, loops,
        (Block.evaluate d o s).2⟩ :=
  (straight_value o (h.bytesAt hfull) stack loops s).reaches

theorem reaches_condition (negated : Bool) (o : Option Block)
    (h : CodeAt full pc (conditionCode negated (Block.valueOf o))) (stack : List V)
    (loops : List (Nat × Nat)) (s : Scene W) :
    Reaches d (codeBytes full) 0 ⟨pc, stack, loops, s⟩
      ⟨pc + codeSize (conditionCode negated (Block.valueOf o)),
        (if negated then d.negate (Block.evaluate d o s).1 else (Block.evaluate d o s).1) :: stack,
        loops, (Block.evaluate d o s).2⟩ := by
  have hvalue := reaches_value (d := d) hfull o h.left stack loops s
  cases negated with
  | false => simpa [conditionCode] using hvalue
  | true =>
    have hnot := reaches_not (d := d) hfull stack loops (Block.evaluate d o s).2 h.right
      (Block.evaluate d o s).1
    simpa [conditionCode, Nat.add_assoc] using (hvalue.trans hnot).weaken (Nat.zero_le _)

/-- A condition is tested by its code and a conditional jump. -/
theorem reaches_test (negated : Bool) (o : Option Block) {a : Nat} (ha : a ≤ maxProgram)
    (h : CodeAt full pc (conditionCode negated (Block.valueOf o)))
    (hjump : CodeAt full (pc + codeSize (conditionCode negated (Block.valueOf o)))
      [jumpTo .jumpIfFalse a]) (stack : List V) (loops : List (Nat × Nat)) (s : Scene W) :
    Reaches d (codeBytes full) 1 ⟨pc, stack, loops, s⟩
      ⟨if (Block.holds d negated o s).1 then
          pc + codeSize (conditionCode negated (Block.valueOf o)) + jumpSize else a,
        stack, loops, (Block.holds d negated o s).2⟩ := by
  have hcondition := reaches_condition (d := d) hfull negated o h stack loops s
  have hbranch := reaches_jumpIfFalse (d := d) hfull stack loops (Block.evaluate d o s).2 ha hjump
    (if negated then d.negate (Block.evaluate d o s).1 else (Block.evaluate d o s).1)
  have hall := hcondition.trans hbranch
  rwa [Nat.zero_add] at hall

variable {rounds : Nat}

theorem follows_simple {b : Block} {effects : List Instruction}
    (hf : b.statementForm = .simple effects) (hnext : Follows d full rounds b.next?) :
    Follows d full rounds (some b) := by
  intro pc stack loops s h
  rw [← codeSize_chainLayout _ pc]
  simp only [Block.chainLayout_some, hf, codeSize_append, codeSize_chainLayout] at h ⊢
  rw [Block.interpret, hf, ← Nat.add_assoc]
  have heffects := reaches_effects (d := d) hfull stack loops s (Block.isEffect_of_simple hf) h.left
  have hrest := hnext _ stack loops (effects.foldl (Scene.perform d) s) h.right
  exact (Arrives.after heffects hrest).weaken (Nat.le_add_left _ _)

theorem follows_counted {b : Block} {times : UInt16} {pause : Option UInt16}
    (hf : b.statementForm = .counted times pause)
    (hbody : ∀ name, Follows d full rounds (b.input? name))
    (hnext : Follows d full rounds b.next?) : Follows d full rounds (some b) := by
  intro pc stack loops s h
  rw [← codeSize_chainLayout _ pc]
  simp only [Block.chainLayout_some, hf, codeSize_append, codeSize_cons, codeSize_chainLayout,
    codeSize_nil, Nat.add_zero, ← Nat.add_assoc] at h ⊢
  rw [Block.interpret, hf]
  have hstart := h.left.left.left.head
  have hbodyCode := h.left.left.left.tail
  have hpause := h.left.left.right
  have hend := h.left.right
  have hrest := h.right
  simp only [codeSize_append, codeSize_cons, codeSize_chainLayout, codeSize_nil, Nat.add_zero,
    ← Nat.add_assoc] at hpause hend hrest
  set start := pc + Opcode.repeatStart.size
  have hround (n : Nat) (s : Scene W) : Arrives d full rounds
      ⟨start, stack, (start, n) :: loops, s⟩ (start + chainSize (statementsOf (b.input? "DO"))
        + codeSize (Block.pauseInstructions pause)) stack ((start, n) :: loops)
      ((Block.interpret d rounds (b.input? "DO") s).andThen fun s =>
        .finished ((Block.pauseInstructions pause).foldl (Scene.perform d) s)) := by
    apply (hbody "DO" start stack ((start, n) :: loops) s hbodyCode).andThen le_rfl
    intro s'
    exact reaches_effects hfull stack _ s' (Block.isEffect_pause pause) hpause
  -- the machine tests the count behind the body, so a count of zero would not be skipped
  obtain ⟨n, hn⟩ := Nat.exists_eq_add_one_of_ne_zero (Block.counted_pos hf).ne'
  have hloop := arrives_repeated hround (fun n s => reaches_repeatAgain hfull stack loops s hend)
    (fun s => reaches_repeatDone hfull stack loops s hend) n s
  have hall := Arrives.after (reaches_repeatStart hfull stack loops s hstart) (hn ▸ hloop)
  exact hall.andThen (Nat.le_add_left _ _) fun s' => hnext _ stack loops s' hrest

variable (hsize : codeSize full ≤ maxProgram)
include hsize

/-- The arms of a conditional, for any list of arms of a block. -/
theorem arrives_firstArm {b : Block} (hbody : ∀ name, Follows d full rounds (b.input? name))
    {exit : Nat} (hexit : exit ≤ maxProgram) {otherwise : Scene W → Progress W} (indices : List Nat)
    {pc : Nat} (h : CodeAt full pc (armsLayout (indices.map b.armStatements) pc exit))
    (hotherwise : ∀ s, Arrives d full rounds
      ⟨pc + armsSize (indices.map b.armStatements), stack, loops, s⟩ exit stack loops (otherwise s))
    (s : Scene W) :
    Arrives d full rounds ⟨pc, stack, loops, s⟩ exit stack loops
      (firstArm otherwise (indices.map (b.armMeaning d rounds)) s) := by
  induction indices generalizing pc s with
  | nil => exact hotherwise s
  | cons i indices ih =>
    simp only [List.map_cons, Block.armStatements, Block.armMeaning, armsLayout, armsSize,
      List.append_assoc, List.cons_append, firstArm] at h hotherwise ⊢
    set condition := b.input? ("IF" ++ toString i)
    set body := b.input? ("DO" ++ toString i)
    set start := pc + codeSize (Block.valueOf condition).code + jumpSize with hstart
    have hbodyCode := h.right.tail.left
    have hend := h.right.tail.right.head
    have hrest := h.right.tail.right.tail
    simp only [opcode_jumpTo, size_jumpIfFalse, size_jump, codeSize_chainLayout, ← hstart]
      at hbodyCode hend hrest
    have hnext := (Nat.le_add_right _ _).trans (hrest.le.trans hsize)
    have htest := reaches_test (d := d) hfull false condition hnext
      (by simpa using h.left) (by simpa using h.right.head) stack loops s
    rw [conditionCode_false, ← hstart] at htest
    cases hc : (Block.holds d false condition s).1 with
    | false =>
      rw [hc] at htest
      have hlater := ih hrest (by simpa [hstart, Nat.add_assoc] using hotherwise)
        (Block.holds d false condition s).2
      exact (Arrives.after htest hlater).weaken (Nat.le_add_left _ _)
    | true =>
      rw [hc] at htest
      have harm := (hbody ("DO" ++ toString i) start stack loops (Block.holds d false condition s).2
        hbodyCode).goto fun s' => reaches_jump hfull stack loops s' (.inl rfl) hexit hend
      exact (Arrives.after htest harm).weaken (Nat.le_add_left _ _)

theorem follows_endless {b : Block} (hf : b.statementForm = .endless)
    (hbody : ∀ name, Follows d full rounds (b.input? name)) : Follows d full rounds (some b) := by
  intro pc stack loops s h
  simp only [Block.chainLayout_some, hf] at h
  rw [Block.interpret, hf]
  have hle := h.le
  have hback := h.right
  rw [codeSize_chainLayout] at hback
  apply arrives_forever (fun s => hbody "DO" pc stack loops s h.left) _ le_rfl s
  intro s
  exact reaches_jump hfull stack loops s (.inr rfl) (by omega) hback

theorem follows_guarded {b : Block} {negated : Bool} (hf : b.statementForm = .guarded negated)
    (hbody : ∀ name, Follows d full rounds (b.input? name))
    (hnext : Follows d full rounds b.next?) : Follows d full rounds (some b) := by
  intro pc stack loops s h
  rw [← codeSize_chainLayout _ pc]
  simp only [Block.chainLayout_some, hf, codeSize_append, codeSize_cons, codeSize_chainLayout,
    opcode_jumpTo, size_jumpIfFalse, size_loopEnd, codeSize_nil, Nat.add_zero, ← Nat.add_assoc]
    at h ⊢
  rw [Block.interpret, hf]
  set inner := pc + codeSize (conditionCode negated (Block.valueOf (b.input? "BOOL"))) + jumpSize
    with hinner
  have hcondition := h.left.left.left
  have hjump := h.left.left.right.head
  have hbodyCode := h.left.left.right.tail
  have hback := h.left.right
  have hrest := h.right
  simp only [codeSize_append, codeSize_cons, codeSize_chainLayout, opcode_jumpTo, size_jumpIfFalse,
    size_loopEnd, codeSize_nil, Nat.add_zero, ← Nat.add_assoc, ← hinner] at hbodyCode hback hrest
  have hle := hrest.le
  have htest (s : Scene W) := reaches_test (d := d) hfull negated (b.input? "BOOL") (by omega)
    hcondition hjump stack loops s
  have hloop := arrives_whileLoop htest (fun s => hbody "DO" inner stack loops s hbodyCode)
    (fun s => reaches_jump hfull stack loops s (.inr rfl) (by omega) hback) le_rfl s
  exact hloop.andThen le_rfl fun s' => hnext _ stack loops s' hrest

theorem follows_conditional {b : Block} (hf : b.statementForm = .conditional)
    (hbody : ∀ name, Follows d full rounds (b.input? name))
    (hotherwise : Follows d full rounds b.otherwise)
    (hnext : Follows d full rounds b.next?) : Follows d full rounds (some b) := by
  intro pc stack loops s h
  rw [← codeSize_chainLayout _ pc]
  simp only [Block.chainLayout_some, hf, Block.arms_statements, codeSize_append,
    codeSize_chainLayout, codeSize_armsLayout, ← Nat.add_assoc] at h ⊢
  rw [Block.interpret, hf]
  have hother := h.left.right
  have hrest := h.right
  simp only [codeSize_append, codeSize_chainLayout, codeSize_armsLayout, ← Nat.add_assoc]
    at hother hrest
  have hle := hrest.le
  have harms := arrives_firstArm hfull hsize hbody (by omega) _ h.left.left
    (fun s => hotherwise _ stack loops s hother) s
  exact harms.andThen le_rfl fun s' => hnext _ stack loops s' hrest

/-- The code of every chain without waits does what the chain means. -/
theorem follows_chain (o : Option Block) (hfree : Block.Free "wait_until_sensor" o) :
    Follows d full rounds o := by
  induction o using Block.chainInduction with
  | none => exact follows_none
  | some b ih ihn =>
    obtain ⟨hkind, hinputs, hfreeNext⟩ := hfree.parts
    have hbody (name : String) : Follows d full rounds (b.input? name) := ih name (hinputs name)
    have hnext : Follows d full rounds b.next? := ihn hfreeNext
    cases hf : b.statementForm with
    | simple effects => exact follows_simple hfull hf hnext
    | conditional =>
      exact follows_conditional hfull hsize hf hbody (b.otherwise_of follows_none hbody) hnext
    | counted times pause => exact follows_counted hfull hf hbody hnext
    | endless => exact follows_endless hfull hsize hf hbody
    | guarded negated => exact follows_guarded hfull hsize hf hbody hnext
    | awaiting sensor op value => exact absurd (Block.kind_of_awaiting hf) hkind
    | unknown =>
      intro pc stack loops s h
      rw [← codeSize_chainLayout _ pc]
      simp only [Block.chainLayout_some, hf, codeSize_chainLayout] at h ⊢
      rw [Block.interpret, hf]
      exact hnext pc stack loops s h

end Simulation

/-- A run of blocks and a run of the machine that have come to the same point. -/
def SamePoint : Progress W → Machine.Status W V → Prop
  | .finished s, .halted s' => s' = s
  | .cut s, .running m => m.scene = s
  | _, _ => False

/-- A run of the machine that has done nothing but the first part of a run of blocks, and all of it
if the machine has halted. -/
def PartOf : Machine.Status W V → Progress W → Prop
  | .running m, p => m.scene.events <+: p.scene.events
  | .halted s, p => p = .finished s
  | .stuck _, _ => False

/-- A program that comes to its last instruction halts there. -/
theorem run_halt {d : Device W V} {full before : List Instruction}
    (hfull : ∀ i ∈ full, i.WellFormed) (h : full = before ++ [⟨.halt, []⟩]) {k : Nat}
    {m : Machine W V} {stack : List V} {loops : List (Nat × Nat)} {s : Scene W}
    (hrun : run d (codeBytes full) k m = .running ⟨codeSize before, stack, loops, s⟩) :
    run d (codeBytes full) (k + 1) m = .halted s := by
  have hcode : CodeAt full (codeSize before) [⟨.halt, []⟩] := ⟨before, [], by simp [h], rfl⟩
  have hstep := CodeAt.step (m := ⟨codeSize before, stack, loops, s⟩) hfull hcode d
  rw [run_add, hrun]
  simp only [run, hstep, execute]

section Halting

variable {d : Device W V} {full before : List Instruction} {rounds : Nat} {m : Machine W V}
  {stack : List V} {loops : List (Nat × Nat)} {p : Progress W}
  (hfull : ∀ i ∈ full, i.WellFormed) (h : full = before ++ [⟨.halt, []⟩])
  (hp : Arrives d full rounds m (codeSize before) stack loops p)
include hfull h hp

theorem samePoint_of_arrives : ∃ steps, SamePoint p (run d (codeBytes full) steps m) := by
  cases p with
  | finished s =>
    obtain ⟨k, -, hk⟩ := hp
    exact ⟨k + 1, by rw [run_halt hfull h hk]; rfl⟩
  | cut s =>
    obtain ⟨n, ⟨k, -, hk⟩, hs⟩ := hp
    exact ⟨k, by rw [hk]; exact hs⟩

theorem partOf_of_arrives {steps : Nat} (hsteps : steps ≤ rounds) :
    PartOf (run d (codeBytes full) steps m) p := by
  cases p with
  | finished s =>
    obtain ⟨k, -, hk⟩ := hp
    by_cases hle : steps ≤ k
    · obtain ⟨o, ho, hevents⟩ := running_of_le hle hk
      rw [ho]
      exact hevents
    · -- the machine has halted by then
      obtain ⟨i, rfl⟩ := Nat.exists_eq_add_of_le (show k + 1 ≤ steps by omega)
      rw [run_add, run_halt hfull h hk]
      rfl
  | cut s =>
    obtain ⟨n, ⟨k, hle, hk⟩, rfl⟩ := hp
    obtain ⟨o, ho, hevents⟩ := running_of_le (hsteps.trans hle) hk
    rw [ho]
    exact hevents

end Halting

theorem arrives_program (d : Device W V) {start : Block}
    (hfree : start.mentions "wait_until_sensor" = false)
    (hlen : (codeBytes (programCode (statementsOf start.next?))).length ≤ maxProgram) (world : W)
    (rounds : Nat) :
    Arrives d (programCode (statementsOf start.next?)) rounds (Machine.initial world)
      (codeSize (chainLayout (statementsOf start.next?) 0)) [] []
      (Block.interpret d rounds start.next? ⟨world, []⟩) := by
  have hwf := programCode_wellFormed (statementsOf start.next?)
  rw [length_codeBytes hwf] at hlen
  have hstart : Block.Free "wait_until_sensor" (some start) := by
    intro b hb
    rwa [← Option.some.inj hb]
  have hfollows : Follows d (programCode (statementsOf start.next?)) rounds start.next? :=
    follows_chain hwf hlen start.next? hstart.parts.2.2
  have h := hfollows 0 [] [] ⟨world, []⟩ ⟨[], [⟨.halt, []⟩], rfl, rfl⟩
  rwa [Nat.zero_add, ← codeSize_chainLayout _ 0] at h

/-- The compiled program does what the blocks mean, for every device. However long the blocks run,
the machine comes to the same point; and however long the machine runs, it has done the first part
of what the blocks do, and all of it if it has halted. -/
theorem compiled_preserves_meaning (d : Device W V) {w : Workspace} {start : Block}
    {out : CompileOutput} (hs : w.start? = some start)
    (hfree : start.mentions "wait_until_sensor" = false) (h : compile w = .ok out) (world : W) :
    (∀ rounds, ∃ steps, SamePoint (Block.interpret d rounds start.next? ⟨world, []⟩)
      (Machine.run d out.program steps (Machine.initial world))) ∧
    (∀ rounds steps, steps ≤ rounds → PartOf
      (Machine.run d out.program steps (Machine.initial world))
      (Block.interpret d rounds start.next? ⟨world, []⟩)) := by
  obtain ⟨start', hs', hprogram, hlen⟩ := Generator.generate_new_ok (generate_of_compile h)
  obtain rfl : start' = start := Option.some.inj (hs'.symm.trans hs)
  rw [Block.readingNext_eq] at hprogram
  rw [hprogram] at hlen ⊢
  have hwf := programCode_wellFormed (statementsOf start'.next?)
  have harrives := arrives_program d hfree hlen world
  constructor
  · intro rounds
    exact samePoint_of_arrives hwf rfl (harrives rounds)
  · intro rounds steps hsteps
    exact partOf_of_arrives hwf rfl (harrives rounds) hsteps

/-- A device that counts what is done with it; its sensors read the count. -/
def countingDevice : Device Nat Nat where
  word x := x.toNat
  flag b := b.toNat
  truth v := v != 0
  negate v := if v = 0 then 1 else 0
  binary op l r := match op with
    | .less => if l < r then 1 else 0
    | _ => l + r
  sensor _ w := (w, w + 1)
  timer w := (w, w + 1)
  perform _ w := w + 1

/-- A loop that stops twice in each round while a sensor reads less than two, and a reset of the
timer behind it. -/
def guardedStart : Block :=
  let test := ((Block.bare "logic_compare").withField "OP" (.text "LT")).withInput "A"
    (.bare "sensor_get")
  let twice := ((Block.bare "controls_repeat_ext").withInput "TIMES" (.number (.ofNat 2))).withInput
    "DO" (.bare "robot_stop")
  let loop := ((Block.bare "controls_whileUntil").withInput "BOOL"
    (test.withInput "B" (.number (.ofNat 2)))).withInput "DO" twice
  (Block.bare "start_hat").append (loop.append (.bare "timer_reset"))

def guardedScene : Scene Nat :=
  ⟨5, [.sensed 0, .performed ⟨.stop, []⟩, .performed ⟨.stop, []⟩, .sensed 0,
    .performed ⟨.timerReset, []⟩]⟩

theorem compiled_preserves_meaning_guarded :
    guardedStart.mentions "wait_until_sensor" = false ∧
    ∃ out, compile (.ofBlocks [guardedStart]) = .ok out ∧
      Machine.run countingDevice out.program 20 (Machine.initial 0) = .halted guardedScene ∧
      Block.interpret countingDevice 20 guardedStart.next? ⟨0, []⟩ = .finished guardedScene := by
  have hs : (Workspace.ofBlocks [guardedStart]).start? = some guardedStart := rfl
  have hfree : guardedStart.mentions "wait_until_sensor" = false := by decide +kernel
  have hk : (compile (.ofBlocks [guardedStart])).toOption.map (fun out =>
      Machine.run countingDevice out.program 20 (Machine.initial 0)) =
        some (.halted guardedScene) := by decide +kernel
  cases hc : compile (.ofBlocks [guardedStart]) with
  | error e => simp [hc, Except.toOption] at hk
  | ok out =>
    have hrun : Machine.run countingDevice out.program 20 (Machine.initial 0) =
        .halted guardedScene := by simpa [hc, Except.toOption] using hk
    have hpart := (compiled_preserves_meaning countingDevice hs hfree hc 0).2 20 20 le_rfl
    rw [hrun] at hpart
    exact ⟨hfree, out, rfl, hrun, hpart⟩

end RobotBlocks
