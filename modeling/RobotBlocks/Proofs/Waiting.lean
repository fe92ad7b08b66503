import Mathlib
import RobotBlocks.Proofs.Reached
import RobotBlocks.Proofs.Simulation

/-! Blocks that wait on a sensor. The guard of such a block reads the sensor again and again, and
the main result says with which reading it is left: the first one whose comparison is false. It is
not left while the comparison is true, so the guard waits for the opposite of what it compares. -/

namespace RobotBlocks

universe u v

variable {W : Type u} {V : Type v}

/-- The scene after a number of readings of a sensor. -/
def Scene.sensed (d : Device W V) (sensor : UInt8) (s : Scene W) (k : Nat) : Scene W :=
  (fun s => (s.sense d sensor).2)^[k] s

theorem Scene.sensed_succ (d : Device W V) (sensor : UInt8) (s : Scene W) (k : Nat) :
    s.sensed d sensor (k + 1) = ((s.sensed d sensor k).sense d sensor).2 :=
  Function.iterate_succ_apply' _ k s

/-- Whether the comparison of a sensor with a constant is true for the reading behind `k` others. -/
def Scene.compares (d : Device W V) (sensor : UInt8) (op : Operator) (value : UInt16) (s : Scene W)
    (k : Nat) : Bool :=
  d.truth (d.binary op ((s.sensed d sensor k).sense d sensor).1 (d.word value))

namespace Machine

/-- The machine takes a number of steps, each of them from an address within limits. -/
inductive Within (d : Device W V) (program : List UInt8) (low high : Nat) :
    Nat → Machine W V → Machine W V → Prop where
  | refl (m : Machine W V) : Within d program low high 0 m m
  | step {k : Nat} {m n o : Machine W V} (hlow : low ≤ m.pc) (hhigh : m.pc < high)
      (hstep : m.step d program = .running n) (hrest : Within d program low high k n o) :
      Within d program low high (k + 1) m o

section Within

variable {d : Device W V} {program : List UInt8} {low high : Nat}

theorem Within.trans {j k : Nat} {m n o : Machine W V} (h : Within d program low high j m n)
    (h' : Within d program low high k n o) : Within d program low high (j + k) m o := by
  induction h with
  | refl m => rwa [Nat.zero_add]
  | step hlow hhigh hstep _ ih =>
    rw [Nat.succ_add]
    exact .step hlow hhigh hstep (ih h')

theorem Within.run {k : Nat} {m n : Machine W V} (h : Within d program low high k m n) :
    run d program k m = .running n := by
  induction h with
  | refl m => rfl
  | step _ _ hstep _ ih =>
    rw [Machine.run, hstep]
    exact ih

end Within

/-- A guard between two addresses that is left, with the machine's stacks as they were, behind the
first reading whose comparison comes out as `last`. After any other reading it starts again. -/
structure Waits (d : Device W V) (program : List UInt8) (low high : Nat) (sensor : UInt8)
    (op : Operator) (value : UInt16) (last : Bool) (m : Machine W V) : Prop where
  again : ∀ n, (∀ k < n, m.scene.compares d sensor op value k ≠ last) → ∃ steps,
    Within d program low high steps m { m with scene := m.scene.sensed d sensor n }
  leaves : ∀ n, (∀ k < n, m.scene.compares d sensor op value k ≠ last) →
    m.scene.compares d sensor op value n = last → ∃ steps,
      Within d program low high steps m
        { m with pc := high, scene := m.scene.sensed d sensor (n + 1) }

section Guard

variable {full : List Instruction} (hfull : ∀ i ∈ full, i.WellFormed) {d : Device W V}
include hfull

/-- One instruction that stands within limits. -/
theorem Within.single {i : Instruction} {low high : Nat} {m n : Machine W V} (hlow : low ≤ m.pc)
    (hhigh : m.pc < high) (h : CodeAt full m.pc [i]) (he : m.execute d i = .running n) :
    Within d (codeBytes full) low high 1 m n :=
  .step hlow hhigh ((h.step hfull d).trans he) (.refl n)

variable {pc : Nat} {sensor : UInt8} {op : Operator} {value : UInt16}

/-- The sensor is read and compared. -/
theorem within_comparison (h : CodeAt full pc (Block.guardInstructions sensor op value))
    (stack : List V) (loops : List (Nat × Nat)) (s : Scene W) :
    Within d (codeBytes full) pc (pc + 12) 3 ⟨pc, stack, loops, s⟩
      ⟨pc + 6, d.binary op (s.sense d sensor).1 (d.word value) :: stack, loops,
        (s.sense d sensor).2⟩ := by
  have hsensor : Within d (codeBytes full) pc (pc + 12) 1 ⟨pc, stack, loops, s⟩
      ⟨pc + 2, (s.sense d sensor).1 :: stack, loops, (s.sense d sensor).2⟩ :=
    .single hfull (Nat.le_refl _) (by simp) h.head rfl
  have hword : Within d (codeBytes full) pc (pc + 12) 1
      ⟨pc + 2, (s.sense d sensor).1 :: stack, loops, (s.sense d sensor).2⟩
      ⟨pc + 5, d.word value :: (s.sense d sensor).1 :: stack, loops, (s.sense d sensor).2⟩ :=
    .single hfull (by simp) (by simp) h.tail.head rfl
  have hoperator : Within d (codeBytes full) pc (pc + 12) 1
      ⟨pc + 5, d.word value :: (s.sense d sensor).1 :: stack, loops, (s.sense d sensor).2⟩
      ⟨pc + 6, d.binary op (s.sense d sensor).1 (d.word value) :: stack, loops,
        (s.sense d sensor).2⟩ := by
    apply Within.single hfull (by simp) (by simp) h.tail.tail
    cases op <;> rfl
  exact (hsensor.trans hword).trans hoperator

/-- One reading: a true comparison leads to the jump back to the start, a false one behind it. -/
theorem within_reading (hsize : codeSize full ≤ maxProgram)
    (h : CodeAt full pc (Block.guardInstructions sensor op value
      ++ [jumpTo .jumpIfFalse (pc + 12), jumpTo .jump pc]))
    (stack : List V) (loops : List (Nat × Nat)) (s : Scene W) : ∃ steps,
    Within d (codeBytes full) pc (pc + 12) steps ⟨pc, stack, loops, s⟩
      ⟨if s.compares d sensor op value 0 then pc else pc + 12, stack, loops,
        (s.sense d sensor).2⟩ := by
  have hguard : codeSize (Block.guardInstructions sensor op value) = 6 := by cases op <;> rfl
  have hle : pc + 12 ≤ maxProgram := by
    have hend := h.le
    rw [codeSize_append, hguard] at hend
    exact hend.trans hsize
  have htest := h.right.head
  have hback := h.right.tail
  rw [hguard] at htest hback
  have hcompare := within_comparison (d := d) hfull h.left stack loops s
  have hbranch : Within d (codeBytes full) pc (pc + 12) 1
      ⟨pc + 6, d.binary op (s.sense d sensor).1 (d.word value) :: stack, loops,
        (s.sense d sensor).2⟩
      ⟨if s.compares d sensor op value 0 then pc + 9 else pc + 12, stack, loops,
        (s.sense d sensor).2⟩ := by
    apply Within.single hfull (by simp) (by simp) htest
    simp only [jumpTo, execute, toNat_addressWord hle]
    rfl
  have hreading := hcompare.trans hbranch
  cases hc : s.compares d sensor op value 0 with
  | false =>
    rw [hc] at hreading
    exact ⟨_, hreading⟩
  | true =>
    rw [hc] at hreading
    have hjump : Within d (codeBytes full) pc (pc + 12) 1
        ⟨pc + 9, stack, loops, (s.sense d sensor).2⟩ ⟨pc, stack, loops, (s.sense d sensor).2⟩ := by
      apply Within.single hfull (by simp) (by simp) hback
      simp only [jumpTo, execute, toNat_addressWord (show pc ≤ maxProgram by omega)]
    exact ⟨_, hreading.trans hjump⟩

/-- Reading after reading, a guard waits for a false comparison. -/
theorem waits_guard (hsize : codeSize full ≤ maxProgram)
    (h : CodeAt full pc (Block.guardInstructions sensor op value
      ++ [jumpTo .jumpIfFalse (pc + 12), jumpTo .jump pc]))
    {m : Machine W V} (hm : m.pc = pc) :
    Waits d (codeBytes full) pc (pc + 12) sensor op value false m := by
  obtain ⟨start, stack, loops, s⟩ := m
  have hstart : pc = start := hm.symm
  subst hstart
  have hreading (n : Nat) : ∃ steps, Within d (codeBytes full) pc (pc + 12) steps
      ⟨pc, stack, loops, s.sensed d sensor n⟩
      ⟨if s.compares d sensor op value n then pc else pc + 12, stack, loops,
        s.sensed d sensor (n + 1)⟩ := by
    rw [Scene.sensed_succ]
    exact within_reading hfull hsize h stack loops (s.sensed d sensor n)
  have hagain (n : Nat) (hn : ∀ k < n, s.compares d sensor op value k ≠ false) : ∃ steps,
      Within d (codeBytes full) pc (pc + 12) steps ⟨pc, stack, loops, s⟩
        ⟨pc, stack, loops, s.sensed d sensor n⟩ := by
    induction n with
    | zero => exact ⟨0, .refl _⟩
    | succ n ih =>
      obtain ⟨earlier, hearlier⟩ := ih fun k hk => hn k (Nat.lt_succ_of_lt hk)
      obtain ⟨later, hlater⟩ := hreading n
      rw [Bool.eq_true_of_not_eq_false (hn n (Nat.lt_succ_self n))] at hlater
      exact ⟨_, hearlier.trans hlater⟩
  constructor
  case again => exact hagain
  case leaves =>
    intro n hn hlast
    obtain ⟨earlier, hearlier⟩ := hagain n hn
    obtain ⟨last, hleft⟩ := hreading n
    replace hlast : s.compares d sensor op value n = false := hlast
    rw [hlast] at hleft
    exact ⟨_, hearlier.trans hleft⟩

end Guard

end Machine

namespace Statement

/-- The chains within a statement. -/
def bodies : Statement → List (List Statement)
  | choose arms otherwise => arms.map Prod.snd ++ [otherwise]
  | repeatTimes _ _ body | forever body | loopWhile _ _ body => [body]
  | _ => []

open Machine

variable {full : List Instruction}

theorem codeAt_arm {arms : List (Expression × List Statement)} {pc exit : Nat}
    (h : CodeAt full pc (armsLayout arms pc exit)) {body : List Statement}
    (hbody : body ∈ arms.map Prod.snd) : ∃ start, CodeAt full start (chainLayout body start) := by
  induction arms generalizing pc with
  | nil => simp at hbody
  | cons arm rest ih =>
    obtain ⟨condition, first⟩ := arm
    rw [armsLayout, List.append_assoc] at h
    rcases List.mem_cons.mp hbody with rfl | hbody
    · have hfirst := h.right.tail.left
      exact ⟨_, hfirst⟩
    · have hrest := h.right.tail.right.tail
      simp only [codeSize_chainLayout, opcode_jumpTo, size_jumpIfFalse, size_jump] at hrest
      exact ih hrest hbody

/-- The chains within a statement stand within its code. -/
theorem codeAt_body {s : Statement} {pc : Nat} (h : CodeAt full pc (layout s pc))
    {body : List Statement} (hbody : body ∈ bodies s) :
    ∃ start, CodeAt full start (chainLayout body start) := by
  cases s with
  | choose arms otherwise =>
    rw [layout] at h
    rcases List.mem_append.mp hbody with hbody | hbody
    · exact codeAt_arm h.left hbody
    · obtain rfl := List.mem_singleton.mp hbody
      have hotherwise := h.right
      rw [codeSize_armsLayout] at hotherwise
      exact ⟨_, hotherwise⟩
  | repeatTimes times pause inner =>
    obtain rfl := List.mem_singleton.mp hbody
    rw [layout, List.append_assoc] at h
    exact ⟨_, h.left.tail⟩
  | forever inner =>
    obtain rfl := List.mem_singleton.mp hbody
    rw [layout] at h
    exact ⟨_, h.left⟩
  | loopWhile negated condition inner =>
    obtain rfl := List.mem_singleton.mp hbody
    rw [layout, List.append_assoc] at h
    exact ⟨_, h.right.tail.left⟩
  | _ => simp [bodies] at hbody

end Statement

namespace Block

open Machine Generator Statement

theorem mem_bodies {b : Block} {name : String} (h : name ∈ b.bodySlots) :
    statementsOf (b.input? name) ∈ bodies b.opened.statement := by
  unfold bodySlots at h
  unfold OpenBlock.statement
  rw [opened_kind]
  split <;> simp_all [-Nat.toString_eq_repr, bodies, opened_body]
  case h_11 =>
    have hs : b.opened.shape = b.shape := rfl
    rw [opened_arms, arms_statements, hs]
    rcases h with ⟨i, hi, rfl⟩ | ⟨helse, rfl⟩
    · refine .inl ⟨valueOf (b.input? ("IF" ++ toString i)), ?_⟩
      exact List.mem_map.mpr ⟨i, by simpa [Nat.lt_succ_iff] using hi, rfl⟩
    · exact .inr (by rw [if_pos helse])

/-- The code of every block that is reached in a chain stands within the code of the chain. -/
theorem codeAt_reached {full : List Instruction} {o : Option Block} {b : Block}
    (hb : b ∈ reached o) {pc : Nat} (h : CodeAt full pc (chainLayout (statementsOf o) pc)) :
    ∃ start, CodeAt full start (chainLayout (statementsOf (some b)) start) := by
  induction o using chainInduction generalizing pc with
  | none => simp [reached] at hb
  | some c ih ihn =>
    have hlayout := h
    rw [statementsOf_cons, chainLayout] at hlayout
    rw [reached, List.cons_append, List.mem_cons, List.mem_append, List.mem_flatMap] at hb
    rcases hb with rfl | ⟨name, hname, hb⟩ | hb
    · exact ⟨pc, h⟩
    · obtain ⟨start, hstart⟩ := codeAt_body hlayout.left (mem_bodies hname)
      exact ih name hb hstart
    · split at hb
      · simp at hb
      next hkind =>
        have hnext := hlayout.right
        rw [if_neg hkind, codeSize_layout] at hnext
        exact ihn hb hnext

theorem statementForm_of_wait {b : Block} (h : b.kind = "wait_until_sensor") :
    b.statementForm = .awaiting (b.idAt "SENS" 0) (.comparison (b.textAt "OP" "LT"))
      (b.numberAt "VAL" (.ofNat 50)).toWord := by
  unfold statementForm
  split <;> simp_all

end Block

open Machine Generator Statement

/-- Every block that waits and is reached has a guard in the program, directly before the code of
what stands behind the block. From the start of the guard, on any device and with any stacks, the
machine goes back and reads the sensor again as long as the comparison is true, and leaves the guard
with the first reading for which it is false. -/
theorem guard_leaves_on_false {w : Workspace} {start b : Block} {out : CompileOutput}
    (h : compile w = .ok out) (hs : w.start? = some start) (hb : b ∈ Block.reached start.next?)
    (hkind : b.kind = "wait_until_sensor") :
    ∃ pc, out.program = codeBytes (programCode (statementsOf start.next?)) ∧
      CodeAt (programCode (statementsOf start.next?)) pc
        (chainLayout (statementsOf (some b)) pc) ∧
      CodeAt (programCode (statementsOf start.next?)) (pc + 12)
        (chainLayout (statementsOf b.next?) (pc + 12)) ∧
      ∀ (W : Type u) (V : Type v) (d : Device W V) (m : Machine W V), m.pc = pc →
        Waits d out.program pc (pc + 12) (b.idAt "SENS" 0) (.comparison (b.textAt "OP" "LT"))
          (b.numberAt "VAL" (.ofNat 50)).toWord false m := by
  obtain ⟨start', hs', hprogram, hlen⟩ := Generator.generate_new_ok (generate_of_compile h)
  obtain rfl : start' = start := Option.some.inj (hs'.symm.trans hs)
  rw [Block.readingNext_eq] at hprogram
  have hfull := programCode_wellFormed (statementsOf start'.next?)
  have hsize : codeSize (programCode (statementsOf start'.next?)) ≤ maxProgram := by
    rwa [hprogram, length_codeBytes hfull] at hlen
  have hchain : CodeAt (programCode (statementsOf start'.next?)) 0
      (chainLayout (statementsOf start'.next?) 0) := ⟨[], [⟨.halt, []⟩], rfl, rfl⟩
  obtain ⟨pc, hcode⟩ := Block.codeAt_reached hb hchain
  have hguard := hcode
  rw [Block.chainLayout_some, Block.statementForm_of_wait hkind] at hguard
  set sensor := b.idAt "SENS" 0
  set op := Operator.comparison (b.textAt "OP" "LT")
  set value := (b.numberAt "VAL" (.ofNat 50)).toWord
  have hgsize : codeSize (Block.guardInstructions sensor op value) = 6 := by
    cases op <;> rfl
  simp only [hgsize] at hguard
  refine ⟨pc, hprogram, hcode, ?_, ?_⟩
  · have hnext := hguard.right
    rwa [codeSize_append, hgsize] at hnext
  · intro W V d m hm
    rw [hprogram]
    exact waits_guard hfull hsize hguard.left hm

/-- A block that waits, with a statement behind it. -/
def waitingBlock : Block :=
  (((Block.bare "wait_until_sensor").withField "OP" (.text "GT")).withInput "VAL"
    (.number (.ofNat 300))).append (.bare "timer_reset")

def waitingLoop : Block :=
  (Block.bare "loop_forever").withInput "DO" ((Block.bare "robot_stop").append waitingBlock)

def waitingStart : Block := (Block.bare "start_hat").append waitingLoop

def waitingProgram : List UInt8 :=
  [6, 33, 0, 32, 1, 44, 49, 17, 0, 13, 16, 0, 1, 36, 20, 0, 0, 255]

theorem guard_leaves_on_false_looped :
    waitingBlock ∈ Block.reached waitingStart.next? ∧
      ∃ out pc, compile (.ofBlocks [waitingStart]) = .ok out ∧ out.program = waitingProgram ∧
        Waits countingDevice waitingProgram pc (pc + 12) 0 .greater 300 false
          ⟨pc, [], [], ⟨0, []⟩⟩ := by
  have hloop : waitingStart.next? = some waitingLoop := rfl
  have hbody : waitingLoop.input? "DO" = some ((Block.bare "robot_stop").append waitingBlock) := rfl
  have hnext : ((Block.bare "robot_stop").append waitingBlock).next? = some waitingBlock := rfl
  have hmem : waitingBlock ∈ Block.reached waitingStart.next? := by
    rw [hloop, Block.reached]
    apply List.mem_append_left
    apply List.mem_cons_of_mem
    refine List.mem_flatMap.mpr ⟨"DO", by decide, ?_⟩
    rw [hbody, Block.reached, hnext, Block.reached]
    simp [Block.bodySlots, Block.append, Block.bare, endlessKinds]
  have hk : (compile (.ofBlocks [waitingStart])).toOption.map CompileOutput.program =
      some waitingProgram := by decide +kernel
  have hsensor : waitingBlock.idAt "SENS" 0 = 0 := by decide +kernel
  have hop : Operator.comparison (waitingBlock.textAt "OP" "LT") = .greater := by decide +kernel
  have hvalue : (waitingBlock.numberAt "VAL" (.ofNat 50)).toWord = 300 := by decide +kernel
  refine ⟨hmem, ?_⟩
  cases hc : compile (.ofBlocks [waitingStart]) with
  | error e => simp [hc, Except.toOption] at hk
  | ok out =>
    have hp : out.program = waitingProgram := by simpa [hc, Except.toOption] using hk
    obtain ⟨pc, -, -, -, hwaits⟩ := guard_leaves_on_false hc rfl hmem rfl
    rw [hsensor, hop, hvalue, hp] at hwaits
    exact ⟨out, pc, rfl, hp, hwaits Nat Nat countingDevice ⟨pc, [], [], ⟨0, []⟩⟩ rfl⟩

/-- A block that waits, by its defaults, until a sensor reads less than 50. -/
def waitStart : Block := (Block.bare "start_hat").append (.bare "wait_until_sensor")

def waitProgram : List UInt8 := [33, 0, 32, 0, 50, 48, 17, 0, 12, 16, 0, 0, 255]

/-- A sensor reads less than 50 at once, but the guard of the block is not left then. -/
theorem guard_stays_on_true :
    compile (.ofBlocks [waitStart]) = .ok ⟨waitProgram, [], ["wait_until_sensor"]⟩ ∧
      (Machine.initial (V := Nat) 0).scene.compares countingDevice 0 .less 50 0 = true ∧
      ¬Waits countingDevice waitProgram 0 12 0 .less 50 true (Machine.initial 0) := by
  have hcompile : compile (.ofBlocks [waitStart]) =
      .ok ⟨waitProgram, [], ["wait_until_sensor"]⟩ := by decide +kernel
  have htrue :
      (Machine.initial (V := Nat) 0).scene.compares countingDevice 0 .less 50 0 = true := by
    decide +kernel
  refine ⟨hcompile, htrue, ?_⟩
  intro hwaits
  obtain ⟨steps, hwithin⟩ := hwaits.leaves 0 (by simp) htrue
  have hrun := hwithin.run
  by_cases hsteps : steps < 6
  · interval_cases steps <;> revert hrun <;> decide +kernel
  · -- by then the sensor has been read a second time
    have htwice : run countingDevice waitProgram 6 (Machine.initial 0) =
        .running ⟨2, [1], [], ⟨2, [.sensed 0, .sensed 0]⟩⟩ := by decide +kernel
    obtain ⟨o, ho, hevents⟩ := running_of_le (Nat.not_lt.mp hsteps) hrun
    obtain rfl : _ = o := Status.running.inj (htwice.symm.trans ho)
    revert hevents
    decide +kernel

end RobotBlocks
