import Mathlib
import RobotBlocks.Proofs.Recovery

/-! What an uploader asks of its transport. Each call is recorded with its answer, and a run of steps
either carries them all out or stops at the first fault. -/

namespace RobotBlocks

variable {σ : Type}

/-- A call of a transport and its answer. -/
inductive Attempt where
  | write (bytes : List UInt8) (answer : Except IoFault Nat)
  | flush (answer : Except IoFault Unit)

namespace Attempt

/-- The fault that an attempt fails with. A write fails, too, if it takes nothing. -/
def fault? : Attempt → Option IoFault
  | write _ (.error fault) => some fault
  | write _ (.ok 0) => some .nothingTaken
  | write _ (.ok (_ + 1)) => none
  | flush (.error fault) => some fault
  | flush (.ok ()) => none

/-- The bytes that the transport takes. -/
def taken : Attempt → List UInt8
  | write bytes (.ok n) => bytes.take n
  | _ => []

def effects : Attempt → List Effect
  | write bytes (.ok n) => [.wrote (bytes.take n)]
  | flush (.ok ()) => [.flushed]
  | _ => []

/-- The next attempt when some bytes are left to write. -/
inductive For : List UInt8 → Attempt → Prop where
  | flush (answer : Except IoFault Unit) : For [] (.flush answer)
  | write {bytes : List UInt8} (h : bytes ≠ []) (answer : Except IoFault Nat) :
      For bytes (.write bytes answer)

end Attempt

/-- Writes that take some bytes from the front and leave the rest. -/
inductive Writes : List UInt8 → List Attempt → List UInt8 → Prop where
  | done (bytes : List UInt8) : Writes bytes [] bytes
  | write {bytes rest : List UInt8} {n : Nat} {attempts : List Attempt} (h : bytes ≠ [])
      (hrest : Writes (bytes.drop (n + 1)) attempts rest) :
      Writes bytes (.write bytes (.ok (n + 1)) :: attempts) rest

/-- All bytes are written and flushed. -/
def Delivers (bytes : List UInt8) (attempts : List Attempt) : Prop :=
  ∃ writes, Writes bytes writes [] ∧ attempts = writes ++ [.flush (.ok ())]

/-- Some bytes may be written, then an attempt fails. -/
def Breaks (fault : IoFault) (bytes : List UInt8) (attempts : List Attempt) : Prop :=
  ∃ writes rest failed, Writes bytes writes rest ∧ failed.For rest ∧ failed.fault? = some fault ∧
    attempts = writes ++ [failed]

theorem Attempt.accepted_effects (attempts : List Attempt) :
    accepted (attempts.flatMap effects) = attempts.flatMap taken := by
  induction attempts with
  | nil => rfl
  | cons a attempts ih =>
    rw [List.flatMap_cons, List.flatMap_cons, accepted_append, ih]
    congr 1
    rcases a with ⟨bytes, _ | n⟩ | _ | _ <;> simp [effects, taken, accepted]

theorem Attempt.taken_of_fault? {a : Attempt} {fault : IoFault} (h : a.fault? = some fault) :
    a.taken = [] := by
  rcases a with ⟨bytes, _ | _ | n⟩ | _ | _ <;> simp_all [fault?, taken]

theorem Attempt.exists_fault {attempts : List Attempt} {a : Attempt} {fault : IoFault}
    (ha : a ∈ attempts) (h : a.fault? = some fault) : ¬∀ a ∈ attempts, a.fault? = none := by
  intro hnone
  rw [hnone a ha] at h
  cases h

theorem Attempt.For.eq_nil {bytes : List UInt8} {answer : Except IoFault Unit}
    (h : For bytes (.flush answer)) : bytes = [] := by
  cases h
  rfl

namespace Writes

variable {bytes rest : List UInt8} {attempts : List Attempt}

theorem no_fault (h : Writes bytes attempts rest) : ∀ a ∈ attempts, a.fault? = none := by
  induction h with
  | done => simp
  | write _ _ ih => exact List.forall_mem_cons.mpr ⟨rfl, ih⟩

theorem taken_append (h : Writes bytes attempts rest) :
    attempts.flatMap Attempt.taken ++ rest = bytes := by
  induction h with
  | done => rfl
  | @write bytes rest n attempts _ _ ih =>
    rw [List.flatMap_cons, List.append_assoc, ih]
    exact List.take_append_drop (n + 1) bytes

end Writes

theorem Delivers.no_fault {bytes : List UInt8} {attempts : List Attempt}
    (h : Delivers bytes attempts) : ∀ a ∈ attempts, a.fault? = none := by
  obtain ⟨writes, hwrites, rfl⟩ := h
  exact List.forall_mem_append.mpr ⟨hwrites.no_fault, by simp [Attempt.fault?]⟩

/-- All of the bytes are taken. -/
theorem Delivers.taken {bytes : List UInt8} {attempts : List Attempt}
    (h : Delivers bytes attempts) : attempts.flatMap Attempt.taken = bytes := by
  obtain ⟨writes, hwrites, rfl⟩ := h
  have htaken := hwrites.taken_append
  rw [List.append_nil] at htaken
  simp [htaken, Attempt.taken]

theorem Breaks.exists_fault {fault : IoFault} {bytes : List UInt8} {attempts : List Attempt}
    (h : Breaks fault bytes attempts) : ¬∀ a ∈ attempts, a.fault? = none := by
  obtain ⟨writes, rest, failed, -, -, hfails, rfl⟩ := h
  exact Attempt.exists_fault (by simp) hfails

namespace Transport

variable (t : Transport σ)

/-- A transport that keeps a record of all attempts. -/
def recorded : Transport (σ × List Attempt) where
  write := fun (s, log) bytes =>
    let (answer, s) := t.write s bytes
    (answer, s, log ++ [.write bytes answer])
  flush := fun (s, log) =>
    let (answer, s) := t.flush s
    (answer, s, log ++ [.flush answer])

theorem write_recorded {s s' : σ} {bytes : List UInt8} {answer : Except IoFault Nat}
    (h : t.write s bytes = (answer, s')) (log : List Attempt) :
    t.recorded.write (s, log) bytes = (answer, s', log ++ [.write bytes answer]) := by
  simp [recorded, h]

theorem flush_recorded {s s' : σ} {answer : Except IoFault Unit} (h : t.flush s = (answer, s'))
    (log : List Attempt) : t.recorded.flush (s, log) = (answer, s', log ++ [.flush answer]) := by
  simp [recorded, h]

/-- Writing all bytes either takes them all or breaks off. -/
theorem writeAll_recorded {turns : Nat} {bytes : List UInt8} (hturns : bytes.length ≤ turns) (s : σ)
    (log : List Attempt) (done : List Effect) :
    (∃ s' writes, t.recorded.writeAll turns bytes (s, log) done =
      (.ok (), (s', log ++ writes), (writes.flatMap Attempt.effects).reverse ++ done) ∧
        Writes bytes writes []) ∨
    ∃ s' fault attempts, t.recorded.writeAll turns bytes (s, log) done =
      (.error fault, (s', log ++ attempts), (attempts.flatMap Attempt.effects).reverse ++ done) ∧
        Breaks fault bytes attempts := by
  induction turns generalizing bytes s log done with
  | zero =>
    obtain rfl := List.eq_nil_of_length_eq_zero (Nat.le_zero.mp hturns)
    exact .inl ⟨s, [], by simp, .done []⟩
  | succ turns ih =>
    by_cases hbytes : bytes = []
    · subst hbytes
      exact .inl ⟨s, [], by simp, .done []⟩
    obtain ⟨b, bs, rfl⟩ := List.exists_cons_of_ne_nil hbytes
    rcases hw : t.write s (b :: bs) with ⟨fault | _ | n, s₁⟩
    · right
      refine ⟨s₁, fault, [.write (b :: bs) (.error fault)], ?_, [], _, _, .done _, .write hbytes _,
        rfl, rfl⟩
      simp [t.recorded.writeAll_of_error (t.write_recorded hw log), Attempt.effects]
    · right
      refine ⟨s₁, .nothingTaken, [.write (b :: bs) (.ok 0)], ?_, [], _, _, .done _, .write hbytes _,
        rfl, rfl⟩
      simp [t.recorded.writeAll_of_zero (t.write_recorded hw log), Attempt.effects]
    · have hrest : ((b :: bs).drop (n + 1)).length ≤ turns := by
        rw [List.length_drop]
        omega
      rw [t.recorded.writeAll_of_succ (t.write_recorded hw log)]
      rcases ih hrest s₁ (log ++ [.write (b :: bs) (.ok (n + 1))])
        (.wrote ((b :: bs).take (n + 1)) :: done) with ⟨s', writes, heq, hwrites⟩ |
          ⟨s', fault, attempts, heq, writes, rest, failed, hwrites, hfor, hfault, rfl⟩
      · left
        refine ⟨s', _ :: writes, ?_, .write hbytes hwrites⟩
        rw [heq]
        simp [Attempt.effects]
      · right
        refine ⟨s', fault, _ :: (writes ++ [failed]), ?_, _ :: writes, rest, failed,
          .write hbytes hwrites, hfor, hfault, rfl⟩
        rw [heq]
        simp [Attempt.effects]

/-- Sending a frame delivers it or breaks off. -/
theorem sendFrame_recorded (frame : List UInt8) (s : σ) (log : List Attempt) (done : List Effect) :
    (∃ s' attempts, t.recorded.sendFrame frame (s, log) done =
      (.ok (), (s', log ++ attempts), (attempts.flatMap Attempt.effects).reverse ++ done) ∧
        Delivers frame attempts) ∨
    ∃ s' fault attempts, t.recorded.sendFrame frame (s, log) done =
      (.error fault, (s', log ++ attempts), (attempts.flatMap Attempt.effects).reverse ++ done) ∧
        Breaks fault frame attempts := by
  rcases t.writeAll_recorded le_rfl s log done with ⟨s₁, writes, heq, hwrites⟩ |
    ⟨s₁, fault, attempts, heq, hbreaks⟩
  · rcases hf : t.flush s₁ with ⟨fault | _, s₂⟩
    · right
      refine ⟨s₂, fault, writes ++ [.flush (.error fault)], ?_, writes, [], _, hwrites, .flush _, rfl,
        rfl⟩
      simp [t.recorded.sendFrame_of_error heq (t.flush_recorded hf _), Attempt.effects]
    · left
      refine ⟨s₂, writes ++ [.flush (.ok ())], ?_, writes, hwrites, rfl⟩
      simp [t.recorded.sendFrame_of_ok heq (t.flush_recorded hf _), Attempt.effects]
  · exact .inr ⟨s₁, fault, attempts, t.recorded.sendFrame_of_unwritten heq, hbreaks⟩

end Transport

/-- The state that some steps leave. -/
def Step.stateAfter (state : UploadState) : List Step → UploadState
  | [] => state
  | .enter next :: rest => stateAfter next rest
  | _ :: rest => stateAfter state rest

/-- Steps that are all carried out, with the attempts and the effects of that. -/
inductive Performed : List Step → List Attempt → List Effect → Prop where
  | nil : Performed [] [] []
  | log {event : LinkEvent} {rest : List Step} {attempts : List Attempt} {effects : List Effect}
      (h : Performed rest attempts effects) :
      Performed (.log event :: rest) attempts (.logged event :: effects)
  | pause {ms : Nat} {rest : List Step} {attempts : List Attempt} {effects : List Effect}
      (h : Performed rest attempts effects) :
      Performed (.pause ms :: rest) attempts (.paused ms :: effects)
  | enter {state : UploadState} {rest : List Step} {attempts : List Attempt}
      {effects : List Effect} (h : Performed rest attempts effects) :
      Performed (.enter state :: rest) attempts effects
  | send {packet : Packet} {tried : List Attempt} {rest : List Step} {attempts : List Attempt}
      {effects : List Effect} (htried : Delivers (Frame.encode packet.toBytes) tried)
      (h : Performed rest attempts effects) :
      Performed (.send packet :: rest) (tried ++ attempts)
        (tried.flatMap Attempt.effects ++ effects)

/-- The ends of a run: all steps are carried out, or a packet cannot be sent, and then the steps
before it are all carried out and the failure is logged. The record of attempts and the effects go
on from earlier ones, of which the effects stand last first. -/
inductive Ends (steps : List Step) (state : UploadState) (log : List Attempt)
    (done : List Effect) : Outcome (σ × List Attempt) Unit → Prop where
  | performed (s : σ) {attempts : List Attempt} {effects : List Effect}
      (h : Performed steps attempts effects) :
      Ends steps state log done
        ⟨.ok (), ⟨(s, log ++ attempts), Step.stateAfter state steps⟩, done.reverse ++ effects⟩
  | halted (s : σ) {front back : List Step} {packet : Packet} {sent tried : List Attempt}
      {before : List Effect} {fault : IoFault} (hsteps : steps = front ++ .send packet :: back)
      (hfront : Performed front sent before)
      (htried : Breaks fault (Frame.encode packet.toBytes) tried) :
      Ends steps state log done
        ⟨.error (.transport packet.command fault),
          ⟨(s, log ++ (sent ++ tried)), Step.stateAfter state front⟩,
          done.reverse ++ (before ++ (tried.flatMap Attempt.effects ++
            [.logged (.sendFailed fault packet.command (Step.stateAfter state front))]))⟩

theorem Step.stateAfter_append (state : UploadState) (a b : List Step) :
    stateAfter state (a ++ b) = stateAfter (stateAfter state a) b := by
  induction a generalizing state with
  | nil => rfl
  | cons step a ih => cases step <;> exact ih _

namespace Performed

variable {steps front rest : List Step} {attempts sent : List Attempt}
  {effects before : List Effect}

theorem append (hfront : Performed front sent before) (h : Performed rest attempts effects) :
    Performed (front ++ rest) (sent ++ attempts) (before ++ effects) := by
  induction hfront with
  | nil => exact h
  | log _ ih => exact .log ih
  | pause _ ih => exact .pause ih
  | enter _ ih => exact .enter ih
  | send htried _ ih =>
    rw [List.append_assoc, List.append_assoc]
    exact .send htried ih

theorem single {packet : Packet} {tried : List Attempt}
    (h : Delivers (Frame.encode packet.toBytes) tried) :
    Performed [.send packet] tried (tried.flatMap Attempt.effects) := by
  simpa using Performed.send h .nil

theorem accepted_eq (h : Performed steps attempts effects) :
    accepted effects = attempts.flatMap Attempt.taken := by
  induction h with
  | nil => rfl
  | log _ ih | pause _ ih => exact ih
  | enter _ ih => exact ih
  | send _ _ ih => rw [accepted_append, ih, Attempt.accepted_effects, List.flatMap_append]

/-- Steps that are carried out first do not change how the others end. -/
theorem ends {state : UploadState} {log : List Attempt} {done : List Effect}
    {o : Outcome (σ × List Attempt) Unit} (hfront : Performed front sent before)
    (h : Ends rest (Step.stateAfter state front) (log ++ sent) (before.reverse ++ done) o) :
    Ends (front ++ rest) state log done o := by
  cases h with
  | performed s h =>
    rw [List.append_assoc, List.reverse_append, List.reverse_reverse, List.append_assoc,
      ← Step.stateAfter_append]
    exact .performed s (hfront.append h)
  | halted s hsteps h htried =>
    rw [List.append_assoc log, ← List.append_assoc sent, List.reverse_append, List.reverse_reverse,
      List.append_assoc done.reverse, ← List.append_assoc before, ← Step.stateAfter_append]
    exact .halted s (by rw [hsteps, List.append_assoc]) (hfront.append h) htried

end Performed

/-- Every run over a recorded transport has one of these ends. -/
theorem Transport.run_recorded (t : Transport σ) (steps : List Step) (s : σ) (log : List Attempt)
    (state : UploadState) (done : List Effect) :
    Ends steps state log done (t.recorded.run steps ⟨(s, log), state⟩ done) := by
  induction steps generalizing s log state done with
  | nil =>
    have hend : Ends [] state log done _ := .performed s .nil
    simpa [Step.stateAfter] using hend
  | cons step rest ih =>
    cases step with
    | log event =>
      apply (Performed.log .nil).ends
      simpa [Step.stateAfter] using ih s log state (.logged event :: done)
    | pause ms =>
      apply (Performed.pause .nil).ends
      simpa [Step.stateAfter] using ih s log state (.paused ms :: done)
    | enter next =>
      apply (Performed.enter .nil).ends
      simpa [Step.stateAfter] using ih s log next done
    | send packet =>
      rcases t.sendFrame_recorded (Frame.encode packet.toBytes) s log done with
        ⟨s', tried, heq, htried⟩ | ⟨s', fault, tried, heq, htried⟩
      · rw [t.recorded.run_send_of_ok rest heq]
        exact (Performed.single htried).ends (ih s' _ state _)
      · rw [t.recorded.run_send_of_error rest heq]
        have hend : Ends (.send packet :: rest) state log done _ := .halted s' rfl .nil htried
        simpa [Step.stateAfter] using hend

/-- An outcome without its record of attempts. -/
def Outcome.unrecorded {α : Type} (o : Outcome (σ × List Attempt) α) : Outcome σ α :=
  ⟨o.result, ⟨o.uploader.transport.1, o.uploader.state⟩, o.effects⟩

def Uploader.recorded (u : Uploader σ) : Uploader (σ × List Attempt) :=
  ⟨(u.transport, []), u.state⟩

namespace Transport

variable (t : Transport σ)

/-- Recording changes nothing. -/
theorem writeAll_unrecorded (turns : Nat) (bytes : List UInt8) (s : σ) (log : List Attempt)
    (done : List Effect) :
    t.writeAll turns bytes s done =
      let r := t.recorded.writeAll turns bytes (s, log) done
      (r.1, r.2.1.1, r.2.2) := by
  induction turns generalizing bytes s log done with
  | zero => cases bytes <;> rfl
  | succ turns ih =>
    cases bytes with
    | nil => rfl
    | cons b bs =>
      rcases hw : t.write s (b :: bs) with ⟨fault | _ | n, s₁⟩
      · rw [t.writeAll_of_error hw, t.recorded.writeAll_of_error (t.write_recorded hw log)]
      · rw [t.writeAll_of_zero hw, t.recorded.writeAll_of_zero (t.write_recorded hw log)]
      · rw [t.writeAll_of_succ hw, t.recorded.writeAll_of_succ (t.write_recorded hw log)]
        exact ih _ _ _ _

theorem sendFrame_unrecorded (frame : List UInt8) (s : σ) (log : List Attempt)
    (done : List Effect) :
    t.sendFrame frame s done =
      let r := t.recorded.sendFrame frame (s, log) done
      (r.1, r.2.1.1, r.2.2) := by
  have hplain := t.writeAll_unrecorded frame.length frame s log done
  rcases heq : t.recorded.writeAll frame.length frame (s, log) done with
    ⟨fault | _, ⟨s₁, log₁⟩, done₁⟩
  · rw [heq] at hplain
    rw [t.sendFrame_of_unwritten hplain, t.recorded.sendFrame_of_unwritten heq]
  · rw [heq] at hplain
    rcases hf : t.flush s₁ with ⟨fault | _, s₂⟩
    · rw [t.sendFrame_of_error hplain hf,
        t.recorded.sendFrame_of_error heq (t.flush_recorded hf log₁)]
    · rw [t.sendFrame_of_ok hplain hf, t.recorded.sendFrame_of_ok heq (t.flush_recorded hf log₁)]

theorem run_unrecorded (steps : List Step) (s : σ) (log : List Attempt) (state : UploadState)
    (done : List Effect) :
    t.run steps ⟨s, state⟩ done = (t.recorded.run steps ⟨(s, log), state⟩ done).unrecorded := by
  induction steps generalizing s log state done with
  | nil => rfl
  | cons step rest ih =>
    cases step with
    | log event => exact ih s log state _
    | pause ms => exact ih s log state _
    | enter next => exact ih s log next done
    | send packet =>
      have hplain := t.sendFrame_unrecorded (Frame.encode packet.toBytes) s log done
      rcases heq : t.recorded.sendFrame (Frame.encode packet.toBytes) (s, log) done with
        ⟨fault | _, ⟨s₁, log₁⟩, done₁⟩
      · rw [heq] at hplain
        rw [t.run_send_of_error rest hplain, t.recorded.run_send_of_error rest heq]
        rfl
      · rw [heq] at hplain
        rw [t.run_send_of_ok rest hplain, t.recorded.run_send_of_ok rest heq]
        exact ih s₁ log₁ state done₁

theorem upload_unrecorded (pacing : Pacing) (program : List UInt8) (u : Uploader σ) :
    t.upload pacing program u = (t.recorded.upload pacing program u.recorded).unrecorded := by
  rcases Nat.lt_or_ge maxProgram program.length with h | h
  · rw [t.upload_of_lt h, t.recorded.upload_of_lt h]
    rfl
  · rw [t.upload_of_le h, t.recorded.upload_of_le h, t.run_unrecorded _ _ [] _ _]
    rfl

/-- The attempts that an upload makes. -/
def uploadAttempts (pacing : Pacing) (program : List UInt8) (u : Uploader σ) : List Attempt :=
  (t.recorded.upload pacing program u.recorded).uploader.transport.2

/-- An upload that is not too long carries out its plan, or a packet cannot be sent. -/
theorem ends_upload {program : List UInt8} (h : program.length ≤ maxProgram) (pacing : Pacing)
    (u : Uploader σ) :
    ∃ o : Outcome (σ × List Attempt) Unit, Ends (Step.plan pacing program) .idle [] [] o ∧
      t.run (Step.plan pacing program) ⟨u.transport, .idle⟩ [] = o.unrecorded ∧
      t.upload pacing program u = (o.report program).unrecorded ∧
      t.uploadAttempts pacing program u = o.uploader.transport.2 := by
  refine ⟨_, t.run_recorded _ u.transport [] .idle [], t.run_unrecorded .., ?_, ?_⟩
  · rw [t.upload_unrecorded, t.recorded.upload_of_le h]
    rfl
  · rw [uploadAttempts, t.recorded.upload_of_le h]
    rfl

/-- The attempts to send a command. -/
def commandAttempts (c : Command) (u : Uploader σ) : List Attempt :=
  (t.recorded.command c u.recorded).uploader.transport.2

theorem ends_command (c : Command) (u : Uploader σ) :
    ∃ o : Outcome (σ × List Attempt) Unit, Ends [.send (.bare c)] u.state [] [] o ∧
      t.command c u = o.unrecorded ∧ t.commandAttempts c u = o.uploader.transport.2 :=
  ⟨_, t.run_recorded _ u.transport [] u.state [], t.run_unrecorded .., rfl⟩

end Transport

end RobotBlocks
