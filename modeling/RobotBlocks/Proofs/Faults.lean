import Mathlib
import RobotBlocks.Proofs.Schedule

/-! Uploads over a transport that fails. The first packet that cannot be sent ends an upload: what the
transport has taken by then, the state that is left, and what is reported. -/

namespace RobotBlocks

variable {σ : Type}

def pauses (effects : List Effect) : List Nat :=
  effects.filterMap fun
    | .paused ms => some ms
    | _ => none

/-- Attempts that send some packets, one after the other. -/
inductive Sends : List Packet → List Attempt → Prop where
  | nil : Sends [] []
  | cons {packet : Packet} {rest : List Packet} {tried attempts : List Attempt}
      (h : Delivers (Frame.encode packet.toBytes) tried) (hrest : Sends rest attempts) :
      Sends (packet :: rest) (tried ++ attempts)

theorem pauses_append (a b : List Effect) : pauses (a ++ b) = pauses a ++ pauses b := by
  simp [pauses]

theorem pauses_attempts (attempts : List Attempt) :
    pauses (attempts.flatMap Attempt.effects) = [] := by
  induction attempts with
  | nil => rfl
  | cons a attempts ih =>
    rw [List.flatMap_cons, pauses_append, ih]
    rcases a with ⟨bytes, _ | n⟩ | _ | _ <;> rfl

namespace Step

def pauses (steps : List Step) : List Nat :=
  steps.filterMap fun
    | .pause ms => some ms
    | _ => none

theorem pauses_append (a b : List Step) : pauses (a ++ b) = pauses a ++ pauses b := by
  simp [pauses]

theorem pauses_chunkSteps (pacing : Pacing) (total : Nat) (chunks : List (List UInt8 × Nat)) :
    pauses (chunks.flatMap fun (c, i) => chunkSteps pacing total c i) =
      List.replicate chunks.length pacing.interPacket := by
  induction chunks with
  | nil => rfl
  | cons c chunks ih =>
    rw [List.flatMap_cons, pauses_append, ih]
    rfl

end Step

namespace Performed

variable {steps : List Step} {attempts : List Attempt} {effects : List Effect}

theorem sends (h : Performed steps attempts effects) : Sends (Step.packets steps) attempts := by
  induction h with
  | nil => exact .nil
  | log _ ih | pause _ ih => exact ih
  | enter _ ih => exact ih
  | send htried _ ih => exact .cons htried ih

theorem pauses_eq (h : Performed steps attempts effects) : pauses effects = Step.pauses steps := by
  induction h with
  | nil => rfl
  | log _ ih | enter _ ih => exact ih
  | pause _ ih => exact congrArg _ ih
  | send _ _ ih =>
    rw [pauses_append, pauses_attempts]
    exact ih

end Performed

theorem Sends.no_fault {packets : List Packet} {attempts : List Attempt}
    (h : Sends packets attempts) : ∀ a ∈ attempts, a.fault? = none := by
  induction h with
  | nil => simp
  | cons h _ ih => exact List.forall_mem_append.mpr ⟨h.no_fault, ih⟩

theorem Sends.taken {packets : List Packet} {attempts : List Attempt} (h : Sends packets attempts) :
    attempts.flatMap Attempt.taken = packets.flatMap fun p => Frame.encode p.toBytes := by
  induction h with
  | nil => rfl
  | cons h _ ih => rw [List.flatMap_append, h.taken, ih, List.flatMap_cons]

/-- A packet of an upload and the steps between it and the next one. -/
structure Leg where
  packet : Packet
  after : List Step

namespace Leg

def steps (l : Leg) : List Step := .send l.packet :: l.after

def opening (pacing : Pacing) : Leg :=
  ⟨.bare .opening, [.enter .begun, .pause pacing.settle, .enter .transferring]⟩

def ofChunk (pacing : Pacing) (total : Nat) : List UInt8 × Nat → Leg
  | (chunk, index) => ⟨⟨.chunk, chunk⟩, [.pause pacing.interPacket,
      .log (.sentChunk (pacing.reports index total) index total)]⟩

def closing (pacing : Pacing) (bytes total : Nat) : Leg :=
  ⟨.bare .closing, [.enter .ended, .pause pacing.settle, .log (.complete bytes total)]⟩

/-- Steps that send nothing stand before the next packet. -/
theorem split_after {after rest front back : List Step} {packet : Packet}
    (hafter : Step.packets after = []) (h : after ++ rest = front ++ .send packet :: back) :
    ∃ between, front = after ++ between ∧ rest = between ++ .send packet :: back := by
  induction after generalizing front with
  | nil => exact ⟨front, rfl, h⟩
  | cons step after ih =>
    rcases List.cons_eq_append_iff.mp h with ⟨rfl, hstep⟩ | ⟨front, rfl, hrest⟩
    · obtain ⟨rfl, -⟩ := List.cons.inj hstep
      simp [Step.packets] at hafter
    · have hquiet : Step.packets after = [] := by
        cases step <;> simp_all [Step.packets]
      obtain ⟨between, rfl, hbetween⟩ := ih hquiet hrest
      exact ⟨between, rfl, hbetween⟩

/-- A packet of some legs is the packet of one of them, and the steps before it are whole legs. -/
theorem split {legs : List Leg} (hlegs : ∀ l ∈ legs, Step.packets l.after = [])
    {front back : List Step} {packet : Packet}
    (h : legs.flatMap steps = front ++ .send packet :: back) :
    ∃ earlier l later, legs = earlier ++ l :: later ∧ front = earlier.flatMap steps ∧
      packet = l.packet := by
  induction legs generalizing front with
  | nil => simp at h
  | cons l legs ih =>
    obtain ⟨hl, hrest⟩ := List.forall_mem_cons.mp hlegs
    rw [List.flatMap_cons, steps, List.cons_append] at h
    rcases List.cons_eq_append_iff.mp h with ⟨rfl, hstep⟩ | ⟨front, rfl, htail⟩
    · obtain ⟨hpacket, -⟩ := List.cons.inj hstep
      exact ⟨[], l, legs, rfl, rfl, Step.send.inj hpacket⟩
    · obtain ⟨between, rfl, hbetween⟩ := split_after hl htail
      obtain ⟨earlier, next, later, rfl, rfl, hpacket⟩ := ih hrest hbetween
      exact ⟨l :: earlier, next, later, rfl, rfl, hpacket⟩

end Leg

/-- The legs of an upload. -/
def uploadLegs (pacing : Pacing) (program : List UInt8) : List Leg :=
  let total := chunkTotal program
  .opening pacing :: ((programChunks program).zipIdx 1).map (.ofChunk pacing total)
    ++ [.closing pacing program.length total]

theorem plan_eq_legs (pacing : Pacing) (program : List UInt8) :
    Step.plan pacing program =
      .log (.starting program.length (chunkTotal program)) ::
        (uploadLegs pacing program).flatMap Leg.steps := by
  rw [uploadLegs, List.flatMap_append, List.flatMap_cons, List.flatMap_map]
  simp [Step.plan, Leg.steps, Leg.opening, Leg.closing, Leg.ofChunk, Step.chunkSteps]

theorem uploadLegs_quiet (pacing : Pacing) (program : List UInt8) :
    ∀ l ∈ uploadLegs pacing program, Step.packets l.after = [] := by
  intro l hl
  simp only [uploadLegs, List.mem_append, List.mem_cons, List.mem_map, List.not_mem_nil, or_false]
    at hl
  rcases hl with (rfl | ⟨c, -, rfl⟩) | rfl <;> rfl

/-- The steps before a packet of an upload: nothing is sent before the first packet, and the first
packet and some chunks before any other. -/
theorem plan_split {pacing : Pacing} {program : List UInt8} {front back : List Step} {packet : Packet}
    (h : Step.plan pacing program = front ++ .send packet :: back) :
    (packet = .bare .opening ∧
      front = [.log (.starting program.length (chunkTotal program))]) ∨
    (packet.command ≠ .opening ∧ ∃ chunks : List (List UInt8 × Nat),
      front = .log (.starting program.length (chunkTotal program)) ::
        ((Leg.opening pacing).steps ++ chunks.flatMap fun (c, i) =>
          Step.chunkSteps pacing (chunkTotal program) c i)) := by
  rw [plan_eq_legs] at h
  rcases List.cons_eq_append_iff.mp h with ⟨-, hstep⟩ | ⟨front, rfl, hlegs⟩
  · simp at hstep
  obtain ⟨earlier, l, later, hsplit, rfl, rfl⟩ := Leg.split (uploadLegs_quiet pacing program) hlegs
  rw [uploadLegs, List.cons_append] at hsplit
  rcases List.cons_eq_append_iff.mp hsplit with ⟨rfl, hl⟩ | ⟨earlier, rfl, hrest⟩
  · obtain ⟨rfl, -⟩ := List.cons.inj hl
    exact .inl ⟨rfl, rfl⟩
  right
  set legs := ((programChunks program).zipIdx 1).map
    (Leg.ofChunk pacing (chunkTotal program)) with hdef
  constructor
  · have hmem : l ∈ legs ++ [.closing pacing program.length (chunkTotal program)] := by
      rw [hrest]
      simp
    rcases List.mem_append.mp hmem with hchunk | hlast
    · obtain ⟨c, -, rfl⟩ := List.mem_map.mp hchunk
      simp [Leg.ofChunk]
    · obtain rfl := List.mem_singleton.mp hlast
      simp [Leg.closing, Packet.bare]
  · -- the last leg is not among the earlier ones
    have hle : earlier.length ≤ legs.length := by
      have hlength := congrArg List.length hrest
      simp only [List.length_append, List.length_cons, List.length_nil] at hlength
      omega
    obtain ⟨k, rfl⟩ : ∃ k, earlier = legs.take k := ⟨_, List.prefix_iff_eq_take.mp
      (List.prefix_of_prefix_length_le ⟨_, hrest.symm⟩ (List.prefix_append _ _) hle)⟩
    refine ⟨((programChunks program).zipIdx 1).take k, ?_⟩
    rw [List.flatMap_cons, hdef, ← List.map_take, List.flatMap_map]
    rfl

/-- The pauses that are due before a packet, when some packets are sent before it. -/
def pausesBefore (pacing : Pacing) : List Packet → List Nat
  | [] => []
  | _ :: chunks => pacing.settle :: List.replicate chunks.length pacing.interPacket

/-- What is due before a packet of an upload, and the state then. -/
theorem due_of_plan {pacing : Pacing} {program : List UInt8} {front back : List Step}
    {packet : Packet} (h : Step.plan pacing program = front ++ .send packet :: back) :
    Step.pauses front = pausesBefore pacing (Step.packets front) ∧
      Step.stateAfter .idle front =
        if packet.command = .opening then .idle else .transferring := by
  rcases plan_split h with ⟨rfl, rfl⟩ | ⟨hcommand, chunks, rfl⟩
  · exact ⟨rfl, rfl⟩
  · rw [if_neg hcommand]
    constructor
    · have hpauses := Step.pauses_chunkSteps pacing (chunkTotal program) chunks
      have hpackets := packets_chunkSteps pacing (chunkTotal program) chunks
      generalize (chunks.flatMap fun (c, i) =>
        Step.chunkSteps pacing (chunkTotal program) c i) = steps at hpauses hpackets ⊢
      show pacing.settle :: Step.pauses steps =
        pacing.settle :: List.replicate (Step.packets steps).length pacing.interPacket
      rw [hpauses, hpackets, List.length_map]
    · exact Step.stateAfter_chunkSteps ..

/-- Where an upload stops. The packets before one are sent, then an attempt to send this one fails,
behind writes that may have taken a part of its frame. -/
structure Stop (program : List UInt8) where
  earlier : List Packet
  packet : Packet
  later : List Packet
  packets : uploadPackets program = earlier ++ packet :: later
  sent : List Attempt
  sends : Sends earlier sent
  written : List Attempt
  rest : List UInt8
  writes : Writes (Frame.encode packet.toBytes) written rest
  failed : Attempt
  next : failed.For rest
  fault : IoFault
  fails : failed.fault? = some fault

namespace Stop

variable {program : List UInt8} (x : Stop program)

/-- The part of the packet's frame that is taken. -/
def part : List UInt8 := x.written.flatMap Attempt.taken

theorem part_prefix : x.part <+: Frame.encode x.packet.toBytes := ⟨x.rest, x.writes.taken_append⟩

/-- A flush comes when the whole frame is taken. -/
theorem part_of_flush {answer : Except IoFault Unit} (h : x.failed = .flush answer) :
    x.part = Frame.encode x.packet.toBytes := by
  have hnext := x.next
  rw [h] at hnext
  have htaken := x.writes.taken_append
  rwa [hnext.eq_nil, List.append_nil] at htaken

theorem no_fault : ∀ a ∈ x.sent ++ x.written, a.fault? = none :=
  List.forall_mem_append.mpr ⟨x.sends.no_fault, x.writes.no_fault⟩

/-- The effects of an upload that stops, after those for the earlier packets. Behind the failed
attempt there is only the report of the failure. -/
def effects (before : List Effect) (state : UploadState) : List Effect :=
  before ++ ((x.written ++ [x.failed]).flatMap Attempt.effects ++
    [.logged (.sendFailed x.fault x.packet.command state)])

theorem accepted_effects (before : List Effect) (state : UploadState) :
    accepted (x.effects before state) = accepted before ++ x.part := by
  have htried : accepted ((x.written ++ [x.failed]).flatMap Attempt.effects) = x.part := by
    rw [Attempt.accepted_effects, List.flatMap_append, List.flatMap_singleton,
      Attempt.taken_of_fault? x.fails, List.append_nil, part]
  rw [effects, accepted_append, accepted_append, htried]
  simp [accepted]

theorem pauses_effects (before : List Effect) (state : UploadState) :
    pauses (x.effects before state) = pauses before := by
  rw [effects, pauses_append, pauses_append, pauses_attempts]
  simp [pauses]

/-- The outcome of an upload that ends at a stop, and its attempts. -/
structure Explains (pacing : Pacing) (attempts : List Attempt) (o : Outcome σ UploadReport) :
    Prop where
  result : o.result = .error (.transport x.packet.command x.fault)
  attempts_eq : attempts = x.sent ++ x.written ++ [x.failed]
  no_fault : ∀ a ∈ x.sent ++ x.written, a.fault? = none
  accepted_eq : accepted o.effects =
    (x.earlier.flatMap fun p => Frame.encode p.toBytes) ++ x.part
  part_prefix : x.part <+: Frame.encode x.packet.toBytes
  part_of_flush : ∀ answer, x.failed = .flush answer → x.part = Frame.encode x.packet.toBytes
  effects_eq : ∃ before, pauses before = pausesBefore pacing x.earlier ∧
    o.effects = x.effects before o.uploader.state
  pauses_eq : pauses o.effects = pausesBefore pacing x.earlier
  state : o.uploader.state = if x.packet.command = .opening then .idle else .transferring

theorem Explains.exists_fault {x : Stop program} {pacing : Pacing} {attempts : List Attempt}
    {o : Outcome σ UploadReport} (h : x.Explains pacing attempts o) :
    ¬∀ a ∈ attempts, a.fault? = none :=
  Attempt.exists_fault (by simp [h.attempts_eq]) x.fails

end Stop

section Upload

variable (t : Transport σ) (pacing : Pacing) (u : Uploader σ)

/-- An upload that is not too long sends all its packets or stops. -/
theorem upload_cases {program : List UInt8} (hlen : program.length ≤ maxProgram) :
    ((∃ report, (t.upload pacing program u).result = .ok report) ∧
      (t.upload pacing program u).uploader.state = .ended ∧
      Sends (uploadPackets program) (t.uploadAttempts pacing program u)) ∨
    ∃ x : Stop program,
      x.Explains pacing (t.uploadAttempts pacing program u) (t.upload pacing program u) := by
  obtain ⟨o, hends, -, hupload, hattempts⟩ := t.ends_upload hlen pacing u
  rw [hupload, hattempts]
  cases hends with
  | performed s h =>
    left
    refine ⟨⟨_, rfl⟩, Step.stateAfter_plan pacing .idle program, ?_⟩
    rw [← packets_plan pacing program]
    exact h.sends
  | @halted s front back packet sent tried before fault hsteps hfront htried =>
    right
    obtain ⟨written, rest, failed, hwrites, hnext, hfails, rfl⟩ := htried
    obtain ⟨hpauses, hstate⟩ := due_of_plan hsteps
    have hpackets : uploadPackets program =
        Step.packets front ++ packet :: Step.packets back := by
      rw [← packets_plan pacing program, hsteps, Step.packets_append]
      rfl
    let x : Stop program := ⟨_, packet, _, hpackets, sent, hfront.sends, written, rest, hwrites,
      failed, hnext, fault, hfails⟩
    have haccepted : accepted before = x.earlier.flatMap fun p => Frame.encode p.toBytes :=
      hfront.accepted_eq.trans hfront.sends.taken
    have hbefore : pauses before = pausesBefore pacing x.earlier := hfront.pauses_eq.trans hpauses
    refine ⟨x, rfl, (List.append_assoc sent written [failed]).symm, x.no_fault, ?_, x.part_prefix,
      fun _ => x.part_of_flush, ⟨before, hbefore, rfl⟩, ?_, hstate⟩
    · exact (x.accepted_effects before _).trans (by rw [haccepted])
    · exact (x.pauses_effects before _).trans hbefore

/-- Sending a command leaves the state as it is, and delivers the command or breaks off. -/
theorem command_cases (c : Command) :
    (t.command c u).uploader.state = u.state ∧
      (((t.command c u).result = .ok () ∧
        Delivers (Frame.encode (Packet.bare c).toBytes) (t.commandAttempts c u)) ∨
      ∃ fault, (t.command c u).result = .error (.transport c fault) ∧
        Breaks fault (Frame.encode (Packet.bare c).toBytes) (t.commandAttempts c u)) := by
  obtain ⟨o, hends, hcommand, hattempts⟩ := t.ends_command c u
  rw [hcommand, hattempts]
  cases hends with
  | performed s h =>
    refine ⟨rfl, .inl ⟨rfl, ?_⟩⟩
    cases h with
    | send htried h =>
      cases h
      simpa using htried
  | @halted s front back packet sent tried before fault hsteps hfront htried =>
    rcases List.cons_eq_append_iff.mp hsteps with ⟨rfl, hpacket⟩ | ⟨front, rfl, hnil⟩
    · obtain ⟨hpacket, -⟩ := List.cons.inj hpacket
      obtain rfl := Step.send.inj hpacket
      cases hfront
      exact ⟨rfl, .inr ⟨fault, rfl, htried⟩⟩
    · simp at hnil

end Upload

/-- An upload stops at the first attempt that fails and reports it; it succeeds if none does. A
program that is too long is refused before any attempt. A command leaves the state as it is, also if
it fails. -/
theorem upload_stops_at_fault (t : Transport σ) (pacing : Pacing) (program : List UInt8)
    (u : Uploader σ) :
    let o := t.upload pacing program u
    let attempts := t.uploadAttempts pacing program u
    (maxProgram < program.length → o.result = .error (.programTooLarge program.length) ∧
      o.uploader = ⟨u.transport, .idle⟩ ∧ o.effects = [] ∧ attempts = []) ∧
    (program.length ≤ maxProgram →
      ((∃ report, o.result = .ok report) ↔ ∀ a ∈ attempts, a.fault? = none) ∧
      (∀ report, o.result = .ok report →
        o.uploader.state = .ended ∧ Sends (uploadPackets program) attempts) ∧
      ∀ e, o.result = .error e → ∃ x : Stop program, x.Explains pacing attempts o) ∧
    ∀ c : Command, (t.command c u).uploader.state = u.state ∧
      ((t.command c u).result = .ok () ↔ ∀ a ∈ t.commandAttempts c u, a.fault? = none) ∧
      ∀ e, (t.command c u).result = .error e → ∃ fault, e = .transport c fault ∧
        Breaks fault (Frame.encode (Packet.bare c).toBytes) (t.commandAttempts c u) := by
  intro o attempts
  refine ⟨fun hlen => ?_, fun hlen => ?_, fun c => ?_⟩
  · have ho : o = ⟨.error (.programTooLarge program.length), ⟨u.transport, .idle⟩, []⟩ :=
      t.upload_of_lt hlen pacing u
    have hattempts : attempts = [] := by
      show t.uploadAttempts pacing program u = []
      rw [Transport.uploadAttempts, t.recorded.upload_of_lt hlen]
      rfl
    rw [ho]
    exact ⟨rfl, rfl, rfl, hattempts⟩
  · rcases upload_cases t pacing u hlen with ⟨⟨report, hok⟩, hstate, hsends⟩ | ⟨x, hx⟩
    · refine ⟨iff_of_true ⟨report, hok⟩ hsends.no_fault, fun _ _ => ⟨hstate, hsends⟩, fun e he => ?_⟩
      cases hok.symm.trans he
    · refine ⟨iff_of_false ?_ hx.exists_fault, fun report hok => ?_, fun e _ => ⟨x, hx⟩⟩
      · rintro ⟨report, hok⟩
        cases hok.symm.trans hx.result
      · cases hok.symm.trans hx.result
  · obtain ⟨hstate, ⟨hok, hdelivers⟩ | ⟨fault, herror, hbreaks⟩⟩ := command_cases t u c
    · refine ⟨hstate, iff_of_true hok hdelivers.no_fault, fun e he => ?_⟩
      cases hok.symm.trans he
    · refine ⟨hstate, iff_of_false ?_ hbreaks.exists_fault, fun e he => ⟨fault, ?_, hbreaks⟩⟩
      · intro hok
        cases hok.symm.trans herror
      · exact Except.error.inj (he.symm.trans herror)

/-- Its second flush fails, so the frame before is taken as a whole, two bytes at a time. -/
def stalled : Uploader Scripted := ⟨.new ⟨none, none, some 1, some 2⟩, .ended⟩

theorem upload_stops_at_fault_stalled :
    let o := Scripted.transport.upload .default [7] stalled
    let attempts := Scripted.transport.uploadAttempts .default [7] stalled
    [7].length ≤ maxProgram ∧ o.result = .error (.transport .chunk .flushStalled) ∧
      o.uploader.state = .transferring ∧
      ∃ x : Stop [7], x.packet.command = .chunk ∧ x.Explains .default attempts o := by
  intro o attempts
  have hlen : [7].length ≤ maxProgram := by decide
  have hresult : o.result = .error (.transport .chunk .flushStalled) := by decide +kernel
  obtain ⟨-, hupload, -⟩ := upload_stops_at_fault Scripted.transport .default [7] stalled
  obtain ⟨x, hx⟩ := (hupload hlen).2.2 _ hresult
  have hcommand : x.packet.command = .chunk := by
    have herror := Except.error.inj (hx.result.symm.trans hresult)
    exact (LinkError.transport.inj herror).1
  have hstate := hx.state
  rw [hcommand, if_neg (by decide)] at hstate
  exact ⟨hlen, hresult, hstate, x, hcommand, hx⟩

end RobotBlocks
