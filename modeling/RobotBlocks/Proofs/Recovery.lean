import Mathlib
import RobotBlocks.Link.Capture
import RobotBlocks.Link.Upload
import RobotBlocks.Proofs.Framing

/-! Uploads after faults: what a receiver makes of all bytes that a transport has taken, when an
upload succeeds at last. -/

namespace RobotBlocks

variable {σ : Type}

/-- What is asked of an uploader. -/
inductive Call where
  | upload (program : List UInt8)
  | run
  | stop
  | clear
  deriving DecidableEq, Repr

/-- The uploader after a call, whatever came of the call, and the effects of the call. -/
def Call.perform (t : Transport σ) (pacing : Pacing) (u : Uploader σ) :
    Call → Uploader σ × List Effect
  | upload program =>
    ((t.upload pacing program u).uploader, (t.upload pacing program u).effects)
  | run => ((t.command .run u).uploader, (t.command .run u).effects)
  | stop => ((t.command .stop u).uploader, (t.command .stop u).effects)
  | clear => ((t.command .clear u).uploader, (t.command .clear u).effects)

/-- Calls on one uploader, one after the other. -/
def session (t : Transport σ) (pacing : Pacing) : List Call → Uploader σ → Uploader σ × List Effect
  | [], u => (u, [])
  | call :: rest, u =>
    let (u, effects) := call.perform t pacing u
    let (u, later) := session t pacing rest u
    (u, effects ++ later)

/-- The bytes that a transport has taken. -/
def accepted (effects : List Effect) : List UInt8 :=
  effects.flatMap fun
    | .wrote bytes => bytes
    | _ => []

/-- The packets of an upload, in order. -/
def uploadPackets (program : List UInt8) : List Packet :=
  .bare .opening :: (programChunks program).map (⟨.chunk, ·⟩) ++ [.bare .closing]

/-- The programs that a receiver completes. -/
def Receiver.completed (r : Receiver) : List Frame.Result → List (List UInt8)
  | [] => []
  | f :: rest =>
    let next := (r.frame f).2
    (if next.uploads = r.uploads then [] else [next.program.toList]) ++ next.completed rest

@[simp] theorem accepted_nil : accepted [] = [] := rfl

@[simp] theorem accepted_append (a b : List Effect) :
    accepted (a ++ b) = accepted a ++ accepted b := by
  simp [accepted]

@[simp] theorem accepted_wrote (bytes : List UInt8) : accepted [.wrote bytes] = bytes := by
  simp [accepted]

/-- The report on a run of an upload's plan. -/
def Outcome.report (o : Outcome σ Unit) (program : List UInt8) : Outcome σ UploadReport :=
  ⟨o.result.map fun _ => ⟨program.length, chunkTotal program, o.uploader.state⟩,
    o.uploader, o.effects⟩

namespace Transport

variable (t : Transport σ)

/-- Writing all bytes, when some effects came before, last first. -/
def writeAll (turns : Nat) (bytes : List UInt8) (s : σ) (done : List Effect) :
    Except IoFault Unit × σ × List Effect :=
  (t.link.writeAll turns bytes).run (s, done)

/-- Sending a frame, when some effects came before, last first. -/
def sendFrame (frame : List UInt8) (s : σ) (done : List Effect) :
    Except IoFault Unit × σ × List Effect :=
  (t.link.sendFrame frame).run (s, done)

/-- Running steps, when some effects came before, last first. -/
def run (steps : List Step) (u : Uploader σ) (done : List Effect) : Outcome σ Unit :=
  outcome (t.link.run steps u.state) u.transport done

theorem run_bind {τ α β : Type} (act : StateM τ α) (next : α → StateM τ β) (s : τ) :
    (act >>= next).run s = (next (act.run s).1).run (act.run s).2 :=
  rfl

section WriteAll

variable {turns n : Nat} {b : UInt8} {bytes : List UInt8} {s s' : σ} {fault : IoFault}

theorem write_link_of_error (h : t.write s bytes = (.error fault, s')) (done : List Effect) :
    (t.link.write bytes).run (s, done) = (.error fault, s', done) := by
  simp [link, StateT.run, h]

theorem write_link_of_ok (h : t.write s bytes = (.ok n, s')) (done : List Effect) :
    (t.link.write bytes).run (s, done) = (.ok n, s', .wrote (bytes.take n) :: done) := by
  simp [link, StateT.run, h]

@[simp] theorem writeAll_nil (turns : Nat) (s : σ) (done : List Effect) :
    t.writeAll turns [] s done = (.ok (), s, done) := by
  cases turns <;> rfl

theorem writeAll_of_error (h : t.write s (b :: bytes) = (.error fault, s')) (done : List Effect) :
    t.writeAll (turns + 1) (b :: bytes) s done = (.error fault, s', done) := by
  simp only [writeAll, Link.writeAll, run_bind, t.write_link_of_error h]
  rfl

theorem writeAll_of_zero (h : t.write s (b :: bytes) = (.ok 0, s')) (done : List Effect) :
    t.writeAll (turns + 1) (b :: bytes) s done = (.error .nothingTaken, s', .wrote [] :: done) := by
  simp only [writeAll, Link.writeAll, run_bind, t.write_link_of_ok h]
  rfl

theorem writeAll_of_succ (h : t.write s (b :: bytes) = (.ok (n + 1), s')) (done : List Effect) :
    t.writeAll (turns + 1) (b :: bytes) s done =
      t.writeAll turns ((b :: bytes).drop (n + 1)) s'
        (.wrote ((b :: bytes).take (n + 1)) :: done) := by
  simp only [writeAll, Link.writeAll, run_bind, t.write_link_of_ok h]

end WriteAll

section SendFrame

variable {frame : List UInt8} {s s₁ s' : σ} {done done₁ : List Effect} {fault : IoFault}

theorem sendFrame_of_unwritten
    (h : t.writeAll frame.length frame s done = (.error fault, s₁, done₁)) :
    t.sendFrame frame s done = (.error fault, s₁, done₁) := by
  rw [writeAll] at h
  rw [sendFrame, Link.sendFrame, run_bind, h]
  rfl

theorem sendFrame_of_error (h : t.writeAll frame.length frame s done = (.ok (), s₁, done₁))
    (hflush : t.flush s₁ = (.error fault, s')) :
    t.sendFrame frame s done = (.error fault, s', done₁) := by
  rw [writeAll] at h
  rw [sendFrame, Link.sendFrame, run_bind, h]
  simp [link, StateT.run, hflush]

theorem sendFrame_of_ok (h : t.writeAll frame.length frame s done = (.ok (), s₁, done₁))
    (hflush : t.flush s₁ = (.ok (), s')) :
    t.sendFrame frame s done = (.ok (), s', .flushed :: done₁) := by
  rw [writeAll] at h
  rw [sendFrame, Link.sendFrame, run_bind, h]
  simp [link, StateT.run, hflush]

end SendFrame

section Run

variable (rest : List Step) (u : Uploader σ) (done : List Effect)

@[simp] theorem run_nil : t.run [] u done = ⟨.ok (), u, done.reverse⟩ := rfl

@[simp] theorem run_log (event : LinkEvent) :
    t.run (.log event :: rest) u done = t.run rest u (.logged event :: done) := rfl

@[simp] theorem run_pause (ms : Nat) :
    t.run (.pause ms :: rest) u done = t.run rest u (.paused ms :: done) := rfl

@[simp] theorem run_enter (state : UploadState) :
    t.run (.enter state :: rest) u done = t.run rest { u with state := state } done := rfl

variable {packet : Packet} {u : Uploader σ} {done done' : List Effect} {s' : σ} {fault : IoFault}

theorem run_send_of_ok
    (h : t.sendFrame (Frame.encode packet.toBytes) u.transport done = (.ok (), s', done')) :
    t.run (.send packet :: rest) u done = t.run rest { u with transport := s' } done' := by
  rw [sendFrame] at h
  rw [run, outcome, Link.run, run_bind, h]
  rfl

theorem run_send_of_error
    (h : t.sendFrame (Frame.encode packet.toBytes) u.transport done = (.error fault, s', done')) :
    t.run (.send packet :: rest) u done =
      ⟨.error (.transport packet.command fault), { u with transport := s' },
        (.logged (.sendFailed fault packet.command u.state) :: done').reverse⟩ := by
  rw [sendFrame] at h
  rw [run, outcome, Link.run, run_bind, h]
  rfl

end Run

theorem upload_of_lt {program : List UInt8} (h : maxProgram < program.length) (pacing : Pacing)
    (u : Uploader σ) :
    t.upload pacing program u =
      ⟨.error (.programTooLarge program.length), ⟨u.transport, .idle⟩, []⟩ := by
  rw [upload, Link.upload, if_pos h]
  rfl

theorem upload_of_le {program : List UInt8} (h : program.length ≤ maxProgram) (pacing : Pacing)
    (u : Uploader σ) :
    t.upload pacing program u =
      (t.run (Step.plan pacing program) ⟨u.transport, .idle⟩ []).report program := by
  rw [upload, Link.upload, if_neg (Nat.not_lt.mpr h)]
  rfl

/-- A complete write has given all bytes to the transport, in order. -/
theorem accepted_writeAll {turns : Nat} {bytes : List UInt8} {s s' : σ} {done done' : List Effect}
    (h : t.writeAll turns bytes s done = (.ok (), s', done')) :
    accepted done'.reverse = accepted done.reverse ++ bytes := by
  induction turns generalizing bytes s done with
  | zero =>
    cases bytes with
    | nil =>
      cases h
      simp
    | cons b bytes => cases h
  | succ turns ih =>
    cases bytes with
    | nil =>
      cases h
      simp
    | cons b bytes =>
      rcases hw : t.write s (b :: bytes) with ⟨fault | _ | n, s₁⟩
      · cases (t.writeAll_of_error hw done).symm.trans h
      · cases (t.writeAll_of_zero hw done).symm.trans h
      · rw [t.writeAll_of_succ hw] at h
        rw [ih h]
        simp

theorem accepted_sendFrame {frame : List UInt8} {s s' : σ} {done done' : List Effect}
    (h : t.sendFrame frame s done = (.ok (), s', done')) :
    accepted done'.reverse = accepted done.reverse ++ frame := by
  rcases hw : t.writeAll frame.length frame s done with ⟨fault | _, s₁, done₁⟩
  · cases (t.sendFrame_of_unwritten hw).symm.trans h
  · have hall := t.accepted_writeAll hw
    rcases hf : t.flush s₁ with ⟨fault | _, s₂⟩
    · cases (t.sendFrame_of_error hw hf).symm.trans h
    · cases (t.sendFrame_of_ok hw hf).symm.trans h
      simpa [accepted] using hall

end Transport

/-- The packets that some steps send. -/
def Step.packets (steps : List Step) : List Packet :=
  steps.filterMap fun
    | .send packet => some packet
    | _ => none

@[simp] theorem Step.packets_append (a b : List Step) :
    packets (a ++ b) = packets a ++ packets b := by
  simp [packets]

/-- A run without a failure has sent the frames of all its packets. -/
theorem Transport.accepted_run (t : Transport σ) (steps : List Step) (u : Uploader σ)
    (done : List Effect) (h : (t.run steps u done).result = .ok ()) :
    accepted (t.run steps u done).effects = accepted done.reverse ++
      (Step.packets steps).flatMap fun p => Frame.encode p.toBytes := by
  induction steps generalizing u done with
  | nil => simp [Step.packets]
  | cons step rest ih =>
    cases step with
    | log event => simpa [Step.packets, accepted] using ih u (.logged event :: done) h
    | pause ms => simpa [Step.packets, accepted] using ih u (.paused ms :: done) h
    | enter state => simpa [Step.packets] using ih { u with state := state } done h
    | send packet =>
      have hpackets : Step.packets (.send packet :: rest) = packet :: Step.packets rest := rfl
      rw [hpackets, List.flatMap_cons]
      rcases hsend : t.sendFrame (Frame.encode packet.toBytes) u.transport done with
        ⟨fault | _, s', done'⟩
      · rw [t.run_send_of_error rest hsend] at h
        cases h
      · rw [t.run_send_of_ok rest hsend] at h ⊢
        rw [ih _ _ h, t.accepted_sendFrame hsend, List.append_assoc]

theorem packets_chunkSteps (pacing : Pacing) (total : Nat) (chunks : List (List UInt8 × Nat)) :
    Step.packets (chunks.flatMap fun (chunk, i) => Step.chunkSteps pacing total chunk i) =
      chunks.map fun (chunk, _) => ⟨.chunk, chunk⟩ := by
  induction chunks with
  | nil => rfl
  | cons c chunks ih =>
    rw [List.flatMap_cons, Step.packets_append, ih]
    rfl

theorem packets_plan (pacing : Pacing) (program : List UInt8) :
    Step.packets (Step.plan pacing program) = uploadPackets program := by
  have hchunks : (((programChunks program).zipIdx 1).map fun (chunk, _) =>
      (⟨.chunk, chunk⟩ : Packet)) = (programChunks program).map (⟨.chunk, ·⟩) := by
    conv_rhs => rw [← List.zipIdx_map_fst 1 (programChunks program)]
    rw [List.map_map]
    rfl
  simp only [Step.plan, Step.packets_append, packets_chunkSteps, hchunks]
  rfl

/-- A successful upload has sent the frames of its packets and nothing else. -/
theorem accepted_upload {t : Transport σ} {pacing : Pacing} {program : List UInt8} {u : Uploader σ}
    {report : UploadReport} (h : (t.upload pacing program u).result = .ok report) :
    accepted (t.upload pacing program u).effects =
      (uploadPackets program).flatMap fun p => Frame.encode p.toBytes := by
  rcases Nat.lt_or_ge maxProgram program.length with hlen | hlen
  · rw [t.upload_of_lt hlen] at h
    cases h
  · rw [t.upload_of_le hlen] at h ⊢
    have hrun : (t.run (Step.plan pacing program) ⟨u.transport, .idle⟩ []).result = .ok () := by
      cases hr : (t.run (Step.plan pacing program) ⟨u.transport, .idle⟩ []).result with
      | error e => simp [Outcome.report, hr, Except.map] at h
      | ok _ => rfl
    have hall := t.accepted_run _ _ _ hrun
    rw [packets_plan] at hall
    simpa [Outcome.report] using hall

theorem Command.ofByte?_byte (c : Command) : Command.ofByte? c.byte = some c := by
  cases c <;> decide

/-- A packet is parsed back from its bytes. -/
theorem Packet.parse?_toBytes (p : Packet) : Packet.parse? p.toBytes = some p := by
  simp [toBytes, parse?, Command.ofByte?_byte]

theorem flatten_cutChunks {α : Type} {size turns : Nat} {items : List α} (hsize : 0 < size)
    (h : items.length ≤ turns) : (cutChunks size turns items).flatten = items := by
  induction turns generalizing items with
  | zero => simp_all [cutChunks]
  | succ turns ih =>
    cases items with
    | nil => rfl
    | cons x items =>
      have hrest : ((x :: items).drop size).length ≤ turns := by
        rw [List.length_drop]
        omega
      rw [cutChunks, List.flatten_cons, ih hrest, List.take_append_drop]
      simp

/-- The chunks of a program make up the program. -/
theorem flatten_programChunks (program : List UInt8) : (programChunks program).flatten = program :=
  flatten_cutChunks (by decide) le_rfl

namespace Receiver

/-- What a receiver gets for a packet that arrives whole. -/
def arrival (p : Packet) : Frame.Result := .ok p.toBytes

@[simp] theorem frame_arrival (r : Receiver) (p : Packet) :
    (r.frame (arrival p)).2 = r.receive p := by
  simp [frame, arrival, Packet.parse?_toBytes]

theorem completed_append (r : Receiver) (xs ys : List Frame.Result) :
    r.completed (xs ++ ys) =
      r.completed xs ++ (xs.foldl (fun r f => (r.frame f).2) r).completed ys := by
  induction xs generalizing r with
  | nil => rfl
  | cons x xs ih => simp [completed, ih]

theorem append_append_list {α : Type} (a : Array α) (xs ys : List α) :
    a ++ xs ++ ys = a ++ (xs ++ ys) := by
  apply Array.toList_inj.mp
  simp

/-- Chunks are appended to the program and complete nothing. -/
theorem completed_chunks (r : Receiver) (chunks : List (List UInt8)) (rest : List Frame.Result) :
    r.completed (chunks.map (fun c => arrival ⟨.chunk, c⟩) ++ rest) =
      completed ⟨r.program ++ chunks.flatten, r.uploads⟩ rest := by
  induction chunks generalizing r with
  | nil => simp
  | cons c chunks ih =>
    simp [completed, receive, ih, append_append_list]

/-- The packets of an upload complete exactly its program, whatever came before. -/
theorem completed_upload (r : Receiver) (program : List UInt8) :
    r.completed ((uploadPackets program).map arrival) = [program] := by
  have hpackets : (uploadPackets program).map arrival = arrival (.bare .opening) ::
      ((programChunks program).map (fun c => arrival ⟨.chunk, c⟩)
        ++ [arrival (.bare .closing)]) := by
    simp [uploadPackets]
  rw [hpackets, completed, frame_arrival]
  simp only [completed_chunks, completed, frame_arrival, receive, Packet.bare,
    flatten_programChunks]
  simp

end Receiver

/-- What an upload sends, taken by a decoder in any state. -/
theorem push_uploadPackets (d : Frame.Decoder) (program : List UInt8) :
    d.push ((uploadPackets program).flatMap fun p => Frame.encode p.toBytes) =
      (d.close.toList ++ (uploadPackets program).map Receiver.arrival, .new) := by
  have hne (p : Packet) : p.toBytes ≠ [] := List.cons_ne_nil _ _
  generalize hrest : (programChunks program).map (⟨.chunk, ·⟩) ++ [Packet.bare .closing] = rest
  have hpackets : uploadPackets program = .bare .opening :: rest := by rw [← hrest]; rfl
  have hframes := Frame.Decoder.push_frames (rest.map Packet.toBytes) (by simp [hne])
  rw [List.flatMap_map] at hframes
  rw [hpackets, List.flatMap_cons, Frame.Decoder.push_append,
    Frame.Decoder.push_encode d (hne _)]
  simp only [hframes]
  simp [Receiver.arrival]

/-- However the calls before it ended, a successful upload is received: the last program that a
receiver of all accepted bytes completes is the one uploaded. From where the upload began on, it
gets what the first delimiter closes of an unfinished frame, if anything, and then exactly the
packets of the upload. -/
theorem upload_recovers (t : Transport σ) (pacing : Pacing) (calls : List Call) (u : Uploader σ)
    (program : List UInt8) {report : UploadReport}
    (h : (t.upload pacing program (session t pacing calls u).1).result = .ok report) :
    let before := accepted (session t pacing calls u).2
    let sent := accepted (t.upload pacing program (session t pacing calls u).1).effects
    let unfinished := (Frame.Decoder.new.push before).2
    (Receiver.new.completed (Frame.decodeAll (before ++ sent))).getLast? = some program ∧
      Frame.decodeAll (before ++ sent) = Frame.decodeAll before ++ (unfinished.push sent).1 ∧
      (unfinished.push sent).1 = unfinished.close.toList ++
        (uploadPackets program).map (fun p => .ok p.toBytes) ∧
      ∀ p ∈ uploadPackets program, Packet.parse? p.toBytes = some p := by
  intro before sent unfinished
  have hsent : sent = (uploadPackets program).flatMap fun p => Frame.encode p.toBytes :=
    accepted_upload h
  have hframes : (unfinished.push sent).1 = unfinished.close.toList ++
      (uploadPackets program).map Receiver.arrival := by
    rw [hsent, push_uploadPackets]
  have hall : Frame.decodeAll (before ++ sent) =
      Frame.decodeAll before ++ (unfinished.push sent).1 := by
    rw [Frame.decodeAll, Frame.Decoder.push_append]
    rfl
  refine ⟨?_, hall, hframes, fun p _ => p.parse?_toBytes⟩
  rw [hall, hframes, ← List.append_assoc, Receiver.completed_append, Receiver.completed_upload]
  simp

/-- A transport that takes two bytes at a time and fails at the second write. -/
def flakyTransport : Transport Nat where
  write s bytes :=
    if s = 1 then (.error .linkDropped, s + 1) else (.ok (min 2 bytes.length), s + 1)
  flush s := (.ok (), s)

/-- An upload that is cut off in its first frame. -/
def flakyHistory : Uploader Nat × List Effect :=
  session flakyTransport .default [.upload [1, 2, 3]] ⟨0, .idle⟩

def flakyRetry : Outcome Nat UploadReport :=
  flakyTransport.upload .default [0xC0, 7] flakyHistory.1

theorem upload_recovers_flaky :
    flakyRetry.result = .ok ⟨2, 1, .ended⟩ ∧
      (Frame.Decoder.new.push (accepted flakyHistory.2)).2.close = some (.ok [0xA0]) ∧
      (Receiver.new.completed
        (Frame.decodeAll (accepted flakyHistory.2 ++ accepted flakyRetry.effects))).getLast? =
          some [0xC0, 7] := by
  have hresult : flakyRetry.result = .ok ⟨2, 1, .ended⟩ := by decide +kernel
  have hrecovers := upload_recovers flakyTransport .default [.upload [1, 2, 3]] ⟨0, .idle⟩ [0xC0, 7]
    hresult
  exact ⟨hresult, by decide +kernel, hrecovers.1⟩

end RobotBlocks
