import Mathlib
import RobotBlocks.CommandLine.Control
import RobotBlocks.CommandLine.World
import RobotBlocks.Link.Script
import RobotBlocks.Proofs.Deframing
import RobotBlocks.Proofs.Lines
import RobotBlocks.Proofs.Recovery

/-! The report on a capture of calls that all succeeded: every packet that was sent, and the listing
of every program. -/

namespace RobotBlocks

variable {σ : Type}

namespace Call

/-- The packets that a call sends. -/
def packets : Call → List Packet
  | upload program => uploadPackets program
  | run => [.bare .run]
  | stop => [.bare .stop]
  | clear => [.bare .clear]

def Succeeds (t : Transport σ) (pacing : Pacing) (u : Uploader σ) : Call → Prop
  | upload program => ∃ report, (t.upload pacing program u).result = .ok report
  | run => (t.command .run u).result = .ok ()
  | stop => (t.command .stop u).result = .ok ()
  | clear => (t.command .clear u).result = .ok ()

end Call

/-- Calls on one uploader that succeed one after the other. -/
def AllSucceed (t : Transport σ) (pacing : Pacing) : List Call → Uploader σ → Prop
  | [], _ => True
  | call :: rest, u =>
    call.Succeeds t pacing u ∧ AllSucceed t pacing rest (call.perform t pacing u).1

/-- The bytes of packets on the line, each in its frame. -/
def framed (packets : List Packet) : List UInt8 :=
  packets.flatMap fun p => Frame.encode p.toBytes

def packetLines (packets : List Packet) : String := String.join (packets.map (·.text ++ "\n"))

/-- What is to be reported of calls behind some earlier uploads: a line for each packet, and behind
the last packet of an upload, which ends it, the listing of its program. -/
def callReport (earlier : Nat) : List Call → String
  | [] => ""
  | .upload program :: rest =>
    packetLines (uploadPackets program) ++ listing program ("upload " ++ toString (earlier + 1))
      ++ callReport (earlier + 1) rest
  | call :: rest => packetLines call.packets ++ callReport earlier rest

theorem accepted_command {t : Transport σ} {c : Command} {u : Uploader σ}
    (h : (t.command c u).result = .ok ()) :
    accepted (t.command c u).effects = framed [.bare c] :=
  t.accepted_run _ _ _ h

theorem accepted_perform {t : Transport σ} {pacing : Pacing} {u : Uploader σ} {call : Call}
    (h : call.Succeeds t pacing u) :
    accepted (call.perform t pacing u).2 = framed call.packets := by
  cases call with
  | upload program =>
    obtain ⟨report, hreport⟩ := h
    exact accepted_upload hreport
  | run => exact accepted_command h
  | stop => exact accepted_command h
  | clear => exact accepted_command h

/-- The bytes of a session are the frames of all its packets. -/
theorem accepted_session {t : Transport σ} {pacing : Pacing} {calls : List Call} {u : Uploader σ}
    (h : AllSucceed t pacing calls u) :
    accepted (session t pacing calls u).2 = framed (calls.flatMap Call.packets) := by
  induction calls generalizing u with
  | nil => rfl
  | cons call rest ih =>
    obtain ⟨hcall, hrest⟩ := h
    simp only [session, accepted_append, accepted_perform hcall, ih hrest]
    simp [framed]

theorem decodeAll_framed (packets : List Packet) :
    Frame.decodeAll (framed packets) = packets.map Receiver.arrival := by
  have hne : ∀ bytes ∈ packets.map Packet.toBytes, bytes ≠ [] := by
    simp [Packet.toBytes]
  have hframes := Frame.Decoder.push_frames _ hne
  rw [List.flatMap_map] at hframes
  rw [Frame.decodeAll, framed, hframes, List.map_map]
  rfl

namespace Receiver

/-- What is printed for packets that arrive whole. -/
def reports (r : Receiver) : List Packet → List String
  | [] => []
  | p :: rest => (r.receive p).report p :: (r.receive p).reports rest

theorem frames_arrivals (r : Receiver) (packets : List Packet) (done : List String) :
    frames (packets.map arrival) r done = done.reverse ++ r.reports packets := by
  induction packets generalizing r done with
  | nil => simp [frames, reports]
  | cons p packets ih =>
    have hframe : r.frame (arrival p) = ((r.receive p).report p, r.receive p) := by
      simp [frame, arrival, Packet.parse?_toBytes]
    simp [frames, reports, hframe, ih]

theorem reports_append (r : Receiver) (xs ys : List Packet) :
    r.reports (xs ++ ys) = r.reports xs ++ (xs.foldl receive r).reports ys := by
  induction xs generalizing r with
  | nil => rfl
  | cons x xs ih => simp [reports, ih]

/-- Packets that end no upload are reported by a line each. -/
theorem reports_of_ne {packets : List Packet} (h : ∀ p ∈ packets, p.command ≠ .closing)
    (r : Receiver) : r.reports packets = packets.map (·.text ++ "\n") := by
  induction packets generalizing r with
  | nil => rfl
  | cons p packets ih =>
    obtain ⟨hp, hpackets⟩ := List.forall_mem_cons.mp h
    simp [reports, report, hp, ih hpackets]

theorem foldl_receive_chunks (r : Receiver) (chunks : List (List UInt8)) :
    (chunks.map fun c => (⟨.chunk, c⟩ : Packet)).foldl receive r =
      ⟨r.program ++ chunks.flatten, r.uploads⟩ := by
  induction chunks generalizing r with
  | nil => simp
  | cons c chunks ih => simp [ih, receive, append_append_list]

/-- Whatever a receiver holds, an upload is reported with its own program and the next number. -/
theorem reports_upload (r : Receiver) (program : List UInt8) :
    String.join (r.reports (uploadPackets program)) = packetLines (uploadPackets program)
        ++ listing program ("upload " ++ toString (r.uploads + 1)) ∧
      ((uploadPackets program).foldl receive r).uploads = r.uploads + 1 := by
  -- The first packet drops whatever was received before, so only this program is left at the end.
  let front : List Packet := .bare .opening :: (programChunks program).map fun c => ⟨.chunk, c⟩
  have hpackets : uploadPackets program = front ++ [.bare .closing] := rfl
  have hfront : ∀ p ∈ front, p.command ≠ .closing := by simp [front, Packet.bare]
  have hstate : front.foldl receive r = ⟨program.toArray, r.uploads⟩ := by
    rw [List.foldl_cons, foldl_receive_chunks, flatten_programChunks]
    simp [receive, Packet.bare]
  rw [hpackets, reports_append, List.foldl_append, hstate, reports_of_ne hfront]
  constructor
  · simp [reports, report, receive, Packet.bare, packetLines, String.append_assoc]
  · rfl

theorem reports_calls (r : Receiver) (calls : List Call) :
    String.join (r.reports (calls.flatMap Call.packets)) = callReport r.uploads calls := by
  induction calls generalizing r with
  | nil => rfl
  | cons call rest ih =>
    rw [List.flatMap_cons, reports_append, String.join_append, ih]
    cases call with
    | upload program =>
      obtain ⟨hreports, huploads⟩ := r.reports_upload program
      rw [Call.packets, hreports, huploads, callReport]
    | run | stop | clear =>
      rw [reports_of_ne (by simp [Call.packets, Packet.bare])]
      rfl

end Receiver

theorem captureReport_framed (calls : List Call) :
    captureReport (framed (calls.flatMap Call.packets)) = callReport 0 calls := by
  rw [captureReport, decodeAll_framed, Receiver.frames_arrivals, List.reverse_nil, List.nil_append]
  exact Receiver.reports_calls .new calls

theorem inLines_packetLines (packets : List Packet) : InLines (packetLines packets) := by
  refine ⟨packets.map Packet.text, by rw [packetLines, List.map_map]; rfl, ?_⟩
  simpa using fun p _ => p.quiet_text

theorem inLines_callReport (earlier : Nat) (calls : List Call) :
    InLines (callReport earlier calls) := by
  induction calls generalizing earlier with
  | nil => exact ⟨[], rfl, by simp⟩
  | cons call rest ih =>
    cases call with
    | upload program =>
      have hname : OneLine ("upload " ++ toString (earlier + 1)) :=
        OneLine.append (by decide) (Text.oneLine_toString _)
      exact ((inLines_packetLines _).append (inLines_listing program hname)).append (ih _)
    | run | stop | clear => exact (inLines_packetLines _).append (ih _)

/-- No line of such a text begins with a mark. -/
theorem InLines.not_marked {text : String} (h : InLines text) :
    ∀ line ∈ text.toList.splitOn '\n', ¬"!!".toList <+: line ∧ ¬"??".toList <+: line := by
  obtain ⟨lines, rfl, hlines⟩ := h
  induction lines with
  | nil => decide
  | cons line lines ih =>
    obtain ⟨hline, hrest⟩ := List.forall_mem_cons.mp hlines
    have htext : (String.join ((line :: lines).map (· ++ "\n"))).toList =
        line.toList ++ '\n' :: (String.join (lines.map (· ++ "\n"))).toList := by
      simp
    rw [htext, splitOn_append_cons hline.oneLine]
    exact List.forall_mem_cons.mpr ⟨hline.not_marked, ih hrest⟩

namespace CommandLine

/-- After `before`, a file holds these bytes: reading it gives them, whatever else it does. -/
def Host.Holds {m : Type → Type} [Monad m] (host : Host m) (before : m Unit) (file : String)
    (bytes : List UInt8) : Prop :=
  (do before; host.read file) = do before; discard (host.read file); return .ok bytes

/-- A world holds what is read from it. -/
theorem World.holds (listening : String → Bool) {w : World} {file : String} {bytes : List UInt8}
    (h : w.read file = .ok bytes) : (World.host listening).Holds (set w) file bytes := by
  have hread : ((World.host listening).read file).run w = (w.read file, w) := rfl
  funext w'
  show ((World.host listening).read file).run w = _
  rw [hread, h]
  rfl

section Decode

variable {args : List String} {o : Control.Options} {file : String} {capture : List UInt8}
  (hargs : Control.options args = .ok o) (haction : o.action = .decode file)

include hargs haction

/-- The command that decodes a capture prints the report on it and does nothing else. -/
theorem start_decode {m : Type → Type} [Monad m] [LawfulMonad m] {host : Host m} {before : m Unit}
    (hread : host.Holds before file capture) :
    (do before; Control.start host args) = do
      before
      discard (host.read file)
      host.print (captureReport capture)
      return 0 := by
  -- what follows the reading, for any content
  let next (content : Except IoFault (List UInt8)) : m Nat := Run.exit host do
    let capture ← orFail (.ofIo ("failed to read " ++ file)) content
    host.print (captureReport capture)
  have hstart : Control.start host args = host.read file >>= next := by
    simp [Control.start, hargs, Control.run, haction, Control.decodeFile, Run.exit, next]
  have hnext : next (.ok capture) = do host.print (captureReport capture); return 0 := by
    simp [next, Run.exit, orFail, Except.mapError]
  rw [Host.Holds] at hread
  rw [hstart, ← bind_assoc, hread]
  simp [hnext]

theorem start_decode_world (listening : String → Bool) {w : World}
    (hread : w.read file = .ok capture) :
    (Control.start (World.host listening) args).run w =
      (0, { w with printed := w.printed ++ captureReport capture }) :=
  congrFun (start_decode hargs haction (World.holds listening hread)) w

end Decode

/-- Decoding the bytes of calls that all succeeded prints every packet that they sent, in order,
with the listing of each program behind the packet that ends its upload, whatever system the command
runs on. No line reports an error or an unknown packet. -/
theorem capture_reports_calls {t : Transport σ} {pacing : Pacing} {calls : List Call}
    {u : Uploader σ} (hcalls : AllSucceed t pacing calls u) {args : List String}
    {o : Control.Options} {file : String} (hargs : Control.options args = .ok o)
    (haction : o.action = .decode file) :
    let capture := accepted (session t pacing calls u).2
    (∀ (m : Type → Type) [Monad m] [LawfulMonad m] (host : Host m) (before : m Unit),
      host.Holds before file capture →
        (do before; Control.start host args) = do
          before
          discard (host.read file)
          host.print (callReport 0 calls)
          return 0) ∧
      (∀ (listening : String → Bool) (w : World), w.read file = .ok capture →
        (Control.start (World.host listening) args).run w =
          (0, { w with printed := w.printed ++ callReport 0 calls })) ∧
      ∀ line ∈ (callReport 0 calls).toList.splitOn '\n',
        ¬"!!".toList <+: line ∧ ¬"??".toList <+: line := by
  intro capture
  have hreport : captureReport capture = callReport 0 calls := by
    rw [← captureReport_framed, ← accepted_session hcalls]
  rw [← hreport]
  refine ⟨fun m _ _ host before hread => start_decode hargs haction hread,
    fun listening w hread => start_decode_world hargs haction listening hread, ?_⟩
  rw [hreport]
  exact (inLines_callReport 0 calls).not_marked

/-- A delimiter in a program that cannot be listed to its end, then an upload of nothing. -/
def briefCalls : List Call := [.upload [0x06, 0xC0], .run, .upload []]

/-- It takes two bytes at a time. -/
def briefUploader : Uploader Scripted := ⟨.new ⟨none, none, none, some 2⟩, .idle⟩

def briefCapture : List UInt8 :=
  accepted (session Scripted.transport .default briefCalls briefUploader).2

theorem capture_reports_calls_brief :
    AllSucceed Scripted.transport .default briefCalls briefUploader ∧
      ((Control.start (World.host fun _ => false) ["decode", "c"]).run
        (World.ofFiles [("c", briefCapture)])).2.printed =
        "BEGIN\nCHUNK [2 bytes] [06, C0]\nEND\n== upload 1 (2 bytes) ==\n0000  STOP        \n"
          ++ "0001  ?? unknown opcode 0xC0 at offset 1: [C0]\nRUN\n"
          ++ "BEGIN\nEND\n== upload 2 (0 bytes) ==\n" := by
  have hcalls : AllSucceed Scripted.transport .default briefCalls briefUploader := by
    refine ⟨⟨⟨2, 1, .ended⟩, by decide +kernel⟩, ?_, ⟨⟨0, 0, .ended⟩, by decide +kernel⟩, trivial⟩
    show (Scripted.transport.command .run _).result = .ok ()
    decide +kernel
  have hargs : Control.options ["decode", "c"] =
      .ok ⟨none, none, none, none, none, false, .decode "c"⟩ := by decide +kernel
  have hread : (World.ofFiles [("c", briefCapture)]).read "c" = .ok briefCapture := by cbv
  refine ⟨hcalls, ?_⟩
  rw [(capture_reports_calls hcalls hargs rfl).2.1 (fun _ => false) _ hread]
  decide +kernel

end CommandLine

end RobotBlocks
