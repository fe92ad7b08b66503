import Mathlib
import RobotBlocks.Link.Script
import RobotBlocks.Proofs.Layout
import RobotBlocks.Proofs.Sending

/-! The times of an upload. Only pauses take time; each packet of a program is sent at a time that
follows from its place and the pacing. -/

namespace RobotBlocks

variable {σ α : Type}

/-- Chunks that make up some items, all full but the last, which is not empty. -/
structure CutInto (size : Nat) (items : List α) (chunks : List (List α)) : Prop where
  flatten : chunks.flatten = items
  full : ∀ c ∈ chunks.dropLast, c.length = size
  last : ∀ c ∈ chunks.getLast?, 1 ≤ c.length ∧ c.length ≤ size

namespace CutInto

variable {size : Nat} {items : List α} {chunks : List (List α)}

theorem nil : CutInto size ([] : List α) [] := ⟨rfl, by simp, by simp⟩

/-- A chunk in front of others is full. -/
theorem cons {c : List α} (h : CutInto size items chunks) (hc : 1 ≤ c.length ∧ c.length ≤ size)
    (hfull : chunks = [] ∨ c.length = size) : CutInto size (c ++ items) (c :: chunks) where
  flatten := by rw [List.flatten_cons, h.flatten]
  full := by
    cases chunks with
    | nil => simp
    | cons d chunks =>
      rw [List.dropLast_cons_cons]
      exact List.forall_mem_cons.mpr ⟨hfull.resolve_left (List.cons_ne_nil d chunks), h.full⟩
  last := by
    cases chunks with
    | nil => simpa using hc
    | cons d chunks =>
      rw [List.getLast?_cons_cons]
      exact h.last

theorem cutChunks {turns : Nat} (hsize : 0 < size) (h : items.length ≤ turns) :
    CutInto size items (cutChunks size turns items) := by
  induction turns generalizing items with
  | zero =>
    obtain rfl := List.eq_nil_of_length_eq_zero (Nat.le_zero.mp h)
    exact nil
  | succ turns ih =>
    cases items with
    | nil => exact nil
    | cons x items =>
      have hlen : (x :: items).length = items.length + 1 := rfl
      have hrest : ((x :: items).drop size).length ≤ turns := by
        rw [List.length_drop]
        omega
      have hcut := (ih hrest).cons (c := (x :: items).take size)
      rw [List.take_append_drop, List.length_take] at hcut
      apply hcut
      · omega
      · by_cases hlast : size ≤ (x :: items).length
        · right
          omega
        · left
          rw [List.drop_eq_nil_of_le (by omega)]
          cases turns <;> rfl

/-- The number of chunks. -/
theorem length_eq (h : CutInto size items chunks) (hsize : 0 < size) :
    chunks.length = items.length ⌈/⌉ size := by
  rw [Nat.ceilDiv_eq_add_pred_div]
  rcases List.eq_nil_or_concat chunks with rfl | ⟨front, c, rfl⟩
  · have hzero : items.length = 0 := by rw [← h.flatten]; rfl
    rw [hzero]
    exact (Nat.div_eq_of_lt (by omega)).symm
  · have hlast := h.last c (by simp)
    have hfull := h.full
    have hlen : items.length = front.length * size + c.length := by
      rw [List.concat_eq_append, List.dropLast_concat] at hfull
      rw [← h.flatten, List.concat_eq_append, List.length_flatten, List.map_append, List.sum_append,
        List.sum_eq_card_nsmul (front.map List.length) size (by simpa using hfull)]
      simp
    rw [List.length_concat, hlen]
    refine (Nat.div_eq_of_lt_le ?_ ?_).symm
    · rw [Nat.succ_mul]
      omega
    · rw [Nat.succ_mul, Nat.succ_mul]
      omega

end CutInto

theorem cutInto_programChunks (program : List UInt8) :
    CutInto chunkSize program (programChunks program) :=
  .cutChunks (by decide) le_rfl

theorem chunkCount_eq (length size : Nat) : chunkCount length size = length ⌈/⌉ size :=
  (Nat.ceilDiv_eq_add_pred_div length size).symm

/-- A program has as many chunks as are announced for it. -/
theorem length_programChunks (program : List UInt8) :
    (programChunks program).length = chunkTotal program := by
  rw [chunkTotal, chunkCount_eq, (cutInto_programChunks program).length_eq (by decide)]

/-- The clock after some effects. Only pauses take time. -/
def clock (now : Nat) : List Effect → Nat
  | [] => now
  | .paused ms :: rest => clock (now + ms) rest
  | _ :: rest => clock now rest

/-- The bytes that a transport has taken, each with its time. -/
def stamped (now : Nat) : List Effect → List (Nat × UInt8)
  | [] => []
  | .wrote bytes :: rest => bytes.map (now, ·) ++ stamped now rest
  | .paused ms :: rest => stamped (now + ms) rest
  | _ :: rest => stamped now rest

theorem clock_append (now : Nat) (a b : List Effect) :
    clock now (a ++ b) = clock (clock now a) b := by
  induction a generalizing now with
  | nil => rfl
  | cons e a ih => cases e <;> exact ih _

theorem stamped_append (now : Nat) (a b : List Effect) :
    stamped now (a ++ b) = stamped now a ++ stamped (clock now a) b := by
  induction a generalizing now with
  | nil => rfl
  | cons e a ih => cases e <;> simp [stamped, clock, ih]

/-- Writing and flushing take no time. -/
theorem clock_attempts (now : Nat) (attempts : List Attempt) :
    clock now (attempts.flatMap Attempt.effects) = now := by
  induction attempts with
  | nil => rfl
  | cons a attempts ih =>
    rw [List.flatMap_cons, clock_append]
    rcases a with ⟨bytes, _ | n⟩ | _ | _ <;> exact ih

theorem stamped_attempts (now : Nat) (attempts : List Attempt) :
    stamped now (attempts.flatMap Attempt.effects) =
      (attempts.flatMap Attempt.taken).map (now, ·) := by
  induction attempts with
  | nil => rfl
  | cons a attempts ih =>
    rw [List.flatMap_cons, List.flatMap_cons, stamped_append, List.map_append]
    rcases a with ⟨bytes, _ | n⟩ | _ | _ <;>
      simp [Attempt.effects, Attempt.taken, stamped, clock, ih]

/-- When each packet of an upload is to be sent, for a program cut into chunks. -/
def timetable (pacing : Pacing) (start : Nat) (chunks : List (List UInt8)) : List (Nat × Packet) :=
  let time (i : Nat) := start + pacing.settle + i * pacing.interPacket
  (start, .bare .opening) :: chunks.mapIdx (fun i c => (time i, ⟨.chunk, c⟩))
    ++ [(time chunks.length, .bare .closing)]

namespace Step

/-- The clock after some steps. -/
def clockAfter (now : Nat) : List Step → Nat
  | [] => now
  | .pause ms :: rest => clockAfter (now + ms) rest
  | _ :: rest => clockAfter now rest

/-- The packets that some steps send, each with its time. -/
def schedule (now : Nat) : List Step → List (Nat × Packet)
  | [] => []
  | .send packet :: rest => (now, packet) :: schedule now rest
  | .pause ms :: rest => schedule (now + ms) rest
  | _ :: rest => schedule now rest

theorem clockAfter_append (now : Nat) (a b : List Step) :
    clockAfter now (a ++ b) = clockAfter (clockAfter now a) b := by
  induction a generalizing now with
  | nil => rfl
  | cons step a ih => cases step <;> exact ih _

theorem schedule_append (now : Nat) (a b : List Step) :
    schedule now (a ++ b) = schedule now a ++ schedule (clockAfter now a) b := by
  induction a generalizing now with
  | nil => rfl
  | cons step a ih => cases step <;> simp [schedule, clockAfter, ih]

variable (pacing : Pacing) (total : Nat)

/-- Each chunk takes one pause. -/
theorem clockAfter_chunkSteps (now index : Nat) (chunks : List (List UInt8)) :
    clockAfter now ((chunks.zipIdx index).flatMap fun (c, i) => chunkSteps pacing total c i) =
      now + chunks.length * pacing.interPacket := by
  induction chunks generalizing now index with
  | nil => simp [clockAfter]
  | cons c chunks ih =>
    rw [List.zipIdx_cons, List.flatMap_cons, clockAfter_append, ih, List.length_cons, Nat.succ_mul]
    simp only [chunkSteps, clockAfter]
    omega

theorem schedule_chunkSteps (now index : Nat) (chunks : List (List UInt8)) :
    schedule now ((chunks.zipIdx index).flatMap fun (c, i) => chunkSteps pacing total c i) =
      chunks.mapIdx fun i c => (now + i * pacing.interPacket, ⟨.chunk, c⟩) := by
  induction chunks generalizing now index with
  | nil => rfl
  | cons c chunks ih =>
    have hlater (i : Nat) :
        now + pacing.interPacket + i * pacing.interPacket = now + (i + 1) * pacing.interPacket := by
      rw [Nat.succ_mul]
      omega
    rw [List.zipIdx_cons, List.flatMap_cons, schedule_append, ih, List.mapIdx_cons]
    simp [chunkSteps, schedule, clockAfter, hlater]

theorem stateAfter_chunkSteps (state : UploadState) (chunks : List (List UInt8 × Nat)) :
    stateAfter state (chunks.flatMap fun (c, i) => chunkSteps pacing total c i) = state := by
  induction chunks with
  | nil => rfl
  | cons c chunks ih =>
    rw [List.flatMap_cons, stateAfter_append]
    exact ih

theorem schedule_plan (start : Nat) (program : List UInt8) :
    schedule start (plan pacing program) = timetable pacing start (programChunks program) := by
  unfold plan timetable
  rw [schedule_append, schedule_append, clockAfter_append]
  simp only [schedule, clockAfter, schedule_chunkSteps, clockAfter_chunkSteps]
  rfl

theorem clockAfter_plan (start : Nat) (program : List UInt8) :
    clockAfter start (plan pacing program) = start + pacing.settle +
      chunkTotal program * pacing.interPacket + pacing.settle := by
  unfold plan
  rw [clockAfter_append, clockAfter_append]
  simp only [clockAfter, clockAfter_chunkSteps, length_programChunks]

theorem stateAfter_plan (state : UploadState) (program : List UInt8) :
    stateAfter state (plan pacing program) = .ended := by
  unfold plan
  rw [stateAfter_append]
  rfl

end Step

/-- The bytes of a packet's frame, all with one time. -/
def stampedFrame : Nat × Packet → List (Nat × UInt8)
  | (time, packet) => (Frame.encode packet.toBytes).map (time, ·)

namespace Performed

variable {steps : List Step} {attempts : List Attempt} {effects : List Effect}

theorem clock_eq (h : Performed steps attempts effects) (now : Nat) :
    clock now effects = Step.clockAfter now steps := by
  induction h generalizing now with
  | nil => rfl
  | log _ ih | pause _ ih => exact ih _
  | enter _ ih => exact ih _
  | send _ _ ih =>
    rw [clock_append, clock_attempts]
    exact ih now

/-- Each packet's frame is taken at the time of the packet. -/
theorem stamped_eq (h : Performed steps attempts effects) (now : Nat) :
    stamped now effects = (Step.schedule now steps).flatMap stampedFrame := by
  induction h generalizing now with
  | nil => rfl
  | log _ ih | pause _ ih => exact ih _
  | enter _ ih => exact ih _
  | send htried _ ih =>
    rw [stamped_append, stamped_attempts, clock_attempts, htried.taken, ih]
    rfl

end Performed

/-- A transport on which no write and no flush fails, however little is taken at a time, as long as
it is in a good state; and it stays in good states. -/
structure Transport.Reliable (t : Transport σ) (good : σ → Prop) : Prop where
  write : ∀ s bytes, good s → bytes ≠ [] → ∃ n s', t.write s bytes = (.ok n, s') ∧ 1 ≤ n ∧ good s'
  flush : ∀ s, good s → ∃ s', t.flush s = (.ok (), s') ∧ good s'

namespace Transport.Reliable

variable {t : Transport σ} {good : σ → Prop} (ht : t.Reliable good)
include ht

theorem writeAll {turns : Nat} {bytes : List UInt8} (hturns : bytes.length ≤ turns) {s : σ}
    (hs : good s) (done : List Effect) :
    ∃ s' done', t.writeAll turns bytes s done = (.ok (), s', done') ∧ good s' := by
  induction turns generalizing bytes s done with
  | zero =>
    obtain rfl := List.eq_nil_of_length_eq_zero (Nat.le_zero.mp hturns)
    exact ⟨s, done, t.writeAll_nil .., hs⟩
  | succ turns ih =>
    cases bytes with
    | nil => exact ⟨s, done, t.writeAll_nil .., hs⟩
    | cons b bytes =>
      obtain ⟨n, s₁, hw, hpos, hs₁⟩ := ht.write s (b :: bytes) hs (List.cons_ne_nil b bytes)
      obtain ⟨n, rfl⟩ := Nat.exists_eq_add_of_le' hpos
      have hrest : ((b :: bytes).drop (n + 1)).length ≤ turns := by
        rw [List.length_drop]
        omega
      rw [t.writeAll_of_succ hw]
      exact ih hrest hs₁ _

theorem sendFrame (frame : List UInt8) {s : σ} (hs : good s) (done : List Effect) :
    ∃ s' done', t.sendFrame frame s done = (.ok (), s', done') ∧ good s' := by
  obtain ⟨s₁, done₁, hw, hs₁⟩ := ht.writeAll (le_refl frame.length) hs done
  obtain ⟨s₂, hf, hs₂⟩ := ht.flush s₁ hs₁
  exact ⟨s₂, .flushed :: done₁, t.sendFrame_of_ok hw hf, hs₂⟩

theorem run (steps : List Step) {u : Uploader σ} (hu : good u.transport) (done : List Effect) :
    (t.run steps u done).result = .ok () := by
  induction steps generalizing u done with
  | nil => rfl
  | cons step rest ih =>
    cases step with
    | log event => exact ih hu _
    | pause ms => exact ih hu _
    | enter state => exact ih (u := { u with state := state }) hu done
    | send packet =>
      obtain ⟨s', done', heq, hs'⟩ := ht.sendFrame (Frame.encode packet.toBytes) hu done
      rw [t.run_send_of_ok rest heq]
      exact ih hs' done'

end Transport.Reliable

theorem chunkCount?_chunkSize (length : Nat) :
    chunkCount? length chunkSize = some (length ⌈/⌉ chunkSize) := by
  rw [chunkCount?, if_neg (by decide), chunkCount_eq]

/-- No compiled program is too long for an upload. -/
theorem length_program_le {w : Workspace} {out : CompileOutput} (h : compile w = .ok out) :
    out.program.length ≤ maxProgram := by
  obtain ⟨ss, hprogram, hsize⟩ := exists_programCode h
  rwa [hprogram, length_codeBytes (Statement.programCode_wellFormed ss)]

/-- What an upload does on a reliable transport: its report, the time at which each byte is taken, and
when it returns. The chunks are as many as the compiler counts, and no compiled program is too long.
-/
theorem upload_trace {t : Transport σ} {good : σ → Prop} (ht : t.Reliable good) (pacing : Pacing)
    {program : List UInt8} (hlen : program.length ≤ maxProgram) {u : Uploader σ}
    (hu : good u.transport) (start : Nat) :
    let o := t.upload pacing program u
    let n := program.length ⌈/⌉ chunkSize
    o.result = .ok ⟨program.length, n, .ended⟩ ∧ o.uploader.state = .ended ∧
      (∃ chunks, CutInto chunkSize program chunks ∧ chunks.length = n ∧
        stamped start o.effects = (timetable pacing start chunks).flatMap stampedFrame) ∧
      clock start o.effects =
        start + pacing.settle + n * pacing.interPacket + pacing.settle ∧
      chunkCount? program.length chunkSize = some n ∧
      ∀ w out, compile w = .ok out → out.program.length ≤ maxProgram := by
  intro o n
  have hcut := cutInto_programChunks program
  have hn : chunkTotal program = n := chunkCount_eq ..
  have hok : (t.run (Step.plan pacing program) ⟨u.transport, .idle⟩ []).result = .ok () :=
    ht.run _ (u := ⟨u.transport, .idle⟩) hu []
  obtain ⟨r, hends, hr, hupload, -⟩ := t.ends_upload hlen pacing u
  have ho : o = (r.report program).unrecorded := hupload
  rw [hr] at hok
  cases hends with
  | performed s h =>
    have hstate : Step.stateAfter .idle (Step.plan pacing program) = .ended :=
      Step.stateAfter_plan ..
    rw [ho]
    refine ⟨?_, hstate, ⟨_, hcut, hcut.length_eq (by decide), ?_⟩, ?_, chunkCount?_chunkSize _,
      fun w out => length_program_le⟩
    · show Except.ok _ = Except.ok _
      rw [hstate, hn]
    · exact (h.stamped_eq start).trans (by rw [Step.schedule_plan])
    · exact (h.clock_eq start).trans (by rw [Step.clockAfter_plan, hn])
  | halted => cases hok

/-- A transport that takes three bytes at a time. -/
def threeByThree : Script := ⟨none, none, none, some 3⟩

theorem reliable_threeByThree : Scripted.transport.Reliable (·.script = threeByThree) where
  write s bytes hs hbytes := by
    have hpos : 0 < bytes.length := List.length_pos_iff.mpr hbytes
    refine ⟨min 3 bytes.length, { s with writes := s.writes + 1 }, ?_, by omega, hs⟩
    simp [Scripted.transport, Scripted.write, hs, threeByThree]
  flush s hs := by
    refine ⟨{ s with flushes := s.flushes + 1 }, ?_, hs⟩
    simp [Scripted.transport, Scripted.flush, hs, threeByThree]

/-- One byte more than a chunk, all of them escaped, after an upload that was cut off. -/
theorem upload_trace_threeByThree :
    let o := Scripted.transport.upload .default (List.replicate 19 0xC0)
      ⟨.new threeByThree, .transferring⟩
    o.result = .ok ⟨19, 2, .ended⟩ ∧ clock 5 o.effects = 185 ∧
      chunkCount? 19 chunkSize = some 2 := by
  have hn : (List.replicate 19 (0xC0 : UInt8)).length ⌈/⌉ chunkSize = 2 := by
    rw [Nat.ceilDiv_eq_add_pred_div]
    rfl
  have hlen : (List.replicate 19 (0xC0 : UInt8)).length ≤ maxProgram := by decide
  obtain ⟨hresult, -, -, hclock, hcount, -⟩ := upload_trace reliable_threeByThree .default hlen
    (u := ⟨.new threeByThree, .transferring⟩) rfl 5
  rw [hn] at hresult hclock hcount
  exact ⟨hresult, hclock, hcount⟩

end RobotBlocks
