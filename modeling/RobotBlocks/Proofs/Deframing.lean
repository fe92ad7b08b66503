import Mathlib
import RobotBlocks.Proofs.Framing
import RobotBlocks.Proofs.Stuffing

/-! The stream decoder against the decoder of one frame: what a stream gives, however it is cut, and
how frames come through behind damaged bytes. -/

namespace RobotBlocks

section Separators

variable {α : Type} [BEq α] [LawfulBEq α] {separator : α} {segment : List α}

theorem splitOn_of_notMem (h : separator ∉ segment) : segment.splitOn separator = [segment] := by
  apply List.splitOnP_eq_singleton
  intro x hx
  exact beq_false_of_ne (ne_of_mem_of_not_mem hx h)

theorem splitOn_append_cons (h : separator ∉ segment) (rest : List α) :
    (segment ++ separator :: rest).splitOn separator = segment :: rest.splitOn separator := by
  apply List.splitOnP_append_cons_of_forall_mem
  · intro x hx
    exact beq_false_of_ne (ne_of_mem_of_not_mem hx h)
  · exact beq_self_eq_true separator

end Separators

namespace Frame

/-- Bytes are segments that each end at a delimiter, and a last segment without one. -/
theorem segmentInduction {motive : List UInt8 → Prop}
    (last : ∀ segment, delimiter ∉ segment → motive segment)
    (more : ∀ segment rest, delimiter ∉ segment → motive rest →
      motive (segment ++ delimiter :: rest)) (bytes : List UInt8) : motive bytes := by
  -- The rest behind a delimiter is no tail that structural induction reaches, only a shorter list.
  induction hn : bytes.length using Nat.strong_induction_on generalizing bytes with
  | _ n ih =>
    by_cases hmem : delimiter ∈ bytes
    · obtain ⟨segment, rest, rfl, hsegment⟩ := List.eq_append_cons_of_mem hmem
      apply more segment rest hsegment
      apply ih rest.length _ rest rfl
      rw [← hn, List.length_append, List.length_cons]
      omega
    · exact last bytes hmem

/-- What whole segments give: empty ones are dropped, any other one is decoded as a frame. -/
def segmentResults (segments : List (List UInt8)) : List Result :=
  (segments.filter (· ≠ [])).map fun segment => decode (delimiter :: segment ++ [delimiter])

theorem segmentResults_cons (segment : List UInt8) (segments : List (List UInt8)) :
    segmentResults (segment :: segments) = segmentResults [segment] ++ segmentResults segments := by
  by_cases h : segment = [] <;> simp [segmentResults, h]

/-- Frames with idle delimiters before the first and behind each of them. -/
def traffic (lead : Nat) (frames : List (List UInt8 × Nat)) : List UInt8 :=
  idle lead ++ frames.flatMap fun (packet, gap) => encode packet ++ idle gap

namespace Decoder

/-- Takes bytes in several pushes; each gives its own results. -/
def pushAll (d : Decoder) : List (List UInt8) → List (List Result) × Decoder
  | [] => ([], d)
  | bytes :: rest =>
    let (results, d) := d.push bytes
    let (later, d) := d.pushAll rest
    (results :: later, d)

/-- However bytes are cut into pushes, they give the same. -/
theorem pushAll_eq (d : Decoder) (pushes : List (List UInt8)) :
    (d.pushAll pushes).1.flatten = (d.push pushes.flatten).1 ∧
      (d.pushAll pushes).2 = (d.push pushes.flatten).2 := by
  induction pushes generalizing d with
  | nil => exact ⟨rfl, rfl⟩
  | cons bytes rest ih =>
    obtain ⟨hresults, hdecoder⟩ := ih (d.push bytes).2
    rw [List.flatten_cons, push_append]
    constructor
    · simp [pushAll, hresults]
    · simp [pushAll, hdecoder]

/-- After an error all bytes up to the next delimiter are ignored. -/
theorem push_of_error {d : Decoder} (hd : d.error.isSome) {bytes : List UInt8}
    (h : delimiter ∉ bytes) : d.push bytes = ([], d) := by
  induction bytes with
  | nil => rfl
  | cons b bytes ih =>
    obtain ⟨hb, hbytes⟩ := List.ne_and_not_mem_of_not_mem_cons h
    have hbyte : d.pushByte b = (none, d) := by simp [pushByte, take, hd, hb.symm]
    simp [push_cons, hbyte, ih hbytes]

/-- A leftover without a delimiter adds nothing to the packet so far, and the next delimiter gives
the error that the leftover is. -/
theorem push_leftover {offset : Nat} {rest : List UInt8} {error : Option Error}
    (h : Leftover offset rest error) (hrest : delimiter ∉ rest) (packet : List UInt8) :
    ∃ d, (holding packet).push rest = ([], d) ∧ d.pending = packet.length ∧
      d.close = if packet = [] ∧ rest = [] then none
        else some (error.elim (.ok packet) .error) := by
  have hescape : (holding packet).push [escape] = ([], ⟨packet.toArray, true, none⟩) := by
    have hne : escape ≠ delimiter := by decide
    simp [push_cons, pushByte, take, holding, hne]
  cases h with
  | nothing =>
    refine ⟨holding packet, rfl, rfl, ?_⟩
    by_cases hpacket : packet = [] <;> simp [close, holding, hpacket]
  | dangling => exact ⟨_, hescape, rfl, by simp [close]⟩
  | @invalid c hc more =>
    obtain ⟨-, htail⟩ := List.ne_and_not_mem_of_not_mem_cons hrest
    obtain ⟨hcd, hmore⟩ := List.ne_and_not_mem_of_not_mem_cons htail
    have hbad : pushByte ⟨packet.toArray, true, none⟩ c =
        (none, ⟨packet.toArray, false, some (.invalidEscape c)⟩) := by
      simp [pushByte, take, hc, hcd.symm]
    refine ⟨⟨packet.toArray, false, some (.invalidEscape c)⟩, ?_, rfl, by simp [close]⟩
    rw [← List.singleton_append, push_append_of_push hescape, push_cons, hbad]
    simp [push_of_error _ hmore]
  | stray => simp at hrest

/-- A segment on its own: nothing is complete, the bytes it stands for are pending, and a delimiter
would give its result. -/
theorem push_segment {segment : List UInt8} (h : delimiter ∉ segment) :
    ∃ d, new.push segment = ([], d) ∧ d.pending = (unstuffed segment).length ∧
      d.close.toList = segmentResults [segment] := by
  obtain ⟨rest, error, hsplit, hleft, hdecode⟩ := decode_cases segment
  have hrest : delimiter ∉ rest := by
    intro hmem
    rw [hsplit] at h
    exact h (List.mem_append_right _ hmem)
  have hempty : unstuffed segment = [] ∧ rest = [] ↔ segment = [] := by
    rw [← stuff_eq_nil, ← List.append_eq_nil_iff, ← hsplit]
  obtain ⟨d, hpush, hpending, hclose⟩ := push_leftover hleft hrest (unstuffed segment)
  refine ⟨d, ?_, hpending, ?_⟩
  · have hstuff : new.push (stuff (unstuffed segment)) = ([], holding (unstuffed segment)) :=
      push_stuff [] (unstuffed segment)
    rw [hsplit, push_append_of_push hstuff, hpush]
    rfl
  · simp only [hempty] at hclose
    rw [hclose, ← hdecode]
    by_cases hs : segment = [] <;> simp [segmentResults, hs]

/-- The segments of a stream give their results in order, and the last one is pending. -/
theorem push_segments (bytes : List UInt8) :
    let segments := bytes.splitOn delimiter
    (new.push bytes).1 = segmentResults segments.dropLast ∧
      (new.push bytes).2.pending = (unstuffed (segments.getLastD [])).length := by
  induction bytes using segmentInduction with
  | last segment h =>
    obtain ⟨d, hpush, hpending, -⟩ := push_segment h
    rw [hpush, splitOn_of_notMem h]
    exact ⟨rfl, hpending⟩
  | more segment rest h ih =>
    obtain ⟨d, hpush, -, hclose⟩ := push_segment h
    have hne : rest.splitOn delimiter ≠ [] := List.splitOnP_ne_nil _ _
    have hstream : new.push (segment ++ delimiter :: rest) =
        (segmentResults [segment] ++ (new.push rest).1, (new.push rest).2) := by
      rw [push_append_of_push hpush, ← List.singleton_append,
        push_append_of_push (push_delimiter d), hclose]
      rfl
    obtain ⟨hresults, hpending⟩ := ih
    rw [hstream, splitOn_append_cons h]
    constructor
    · rw [List.dropLast_cons_of_ne_nil hne, hresults, ← segmentResults_cons]
    · rw [List.getLastD_eq_getLast?, List.getLast?_cons_of_ne_nil hne, ← List.getLastD_eq_getLast?]
      exact hpending

/-- However a stream is cut into pushes, it gives what its segments between delimiters are decoded to
as frames of their own, without the empty ones. Behind the last delimiter, the bytes up to the first
invalid escape are pending. -/
theorem deframing_refines_decode (pushes : List (List UInt8)) :
    let segments := pushes.flatten.splitOn delimiter
    (new.pushAll pushes).1.flatten = (segments.dropLast.filter (· ≠ [])).map
        (fun segment => decode (delimiter :: segment ++ [delimiter])) ∧
      (new.pushAll pushes).2.pending = (unstuffed (segments.getLastD [])).length := by
  obtain ⟨hresults, hdecoder⟩ := new.pushAll_eq pushes
  rw [hresults, hdecoder]
  exact push_segments pushes.flatten

/-- Behind anything, the first delimiter closes what was unfinished, and the frames follow. -/
theorem push_traffic (d : Decoder) (lead : Nat) {frames : List (List UInt8 × Nat)}
    (hne : frames ≠ []) (h : ∀ f ∈ frames, f.1 ≠ []) :
    d.push (traffic lead frames) = (d.close.toList ++ frames.map (fun f => .ok f.1), new) := by
  unfold traffic
  cases lead with
  | zero =>
    obtain ⟨f, frames, rfl⟩ := List.exists_cons_of_ne_nil hne
    obtain ⟨hf, hframes⟩ := List.forall_mem_cons.mp h
    rw [idle, List.replicate_zero, List.nil_append, List.flatMap_cons, List.append_assoc,
      push_append_of_push (push_encode d hf), push_append_of_push (push_idle_new f.2),
      push_spaced hframes]
    simp
  | succ lead => rw [push_append_of_push (push_idle d lead), push_spaced h]

/-- Whatever was received before, frames that follow are all decoded, in order, and leave a new
decoder. The damage gives what a delimiter behind it gives, which is at most one result more. -/
theorem resynchronises (noise : List UInt8) (lead : Nat) {frames : List (List UInt8 × Nat)}
    (hne : frames ≠ []) (hpackets : ∀ f ∈ frames, f.1 ≠ []) {pushes : List (List UInt8)}
    (hpushes : pushes.flatten = noise ++ traffic lead frames) :
    (new.pushAll pushes).1.flatten =
        decodeAll (noise ++ [delimiter]) ++ frames.map (fun f => .ok f.1) ∧
      (new.pushAll pushes).2 = new ∧
      ∃ damage : Option Result,
        decodeAll (noise ++ [delimiter]) = decodeAll noise ++ damage.toList := by
  obtain ⟨hresults, hdecoder⟩ := new.pushAll_eq pushes
  let d := (new.push noise).2
  have hnoise : new.push noise = (decodeAll noise, d) := rfl
  have hclosed : decodeAll (noise ++ [delimiter]) = decodeAll noise ++ d.close.toList := by
    rw [decodeAll, push_append_of_push hnoise, push_delimiter]
  have hall : new.push pushes.flatten =
      (decodeAll (noise ++ [delimiter]) ++ frames.map (fun f => .ok f.1), new) := by
    rw [hpushes, push_append_of_push hnoise, d.push_traffic lead hne hpackets, hclosed,
      List.append_assoc]
  rw [hresults, hdecoder, hall]
  exact ⟨rfl, rfl, d.close, hclosed⟩

/-- An invalid escape in the noise, packets of a delimiter and of an escape, and a push that ends
between an escape and its second byte. -/
theorem resynchronises_poisoned :
    let noise := [1, 0xDB, 0x55, 2]
    let pushes := [[1, 0xDB], [0x55, 2, 0xC0, 0xDB], [0xDC, 0xC0, 0xC0, 0xC0], [0xDB, 0xDD, 0xC0]]
    pushes.flatten = noise ++ traffic 0 [([0xC0], 1), ([0xDB], 0)] ∧
      (new.pushAll pushes).1.flatten =
        [.error (.invalidEscape 0x55), .ok [0xC0], .ok [0xDB]] := by
  intro noise pushes
  have hpushes : pushes.flatten = noise ++ traffic 0 [([0xC0], 1), ([0xDB], 0)] := by decide
  obtain ⟨hresults, -, -⟩ := resynchronises noise 0 (by simp) (by simp) hpushes
  have hnoise : decodeAll (noise ++ [delimiter]) = [.error (.invalidEscape 0x55)] := by decide
  rw [hnoise] at hresults
  exact ⟨hpushes, hresults⟩

end Decoder

end Frame

end RobotBlocks
