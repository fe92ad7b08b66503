import Mathlib
import RobotBlocks.Link.Frame

/-! The stream decoder: bytes taken in parts, and frames behind whatever came before. -/

namespace RobotBlocks.Frame

/-- Delimiters on a line with nothing to send. -/
def idle (count : Nat) : List UInt8 := List.replicate count delimiter

namespace Decoder

theorem pushFrom_eq (done : List Result) (bytes : List UInt8) (d : Decoder) :
    pushFrom done bytes d = (done.reverse ++ (d.push bytes).1, (d.push bytes).2) := by
  induction bytes generalizing done d with
  | nil => simp [push, pushFrom]
  | cons b rest ih =>
    unfold push
    rw [pushFrom, pushFrom]
    obtain ⟨r, e⟩ := d.pushByte b
    cases r with
    | none =>
      simp only
      rw [ih, ih []]
      simp
    | some r =>
      simp only
      rw [ih, ih [r]]
      simp

@[simp] theorem push_nil (d : Decoder) : d.push [] = ([], d) := rfl

theorem push_cons (d : Decoder) (b : UInt8) (rest : List UInt8) :
    d.push (b :: rest) =
      ((d.pushByte b).1.toList ++ ((d.pushByte b).2.push rest).1,
        ((d.pushByte b).2.push rest).2) := by
  rw [push, pushFrom]
  obtain ⟨r, e⟩ := d.pushByte b
  cases r <;> simp [pushFrom_eq]

/-- Bytes may be taken in parts. -/
theorem push_append (d : Decoder) (xs ys : List UInt8) :
    d.push (xs ++ ys) =
      ((d.push xs).1 ++ ((d.push xs).2.push ys).1, ((d.push xs).2.push ys).2) := by
  induction xs generalizing d with
  | nil => simp
  | cons x xs ih => simp [push_cons, ih]

theorem push_append_of_push {d e : Decoder} {front : List UInt8} {results : List Result}
    (h : d.push front = (results, e)) (rest : List UInt8) :
    d.push (front ++ rest) = (results ++ (e.push rest).1, (e.push rest).2) := by
  rw [push_append, h]

theorem push_delimiter (d : Decoder) : d.push [delimiter] = (d.close.toList, new) := by
  simp [push_cons, pushByte]

/-- A decoder in the middle of a good frame, with these bytes of the packet so far. -/
def holding (bytes : List UInt8) : Decoder := ⟨bytes.toArray, false, none⟩

/-- A stuffed byte is taken as the byte itself. -/
theorem push_stuffByte (bytes : List UInt8) (b : UInt8) :
    (holding bytes).push (stuffByte b) = ([], holding (bytes ++ [b])) := by
  unfold stuffByte
  split
  next hb =>
    subst hb
    simp [push_cons, pushByte, take, holding, escape, delimiter, escapedDelimiter, unescape?]
  next hd =>
    split
    next hb =>
      subst hb
      simp [push_cons, pushByte, take, holding, escape, delimiter, escapedDelimiter, escapedEscape,
        unescape?]
    next he => simp [push_cons, pushByte, take, holding, hd, he]

theorem push_stuff (bytes packet : List UInt8) :
    (holding bytes).push (stuff packet) = ([], holding (bytes ++ packet)) := by
  induction packet generalizing bytes with
  | nil => simp [stuff]
  | cons b packet ih =>
    have hcons : stuff (b :: packet) = stuffByte b ++ stuff packet := rfl
    rw [hcons, push_append, push_stuffByte, ih]
    simp

/-- A frame is decoded whatever stands before it. Its first delimiter closes what was unfinished.
-/
theorem push_encode (d : Decoder) {packet : List UInt8} (h : packet ≠ []) :
    d.push (encode packet) = (d.close.toList ++ [.ok packet], new) := by
  have hbody : new.push (stuff packet) = ([], holding packet) := push_stuff [] packet
  have hclose : (holding packet).close = some (.ok packet) := by simp [close, holding, h]
  have hencode : encode packet = [delimiter] ++ (stuff packet ++ [delimiter]) := rfl
  rw [hencode, push_append_of_push d.push_delimiter, push_append_of_push hbody, push_delimiter,
    hclose]
  rfl

theorem push_idle (d : Decoder) (count : Nat) :
    d.push (idle (count + 1)) = (d.close.toList, new) := by
  induction count generalizing d with
  | zero => exact d.push_delimiter
  | succ count ih =>
    have hidle : idle (count + 1 + 1) = [delimiter] ++ idle (count + 1) := rfl
    rw [hidle, push_append_of_push d.push_delimiter, ih]
    simp [close, new]

theorem push_idle_new (count : Nat) : new.push (idle count) = ([], new) := by
  cases count with
  | zero => rfl
  | succ count => exact push_idle new count

/-- Frames on a line without damage are all decoded. -/
theorem push_spaced {frames : List (List UInt8 × Nat)} (h : ∀ f ∈ frames, f.1 ≠ []) :
    new.push (frames.flatMap fun (packet, gap) => encode packet ++ idle gap) =
      (frames.map fun f => .ok f.1, new) := by
  induction frames with
  | nil => rfl
  | cons f frames ih =>
    obtain ⟨hf, hframes⟩ := List.forall_mem_cons.mp h
    rw [List.flatMap_cons, List.append_assoc, push_append_of_push (push_encode new hf),
      push_append_of_push (push_idle_new f.2), ih hframes]
    rfl

/-- Frames in a row are decoded one by one. -/
theorem push_frames (packets : List (List UInt8)) (h : ∀ p ∈ packets, p ≠ []) :
    new.push (packets.flatMap encode) = (packets.map .ok, new) := by
  have hspaced := @push_spaced (packets.map (·, 0)) (by simpa using h)
  rw [List.flatMap_map, List.map_map] at hspaced
  simp only [idle, List.replicate_zero, List.append_nil] at hspaced
  exact hspaced

end Decoder

end RobotBlocks.Frame
