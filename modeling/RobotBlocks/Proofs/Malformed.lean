import Mathlib
import RobotBlocks.Proofs.Stuffing

/-! Malformed frames. What is wrong with a frame is said here without decoding it. The main result
is that decoding reports exactly this: the fault that comes first in the frame, at its offset in the
whole frame. -/

namespace RobotBlocks.Frame

/-- A delimiter stands first and last. In a frame of one byte the two are the same. -/
def Enclosed (frame : List UInt8) : Prop :=
  frame.head? = some delimiter ∧ frame.getLast? = some delimiter

/-- What is wrong with a frame that shows an error. -/
def Shows (frame : List UInt8) : Error → Prop
  | .missingDelimiter => frame.length < 2 ∨ ¬Enclosed frame
  | .strayDelimiter offset =>
    Enclosed frame ∧ 1 ≤ offset ∧ offset + 2 ≤ frame.length ∧
      ∃ packet, frame.take (offset + 1) = encode packet
  | .invalidEscape b =>
    Enclosed frame ∧ b ≠ escapedDelimiter ∧ b ≠ escapedEscape ∧
      ∃ packet, stuff packet ++ [escape, b] <+: frame.tail.dropLast
  | .danglingEscape => ∃ packet, frame = delimiter :: stuff packet ++ [escape, delimiter]

/-- What a frame is decoded to: the packet that it is the frame of, or the error that it shows. -/
def Means (frame : List UInt8) (result : Result) : Prop :=
  (∃ packet, result = .ok packet ∧ frame = encode packet) ∨
    ∃ e, result = .error e ∧ Shows frame e

theorem unescape?_eq_none {b : UInt8} :
    unescape? b = none ↔ b ≠ escapedDelimiter ∧ b ≠ escapedEscape := by
  unfold unescape?
  split_ifs <;> simp_all

theorem enclosed_iff {frame : List UInt8} :
    2 ≤ frame.length ∧ Enclosed frame ↔ ∃ body, frame = delimiter :: body ++ [delimiter] := by
  constructor
  · rintro ⟨hlength, hhead, hlast⟩
    cases frame with
    | nil => cases hhead
    | cons b rest =>
      obtain rfl : b = delimiter := by simpa using hhead
      have hne : rest ≠ [] := by
        rintro rfl
        simp at hlength
      rw [List.getLast?_cons_of_ne_nil hne] at hlast
      obtain ⟨body, rfl⟩ := List.getLast?_eq_some_iff.mp hlast
      exact ⟨body, rfl⟩
  · rintro ⟨body, rfl⟩
    exact ⟨by simp, rfl, List.getLast?_concat⟩

theorem inner_enclosed (body : List UInt8) :
    (delimiter :: body ++ [delimiter]).tail.dropLast = body := List.dropLast_concat

theorem body?_eq_none {frame : List UInt8} :
    body? frame = none ↔ frame.length < 2 ∨ ¬Enclosed frame := by
  rw [← not_iff_not, ← ne_eq, Option.ne_none_iff_exists', not_or, not_lt, not_not, enclosed_iff]
  simp only [body?_eq_some]

/-- Whatever begins with a frame and is enclosed goes on with a body after the inner delimiter. -/
theorem exists_of_take_eq_encode {frame packet : List UInt8} {offset : Nat} (h : Enclosed frame)
    (hlength : offset + 2 ≤ frame.length) (hframe : frame.take (offset + 1) = encode packet) :
    offset = 1 + (stuff packet).length ∧
      ∃ rest, frame = delimiter :: (stuff packet ++ delimiter :: rest) ++ [delimiter] := by
  have hoffset : offset + 1 = (stuff packet).length + 2 := by
    have hlen := congrArg List.length hframe
    simp only [List.length_take, encode, List.length_append, List.length_cons,
      List.length_nil] at hlen
    omega
  have hne : frame.drop (offset + 1) ≠ [] := by
    rw [ne_eq, List.drop_eq_nil_iff]
    omega
  have hsplit : frame = encode packet ++ frame.drop (offset + 1) := by
    rw [← hframe, List.take_append_drop]
  have hlast := h.2
  rw [hsplit, List.getLast?_append_of_ne_nil _ hne] at hlast
  obtain ⟨rest, hrest⟩ := List.getLast?_eq_some_iff.mp hlast
  refine ⟨by omega, rest, ?_⟩
  rw [hsplit, hrest]
  simp [encode]

/-- An error that a frame shows is the one that decoding reports. -/
theorem decode_of_shows {frame : List UInt8} {e : Error} (h : Shows frame e) :
    decode frame = .error e := by
  cases e with
  | missingDelimiter =>
    rw [decode, body?_eq_none.mpr h]
  | strayDelimiter offset =>
    obtain ⟨henclosed, -, hlength, packet, hframe⟩ := h
    obtain ⟨rfl, rest, rfl⟩ := exists_of_take_eq_encode henclosed hlength hframe
    exact decode_of_leftover (.stray rest)
  | invalidEscape b =>
    obtain ⟨henclosed, hdelimiter, hescape, packet, rest, hinner⟩ := h
    have hlength : 2 ≤ frame.length := by
      have hlen := congrArg List.length hinner
      simp only [List.length_append, List.length_cons, List.length_dropLast,
        List.length_tail] at hlen
      omega
    obtain ⟨body, rfl⟩ := enclosed_iff.mp ⟨hlength, henclosed⟩
    rw [inner_enclosed, List.append_assoc] at hinner
    subst hinner
    exact decode_of_leftover (.invalid (unescape?_eq_none.mpr ⟨hdelimiter, hescape⟩) rest)
  | danglingEscape =>
    -- the escape is the last byte of the body, so the frame has to be cut before its delimiter
    obtain ⟨packet, rfl⟩ := h
    have hdecode := @decode_of_leftover packet _ _ .dangling
    simpa using hdecode

/-- Decoding reports no error that the frame does not show. -/
theorem shows_of_decode {frame : List UInt8} {e : Error} (h : decode frame = .error e) :
    Shows frame e := by
  cases hbody : body? frame with
  | none =>
    rw [decode, hbody] at h
    cases h
    exact body?_eq_none.mp hbody
  | some body =>
    obtain rfl := body?_eq_some.mp hbody
    obtain ⟨-, henclosed⟩ := enclosed_iff.mpr ⟨body, rfl⟩
    -- what is left behind the packet that the body begins with is the error
    obtain ⟨rest, error, hsplit, hleft, hdecode⟩ := decode_cases body
    rw [hdecode] at h
    generalize unstuffed body = packet at hsplit hleft h
    subst hsplit
    cases hleft with
    | nothing => cases h
    | dangling =>
      cases h
      exact ⟨packet, by simp⟩
    | invalid hc rest =>
      cases h
      obtain ⟨hdelimiter, hescape⟩ := unescape?_eq_none.mp hc
      refine ⟨henclosed, hdelimiter, hescape, packet, rest, ?_⟩
      rw [inner_enclosed, List.append_assoc]
      rfl
    | stray rest =>
      cases h
      refine ⟨henclosed, by omega, by simp; omega, packet, ?_⟩
      have hfront : delimiter :: (stuff packet ++ delimiter :: rest) ++ [delimiter] =
          encode packet ++ (rest ++ [delimiter]) := by simp [encode]
      have hlength : 1 + (stuff packet).length + 1 = (encode packet).length := by
        simp [encode]
        omega
      rw [hfront, hlength, List.take_left]

theorem decode_eq_iff {frame : List UInt8} {result : Result} :
    decode frame = result ↔ Means frame result := by
  constructor
  · rintro rfl
    cases h : decode frame with
    | ok packet => exact .inl ⟨packet, rfl, eq_encode_of_decode h⟩
    | error e => exact .inr ⟨e, rfl, shows_of_decode h⟩
  · rintro (⟨packet, rfl, rfl⟩ | ⟨e, rfl, h⟩)
    · exact decode_encode packet
    · exact decode_of_shows h

/-- Errors are exact: decoding reports an error exactly if the frame shows it, and any bytes either
are the frame of one packet or show one error. -/
theorem frame_errors_exact :
    (∀ frame e, decode frame = .error e ↔ Shows frame e) ∧
      (∀ frame packet, decode frame = .ok packet ↔ frame = encode packet) ∧
      ∀ frame, ∃! result, Means frame result := by
  refine ⟨fun frame e => ?_, fun frame packet => ?_, fun frame => ?_⟩
  · simpa [Means] using @decode_eq_iff frame (.error e)
  · simpa [Means] using @decode_eq_iff frame (.ok packet)
  · refine ⟨decode frame, decode_eq_iff.mp rfl, fun result h => ?_⟩
    exact (decode_eq_iff.mpr h).symm

/-- The first fault counts, and a delimiter behind an escape is no stray one. -/
example : decode [0xC0, 1, 0xDB, 0xC0, 0xC0, 0xC0] = .error (.invalidEscape 0xC0) := by decide

end RobotBlocks.Frame
