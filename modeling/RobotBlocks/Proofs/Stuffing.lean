import Mathlib
import RobotBlocks.Link.Frame

/-! Stuffed bytes. Any body is the stuffing of a packet and a leftover that tells why the packet ends
there, so decoding one frame is undoing the encoding, and nothing else is accepted. -/

namespace RobotBlocks.Frame

@[simp] theorem stuff_nil : stuff [] = [] := rfl

theorem stuff_cons (b : UInt8) (packet : List UInt8) :
    stuff (b :: packet) = stuffByte b ++ stuff packet := rfl

theorem stuffByte_of_ne {b : UInt8} (hd : b ≠ delimiter) (he : b ≠ escape) : stuffByte b = [b] := by
  unfold stuffByte
  rw [if_neg hd, if_neg he]

theorem stuffByte_ne_nil (b : UInt8) : stuffByte b ≠ [] := by
  unfold stuffByte
  split_ifs <;> simp

theorem stuff_eq_nil {packet : List UInt8} : stuff packet = [] ↔ packet = [] := by
  cases packet with
  | nil => simp
  | cons b packet => simp [stuff_cons, stuffByte_ne_nil]

/-- The second bytes of escape sequences are those that stuffing writes. -/
theorem unescape?_eq_some {c plain : UInt8} :
    unescape? c = some plain ↔ stuffByte plain = [escape, c] := by
  constructor
  · intro h
    unfold unescape? at h
    split_ifs at h with hd he
    · rw [← Option.some.inj h, hd]
      rfl
    · rw [← Option.some.inj h, he]
      rfl
  · intro h
    unfold stuffByte at h
    split_ifs at h with hd he
    · obtain rfl : escapedDelimiter = c := by simpa using h
      rw [hd]
      rfl
    · obtain rfl : escapedEscape = c := by simpa using h
      rw [he]
      rfl
    · simp at h

theorem delimiter_notMem_stuffByte (b : UInt8) : delimiter ∉ stuffByte b := by
  unfold stuffByte
  split_ifs with hd he
  · decide
  · decide
  · simpa using Ne.symm hd

theorem delimiter_notMem_stuff (packet : List UInt8) : delimiter ∉ stuff packet := by
  simp [stuff, delimiter_notMem_stuffByte]

/-- The packet that a body begins with: its bytes up to the first that cannot be undone. -/
def unstuffed : List UInt8 → List UInt8
  | [] => []
  | b :: rest =>
    if b = delimiter then []
    else if b = escape then
      match rest with
      | [] => []
      | c :: rest => match unescape? c with
        | some plain => plain :: unstuffed rest
        | none => []
    else b :: unstuffed rest

/-- What can stand behind the stuffing of a packet in a body, and the error that it is: nothing, an
escape alone, an escape with a wrong byte, or a delimiter at that offset. -/
inductive Leftover (offset : Nat) : List UInt8 → Option Error → Prop where
  | nothing : Leftover offset [] none
  | dangling : Leftover offset [escape] (some .danglingEscape)
  | invalid {c : UInt8} (h : unescape? c = none) (rest : List UInt8) :
      Leftover offset (escape :: c :: rest) (some (.invalidEscape c))
  | stray (rest : List UInt8) :
      Leftover offset (delimiter :: rest) (some (.strayDelimiter offset))

/-- A stuffed byte in front of a body belongs to its packet. -/
theorem exists_leftover_cons {offset : Nat} {rest packet : List UInt8} (b : UInt8)
    (h : ∃ left error, rest = stuff packet ++ left ∧
      Leftover (offset + (stuffByte b).length + (stuff packet).length) left error) :
    ∃ left error, stuffByte b ++ rest = stuff (b :: packet) ++ left ∧
      Leftover (offset + (stuff (b :: packet)).length) left error := by
  obtain ⟨left, error, hrest, hleft⟩ := h
  refine ⟨left, error, ?_, ?_⟩
  · rw [stuff_cons, List.append_assoc, ← hrest]
  · rw [stuff_cons, List.length_append, ← Nat.add_assoc]
    exact hleft

/-- Every body is the stuffing of the packet it begins with, and a leftover. -/
theorem exists_leftover (offset : Nat) (body : List UInt8) :
    ∃ rest error, body = stuff (unstuffed body) ++ rest ∧
      Leftover (offset + (stuff (unstuffed body)).length) rest error := by
  -- The packet goes on with a byte or an escape sequence at each turn, until a leftover stops it.
  fun_induction unstuffed body generalizing offset with
  | case1 => exact ⟨[], none, rfl, .nothing⟩
  | case2 rest => exact ⟨_, _, rfl, .stray rest⟩
  | case3 => exact ⟨_, _, rfl, .dangling⟩
  | case4 c rest plain hc hne ih =>
    have hfront := @exists_leftover_cons offset rest (unstuffed rest) plain
    rw [unescape?_eq_some.mp hc] at hfront
    exact hfront (ih (offset + 2))
  | case5 c rest hc hne => exact ⟨_, _, rfl, .invalid hc rest⟩
  | case6 b rest hd he ih =>
    have hfront := @exists_leftover_cons offset rest (unstuffed rest) b
    rw [stuffByte_of_ne hd he] at hfront
    exact hfront (ih (offset + 1))

theorem unstuff_stuffByte (offset : Nat) (done : List UInt8) (b : UInt8) (rest : List UInt8) :
    unstuff offset done (stuffByte b ++ rest) =
      unstuff (offset + (stuffByte b).length) (b :: done) rest := by
  unfold stuffByte
  split_ifs with hd he
  · subst hd
    rfl
  · subst he
    rfl
  · rw [List.singleton_append, unstuff.eq_def]
    simp only [hd, he, if_false]
    rfl

/-- The stuffing of a packet is undone byte by byte. -/
theorem unstuff_stuff (offset : Nat) (done packet rest : List UInt8) :
    unstuff offset done (stuff packet ++ rest) =
      unstuff (offset + (stuff packet).length) (packet.reverse ++ done) rest := by
  induction packet generalizing offset done with
  | nil => rfl
  | cons b packet ih =>
    rw [stuff_cons, List.append_assoc, unstuff_stuffByte, ih, List.length_append, Nat.add_assoc]
    simp

theorem Leftover.unstuff_eq {offset : Nat} {rest : List UInt8} {error : Option Error}
    (h : Leftover offset rest error) (done : List UInt8) :
    unstuff offset done rest = error.elim (.ok done.reverse) .error := by
  cases h with
  | nothing => rfl
  | dangling => rfl
  | invalid h rest =>
    have hne : escape ≠ delimiter := by decide
    simp [unstuff, hne, h]
  | stray rest =>
    rw [unstuff.eq_def]
    rfl

theorem body?_eq_some {frame body : List UInt8} :
    body? frame = some body ↔ frame = delimiter :: body ++ [delimiter] := by
  constructor
  · intro h
    cases frame with
    | nil => cases h
    | cons b rest =>
      simp only [body?] at h
      split_ifs at h with hends
      obtain ⟨rfl, hlast⟩ := hends
      obtain rfl := Option.some.inj h
      obtain ⟨front, rfl⟩ := List.getLast?_eq_some_iff.mp hlast
      rw [List.dropLast_concat]
      rfl
  · rintro rfl
    simp [body?]

theorem decode_enclosed (body : List UInt8) :
    decode (delimiter :: body ++ [delimiter]) = unstuff 1 [] body := by
  unfold decode
  rw [body?_eq_some.mpr rfl]

/-- A body that begins with a packet is decoded to the packet, or to the error of the leftover. -/
theorem decode_of_leftover {packet rest : List UInt8} {error : Option Error}
    (h : Leftover (1 + (stuff packet).length) rest error) :
    decode (delimiter :: (stuff packet ++ rest) ++ [delimiter]) =
      error.elim (.ok packet) .error := by
  calc decode (delimiter :: (stuff packet ++ rest) ++ [delimiter])
    _ = unstuff 1 [] (stuff packet ++ rest) := decode_enclosed _
    _ = unstuff (1 + (stuff packet).length) (packet.reverse ++ []) rest := unstuff_stuff ..
    _ = error.elim (.ok packet) .error := by simp [h.unstuff_eq]

theorem decode_cases (body : List UInt8) :
    ∃ rest error, body = stuff (unstuffed body) ++ rest ∧
      Leftover (1 + (stuff (unstuffed body)).length) rest error ∧
      decode (delimiter :: body ++ [delimiter]) = error.elim (.ok (unstuffed body)) .error := by
  obtain ⟨rest, error, hbody, hleft⟩ := exists_leftover 1 body
  have hdecode := decode_of_leftover hleft
  rw [← hbody] at hdecode
  exact ⟨rest, error, hbody, hleft, hdecode⟩

theorem decode_encode (packet : List UInt8) : decode (encode packet) = .ok packet := by
  have hdecode := @decode_of_leftover packet _ _ .nothing
  rwa [List.append_nil] at hdecode

/-- Nothing but the frame of a packet is decoded to it. -/
theorem eq_encode_of_decode {frame packet : List UInt8} (h : decode frame = .ok packet) :
    frame = encode packet := by
  cases hbody : body? frame with
  | none =>
    rw [decode, hbody] at h
    cases h
  | some body =>
    obtain rfl := body?_eq_some.mp hbody
    obtain ⟨rest, error, hsplit, hleft, hdecode⟩ := decode_cases body
    rw [hdecode] at h
    cases hleft with
    | nothing =>
      have hpacket : unstuffed body = packet := Except.ok.inj h
      rw [List.append_nil, hpacket] at hsplit
      rw [hsplit]
      rfl
    | dangling => cases h
    | invalid => cases h
    | stray => cases h

/-- A delimiter stands at both ends of a frame and nowhere else. -/
theorem getElem?_encode {packet : List UInt8} {i : Nat} :
    (encode packet)[i]? = some delimiter ↔ i = 0 ∨ i + 1 = (encode packet).length := by
  have hlength : (encode packet).length = (stuff packet).length + 2 := by simp [encode]
  rw [hlength, encode]
  cases i with
  | zero => simp
  | succ i =>
    rw [List.cons_append, List.getElem?_cons_succ]
    rcases Nat.lt_trichotomy i (stuff packet).length with hlt | heq | hgt
    · rw [List.getElem?_append_left hlt]
      have hbody : (stuff packet)[i]? ≠ some delimiter := fun h =>
        delimiter_notMem_stuff packet (List.mem_of_getElem? h)
      simp only [hbody, false_iff]
      omega
    · subst heq
      simp
    · rw [List.getElem?_eq_none (by simp; omega)]
      simp only [reduceCtorEq, false_iff, false_or]
      omega

/-- No frame begins with another. -/
theorem encode_prefix {p q : List UInt8} (h : encode p <+: encode q) : encode p = encode q := by
  obtain ⟨rest, hrest⟩ := h
  have hbodies : stuff q ++ delimiter :: [] = stuff p ++ delimiter :: rest := by
    simpa [encode] using hrest.symm
  have hq : delimiter ∉ stuff q := delimiter_notMem_stuff q
  obtain ⟨hstuff, -, -⟩ := (List.append_cons_inj_of_notMem hq List.not_mem_nil).mp hbodies
  rw [encode, encode, hstuff]

/-- Packets and the frames that are decoded correspond one to one. A delimiter stands only at the
ends of a frame, so no frame begins with another. -/
theorem framing_bijective :
    (∀ packet frame, decode frame = .ok packet ↔ frame = encode packet) ∧
      Set.BijOn encode Set.univ {frame | ∃ packet, decode frame = .ok packet} ∧
      (∀ packet i, (encode packet)[i]? = some delimiter ↔
        i = 0 ∨ i + 1 = (encode packet).length) ∧
      Function.Injective encode ∧
      (∀ packet frame frame', decode frame = .ok packet → decode frame' = .ok packet →
        frame = frame') ∧
      ∀ p q, encode p <+: encode q → encode p = encode q := by
  have hiff (packet frame : List UInt8) : decode frame = .ok packet ↔ frame = encode packet := by
    constructor
    · exact eq_encode_of_decode
    · rintro rfl
      exact decode_encode packet
  have hinj : Function.Injective encode := by
    intro p q h
    have hp := decode_encode p
    rw [h, decode_encode q] at hp
    exact (Except.ok.inj hp).symm
  refine ⟨hiff, ⟨?_, hinj.injOn, ?_⟩, fun _ _ => getElem?_encode, hinj, ?_, fun _ _ => encode_prefix⟩
  · intro packet _
    exact ⟨packet, decode_encode packet⟩
  · rintro frame ⟨packet, h⟩
    exact ⟨packet, trivial, ((hiff packet frame).mp h).symm⟩
  · intro packet frame frame' h h'
    rw [(hiff packet frame).mp h, (hiff packet frame').mp h']

/-- A packet of a delimiter, an escape and the byte that stands for an escape behind one. -/
theorem framing_bijective_escaped :
    decode [0xC0, 0xDB, 0xDC, 0xDB, 0xDD, 0xDD, 0xC0] = .ok [0xC0, 0xDB, 0xDD] ∧
      [0xC0, 0xDB, 0xDC, 0xDB, 0xDD, 0xDD, 0xC0] = encode [0xC0, 0xDB, 0xDD] ∧
      ∀ frame, decode frame = .ok [0xC0, 0xDB, 0xDD] →
        frame = [0xC0, 0xDB, 0xDC, 0xDB, 0xDD, 0xDD, 0xC0] := by
  have h : decode [0xC0, 0xDB, 0xDC, 0xDB, 0xDD, 0xDD, 0xC0] = .ok [0xC0, 0xDB, 0xDD] := by decide
  obtain ⟨hiff, -, -, -, hunique, -⟩ := framing_bijective
  exact ⟨h, (hiff _ _).mp h, fun frame hframe => hunique _ _ _ hframe h⟩

end RobotBlocks.Frame
