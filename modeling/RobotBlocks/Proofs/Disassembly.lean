import Mathlib
import RobotBlocks.Proofs.Decoding

/-! Decoding of arbitrary bytes. Any bytes are the code of some instructions and a rest at which no
instruction can be read. The main result is that decoding gives back exactly these instructions if
the rest is empty, and otherwise says what stands at its front. -/

namespace RobotBlocks

theorem wordBytes_wordOfBytes (a b : UInt8) : wordBytes (wordOfBytes a b) = [a, b] := by
  have ha := a.toNat_lt
  have hb := b.toNat_lt
  have hw : (wordOfBytes a b).toNat = 256 * a.toNat + b.toNat := by
    simp [wordOfBytes]
    omega
  have hhigh : (256 * a.toNat + b.toNat) / 256 = a.toNat := by omega
  have hlow : (256 * a.toNat + b.toNat) % 256 = b.toNat := by omega
  simp [wordBytes, hw, hhigh, hlow]

namespace Opcode

theorem ofByte?_eq_some {b : UInt8} {op : Opcode} : ofByte? b = some op ↔ op.byte = b := by
  constructor
  · intro h
    simpa using List.find?_some h
  · rintro rfl
    exact ofByte?_byte op

theorem ofByte?_eq_none {b : UInt8} : ofByte? b = none ↔ ∀ op : Opcode, op.byte ≠ b := by
  rw [Option.eq_none_iff_forall_ne_some]
  simp only [ne_eq, ofByte?_eq_some]

end Opcode

namespace Operand

variable {k : OperandKind} {ks : List OperandKind} {bytes rest : List UInt8} {o : Operand}
  {os : List Operand}

/-- What is read is encoded by the bytes that were taken. -/
theorem read?_eq_some (h : read? k bytes = some (o, rest)) :
    o.kind = k ∧ bytes = o.encode ++ rest := by
  unfold read? at h
  split at h <;> cases h <;> simp [kind, encode, wordBytes_wordOfBytes]

theorem read?_of_le (h : k.width ≤ bytes.length) : ∃ o rest, read? k bytes = some (o, rest) := by
  match bytes with
  | [] => cases k <;> simp [OperandKind.width] at h
  | [b] => cases k <;> simp_all [OperandKind.width, read?]
  | a :: b :: bytes => cases k <;> simp [read?]

theorem readAll?_eq_some (h : readAll? ks bytes = some (os, rest)) :
    os.map kind = ks ∧ bytes = os.flatMap encode ++ rest := by
  induction ks generalizing bytes os with
  | nil =>
    cases h
    simp
  | cons k ks ih =>
    obtain ⟨⟨o, middle⟩, ho, h⟩ := Option.bind_eq_some_iff.mp h
    obtain ⟨⟨os, last⟩, hos, h⟩ := Option.bind_eq_some_iff.mp h
    cases h
    obtain ⟨rfl, rfl⟩ := read?_eq_some ho
    obtain ⟨rfl, rfl⟩ := ih hos
    simp

theorem readAll?_of_le (h : OperandKind.totalWidth ks ≤ bytes.length) :
    ∃ os rest, readAll? ks bytes = some (os, rest) := by
  induction ks generalizing bytes with
  | nil => exact ⟨[], bytes, rfl⟩
  | cons k ks ih =>
    rw [OperandKind.totalWidth] at h
    obtain ⟨o, middle, ho⟩ := @read?_of_le k bytes (by omega)
    obtain ⟨rfl, rfl⟩ := read?_eq_some ho
    rw [List.length_append, length_encode] at h
    obtain ⟨os, rest, hos⟩ := @ih middle (by omega)
    exact ⟨o :: os, rest, by simp [readAll?, ho, hos]⟩

/-- Operands can be read exactly if there are bytes enough for their kinds. -/
theorem readAll?_eq_none : readAll? ks bytes = none ↔ bytes.length < OperandKind.totalWidth ks := by
  constructor
  · intro h
    by_contra hle
    obtain ⟨os, rest, hos⟩ := readAll?_of_le (Nat.not_lt.mp hle)
    rw [h] at hos
    cases hos
  · intro hlt
    by_contra h
    obtain ⟨⟨os, rest⟩, h⟩ := Option.ne_none_iff_exists'.mp h
    obtain ⟨rfl, rfl⟩ := readAll?_eq_some h
    rw [List.length_append, length_flatMap_encode] at hlt
    omega

end Operand

/-- Why no instruction can be read at the offset of an error: the byte there is no opcode, or it is
one that takes more bytes than are left. -/
inductive Broken (code : List UInt8) : DecodeError → Prop where
  | unknownOpcode {offset : Nat} {b : UInt8} (hb : code[offset]? = some b)
      (hop : ∀ op : Opcode, op.byte ≠ b) : Broken code (.unknownOpcode offset b)
  | truncated {offset : Nat} {op : Opcode} (hb : code[offset]? = some op.byte)
      (hsize : code.length < offset + op.size) : Broken code (.truncated offset op)

/-- An instruction that stands at its offset in some code. -/
structure Stands (code : List UInt8) (line : Line) : Prop where
  wellFormed : line.instruction.WellFormed
  within : line.offset + line.size ≤ code.length
  bytes : (code.drop line.offset).take line.size = line.instruction.encode

/-- Reading at an offset gives an instruction that stands there, or says what is wrong there. -/
theorem Line.read_cases {code : List UInt8} {offset : Nat} {b : UInt8} {rest : List UInt8}
    (h : code.drop offset = b :: rest) :
    (∃ i after, Line.read offset b rest = .ok (⟨offset, i⟩, after) ∧ i.WellFormed ∧
      b :: rest = i.encode ++ after) ∨
    ∃ e, Line.read offset b rest = .error e ∧ e.offset = offset ∧ Broken code e := by
  have hb : code[offset]? = some b := by
    rw [← List.head?_drop, h, List.head?_cons]
  have hlen : code.length = offset + (rest.length + 1) := by
    have hdrop := congrArg List.length h
    rw [List.length_drop, List.length_cons] at hdrop
    omega
  unfold Line.read
  cases hop : Opcode.ofByte? b with
  | none => exact .inr ⟨_, rfl, rfl, .unknownOpcode hb (Opcode.ofByte?_eq_none.mp hop)⟩
  | some op =>
    obtain rfl := Opcode.ofByte?_eq_some.mp hop
    cases hos : Operand.readAll? op.operands rest with
    | none =>
      refine .inr ⟨_, by simp only [hos], rfl, .truncated hb ?_⟩
      have hlt := Operand.readAll?_eq_none.mp hos
      rw [Opcode.size]
      omega
    | some read =>
      obtain ⟨os, after⟩ := read
      obtain ⟨hkinds, rfl⟩ := Operand.readAll?_eq_some hos
      exact .inl ⟨⟨op, os⟩, after, by simp only [hos], hkinds, rfl⟩

/-- Nothing can be broken where an instruction can be read, so one error explains a place. -/
theorem Broken.read {code : List UInt8} {e : DecodeError} (h : Broken code e) :
    ∃ b rest, code.drop e.offset = b :: rest ∧ Line.read e.offset b rest = .error e := by
  cases h with
  | @unknownOpcode offset b hb hop =>
    obtain ⟨hlt, rfl⟩ := List.getElem?_eq_some_iff.mp hb
    refine ⟨_, _, List.drop_eq_getElem_cons hlt, ?_⟩
    rw [Line.read, Opcode.ofByte?_eq_none.mpr hop]
    rfl
  | @truncated offset op hb hsize =>
    obtain ⟨hlt, hop⟩ := List.getElem?_eq_some_iff.mp hb
    refine ⟨_, _, List.drop_eq_getElem_cons hlt, ?_⟩
    have hnone : Operand.readAll? op.operands (code.drop (offset + 1)) = none := by
      rw [Operand.readAll?_eq_none, List.length_drop]
      rw [Opcode.size] at hsize
      omega
    show Line.read offset code[offset] (code.drop (offset + 1)) = _
    rw [Line.read, hop, Opcode.ofByte?_byte]
    simp only [hnone]

/-- Decoding stops at the first place where no instruction can be read. -/
theorem decode_of_broken {code : List Instruction} (h : ∀ i ∈ code, i.WellFormed)
    {rest : List UInt8} {e : DecodeError} (he : Broken (codeBytes code ++ rest) e)
    (hoffset : e.offset = codeSize code) : decode (codeBytes code ++ rest) = .error e := by
  obtain ⟨b, after, hdrop, hread⟩ := he.read
  obtain ⟨turns, hturns, hdecode⟩ := decode_append h rest
  rw [hoffset, ← length_codeBytes h, List.drop_left] at hdrop
  rw [hoffset] at hread
  subst hdrop
  obtain ⟨turns, rfl⟩ := Nat.exists_eq_add_one_of_ne_zero (show turns ≠ 0 by
    rintro rfl
    simp at hturns)
  rw [hdecode, decodeFrom, hread]

/-- Any bytes are some instructions and a rest that is empty or broken at its front. -/
theorem exists_instructions (bytes : List UInt8) :
    ∃ code rest, (∀ i ∈ code, Instruction.WellFormed i) ∧ bytes = codeBytes code ++ rest ∧
      (rest = [] ∨ ∃ e, Broken bytes e ∧ e.offset = codeSize code) := by
  -- the induction is on what is left behind the instructions found so far
  suffices hfrom : ∀ n code rest, rest.length ≤ n → (∀ i ∈ code, Instruction.WellFormed i) →
      bytes = codeBytes code ++ rest → ∃ code rest, (∀ i ∈ code, Instruction.WellFormed i) ∧
        bytes = codeBytes code ++ rest ∧
        (rest = [] ∨ ∃ e, Broken bytes e ∧ e.offset = codeSize code) from
    hfrom bytes.length [] bytes le_rfl (by simp) rfl
  intro n
  induction n with
  | zero =>
    intro code rest hn hcode hbytes
    exact ⟨code, rest, hcode, hbytes, .inl (List.length_eq_zero_iff.mp (by omega))⟩
  | succ n ih =>
    intro code rest hn hcode hbytes
    match rest with
    | [] => exact ⟨code, [], hcode, hbytes, .inl rfl⟩
    | b :: rest =>
      have hdrop : bytes.drop (codeSize code) = b :: rest := by
        rw [hbytes, ← length_codeBytes hcode, List.drop_left]
      rcases Line.read_cases hdrop with ⟨i, after, -, hi, hafter⟩ | ⟨e, -, hoffset, hbroken⟩
      · have hlen := congrArg List.length hafter
        rw [List.length_append, List.length_cons, hi.length_encode, Opcode.size] at hlen
        rw [List.length_cons] at hn
        refine ih (code ++ [i]) after (by omega) ?_ ?_
        · simpa [or_imp, forall_and] using ⟨hcode, hi⟩
        · rw [hbytes, hafter]
          simp
      · exact ⟨code, b :: rest, hcode, hbytes, .inr ⟨e, hbroken, hoffset⟩⟩

/-- The lines of some bytes: their instructions encode the bytes, and each stands behind all that are
before it. -/
structure Transcribes (code : List UInt8) (lines : List Line) : Prop where
  wellFormed : ∀ line ∈ lines, line.instruction.WellFormed
  bytes : codeBytes (lines.map Line.instruction) = code
  offset : ∀ before line after, lines = before ++ line :: after →
    line.offset = codeSize (before.map Line.instruction)

theorem offset_linesFrom {offset : Nat} {code : List Instruction} {before after : List Line}
    {line : Line} (h : linesFrom offset code = before ++ line :: after) :
    line.offset = offset + codeSize (before.map Line.instruction) := by
  induction code generalizing offset before with
  | nil => simp [linesFrom] at h
  | cons i code ih =>
    rw [linesFrom] at h
    cases before with
    | nil =>
      cases h
      rfl
    | cons first before =>
      obtain ⟨rfl, hrest⟩ := List.cons.inj h
      rw [ih hrest, List.map_cons, codeSize_cons, Nat.add_assoc]

theorem transcribes_linesFrom {code : List Instruction} (h : ∀ i ∈ code, i.WellFormed) :
    Transcribes (codeBytes code) (linesFrom 0 code) where
  wellFormed line hline := h _ (instruction_mem hline)
  bytes := by rw [instruction_linesFrom]
  offset before line after hsplit := by rw [offset_linesFrom hsplit, Nat.zero_add]

theorem Transcribes.forall_wellFormed {code : List UInt8} {lines : List Line}
    (h : Transcribes code lines) : ∀ i ∈ lines.map Line.instruction, i.WellFormed := by
  simpa using h.wellFormed

theorem Transcribes.codeSize_eq {code : List UInt8} {lines : List Line}
    (h : Transcribes code lines) : codeSize (lines.map Line.instruction) = code.length := by
  rw [← length_codeBytes h.forall_wellFormed, h.bytes]

/-- The offsets of lines are settled by their instructions. -/
theorem Transcribes.eq_linesFrom {code : List UInt8} {lines : List Line}
    (h : Transcribes code lines) : lines = linesFrom 0 (lines.map Line.instruction) := by
  suffices hfrom : ∀ before after, lines = before ++ after →
      after = linesFrom (codeSize (before.map Line.instruction)) (after.map Line.instruction) from
    hfrom [] lines rfl
  intro before after hsplit
  induction after generalizing before with
  | nil => rfl
  | cons line after ih =>
    have hrest := ih (before ++ [line]) (by rw [hsplit, List.append_assoc, List.singleton_append])
    rw [List.map_append, codeSize_append, ← h.offset before line after hsplit] at hrest
    rw [List.map_cons, linesFrom, ← h.offset before line after hsplit]
    exact congrArg (line :: ·) hrest

/-- The instructions before a place where nothing can be read end there. -/
theorem Broken.codeSize_eq {code : List UInt8} {e : DecodeError} (he : Broken code e)
    {lines : List Line} (h : Transcribes (code.take e.offset) lines) :
    codeSize (lines.map Line.instruction) = e.offset := by
  obtain ⟨b, rest, hdrop, -⟩ := he.read
  have hlen := congrArg List.length hdrop
  rw [List.length_drop, List.length_cons] at hlen
  rw [h.codeSize_eq, List.length_take]
  omega

theorem decode_eq_ok {code : List UInt8} {lines : List Line} :
    decode code = .ok lines ↔ Transcribes code lines := by
  constructor
  · intro h
    obtain ⟨instructions, rest, hwell, hcode, hrest | ⟨e, he, hoffset⟩⟩ := exists_instructions code
    · rw [hcode, hrest, List.append_nil, decode_codeBytes hwell] at h
      cases h
      rw [hcode, hrest, List.append_nil]
      exact transcribes_linesFrom hwell
    · rw [hcode] at he
      rw [hcode, decode_of_broken hwell he hoffset] at h
      cases h
  · intro h
    rw [← h.bytes, decode_codeBytes h.forall_wellFormed, ← h.eq_linesFrom]

/-- Decoding fails exactly where the bytes so far can be decoded and the next ones are broken. -/
theorem decode_eq_error {code : List UInt8} {e : DecodeError} :
    decode code = .error e ↔
      (∃ lines, decode (code.take e.offset) = .ok lines) ∧ Broken code e := by
  constructor
  · intro h
    obtain ⟨instructions, rest, hwell, hcode, hrest | ⟨e', he, hoffset⟩⟩ := exists_instructions code
    · rw [hcode, hrest, List.append_nil, decode_codeBytes hwell] at h
      cases h
    · have he' := he
      rw [hcode] at he
      rw [hcode, decode_of_broken hwell he hoffset] at h
      cases h
      refine ⟨⟨linesFrom 0 instructions, ?_⟩, he'⟩
      rw [hoffset, hcode, ← length_codeBytes hwell, List.take_left, decode_codeBytes hwell]
  · rintro ⟨⟨lines, hlines⟩, hbroken⟩
    have h := decode_eq_ok.mp hlines
    have hsplit : code = codeBytes (lines.map Line.instruction) ++ code.drop e.offset := by
      rw [h.bytes, List.take_append_drop]
    have hoffset := hbroken.codeSize_eq h
    rw [hsplit] at hbroken ⊢
    exact decode_of_broken h.forall_wellFormed hbroken hoffset.symm

/-- Within the code, reading at an offset always gives an answer: an instruction all of whose bytes
are there, or what is wrong at that offset. -/
theorem decodeAt?_of_lt {code : List UInt8} {offset : Nat} (h : offset < code.length) :
    (∃ line, decodeAt? code offset = some (.ok line) ∧ line.offset = offset ∧ Stands code line) ∨
      ∃ e, decodeAt? code offset = some (.error e) ∧ e.offset = offset ∧ Broken code e := by
  have hdrop := List.drop_eq_getElem_cons h
  unfold decodeAt?
  rw [hdrop]
  rcases Line.read_cases hdrop with ⟨i, after, hread, hi, hbytes⟩ | ⟨e, hread, hoffset, hbroken⟩
  · refine .inl ⟨⟨offset, i⟩, by simp [hread, Except.map], rfl, hi, ?_, ?_⟩
    · have hlen := congrArg List.length (hdrop.trans hbytes)
      rw [List.length_drop, List.length_append, hi.length_encode] at hlen
      show offset + i.opcode.size ≤ code.length
      omega
    · show (code.drop offset).take i.opcode.size = i.encode
      rw [hdrop, hbytes, ← hi.length_encode, List.take_left]
  · exact .inr ⟨e, by simp [hread, Except.map], hoffset, hbroken⟩

/-- Decoding is the exact inverse of encoding. It succeeds on the encodings of instructions and on no
other bytes, and fails at the first offset where no instruction can be read. -/
theorem decode_inverts_encode :
    (∀ code lines, decode code = .ok lines ↔ Transcribes code lines) ∧
    (∀ instructions, (∀ i ∈ instructions, Instruction.WellFormed i) →
      ∃ lines, decode (codeBytes instructions) = .ok lines ∧
        lines.map Line.instruction = instructions ∧
        Transcribes (codeBytes instructions) lines) ∧
    (∀ code e, decode code = .error e ↔
      (∃ lines, decode (code.take e.offset) = .ok lines) ∧ Broken code e) ∧
    (∀ code offset, offset < code.length →
      (∃ line, decodeAt? code offset = some (.ok line) ∧ line.offset = offset ∧
        Stands code line) ∨
      ∃ e, decodeAt? code offset = some (.error e) ∧ e.offset = offset ∧ Broken code e) := by
  refine ⟨fun _ _ => decode_eq_ok, fun instructions h => ?_, fun _ _ => decode_eq_error,
    fun _ _ => decodeAt?_of_lt⟩
  exact ⟨linesFrom 0 instructions, decode_codeBytes h, instruction_linesFrom 0 instructions,
    transcribes_linesFrom h⟩

/-- A constant, and a jump that lacks its second address byte. -/
def cutCode : List UInt8 := [32, 0, 7, 17, 0]

theorem decode_inverts_encode_cut :
    (decode cutCode = .error (.truncated 3 .jumpIfFalse) ∧
      (∃ lines, decode (cutCode.take 3) = .ok lines) ∧ Broken cutCode (.truncated 3 .jumpIfFalse)) ∧
    (codeBytes [⟨.pushConst, [.word 7]⟩] = cutCode.take 3 ∧ ∃ lines,
      decode (codeBytes [⟨.pushConst, [.word 7]⟩]) = .ok lines ∧
        lines.map Line.instruction = [⟨.pushConst, [.word 7]⟩] ∧
        Transcribes (codeBytes [⟨.pushConst, [.word 7]⟩]) lines) ∧
    ∃ e, decodeAt? cutCode 3 = some (.error e) ∧ e.offset = 3 ∧ Broken cutCode e := by
  obtain ⟨-, hencode, hfail, hread⟩ := decode_inverts_encode
  have hcut : decode cutCode = .error (.truncated 3 .jumpIfFalse) := by decide +kernel
  refine ⟨⟨hcut, (hfail _ _).mp hcut⟩, ⟨by decide, hencode _ (by decide)⟩, ?_⟩
  rcases hread cutCode 3 (by decide) with ⟨line, hline, -, -⟩ | herror
  · have hnone : decodeAt? cutCode 3 = some (.error (.truncated 3 .jumpIfFalse)) := by decide +kernel
    rw [hnone] at hline
    cases hline
  · exact herror

end RobotBlocks
