import Mathlib
import RobotBlocks.Proofs.Disassembly
import RobotBlocks.Proofs.Lines

/-! Listings of arbitrary bytes. A listing is written instruction by instruction, without regard to
whether the bytes can be decoded to their end. The main result is that it shows what decoding gives,
and behind an error the bytes that are left. -/

namespace RobotBlocks

/-- The first line of a listing. -/
def listingTitle (code : List UInt8) (name : String) : String :=
  "== " ++ name ++ " (" ++ toString code.length ++ " bytes) =="

/-- The line of bytes that cannot be decoded: where they start, what is wrong, and the bytes. -/
def DecodeError.text (e : DecodeError) (rest : List UInt8) : String :=
  Text.offset e.offset ++ "  ?? " ++ e.message ++ ": " ++ Text.byteList rest

/-- Lines under each other, each with its end. -/
def underEachOther (lines : List String) : String := String.join (lines.map (· ++ "\n"))

theorem DecodeError.oneLine_text (e : DecodeError) (rest : List UInt8) : OneLine (e.text rest) :=
  ((((Text.oneLine_offset _).append (by decide)).append e.oneLine_message).append
    (by decide)).append (Text.oneLine_byteList rest)

/-- Instructions at the front are listed first, whatever stands behind them. -/
theorem listingFrom_append {code : List Instruction} (h : ∀ i ∈ code, i.WellFormed)
    (turns offset : Nat) (rest : List UInt8) (done : List String) :
    listingFrom (code.length + turns) offset (codeBytes code ++ rest) done =
      listingFrom turns (offset + codeSize code) rest
        (((linesFrom offset code).map Line.text).reverse ++ done) := by
  induction code generalizing offset done with
  | nil => simp [linesFrom]
  | cons i code ih =>
    obtain ⟨hi, hcode⟩ := List.forall_mem_cons.mp h
    have hturns : (i :: code).length + turns = code.length + turns + 1 := by
      rw [List.length_cons]
      omega
    rw [hturns, codeBytes_cons, Instruction.encode, List.append_assoc, List.cons_append,
      listingFrom, Line.read_encode hi]
    show listingFrom (code.length + turns) (offset + i.opcode.size) (codeBytes code ++ rest)
      (Line.text ⟨offset, i⟩ :: done) = _
    rw [ih hcode, codeSize_cons, Nat.add_assoc]
    simp [linesFrom]

/-- A listing shows the instructions at the front and goes on with the bytes behind them. -/
theorem listing_append {code : List Instruction} (h : ∀ i ∈ code, i.WellFormed)
    (rest : List UInt8) (name : String) : ∃ turns, rest.length ≤ turns ∧
      listing (codeBytes code ++ rest) name =
        underEachOther (listingTitle (codeBytes code ++ rest) name ::
          listingFrom turns (codeSize code) rest ((linesFrom 0 code).map Line.text).reverse) := by
  obtain ⟨turns, hle, hturns⟩ := exists_turns h rest
  have hlines := listingFrom_append h turns 0 rest []
  rw [← hturns, Nat.zero_add, List.append_nil] at hlines
  refine ⟨turns, hle, ?_⟩
  rw [listing, hlines]
  rfl

theorem listing_of_transcribes {code : List UInt8} {lines : List Line} (h : Transcribes code lines)
    (name : String) :
    listing code name = underEachOther (listingTitle code name :: lines.map Line.text) := by
  obtain ⟨turns, -, hlisting⟩ := listing_append h.forall_wellFormed [] name
  rw [List.append_nil, h.bytes, ← h.eq_linesFrom] at hlisting
  rw [hlisting]
  cases turns <;> simp [listingFrom]

theorem listing_of_broken {code : List UInt8} {e : DecodeError} {lines : List Line}
    (h : Transcribes (code.take e.offset) lines) (he : Broken code e) (name : String) :
    listing code name = underEachOther
      (listingTitle code name :: lines.map Line.text ++ [e.text (code.drop e.offset)]) := by
  obtain ⟨b, rest, hdrop, hread⟩ := he.read
  obtain ⟨turns, hturns, hlisting⟩ := listing_append h.forall_wellFormed (code.drop e.offset) name
  rw [h.bytes, List.take_append_drop, ← h.eq_linesFrom, he.codeSize_eq h, hdrop] at hlisting
  rw [hdrop, List.length_cons] at hturns
  obtain ⟨turns, rfl⟩ := Nat.exists_eq_add_one_of_ne_zero (show turns ≠ 0 by omega)
  rw [hlisting, listingFrom, hread, hdrop]
  simp [DecodeError.text]

/-- A listing agrees with decoding. Under its title it has one line for each instruction and, if
decoding fails, one last line with the error and the bytes from there on. So the instructions and
these bytes are together the code. -/
theorem listing_agrees_with_decode (code : List UInt8) (name : String) :
    (∀ lines, decode code = .ok lines →
      listing code name = underEachOther (listingTitle code name :: lines.map Line.text) ∧
        (∀ line ∈ lines, OneLine line.text) ∧ codeBytes (lines.map Line.instruction) = code) ∧
    ∀ e, decode code = .error e → ∃ lines, decode (code.take e.offset) = .ok lines ∧
      listing code name = underEachOther
        (listingTitle code name :: lines.map Line.text ++ [e.text (code.drop e.offset)]) ∧
      (∀ line ∈ lines, OneLine line.text) ∧ OneLine (e.text (code.drop e.offset)) ∧
      codeBytes (lines.map Line.instruction) ++ code.drop e.offset = code := by
  constructor
  · intro lines h
    have hlines := decode_eq_ok.mp h
    exact ⟨listing_of_transcribes hlines name, fun line _ => line.quiet_text.oneLine, hlines.bytes⟩
  · intro e h
    obtain ⟨⟨lines, hdecode⟩, hbroken⟩ := decode_eq_error.mp h
    have hlines := decode_eq_ok.mp hdecode
    refine ⟨lines, hdecode, listing_of_broken hlines hbroken name,
      fun line _ => line.quiet_text.oneLine, e.oneLine_text _, ?_⟩
    rw [hlines.bytes, List.take_append_drop]

/-- A jump that lacks a byte is listed as it is, behind the constant before it. -/
theorem listing_agrees_with_decode_cut :
    (decode cutCode = .error (.truncated 3 .jumpIfFalse) ∧ ∃ lines,
      decode (cutCode.take 3) = .ok lines ∧ listing cutCode "cut" = underEachOther
        (listingTitle cutCode "cut" :: lines.map Line.text
          ++ [DecodeError.text (.truncated 3 .jumpIfFalse) (cutCode.drop 3)])) ∧
    decode (cutCode.take 3) = .ok [⟨0, .pushConst, [.word 7]⟩] ∧
      listing (cutCode.take 3) "constant" = underEachOther
        ["== constant (3 bytes) ==", Line.text ⟨0, .pushConst, [.word 7]⟩] := by
  have hcut : decode cutCode = .error (.truncated 3 .jumpIfFalse) := by decide +kernel
  have hconstant : decode (cutCode.take 3) = .ok [⟨0, .pushConst, [.word 7]⟩] := by decide +kernel
  obtain ⟨lines, hdecode, hlisting, -⟩ := (listing_agrees_with_decode cutCode "cut").2 _ hcut
  refine ⟨⟨hcut, lines, hdecode, hlisting⟩, hconstant, ?_⟩
  exact ((listing_agrees_with_decode (cutCode.take 3) "constant").1 _ hconstant).1

end RobotBlocks
