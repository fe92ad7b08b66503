import Mathlib
import RobotBlocks.Link.Packet
import RobotBlocks.Listing

/-! Texts in lines. The text of a packet or an instruction stays on its line, and no such line begins
as the report of an error does. -/

namespace RobotBlocks

/-- A text without a line end. -/
def OneLine (text : String) : Prop := '\n' ∉ text.toList

instance (text : String) : Decidable (OneLine text) := inferInstanceAs (Decidable (¬_))

namespace OneLine

variable {a b : String}

theorem append (ha : OneLine a) (hb : OneLine b) : OneLine (a ++ b) := by
  unfold OneLine
  rw [String.toList_append, List.mem_append, not_or]
  exact ⟨ha, hb⟩

theorem join {parts : List String} (h : ∀ part ∈ parts, OneLine part) :
    OneLine (String.join parts) := by
  induction parts with
  | nil => decide
  | cons part parts ih =>
    obtain ⟨hpart, hparts⟩ := List.forall_mem_cons.mp h
    rw [String.join_cons]
    exact hpart.append (ih hparts)

theorem of_forall_isDigit (h : ∀ c ∈ a.toList, c.isDigit) : OneLine a := fun hmem =>
  absurd (h _ hmem) (by decide)

end OneLine

namespace Text

theorem isDigit_of_mem_toString {n : Nat} {c : Char} (h : c ∈ (toString n).toList) :
    c.isDigit := by
  rw [Nat.toString_eq_repr, Nat.toList_repr] at h
  exact Nat.isDigit_of_mem_toDigits (by decide) (by decide) h

theorem isDigit_of_mem_offset {n : Nat} {c : Char} (h : c ∈ (offset n).toList) : c.isDigit := by
  unfold offset at h
  rw [String.toList_append, String.toList_ofList] at h
  rcases List.mem_append.mp h with h | h
  · rw [List.eq_of_mem_replicate h]
    rfl
  · exact isDigit_of_mem_toString h

theorem oneLine_toString (n : Nat) : OneLine (toString n) :=
  .of_forall_isDigit fun _ => isDigit_of_mem_toString

theorem oneLine_offset (n : Nat) : OneLine (offset n) :=
  .of_forall_isDigit fun _ => isDigit_of_mem_offset

theorem oneLine_toString_int (i : Int) : OneLine (toString i) := by
  cases i with
  | ofNat n => exact oneLine_toString n
  | negSucc n => exact OneLine.append (by decide) (oneLine_toString (n + 1))

theorem oneLine_hexByte (b : UInt8) : OneLine (String.ofList (hexByte true b)) := by
  have hdigit : ∀ n < 16, '\n' ≠ hexDigit true n := by decide
  have hb := b.toNat_lt
  simp only [OneLine, hexByte, String.toList_ofList, List.mem_cons, List.not_mem_nil, or_false,
    not_or]
  exact ⟨hdigit _ (by omega), hdigit _ (by omega)⟩

theorem oneLine_intercalate {parts : List String} (h : ∀ part ∈ parts, OneLine part) :
    OneLine (", ".intercalate parts) := by
  induction parts with
  | nil => decide
  | cons part parts ih =>
    obtain ⟨hpart, hparts⟩ := List.forall_mem_cons.mp h
    cases parts with
    | nil => simpa using hpart
    | cons next parts =>
      rw [String.intercalate_cons_cons]
      exact (hpart.append (by decide)).append (ih hparts)

theorem oneLine_byteList (bytes : List UInt8) : OneLine (byteList bytes) := by
  have hbytes : OneLine (", ".intercalate (bytes.map fun b => String.ofList (hexByte true b))) := by
    apply oneLine_intercalate
    simpa using fun b _ => oneLine_hexByte b
  exact (OneLine.append (by decide) hbytes).append (by decide)

theorem oneLine_padRight {text : String} (h : OneLine text) (width : Nat) :
    OneLine (padRight width text) := by
  refine h.append ?_
  simp [OneLine]

end Text

theorem Opcode.oneLine_mnemonic (op : Opcode) : OneLine op.mnemonic := by
  cases op <;> decide

theorem Operand.oneLine_text (o : Operand) : OneLine o.text := by
  cases o with
  | speed v => exact Text.oneLine_toString_int _
  | byte v => exact Text.oneLine_toString _
  | word v => exact Text.oneLine_toString_int _
  | address v => exact OneLine.append (by decide) (Text.oneLine_offset _)
  | count v => exact OneLine.append (by decide) (Text.oneLine_toString _)
  | millis v => exact (Text.oneLine_toString _).append (by decide)

theorem DecodeError.oneLine_message (e : DecodeError) : OneLine e.message := by
  cases e with
  | unknownOpcode offset b =>
    exact ((OneLine.append (by decide) (Text.oneLine_hexByte b)).append (by decide)).append
      (Text.oneLine_toString offset)
  | truncated offset op =>
    exact (((Opcode.oneLine_mnemonic op).append (by decide)).append
      (Text.oneLine_toString offset)).append (by decide)

theorem Line.oneLine_operands (l : Line) :
    OneLine (String.join (l.instruction.operands.map fun o => " " ++ o.text)) := by
  apply OneLine.join
  simp only [List.forall_mem_map]
  exact fun o _ => OneLine.append (by decide) o.oneLine_text

/-- A line that begins with neither of the marks of errors and unknown packets. -/
structure Quiet (line : String) : Prop where
  oneLine : OneLine line
  head : ∃ c ∈ line.toList.head?, c ≠ '!' ∧ c ≠ '?'

namespace Quiet

variable {line rest : String}

theorem append (h : Quiet line) (hrest : OneLine rest) : Quiet (line ++ rest) where
  oneLine := h.oneLine.append hrest
  head := by
    obtain ⟨c, hc, hne⟩ := h.head
    refine ⟨c, ?_, hne⟩
    rw [String.toList_append, List.head?_append, Option.mem_def.mp hc]
    rfl

theorem not_marked (h : Quiet line) :
    ¬"!!".toList <+: line.toList ∧ ¬"??".toList <+: line.toList := by
  obtain ⟨c, hc, hbang, hquery⟩ := h.head
  constructor
  · rintro ⟨rest, hrest⟩
    rw [← hrest] at hc
    exact hbang (Option.some.inj hc).symm
  · rintro ⟨rest, hrest⟩
    rw [← hrest] at hc
    exact hquery (Option.some.inj hc).symm

end Quiet

theorem Text.quiet_offset (n : Nat) : Quiet (offset n) where
  oneLine := oneLine_offset n
  head := by
    have hne : (offset n).toList ≠ [] := by
      simp [offset]
    obtain ⟨c, rest, hchars⟩ := List.exists_cons_of_ne_nil hne
    have hdigit : c.isDigit := isDigit_of_mem_offset (n := n) (by simp [hchars])
    refine ⟨c, by simp [hchars], ?_, ?_⟩
    · rintro rfl
      exact absurd hdigit (by decide)
    · rintro rfl
      exact absurd hdigit (by decide)

theorem Line.quiet_text (l : Line) : Quiet l.text :=
  (((Text.quiet_offset _).append (by decide)).append
    (Text.oneLine_padRight l.instruction.opcode.oneLine_mnemonic 12)).append l.oneLine_operands

theorem Packet.quiet_text (p : Packet) : Quiet p.text := by
  have hname : Quiet p.command.name := by
    cases p.command <;> exact ⟨by decide, _, rfl, by decide⟩
  unfold text
  split_ifs
  · exact hname
  · exact ((((hname.append (by decide)).append (Text.oneLine_toString _)).append
      (by decide))).append (Text.oneLine_byteList _)

/-- The lines of a listing are quiet, also the one of bytes that cannot be decoded. -/
theorem quiet_listingFrom {turns offset : Nat} {code : List UInt8} {done : List String}
    (h : ∀ line ∈ done, Quiet line) : ∀ line ∈ listingFrom turns offset code done, Quiet line := by
  fun_induction listingFrom turns offset code done with
  | case1 => simpa using h
  | case2 => simpa using h
  | case3 turns offset b rest done e he =>
    have hlast : Quiet (Text.offset offset ++ "  ?? " ++ e.message ++ ": "
        ++ Text.byteList (b :: rest)) :=
      ((((Text.quiet_offset offset).append (by decide)).append e.oneLine_message).append
        (by decide)).append (Text.oneLine_byteList _)
    intro line hline
    rw [List.mem_reverse] at hline
    exact List.forall_mem_cons.mpr ⟨hlast, h⟩ line hline
  | case4 turns offset b rest done line rest' hline ih =>
    exact ih (List.forall_mem_cons.mpr ⟨line.quiet_text, h⟩)

/-- A text of quiet lines, each with its end. -/
def InLines (text : String) : Prop :=
  ∃ lines : List String, text = String.join (lines.map (· ++ "\n")) ∧ ∀ line ∈ lines, Quiet line

theorem InLines.append {a b : String} (ha : InLines a) (hb : InLines b) : InLines (a ++ b) := by
  obtain ⟨first, rfl, hfirst⟩ := ha
  obtain ⟨later, rfl, hlater⟩ := hb
  refine ⟨first ++ later, ?_, List.forall_mem_append.mpr ⟨hfirst, hlater⟩⟩
  rw [List.map_append, String.join_append]

theorem inLines_listing (code : List UInt8) {name : String} (hname : OneLine name) :
    InLines (listing code name) := by
  refine ⟨_, rfl, List.forall_mem_cons.mpr ⟨?_, quiet_listingFrom (by simp)⟩⟩
  have hmark : Quiet "== " := ⟨by decide, _, rfl, by decide⟩
  exact (((hmark.append hname).append (by decide)).append (Text.oneLine_toString _)).append
    (by decide)

end RobotBlocks
