import Mathlib
import RobotBlocks.Proofs.Depth

/-! Written blocks and workspaces read back. Each record is laid out as the list of its members, of
which some may be left out; a block reads back if the blocks in it do. -/

namespace RobotBlocks

open Json Json.Reader

namespace Json.Reader.Entry

variable {α σ : Type}

theorem forall_value_optional {name : String} {a : Option α} {write : α → List Char}
    {put : α → σ → σ} {P : List Char → Prop} :
    (∀ text, (Entry.optional name a write put).value = some text → P text) ↔
      ∀ v, a = some v → P (write v) := by
  simp [Entry.optional]

theorem balanced_texts {entries : List (Entry σ)}
    (h : ∀ e ∈ entries, ∀ text, e.value = some text → Balanced text) :
    ∀ m ∈ entries.flatMap texts, Balanced m := by
  intro m hm
  obtain ⟨e, he, hm⟩ := List.mem_flatMap.1 hm
  obtain ⟨text, htext, rfl⟩ := mem_texts.1 hm
  exact ((h e he text htext).member e.name).1

/-- A record takes one level more than the values in it. -/
theorem nesting_texts_le {entries : List (Entry σ)}
    (h : ∀ e ∈ entries, ∀ text, e.value = some text → Balanced text) {depth : Nat} :
    nesting (Writer.object (entries.flatMap texts)) ≤ depth ↔
      ∃ d, depth = d + 1 ∧ ∀ e ∈ entries, ∀ text, e.value = some text → nesting text ≤ d := by
  rw [nesting_object_le (balanced_texts h)]
  refine exists_congr fun d => and_congr_right fun _ => ?_
  constructor
  · intro hm e he text htext
    rw [← ((h e he text htext).member e.name).2]
    exact hm _ (List.mem_flatMap.2 ⟨e, he, mem_texts.2 ⟨text, htext, rfl⟩⟩)
  · intro hm m hmem
    obtain ⟨e, he, hmem⟩ := List.mem_flatMap.1 hmem
    obtain ⟨text, htext, rfl⟩ := mem_texts.1 hmem
    rw [((h e he text htext).member e.name).2]
    exact hm e he text htext

/-- A value is no longer than the record it stands in. -/
theorem length_le_texts {entries : List (Entry σ)} {e : Entry σ} (he : e ∈ entries)
    {text : List Char} (htext : e.value = some text) :
    text.length ≤ (Writer.object (entries.flatMap texts)).length := by
  have hmember : Writer.member e.name text ∈ entries.flatMap texts :=
    List.mem_flatMap.2 ⟨e, he, mem_texts.2 ⟨text, htext, rfl⟩⟩
  exact length_le_object hmember

/-- What the values in a record may use of its turns and its room. -/
theorem exists_room {entries : List (Entry σ)}
    (h : ∀ e ∈ entries, ∀ text, e.value = some text → Balanced text) {bound depth : Nat}
    (hbound : (Writer.object (entries.flatMap texts)).length ≤ bound)
    (hdepth : nesting (Writer.object (entries.flatMap texts)) ≤ depth) :
    ∃ d, depth = d + 1 ∧ ∀ e ∈ entries, ∀ text, e.value = some text →
      text.length ≤ bound ∧ nesting text ≤ d := by
  obtain ⟨d, rfl, hnesting⟩ := (nesting_texts_le h).1 hdepth
  exact ⟨d, rfl, fun e he text htext =>
    ⟨(length_le_texts he htext).trans hbound, hnesting e he text htext⟩⟩

end Json.Reader.Entry

namespace FieldValue

theorem spans_write (v : FieldValue) : Spans 0 v.write := by
  cases v with
  | number x => exact spans_number x
  | flag b => exact spans_flag b
  | text s => exact spans_string s

theorem reads_write {v : FieldValue} (h : ∀ x, v = .number x → ReadsBack x) (bound depth : Nat) :
    Reads (FieldValue.read bound depth) v.write v := by
  cases v with
  | number x =>
    obtain ⟨t, ht⟩ := h x rfl
    obtain ⟨c, hc, hnumber⟩ := exists_head?_of_number ht
    have hopening := isOpening_of_number hnumber
    refine ⟨⟨c, hc, hopening⟩, fun rest hrest => ?_⟩
    have hquote : c ≠ '"' := by
      rintro rfl
      revert hnumber
      decide
    have hword : ¬(c = 't' ∨ c = 'f') := by
      rintro (rfl | rfl) <;> exact absurd hnumber (by decide)
    rw [write, FieldValue.read, bind_ok (peek_append hc hopening rest), if_neg hquote, if_neg hword,
      if_pos hnumber, bind_ok (steady_number.append hrest ht)]
    rfl
  | flag b =>
    have hflag := reads_flag b
    refine ⟨hflag.opens, fun rest hrest => ?_⟩
    cases b
    · rw [write, FieldValue.read, bind_ok (peek_append (c := 'f') rfl (.inl (by simp)) rest),
        if_neg (by decide), if_pos (by decide), bind_ok (hflag.takes rest hrest)]
      rfl
    · rw [write, FieldValue.read, bind_ok (peek_append (c := 't') rfl (.inl (by simp)) rest),
        if_neg (by decide), if_pos (by decide), bind_ok (hflag.takes rest hrest)]
      rfl
  | text s =>
    have hstring := reads_string s
    refine ⟨hstring.opens, fun rest hrest => ?_⟩
    rw [write, FieldValue.read, bind_ok (peek_append (c := '"') rfl (.inl (by simp)) rest),
      if_pos rfl, bind_ok (hstring.takes rest hrest)]
    rfl

theorem nesting_map_le {fields : NameMap FieldValue none} {depth : Nat} :
    nesting (Writer.object (writeMembers fields)) ≤ depth ↔ ∃ d, depth = d + 1 := by
  refine (nesting_members_le fun e _ => e.2.spans_write.balanced).trans ?_
  refine exists_congr fun d => and_iff_left_of_imp fun _ e _ => ?_
  exact e.2.spans_write.nesting_le d

theorem reads_map {fields : NameMap FieldValue none}
    (h : ∀ e ∈ fields.entries, ∀ x, e.2 = .number x → ReadsBack x) {bound depth : Nat}
    (hbound : (Writer.object (writeMembers fields)).length ≤ bound)
    (hdepth : nesting (Writer.object (writeMembers fields)) ≤ depth) :
    Reads (readMap bound depth) (Writer.object (writeMembers fields)) fields := by
  obtain ⟨d, rfl⟩ := nesting_map_le.1 hdepth
  exact Reader.reads_map (fun e he => reads_write (h e he) bound d) hbound

end FieldValue

/-- The number that a field holds, if it holds one. -/
def FieldValue.literal? : FieldValue → Option Binary64
  | number x => some x
  | _ => none

namespace ExtraState

def entries (s : ExtraState) : List (Entry ExtraState) :=
  [ .optional "elseIfCount" (some s.elseIfCount.toNat) Writer.natural
      fun n s => { s with elseIfCount := n.toUInt64 },
    .optional "hasElse" (some s.hasElse) Writer.flag fun b s => { s with hasElse := b } ]

theorem write_eq (s : ExtraState) : s.write = Writer.object (s.entries.flatMap Entry.texts) := rfl

theorem balanced_entries (s : ExtraState) :
    ∀ e ∈ s.entries, ∀ text, e.value = some text → Balanced text := by
  simp only [entries, List.forall_mem_cons, Entry.forall_value_optional]
  exact ⟨fun n _ => (spans_natural n).balanced, fun b _ => (spans_flag b).balanced, by simp⟩

theorem reads_write {s : ExtraState} {bound depth : Nat} (hbound : s.write.length ≤ bound)
    (hdepth : nesting s.write ≤ depth) : Reads (ExtraState.read bound depth) s.write s := by
  rw [write_eq] at hbound hdepth ⊢
  obtain ⟨d, rfl, -⟩ := (Entry.nesting_texts_le s.balanced_entries).1 hdepth
  refine reads_record ?_ (by simp [entries, Entry.optional]) (by simp) hbound ?_
  · simp only [entries, List.forall_mem_cons]
    refine ⟨.optional rfl ?_, .optional rfl ?_, by simp⟩
    · rintro _ ⟨⟩
      exact reads_of (reads_natural s.elseIfCount.toNat_lt le_rfl)
    · rintro _ ⟨⟩
      exact reads_of (reads_flag s.hasElse)
  · simp [entries, Entry.optional]

end ExtraState

namespace LegacyShape

def values (s : LegacyShape) : List FieldValue := s.elseIf.toList ++ s.otherwise.toList

def entries (s : LegacyShape) : List (Entry LegacyShape) :=
  [ .optional "elseif" s.elseIf FieldValue.write fun v s => { s with elseIf := some v },
    .optional "else" s.otherwise FieldValue.write fun v s => { s with otherwise := some v } ]

theorem write_eq (s : LegacyShape) : s.write = Writer.object (s.entries.flatMap Entry.texts) := by
  simp [write, entries, Entry.texts, Entry.optional]

theorem balanced_entries (s : LegacyShape) :
    ∀ e ∈ s.entries, ∀ text, e.value = some text → Balanced text := by
  simp only [entries, List.forall_mem_cons, Entry.forall_value_optional]
  exact ⟨fun v _ => v.spans_write.balanced, fun v _ => v.spans_write.balanced, by simp⟩

theorem reads_write {s : LegacyShape} (h : ∀ v ∈ s.values, ∀ x, v = .number x → ReadsBack x)
    {bound depth : Nat} (hbound : s.write.length ≤ bound) (hdepth : nesting s.write ≤ depth) :
    Reads (LegacyShape.read bound depth) s.write s := by
  rw [write_eq] at hbound hdepth ⊢
  obtain ⟨d, rfl, -⟩ := (Entry.nesting_texts_le s.balanced_entries).1 hdepth
  refine reads_record ?_ (by simp [entries, Entry.optional]) (by simp) hbound ?_
  · simp only [entries, List.forall_mem_cons]
    refine ⟨.optional rfl fun v hv => ?_, .optional rfl fun v hv => ?_, by simp⟩
    · exact reads_of (reads_optional (FieldValue.reads_write (h v (by simp [values, hv])) bound d))
    · exact reads_of (reads_optional (FieldValue.reads_write (h v (by simp [values, hv])) bound d))
  · obtain ⟨elseIf, otherwise⟩ := s
    cases elseIf <;> cases otherwise <;> rfl

end LegacyShape

/-- The blocks of a connection, whether attached or in place of one. -/
def Connection.blocks {β : Type} (c : Connection β) : List β := c.block.toList ++ c.shadow.toList

theorem Connection.mem_blocks {β : Type} {c : Connection β} {b : β} :
    b ∈ c.blocks ↔ c.block = some b ∨ c.shadow = some b := by
  simp [blocks]

namespace Block

/-- The blocks plugged into a block and behind it, shadows as well. -/
def children (b : Block) : List Block :=
  (b.inputs.map Prod.snd ++ b.next.toList).flatMap Connection.blocks

theorem sizeOf_children {b c : Block} (h : c ∈ b.children) : sizeOf c < sizeOf b := by
  obtain ⟨connection, hmem, hc⟩ := List.mem_flatMap.1 h
  have hconnection : sizeOf c < sizeOf connection := by
    obtain ⟨block, shadow⟩ := connection
    rcases Connection.mem_blocks.1 hc with rfl | rfl
    · simp
      omega
    · simp
      omega
  obtain ⟨kind, id, fields, inputs, next, extraState, legacy⟩ := b
  rcases List.mem_append.1 hmem with hmem | hmem
  · obtain ⟨e, he, rfl⟩ := List.mem_map.1 hmem
    have hinput := NameMap.sizeOf_of_mem he
    simp at hinput hconnection ⊢
    omega
  · obtain rfl := Option.mem_toList.1 hmem
    simp
    omega

/-- Induction over all blocks in a block. -/
theorem treeInduction {P : Block → Prop} (h : ∀ b, (∀ c ∈ b.children, P c) → P b) (b : Block) :
    P b :=
  h b fun c _ => treeInduction h c
termination_by sizeOf b
decreasing_by exact sizeOf_children ‹_›

/-- A block and all blocks in it. -/
def parts (b : Block) : List Block := b :: b.children.attach.flatMap fun c => parts c.1
termination_by sizeOf b
decreasing_by exact sizeOf_children c.2

theorem parts_eq (b : Block) : b.parts = b :: b.children.flatMap parts := by
  rw [parts, List.flatMap_subtype (g := parts) (fun c _ => rfl), List.unattach_attach]

/-- The numbers that a block holds itself. -/
def numbers (b : Block) : List Binary64 :=
  (b.fields.map Prod.snd ++ b.legacy.toList.flatMap LegacyShape.values).filterMap
    FieldValue.literal?

theorem mem_numbers {b : Block} {x : Binary64} :
    x ∈ b.numbers ↔ (∃ e ∈ b.fields.entries, e.2 = .number x) ∨
      ∃ s, b.legacy = some s ∧ .number x ∈ s.values := by
  have hliteral (v : FieldValue) : v.literal? = some x ↔ v = .number x := by
    cases v <;> simp [FieldValue.literal?]
  simp [numbers, NameMap.map, List.mem_filterMap, hliteral]

def connectionEntries (c : Connection Block) : List (Entry (Connection Block)) :=
  [ .optional "block" c.block write fun b c => { c with block := some b },
    .optional "shadow" c.shadow write fun b c => { c with shadow := some b } ]

theorem writeConnection_eq (c : Connection Block) :
    writeConnection c = Writer.object ((connectionEntries c).flatMap Entry.texts) := by
  obtain ⟨block, shadow⟩ := c
  cases block <;> cases shadow <;> rfl

theorem writeInputs_eq {low : Option String} (inputs : NameMap (Connection Block) low) :
    writeInputs inputs = inputs.map fun e => Writer.member e.1 (writeConnection e.2) := by
  induction inputs with
  | nil => rfl
  | cons name above c rest ih =>
    rw [writeInputs, ih]
    rfl

/-- A map that is left out when it is empty. -/
def kept? {α : Type} : NameMap α none → Option (NameMap α none)
  | .nil => none
  | m => some m

def entries (b : Block) : List (Entry Block) :=
  [ .optional "type" (some b.kind) Writer.string fun s b => { b with kind := s },
    .optional "id" b.id Writer.string fun s b => { b with id := some s },
    .optional "fields" (kept? b.fields) (fun m => Writer.object (FieldValue.writeMembers m))
      fun m b => { b with fields := m },
    .optional "inputs" (kept? b.inputs) (fun m => Writer.object (writeInputs m))
      fun m b => { b with inputs := m },
    .optional "next" b.next writeConnection fun c b => { b with next := some c },
    .optional "extraState" b.extraState ExtraState.write
      fun s b => { b with extraState := some s },
    .optional "mutation" b.legacy LegacyShape.write fun s b => { b with legacy := some s } ]

theorem write_eq (b : Block) : b.write = Writer.object (b.entries.flatMap Entry.texts) := by
  obtain ⟨kind, id, fields, inputs, next, extraState, legacy⟩ := b
  -- an empty map is left out, and reading leaves the record's own empty map in its place
  have hfields : writeMap? (FieldValue.writeMembers fields) =
      (kept? fields).map fun m => Writer.object (FieldValue.writeMembers m) := by
    cases fields <;> rfl
  have hinputs : writeMap? (writeInputs inputs) =
      (kept? inputs).map fun m => Writer.object (writeInputs m) := by
    cases inputs <;> rfl
  have hnext : writeNext next = next.map writeConnection := by cases next <;> rfl
  rw [write, hfields, hinputs, hnext]
  simp [entries, Entry.texts, Entry.optional, Writer.member?]

theorem fold_entries (b : Block) : b.entries.foldl (fun s e => e.put s) (bare "") = b := by
  obtain ⟨kind, id, fields, inputs, next, extraState, legacy⟩ := b
  cases id <;> cases fields <;> cases inputs <;> cases next <;> cases extraState <;>
    cases legacy <;> rfl

theorem balanced_connectionEntries {c : Connection Block} (h : ∀ b ∈ c.blocks, Balanced b.write) :
    ∀ e ∈ connectionEntries c, ∀ text, e.value = some text → Balanced text := by
  simp only [connectionEntries, List.forall_mem_cons, Entry.forall_value_optional]
  exact ⟨fun b hb => h b (Connection.mem_blocks.2 (.inl hb)),
    fun b hb => h b (Connection.mem_blocks.2 (.inr hb)), by simp⟩

theorem balanced_connection {c : Connection Block} (h : ∀ b ∈ c.blocks, Balanced b.write) :
    Balanced (writeConnection c) := by
  rw [writeConnection_eq]
  exact balanced_object (Entry.balanced_texts (balanced_connectionEntries h))

theorem kept?_eq_some {α : Type} {m l : NameMap α none} :
    kept? m = some l ↔ m = l ∧ l.entries ≠ [] := by
  cases m with
  | nil =>
    refine iff_of_false (by simp [kept?]) ?_
    rintro ⟨rfl, hne⟩
    exact hne rfl
  | cons name above a rest =>
    simp only [kept?, Option.some.injEq, iff_self_and]
    rintro rfl
    exact List.cons_ne_nil _ _

/-- Every member of a written block closes what it opens, if the blocks in it do. -/
theorem balanced_entries {b : Block} (h : ∀ c ∈ b.children, Balanced c.write) :
    ∀ e ∈ b.entries, ∀ text, e.value = some text → Balanced text := by
  have hconnection {c : Connection Block} (hc : c ∈ b.inputs.map Prod.snd ++ b.next.toList) :
      Balanced (writeConnection c) :=
    balanced_connection fun a ha => h a (List.mem_flatMap.2 ⟨c, hc, ha⟩)
  simp only [entries, List.forall_mem_cons, Entry.forall_value_optional]
  refine ⟨?_, ?_, ?_, ?_, ?_, ?_, ?_, by simp⟩
  · exact fun s _ => (spans_string s).balanced
  · exact fun s _ => (spans_string s).balanced
  · exact fun m _ => balanced_object (balanced_members fun e _ => e.2.spans_write.balanced)
  · intro m hm
    obtain ⟨rfl, -⟩ := kept?_eq_some.1 hm
    rw [writeInputs_eq]
    refine balanced_object (balanced_members fun e he => hconnection ?_)
    exact List.mem_append_left _ (List.mem_map_of_mem he)
  · exact fun c hc => hconnection (by simp [hc])
  · intro s _
    rw [ExtraState.write_eq]
    exact balanced_object (Entry.balanced_texts s.balanced_entries)
  · intro s _
    rw [LegacyShape.write_eq]
    exact balanced_object (Entry.balanced_texts s.balanced_entries)

theorem balanced_write (b : Block) : Balanced b.write := by
  induction b using treeInduction with
  | h b ih =>
    rw [write_eq]
    exact balanced_object (Entry.balanced_texts (balanced_entries ih))

theorem balanced_writeConnection (c : Connection Block) : Balanced (writeConnection c) :=
  balanced_connection fun b _ => b.balanced_write

theorem nesting_inputs_le {inputs : NameMap (Connection Block) none} {depth : Nat} :
    nesting (Writer.object (writeInputs inputs)) ≤ depth ↔
      ∃ d, depth = d + 1 ∧ ∀ e ∈ inputs.entries, nesting (writeConnection e.2) ≤ d := by
  rw [writeInputs_eq]
  exact nesting_members_le fun e _ => balanced_writeConnection e.2

theorem nesting_connection_le {c : Connection Block} {depth : Nat} :
    nesting (writeConnection c) ≤ depth ↔
      ∃ d, depth = d + 1 ∧ ∀ b ∈ c.blocks, nesting b.write ≤ d := by
  rw [writeConnection_eq,
    Entry.nesting_texts_le (balanced_connectionEntries fun b _ => b.balanced_write)]
  simp only [connectionEntries, List.forall_mem_cons, Entry.forall_value_optional,
    Connection.mem_blocks, or_imp, forall_and]
  simp

/-- A block's text reads back as the block, with enough turns and room. -/
def Restored (bound : Nat) (b : Block) : Prop :=
  ∀ depth, b.write.length ≤ bound → nesting b.write ≤ depth →
    Reads (Block.read bound depth) b.write b

theorem reads_connection {c : Connection Block} {bound depth : Nat}
    (h : ∀ b ∈ c.blocks, Restored bound b) (hbound : (writeConnection c).length ≤ bound)
    (hdepth : nesting (writeConnection c) ≤ depth) :
    Reads (readConnection bound depth) (writeConnection c) c := by
  rw [writeConnection_eq] at hbound hdepth ⊢
  obtain ⟨d, rfl, hvalue⟩ := Entry.exists_room
    (balanced_connectionEntries fun b _ => b.balanced_write) hbound hdepth
  simp only [connectionEntries, List.forall_mem_cons, Entry.forall_value_optional] at hvalue
  obtain ⟨hblock, hshadow, -⟩ := hvalue
  refine reads_record ?_ (by simp [connectionEntries, Entry.optional]) (by simp) hbound ?_
  · simp only [connectionEntries, List.forall_mem_cons]
    refine ⟨.optional rfl fun b hb => ?_, .optional rfl fun b hb => ?_, by simp⟩
    · obtain ⟨hsize, hroom⟩ := hblock b hb
      exact reads_of (reads_optional (h b (Connection.mem_blocks.2 (.inl hb)) d hsize hroom))
    · obtain ⟨hsize, hroom⟩ := hshadow b hb
      exact reads_of (reads_optional (h b (Connection.mem_blocks.2 (.inr hb)) d hsize hroom))
  · obtain ⟨block, shadow⟩ := c
    cases block <;> cases shadow <;> rfl

theorem reads_inputs {inputs : NameMap (Connection Block) none} {bound depth : Nat}
    (h : ∀ e ∈ inputs.entries, ∀ b ∈ e.2.blocks, Restored bound b)
    (hbound : (Writer.object (writeInputs inputs)).length ≤ bound)
    (hdepth : nesting (Writer.object (writeInputs inputs)) ≤ depth) :
    Reads (readInputs bound depth) (Writer.object (writeInputs inputs)) inputs := by
  obtain ⟨d, rfl, hnesting⟩ := nesting_inputs_le.1 hdepth
  rw [writeInputs_eq] at hbound ⊢
  refine Reader.reads_map (fun e he => ?_) hbound
  have hmember : Writer.member e.1 (writeConnection e.2) ∈
      inputs.map fun e => Writer.member e.1 (writeConnection e.2) := List.mem_map_of_mem he
  exact reads_connection (h e he) ((length_le_object hmember).trans hbound) (hnesting e he)

/-- A block reads back with all that is in it. -/
theorem reads_write {b : Block} (h : ∀ c ∈ b.parts, ∀ x ∈ c.numbers, ReadsBack x) (bound : Nat) :
    Restored bound b := by
  induction b using treeInduction with
  | h b ih =>
    intro depth hbound hdepth
    rw [parts_eq, List.forall_mem_cons] at h
    obtain ⟨hnumbers, hchildren⟩ := h
    -- by induction, whatever is plugged in reads back, at any depth
    have hrestored {c : Connection Block} (hc : c ∈ b.inputs.map Prod.snd ++ b.next.toList) :
        ∀ a ∈ c.blocks, Restored bound a := by
      intro a ha
      have hchild : a ∈ b.children := List.mem_flatMap.2 ⟨c, hc, ha⟩
      exact ih a hchild fun p hp => hchildren p (List.mem_flatMap.2 ⟨a, hchild, hp⟩)
    rw [write_eq] at hbound hdepth ⊢
    obtain ⟨d, rfl, hvalue⟩ := Entry.exists_room
      (balanced_entries fun c _ => c.balanced_write) hbound hdepth
    simp only [entries, List.forall_mem_cons, Entry.forall_value_optional] at hvalue
    obtain ⟨-, -, hfields, hinputs, hnext, hextra, hlegacy, -⟩ := hvalue
    refine reads_record ?_ (by simp [entries, Entry.optional])
      (by simp [entries, Entry.optional]) hbound b.fold_entries
    simp only [entries, List.forall_mem_cons]
    refine ⟨.optional rfl ?_, .optional rfl ?_, .optional rfl ?_, .optional rfl ?_,
      .optional rfl ?_, .optional rfl ?_, .optional rfl ?_, by simp⟩
    · exact fun s _ => reads_of (reads_string s)
    · exact fun s _ => reads_of (reads_optional (reads_string s))
    · intro m hm
      obtain ⟨hsize, hroom⟩ := hfields m hm
      obtain ⟨rfl, -⟩ := kept?_eq_some.1 hm
      refine reads_of (FieldValue.reads_map (fun e he x hx => ?_) hsize hroom)
      exact hnumbers x (mem_numbers.2 (.inl ⟨e, he, hx⟩))
    · intro m hm
      obtain ⟨hsize, hroom⟩ := hinputs m hm
      obtain ⟨rfl, -⟩ := kept?_eq_some.1 hm
      refine reads_of (reads_inputs (fun e he => hrestored ?_) hsize hroom)
      exact List.mem_append_left _ (List.mem_map_of_mem he)
    · intro c hc
      have hrestored := hrestored (c := c) (by simp [hc])
      obtain ⟨hsize, hroom⟩ := hnext c hc
      exact reads_of (reads_optional (reads_connection hrestored hsize hroom))
    · intro s hs
      obtain ⟨hsize, hroom⟩ := hextra s hs
      exact reads_of (reads_optional (ExtraState.reads_write hsize hroom))
    · intro s hs
      obtain ⟨hsize, hroom⟩ := hlegacy s hs
      refine reads_of (reads_optional (LegacyShape.reads_write (fun v hv x hx => ?_) hsize hroom))
      exact hnumbers x (mem_numbers.2 (.inr ⟨s, hs, hx ▸ hv⟩))

end Block

namespace Workspace

/-- All blocks of a workspace. -/
def parts (w : Workspace) : List Block := w.blocks.flatMap Block.parts

def entries (w : Workspace) : List (Entry Workspace) :=
  [ .optional "languageVersion" (some w.languageVersion.toNat) Writer.natural
      fun n w => { w with languageVersion := n.toUInt32 },
    .optional "blocks" (some w.blocks) (fun bs => Writer.list (bs.map Block.write))
      fun bs w => { w with blocks := bs } ]

/-- The one member of the outer object. -/
def outerEntries (w : Workspace) : List (Entry Workspace) :=
  [.optional "blocks" (some w) (fun w => Writer.object (w.entries.flatMap Entry.texts))
    fun w _ => w]

theorem write_eq (w : Workspace) : w.write = Writer.object (w.outerEntries.flatMap Entry.texts) :=
  rfl

theorem balanced_blocks (blocks : List Block) : ∀ t ∈ blocks.map Block.write, Balanced t := by
  intro t ht
  obtain ⟨b, -, rfl⟩ := List.mem_map.1 ht
  exact b.balanced_write

theorem balanced_entries (w : Workspace) :
    ∀ e ∈ w.entries, ∀ text, e.value = some text → Balanced text := by
  simp only [entries, List.forall_mem_cons, Entry.forall_value_optional]
  exact ⟨fun n _ => (spans_natural n).balanced, fun bs _ => balanced_list (balanced_blocks bs),
    by simp⟩

theorem balanced_outerEntries (w : Workspace) :
    ∀ e ∈ w.outerEntries, ∀ text, e.value = some text → Balanced text := by
  simp only [outerEntries, List.forall_mem_cons, Entry.forall_value_optional]
  exact ⟨fun v _ => balanced_object (Entry.balanced_texts v.balanced_entries), by simp⟩

theorem reads_blocks {blocks : List Block} {bound depth : Nat}
    (h : ∀ b ∈ blocks, b.Restored bound)
    (hbound : (Writer.list (blocks.map Block.write)).length ≤ bound)
    (hdepth : nesting (Writer.list (blocks.map Block.write)) ≤ depth) :
    Reads (readList bound depth) (Writer.list (blocks.map Block.write)) blocks := by
  obtain ⟨d, rfl, hnesting⟩ := (nesting_list_le (balanced_blocks blocks)).1 hdepth
  refine reads_list (fun b hb => ?_) hbound
  have hmem : b.write ∈ blocks.map Block.write := List.mem_map_of_mem hb
  have hlisted := length_le_listed hmem true
  rw [length_list] at hbound
  exact h b hb d (by omega) (hnesting _ hmem)

/-- The inner object, with the version and the blocks. -/
theorem reads_entries {w : Workspace} {bound depth : Nat} (h : ∀ b ∈ w.blocks, b.Restored bound)
    (hbound : (Writer.object (w.entries.flatMap Entry.texts)).length ≤ bound)
    (hdepth : nesting (Writer.object (w.entries.flatMap Entry.texts)) ≤ depth) :
    Reads (readBlocks bound depth) (Writer.object (w.entries.flatMap Entry.texts)) w := by
  obtain ⟨d, rfl, hvalue⟩ := Entry.exists_room w.balanced_entries hbound hdepth
  simp only [entries, List.forall_mem_cons, Entry.forall_value_optional] at hvalue
  obtain ⟨-, hblocks, -⟩ := hvalue
  refine reads_record ?_ (by simp [entries, Entry.optional]) (by simp) hbound ?_
  · simp only [entries, List.forall_mem_cons]
    refine ⟨.optional rfl ?_, .optional rfl ?_, by simp⟩
    · rintro _ ⟨⟩
      exact reads_of (reads_natural w.languageVersion.toNat_lt (by decide))
    · rintro _ ⟨⟩
      obtain ⟨hsize, hroom⟩ := hblocks w.blocks rfl
      exact reads_of (reads_blocks h hsize hroom)
  · simp [entries, Entry.optional]

theorem reads_write {w : Workspace} (h : ∀ b ∈ w.parts, ∀ x ∈ b.numbers, ReadsBack x)
    {bound depth : Nat} (hbound : w.write.length ≤ bound) (hdepth : nesting w.write ≤ depth) :
    Reads (Workspace.read bound depth) w.write w := by
  rw [write_eq] at hbound hdepth ⊢
  obtain ⟨d, rfl, hvalue⟩ := Entry.exists_room w.balanced_outerEntries hbound hdepth
  simp only [outerEntries, List.forall_mem_cons, Entry.forall_value_optional] at hvalue
  obtain ⟨hblocks, -⟩ := hvalue
  refine reads_record ?_ (by simp [outerEntries, Entry.optional]) (by simp) hbound rfl
  simp only [outerEntries, List.forall_mem_cons]
  refine ⟨.optional rfl ?_, by simp⟩
  rintro _ ⟨⟩
  obtain ⟨hsize, hroom⟩ := hblocks w rfl
  refine reads_of (reads_entries (fun b hb => Block.reads_write (fun c hc => ?_) bound) hsize hroom)
  exact h c (List.mem_flatMap.2 ⟨b, hb, hc⟩)

theorem parse_toJson {w : Workspace} (h : ∀ b ∈ w.parts, ∀ x ∈ b.numbers, ReadsBack x)
    (hdepth : nesting w.write ≤ maxDepth) : Workspace.parse w.toJson = .ok w := by
  have hread := (reads_write h (Nat.le_succ _) hdepth).takes [] endsValue_nil
  rw [List.append_nil] at hread
  have htext : w.toJson.toList = w.write := by simp [toJson]
  unfold Workspace.parse Reader.parse
  rw [htext]
  dsimp only
  rw [hread]
  rfl

end Workspace

end RobotBlocks
