import Mathlib
import RobotBlocks.Compiler
import RobotBlocks.Proofs.Accepted
import RobotBlocks.Proofs.WrittenBlocks

/-! Workspaces as JSON. A written workspace reads back as it was, and whatever can be read can be
written and read again. -/

namespace RobotBlocks

open Json Json.Reader

theorem FieldValue.yields_read (bound depth : Nat) :
    Yields (FieldValue.read bound depth) fun v => ∀ x, v = .number x → x.isFinite := by
  refine yields_after fun c => yields_ite (fun _ => ?_) fun _ => yields_ite (fun _ => ?_) fun _ =>
    yields_ite (fun _ => ?_) fun _ => ?_
  · exact yields_after fun s => yields_pure (by simp)
  · exact yields_after fun b => yields_pure (by simp)
  · refine yields_number.bind fun p hp => yields_pure ?_
    rintro _ ⟨⟩
    exact hp
  · exact yields_after fun _ => yields_throw _

theorem FieldValue.yields_readMap (bound depth : Nat) :
    Yields (FieldValue.readMap bound depth) fun m =>
      (∀ e ∈ m.entries, ∀ x, e.2 = .number x → x.isFinite) ∧ (m.entries ≠ [] → 0 < depth) := by
  refine yields_nested ?_
  rintro d rfl
  refine (yields_map (FieldValue.yields_read bound d) bound).imp fun m hm => ?_
  exact ⟨hm, fun _ => Nat.succ_pos d⟩

theorem ExtraState.yields_read (bound depth : Nat) :
    Yields (ExtraState.read bound depth) fun s => nesting s.write ≤ depth := by
  refine yields_nested ?_
  rintro d rfl text s rest -
  rw [write_eq]
  refine (Entry.nesting_texts_le s.balanced_entries).2 ⟨d, rfl, ?_⟩
  simp only [entries, List.forall_mem_cons, Entry.forall_value_optional]
  exact ⟨fun n _ => (spans_natural n).nesting_le d, fun b _ => (spans_flag b).nesting_le d, by simp⟩

namespace LegacyShape

theorem nesting_write_le (s : LegacyShape) (d : Nat) : nesting s.write ≤ d + 1 := by
  rw [write_eq]
  refine (Entry.nesting_texts_le s.balanced_entries).2 ⟨d, rfl, ?_⟩
  simp only [entries, List.forall_mem_cons, Entry.forall_value_optional]
  exact ⟨fun v _ => v.spans_write.nesting_le d, fun v _ => v.spans_write.nesting_le d, by simp⟩

theorem yields_read (bound depth : Nat) :
    Yields (LegacyShape.read bound depth) fun s =>
      (∀ x, .number x ∈ s.values → x.isFinite) ∧ nesting s.write ≤ depth := by
  refine yields_nested ?_
  rintro d rfl
  have hvalue := yields_optional (FieldValue.yields_read bound d)
  refine (yields_record (I := fun s => ∀ x, .number x ∈ s.values → x.isFinite) ?_
    (by simp [values]) bound []).imp fun s hs => ⟨hs, s.nesting_write_le d⟩
  simp only [List.forall_mem_cons]
  refine ⟨keeps_of hvalue ?_, keeps_of hvalue ?_, by simp⟩
  · intro v s hv hs x hx
    rcases List.mem_append.1 hx with hx | hx
    · exact hv _ (Option.mem_toList.1 hx) x rfl
    · exact hs x (List.mem_append_right _ hx)
  · intro v s hv hs x hx
    rcases List.mem_append.1 hx with hx | hx
    · exact hs x (List.mem_append_left _ hx)
    · exact hv _ (Option.mem_toList.1 hx) x rfl

end LegacyShape

namespace Block

/-- What reading makes sure of in each block. -/
def Sound (b : Block) : Prop := ∀ x ∈ b.numbers, x.isFinite

/-- A block that was read with room for `depth` containers inside one another. -/
def Accepted (depth : Nat) (b : Block) : Prop :=
  (∀ c ∈ b.parts, c.Sound) ∧ nesting b.write ≤ depth

def AcceptedConnection (depth : Nat) (c : Connection Block) : Prop :=
  (∀ b ∈ c.blocks, ∀ p ∈ b.parts, p.Sound) ∧ nesting (writeConnection c) ≤ depth

/-- What is known of a record while its members are read. -/
structure Gathered (depth : Nat) (b : Block) : Prop where
  fields : (∀ e ∈ b.fields.entries, ∀ x, e.2 = .number x → x.isFinite) ∧
    (b.fields.entries ≠ [] → 0 < depth)
  inputs : ∀ e ∈ b.inputs.entries, ∃ d, depth = d + 1 ∧ AcceptedConnection d e.2
  next : ∀ c, b.next = some c → AcceptedConnection depth c
  extraState : ∀ s, b.extraState = some s → nesting s.write ≤ depth
  legacy : ∀ s, b.legacy = some s →
    (∀ x, .number x ∈ s.values → x.isFinite) ∧ nesting s.write ≤ depth

theorem Gathered.sound {depth : Nat} {b : Block} (h : Gathered depth b) :
    ∀ p ∈ b.parts, p.Sound := by
  rw [parts_eq, List.forall_mem_cons]
  refine ⟨fun x hx => ?_, fun p hp => ?_⟩
  · rcases mem_numbers.1 hx with ⟨e, he, hx⟩ | ⟨s, hs, hx⟩
    · exact h.fields.1 e he x hx
    · exact (h.legacy s hs).1 x hx
  · obtain ⟨a, ha, hp⟩ := List.mem_flatMap.1 hp
    obtain ⟨c, hc, ha⟩ := List.mem_flatMap.1 ha
    rcases List.mem_append.1 hc with hc | hc
    · obtain ⟨e, he, rfl⟩ := List.mem_map.1 hc
      obtain ⟨d, -, haccepted, -⟩ := h.inputs e he
      exact haccepted a ha p hp
    · exact (h.next c (Option.mem_toList.1 hc)).1 a ha p hp

theorem Gathered.nesting_le {depth : Nat} {b : Block} (h : Gathered depth b) :
    nesting b.write ≤ depth + 1 := by
  have hstring (s : String) : nesting (Writer.string s) ≤ depth := (spans_string s).nesting_le depth
  rw [write_eq]
  refine (Entry.nesting_texts_le (balanced_entries fun c _ => c.balanced_write)).2 ⟨depth, rfl, ?_⟩
  simp only [entries, List.forall_mem_cons, Entry.forall_value_optional]
  refine ⟨fun s _ => hstring s, fun s _ => hstring s, ?_, ?_, ?_, ?_, ?_, by simp⟩
  · intro m hm
    obtain ⟨rfl, hne⟩ := kept?_eq_some.1 hm
    exact FieldValue.nesting_map_le.2 (Nat.exists_eq_add_one.2 (h.fields.2 hne))
  · intro m hm
    obtain ⟨rfl, hne⟩ := kept?_eq_some.1 hm
    -- there was room for one input, so there is for the object around them
    obtain ⟨e, he⟩ := List.exists_mem_of_ne_nil _ hne
    obtain ⟨d, rfl, -⟩ := h.inputs e he
    refine nesting_inputs_le.2 ⟨d, rfl, fun e he => ?_⟩
    obtain ⟨d', hd, -, hnesting⟩ := h.inputs e he
    obtain rfl : d' = d := by omega
    exact hnesting
  · exact fun c hc => (h.next c hc).2
  · exact h.extraState
  · exact fun s hs => (h.legacy s hs).2

theorem gathered_bare (depth : Nat) : Gathered depth (bare "") := by
  constructor <;> simp [bare, NameMap.entries]

/-- The three readers that call one another, each with one level less. -/
theorem yields_reading (bound depth : Nat) :
    Yields (Block.read bound depth) (Accepted depth) ∧
    Yields (readInputs bound depth)
      (fun m => ∀ e ∈ m.entries, ∃ d, depth = d + 1 ∧ AcceptedConnection d e.2) ∧
    Yields (readConnection bound depth) (AcceptedConnection depth) := by
  induction depth with
  | zero => exact ⟨yields_closed _, yields_closed _, yields_closed _⟩
  | succ depth ih =>
    obtain ⟨hblock, hinputs, hconnection⟩ := ih
    refine ⟨?_, ?_, ?_⟩
    · refine (yields_record (I := Gathered depth) ?_ (gathered_bare depth) bound ["type"]).imp
        fun b hb => ⟨hb.sound, hb.nesting_le⟩
      have hfields := FieldValue.yields_readMap bound depth
      have hextra := yields_optional (ExtraState.yields_read bound depth)
      have hlegacy := yields_optional (LegacyShape.yields_read bound depth)
      simp only [List.forall_mem_cons]
      refine ⟨keeps_of (yields_true _) fun s b _ h => ?_,
        keeps_of (yields_true _) fun s b _ h => ?_, keeps_of hfields fun m b hm h => ?_,
        keeps_of hinputs fun m b hm h => ?_,
        keeps_of (yields_optional hconnection) fun c b hc h => ?_,
        keeps_of hextra fun s b hs h => ?_, keeps_of hlegacy fun s b hs h => ?_, by simp⟩
      · exact ⟨h.fields, h.inputs, h.next, h.extraState, h.legacy⟩
      · exact ⟨h.fields, h.inputs, h.next, h.extraState, h.legacy⟩
      · exact ⟨hm, h.inputs, h.next, h.extraState, h.legacy⟩
      · exact ⟨h.fields, hm, h.next, h.extraState, h.legacy⟩
      · exact ⟨h.fields, h.inputs, hc, h.extraState, h.legacy⟩
      · exact ⟨h.fields, h.inputs, h.next, hs, h.legacy⟩
      · exact ⟨h.fields, h.inputs, h.next, h.extraState, hs⟩
    · refine (yields_map hconnection bound).imp fun m hm => ?_
      exact fun e he => ⟨depth, rfl, hm e he⟩
    · refine (yields_record (I := fun c => ∀ b ∈ c.blocks, Accepted depth b) ?_
        (by simp [Connection.blocks]) bound []).imp fun c hc => ⟨fun b hb => (hc b hb).1, ?_⟩
      · simp only [List.forall_mem_cons]
        refine ⟨keeps_of (yields_optional hblock) fun o c ho h b hb => ?_,
          keeps_of (yields_optional hblock) fun o c ho h b hb => ?_, by simp⟩
        · rcases Connection.mem_blocks.1 hb with hb | hb
          · exact ho b hb
          · exact h b (Connection.mem_blocks.2 (.inr hb))
        · rcases Connection.mem_blocks.1 hb with hb | hb
          · exact h b (Connection.mem_blocks.2 (.inl hb))
          · exact ho b hb
      · exact nesting_connection_le.2 ⟨depth, rfl, fun b hb => (hc b hb).2⟩

end Block

namespace Workspace

theorem yields_readList (bound depth : Nat) :
    Yields (readList bound depth) fun blocks => ∀ b ∈ blocks, b.Accepted (depth - 1) := by
  refine yields_nested ?_
  rintro d rfl
  exact yields_list (Block.yields_reading bound d).1 bound

theorem yields_readBlocks (bound depth : Nat) :
    Yields (readBlocks bound depth) fun w => ∀ b ∈ w.blocks, b.Accepted (depth - 2) := by
  refine yields_nested ?_
  rintro d rfl
  refine yields_record ?_ (by simp) bound []
  simp only [List.forall_mem_cons]
  exact ⟨keeps_of (yields_true _) fun _ _ _ h => h,
    keeps_of (yields_readList bound d) fun _ _ h _ => h, by simp⟩

theorem yields_read (bound depth : Nat) :
    Yields (Workspace.read bound depth) fun w => ∀ b ∈ w.blocks, b.Accepted (depth - 3) := by
  refine yields_nested ?_
  rintro d rfl
  refine yields_record ?_ (by simp) bound []
  simp only [List.forall_mem_cons]
  exact ⟨keeps_of (yields_readBlocks bound d) fun _ _ h _ => h, by simp⟩

theorem nesting_write_le {w : Workspace} {d : Nat} (h : ∀ b ∈ w.blocks, nesting b.write ≤ d) :
    nesting w.write ≤ d + 3 := by
  have hlist : nesting (Writer.list (w.blocks.map Block.write)) ≤ d + 1 :=
    (nesting_list_le (balanced_blocks w.blocks)).2 ⟨d, rfl, List.forall_mem_map.2 h⟩
  have hinner : nesting (Writer.object (w.entries.flatMap Entry.texts)) ≤ d + 2 := by
    refine (Entry.nesting_texts_le w.balanced_entries).2 ⟨d + 1, rfl, ?_⟩
    simp only [entries, List.forall_mem_cons, Entry.forall_value_optional]
    refine ⟨fun n _ => (spans_natural n).nesting_le _, ?_, by simp⟩
    rintro _ ⟨⟩
    exact hlist
  rw [write_eq]
  refine (Entry.nesting_texts_le w.balanced_outerEntries).2 ⟨d + 2, rfl, ?_⟩
  simp only [outerEntries, List.forall_mem_cons, Entry.forall_value_optional]
  refine ⟨?_, by simp⟩
  rintro _ ⟨⟩
  exact hinner

/-- What is known of a workspace that was read from some text. -/
theorem accepted_of_parse {text : String} {w : Workspace} (h : Workspace.parse text = .ok w) :
    (∀ b ∈ w.parts, b.Sound) ∧ nesting w.write ≤ maxDepth := by
  -- two objects and a list stand around the blocks
  have hblocks : ∀ b ∈ w.blocks, b.Accepted (maxDepth - 3) := by
    obtain ⟨rest, hread⟩ := exists_of_parse h
    exact yields_read _ maxDepth _ w rest hread
  refine ⟨fun p hp => ?_, nesting_write_le fun b hb => (hblocks b hb).2⟩
  obtain ⟨b, hb, hp⟩ := List.mem_flatMap.1 hp
  exact (hblocks b hb).1 p hp

/-- All numbers in a workspace. -/
def numbers (w : Workspace) : List Binary64 := w.parts.flatMap Block.numbers

end Workspace

/-- A workspace whose numbers are finite and which nests no deeper than can be read is the same
after it is written and read. So is every workspace that was read from some text, and it compiles as
that text does. Of numbers it is only asked that those at hand read back. -/
theorem workspace_roundtrip (w : Workspace)
    (hnumbers : ∀ x ∈ w.numbers, x.isFinite → ReadsBack x) :
    ((∀ x ∈ w.numbers, x.isFinite) → nesting w.toJson.toList ≤ 127 →
      Workspace.parse w.toJson = .ok w) ∧
    ∀ text, Workspace.parse text = .ok w →
      Workspace.parse w.toJson = .ok w ∧ compileText w.toJson = compileText text := by
  have htext : w.toJson.toList = w.write := by simp [Workspace.toJson]
  have hmem {b : Block} (hb : b ∈ w.parts) {x : Binary64} (hx : x ∈ b.numbers) : x ∈ w.numbers :=
    List.mem_flatMap.2 ⟨b, hb, hx⟩
  constructor
  · intro hfinite hdepth
    rw [htext] at hdepth
    refine Workspace.parse_toJson (fun b hb x hx => ?_) hdepth
    exact hnumbers x (hmem hb hx) (hfinite x (hmem hb hx))
  · intro text hparse
    obtain ⟨hsound, hdepth⟩ := Workspace.accepted_of_parse hparse
    have hagain : Workspace.parse w.toJson = .ok w := by
      refine Workspace.parse_toJson (fun b hb x hx => ?_) hdepth
      exact hnumbers x (hmem hb hx) (hsound b hb x hx)
    refine ⟨hagain, ?_⟩
    unfold compileText
    rw [hagain, hparse]

/-- A saved conditional: its connections are empty, or hold a shadow with or without a block, and
its texts need escapes. -/
def savedWorkspace : Workspace where
  languageVersion := 1
  blocks := [{
    kind := "controls_if"
    id := some "if \"1\"\n\x01"
    fields := .ofPairs [("A", .text "\\"), ("B", .flag false), ("C", .number (.zero true))]
    inputs := .ofPairs [("DO0", ⟨none, none⟩),
      ("IF0", ⟨some (.bare "logic_boolean"), some (.number .half)⟩)]
    next := some ⟨none, some (.bare "robot_stop")⟩
    extraState := some ⟨0, true⟩
    legacy := some ⟨some (.number (.ofNat 2)), none⟩ }]

theorem workspace_roundtrip_saved :
    savedWorkspace.numbers = [.zero true, .ofNat 2, .half] ∧
      nesting savedWorkspace.toJson.toList = 8 ∧
      Workspace.parse savedWorkspace.toJson = .ok savedWorkspace := by
  have hnumbers : ∀ x ∈ savedWorkspace.numbers, x.isFinite ∧ ReadsBack x := by decide +kernel
  have hdepth : nesting savedWorkspace.toJson.toList = 8 := by
    rw [Workspace.toJson, String.toList_ofList]
    decide +kernel
  obtain ⟨hwritten, -⟩ := workspace_roundtrip savedWorkspace fun x hx _ => (hnumbers x hx).2
  exact ⟨by decide +kernel, hdepth,
    hwritten (fun x hx => (hnumbers x hx).1) (by rw [hdepth]; decide)⟩

end RobotBlocks
