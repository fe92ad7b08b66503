import Mathlib
import RobotBlocks.Proofs.Containers

/-! How deep the containers of a JSON text stand inside one another, counted on the text itself.
Each written value closes what it opens, so the depth of a container is one more than that of the
deepest value in it. -/

namespace RobotBlocks.Json

/-- The most containers open at once from here on, with `depth` open already; brackets inside a
string do not count. -/
def deepest : (depth : Nat) → (inString : Bool) → List Char → Nat
  | depth, _, [] => depth
  | depth, true, '\\' :: _ :: rest => deepest depth true rest
  | depth, true, c :: rest => deepest depth (c ≠ '"') rest
  | depth, false, c :: rest =>
    if c ∈ Reader.recordOpens then deepest (depth + 1) false rest
    else if c = ']' ∨ c = '\x7d' then max depth (deepest (depth - 1) false rest)
    else deepest depth (c = '"') rest

/-- How many containers of a text stand inside one another. -/
def nesting (text : List Char) : Nat := deepest 0 false text

/-- A text that closes the `n` containers it opens inside one another, and its strings. -/
def Spans (n : Nat) (text : List Char) : Prop :=
  ∀ depth rest, deepest depth false (text ++ rest) = max (depth + n) (deepest depth false rest)

/-- A character that neither opens nor closes anything. -/
def IsPlain (c : Char) : Prop := c ∉ ['"', '[', ']', '\x7b', '\x7d']

instance (c : Char) : Decidable (IsPlain c) := inferInstanceAs (Decidable (c ∉ _))

theorem le_deepest (depth : Nat) (inString : Bool) (text : List Char) :
    depth ≤ deepest depth inString text := by
  fun_induction deepest depth inString text <;> omega

theorem Spans.nesting_eq {n : Nat} {text : List Char} (h : Spans n text) : nesting text = n := by
  have hn := h 0 []
  rw [List.append_nil] at hn
  simpa [nesting, deepest] using hn

theorem Spans.nesting_le {text : List Char} (h : Spans 0 text) (depth : Nat) :
    nesting text ≤ depth := by
  rw [h.nesting_eq]
  exact Nat.zero_le depth

theorem spans_nil : Spans 0 [] := by
  intro depth rest
  have := le_deepest depth false rest
  simp [this]

theorem Spans.append {m n : Nat} {text more : List Char} (h : Spans m text) (h' : Spans n more) :
    Spans (max m n) (text ++ more) := by
  intro depth rest
  rw [List.append_assoc, h, h']
  omega

theorem spans_plain {text : List Char} (h : ∀ c ∈ text, IsPlain c) : Spans 0 text := by
  induction text with
  | nil => exact spans_nil
  | cons c text ih =>
    intro depth rest
    have hc : IsPlain c := h c (by simp)
    simp only [IsPlain, List.mem_cons, List.not_mem_nil, or_false, not_or] at hc
    obtain ⟨hquote, hopen, hclose, hbrace, hend⟩ := hc
    rw [List.cons_append, deepest, ← ih (fun c hc => h c (by simp [hc]))]
    simp [Reader.recordOpens, hquote, hopen, hclose, hbrace, hend]

theorem deepest_inside {c : Char} (hquote : c ≠ '"') (hslash : c ≠ '\\') (depth : Nat)
    (rest : List Char) : deepest depth true (c :: rest) = deepest depth true rest := by
  rw [deepest.eq_def]
  split <;> simp_all

theorem hexDigit_inside {n : Nat} (h : n < 16) :
    Text.hexDigit false n ≠ '"' ∧ Text.hexDigit false n ≠ '\\' := by
  interval_cases n <;> decide

theorem deepest_escape (depth : Nat) (c : Char) (rest : List Char) :
    deepest depth true (Writer.escape c ++ rest) = deepest depth true rest := by
  obtain ⟨d, -, heq⟩ | ⟨-, heq⟩ | ⟨hquote, hslash, -, heq⟩ := Reader.escape_cases c
  · rw [heq]
    rfl
  · have hlt := c.toNat.toUInt8.toNat_lt
    obtain ⟨hquote, hslash⟩ := hexDigit_inside (n := c.toNat.toUInt8.toNat / 16) (by omega)
    obtain ⟨hquote', hslash'⟩ := hexDigit_inside (n := c.toNat.toUInt8.toNat % 16) (by omega)
    rw [heq]
    show deepest depth true ('\\' :: 'u' :: '0' :: '0' :: Text.hexDigit false _ ::
      Text.hexDigit false _ :: rest) = _
    rw [deepest, deepest_inside (by decide) (by decide), deepest_inside (by decide) (by decide),
      deepest_inside hquote hslash, deepest_inside hquote' hslash']
  · rw [heq]
    exact deepest_inside hquote hslash depth rest

theorem spans_string (s : String) : Spans 0 (Writer.string s) := by
  have hinside (depth : Nat) (cs rest : List Char) :
      deepest depth true (cs.flatMap Writer.escape ++ '"' :: rest) = deepest depth false rest := by
    induction cs with
    | nil => simp [deepest]
    | cons c cs ih => rw [List.flatMap_cons, List.append_assoc, deepest_escape, ih]
  intro depth rest
  have hle := le_deepest depth false rest
  rw [Writer.string, List.cons_append, List.cons_append, List.append_assoc, deepest]
  simpa [Reader.recordOpens, hle] using hinside depth s.toList rest

theorem isPlain_of_isDigit {c : Char} (h : c.isDigit) : IsPlain c := by
  intro hmem
  revert h
  fin_cases hmem <;> decide

theorem isPlain_toDigits {n : Nat} {c : Char} (h : c ∈ Nat.toDigits 10 n) : IsPlain c :=
  isPlain_of_isDigit (Reader.isDigit_of_mem_natural h)

theorem spans_natural (n : Nat) : Spans 0 (Writer.natural n) :=
  spans_plain fun _ => isPlain_toDigits

theorem spans_flag (b : Bool) : Spans 0 (Writer.flag b) := by
  apply spans_plain
  cases b <;> simp [Writer.flag, IsPlain]

theorem isPlain_positional {d : Binary64.Decimal} {c : Char} (h : c ∈ d.positional ".0") :
    IsPlain c := by
  have hzeros {n : Nat} (h : c ∈ Binary64.zeros n) : IsPlain c := by
    obtain rfl := List.eq_of_mem_replicate h
    decide
  unfold Binary64.Decimal.positional at h
  dsimp only at h
  split_ifs at h
  · simp only [List.mem_append] at h
    obtain (h | h) | h := h
    · exact isPlain_toDigits h
    · exact hzeros h
    · fin_cases h <;> decide
  · simp only [List.mem_append, List.mem_cons] at h
    obtain h | rfl | h := h
    · exact isPlain_toDigits (List.mem_of_mem_take h)
    · decide
    · exact isPlain_toDigits (List.mem_of_mem_drop h)
  · simp only [List.mem_append] at h
    obtain (h | h) | h := h
    · fin_cases h <;> decide
    · exact hzeros h
    · exact isPlain_toDigits h

theorem isPlain_scientific {d : Binary64.Decimal} {c : Char} (h : c ∈ d.scientific) :
    IsPlain c := by
  unfold Binary64.Decimal.scientific at h
  simp only [List.mem_append, List.mem_cons] at h
  obtain h | rfl | h | h := h
  · split at h
    case h_1 => simp at h
    case h_2 c' heq => exact isPlain_toDigits (n := d.digits) (by simp_all)
    case h_3 first more _ heq =>
      simp only [List.mem_cons] at h
      obtain rfl | rfl | h := h
      · exact isPlain_toDigits (n := d.digits) (by simp [heq])
      · decide
      · exact isPlain_toDigits (n := d.digits) (by simp [heq, h])
  · decide
  · split at h <;> subst h <;> decide
  · exact isPlain_toDigits h

theorem spans_number (x : Binary64) : Spans 0 (Writer.number x) := by
  apply spans_plain
  intro c hc
  cases x with
  | nan => fin_cases hc <;> decide
  | infinite s => fin_cases hc <;> decide
  | finite s a =>
    have hmagnitude : ∀ c ∈ (if a.val = 0 then "0.0".toList else
        if -5 ≤ (Binary64.shortest .even a.val).magnitude ∧
            (Binary64.shortest .even a.val).magnitude < 16 then
          (Binary64.shortest .even a.val).positional ".0"
        else (Binary64.shortest .even a.val).scientific), IsPlain c := by
      intro c hc
      split_ifs at hc
      · fin_cases hc <;> decide
      · exact isPlain_positional hc
      · exact isPlain_scientific hc
    unfold Writer.number at hc
    dsimp only at hc
    split at hc
    · rcases List.mem_cons.1 hc with rfl | hc
      · decide
      · exact hmagnitude c hc
    · exact hmagnitude c hc

/-- A text that closes all the containers and strings it opens. -/
def Balanced (text : List Char) : Prop := Spans (nesting text) text

theorem Spans.balanced {n : Nat} {text : List Char} (h : Spans n text) : Balanced text := by
  rw [Balanced, h.nesting_eq]
  exact h

theorem spans_member {name : String} {n : Nat} {value : List Char} (h : Spans n value) :
    Spans n (Writer.member name value) := by
  have hcolon : Spans 0 [':'] := spans_plain (by simp [IsPlain])
  simpa [Writer.member] using (spans_string name).append (hcolon.append h)

/-- Items with commas between them nest as deep as the deepest one. -/
theorem exists_spans_listed {items : List (List Char)} (h : ∀ item ∈ items, Balanced item)
    (first : Bool) : ∃ n, Spans n (Reader.listed first items) ∧
      ∀ d, n ≤ d ↔ ∀ item ∈ items, nesting item ≤ d := by
  induction items generalizing first with
  | nil =>
    rw [Reader.listed_nil]
    exact ⟨0, spans_nil, by simp⟩
  | cons item items ih =>
    obtain ⟨n, hn, hle⟩ := ih (fun item hitem => h item (by simp [hitem])) false
    have hitem : Spans (nesting item) item := h item (by simp)
    have hcomma : Spans 0 (if first then [] else [',']) := by
      apply spans_plain
      cases first <;> simp [IsPlain]
    rw [Reader.listed_cons]
    refine ⟨_, (hcomma.append hitem).append hn, fun d => ?_⟩
    simp [hle]

theorem spans_enclosed {opening closing : Char} (hopen : opening ∈ Reader.recordOpens)
    (hclose : closing ∈ [']', '\x7d']) {n : Nat} {text : List Char} (h : Spans n text) :
    Spans (n + 1) (opening :: text ++ [closing]) := by
  intro depth rest
  have hle := le_deepest depth false rest
  have hend : deepest (depth + 1) false (closing :: rest) =
      max (depth + 1) (deepest depth false rest) := by
    rw [deepest]
    fin_cases hclose <;> rfl
  rw [List.append_assoc, List.cons_append, deepest, if_pos hopen, h, List.singleton_append, hend]
  omega

/-- A container closes what it opens, and takes one level more than what is in it. -/
theorem enclosed_items {opening closing : Char} (hopen : opening ∈ Reader.recordOpens)
    (hclose : closing ∈ [']', '\x7d']) {items : List (List Char)}
    (h : ∀ item ∈ items, Balanced item) :
    Balanced (opening :: Writer.separated items ++ [closing]) ∧
      ∀ depth, nesting (opening :: Writer.separated items ++ [closing]) ≤ depth ↔
        ∃ d, depth = d + 1 ∧ ∀ item ∈ items, nesting item ≤ d := by
  obtain ⟨n, hn, hle⟩ := exists_spans_listed h true
  have hspans : Spans (n + 1) (opening :: Writer.separated items ++ [closing]) :=
    spans_enclosed hopen hclose hn
  refine ⟨hspans.balanced, fun depth => ?_⟩
  rw [hspans.nesting_eq]
  constructor
  · intro hdepth
    exact ⟨depth - 1, by omega, (hle _).1 (by omega)⟩
  · rintro ⟨d, rfl, hd⟩
    exact Nat.succ_le_succ ((hle d).2 hd)

theorem balanced_object {members : List (List Char)} (h : ∀ m ∈ members, Balanced m) :
    Balanced (Writer.object members) := (enclosed_items (by decide) (by decide) h).1

theorem nesting_object_le {members : List (List Char)} (h : ∀ m ∈ members, Balanced m)
    {depth : Nat} : nesting (Writer.object members) ≤ depth ↔
      ∃ d, depth = d + 1 ∧ ∀ m ∈ members, nesting m ≤ d :=
  (enclosed_items (by decide) (by decide) h).2 depth

theorem balanced_list {items : List (List Char)} (h : ∀ item ∈ items, Balanced item) :
    Balanced (Writer.list items) := (enclosed_items (by decide) (by decide) h).1

theorem nesting_list_le {items : List (List Char)} (h : ∀ item ∈ items, Balanced item)
    {depth : Nat} : nesting (Writer.list items) ≤ depth ↔
      ∃ d, depth = d + 1 ∧ ∀ item ∈ items, nesting item ≤ d :=
  (enclosed_items (by decide) (by decide) h).2 depth

theorem Balanced.member {value : List Char} (h : Balanced value) (name : String) :
    Balanced (Writer.member name value) ∧ nesting (Writer.member name value) = nesting value :=
  ⟨(spans_member h).balanced, (spans_member h).nesting_eq⟩

section Members

variable {α : Type} {write : α → List Char} {m : List (String × α)}

theorem balanced_members (h : ∀ e ∈ m, Balanced (write e.2)) :
    ∀ t ∈ m.map fun e => Writer.member e.1 (write e.2), Balanced t := by
  intro t ht
  obtain ⟨e, he, rfl⟩ := List.mem_map.1 ht
  exact ((h e he).member e.1).1

/-- A map takes one level more than the values in it. -/
theorem nesting_members_le (h : ∀ e ∈ m, Balanced (write e.2)) {depth : Nat} :
    nesting (Writer.object (m.map fun e => Writer.member e.1 (write e.2))) ≤ depth ↔
      ∃ d, depth = d + 1 ∧ ∀ e ∈ m, nesting (write e.2) ≤ d := by
  rw [nesting_object_le (balanced_members h)]
  refine exists_congr fun d => and_congr_right fun _ => ?_
  rw [List.forall_mem_map]
  refine forall₂_congr fun e he => ?_
  rw [((h e he).member e.1).2]

end Members

end RobotBlocks.Json
