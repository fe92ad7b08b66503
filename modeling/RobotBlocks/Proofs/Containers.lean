import Mathlib
import RobotBlocks.Proofs.Names
import RobotBlocks.Proofs.Tokens

/-! Lists, maps and records of JSON, written and read back. Each loop over the items of a container
has one lemma, for any number of items read before. -/

namespace RobotBlocks.Json.Reader

variable {α σ : Type}

/-- The items of a container behind its bracket, or behind earlier ones. -/
def listed (first : Bool) (items : List (List Char)) : List Char :=
  if first then Writer.separated items else items.flatMap (',' :: ·)

theorem listed_nil (first : Bool) : listed first [] = [] := by cases first <;> rfl

theorem separated_cons (item : List Char) (items : List (List Char)) :
    Writer.separated (item :: items) = item ++ listed false items := by
  induction items generalizing item with
  | nil => simp [Writer.separated, listed]
  | cons next items ih => simp [Writer.separated, ih, listed]

theorem listed_cons (first : Bool) (item : List Char) (items : List (List Char)) :
    listed first (item :: items) = (if first then [] else [',']) ++ item ++ listed false items := by
  cases first
  · simp [listed]
  · simp [listed, separated_cons]

theorem object_append (members : List (List Char)) (rest : List Char) :
    Writer.object members ++ rest = '\x7b' :: (listed true members ++ '\x7d' :: rest) := by
  simp [Writer.object, listed]

theorem list_append (items : List (List Char)) (rest : List Char) :
    Writer.list items ++ rest = '[' :: (listed true items ++ ']' :: rest) := by
  simp [Writer.list, listed]

theorem length_le_listed {items : List (List Char)} {item : List Char} (h : item ∈ items)
    (first : Bool) : item.length ≤ (listed first items).length := by
  induction items generalizing first with
  | nil => simp at h
  | cons other items ih =>
    rw [listed_cons]
    rcases List.mem_cons.1 h with rfl | h
    · simp
      omega
    · have := ih h false
      simp
      omega

/-- A text with a character for each item at least. -/
theorem count_le_listed {items : List (List Char)} (h : ∀ item ∈ items, item ≠ []) (first : Bool) :
    items.length ≤ (listed first items).length := by
  induction items generalizing first with
  | nil => simp
  | cons item items ih =>
    have hrest := ih (fun item hitem => h item (by simp [hitem])) false
    have hitem := List.length_pos_iff.2 (h item (by simp))
    rw [listed_cons]
    simp
    omega

theorem length_object (members : List (List Char)) :
    (Writer.object members).length = (listed true members).length + 2 := by
  simp [Writer.object, listed]

theorem length_list (items : List (List Char)) :
    (Writer.list items).length = (listed true items).length + 2 := by
  simp [Writer.list, listed]

theorem endsValue_listed {close : Char} (hclose : close ∈ [']', '\x7d'])
    (items : List (List Char)) (rest : List Char) :
    EndsValue (listed false items ++ close :: rest) := by
  cases items with
  | nil => exact endsValue_cons.2 (List.mem_cons_of_mem _ hclose)
  | cons item items => exact endsValue_cons.2 (by simp)

theorem more_close {close : Char} (hclose : close ∈ [']', '\x7d']) (first : Bool)
    (rest : List Char) : more close first (close :: rest) = .ok (false, rest) := by
  have hspace : isSpace close = false := by fin_cases hclose <;> rfl
  rw [more, bind_ok (peek_cons hspace rest), if_pos rfl, bind_ok (advance_cons _ _)]
  rfl

/-- Another item follows: behind a comma, unless it is the first. -/
theorem more_item {close : Char} (hclose : close ∈ [']', '\x7d']) (first : Bool)
    {text : List Char} {c : Char} (hc : c ∈ text.head?) (hopening : IsOpening c)
    (rest : List Char) :
    more close first ((if first then [] else [',']) ++ text ++ rest) =
      .ok (true, text ++ rest) := by
  have hne : c ≠ close := by
    rintro rfl
    exact hopening.notMem (List.mem_append_right [' ', '\t', '\n', '\r', ',']
      (List.mem_append_left ['n', ':'] hclose))
  have hcomma : ',' ≠ close := by fin_cases hclose <;> decide
  cases first with
  | true =>
    rw [if_pos rfl, List.nil_append, more, bind_ok (peek_append hc hopening rest), if_neg hne,
      if_pos rfl]
    rfl
  | false =>
    rw [if_neg Bool.false_ne_true, List.append_assoc, List.singleton_append, more,
      bind_ok (peek_cons (by rfl) _), if_neg hcomma, if_neg Bool.false_ne_true, if_pos rfl,
      bind_ok (advance_cons _ _), bind_ok (peek_append hc hopening rest), if_neg hne]
    rfl

theorem elements_listed {item : Reader α} {write : α → List Char} {as : List α}
    (h : ∀ a ∈ as, Reads item (write a) a) {bound : Nat} (first : Bool) (done : List α)
    (rest : List Char) (hbound : as.length < bound) :
    elements item bound first done (listed first (as.map write) ++ ']' :: rest) =
      .ok (done.reverse ++ as, rest) := by
  induction as generalizing bound first done with
  | nil =>
    obtain ⟨bound, rfl⟩ : ∃ n, bound = n + 1 := ⟨bound - 1, by simp at hbound; omega⟩
    rw [elements, List.map_nil, listed_nil, List.nil_append,
      bind_ok (more_close (by simp) first rest)]
    simp
    rfl
  | cons a as ih =>
    obtain ⟨bound, rfl⟩ : ∃ n, bound = n + 1 := ⟨bound - 1, by simp at hbound; omega⟩
    have ha := h a (by simp)
    have hrest := ih (fun a ha => h a (by simp [ha])) false (a :: done) (by simpa using hbound)
    obtain ⟨c, hc, hopening⟩ := ha.opens
    rw [elements, List.map_cons, listed_cons, List.append_assoc,
      bind_ok (more_item (by simp) first hc hopening _), if_pos rfl,
      bind_ok (ha.takes _ (endsValue_listed (by simp) _ rest)), hrest]
    simp

theorem colon_cons (rest : List Char) : colon (':' :: rest) = .ok ((), rest) := rfl

theorem member_ne_nil (name : String) (value : List Char) : Writer.member name value ≠ [] := by
  simp [Writer.member, Writer.string]

theorem length_le_member (name : String) (value : List Char) :
    value.length ≤ (Writer.member name value).length := by
  simp [Writer.member]
  omega

/-- A value is no longer than the object it stands in. -/
theorem length_le_object {members : List (List Char)} {name : String} {value : List Char}
    (h : Writer.member name value ∈ members) : value.length ≤ (Writer.object members).length := by
  have hlisted := length_le_listed h true
  have hvalue := length_le_member name value
  rw [length_object]
  omega

theorem opens_member (name : String) (value : List Char) :
    '"' ∈ (Writer.member name value).head? := rfl

/-- A member's name and colon, with its value still to be read. -/
theorem key_member (name : String) (value rest : List Char) :
    key (Writer.member name value ++ rest) = .ok (name, ':' :: (value ++ rest)) := by
  rw [Writer.member, List.append_assoc]
  exact key_string name _

theorem members_listed {item : Reader α} {write : α → List Char} {entries : List (String × α)}
    (h : ∀ e ∈ entries, Reads item (write e.2) e.2) {bound : Nat} (first : Bool)
    (done : List (String × α)) (rest : List Char) (hbound : entries.length < bound) :
    members item bound first done
        (listed first (entries.map fun e => Writer.member e.1 (write e.2)) ++ '\x7d' :: rest) =
      .ok (done.reverse ++ entries, rest) := by
  induction entries generalizing bound first done with
  | nil =>
    obtain ⟨bound, rfl⟩ : ∃ n, bound = n + 1 := ⟨bound - 1, by simp at hbound; omega⟩
    rw [members, List.map_nil, listed_nil, List.nil_append,
      bind_ok (more_close (by simp) first rest)]
    simp
    rfl
  | cons e entries ih =>
    obtain ⟨bound, rfl⟩ : ∃ n, bound = n + 1 := ⟨bound - 1, by simp at hbound; omega⟩
    have he := h e (by simp)
    have hrest := ih (fun e he => h e (by simp [he])) false (e :: done) (by simpa using hbound)
    rw [members, List.map_cons, listed_cons, List.append_assoc,
      bind_ok (more_item (by simp) first (opens_member _ _) (.inl (by simp)) _), if_pos rfl,
      bind_ok (key_member _ _ _), bind_ok (colon_cons _),
      bind_ok (he.takes _ (endsValue_listed (by simp) _ rest)), hrest]
    simp

/-- A member that may be left out, and what reading it does to the record. -/
structure Entry (σ : Type) where
  name : String
  value : Option (List Char)
  put : σ → σ

namespace Entry

/-- The member as it is written, if it is. -/
def texts (e : Entry σ) : List (List Char) := Writer.member? e.name e.value

theorem mem_texts {e : Entry σ} {m : List Char} :
    m ∈ e.texts ↔ ∃ text, e.value = some text ∧ m = Writer.member e.name text := by
  simp [texts, Writer.member?, eq_comm]

theorem texts_ne_nil (entries : List (Entry σ)) : ∀ m ∈ entries.flatMap texts, m ≠ [] := by
  intro m hm
  obtain ⟨e, -, hm⟩ := List.mem_flatMap.1 hm
  obtain ⟨text, -, rfl⟩ := mem_texts.1 hm
  exact member_ne_nil _ _

/-- One of the slots reads the member. One that is left out puts nothing. -/
structure Fits (slots : List (Slot σ)) (e : Entry σ) : Prop where
  absent : e.value = none → e.put = id
  present : ∀ text, e.value = some text →
    ∃ slot, slots.find? (·.name = e.name) = some slot ∧ Reads slot.read text e.put

/-- A member for a value that may be absent. -/
def optional (name : String) (a : Option α) (write : α → List Char) (put : α → σ → σ) : Entry σ :=
  ⟨name, a.map write, fun s => a.elim s fun a => put a s⟩

theorem Fits.optional {slots : List (Slot σ)} {slot : Slot σ} {name : String} {a : Option α}
    {write : α → List Char} {put : α → σ → σ}
    (hslot : slots.find? (·.name = name) = some slot)
    (h : ∀ v, a = some v → Reads slot.read (write v) (put v)) :
    Fits slots (.optional name a write put) where
  absent hnone := by
    obtain rfl : a = none := by simpa [Entry.optional] using hnone
    rfl
  present text hsome := by
    obtain ⟨v, rfl, rfl⟩ := Option.map_eq_some_iff.1 hsome
    exact ⟨slot, hslot, h v rfl⟩

end Entry

theorem reads_of {name : String} {item : Reader α} {put : α → σ → σ} {text : List Char} {a : α}
    (h : Reads item text a) : Reads (Slot.of name item put).read text (put a) where
  opens := h.opens
  takes rest hrest := by
    show (do return put (← item) : Reader _) (text ++ rest) = _
    rw [bind_ok (h.takes rest hrest)]
    rfl

/-- The members of a record, behind its brace or behind earlier ones. -/
theorem recordMembers_listed {slots : List (Slot σ)} (bound : Nat) {entries : List (Entry σ)}
    (hfits : ∀ e ∈ entries, e.Fits slots) (hnodup : (entries.map Entry.name).Nodup)
    {met : List String} (hmet : ∀ e ∈ entries, e.name ∉ met) {turns : Nat} (first : Bool) (s : σ)
    (rest : List Char) (hturns : (entries.flatMap Entry.texts).length < turns) :
    recordMembers slots bound turns first met s
        (listed first (entries.flatMap Entry.texts) ++ '\x7d' :: rest) =
      .ok ((((entries.filter (·.value.isSome)).map Entry.name).reverse ++ met,
        entries.foldl (fun s e => e.put s) s), rest) := by
  induction entries generalizing met turns first s with
  | nil =>
    obtain ⟨turns, rfl⟩ : ∃ n, turns = n + 1 := ⟨turns - 1, by omega⟩
    rw [recordMembers, List.flatMap_nil, listed_nil, List.nil_append,
      bind_ok (more_close (by simp) first rest)]
    rfl
  | cons e entries ih =>
    have he := hfits e (by simp)
    have hfits' : ∀ e ∈ entries, e.Fits slots := fun e he => hfits e (by simp [he])
    obtain ⟨hnew, hnodup'⟩ := List.nodup_cons.1 (List.map_cons ▸ hnodup)
    -- a member that is left out takes no turn and puts nothing
    cases hvalue : e.value with
    | none =>
      have htexts : e.texts = [] := by simp [Entry.texts, hvalue, Writer.member?]
      rw [List.flatMap_cons, htexts, List.nil_append] at hturns ⊢
      rw [ih hfits' hnodup' (fun e he => hmet e (by simp [he])) first s hturns]
      simp [hvalue, he.absent hvalue]
    | some text =>
      obtain ⟨slot, hslot, hread⟩ := he.present text hvalue
      have htexts : e.texts = [Writer.member e.name text] := by
        simp [Entry.texts, hvalue, Writer.member?]
      rw [List.flatMap_cons, htexts, List.singleton_append] at hturns ⊢
      obtain ⟨turns, rfl⟩ : ∃ n, turns = n + 1 := ⟨turns - 1, by omega⟩
      have hmet' : ∀ e' ∈ entries, e'.name ∉ e.name :: met := by
        intro e' he' hmem
        rcases List.mem_cons.1 hmem with heq | hmem
        · exact hnew (List.mem_map.2 ⟨e', he', heq⟩)
        · exact hmet e' (by simp [he']) hmem
      have hrest := ih hfits' hnodup' hmet' false (e.put s) (by simpa using hturns)
      rw [recordMembers, listed_cons, List.append_assoc,
        bind_ok (more_item (by simp) first (opens_member _ _) (.inl (by simp)) _), if_pos rfl,
        bind_ok (key_member _ _ _)]
      simp only [hslot, if_neg (hmet e (by simp))]
      rw [bind_ok (colon_cons _), bind_ok (hread.takes _ (endsValue_listed (by simp) _ rest)),
        hrest]
      simp [hvalue]

theorem reads_record {slots : List (Slot σ)} {bound : Nat} {needed : List String} {start s : σ}
    {entries : List (Entry σ)} (hfits : ∀ e ∈ entries, e.Fits slots)
    (hnodup : (entries.map Entry.name).Nodup)
    (hneeded : ∀ name ∈ needed, ∃ e ∈ entries, e.name = name ∧ e.value.isSome)
    (hbound : (Writer.object (entries.flatMap Entry.texts)).length ≤ bound)
    (hs : entries.foldl (fun s e => e.put s) start = s) :
    Reads (record bound slots needed start) (Writer.object (entries.flatMap Entry.texts)) s where
  opens := ⟨'\x7b', rfl, .inl (by simp)⟩
  takes rest _ := by
    have hall : needed.all (· ∈ ((entries.filter (·.value.isSome)).map Entry.name).reverse ++ [])
        = true := by
      simp only [List.all_eq_true, decide_eq_true_eq, List.append_nil, List.mem_reverse,
        List.mem_map, List.mem_filter]
      intro name hname
      obtain ⟨e, he, hname, hsome⟩ := hneeded name hname
      exact ⟨e, ⟨he, hsome⟩, hname⟩
    have hmet : ∀ e ∈ entries, e.name ∉ ([] : List String) := by simp
    have hcount := count_le_listed (Entry.texts_ne_nil entries) true
    rw [length_object] at hbound
    have hturns : (entries.flatMap Entry.texts).length < bound := by omega
    have hmembers := recordMembers_listed bound hfits hnodup hmet true start rest hturns
    rw [object_append, record, bind_ok (peek_cons (by rfl) _)]
    simp only [if_pos]
    rw [bind_ok (advance_cons _ _), bind_ok hmembers]
    simp only [hall, if_pos, hs]
    rfl

theorem reads_list {item : Reader α} {write : α → List Char} {as : List α} {bound : Nat}
    (h : ∀ a ∈ as, Reads item (write a) a)
    (hbound : (Writer.list (as.map write)).length ≤ bound) :
    Reads (list bound item) (Writer.list (as.map write)) as where
  opens := ⟨'[', rfl, .inl (by simp)⟩
  takes rest _ := by
    have hne : ∀ text ∈ as.map write, text ≠ [] := by
      intro text htext hnil
      obtain ⟨a, ha, rfl⟩ := List.mem_map.1 htext
      simpa [hnil] using (h a ha).opens
    have hcount := count_le_listed hne true
    rw [List.length_map] at hcount
    rw [length_list] at hbound
    rw [list_append, list, bind_ok (peek_cons (by rfl) _), if_pos rfl, bind_ok (advance_cons _ _),
      elements_listed h true [] rest (by omega)]
    rfl

theorem reads_map {item : Reader α} {write : α → List Char} {m : NameMap α none} {bound : Nat}
    (h : ∀ e ∈ m.entries, Reads item (write e.2) e.2)
    (hbound : (Writer.object (m.map fun e => Writer.member e.1 (write e.2))).length ≤ bound) :
    Reads (map bound item) (Writer.object (m.map fun e => Writer.member e.1 (write e.2))) m where
  opens := ⟨'\x7b', rfl, .inl (by simp)⟩
  takes rest _ := by
    have hne : ∀ text ∈ m.map (fun e => Writer.member e.1 (write e.2)), text ≠ [] := by
      intro text htext
      obtain ⟨e, -, rfl⟩ := List.mem_map.1 htext
      exact member_ne_nil _ _
    have hcount := count_le_listed hne true
    rw [NameMap.map, List.length_map] at hcount
    rw [length_object] at hbound
    have hturns : m.entries.length < bound := by
      rw [NameMap.map] at hbound
      omega
    rw [object_append, map, bind_ok (peek_cons (by rfl) _), if_pos rfl, bind_ok (advance_cons _ _),
      NameMap.map, bind_ok (members_listed h true [] rest hturns), List.reverse_nil,
      List.nil_append, NameMap.ofPairs_entries]
    rfl

end RobotBlocks.Json.Reader
