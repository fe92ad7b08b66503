import Mathlib
import RobotBlocks.Block.Json

/-! Strings, truth values and numbers of JSON, written and read back. A reader that takes a written
value takes all of it and nothing behind it. A number has no end of its own, so this rests on what
may stand behind a value. -/

namespace RobotBlocks.Json

variable {α β : Type}

/-- What a value may start with, `null` apart. -/
def IsOpening (c : Char) : Prop := c ∈ ['"', 't', 'f', '-', '[', '\x7b'] ∨ c.isDigit

/-- What may stand behind a value: a comma, the end of a container, or nothing. -/
def EndsValue (rest : List Char) : Prop := ∀ c ∈ rest.head?, c ∈ [',', ']', '\x7d']

/-- A text that a reader takes for a value, whatever comes behind it. -/
structure Reads (item : Reader α) (text : List Char) (a : α) : Prop where
  opens : ∃ c ∈ text.head?, IsOpening c
  takes : ∀ rest, EndsValue rest → item (text ++ rest) = .ok (a, rest)

theorem IsOpening.notMem {c : Char} (h : IsOpening c) :
    c ∉ [' ', '\t', '\n', '\r', ',', ']', '\x7d', 'n', ':'] := by
  rintro hmem
  rcases h with h | h
  · revert hmem
    fin_cases h <;> decide
  · revert h
    fin_cases hmem <;> decide

theorem IsOpening.isSpace {c : Char} (h : IsOpening c) : Reader.isSpace c = false := by
  have hc := h.notMem
  simp only [List.mem_cons, not_or] at hc
  simp [Reader.isSpace, hc]

theorem endsValue_nil : EndsValue [] := by simp [EndsValue]

theorem endsValue_cons {c : Char} {rest : List Char} :
    EndsValue (c :: rest) ↔ c ∈ [',', ']', '\x7d'] := by simp [EndsValue]

namespace Reader

theorem bind_ok {x : Reader α} {f : α → Reader β} {text rest : List Char} {a : α}
    (h : x text = .ok (a, rest)) : (x >>= f) text = f a rest := by
  show (x text >>= fun p => f p.1 p.2) = f a rest
  rw [h]
  rfl

theorem peek_cons {c : Char} (h : isSpace c = false) (rest : List Char) :
    peek (c :: rest) = .ok (c, c :: rest) := by
  simp [peek, List.dropWhile, h]

theorem peek_append {text : List Char} {c : Char} (hc : c ∈ text.head?) (h : IsOpening c)
    (rest : List Char) : peek (text ++ rest) = .ok (c, text ++ rest) := by
  obtain ⟨tail, rfl⟩ := List.head?_eq_some_iff.1 hc
  exact peek_cons h.isSpace (tail ++ rest)

theorem advance_cons (c : Char) (rest : List Char) : advance (c :: rest) = .ok ((), rest) := rfl

theorem get_eq (text : List Char) : (get : Reader (List Char)) text = .ok (text, text) := rfl

/-- The three ways to write a character: with a letter of its own behind a backslash, by its code,
or as it is. -/
theorem escape_cases (c : Char) :
    (∃ d, escape? d = some c ∧ Writer.escape c = ['\\', d]) ∨
    (c < ' ' ∧ Writer.escape c = "\\u00".toList ++ Text.hexByte false c.toNat.toUInt8) ∨
    (c ≠ '"' ∧ c ≠ '\\' ∧ ¬c < ' ' ∧ Writer.escape c = [c]) := by
  by_cases hnamed : c ∈ ['"', '\\', '\x08', '\x0C', '\n', '\r', '\t']
  · left
    fin_cases hnamed
    exacts [⟨'"', rfl, rfl⟩, ⟨'\\', rfl, rfl⟩, ⟨'b', rfl, rfl⟩, ⟨'f', rfl, rfl⟩, ⟨'n', rfl, rfl⟩,
      ⟨'r', rfl, rfl⟩, ⟨'t', rfl, rfl⟩]
  · right
    simp only [List.mem_cons, List.not_mem_nil, or_false, not_or] at hnamed
    obtain ⟨hquote, hslash, hb, hf, hn, hr, ht⟩ := hnamed
    simp only [Writer.escape, hquote, hslash, hb, hf, hn, hr, ht, if_false]
    by_cases hc : c < ' '
    · exact .inl ⟨hc, if_pos hc⟩
    · exact .inr ⟨hquote, hslash, hc, if_neg hc⟩

theorem unit?_hexByte {n : UInt8} (h : n < 32) :
    ∃ a b, Text.hexByte false n = [a, b] ∧ unit? '0' '0' a b = some n.toNat := by
  refine ⟨_, _, rfl, ?_⟩
  revert n
  decide +kernel

theorem quoted_named {done rest : List Char} {c d : Char} (h : escape? d = some c) :
    quoted done ('\\' :: d :: rest) = quoted (c :: done) rest := by
  have hu : d ≠ 'u' := by
    rintro rfl
    cases h
  rw [quoted.eq_def]
  split <;> simp_all
  case h_7 hne _ heq =>
    obtain ⟨rfl, rfl⟩ := heq
    exact absurd rfl (hne d rest rfl)

theorem quoted_plain {done rest : List Char} {c : Char} (hquote : c ≠ '"') (hslash : c ≠ '\\')
    (hc : ¬c < ' ') : quoted done (c :: rest) = quoted (c :: done) rest := by
  rw [quoted.eq_def]
  split <;> simp_all

theorem quoted_code {done rest : List Char} {c : Char} (h : c < ' ') :
    quoted done ("\\u00".toList ++ Text.hexByte false c.toNat.toUInt8 ++ rest) =
      quoted (c :: done) rest := by
  have hlt : c.toNat < 32 := h
  have hbyte : c.toNat.toUInt8.toNat = c.toNat := by
    simp
    omega
  obtain ⟨a, b, hhex, hunit⟩ := unit?_hexByte (n := c.toNat.toUInt8) (by
    rw [UInt8.lt_iff_toNat_lt, hbyte]
    exact hlt)
  have hlow : isLowSurrogate c.toNat = false := by simp [isLowSurrogate]; omega
  have hhigh : isHighSurrogate c.toNat = false := by simp [isHighSurrogate]; omega
  rw [hhex]
  show quoted done ('\\' :: 'u' :: '0' :: '0' :: a :: b :: rest) = _
  rw [quoted, hunit, hbyte]
  simp [hlow, hhigh]

/-- One character of a string. -/
theorem quoted_escape (done rest : List Char) (c : Char) :
    quoted done (Writer.escape c ++ rest) = quoted (c :: done) rest := by
  obtain ⟨d, hd, heq⟩ | ⟨hc, heq⟩ | ⟨hquote, hslash, hc, heq⟩ := escape_cases c
  · rw [heq]
    exact quoted_named hd
  · rw [heq]
    exact quoted_code hc
  · rw [heq]
    exact quoted_plain hquote hslash hc

theorem quoted_string (done : List Char) (cs rest : List Char) :
    quoted done (cs.flatMap Writer.escape ++ '"' :: rest) =
      .ok (String.ofList (done.reverse ++ cs), rest) := by
  induction cs generalizing done with
  | nil => simp [quoted]
  | cons c cs ih =>
    rw [List.flatMap_cons, List.append_assoc, quoted_escape, ih]
    simp

theorem string_append (s : String) (rest : List Char) :
    Writer.string s ++ rest = '"' :: (s.toList.flatMap Writer.escape ++ '"' :: rest) := by
  simp [Writer.string]

theorem quoted_written (s : String) (rest : List Char) :
    quoted [] (s.toList.flatMap Writer.escape ++ '"' :: rest) = .ok (s, rest) := by
  rw [quoted_string]
  simp

theorem key_string (s : String) (rest : List Char) :
    key (Writer.string s ++ rest) = .ok (s, rest) := by
  rw [string_append, key, bind_ok (peek_cons (by rfl) _), if_pos rfl, bind_ok (advance_cons _ _)]
  exact quoted_written s rest

theorem reads_string (s : String) : Reads string (Writer.string s) s where
  opens := ⟨'"', rfl, .inl (by simp)⟩
  takes rest _ := by
    rw [string_append, string, bind_ok (peek_cons (by rfl) _), if_pos rfl,
      bind_ok (advance_cons _ _)]
    exact quoted_written s rest

theorem reads_flag (b : Bool) : Reads flag (Writer.flag b) b where
  opens := by cases b <;> simp [Writer.flag, IsOpening]
  takes rest _ := by
    cases b <;> rfl

/-- A reader that takes no more when a value's end is put behind its text. -/
structure Steady (r : Reader α) : Prop where
  append : ∀ {text a left rest}, EndsValue rest → r text = .ok (a, left) →
    r (text ++ rest) = .ok (a, left ++ rest)

theorem bind_eq_ok {x : Reader α} {f : α → Reader β} {text rest : List Char} {b : β}
    (h : (x >>= f) text = .ok (b, rest)) :
    ∃ a left, x text = .ok (a, left) ∧ f a left = .ok (b, rest) := by
  have h : (x text >>= fun p => f p.1 p.2) = .ok (b, rest) := h
  cases hx : x text with
  | error e => rw [hx] at h; cases h
  | ok p => rw [hx] at h; exact ⟨p.1, p.2, rfl, h⟩

theorem steady_pure (a : α) : Steady (pure a : Reader α) where
  append _ h := by
    cases h
    rfl

theorem steady_throw (e : Fault) : Steady (throw e : Reader α) where
  append _ h := by cases h

theorem Steady.bind {x : Reader α} {f : α → Reader β} (hx : Steady x) (hf : ∀ a, Steady (f a)) :
    Steady (x >>= f) where
  append hrest h := by
    obtain ⟨a, mid, hxa, hfa⟩ := bind_eq_ok h
    rw [bind_ok (hx.append hrest hxa)]
    exact (hf a).append hrest hfa

theorem head?_append_eq_some {rest : List Char} {c : Char} (hrest : EndsValue rest)
    (hc : c ∉ [',', ']', '\x7d']) (text : List Char) :
    (text ++ rest).head? = some c ↔ text.head? = some c := by
  cases text with
  | nil =>
    constructor
    · intro h
      exact absurd (hrest c h) hc
    · intro h
      cases h
  | cons d text => rfl

theorem digits_append {rest : List Char} (hrest : EndsValue rest) (text : List Char) :
    (text ++ rest).takeWhile Char.isDigit = text.takeWhile Char.isDigit ∧
      (text ++ rest).dropWhile Char.isDigit = text.dropWhile Char.isDigit ++ rest := by
  induction text with
  | nil =>
    cases rest with
    | nil => exact ⟨rfl, rfl⟩
    | cons c rest =>
      have hc : c.isDigit = false := by
        have hmem := endsValue_cons.1 hrest
        fin_cases hmem <;> rfl
      simp [hc]
  | cons c text ih =>
    by_cases hc : c.isDigit
    · simp [hc, ih]
    · simp [hc]

theorem steady_digits (atEnd : Fault) : Steady (digits atEnd) where
  append {text ds left rest} hrest h := by
    cases text with
    | nil => cases h
    | cons c text =>
      obtain ⟨htake, hdrop⟩ := digits_append hrest (c :: text)
      unfold digits at h ⊢
      dsimp only [List.cons_append] at h htake hdrop ⊢
      split at h
      · rw [if_pos ‹_›, htake, hdrop]
        cases h
        rfl
      · cases h

theorem steady_wholeDigits (atEnd : Fault) : Steady (wholeDigits atEnd) := by
  refine (steady_digits atEnd).bind fun ds => ?_
  split
  · exact steady_throw _
  · exact steady_pure _

theorem fractionDigits_eq (atEnd : Fault) (text : List Char) :
    fractionDigits atEnd text =
      if text.head? = some '.' then digits atEnd text.tail else .ok ([], text) := by
  show (if text.head? = some '.' then (do advance; digits atEnd : Reader _) else return [])
    text = _
  split <;> rfl

theorem steady_fractionDigits (atEnd : Fault) : Steady (fractionDigits atEnd) where
  append {text ds left rest} hrest h := by
    rw [fractionDigits_eq] at h ⊢
    simp only [head?_append_eq_some hrest (show '.' ∉ [',', ']', '\x7d'] by decide)]
    split at h
    · rename_i hhead
      obtain ⟨tail, rfl⟩ := List.head?_eq_some_iff.1 hhead
      exact (steady_digits atEnd).append hrest h
    · rw [if_neg ‹_›]
      cases h
      rfl

theorem splitSign_append {rest : List Char} (hrest : EndsValue rest) (text : List Char) :
    Binary64.splitSign (text ++ rest) =
      ((Binary64.splitSign text).1, (Binary64.splitSign text).2 ++ rest) := by
  cases text with
  | nil =>
    have hminus := (head?_append_eq_some (c := '-') hrest (by decide) []).not.2 (by simp)
    have hplus := (head?_append_eq_some (c := '+') hrest (by decide) []).not.2 (by simp)
    rw [List.nil_append] at hminus hplus ⊢
    unfold Binary64.splitSign
    split <;> simp_all
  | cons c text =>
    unfold Binary64.splitSign
    split <;> simp_all

theorem exponentDigits_eq (atEnd : Fault) (text : List Char) :
    exponentDigits atEnd text =
      if text.head? = some 'e' ∨ text.head? = some 'E' then
        (do return some ((Binary64.splitSign text.tail).1, ← digits atEnd) : Reader _)
          (Binary64.splitSign text.tail).2
      else .ok (none, text) := by
  unfold exponentDigits
  rw [bind_ok (get_eq text)]
  dsimp only
  split <;> rfl

theorem steady_exponentDigits (atEnd : Fault) : Steady (exponentDigits atEnd) where
  append {text ds left rest} hrest h := by
    rw [exponentDigits_eq] at h ⊢
    simp only [head?_append_eq_some hrest (show 'e' ∉ [',', ']', '\x7d'] by decide),
      head?_append_eq_some hrest (show 'E' ∉ [',', ']', '\x7d'] by decide)]
    split at h
    · rename_i hhead
      have htail : (text ++ rest).tail = text.tail ++ rest := by
        cases text <;> simp_all
      rw [if_pos hhead, htail, splitSign_append hrest]
      exact ((steady_digits atEnd).bind fun _ => steady_pure _).append hrest h
    · rw [if_neg ‹_›]
      cases h
      rfl

theorem numberText_eq (atEnd : Fault) (text : List Char) :
    numberText atEnd text =
      (do
        let whole ← wholeDigits atEnd
        let fraction ← fractionDigits atEnd
        return ⟨text.head? = some '-', whole, fraction, ← exponentDigits atEnd⟩ : Reader _)
        (if text.head? = some '-' then text.tail else text) := by
  unfold numberText
  rw [bind_ok (get_eq text)]
  dsimp only
  split <;> rfl

theorem steady_numberText (atEnd : Fault) : Steady (numberText atEnd) where
  append {text t left rest} hrest h := by
    rw [numberText_eq] at h ⊢
    simp only [head?_append_eq_some hrest (show '-' ∉ [',', ']', '\x7d'] by decide)]
    have hunsigned : (if text.head? = some '-' then (text ++ rest).tail else text ++ rest) =
        (if text.head? = some '-' then text.tail else text) ++ rest := by
      split
      · cases text <;> simp_all
      · rfl
    rw [hunsigned]
    exact Steady.append (.bind (steady_wholeDigits _) fun _ => .bind (steady_fractionDigits _)
      fun _ => .bind (steady_exponentDigits _) fun _ => steady_pure _) hrest h

theorem steady_number : Steady number := by
  refine (steady_numberText _).bind fun t => ?_
  split
  · exact steady_pure _
  · exact steady_throw _

/-- What the number reader takes starts as a number, so readers that look ahead come to it. -/
theorem exists_head?_of_number {text left : List Char} {p : NumberText × Binary64}
    (h : number text = .ok (p, left)) : ∃ c ∈ text.head?, c = '-' ∨ c.isDigit := by
  obtain ⟨t, mid, h, -⟩ := bind_eq_ok h
  cases text with
  | nil => cases h
  | cons c text =>
    refine ⟨c, rfl, ?_⟩
    by_contra hc
    obtain ⟨hminus, hdigit⟩ := not_or.1 hc
    rw [numberText_eq, if_neg (by simpa using hminus)] at h
    obtain ⟨whole, mid, hwhole, -⟩ := bind_eq_ok h
    obtain ⟨ds, mid, hdigits, -⟩ := bind_eq_ok hwhole
    simp [digits, hdigit] at hdigits

theorem isOpening_of_number {c : Char} (h : c = '-' ∨ c.isDigit) : IsOpening c :=
  h.imp (fun h => by simp [h]) id

/-- No digits of a number but zero start with a zero. -/
theorem head?_toDigits_eq_zero {n : Nat} (h : (Nat.toDigits 10 n).head? = some '0') : n = 0 := by
  induction n using Nat.strongRecOn with
  | ind n ih =>
    rw [Nat.toDigits_eq_if (by decide)] at h
    split at h
    · interval_cases n <;> simp_all [Nat.digitChar]
    · have hne : Nat.toDigits 10 (n / 10) ≠ [] := Nat.toDigits_ne_nil
      rw [List.head?_append_of_ne_nil _ hne] at h
      have hquotient := ih (n / 10) (by omega) h
      omega

theorem isDigit_of_mem_natural {n : Nat} {c : Char} (h : c ∈ Writer.natural n) : c.isDigit :=
  Nat.isDigit_of_mem_toDigits (by decide) (by decide) h

theorem ofDigits_natural (n : Nat) : Binary64.ofDigits (Writer.natural n) = n :=
  Nat.ofDigitChars_toDigits (by decide) (by decide)

theorem wholeDigits_natural (atEnd : Fault) (n : Nat) :
    wholeDigits atEnd (Writer.natural n) = .ok (Writer.natural n, []) := by
  have hall : ∀ c ∈ Writer.natural n, c.isDigit := fun _ => isDigit_of_mem_natural
  have hdigits : digits atEnd (Writer.natural n) = .ok (Writer.natural n, []) := by
    have htake : (Writer.natural n).takeWhile Char.isDigit = Writer.natural n := by
      simpa using hall
    have hdrop : (Writer.natural n).dropWhile Char.isDigit = [] := by simpa using hall
    unfold digits
    split
    case h_1 heq => exact absurd heq Nat.toDigits_ne_nil
    case h_2 c _ heq => rw [if_pos (hall c (by simp [heq])), htake, hdrop]
  rw [wholeDigits, bind_ok hdigits, if_neg]
  · rfl
  · rintro ⟨hzero, hlength⟩
    obtain rfl := head?_toDigits_eq_zero hzero
    exact hlength rfl

theorem number_natural {n : Nat} (h : n < UInt64.size) :
    number (Writer.natural n) = .ok ((⟨false, Writer.natural n, [], none⟩, .ofNat n), []) := by
  have hsign : (Writer.natural n).head? ≠ some '-' := by
    intro hhead
    have hdigit := isDigit_of_mem_natural (List.mem_of_mem_head? hhead)
    simp at hdigit
  have htext : numberText .truncated (Writer.natural n) =
      .ok (⟨false, Writer.natural n, [], none⟩, []) := by
    rw [numberText_eq, if_neg hsign, bind_ok (wholeDigits_natural _ n)]
    simp only [hsign]
    rfl
  rw [number, bind_ok htext]
  simp [NumberText.value?, NumberText.isWhole, ofDigits_natural, h]
  rfl

theorem reads_natural {n limit : Nat} (h : n < limit) (hlimit : limit ≤ UInt64.size) :
    Reads (natural limit) (Writer.natural n) n := by
  have hnumber := number_natural (h.trans_le hlimit)
  obtain ⟨c, hc, hopens⟩ := exists_head?_of_number hnumber
  have hopening := isOpening_of_number hopens
  refine ⟨⟨c, hc, hopening⟩, fun rest hrest => ?_⟩
  rw [natural, bind_ok (peek_append hc hopening rest), if_pos hopens,
    bind_ok (steady_number.append hrest hnumber)]
  simp [NumberText.natural?, NumberText.isWhole, ofDigits_natural, h]
  rfl

/-- The text of a number reads back as the number. -/
def ReadsBack (x : Binary64) : Prop := ∃ t, number (Writer.number x) = .ok ((t, x), [])

instance (x : Binary64) : Decidable (ReadsBack x) :=
  match h : number (Writer.number x) with
  | .ok ((t, y), rest) =>
    decidable_of_iff (y = x ∧ rest = []) (by
      constructor
      · rintro ⟨rfl, rfl⟩
        exact ⟨t, h⟩
      · rintro ⟨_, h'⟩
        cases h.symm.trans h'
        exact ⟨rfl, rfl⟩)
  | .error _ => isFalse fun ⟨_, h'⟩ => by cases h.symm.trans h'

theorem reads_optional {item : Reader α} {text : List Char} {a : α} (h : Reads item text a) :
    Reads (optional item) text (some a) where
  opens := h.opens
  takes rest hrest := by
    obtain ⟨c, hc, hopening⟩ := h.opens
    have hnull : c ≠ 'n' := by
      rintro rfl
      exact hopening.notMem (by simp)
    rw [optional, bind_ok (peek_append hc hopening rest), if_neg hnull,
      bind_ok (h.takes rest hrest)]
    rfl

end Reader

end RobotBlocks.Json
