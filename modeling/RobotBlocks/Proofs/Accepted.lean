import Mathlib
import RobotBlocks.Proofs.Containers
import RobotBlocks.Proofs.Rounding

/-! What JSON readers give for any text they accept: finite numbers, maps of what was read, and
records whose parts were each read by their own slot. -/

namespace RobotBlocks

namespace Binary64

theorem log2_shifted_le {n m k l : Nat} (h : n < 2 ^ k) (hm : m = 2 ^ l) :
    (n * m).log2 ≤ k + l := by
  by_cases hzero : n * m = 0
  · rw [hzero]
    simp
  · have hlt : n * m < 2 ^ k * 2 ^ l := by
      rw [hm]
      exact Nat.mul_lt_mul_of_pos_right h (Nat.two_pow_pos l)
    rw [← pow_add] at hlt
    exact Nat.le_of_lt ((Nat.log2_lt hzero).2 hlt)

theorem isFinite_ofNat {n : Nat} (h : n < UInt64.size) : (ofNat n).isFinite := by
  have hone : one = 2 ^ 1074 := by decide +kernel
  have hlog : (n * one).log2 ≤ 64 + 1074 := log2_shifted_le h hone
  have hrank : nearest (n * one) 1 < ranks := by
    have hnearest := nearest_le (n * one)
    have hshift : ((n * one).log2 - 52) * binade ≤ 1086 * binade :=
      Nat.mul_le_mul_right _ (by omega)
    have hbinade : 0 < binade := by decide
    unfold ranks
    omega
  have hround : ofNat n = round false (n * one) 1 := by
    have hunits : (n : Int) * (one : Int) = ((n * one : Nat) : Int) := (Nat.cast_mul n one).symm
    rw [ofNat, ofInt, ofUnits, hunits, Int.natAbs_natCast, decide_eq_false (by omega)]
  rw [hround, round, ofRank, dif_pos hrank]
  rfl

theorem isFinite_neg (x : Binary64) : (-x).isFinite = x.isFinite := by cases x <;> rfl

end Binary64

namespace Json.Reader

variable {α β σ : Type}

/-- Whatever the reader gives has a property. -/
def Yields (r : Reader α) (P : α → Prop) : Prop := ∀ text a rest, r text = .ok (a, rest) → P a

theorem yields_pure {P : α → Prop} {a : α} (h : P a) : Yields (pure a) P := by
  intro text b rest hr
  cases hr
  exact h

theorem yields_throw {P : α → Prop} (e : Fault) : Yields (throw e) P := by
  intro text b rest hr
  cases hr

theorem Yields.bind {P : α → Prop} {Q : β → Prop} {x : Reader α} {f : α → Reader β}
    (hx : Yields x P) (hf : ∀ a, P a → Yields (f a) Q) : Yields (x >>= f) Q := by
  intro text b rest hr
  obtain ⟨a, left, ha, hb⟩ := bind_eq_ok hr
  exact hf a (hx text a left ha) left b rest hb

theorem Yields.imp {P Q : α → Prop} {r : Reader α} (h : Yields r P) (himp : ∀ a, P a → Q a) :
    Yields r Q := fun text a rest hr => himp a (h text a rest hr)

theorem yields_true (r : Reader α) : Yields r fun _ => True := fun _ _ _ _ => trivial

/-- Nothing need be known of what was read first. -/
theorem yields_after {Q : β → Prop} {x : Reader α} {f : α → Reader β}
    (hf : ∀ a, Yields (f a) Q) : Yields (x >>= f) Q :=
  (yields_true x).bind fun a _ => hf a

theorem yields_ite {P : α → Prop} {p : Prop} [Decidable p] {r s : Reader α} (hr : p → Yields r P)
    (hs : ¬p → Yields s P) : Yields (if p then r else s) P := by
  split
  · exact hr ‹_›
  · exact hs ‹_›

theorem yields_refuse {P : α → Prop} (c : Char) : Yields (refuse c) P := by
  have hthen {β : Type} (x : Reader β) : Yields (x >>= fun _ => throw .mismatched) P :=
    yields_after fun _ => yields_throw _
  unfold refuse
  split_ifs
  exacts [hthen _, hthen _, hthen _, yields_after fun _ => hthen _, hthen _, yields_throw _,
    hthen _]

theorem yields_optional {P : α → Prop} {item : Reader α} (h : Yields item P) :
    Yields (optional item) fun o => ∀ a, o = some a → P a := by
  refine yields_after fun c => yields_ite (fun _ => ?_) fun _ => ?_
  · refine yields_after fun _ => yields_pure ?_
    simp
  · refine h.bind fun a ha => yields_pure ?_
    rintro _ ⟨⟩
    exact ha

theorem yields_elements {P : α → Prop} {item : Reader α} (h : Yields item P) (bound : Nat)
    (first : Bool) {done : List α} (hdone : ∀ a ∈ done, P a) :
    Yields (elements item bound first done) fun as => ∀ a ∈ as, P a := by
  induction bound generalizing first done with
  | zero => exact yields_throw _
  | succ bound ih =>
    refine yields_after fun another => yields_ite (fun _ => ?_) fun _ => ?_
    · exact h.bind fun a ha => ih false (List.forall_mem_cons.2 ⟨ha, hdone⟩)
    · exact yields_pure fun a ha => hdone a (List.mem_reverse.1 ha)

theorem yields_members {P : α → Prop} {item : Reader α} (h : Yields item P) (bound : Nat)
    (first : Bool) {done : List (String × α)} (hdone : ∀ e ∈ done, P e.2) :
    Yields (members item bound first done) fun m => ∀ e ∈ m, P e.2 := by
  induction bound generalizing first done with
  | zero => exact yields_throw _
  | succ bound ih =>
    refine yields_after fun another => yields_ite (fun _ => ?_) fun _ => ?_
    · refine yields_after fun name => yields_after fun _ => h.bind fun a ha => ?_
      exact ih false (List.forall_mem_cons.2 ⟨ha, hdone⟩)
    · exact yields_pure fun e he => hdone e (List.mem_reverse.1 he)

theorem yields_list {P : α → Prop} {item : Reader α} (h : Yields item P) (bound : Nat) :
    Yields (list bound item) fun as => ∀ a ∈ as, P a := by
  refine yields_after fun c => yields_ite (fun _ => ?_) fun _ => yields_refuse c
  exact yields_after fun _ => yields_elements h bound true (by simp)

theorem yields_map {P : α → Prop} {item : Reader α} (h : Yields item P) (bound : Nat) :
    Yields (map bound item) fun m => ∀ e ∈ m.entries, P e.2 := by
  refine yields_after fun c => yields_ite (fun _ => ?_) fun _ => yields_refuse c
  refine yields_after fun _ => (yields_members h bound true (by simp)).bind fun m hm => ?_
  exact yields_pure fun e he => hm e (NameMap.mem_ofPairs he)

/-- A slot that keeps a property of the record. -/
def Slot.Keeps (I : σ → Prop) (slot : Slot σ) : Prop :=
  Yields slot.read fun put => ∀ s, I s → I (put s)

theorem keeps_of {I : σ → Prop} {P : α → Prop} {name : String} {item : Reader α} {put : α → σ → σ}
    (h : Yields item P) (hput : ∀ a s, P a → I s → I (put a s)) :
    (Slot.of name item put).Keeps I :=
  h.bind fun a ha => yields_pure fun s hs => hput a s ha hs

theorem yields_recordMembers {I : σ → Prop} {slots : List (Slot σ)}
    (h : ∀ slot ∈ slots, slot.Keeps I) (bound turns : Nat) (first : Bool) (met : List String)
    {s : σ} (hs : I s) :
    Yields (recordMembers slots bound turns first met s) fun p => I p.2 := by
  induction turns generalizing first met s with
  | zero => exact yields_throw _
  | succ turns ih =>
    refine yields_after fun another => yields_ite (fun _ => ?_) fun _ => yields_pure hs
    refine yields_after fun name => ?_
    split
    case h_1 slot hslot =>
      refine yields_ite (fun _ => yields_throw _) fun _ => yields_after fun _ => ?_
      refine (h slot (List.mem_of_find?_eq_some hslot)).bind fun put hput => ?_
      exact ih false (name :: met) (hput s hs)
    case h_2 =>
      exact yields_after fun _ => yields_after fun _ => ih false met hs

theorem yields_recordItems {I : σ → Prop} {slots : List (Slot σ)}
    (h : ∀ slot ∈ slots, slot.Keeps I) (first : Bool) (met : List String) {s : σ} (hs : I s) :
    Yields (recordItems slots first met s) fun p => I p.2 := by
  induction slots generalizing first met s with
  | nil => exact yields_after fun _ => yields_pure hs
  | cons slot slots ih =>
    refine yields_after fun another => yields_ite (fun _ => ?_) fun _ => yields_pure hs
    refine (h slot (by simp)).bind fun put hput => ?_
    exact ih (fun slot hslot => h slot (by simp [hslot])) false (slot.name :: met) (hput s hs)

/-- What holds at first and is kept by every slot holds of the record. -/
theorem yields_record {I : σ → Prop} {slots : List (Slot σ)} {start : σ}
    (h : ∀ slot ∈ slots, slot.Keeps I) (hstart : I start) (bound : Nat) (needed : List String) :
    Yields (record bound slots needed start) I := by
  have hend (p : List String × σ) (hp : I p.2) :
      Yields (if needed.all (· ∈ p.1) then return p.2 else throw .mismatched) I :=
    yields_ite (fun _ => yields_pure hp) fun _ => yields_throw _
  refine yields_after fun c =>
    yields_ite (fun _ => ?_) fun _ => yields_ite (fun _ => ?_) fun _ => ?_
  · exact yields_after fun _ => (yields_recordMembers h bound bound true [] hstart).bind hend
  · exact yields_after fun _ => (yields_recordItems h true [] hstart).bind hend
  · exact (yields_refuse c).bind hend

theorem yields_closed {P : α → Prop} (opens : List Char) : Yields (closed opens) P :=
  yields_after fun c => yields_ite (fun _ => yields_throw _) fun _ => yields_refuse c

/-- A container is read only if there is room for it. -/
theorem yields_nested {P : α → Prop} {opens : List Char} {item : Nat → Reader α} {depth : Nat}
    (h : ∀ d, depth = d + 1 → Yields (item d) P) : Yields (nested opens item depth) P := by
  cases depth with
  | zero => exact yields_closed opens
  | succ d => exact h d rfl

theorem exists_of_parse {item : Nat → Reader α} {text : String} {a : α}
    (h : parse item text = .ok a) :
    ∃ rest, item (text.toList.length + 1) text.toList = .ok (a, rest) := by
  unfold parse at h
  dsimp only at h
  cases hitem : item (text.toList.length + 1) text.toList with
  | error e =>
    rw [hitem] at h
    cases h
  | ok p =>
    rw [hitem] at h
    have h : (if p.2.all isSpace then .ok p.1 else .error Fault.malformed) = Except.ok a := h
    split at h
    · cases h
      exact ⟨p.2, rfl⟩
    · cases h

theorem isFinite_value? {t : NumberText} {x : Binary64} (h : t.value? = some x) : x.isFinite := by
  unfold NumberText.value? at h
  dsimp only at h
  split at h
  case isTrue hwhole =>
    cases h
    split
    · rw [Binary64.isFinite_neg]
      exact Binary64.isFinite_ofNat hwhole.2
    · exact Binary64.isFinite_ofNat hwhole.2
  case isFalse =>
    unfold Binary64.Scaled.value? at h
    dsimp only at h
    split at h
    · cases h
      rfl
    · cases h

theorem yields_number : Yields number fun p => p.2.isFinite := by
  refine yields_after fun t => ?_
  split
  case h_1 x hx => exact yields_pure (isFinite_value? hx)
  case h_2 => exact yields_throw _

end Json.Reader

end RobotBlocks
