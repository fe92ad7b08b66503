import Mathlib
import RobotBlocks.NameMap

/-! Maps from names to values: their entries, what is found in them, and how they are built from
pairs. -/

namespace RobotBlocks.NameMap

variable {α : Type} {low : Option String}

theorem above_of_mem {m : NameMap α low} {e : String × α} (h : e ∈ m.entries) :
    Above low e.1 := by
  induction m with
  | nil => cases h
  | cons name above a rest ih =>
    rcases List.mem_cons.1 h with rfl | h
    · exact above
    · exact fun other hother => (above other hother).trans (ih h name rfl)

/-- The names are sorted, and no name is there twice. -/
theorem sorted_entries (m : NameMap α low) : (m.entries.map Prod.fst).Pairwise (· < ·) := by
  induction m with
  | nil => exact .nil
  | cons name above a rest ih =>
    refine List.pairwise_cons.2 ⟨fun other hother => ?_, ih⟩
    obtain ⟨e, he, rfl⟩ := List.mem_map.1 hother
    exact above_of_mem he name rfl

/-- A map is known by its entries. -/
theorem entries_injective : Function.Injective (entries : NameMap α low → List (String × α)) := by
  intro m m' h
  induction m with
  | nil =>
    cases m' with
    | nil => rfl
    | cons => cases h
  | cons name above a rest ih =>
    cases m' with
    | nil => cases h
    | cons name' above' a' rest' =>
      obtain ⟨hentry, hrest⟩ := List.cons.inj h
      obtain ⟨rfl, rfl⟩ := Prod.mk.inj hentry
      rw [ih hrest]

/-- What is found under a name is an entry of it. -/
theorem mem_of_lookup {m : NameMap α low} {name : String} {a : α} (h : m.lookup name = some a) :
    (name, a) ∈ m.entries := by
  induction m with
  | nil => cases h
  | cons other above b rest ih =>
    rw [lookup] at h
    split at h
    next heq =>
      cases h
      rw [heq]
      exact List.mem_cons_self
    next => exact List.mem_cons_of_mem _ (ih h)

theorem sizeOf_of_mem [SizeOf α] {m : NameMap α low} {e : String × α} (h : e ∈ m.entries) :
    sizeOf e.2 < sizeOf m := by
  induction m with
  | nil => cases h
  | cons name above a rest ih =>
    rcases List.mem_cons.1 h with rfl | h
    · simp
      omega
    · have hrest := ih h
      simp
      omega

theorem entries_insertAbove {m : NameMap α low} {name : String} (a : α) (habove : Above low name)
    (h : ∀ e ∈ m.entries, e.1 < name) :
    (insertAbove name a m habove).entries = m.entries ++ [(name, a)] := by
  induction m with
  | nil => rfl
  | cons other above b rest ih =>
    obtain ⟨hother, hrest⟩ := List.forall_mem_cons.1 h
    rw [insertAbove, dif_neg (String.lt_asymm hother), dif_pos hother, entries, entries,
      ih _ hrest]
    rfl

theorem ofPairs_eq (pairs : List (String × α)) :
    ofPairs pairs = pairs.foldl (fun m e => insert e.1 e.2 m) nil := rfl

theorem entries_foldl_insert {m : NameMap α none} {pairs : List (String × α)}
    (h : ((m.entries ++ pairs).map Prod.fst).Pairwise (· < ·)) :
    (pairs.foldl (fun m e => insert e.1 e.2 m) m).entries = m.entries ++ pairs := by
  induction pairs generalizing m with
  | nil => simp
  | cons e pairs ih =>
    have hlt : ∀ e' ∈ m.entries, e'.1 < e.1 := by
      intro e' he'
      rw [List.map_append, List.pairwise_append] at h
      exact h.2.2 _ (List.mem_map_of_mem he') _ (by simp)
    have hinsert : (insert e.1 e.2 m).entries = m.entries ++ [e] :=
      entries_insertAbove e.2 (above_none e.1) hlt
    rw [List.foldl_cons, ih (by simpa [hinsert] using h), hinsert]
    simp

/-- A map is the map of its entries. -/
theorem ofPairs_entries (m : NameMap α none) : ofPairs m.entries = m := by
  apply entries_injective
  rw [ofPairs_eq]
  exact entries_foldl_insert m.sorted_entries

theorem mem_insertAbove {m : NameMap α low} {name : String} {a : α} {h : Above low name}
    {e : String × α} (he : e ∈ (insertAbove name a m h).entries) :
    e = (name, a) ∨ e ∈ m.entries := by
  induction m with
  | nil => simpa [insertAbove, entries] using he
  | cons other above b rest ih =>
    rw [insertAbove] at he
    split at he
    next hlt => simpa [entries] using he
    next hlt =>
      split at he
      next hgt =>
        rcases List.mem_cons.1 he with rfl | he
        · simp [entries]
        · rcases ih he with rfl | he <;> simp [entries, *]
      next hgt =>
        -- neither name is below the other
        obtain rfl : name = other := le_antisymm (not_lt.1 hgt) (not_lt.1 hlt)
        rcases List.mem_cons.1 he with rfl | he <;> simp [entries, *]

theorem mem_foldl_insert {pairs : List (String × α)} {m : NameMap α none} {e : String × α}
    (he : e ∈ (pairs.foldl (fun m e => insert e.1 e.2 m) m).entries) :
    e ∈ m.entries ∨ e ∈ pairs := by
  induction pairs generalizing m with
  | nil => exact .inl he
  | cons pair pairs ih =>
    rcases ih he with he | he
    · rcases mem_insertAbove he with rfl | he
      · simp
      · exact .inl he
    · simp [he]

/-- The entries of the map of some pairs are among the pairs. -/
theorem mem_ofPairs {pairs : List (String × α)} {e : String × α}
    (he : e ∈ (ofPairs pairs).entries) : e ∈ pairs := by
  rw [ofPairs_eq] at he
  exact (mem_foldl_insert he).resolve_left (List.not_mem_nil)

theorem lookup_insertAbove {m : NameMap α low} (name : String) (a : α) (h : Above low name)
    (other : String) :
    (insertAbove name a m h).lookup other = if other = name then some a else m.lookup other := by
  induction m with
  | nil => rfl
  | cons head above b rest ih =>
    rw [insertAbove]
    split
    next => rfl
    next hlt =>
      split
      next hgt =>
        rw [lookup, lookup, ih]
        by_cases heq : other = head
        · rw [if_pos heq, if_pos heq, if_neg (heq ▸ hgt.ne)]
        · rw [if_neg heq, if_neg heq]
      next hgt =>
        obtain rfl : name = head := le_antisymm (not_lt.1 hgt) (not_lt.1 hlt)
        rw [lookup, lookup]
        split <;> rfl

/-- Insertion changes what is found under one name. -/
theorem lookup_insert (m : NameMap α none) (name : String) (a : α) (other : String) :
    (insert name a m).lookup other = if other = name then some a else m.lookup other :=
  lookup_insertAbove name a (above_none name) other

end RobotBlocks.NameMap
