/-! Maps from names to values. The type makes sure that the entries of a map stand in the order of
their names, so maps with the same entries are equal. -/

namespace RobotBlocks

/-- Above another name, if there is one. -/
def Above (low : Option String) (name : String) : Prop := ∀ other ∈ low, other < name

/-- A map whose names are all above `low`. -/
inductive NameMap (α : Type) : Option String → Type where
  | nil {low : Option String} : NameMap α low
  | cons {low : Option String} (name : String) (above : Above low name) (a : α)
      (rest : NameMap α (some name)) : NameMap α low

namespace NameMap

variable {α β : Type} {low : Option String}

theorem above_none (name : String) : Above none name := nofun

theorem above_some {low name : String} (h : low < name) : Above (some low) name := by
  rintro _ ⟨⟩
  exact h

def entries {low : Option String} : NameMap α low → List (String × α)
  | nil => []
  | cons name _ a rest => (name, a) :: rest.entries

/-- What a function makes of the entries, in order. -/
def map (m : NameMap α low) (f : String × α → β) : List β := m.entries.map f

def lookup {low : Option String} (name : String) : NameMap α low → Option α
  | nil => none
  | cons other _ a rest => if name = other then some a else rest.lookup name

def insertAbove (name : String) (a : α) :
    {low : Option String} → NameMap α low → Above low name → NameMap α low
  | _, nil, h => cons name h a nil
  | _, cons other above b rest, h =>
    if hlt : name < other then cons name h a (cons other (above_some hlt) b rest)
    else if hgt : other < name then cons other above b (insertAbove name a rest (above_some hgt))
    else cons other above a rest

/-- Puts a value under a name, in place of an earlier one. -/
def insert (name : String) (a : α) (m : NameMap α none) : NameMap α none :=
  insertAbove name a m (above_none name)

/-- The map of some pairs. Of pairs with one name the last counts. -/
def ofPairs (pairs : List (String × α)) : NameMap α none :=
  pairs.foldl (fun m (name, a) => insert name a m) nil

end NameMap

end RobotBlocks
