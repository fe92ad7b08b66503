import RobotBlocks.IoFault

/-! Finding what a path names: its parts are followed one by one from a directory. -/

namespace RobotBlocks.CommandLine

/-- What can stand under a name. A sink takes all that is written to it and holds nothing; a full
device takes nothing. -/
inductive Entry where
  | directory | file | sink | full
  deriving DecidableEq, Repr

/-- The names that lead to an entry from the root. -/
abbrev Location := List String

/-- All that can be found, by location. -/
abbrev Tree := Location → Option Entry

/-- What a path leads to: an entry, or a free name in a directory. -/
inductive Place where
  | found (location : Location) (entry : Entry)
  | free (location : Location)
  deriving DecidableEq, Repr

namespace Tree

/-- The most bytes of a name and of a path. -/
def maxName : Nat := 255

def maxPath : Nat := 4095

variable (tree : Tree)

/-- Looks up one part of a path in a directory. -/
def lookup (dir : Location) (name : String) : Except IoFault (Location × Option Entry) :=
  if name = "." then .ok (dir, some .directory)
  else if name = ".." then .ok (dir.dropLast, some .directory)
  else if maxName < name.utf8ByteSize then .error .nameTooLong
  else .ok (dir ++ [name], tree (dir ++ [name]))

/-- Follows parts that must all be directories. -/
def walk : Location → List String → Except IoFault Location
  | dir, [] => .ok dir
  | dir, name :: rest => match tree.lookup dir name with
    | .error fault => .error fault
    | .ok (_, none) => .error .notFound
    | .ok (next, some .directory) => walk next rest
    | .ok (_, some _) => .error .notDirectory

/-- The last part of a path, in the directory that the others lead to. A slash behind it asks for a
directory, and none is ever created. -/
def last (creating slash : Bool) (dir : Location) (name : String) : Except IoFault Place :=
  if creating && slash && name != "." && name != ".." then .error .isDirectory
  else match tree.lookup dir name with
    | .error fault => .error fault
    | .ok (location, none) => if creating then .ok (.free location) else .error .notFound
    | .ok (location, some entry) =>
      if slash && entry != .directory then .error .notDirectory else .ok (.found location entry)

/-- What a path leads to from a working directory. A free name counts only when one may be created.
-/
def locate (home : Location) (creating : Bool) (path : String) : Except IoFault Place := do
  if maxPath < path.utf8ByteSize then throw .nameTooLong
  let names := (path.splitOn "/").filter (· ≠ "")
  let dir ← tree.walk (if path.startsWith "/" then [] else home) names.dropLast
  match names.getLast? with
  | none => return .found dir .directory
  | some name => tree.last creating (path.endsWith "/") dir name

end Tree

end RobotBlocks.CommandLine
