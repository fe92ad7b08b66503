import RobotBlocks.Binary64.Decimal

/-! Command-line arguments: options, flags and positional arguments, taken one by one. The first
argument that does not fit, or a request for the version, ends the reading. -/

namespace RobotBlocks.CommandLine

/-- What an option is, or which values it takes. -/
inductive ArgumentKind where
  | flag | text | path | milliseconds | version | help
  deriving DecidableEq, Repr

structure OptionSpec where
  long : String
  short : Option Char
  kind : ArgumentKind
  deriving DecidableEq, Repr

/-- Why a command does not run. -/
inductive Stop where
  | usage | version | help
  deriving DecidableEq, Repr

structure Parsed where
  flags : List String
  values : List (String × String)
  positionals : List String
  deriving DecidableEq, Repr

/-- A decimal number below a limit, behind an optional plus sign. -/
def digitsBelow? (limit : Nat) (text : String) : Option Nat :=
  let digits := match text.toList with
    | '+' :: rest => rest
    | all => all
  let n := Binary64.ofDigits digits
  if digits ≠ [] ∧ digits.all Char.isDigit ∧ n < limit then some n else none

def milliseconds? (text : String) : Option Nat := digitsBelow? UInt64.size text

def ArgumentKind.accepts : ArgumentKind → String → Bool
  | path, value => value != ""
  | milliseconds, value => (milliseconds? value).isSome
  | _, _ => true

/-- Whether an argument is an option or a group of them. A lone dash is neither. -/
def looksLikeOption (arg : String) : Bool :=
  match arg.toList with
  | '-' :: _ :: _ => true
  | _ => false

namespace Parsed

def empty : Parsed := ⟨[], [], []⟩

def hasFlag (p : Parsed) (name : String) : Bool := p.flags.contains name

def value? (p : Parsed) (name : String) : Option String := p.values.lookup name

def milliseconds? (p : Parsed) (name : String) : Option Nat :=
  (p.value? name).bind CommandLine.milliseconds?

/-- Notes an option without a value. It must not come twice. -/
def addFlag (p : Parsed) (spec : OptionSpec) : Except Stop Parsed :=
  match spec.kind with
  | .version => .error .version
  | .help => .error .help
  | .flag =>
    if p.hasFlag spec.long then .error .usage else .ok { p with flags := spec.long :: p.flags }
  | _ => .error .usage

/-- Notes an option's value. The option must not come twice. -/
def addValue (p : Parsed) (spec : OptionSpec) (value : String) : Except Stop Parsed :=
  if (p.value? spec.long).isSome ∨ ¬spec.kind.accepts value then .error .usage
  else .ok { p with values := (spec.long, value) :: p.values }

/-- Notes a positional argument, which is a path. There may be `most` of them. -/
def addPositional (p : Parsed) (most : Nat) (arg : String) : Except Stop Parsed :=
  if p.positionals.length < most ∧ ArgumentKind.path.accepts arg then
    .ok { p with positionals := p.positionals ++ [arg] }
  else .error .usage

def addPositionals (p : Parsed) (most : Nat) (args : List String) : Except Stop Parsed :=
  args.foldlM (addPositional · most ·) p

end Parsed

def OptionSpec.takesValue (spec : OptionSpec) : Bool :=
  spec.kind = .text || spec.kind = .path || spec.kind = .milliseconds

/-- An option that still needs its value, with the value if it was attached. -/
abbrev Pending := OptionSpec × Option String

/-- Reads a group of one-letter options. The first that takes a value takes the rest of the group.
-/
def readShort (specs : List OptionSpec) : List Char → Parsed → Except Stop (Parsed × Option Pending)
  | [], p => .ok (p, none)
  | c :: rest, p => match specs.find? (·.short = some c) with
    | none => .error .usage
    | some spec =>
      if spec.takesValue then
        let attached := match rest with
          | [] => none
          | '=' :: value => some (String.ofList value)
          | value => some (String.ofList value)
        .ok (p, some (spec, attached))
      else do readShort specs rest (← p.addFlag spec)

/-- Reads a long option. A value may be attached behind an equals sign. -/
def readLong (specs : List OptionSpec) (text : List Char) (p : Parsed) :
    Except Stop (Parsed × Option Pending) :=
  let name := String.ofList (text.takeWhile (· ≠ '='))
  let attached := match text.dropWhile (· ≠ '=') with
    | [] => none
    | _ :: value => some (String.ofList value)
  match specs.find? (·.long = name) with
  | none => .error .usage
  | some spec =>
    if spec.takesValue then .ok (p, some (spec, attached))
    else if attached.isSome then .error .usage
    else do return (← p.addFlag spec, none)

/-- How positional arguments are taken: up to a number of them, or the first one names a command and
what follows it is left. -/
inductive Positionals where
  | atMost (count : Nat)
  | command
  deriving DecidableEq, Repr

/-- Reads arguments from left to right. -/
def readArguments (specs : List OptionSpec) (positionals : Positionals) :
    List String → Parsed → Except Stop (Parsed × List String)
  | [], p => .ok (p, [])
  | arg :: rest, p =>
    if arg = "--" then
      match positionals with
      | .atMost most => do return (← p.addPositionals most rest, [])
      | .command => .error .usage
    else if looksLikeOption arg then
      let read := match arg.toList with
        | '-' :: '-' :: name => readLong specs name p
        | _ :: group => readShort specs group p
        | [] => .error .usage
      match read with
      | .error stop => .error stop
      | .ok (p, none) => readArguments specs positionals rest p
      | .ok (p, some (spec, some value)) => do
        readArguments specs positionals rest (← p.addValue spec value)
      | .ok (p, some (spec, none)) => match rest with
        | [] => .error .usage
        | value :: rest =>
          if looksLikeOption value then .error .usage
          else do readArguments specs positionals rest (← p.addValue spec value)
    else
      match positionals with
      | .atMost most => do readArguments specs positionals rest (← p.addPositional most arg)
      | .command => .ok (p, arg :: rest)

end RobotBlocks.CommandLine
