import RobotBlocks.CommandLine.Host
import RobotBlocks.CommandLine.Path
import RobotBlocks.NameMap

/-! A system in memory under the commands: a directory of files, some devices, and what was printed.
-/

namespace RobotBlocks.CommandLine

/-- Where an opened port leads. -/
inductive PortTarget where
  | file (location : Location)
  | socket
  | sink
  | full
  deriving DecidableEq, Repr

/-- An opened port and the bytes it has taken. -/
structure Port where
  target : PortTarget
  written : Array UInt8
  deriving DecidableEq, Repr

namespace Port

/-- A full device takes nothing; any other port takes all. -/
def write (p : Port) (bytes : List UInt8) : Except IoFault Nat × Port :=
  match p.target with
  | .full => (.error .noSpace, p)
  | _ => (.ok bytes.length, { p with written := p.written ++ bytes })

def transport : Transport Port := ⟨write, fun p => (.ok (), p)⟩

end Port

structure World where
  files : NameMap (List UInt8) none
  port : Option Port
  printed : String
  errors : String

namespace World

def ofFiles (files : List (String × List UInt8)) : World := ⟨NameMap.ofPairs files, none, "", ""⟩

/-- The working directory. Its own name is unknown, so no path can lead into it from above. -/
def home : Location := ["tmp", ""]

/-- The directories at the root of any system. -/
def systemDirectories : List String :=
  ["bin", "boot", "dev", "etc", "home", "lib", "media", "mnt", "opt", "proc", "root", "run", "sbin",
    "srv", "sys", "tmp", "usr", "var"]

/-- The devices that take all that is written to them. -/
def sinks : List String := ["null", "zero", "random", "urandom", "stdin"]

/-- The name of a location inside the working directory. -/
def nameAt? (location : Location) : Option String :=
  if location.take 2 = home then some ("/".intercalate (location.drop 2)) else none

/-- What stands in the working directory under a name. -/
def entryOf (w : World) (name : String) : Option Entry :=
  if name = "" then some .directory
  else if (w.files.lookup name).isSome then some .file
  else if w.files.entries.any fun (other, _) => other.startsWith (name ++ "/") then some .directory
  else none

/-- The tree around the working directory: besides its files only the root's directories and a few
devices are known. -/
def tree (w : World) : Tree
  | [] => some .directory
  | [name] => if name ∈ systemDirectories then some .directory else none
  | ["dev", name] =>
    if name ∈ sinks then some .sink else if name = "full" then some .full else none
  | location => (nameAt? location).bind w.entryOf

def locate (w : World) (creating : Bool) (path : String) : Except IoFault Place :=
  w.tree.locate home creating path

def content (w : World) (location : Location) : List UInt8 :=
  ((nameAt? location).bind fun name => w.files.lookup name).getD []

def read (w : World) (path : String) : Except IoFault (List UInt8) :=
  match w.locate false path with
  | .error fault => .error fault
  | .ok (.found _ .directory) => .error .isDirectory
  | .ok (.found location .file) => .ok (w.content location)
  | .ok _ => .ok []

/-- Puts a file at a location. Only those in the working directory are kept. -/
def put (w : World) (location : Location) (bytes : List UInt8) : World :=
  match nameAt? location with
  | some name => { w with files := NameMap.insert name bytes w.files }
  | none => w

def create (w : World) (path : String) (bytes : List UInt8) : Except IoFault Unit × World :=
  match w.locate true path with
  | .error fault => (.error fault, w)
  | .ok (.found _ .directory) => (.error .isDirectory, w)
  | .ok (.found _ .full) => (if bytes.isEmpty then .ok () else .error .noSpace, w)
  | .ok (.found _ .sink) => (.ok (), w)
  | .ok (.found location .file) | .ok (.free location) => (.ok (), w.put location bytes)

def openAs (w : World) (target : PortTarget) : Except IoFault Unit × World :=
  (.ok (), { w with port := some ⟨target, #[]⟩ })

/-- Opens a port for writing. It must exist. -/
def openPort (w : World) (path : String) : Except IoFault Unit × World :=
  match w.locate false path with
  | .error fault => (.error fault, w)
  | .ok (.found _ .directory) => (.error .isDirectory, w)
  | .ok (.found location .file) => w.openAs (.file location)
  | .ok (.found _ .full) => w.openAs .full
  | .ok _ => w.openAs .sink

/-- Keeps what a port has taken. Bytes go over the start of its file; the rest of the file stays. -/
def keep (w : World) (p : Port) : World :=
  let w := { w with port := some p }
  match p.target with
  | .file location =>
    w.put location (p.written.toList ++ (w.content location).drop p.written.size)
  | _ => w

def portOf (w : World) : Port := w.port.getD ⟨.sink, #[]⟩

def upload (w : World) (pacing : Pacing) (program : List UInt8) :
    (Except LinkError UploadReport × UploadState) × World :=
  let out := Port.transport.upload pacing program ⟨w.portOf, .idle⟩
  ((out.result, out.uploader.state), w.keep out.uploader.transport)

def command (w : World) (c : Command) : Except LinkError Unit × World :=
  let out := Port.transport.command c ⟨w.portOf, .idle⟩
  (out.result, w.keep out.uploader.transport)

/-- The files that are new or hold other bytes than in an earlier world. -/
def changes (before after : World) : List (String × List UInt8) :=
  after.files.entries.filter fun (name, bytes) => before.files.lookup name ≠ some bytes

/-- What went through a connection, if there was one. -/
def received? (w : World) : Option (List UInt8) :=
  w.port.bind fun p => if p.target = .socket then some p.written.toList else none

/-- Whether a host is written as one to four numbers with points between them. The last one fills
what the others leave of four bytes. -/
def isDotted (host : String) : Bool :=
  match (host.splitOn ".").reverse with
  | [] => false
  | last :: rest =>
    rest.length < 4 && rest.all (fun part => (digitsBelow? 256 part).isSome && part.front != '+')
      && (digitsBelow? (Nat.pow 256 (4 - rest.length)) last).isSome && last.front != '+'

/-- Whether a host is known without asking for its name. -/
def isKnown (host : String) : Bool :=
  host = "localhost" || isDotted host || (host.toList.contains ':'
    && host.toList.all fun c => (Text.hexValue? c).isSome || [':', '.', '[', ']'].contains c)

/-- Why an address that nobody listens at cannot be reached. It is a host and a port with a colon
between them; there is no network and nobody to ask for a name. -/
def connectFault (address : String) : IoFault :=
  match (address.splitOn ":").reverse with
  | port :: host :: more =>
    if (digitsBelow? UInt16.size port).isNone then .badPort
    else if isKnown (":".intercalate (host :: more).reverse) then .unreachable
    else .unresolved
  | _ => .badAddress

def connect (listening : String → Bool) (w : World) (address : String) :
    Except IoFault Unit × World :=
  if listening address then w.openAs .socket else (.error (connectFault address), w)

/-- The world as a host; `listening` says which addresses answer. -/
def host (listening : String → Bool) : Host (StateM World) where
  read path := do return (← get).read path
  create path bytes := modifyGet (·.create path bytes)
  openPort path := modifyGet (·.openPort path)
  connect address := modifyGet (·.connect listening address)
  upload pacing program := modifyGet (·.upload pacing program)
  command c := modifyGet (·.command c)
  print text := modify fun w => { w with printed := w.printed ++ text }
  printError text := modify fun w => { w with errors := w.errors ++ text }

end World

end RobotBlocks.CommandLine
