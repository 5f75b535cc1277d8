import Wiring.Files.Tree
import Wiring.Host.Basic

/-!
# Machines

A host as a value: a file tree, the directory that relative paths start from, the environment, and
what has been printed.
-/

namespace Wiring

structure Machine where
  files : FileTree
  working : Location
  environment : Environment
  /-- What the names of today's log files end in. -/
  today : String
  printed : String

def Location.path (location : Location) : Path :=
  ⟨"/" ++ "/".intercalate location⟩

def FileEntry.kind : FileEntry → EntryKind
  | directory => .directory
  | file _ | log => .file

namespace Machine

def entryAt? (machine : Machine) (path : Path) : Option FileEntry :=
  machine.files.entryAt? machine.working path

def read? (machine : Machine) (path : Path) : Option String :=
  match machine.entryAt? path with
  | some (.file text) => some text
  | _ => none

/-- The machine without the files of a directory that start as told, but for so many last made. -/
def keepNewest (machine : Machine) (directory : Path) (start : String) (kept : Nat) : Machine :=
  match machine.files.locate? machine.working directory with
  | none => machine
  | some location =>
    let files := machine.files.filesStarting location start
    { machine with files := machine.files.remove (files.take (files.length - kept)) }

/-- Opens a file for messages, with its directory when that is missing. -/
def openLog? (machine : Machine) (directory : Path) (stem : String) : Option Machine := do
  let path := directory.join ⟨stem ++ "." ++ machine.today⟩
  match machine.files.openLog? machine.working path with
  | some files => some { machine with files }
  | none =>
    let (created, files) := machine.files.createDirectories machine.working path.parent
    if created then
      return { machine with files := ← files.openLog? machine.working path }
    else none

/-- Replaces the machine when there is a new one, and tells whether there is. -/
def replace (next : Option Machine) : StateM Machine Bool := fun machine ↦
  (next.isSome, next.getD machine)

end Machine

instance : Host (StateM Machine) where
  workingDirectory := do return (← get).working.path
  environment := do return (← get).environment
  kindAt? path := do return ((← get).entryAt? path).map FileEntry.kind
  read? path := do return (← get).read? path
  createDirectories path := modifyGet fun machine ↦
    let (created, files) := machine.files.createDirectories machine.working path
    (created, { machine with files })
  write path text := do
    let machine ← get
    Machine.replace do
      return { machine with files := ← machine.files.write? machine.working path text }
  keepNewest directory start kept := modify (·.keepNewest directory start kept)
  openLog directory stem := do
    let machine ← get
    Machine.replace (machine.openLog? directory stem)
  print text := modify fun machine ↦ { machine with printed := machine.printed ++ text }

end Wiring
