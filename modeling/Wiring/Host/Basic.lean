import Wiring.Path.Basic

/-!
# Hosts

What a run asks of the machine that it runs on.  The rules of a run are the same on every host: on
a real machine, and on a value that stands for one.
-/

namespace Wiring

inductive EntryKind where
  | file
  | directory
  deriving DecidableEq

abbrev Environment := List (String × String)

class Host (m : Type → Type) where
  workingDirectory : m Path
  environment : m Environment
  /-- What is at a path, none when nothing is. -/
  kindAt? : Path → m (Option EntryKind)
  /-- The text of the file at a path, none when it cannot be read. -/
  read? : Path → m (Option String)
  /-- Creates a directory and those above it that are missing, and tells whether it is there. -/
  createDirectories : Path → m Bool
  /-- Writes a file, and tells whether it could. -/
  write : Path → String → m Bool
  /-- Deletes the oldest files in a directory whose names start as told, down to so many. -/
  keepNewest : Path → String → Nat → m Unit
  /-- Opens the log file of the day whose name starts as told, in a directory that is created when
  missing, and tells whether it could. -/
  openLog : Path → String → m Bool
  print : String → m Unit

namespace Host

variable {m : Type → Type} [Monad m] [Host m]

def pathExists (path : Path) : m Bool := do
  return (← kindAt? path).isSome

def isFile (path : Path) : m Bool := do
  return (← kindAt? path) = some .file

/-- The first of some paths that passes a test; the ones behind it are not tested. -/
def findPath? (test : Path → m Bool) : List Path → m (Option Path)
  | [] => return none
  | path :: paths => do
    if ← test path then return some path
    findPath? test paths

end Host

end Wiring
