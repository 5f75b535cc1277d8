import Std.Time.Format
import Wiring.Command.Run

/-!
# The command line

The program on a real machine.  Errors go to standard error, so that printed code stays apart.
-/

namespace Wiring

def attempt {α : Type} (action : IO α) : IO (Option α) := do
  try return some (← action) catch _ => return none

def succeeds (action : IO Unit) : IO Bool := do
  return (← attempt action).isSome

def readEnvironment : IO Environment := do
  let some content ← attempt (IO.FS.readFile "/proc/self/environ") | return []
  return ((content.split (· == '\x00')).toList.map fun entry ↦
    match entry.toString.toList.span (· != '=') with
    | (name, value) => (String.ofList name, String.ofList (value.drop 1)))

/-- Today's date in universal time, such as 2024-02-29. -/
def today : IO String := do
  let day := (← Std.Time.Timestamp.now).toDaysSinceUnixEpoch
  return (Std.Time.PlainDate.ofEpochDay day).toLeanDateString

/-- Opens a file at its end and leaves it as it is. -/
def touch (path : Path) : IO Unit := do
  let _ ← IO.FS.Handle.mk path.text .append

/-- The files in a directory whose names start as told, the one changed first in front. -/
def filesStarting (directory : Path) (start : String) : IO (List IO.FS.DirEntry) := do
  let place ← IO.FS.realPath directory.text
  let mut files := #[]
  for entry in ← place.readDir do
    if start.isPrefixOf entry.fileName then
      let data ← entry.path.metadata
      if data.type == .file then
        files := files.push (entry, data.modified)
  return (files.toList.mergeSort fun a b ↦ (compare a.2 b.2).isLE).map Prod.fst

instance : Host IO where
  workingDirectory := do return ⟨(← IO.currentDir).toString⟩
  environment := readEnvironment
  kindAt? path := do
    let some place ← attempt (IO.FS.realPath path.text) | return none
    return some (if ← place.isDir then .directory else .file)
  read? path := attempt (IO.FS.readFile path.text)
  createDirectories path := succeeds (IO.FS.createDirAll path.text)
  write path content := succeeds (IO.FS.writeFile path.text content)
  keepNewest directory start kept := do
    let some files ← attempt (filesStarting directory start) | return ()
    for file in files.take (files.length - kept) do
      let _ ← attempt (IO.FS.removeFile file.path)
  openLog directory stem := do
    let path := directory.join ⟨stem ++ "." ++ (← today)⟩
    if ← succeeds (touch path) then return true
    succeeds do
      IO.FS.createDirAll directory.text
      touch path
  print text := IO.print text

end Wiring

open Wiring

def main (arguments : List String) : IO UInt32 := do
  let ending ← invoke arguments
  match ending with
  | .success => pure ()
  | .failure error => IO.eprintln ("error: " ++ error.message)
  | .misuse => IO.eprint helpText
  return ending.exitCode.toUInt32
