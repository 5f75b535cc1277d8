import Wiring.Path.Basic

/-!
# File trees

Files and directories as a value.  A location is the list of the names that lead to an entry; the
root has no name and is always a directory.  Operations that add an entry add it below a directory
only, so the parent of every entry is one.
-/

namespace Wiring

abbrev Location := List String

inductive FileEntry where
  | directory
  | file (text : String)
  /-- A file that grows by messages and is never read. -/
  | log
  deriving DecidableEq

structure FileTree where
  entries : List (Location × FileEntry)

namespace FileTree

def empty : FileTree := ⟨[]⟩

def find? (tree : FileTree) (location : Location) : Option FileEntry :=
  if location = [] then some .directory else tree.entries.lookup location

def isDirectory (tree : FileTree) (location : Location) : Bool :=
  tree.find? location = some .directory

def putEntry (location : Location) (entry : FileEntry) :
    List (Location × FileEntry) → List (Location × FileEntry)
  | [] => [(location, entry)]
  | (other, old) :: rest =>
    if other = location then (location, entry) :: rest
    else (other, old) :: putEntry location entry rest

def put (tree : FileTree) (location : Location) (entry : FileEntry) : FileTree :=
  ⟨putEntry location entry tree.entries⟩

theorem lookup_putEntry (location other : Location) (entry : FileEntry)
    (entries : List (Location × FileEntry)) :
    (putEntry location entry entries).lookup other =
      if other = location then some entry else entries.lookup other := by
  induction entries with
  | nil => grind [putEntry]
  | cons head rest ih =>
    obtain ⟨place, old⟩ := head
    grind [putEntry]

theorem find?_put (tree : FileTree) {location : Location} (nonempty : location ≠ [])
    (other : Location) (entry : FileEntry) :
    (tree.put location entry).find? other =
      if other = location then some entry else tree.find? other := by
  by_cases h : other = []
  · subst h
    simp [find?, Ne.symm nonempty]
  · simp [find?, put, h, lookup_putEntry]

/-- The files in a directory whose names start as told, in the order in which they were made. -/
def filesStarting (tree : FileTree) (directory : Location) (start : String) : List Location :=
  (tree.entries.filter fun (location, entry) ↦
    entry ≠ .directory ∧ location.dropLast = directory ∧
      location.getLast?.any start.isPrefixOf).map Prod.fst

def remove (tree : FileTree) (locations : List Location) : FileTree :=
  ⟨tree.entries.filter fun entry ↦ !locations.contains entry.1⟩

/-- Whether a file can have a name: it holds no null character and at most 255 bytes. -/
def isName (name : String) : Bool :=
  name.toList.all (· != '\x00') && name.utf8ByteSize ≤ 255

/-- Follows the pieces of a path.  Whatever has a piece behind it, be it a trivial one, must be a
directory; the last piece may name nothing. -/
def walk (tree : FileTree) (here : Location) : List (List Char) → Option Location
  | [] => some here
  | piece :: pieces =>
    if !tree.isDirectory here then none
    else if Path.isTrivial piece then walk tree here pieces
    else if piece = ['.', '.'] then walk tree here.dropLast pieces
    else
      let name := String.ofList piece
      if isName name then walk tree (here ++ [name]) pieces else none

def pathLimit : Nat := 4095

/-- Where a path starts when it is seen from a directory, and the pieces it goes through; the
empty path and one that is too long lead nowhere. -/
def route? (working : Location) (path : Path) : Option (Location × List (List Char)) :=
  if pathLimit < path.text.utf8ByteSize then none
  else
    match path.text.toList with
    | [] => none
    | '/' :: rest => some ([], Path.splitSlash rest)
    | cs => some (working, Path.splitSlash cs)

/-- The place that a path denotes, whether or not it holds an entry. -/
def locate? (tree : FileTree) (working : Location) (path : Path) : Option Location := do
  let (start, pieces) ← route? working path
  tree.walk start pieces

def entryAt? (tree : FileTree) (working : Location) (path : Path) : Option FileEntry := do
  tree.find? (← tree.locate? working path)

/-- Creates the directories along a path, and tells whether all of them could be. -/
def createAlong (tree : FileTree) (here : Location) : List (List Char) → Bool × FileTree
  | [] => (true, tree)
  | piece :: pieces =>
    if Path.isTrivial piece then createAlong tree here pieces
    else if piece = ['.', '.'] then createAlong tree here.dropLast pieces
    else
      let name := String.ofList piece
      let next := here ++ [name]
      match tree.find? next with
      | some .directory => createAlong tree next pieces
      | none =>
        if isName name then createAlong (tree.put next .directory) next pieces else (false, tree)
      | _ => (false, tree)

def createDirectories (tree : FileTree) (working : Location) (path : Path) : Bool × FileTree :=
  match route? working path with
  | some (start, pieces) => tree.createAlong start pieces
  | none => (path.text.isEmpty, tree)

/-- The tree with a file at a path, unless the path leads nowhere or to a directory. -/
def write? (tree : FileTree) (working : Location) (path : Path) (text : String) :
    Option FileTree := do
  let location ← tree.locate? working path
  if tree.isDirectory location then none else some (tree.put location (.file text))

/-- The tree with a log file at a path; an entry that is no directory stays as it is. -/
def openLog? (tree : FileTree) (working : Location) (path : Path) : Option FileTree := do
  let location ← tree.locate? working path
  match tree.find? location with
  | none => some (tree.put location .log)
  | some .directory => none
  | some _ => some tree

end FileTree

end Wiring
