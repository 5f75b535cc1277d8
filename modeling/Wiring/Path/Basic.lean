/-!
# Lexical paths

A path keeps the text it was written with; joining and taking parents preserve repeated slashes
and inner dots.  Two paths are the same when their segments are: empty pieces, and dots anywhere
but at the front, make no segment.

A path is normalised by its text alone: dots disappear and a step upwards removes the segment
before it, unless there is none or it is a step upwards itself.
-/

namespace Wiring

structure Path where
  text : String
  deriving DecidableEq

inductive Segment where
  | root
  /-- A dot in front of a relative path. -/
  | here
  | up
  | name (text : String)
  deriving DecidableEq

def Segment.text : Segment → String
  | root => "/"
  | here => "."
  | up => ".."
  | name text => text

def Segment.ofPiece (piece : List Char) : Segment :=
  if piece = ['.', '.'] then .up else .name (String.ofList piece)

namespace Path

def splitSlash : List Char → List (List Char)
  | [] => [[]]
  | '/' :: rest => [] :: splitSlash rest
  | c :: rest =>
    match splitSlash rest with
    | [] => [[c]]
    | piece :: pieces => (c :: piece) :: pieces

def joinSlash : List (List Char) → List Char
  | [] => []
  | [piece] => piece
  | piece :: pieces => piece ++ '/' :: joinSlash pieces

def isTrivial (piece : List Char) : Bool :=
  piece = [] || piece = ['.']

/-- A path as the segment in front of its body, if any, with the text of the one and the pieces
of the other. -/
structure Parts where
  head : Option Segment
  pieces : List (List Char)

def Parts.headText (parts : Parts) : List Char :=
  match parts.head with
  | some segment => segment.text.toList
  | none => []

def Parts.toPath (parts : Parts) : Path :=
  ⟨String.ofList (parts.headText ++ joinSlash parts.pieces)⟩

def parts (path : Path) : Parts :=
  match path.text.toList with
  | '/' :: rest => ⟨some .root, splitSlash rest⟩
  | ['.'] => ⟨some .here, [[]]⟩
  | '.' :: '/' :: rest => ⟨some .here, [] :: splitSlash rest⟩
  | body => ⟨none, splitSlash body⟩

/-- The pieces without the trivial ones at their end, last piece first. -/
def reversedPieces (pieces : List (List Char)) : List (List Char) :=
  pieces.reverse.dropWhile isTrivial

def segments (path : Path) : List Segment :=
  let parts := path.parts
  parts.head.toList ++ (parts.pieces.filter (!isTrivial ·)).map Segment.ofPiece

def same (a b : Path) : Bool :=
  a.segments = b.segments

theorem same_self (a : Path) : a.same a = true := by
  simp [same]

theorem same_comm (a b : Path) : a.same b = b.same a := by
  simp [same, eq_comm]

def isAbsolute (path : Path) : Bool :=
  path.text.toList.head? = some '/'

/-- An absolute path replaces the base; a relative one follows it after a slash. -/
def join (base path : Path) : Path :=
  if path.isAbsolute then path
  else if base.text.toList = [] ∨ base.text.toList.getLast? = some '/' then
    ⟨base.text ++ path.text⟩
  else ⟨base.text ++ "/" ++ path.text⟩

/-- The path without its last segment; a root and the empty path have no parent. -/
def parent? (path : Path) : Option Path :=
  let parts := path.parts
  match reversedPieces parts.pieces with
  | _ :: before => some (Parts.toPath ⟨parts.head, (before.dropWhile isTrivial).reverse⟩)
  | [] => if parts.head = some .here then some ⟨""⟩ else none

def parent (path : Path) : Path :=
  path.parent?.getD ⟨""⟩

/-- The last segment, when it is a name. -/
def fileName? (path : Path) : Option String :=
  match reversedPieces path.parts.pieces with
  | last :: _ => if last = ['.', '.'] then none else some (String.ofList last)
  | [] => none

/-- A file name before and after its last dot; a dot in front separates nothing. -/
def splitExtension (name : List Char) : List Char × Option (List Char) :=
  match name.reverse.span (· != '.') with
  | (_, []) => (name, none)
  | (_, ['.']) => (name, none)
  | (after, _ :: before) => (before.reverse, some after.reverse)

def fileStem? (path : Path) : Option String :=
  path.fileName?.map fun name ↦ String.ofList (splitExtension name.toList).1

def extension? (path : Path) : Option String :=
  path.fileName?.bind fun name ↦ (splitExtension name.toList).2.map String.ofList

/-- The path, its parent, the parent's parent and so on, at most as many as there are pieces. -/
def ancestorsWithin : Nat → Path → List Path
  | 0, path => [path]
  | rounds + 1, path =>
    match path.parent? with
    | none => [path]
    | some parent => path :: ancestorsWithin rounds parent

def ancestors (path : Path) : List Path :=
  ancestorsWithin (path.parts.pieces.length + 1) path

/-- Adds a segment to a normalised path whose last segment comes first. -/
def pushSegment (before : List String) : Segment → List String
  | .here => before
  | .up =>
    match before with
    | [] => [".."]
    | last :: earlier => if last = ".." then ".." :: last :: earlier else earlier
  | segment => segment.text :: before

def normalized (path : Path) : List String :=
  (path.segments.foldl pushSegment []).reverse

/-- Both lists without the front that they have in common. -/
def dropCommon : List String → List String → List String × List String
  | a :: as, b :: bs => if a = b then dropCommon as bs else (a :: as, b :: bs)
  | as, bs => (as, bs)

/-- The steps from one directory to another: up out of the first, then down into the second. -/
def relative (source target : Path) : String :=
  let (leave, enter) := dropCommon source.normalized target.normalized
  "/".intercalate (leave.map (fun _ ↦ "..") ++ enter)

end Path

end Wiring
