import Wiring.Code.Basic
import Wiring.Code.Implementation
import Wiring.Path.Basic

/-!
# Placement of generated code

The implementation of a component goes into the directory `gen` beside its source, into a file of
the same name.  Components that share a source share a file, which imports everything once.

A run generates every component first and hands the files to an emitter one by one afterwards, so
a graph that cannot be generated leaves nothing behind.
-/

namespace Wiring

def outputPath (source : Path) : Except Error Path :=
  match source.fileName? with
  | none => .error (.internal (.noFileName source))
  | some name => .ok ((source.parent.join ⟨"gen"⟩).join ⟨name⟩)

def importSpecifier (directory source : Path) : Except Error String :=
  match source.fileStem? with
  | none => .error (.internal (.noFileStem source))
  | some stem =>
    match directory.relative source.parent with
    | "" => .ok ("./" ++ stem ++ ".js")
    | steps => .ok (steps ++ "/" ++ stem ++ ".js")

namespace Graph

open Code

def importOf (directory : Path) (name : String) (source : Path) : Except Error Import := do
  return ⟨name, ← importSpecifier directory source⟩

/-- The imports that a component needs: its own class and those of the modules it creates. -/
def imports (graph : Graph) (resolution : Resolution) (directory : Path) :
    Except Error (List Import) := do
  let component := graph.getComponent resolution.component
  let own ← importOf directory component.name component.source
  let others ← resolution.modules.mapM fun id ↦
    importOf directory (graph.getModule id).name (graph.getModule id).source
  return own :: others

def mergeImports (present more : List Import) : List Import :=
  more.foldl (fun present i ↦ if present.contains i then present else present ++ [i]) present

/-- Adds a class to the file of its path, or a new file when there is none. -/
def placeClass (path : Path) (imports : List Import) (c : Code.Class) : List File → List File
  | [] => [⟨path, imports, [c]⟩]
  | file :: files =>
    if file.path.same path then
      { file with
        imports := mergeImports file.imports imports
        classes := file.classes ++ [c] } :: files
    else file :: placeClass path imports c files

def place (graph : Graph) (files : List File) (resolution : Resolution) :
    Except Error (List File) := do
  let path ← outputPath (graph.getComponent resolution.component).source
  let imports ← graph.imports resolution path.parent
  return placeClass path imports (graph.implementation resolution) files

/-- The files for resolved components, in the order of their first components. -/
def filesOf (graph : Graph) (resolutions : List Resolution) : Except Error (List File) :=
  resolutions.foldlM graph.place []

/-- The files that implement every component, or the error of the first component without a
resolution.  Nothing is placed before all components are resolved. -/
def implementations (graph : Graph) : Except Error (List File) := do
  let resolutions ← graph.componentIds.mapM graph.resolution
  graph.filesOf resolutions

end Graph

structure Report where
  components : Nat
  files : List Path
  /-- Hidden methods in all classes. -/
  accessors : Nat
  deriving DecidableEq

/-- An action of a run.  What it did before a failure stays done. -/
abbrev Emission (m : Type → Type) := ExceptT Error m

abbrev Emitter (m : Type → Type) := Code.File → Emission m Unit

variable {m : Type → Type} [Monad m]

def emitAll (emit : Emitter m) : List Code.File → Emission m Unit
  | [] => return ()
  | file :: files => do
    emit file
    emitAll emit files

def accessorCount (files : List Code.File) : Nat :=
  (files.flatMap fun file ↦ file.classes.flatMap Code.Class.hiddenMethods).length

def Graph.generate (graph : Graph) (emit : Emitter m) : Emission m Report := do
  let files ← (graph.implementations : Except Error (List Code.File))
  emitAll emit files
  return ⟨graph.components.length, files.map Code.File.path, accessorCount files⟩

def generateFrom (source : Emission m Graph) (emit : Emitter m) : Emission m Report := do
  let graph ← source
  graph.generate emit

abbrev EmittedTexts := List (Path × String)

namespace EmittedTexts

def put (path : Path) (text : String) : EmittedTexts → EmittedTexts
  | [] => [(path, text)]
  | (other, old) :: rest =>
    if other.same path then (other, text) :: rest else (other, old) :: put path text rest

end EmittedTexts

def emitToMemory : Emitter (StateM EmittedTexts) := fun file ↦
  modify (EmittedTexts.put file.path file.text)

end Wiring
