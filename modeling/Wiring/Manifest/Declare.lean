import Wiring.Graph.Basic
import Wiring.Host.Basic
import Wiring.Manifest.Basic
import Wiring.TypeExpr.Scope

/-!
# The graph of a manifest

Every module is declared before the first include is followed, so modules may be listed in any
order.  The first fault in the order of the declarations is the error.

A manifest without a given path is searched for in a directory and in those above it.  The one
that is nearest wins, and in one directory the order of the formats decides.
-/

namespace Wiring

abbrev Declaring := StateT Graph (Except Error)

namespace Manifest

def resolveType (scope : Scope) (expression : String) : Declaring TypeId := fun graph ↦
  match (scope.resolve expression).run graph.types with
  | (.ok id, types) => .ok (id, { graph with types := types })
  | (.error error, _) => .error error

def resolveTypes (scope : Scope) : List String → Declaring (List TypeId)
  | [] => return []
  | expression :: expressions => do
    let first ← resolveType scope expression
    let others ← resolveTypes scope expressions
    return first :: others

/-- The names that the expressions of a manifest may use. -/
def scope (manifest : Manifest) : Except Error Scope :=
  let enumerated := manifest.enums.foldl (fun scope entry ↦ scope.addEnumeration entry.name) .empty
  manifest.aliases.foldlM (fun scope entry ↦ do
    scope.addAlias entry.name (← TypeExpr.parse entry.type)) enumerated

/-- The name of a field and whether a question mark at its end makes it optional. -/
def splitOptional (key : String) : String × Bool :=
  match key.toList.reverse with
  | '?' :: name => (String.ofList name.reverse, true)
  | _ => (key, false)

def fieldExpr (key expression : String) : Except Error FieldExpr := do
  let (name, optional) := splitOptional key
  return ⟨name, optional, ← TypeExpr.parse expression⟩

/-- Records the fields of a class; all their expressions are read before the first is lowered. -/
def defineClass (scope : Scope) (entry : ClassEntry) : Declaring Unit := fun graph ↦ do
  let fields ← entry.fields.mapM fun (key, expression) ↦ fieldExpr key expression
  match (scope.lowerFields fields).run graph.types with
  | (.ok fields, types) => .ok ((), { graph with types := types.defineClass entry.name fields })
  | (.error error, _) => .error error

/-- Defines classes in order; no name may come twice. -/
def defineClasses (scope : Scope) (defined : List String) : List ClassEntry → Declaring Unit
  | [] => return ()
  | entry :: entries => do
    if entry.name ∈ defined then throw (.manifest (.duplicateClass entry.name))
    defineClass scope entry
    defineClasses scope (entry.name :: defined) entries

/-- The source for declarations when neither they nor the manifest name one. -/
def defaultSource : Path := ⟨"index.ts"⟩

def sourceOf (manifest : Manifest) (base : Path) (declared : Option Path) : Path :=
  base.join (declared.getD (manifest.source.getD defaultSource))

def declareModule (manifest : Manifest) (base : Path) (entry : ModuleEntry) :
    Declaring ModuleId := fun graph ↦
  graph.addModule entry.name (manifest.sourceOf base entry.source)

def lookupModule (name referrer : String) : Declaring ModuleId := fun graph ↦
  match graph.findModule? name with
  | some id => .ok (id, graph)
  | none => .error (.manifest (.unknownModule name referrer))

def declareProvider (scope : Scope) (owner : ModuleId) (entry : ProviderEntry) :
    Declaring Unit := do
  let parameters ← resolveTypes scope entry.parameters
  let returns ← resolveType scope entry.returns
  modify fun graph ↦ (graph.addProvider owner entry.name parameters returns entry.deferred).2

def fillModule (scope : Scope) (id : ModuleId) (entry : ModuleEntry) : Declaring Unit := do
  entry.includes.forM fun name ↦ do
    let included ← lookupModule name entry.name
    modify fun graph ↦ graph.addInclude id included
  entry.requires.forM fun expression ↦ do
    let type ← resolveType scope expression
    modify fun graph ↦ graph.addRequired id type
  entry.providers.forM (declareProvider scope id)

def declareComponent (manifest : Manifest) (scope : Scope) (base : Path)
    (entry : ComponentEntry) : Declaring Unit := do
  let root ← lookupModule entry.root entry.name
  let id ← fun graph ↦ graph.addComponent entry.name (manifest.sourceOf base entry.source) root
  entry.resolvers.forM fun resolver ↦ do
    let type ← resolveType scope resolver.returns
    modify fun graph ↦ graph.addResolver id resolver.name type

def declare (manifest : Manifest) (base : Path) : Declaring Unit := do
  let scope ← (manifest.scope : Except Error Scope)
  defineClasses scope [] manifest.classes
  let ids ← manifest.modules.mapM (manifest.declareModule base)
  (ids.zip manifest.modules).forM fun (id, entry) ↦ fillModule scope id entry
  manifest.components.forM (manifest.declareComponent scope base)

/-- The graph of a manifest whose relative sources are below the base directory. -/
def graph (manifest : Manifest) (base : Path) : Except Error Graph := do
  let (_, graph) ← (manifest.declare base).run .empty
  return graph

def fileNames : List String :=
  ["toml", "json", "yaml", "yml"].map ("splice-manifest." ++ ·)

def candidatePaths (directory : Path) : List Path :=
  directory.ancestors.flatMap fun ancestor ↦ fileNames.map fun name ↦ ancestor.join ⟨name⟩

variable {m : Type → Type} [Monad m] [Host m]

def find? (directory : Path) : m (Option Path) :=
  Host.findPath? Host.isFile (candidatePaths directory)

/-- Reads the manifest at a path; a path of no format is refused before it is opened. -/
def load (path : Path) : ExceptT Error m Manifest := do
  let format ← (DocumentFormat.ofPath path : Except Error DocumentFormat)
  match ← (Host.read? path : m _) with
  | none => throw (.io (.readManifest path))
  | some text =>
    match read? format text with
    | some manifest => return manifest
    | none => throw (.manifest (.invalidFile path format))

/-- The graph of the manifest at a path, whose sources are relative to its directory. -/
def loadGraph (path : Path) : ExceptT Error m Graph := do
  let manifest ← load path
  (manifest.graph path.parent : Except Error Graph)

end Manifest

end Wiring
