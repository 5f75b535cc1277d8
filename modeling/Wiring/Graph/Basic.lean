import Wiring.Error
import Wiring.Path.Basic
import Wiring.Types.Table

/-!
# Declaration graphs

Modules own providers, make other modules visible by including them and may require types from
whatever module they are included by.  Components ask a root module for the types that their
resolvers return.  Every declaration is known by its position among those of its kind.

Declarations are added one at a time.  Names of modules are unique, and so are names of
components; an addition that would repeat one fails and changes nothing.
-/

namespace Wiring

abbrev ModuleId := Nat

abbrev ProviderId := Nat

abbrev ComponentId := Nat

structure Provider where
  name : String
  owner : ModuleId
  parameters : List TypeId
  returns : TypeId
  deferred : Bool
  deriving DecidableEq

structure ModuleDecl where
  name : String
  source : Path
  providers : List ProviderId
  includes : List ModuleId
  /-- Types expected from the including module, in ascending order. -/
  requires : List TypeId
  deriving DecidableEq

structure Resolver where
  name : String
  returns : TypeId
  deriving DecidableEq

structure Component where
  name : String
  source : Path
  root : ModuleId
  resolvers : List Resolver
  deriving DecidableEq

structure Graph where
  types : TypeTable
  modules : List ModuleDecl
  providers : List Provider
  components : List Component
  deriving DecidableEq

namespace Graph

def empty : Graph := ⟨.empty, [], [], []⟩

/-- The module behind an identity; an identity of none reads as a module without content. -/
def getModule (graph : Graph) (id : ModuleId) : ModuleDecl :=
  graph.modules.getD id ⟨"", ⟨""⟩, [], [], []⟩

def getProvider (graph : Graph) (id : ProviderId) : Provider :=
  graph.providers.getD id ⟨"", 0, [], 0, false⟩

def getComponent (graph : Graph) (id : ComponentId) : Component :=
  graph.components.getD id ⟨"", ⟨""⟩, 0, []⟩

def findModule? (graph : Graph) (name : String) : Option ModuleId :=
  graph.modules.findIdx? (·.name == name)

def findComponent? (graph : Graph) (name : String) : Option ComponentId :=
  graph.components.findIdx? (·.name == name)

/-- The components in the order of their declaration. -/
def componentIds (graph : Graph) : List ComponentId :=
  List.range graph.components.length

def addModule (graph : Graph) (name : String) (source : Path) :
    Except Error (ModuleId × Graph) :=
  if (graph.findModule? name).isSome then .error (.manifest (.duplicateModule name))
  else .ok (graph.modules.length,
    { graph with modules := graph.modules ++ [⟨name, source, [], [], []⟩] })

/-- The type that a provider delivers: a deferred provider delivers a promise, and one that
returns a promise anyway is not wrapped again. -/
def delivered (types : TypeTable) (returns : TypeId) (deferred : Bool) : TypeId × TypeTable :=
  if deferred && !types.isPromise returns then types.promiseOf returns else (returns, types)

/-- A provider that returns a promise is deferred, whether it says so or not. -/
def addProvider (graph : Graph) (owner : ModuleId) (name : String) (parameters : List TypeId)
    (returns : TypeId) (deferred : Bool) : ProviderId × Graph :=
  let id := graph.providers.length
  let (product, types) := delivered graph.types returns deferred
  let provider : Provider :=
    ⟨name, owner, parameters, product, deferred || graph.types.isPromise returns⟩
  (id,
    { graph with
      types := types
      providers := graph.providers ++ [provider]
      modules := graph.modules.modify owner fun decl ↦
        { decl with providers := decl.providers ++ [id] } })

/-- Makes one module visible from another; a second time changes nothing. -/
def addInclude (graph : Graph) (owner included : ModuleId) : Graph :=
  { graph with
    modules := graph.modules.modify owner fun decl ↦
      if decl.includes.contains included then decl
      else { decl with includes := decl.includes ++ [included] } }

def addRequired (graph : Graph) (owner : ModuleId) (type : TypeId) : Graph :=
  { graph with
    modules := graph.modules.modify owner fun decl ↦
      { decl with requires := insertAscending type decl.requires } }

def addComponent (graph : Graph) (name : String) (source : Path) (root : ModuleId) :
    Except Error (ComponentId × Graph) :=
  if (graph.findComponent? name).isSome then .error (.manifest (.duplicateComponent name))
  else .ok (graph.components.length,
    { graph with components := graph.components ++ [⟨name, source, root, []⟩] })

def addResolver (graph : Graph) (component : ComponentId) (name : String) (returns : TypeId) :
    Graph :=
  { graph with
    components := graph.components.modify component fun decl ↦
      { decl with resolvers := decl.resolvers ++ [⟨name, returns⟩] } }

end Graph

end Wiring
