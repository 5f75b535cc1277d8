import Wiring.Graph.Basic
import Wiring.Text.Quoted
import Wiring.Types.Table

/-!
# Types and graphs as text

The text of a type is a type expression.  Parts have smaller identities than the type itself, so
the text of a type of identity `n` is complete within `n + 1` levels.  The outline of a graph has
one line for every declaration, modules before components.
-/

namespace Wiring

namespace TypeTable

def literalText : Literal → String
  | .text value => Text.quote value
  | .number spelling => spelling

/-- The text of a descriptor, given the text of its parts. -/
def displayStep (table : TypeTable) (part : TypeId → String) : Descriptor → String
  | .dynamic => "any"
  | .primitive kind => kind.keyword
  | .literal value => literalText value
  | .enumeration name => name
  | .nominal name => name
  | .generic name [] => name
  | .generic name arguments => name ++ "<" ++ ", ".intercalate (arguments.map part) ++ ">"
  | .array element =>
    match table.get element with
    | .union _ => "(" ++ part element ++ ")[]"
    | _ => part element ++ "[]"
  | .tuple items => "[" ++ ", ".intercalate (items.map part) ++ "]"
  | .shape [] => "\x7b\x7d"
  | .shape fields =>
    "\x7b " ++ "; ".intercalate (fields.map fun field ↦ field.name ++ ": " ++ part field.type) ++
      " \x7d"
  | .union members => " | ".intercalate (members.map part)

def displayWithin (table : TypeTable) : Nat → TypeId → String
  | 0, _ => ""
  | depth + 1, id => table.displayStep (table.displayWithin depth) (table.get id)

def display (table : TypeTable) (id : TypeId) : String :=
  table.displayWithin (id + 1) id

end TypeTable

namespace Graph

def providerLine (graph : Graph) (id : ProviderId) : String :=
  let provider := graph.getProvider id
  "  provide " ++ provider.name ++ "(" ++
    ", ".intercalate (provider.parameters.map graph.types.display) ++ "): " ++
    graph.types.display provider.returns ++ "\n"

def moduleOutline (graph : Graph) (decl : ModuleDecl) : String :=
  "module " ++ decl.name ++ "\n" ++
    String.join (decl.providers.map graph.providerLine) ++
    String.join (decl.includes.map fun id ↦ "  include " ++ (graph.getModule id).name ++ "\n") ++
    String.join (decl.requires.map fun type ↦ "  require " ++ graph.types.display type ++ "\n")

def componentOutline (graph : Graph) (component : Component) : String :=
  "component " ++ component.name ++ " (" ++ (graph.getModule component.root).name ++ ")\n" ++
    String.join (component.resolvers.map fun resolver ↦
      "  " ++ resolver.name ++ "(): " ++ graph.types.display resolver.returns ++ "\n")

def outline (graph : Graph) : String :=
  String.join (graph.modules.map graph.moduleOutline) ++
    String.join (graph.components.map graph.componentOutline)

end Graph

end Wiring
