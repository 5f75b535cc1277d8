import Wiring.Document.Json
import Wiring.Document.Reading
import Wiring.Document.Toml.Read
import Wiring.Document.Yaml.Node
import Wiring.Error

/-!
# Manifests

The declarations of a project as a document holds them: types are expressions that nobody has
read yet, and modules are named rather than known.  Names of enumerations, aliases and resolvers
must be there, and so must the types of the last two; everything else has a default.
-/

namespace Wiring

namespace Manifest

structure ClassEntry where
  name : String
  /-- Types by field name, in the order of the names; a question mark at the end of a name makes
  the field optional. -/
  fields : List (String × String)
  deriving DecidableEq

structure EnumEntry where
  name : String
  deriving DecidableEq

structure AliasEntry where
  name : String
  type : String
  deriving DecidableEq

structure ProviderEntry where
  name : String
  parameters : List String
  returns : String
  deferred : Bool
  deriving DecidableEq

structure ModuleEntry where
  name : String
  source : Option Path
  includes : List String
  requires : List String
  providers : List ProviderEntry
  deriving DecidableEq

structure ResolverEntry where
  name : String
  returns : String
  deriving DecidableEq

structure ComponentEntry where
  name : String
  source : Option Path
  root : String
  resolvers : List ResolverEntry
  deriving DecidableEq

end Manifest

structure Manifest where
  /-- The source of the declarations that name none. -/
  source : Option Path
  classes : List Manifest.ClassEntry
  enums : List Manifest.EnumEntry
  aliases : List Manifest.AliasEntry
  modules : List Manifest.ModuleEntry
  components : List Manifest.ComponentEntry
  deriving DecidableEq

/-- The format of a manifest, told by the extension of its path in any ASCII case. -/
def DocumentFormat.ofPath (path : Path) : Except Error DocumentFormat :=
  match path.extension?.map (String.map Char.toLower) with
  | some "toml" => .ok .toml
  | some "json" => .ok .json
  | some "yaml" => .ok .yaml
  | some "yml" => .ok .yaml
  | _ => .error (.manifest (.unsupportedFormat path))

namespace Manifest

open Document

def source? (record : Record) : Reading (Option Path) :=
  record.withDefault "source" none (optional? path?)

def ClassEntry.ofDocument? (format : DocumentFormat) (document : Document) :
    Reading ClassEntry := do
  let record ← document.record? format ["name", "fields"]
  let name ← record.withDefault "name" "" text?
  let fields ← record.withDefault "fields" [] (map? text?)
  return { name, fields }

def EnumEntry.ofDocument? (format : DocumentFormat) (document : Document) :
    Reading EnumEntry := do
  let record ← document.record? format ["name"]
  let name ← record.required "name" text?
  return { name }

def AliasEntry.ofDocument? (format : DocumentFormat) (document : Document) :
    Reading AliasEntry := do
  let record ← document.record? format ["name", "type"]
  let name ← record.required "name" text?
  let type ← record.required "type" text?
  return { name, type }

def ProviderEntry.ofDocument? (format : DocumentFormat) (document : Document) :
    Reading ProviderEntry := do
  let record ← document.record? format ["name", "parameters", "returns", "deferred"]
  let name ← record.withDefault "name" "" text?
  let parameters ← record.withDefault "parameters" [] (list? text?)
  let returns ← record.withDefault "returns" "" text?
  let deferred ← record.withDefault "deferred" false boolean?
  return { name, parameters, returns, deferred }

def ModuleEntry.ofDocument? (format : DocumentFormat) (document : Document) :
    Reading ModuleEntry := do
  let record ← document.record? format ["name", "source", "includes", "requires", "providers"]
  let name ← record.withDefault "name" "" text?
  let source ← source? record
  let includes ← record.withDefault "includes" [] (list? text?)
  let requires ← record.withDefault "requires" [] (list? text?)
  let providers ← record.withDefault "providers" [] (list? (ProviderEntry.ofDocument? format))
  return { name, source, includes, requires, providers }

def ResolverEntry.ofDocument? (format : DocumentFormat) (document : Document) :
    Reading ResolverEntry := do
  let record ← document.record? format ["name", "returns"]
  let name ← record.required "name" text?
  let returns ← record.required "returns" text?
  return { name, returns }

def ComponentEntry.ofDocument? (format : DocumentFormat) (document : Document) :
    Reading ComponentEntry := do
  let record ← document.record? format ["name", "source", "module", "resolvers"]
  let name ← record.withDefault "name" "" text?
  let source ← source? record
  let root ← record.withDefault "module" "" text?
  let resolvers ← record.withDefault "resolvers" [] (list? (ResolverEntry.ofDocument? format))
  return { name, source, root, resolvers }

def ofDocument? (format : DocumentFormat) (document : Document) : Reading Manifest := do
  let record ← document.record? format
    ["source", "classes", "enums", "aliases", "modules", "components"]
  let source ← source? record
  let classes ← record.withDefault "classes" [] (list? (ClassEntry.ofDocument? format))
  let enums ← record.withDefault "enums" [] (list? (EnumEntry.ofDocument? format))
  let aliases ← record.withDefault "aliases" [] (list? (AliasEntry.ofDocument? format))
  let modules ← record.withDefault "modules" [] (list? (ModuleEntry.ofDocument? format))
  let components ← record.withDefault "components" [] (list? (ComponentEntry.ofDocument? format))
  return { source, classes, enums, aliases, modules, components }

end Manifest

/-- The document that a text is in a format. -/
def DocumentFormat.read (format : DocumentFormat) (text : String) : Option LinkedDocument :=
  match format with
  | json => (Json.read text).map Document.unlinked
  | toml => (Toml.read .v11 text).map Document.unlinked
  | yaml => Yaml.read text

def Manifest.read? (format : DocumentFormat) (text : String) : Option Manifest := do
  (← format.read text).read? (ofDocument? format)

def Manifest.parse (format : DocumentFormat) (text : String) : Except Error Manifest :=
  match read? format text with
  | some manifest => .ok manifest
  | none => .error (.manifest (.invalidDocument format))

end Wiring
