import Wiring.Path.Basic
import Wiring.TypeExpr.Parse

/-!
# Errors

One constructor per cause, and one text per error.
-/

namespace Wiring

inductive DocumentFormat where
  | toml
  | json
  | yaml
  deriving DecidableEq

def DocumentFormat.label : DocumentFormat → String
  | toml => "TOML"
  | json => "JSON"
  | yaml => "YAML"

inductive SyntaxProblem where
  | lexical (problem : LexicalProblem)
  /-- A token was wanted that is not the one found; at the end of the input none is found. -/
  | expected (wanted : Wanted) (found : Option Token)
  | tooDeep
  | other (text : String)
  deriving DecidableEq

namespace SyntaxProblem

def describeFound : Option Token → String
  | some token => token.describe
  | none => "end of input"

def message : SyntaxProblem → String
  | lexical .unterminatedText => "unterminated string literal"
  | lexical .noDigits => "expected digits after `-`"
  | lexical (.unexpected c) => "unexpected character `" ++ c.toString ++ "`"
  | expected wanted found => "expected " ++ wanted.describe ++ ", found " ++ describeFound found
  | tooDeep => "type expression nested too deeply"
  | other text => text

end SyntaxProblem

inductive ManifestProblem where
  | duplicateModule (name : String)
  | duplicateComponent (name : String)
  | duplicateClass (name : String)
  | duplicateAlias (name : String)
  | cyclicAlias (name : String)
  | aliasWithArguments (name : String)
  | unknownModule (name referrer : String)
  | unsupportedFormat (path : Path)
  /-- The text is no document of its format, or not one of a manifest. -/
  | invalidDocument (format : DocumentFormat)
  | invalidFile (path : Path) (format : DocumentFormat)
  | notFound (directory : Path)
  | other (text : String)
  deriving DecidableEq

def ManifestProblem.message : ManifestProblem → String
  | duplicateModule name => "duplicate module `" ++ name ++ "`"
  | duplicateComponent name => "duplicate component `" ++ name ++ "`"
  | duplicateClass name => "duplicate class `" ++ name ++ "`"
  | duplicateAlias name => "duplicate type alias `" ++ name ++ "`"
  | cyclicAlias name => "type alias `" ++ name ++ "` refers to itself"
  | aliasWithArguments name => "type alias `" ++ name ++ "` does not take type arguments"
  | unknownModule name referrer =>
    "unknown module `" ++ name ++ "` referenced by `" ++ referrer ++ "`"
  | unsupportedFormat path => "unsupported manifest format: " ++ path.text
  | invalidDocument format => "invalid " ++ format.label
  | invalidFile path format => path.text ++ ": invalid " ++ format.label
  | notFound directory =>
    "no declaration manifest found in " ++ directory.text ++ " or its parents"
  | other text => text

inductive IoProblem where
  | readManifest (path : Path)
  | createDirectory (path : Path)
  | writeFile (path : Path)
  | other (text : String)
  deriving DecidableEq

def IoProblem.message : IoProblem → String
  | readManifest path => "Failed to read manifest " ++ path.text
  | createDirectory path => "Failed to create directory " ++ path.text
  | writeFile path => "Failed to write " ++ path.text
  | other text => text

inductive ConfigurationProblem where
  | invalidLevel (level : String)
  | noLogFiles
  | unreadable
  | openLogFile (path : Path)
  | other (text : String)
  deriving DecidableEq

def ConfigurationProblem.message : ConfigurationProblem → String
  | invalidLevel level =>
    "Invalid log level: " ++ level ++ ". Use trace, debug, info, warn, or error"
  | noLogFiles => "logging.max_files cannot be 0 when file output is enabled"
  | unreadable => "Failed to extract configuration"
  | openLogFile path => "Failed to open log file " ++ path.text
  | other text => text

inductive InternalProblem where
  | noFileName (path : Path)
  | noFileStem (path : Path)
  | other (text : String)
  deriving DecidableEq

def InternalProblem.message : InternalProblem → String
  | noFileName path => "source path " ++ path.text ++ " has no file name"
  | noFileStem path => "source path " ++ path.text ++ " has no file stem"
  | other text => text

inductive Error where
  /-- No plan produces the type that a resolver returns. -/
  | unresolved (component resolver type : String)
  /-- Several plans do. -/
  | ambiguous (component resolver type : String) (candidates : Nat)
  /-- The only plan is asynchronous and the resolver is not. -/
  | asynchronous (component resolver type : String)
  | manifest (problem : ManifestProblem)
  | typeSyntax (expression : String) (offset : Nat) (problem : SyntaxProblem)
  | io (problem : IoProblem)
  | configuration (problem : ConfigurationProblem)
  | internal (problem : InternalProblem)
  deriving DecidableEq

namespace Error

def message : Error → String
  | unresolved component resolver type =>
    "Failed to resolve type " ++ type ++ " for " ++ resolver ++ " in " ++ component
  | ambiguous component resolver type candidates =>
    "Type " ++ type ++ " for " ++ resolver ++ " in " ++ component ++
      " cannot be resolved unambiguously (" ++ toString candidates ++ " candidates)"
  | asynchronous component resolver type =>
    "Type " ++ type ++ " for " ++ resolver ++ " in " ++ component ++
      " cannot be resolved synchronously"
  | manifest problem => "Manifest error: " ++ problem.message
  | typeSyntax expression offset problem =>
    "Invalid type expression `" ++ expression ++ "` at offset " ++ toString offset ++ ": " ++
      problem.message
  | io problem => "I/O error: " ++ problem.message
  | configuration problem => "Configuration error: " ++ problem.message
  | internal problem => "Internal error: " ++ problem.message

/-- The errors that say a component cannot be generated from its declarations. -/
def isResolutionFailure : Error → Bool
  | unresolved .. | ambiguous .. | asynchronous .. => true
  | _ => false

end Error

end Wiring
