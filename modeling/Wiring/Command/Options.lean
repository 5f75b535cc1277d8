import Wiring.Settings.Basic

/-!
# Command line options

Arguments are read from the left, and the first that is at fault or asks for help or the version
decides.  No option may come twice, and the value of an option may follow its name or be attached
to it.
-/

namespace Wiring

/-- What the arguments of an invocation set; the rest is left to the settings. -/
structure Options where
  project : Option Path
  config : Option Path
  dryRun : Bool
  sequential : Bool
  deriving DecidableEq

namespace Options

def unset : Options := ⟨none, none, false, false⟩

/-- Why arguments start no run. -/
inductive Refusal where
  | help
  | version
  | usage
  deriving DecidableEq

inductive ValueOption where
  | project
  | config

inductive Flag where
  | dryRun
  | sequential

/-- What an argument says where no value is due. -/
inductive Argument where
  /-- An option whose value is the next argument. -/
  | opens (option : ValueOption)
  | sets (option : ValueOption) (value : List Char)
  | raises (flag : Flag)
  | ends
  | refused (reason : Refusal)

namespace Argument

/-- A name that needs no value, written with or without one. -/
def plain (argument : Argument) : Option (List Char) → Argument
  | none => argument
  | some _ => refused .usage

def valued (option : ValueOption) : Option (List Char) → Argument
  | none => opens option
  | some value => sets option value

def ofLongName (name : String) (value : Option (List Char)) : Argument :=
  match name with
  | "project" => valued .project value
  | "config" => valued .config value
  | "dry-run" => plain (raises .dryRun) value
  | "sequential" => plain (raises .sequential) value
  | "help" => plain (refused .help) value
  | "version" => plain (refused .version) value
  | _ => refused .usage

/-- A value attached to a letter, which an equals sign may set off. -/
def attached : List Char → Option (List Char)
  | [] => none
  | '=' :: value => some value
  | value => some value

def ofLetter (letter : Char) (rest : List Char) : Argument :=
  match letter with
  | 'p' => valued .project (attached rest)
  | 'c' => valued .config (attached rest)
  | 'h' => refused .help
  | 'V' => refused .version
  | _ => refused .usage

def ofChars : List Char → Argument
  | ['-', '-'] => ends
  | '-' :: '-' :: body =>
    match body.span (· != '=') with
    | (name, []) => ofLongName (String.ofList name) none
    | (name, _ :: value) => ofLongName (String.ofList name) (some value)
  | '-' :: letter :: rest => ofLetter letter rest
  | _ => refused .usage

end Argument

def isValue : List Char → Bool
  | '-' :: _ :: _ => false
  | _ => true

def setValue (options : Options) (option : ValueOption) (value : List Char) :
    Except Refusal Options :=
  let path : Path := ⟨String.ofList value⟩
  match option with
  | .project =>
    if value.isEmpty || options.project.isSome then throw .usage
    else return { options with project := path }
  | .config =>
    if value.isEmpty || options.config.isSome then throw .usage
    else return { options with config := path }

def raise (options : Options) : Flag → Except Refusal Options
  | .dryRun => if options.dryRun then throw .usage else return { options with dryRun := true }
  | .sequential =>
    if options.sequential then throw .usage else return { options with sequential := true }

/-- Reads arguments on top of the options set so far. -/
def readFrom (options : Options) : List String → Except Refusal Options
  | [] => return options
  | argument :: rest =>
    match Argument.ofChars argument.toList, rest with
    | .opens option, value :: rest => do
      if isValue value.toList then readFrom (← options.setValue option value.toList) rest
      else throw .usage
    | .opens _, [] => throw .usage
    | .sets option value, rest => do readFrom (← options.setValue option value) rest
    | .raises flag, rest => do readFrom (← options.raise flag) rest
    | .ends, [] => return options
    | .ends, _ => throw .usage
    | .refused reason, _ => throw reason

def ofArguments (arguments : List String) : Except Refusal Options :=
  unset.readFrom arguments

/-- The settings with what the options set in place of their own. -/
def apply (options : Options) (settings : Settings) : Settings :=
  { settings with
    generation := {
      project := options.project <|> settings.generation.project
      parallel := settings.generation.parallel && !options.sequential
      dryRun := settings.generation.dryRun || options.dryRun } }

end Options

end Wiring
