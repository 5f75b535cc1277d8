import Wiring.Error

/-!
# Settings

How a run is carried out: what is logged and where, which manifest is read, and whether files are
written or printed.
-/

namespace Wiring

inductive LogLevel where
  | trace
  | debug
  | info
  | warn
  | error
  deriving DecidableEq

namespace LogLevel

def name : LogLevel → String
  | trace => "TRACE"
  | debug => "DEBUG"
  | info => "INFO"
  | warn => "WARN"
  | error => "ERROR"

/-- The level of a name in any case.  Folding ASCII letters is enough: the only other character
whose lower case is an ASCII letter is the Kelvin sign, and no level has a `k`. -/
def ofName? (name : String) : Option LogLevel :=
  match name.map Char.toLower with
  | "trace" => some trace
  | "debug" => some debug
  | "info" => some info
  | "warn" => some warn
  | "warning" => some warn
  | "error" => some error
  | _ => none

def parse (name : String) : Except Error LogLevel :=
  match ofName? name with
  | some level => .ok level
  | none => .error (.configuration (.invalidLevel name))

end LogLevel

structure LoggingSettings where
  level : String
  jsonFormat : Bool
  fileOutput : Option Path
  /-- How many daily log files are kept. -/
  maxFiles : Nat
  deriving DecidableEq

structure GenerationSettings where
  project : Option Path
  parallel : Bool
  dryRun : Bool
  deriving DecidableEq

structure Settings where
  logging : LoggingSettings
  generation : GenerationSettings
  deriving DecidableEq

namespace Settings

def default : Settings where
  logging := ⟨"info", false, none, 7⟩
  generation := ⟨none, true, false⟩

/-- The level must be one, and a log file needs room for at least one file. -/
def validate (settings : Settings) : Except Error Unit := do
  let _ ← LogLevel.parse settings.logging.level
  if settings.logging.fileOutput.isSome && settings.logging.maxFiles = 0 then
    throw (.configuration .noLogFiles)

end Settings

end Wiring
