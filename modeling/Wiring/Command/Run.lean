import Wiring.Code.Placement
import Wiring.Command.Options
import Wiring.Manifest.Declare
import Wiring.Settings.Load

/-!
# Runs

An invocation reads its arguments, loads the settings, opens the log, loads the manifest, and
generates the code of all components before the first file is written.
-/

namespace Wiring

variable {m : Type → Type} [Monad m] [Host m]

def emitToFiles : Emitter m := fun file ↦ do
  let directory := file.path.parent
  if directory.text ≠ "" then
    unless ← (Host.createDirectories directory : m _) do
      throw (.io (.createDirectory directory))
  unless ← (Host.write file.path file.text : m _) do
    throw (.io (.writeFile file.path))

/-- Prints each file below a comment line with its path. -/
def emitToOutput : Emitter m := fun file ↦
  (Host.print ("// " ++ file.path.text ++ "\n" ++ file.text) : m Unit)

namespace LoggingSettings

/-- The directory of the log files; a path without one stands for the working directory. -/
def logDirectory (path : Path) : Path :=
  if path.parent.text = "" then ⟨"."⟩ else path.parent

def logStem (path : Path) : String :=
  path.fileStem?.getD "splice"

/-- Checks the level and opens the log file, if there is to be one.  Files that start like it count
as old log files, of which only so many stay that the new one fits in. -/
def openLog (settings : LoggingSettings) : ExceptT Error m Unit := do
  let _ ← (LogLevel.parse settings.level : Except Error LogLevel)
  match settings.fileOutput with
  | none => return ()
  | some path =>
    let directory := logDirectory path
    let stem := logStem path
    (Host.keepNewest directory stem (settings.maxFiles - 1) : m _)
    unless ← (Host.openLog directory stem : m _) do
      throw (.configuration (.openLogFile path))

end LoggingSettings

namespace GenerationSettings

def manifestPath (settings : GenerationSettings) : ExceptT Error m Path := do
  match settings.project with
  | some path => return path
  | none =>
    let directory ← (Host.workingDirectory : m _)
    match ← (Manifest.find? directory : m _) with
    | some path => return path
    | none => throw (.manifest (.notFound directory))

def emitter (settings : GenerationSettings) : Emitter m :=
  if settings.dryRun then emitToOutput else emitToFiles

/-- Generates what the manifest declares.  Components do not depend on each other, so it makes no
difference whether they are worked on in parallel. -/
def execute (settings : GenerationSettings) : Emission m Report := do
  let path ← settings.manifestPath
  generateFrom (Manifest.loadGraph path) settings.emitter

end GenerationSettings

namespace Options

def run (options : Options) : Emission m Report := do
  let settings := options.apply (← Settings.load options.config)
  settings.logging.openLog
  settings.generation.execute

end Options

inductive Ending where
  | success
  | failure (error : Error)
  | misuse
  deriving DecidableEq

def Ending.exitCode : Ending → Nat
  | success => 0
  | failure _ => 1
  | misuse => 2

def versionText : String := "splice 0.1.0\n"

def helpText : String :=
  "Splice - compile-time dependency-injection code generator\n\n" ++
  "Usage: splice [OPTIONS]\n\n" ++
  "Options:\n" ++
  "  -p, --project <PROJECT>  Declaration manifest (defaults to the nearest splice-manifest.*)\n" ++
  "  -c, --config <CONFIG>    Path to configuration file\n" ++
  "      --dry-run            Print generated files instead of writing them\n" ++
  "      --sequential         Resolve components one at a time\n" ++
  "  -h, --help               Print help\n" ++
  "  -V, --version            Print version\n"

def invoke (arguments : List String) : m Ending := do
  match Options.ofArguments arguments with
  | .error .help => do
    Host.print helpText
    return .success
  | .error .version => do
    Host.print versionText
    return .success
  | .error .usage => return .misuse
  | .ok options =>
    match ← options.run.run with
    | .ok _ => return .success
    | .error error => return .failure error

end Wiring
