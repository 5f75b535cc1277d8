import Wiring.Document.Toml.Read
import Wiring.Host.Basic
import Wiring.Settings.Basic
import Wiring.Settings.Variable

/-!
# Reading settings

The settings of a file and those of the environment are laid over the default ones.  A value must
be of the kind that its setting has; nothing is converted.

A settings file that is named but missing is as good as none.  Without a named one the places for
it are tried in order.  Whatever names the manifest, be it the file or the environment, a relative
path is seen from the directory of the settings file when there is one.
-/

namespace Wiring

open Document

namespace Settings

/-- One document laid over another: down to a depth their tables are joined, and otherwise the
upper document hides the lower. -/
def overlay : Nat → Document → Document → Document
  | depth + 1, table lower, table upper =>
    table (upper.foldl (fun entries entry ↦
      let value := match entries.lookup entry.1 with
        | some hidden => overlay depth hidden entry.2
        | none => entry.2
      insertEntry entry.1 value entries) (lower.foldl (fun map e ↦ insertEntry e.1 e.2 map) []))
  | _, _, upper => upper

/-- Sections and the settings in them make two levels of tables. -/
def sectionDepth : Nat := 2

def ofEnvironment (environment : Environment) : Document :=
  environment.foldl (fun document (name, value) ↦
    match variableKeys? name with
    | none => document
    | some keys => overlay sectionDepth document (nested (variableValue value) keys))
    (table [])

end Settings

def LoggingSettings.ofDocument? (document : Document) : Reading LoggingSettings := do
  let record ← document.record? .toml ["level", "json_format", "file_output", "max_files"]
  let default := Settings.default.logging
  let level ← record.withDefault "level" default.level text?
  let jsonFormat ← record.withDefault "json_format" default.jsonFormat boolean?
  let fileOutput ←
    record.withDefault "file_output" default.fileOutput (optional? path?)
  let maxFiles ← record.withDefault "max_files" default.maxFiles natural?
  return { level, jsonFormat, fileOutput, maxFiles }

def GenerationSettings.ofDocument? (document : Document) : Reading GenerationSettings := do
  let record ← document.record? .toml ["project", "parallel", "dry_run"]
  let default := Settings.default.generation
  let project ← record.withDefault "project" default.project (optional? path?)
  let parallel ← record.withDefault "parallel" default.parallel boolean?
  let dryRun ← record.withDefault "dry_run" default.dryRun boolean?
  return { project, parallel, dryRun }

namespace Settings

def ofDocument? (document : Document) : Reading Settings := do
  let record ← document.record? .toml ["logging", "generation"]
  let logging ← record.withDefault "logging" default.logging LoggingSettings.ofDocument?
  let generation ←
    record.withDefault "generation" default.generation GenerationSettings.ofDocument?
  return { logging, generation }

/-- The settings of a file and of the environment, which wins. -/
def decode (fileText : Option String) (environment : Environment) : Except Error Settings :=
  let settings? : Option Settings := do
    let lower ← match fileText with
      | some content => Toml.read .v10 content
      | none => some (table [])
    (overlay sectionDepth lower (ofEnvironment environment)).unlinked.read? ofDocument?
  match settings? with
  | some settings => .ok settings
  | none => .error (.configuration .unreadable)

/-- Takes a relative manifest path to be seen from a directory. -/
def locateProject (directory : Path) (settings : Settings) : Settings :=
  { settings with
    generation := { settings.generation with
      project := settings.generation.project.map directory.join } }

def fileName : Path := ⟨"splice.toml"⟩

def directoryName : Path := ⟨"splice"⟩

/-- The home directory, which is not empty. -/
def home? (environment : Environment) : Option Path :=
  match environment.lookup "HOME" with
  | none | some "" => none
  | some directory => some ⟨directory⟩

/-- The directory for settings of a user; one that is named must be absolute. -/
def userDirectory? (environment : Environment) : Option Path :=
  match (environment.lookup "XDG_CONFIG_HOME").map Path.mk with
  | some directory => if directory.isAbsolute then some directory else below
  | none => below
where
  below : Option Path := (home? environment).map (Path.join · ⟨".config"⟩)

/-- Where a settings file may be that is not named. -/
def candidatePaths (working : Path) (environment : Environment) : List Path :=
  [working.join fileName, (working.join directoryName).join fileName] ++
    (userDirectory? environment).toList.map (fun directory ↦
      (directory.join directoryName).join fileName) ++
    (home? environment).toList.map fun directory ↦ (directory.join ⟨".splice"⟩).join fileName

variable {m : Type → Type} [Monad m] [Host m]

def locateFile (named : Option Path) : m (Option Path) := do
  let candidates ← match named with
    | some path => pure [path]
    | none => pure (candidatePaths (← Host.workingDirectory) (← Host.environment))
  Host.findPath? Host.pathExists candidates

/-- The paths that a settings file is read from: a relative one also has the directories above the
working one. -/
def readingPaths (path : Path) : m (List Path) := do
  if path.isAbsolute then return [path]
  return (← Host.workingDirectory).ancestors.map (·.join path)

/-- The text of a settings file.  A directory in its place holds no settings. -/
def readText (path : Path) : ExceptT Error m (Option String) := do
  match ← (do Host.findPath? Host.isFile (← readingPaths path) : m _) with
  | none => return none
  | some found =>
    match ← (Host.read? found : m _) with
    | some content => return some content
    | none => throw (.configuration .unreadable)

def load (named : Option Path) : ExceptT Error m Settings := do
  let file ← (locateFile named : m _)
  let text ← match file with
    | some path => readText path
    | none => pure none
  let settings ← (decode text (← (Host.environment : m _)) : Except Error Settings)
  let settings := match file.bind Path.parent? with
    | some directory => settings.locateProject directory
    | none => settings
  (settings.validate : Except Error Unit)
  return settings

end Settings

end Wiring
