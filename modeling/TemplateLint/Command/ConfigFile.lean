import TemplateLint.Command.Failure
import TemplateLint.Path
import TemplateLint.Settings.Parse

/-!
# The settings file

The file that was named counts; or else the one nearest above the first path; or else the user's
own.
-/

namespace TemplateLint.Command

/-- What the environment says. -/
structure Environment where
  /-- A settings file. -/
  config : Option String := none
  /-- The folder of the user's own settings file. -/
  configFolder : Option String := none
  home : Option String := none
  deriving DecidableEq, Repr

inductive ConfigSource where
  | named (path : String)
  | project (path : String)
  | user (path : String)
  | defaults
  deriving DecidableEq, Repr

/-- The names of a project's settings file; the first counts. -/
def projectConfigNames : List String := [".herb-lint.toml", "herb-lint.toml"]

/-- Where the user's own settings file is. A home without a name is none. -/
def Environment.userConfig? (e : Environment) : Option String :=
  let home := e.home.filter (!·.isEmpty)
  let folder := e.configFolder.or (home.map fun home => Path.join home ".herb-lint")
  folder.map fun folder => Path.join folder "config.toml"

variable {m : Type → Type} [Monad m] (fs : FileSystem m)

/-- The first of some paths that leads to a file. -/
def firstFile? : List String → m (Option String)
  | [] => return none
  | path :: rest => do
    if ← fs.isFile path then return some path else firstFile? rest

/-- The folder of the first path, or the path itself if it is no file. -/
def projectFolder : List String → m String
  | [] => return "."
  | path :: _ => do
    if ← fs.isFile path then
      let folder := (Path.parent? path).getD ""
      return if folder.isEmpty then "." else folder
    else return path

/-- The settings file in a folder or the nearest above it. -/
def projectConfig? (folder : String) : m (Option String) := do
  let start := (← fs.resolve? folder).getD folder
  firstFile? fs ((Path.ancestors start).flatMap fun above =>
    projectConfigNames.map (Path.join above))

namespace ConfigSource

/-- Finds the settings file for some paths. -/
def find (env : Environment) (named : Option String) (paths : List String) : m ConfigSource := do
  match named with
  | some path => return .named path
  | none =>
    match ← projectConfig? fs (← projectFolder fs paths) with
    | some path => return .project path
    | none =>
      match ← firstFile? fs env.userConfig?.toList with
      | some path => return .user path
      | none => return .defaults

/-- Reads a settings file. -/
def loadFile (path : String) : m (Except ConfigError Settings) := do
  match ← fs.read path with
  | .error problem => return .error (.unreadable path problem.message)
  | .ok text => return Settings.parse text

def load : ConfigSource → Job m Settings
  | defaults => return {}
  | named path | project path => Job.require (.configNotLoaded path) (loadFile fs path)
  | user path => do
    Job.log [.globalConfigUsed path]
    Job.require (.configNotLoaded path) (loadFile fs path)

end ConfigSource

end TemplateLint.Command
