import TemplateLint.Command.ConfigFile
import TemplateLint.Command.Report
import TemplateLint.Linter
import TemplateLint.Rules.Catalog

/-!
# Checking files

The settings are read, the rules chosen, the files found, and then one file after the other is
linted or fixed. The first file that fails ends the run; what was written before stays written.
-/

namespace TemplateLint.Command

/-! ## Rules -/

def catalogNames : List String := Rules.Preset.recommended.rules.map (·.name)

/-- The names in a list with commas, without blanks around them. -/
def namesOf (list : String) : List String :=
  let names := (Text.splitAt ',' list.toList).map Text.trim
  (names.filter (!·.isEmpty)).map String.ofList

/-- The requested names that no rule has. -/
def unknownRules (requested : Option String) : List Event :=
  let names := requested.elim [] namesOf
  (names.filter (! catalogNames.contains ·)).map Event.unknownRuleRequested

def restrict (requested : Option String) (settings : Settings) : Settings :=
  match requested with
  | some list => settings.restrictTo (namesOf list) catalogNames
  | none => settings

/-- A linter with the rules of the catalog. -/
def linterFor (settings : Settings) (fileName : Option String) : Except ConfigError Linter :=
  let plan : LinterPlan := { rules := Rules.Preset.recommended.rules, settings, fileName }
  plan.build

variable {m : Type → Type} [Monad m] (fs : FileSystem m)

/-! ## Files -/

/-- The paths that the settings include, each from the folder it was found in. -/
def included (settings : Settings) : List String → Except ConfigError (List String)
  | [] => .ok []
  | path :: rest => do
    let isIncluded ← settings.isIncluded path
    let others ← included settings rest
    return if isIncluded then path :: others else others

/-- The path that stands for standard input, in which no files are found. -/
def standardInput : String := "-"

/-- The files that a path stands for: itself, or the included ones below it. -/
def filesOf (settings : Settings) (path : String) : Job m (List String) := do
  if ← fs.isFile path then return [path]
  else if path = standardInput then return []
  else
    let found ← Job.require (.folderNotListed path) (fs.filesIn path)
    let kept ← Job.ofExcept .patternRefused (included settings found)
    return kept.map (Path.join path)

def findFiles (settings : Settings) (paths : List String) : Job m (List String) := do
  let files ← paths.mapM (filesOf fs settings)
  return Path.sort files.flatten

/-! ## One file -/

/-- Lints or fixes one file. -/
def checkFile (settings : Settings) (fix : Option FixMode) (path : String) : Job m FileReport := do
  let source ← Job.require (.fileNotRead path) (fs.read path)
  let linter ← Job.ofExcept .linterNotBuilt (linterFor settings (some path))
  match fix with
  | none =>
    let answer := linter.lintSource source
    Job.log answer.events
    let result ← Job.ofExcept (.fileNotLinted path) answer.value
    return { path, result, fixed := false }
  | some mode =>
    let answer := linter.fixSource source mode
    Job.log answer.events
    let report ← Job.ofExcept (.fileNotFixed path) answer.value
    if report.changed then
      Job.require (.fileNotWritten path) (fs.write path report.source)
    return { path, result := report.result, fixed := report.changed }

/-! ## All files -/

def check (env : Environment) (config : Option String) (o : CheckOptions) :
    Job m (List FileReport) := do
  let source ← (ConfigSource.find fs env config o.paths : m ConfigSource)
  let loaded ← source.load fs
  Job.log (unknownRules o.rules)
  let settings := restrict o.rules loaded
  let linter ← Job.ofExcept .linterNotBuilt (linterFor settings none)
  Job.log [.lintingBegins linter.rules.length]
  let files ← findFiles fs settings o.paths
  files.mapM (checkFile fs settings o.fix)

end TemplateLint.Command
