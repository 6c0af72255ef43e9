import TemplateLint.Command.Failure
import TemplateLint.Command.Report

/-!
# Starting a settings file
-/

namespace TemplateLint.Command

/-- The name of the file in the folder where the program runs. -/
def starterName : String := ".herb-lint.toml"

/-- The text of a new settings file. -/
def starterText : String := lines
  ["# herb-lint configuration",
    "",
    "[linter]",
    "# Glob patterns of templates to lint",
    "include = [",
    "    \"**/*.html.erb\",",
    "    \"**/*.html\",",
    "]",
    "",
    "# Glob patterns to exclude from linting",
    "exclude = [",
    "    \"**/node_modules/**\",",
    "    \"**/vendor/**\",",
    "]",
    "",
    "# Upper bound on autofix passes per file",
    "max_fix_iterations = 10",
    "",
    "# Rule configurations",
    "# Each rule can be enabled/disabled and have its severity overridden",
    "",
    "[rules.html-tag-name-lowercase]",
    "enabled = true",
    "# severity = \"warning\"  # Override default severity",
    "",
    "[rules.html-no-duplicate-ids]",
    "enabled = true",
    "",
    "# Report herb:disable comments that suppress nothing",
    "[rules.herb-disable-comment-unnecessary]",
    "enabled = true"]

def starterNotice : String := lines
  [s!"Created {starterName}",
    "",
    "Next steps:",
    s!"  1. Edit {starterName} to configure rules",
    "  2. Run: herb-lint check"]

/-- Writes a settings file, over an old one only if forced to. -/
def init {m : Type → Type} [Monad m] (fs : FileSystem m) (force : Bool) : Job m String := do
  if !force && (← fs.contains starterName) then throw (.configExists starterName)
  Job.require .configNotWritten (fs.write starterName starterText)
  return starterNotice

end TemplateLint.Command
