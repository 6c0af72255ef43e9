import TemplateLint.Command.Check
import TemplateLint.Command.Init
import TemplateLint.Command.RuleList

/-!
# Running commands

A run ends with a code: 0 if all is well, 1 if errors are left or something failed, 2 if the command
line was not understood.
-/

namespace TemplateLint.Command

structure Outcome where
  code : Nat := 0
  printout : Printout := .plain ""
  failure : Option Failure := none
  events : List Event := []
  deriving DecidableEq, Repr

def versionText : String := lines ["herb-lint 0.3.0"]

def helpText : String := lines
  ["Linter and autofixer for HTML + ERB templates",
    "",
    "Usage: herb-lint [OPTIONS] <COMMAND>",
    "",
    "Commands:",
    "  check       Lint templates, optionally fixing them in place",
    "  list-rules  List available rules",
    "  init        Initialize configuration file",
    "  help        Print this message or the help of the given subcommand(s)",
    "",
    "Options:",
    "  -v, --verbose          Enable verbose output",
    "  -c, --config <CONFIG>  Path to configuration file",
    "  -h, --help             Print help",
    "  -V, --version          Print version"]

namespace Outcome

def ofHalt : Halt → Outcome
  | .help => { printout := .plain helpText }
  | .version => { printout := .plain versionText }
  | .usage => { code := 2 }

/-- The outcome of work that printed something and tells whether all is well. -/
def ofJob : Except Failure (Printout × Bool) × List Event → Outcome
  | (.ok (printout, clean), events) => { code := if clean then 0 else 1, printout, events }
  | (.error failure, events) => { code := 1, failure := some failure, events }

end Outcome

variable {m : Type → Type} [Monad m] (fs : FileSystem m)

/-- The work of a command: what it prints, and whether all is well. -/
def perform (env : Environment) (i : Invocation) : Job m (Printout × Bool) := do
  match i.action with
  | .check options =>
    let reports ← check fs env i.config options
    return (options.format.printout reports, isClean reports)
  | .listRules => return (.plain ruleList, true)
  | .init force => return (.plain (← init fs force), true)

/-- Does what a command line asks for. -/
def run (env : Environment) (args : List String) : m Outcome := do
  match Invocation.parse args env.config with
  | .error halt => return .ofHalt halt
  | .ok invocation => return .ofJob (← ((perform fs env invocation).run.run []))

end TemplateLint.Command
