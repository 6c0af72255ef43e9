import TemplateLint.Glob
import TemplateLint.Severity

/-!
# Settings

Which files are linted, how often fixes may be repeated, and what is set for single rules.
-/

namespace TemplateLint

/-! ## Errors -/

inductive ConfigError where
  | unreadable (path cause : String)
  | malformed (detail : String)
  | duplicateRule (name : String)
  | unknownRule (name : String)
  | invalidPattern (pattern : String) (problem : Glob.Malformed)
  deriving DecidableEq, Repr

def ConfigError.message : ConfigError → String
  | unreadable path cause => s!"Failed to read config file {path}: {cause}"
  | malformed detail => s!"Failed to parse config: {detail}"
  | duplicateRule name => s!"Duplicate rule name: {name}"
  | unknownRule name => s!"Unknown rule in configuration: {name}"
  | invalidPattern pattern problem => s!"Invalid glob pattern `{pattern}`: {problem.message}"

/-! ## Settings -/

/-- What is set for one rule. -/
structure RuleSetting where
  enabled : Option Bool := none
  severity : Option Severity := none
  deriving DecidableEq, Repr

structure Settings where
  includes : List String := ["**/*.html.erb", "**/*.html"]
  excludes : List String := ["**/node_modules/**", "**/vendor/**"]
  maxFixPasses : Nat := 10
  /-- Each rule's name occurs once. -/
  rules : List (String × RuleSetting) := []
  deriving DecidableEq, Repr

namespace Settings

def isRuleEnabled (s : Settings) (name : String) (byDefault : Bool) : Bool :=
  ((s.rules.lookup name).bind (·.enabled)).getD byDefault

def ruleSeverity? (s : Settings) (name : String) : Option Severity :=
  (s.rules.lookup name).bind (·.severity)

/-- Sets whether a rule is enabled and leaves the rest of what is set for it. -/
def setEnabled (enabled : Bool) (name : String) :
    List (String × RuleSetting) → List (String × RuleSetting)
  | [] => [(name, { enabled := some enabled })]
  | (other, setting) :: rest =>
    if other = name then (other, { setting with enabled := some enabled }) :: rest
    else (other, setting) :: setEnabled enabled name rest

/-- Enables the rules of `keep` and disables the others among `all`. -/
def restrictTo (s : Settings) (keep all : List String) : Settings :=
  { s with
    rules := all.foldl (fun rules name => setEnabled (keep.contains name) name rules) s.rules }

/-! ## Files -/

/-- Whether one of the patterns stands for the path; later patterns are not looked at. -/
def matchesSome (path : String) : List String → Except ConfigError Bool
  | [] => .ok false
  | pattern :: rest =>
    match Glob.parse pattern with
    | .error problem => .error (.invalidPattern pattern problem)
    | .ok parts => if Glob.matchesAll parts path.toList then .ok true else matchesSome path rest

/-- A file is linted if an include pattern stands for its path and no exclude pattern does. -/
def isIncluded (s : Settings) (path : String) : Except ConfigError Bool :=
  match matchesSome path s.includes with
  | .error e => .error e
  | .ok false => .ok false
  | .ok true => (matchesSome path s.excludes).map (!·)

end Settings

end TemplateLint
