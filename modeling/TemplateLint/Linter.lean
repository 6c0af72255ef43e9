import TemplateLint.Document.Parse
import TemplateLint.Document.Print
import TemplateLint.Fix
import TemplateLint.Settings

/-!
# Linters

A linter runs its rules over documents, hides what directives hide, and repeats fixes until none
applies. Each rule begins every document anew, so what a linter answers does not depend on what it
was asked before. A rule that fails is reported and the others still run.
-/

namespace TemplateLint

/-! ## Building -/

/-- A rule at work, with the notes it holds. -/
structure ActiveRule where
  rule : Rule
  notes : List Note := []

structure Linter where
  rules : List ActiveRule
  context : Context
  maxFixPasses : Nat
  keepBlanks : Bool

/-- What a linter is built from. -/
structure LinterPlan where
  rules : List Rule := []
  /-- Names that are valid although no rule of theirs runs. -/
  knownNames : List String := []
  settings : Settings := {}
  fileName : Option String := none
  keepBlanks : Bool := true

/-- The first name that repeats an earlier one or is reserved. -/
def firstClash (seen : List String) : List String → Option String
  | [] => none
  | name :: rest =>
    if seen.contains name || name == unnecessaryRule then some name
    else firstClash (name :: seen) rest

namespace LinterPlan

def names (p : LinterPlan) : List String := p.rules.map (·.name)

def validNames (p : LinterPlan) : List String :=
  sortNames (unnecessaryRule :: p.knownNames ++ p.names)

/-- The first configured name, in order, that no rule has. -/
def firstUnknown (p : LinterPlan) : Option String :=
  (sortNames (p.settings.rules.map (·.1))).find? (! p.validNames.contains ·)

def enabledRules (p : LinterPlan) : List Rule :=
  p.rules.filter fun r => p.settings.isRuleEnabled r.name r.descriptor.enabledByDefault

def context (p : LinterPlan) : Context :=
  let reserved := if p.settings.isRuleEnabled unnecessaryRule true then [unnecessaryRule] else []
  { validNames := p.validNames
    enabledNames := sortNames (p.enabledRules.map (·.name) ++ reserved)
    severities := p.settings.rules.filterMap fun (name, setting) => setting.severity.map (name, ·)
    fileName := p.fileName }

/-- Builds a linter, unless names clash or the settings name an unknown rule. -/
def build (p : LinterPlan) : Except ConfigError Linter :=
  match firstClash [] p.names with
  | some name => .error (.duplicateRule name)
  | none =>
    match p.firstUnknown with
    | some name => .error (.unknownRule name)
    | none => .ok
      { rules := p.enabledRules.map fun rule => { rule }
        context := p.context
        maxFixPasses := p.settings.maxFixPasses
        keepBlanks := p.keepBlanks }

end LinterPlan

/-! ## Linting -/

/-- What one rule contributes: its offenses, the rule after them, and what is to be logged. -/
structure RuleRun where
  offenses : List Offense
  rule : ActiveRule
  events : List Event

namespace ActiveRule

/-- Begins a document anew and looks at it. -/
def find (a : ActiveRule) (d : Document) (directives : List Directive) (c : Context) : Finding :=
  match a.rule with
  | .document rule => rule.check d c (rule.reset a.notes)
  | .directive rule => rule.checkAll c directives (rule.reset a.notes)

/-- Runs a rule; a crash becomes an offense at the start of the text, and what was noted is lost. -/
def run (a : ActiveRule) (d : Document) (directives : List Directive) (c : Context) : RuleRun :=
  let name := a.rule.name
  match a.find d directives c with
  | .ok (found, notes) =>
    let offenses := match c.severity? name with
      | some severity => found.map fun o => { o with severity }
      | none => found
    ⟨offenses, { a with notes }, []⟩
  | .error crash =>
    ⟨[.ofFailure name ⟨.start, .start⟩ crash.message], { a with notes := a.rule.reset a.notes },
      [.ruleFailed name c.displayName crash.message]⟩

/-- The fix of a document rule of this name, with the notes that the rule holds. -/
def fix? (a : ActiveRule) (name : String) : Option (NodeId → Edit Bool) :=
  match a.rule with
  | .document rule => if rule.descriptor.name = name then some (rule.fix · a.notes) else none
  | .directive _ => none

end ActiveRule

/-- An answer of a linter, the linter after it, and what is to be logged. -/
structure Answer (α : Type) where
  value : α
  linter : Linter
  events : List Event

namespace Linter

/-- Looks at a document with all rules. -/
def lint (l : Linter) (d : Document) : Answer LintResult :=
  let directives := d.directives
  let runs := l.rules.map fun a => a.run d directives l.context
  { value := suppress (runs.flatMap (·.offenses)) directives l.context
    linter := { l with rules := runs.map (·.rule) }
    events := runs.flatMap (·.events) }

def parse (l : Linter) (source : String) : Except ParseError Document :=
  Document.parse source l.keepBlanks

/-- Parses and lints a text. -/
def lintSource (l : Linter) (source : String) : Answer (Except ParseError LintResult) :=
  match l.parse source with
  | .error e => ⟨.error e, l, []⟩
  | .ok d =>
    let answer := l.lint d
    ⟨.ok answer.value, answer.linter, answer.events⟩

/-! ## Fixing -/

/-- The fix of the document rule of this name among those that run. -/
def fix? (l : Linter) (name : String) : Option (NodeId → Edit Bool) :=
  l.rules.findSome? (·.fix? name)

/-- One pass of fixes for these offenses. -/
def applyFixes (l : Linter) (d : Document) (offenses : List Offense) (mode : FixMode) : FixPass :=
  .run l.fix? mode d offenses

end Linter

structure FixReport where
  source : String
  /-- The number of passes that changed the text. -/
  passes : Nat
  applied : Nat
  result : LintResult
  deriving DecidableEq, Repr

def FixReport.changed (r : FixReport) : Bool := r.applied > 0

/-- The work on a text so far. -/
structure Fixing where
  source : String
  passes : Nat := 0
  applied : Nat := 0
  /-- The failures of fixes, one of each rule and message. -/
  failures : List Offense := []

/-- Adds a failure unless its rule has failed with its message before. -/
def addFailure (failures : List Offense) (new : Offense) : List Offense :=
  if failures.any fun o => o.rule == new.rule && o.message == new.message then failures
  else failures ++ [new]

namespace Linter

/-- Repeats passes while they change the text, at most `left` times. -/
def fixPasses (l : Linter) (mode : FixMode) :
    (left : Nat) → Fixing → Answer (Except ParseError Fixing)
  | 0, state => ⟨.ok state, l, []⟩
  | left + 1, state =>
    match l.parse state.source with
    | .error e => ⟨.error e, l, []⟩
    | .ok d =>
      let answer := l.lint d
      if answer.value.fixableCount = 0 then ⟨.ok state, answer.linter, answer.events⟩
      else
        let pass := answer.linter.applyFixes d answer.value.offenses mode
        let events := answer.events ++ pass.events
        let state := { state with failures := pass.failures.foldl addFailure state.failures }
        let printed := pass.document.print
        if pass.applied = 0 || printed = state.source then ⟨.ok state, answer.linter, events⟩
        else
          let next := answer.linter.fixPasses mode left
            { state with
              source := printed, passes := state.passes + 1, applied := state.applied + pass.applied }
          { next with events := events ++ next.events }

/-- Fixes a text until no fix applies or the cap is reached, and lints what came of it. -/
def fixSource (l : Linter) (source : String) (mode : FixMode) :
    Answer (Except ParseError FixReport) :=
  let fixing := l.fixPasses mode l.maxFixPasses { source }
  match fixing.value with
  | .error e => ⟨.error e, fixing.linter, fixing.events⟩
  | .ok state =>
    let stopped := if state.passes = l.maxFixPasses ∧ 0 < state.passes
      then [Event.fixingStopped l.context.displayName state.passes] else []
    let final := fixing.linter.lintSource state.source
    let events := fixing.events ++ stopped ++ final.events
    match final.value with
    | .error e => ⟨.error e, final.linter, events⟩
    | .ok result =>
      let offenses := Offense.sort (result.offenses ++ state.failures)
      ⟨.ok ⟨state.source, state.passes, state.applied, { result with offenses }⟩,
        final.linter, events⟩

end Linter

end TemplateLint
