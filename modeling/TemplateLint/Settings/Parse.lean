import TemplateLint.Settings
import TemplateLint.Toml.Parse

/-!
# Settings from a file

The file has a section on the linter and one with a section for each rule. What is missing keeps its
default and unknown names are ignored, but a setting of the wrong kind is an error.
-/

namespace TemplateLint

open Toml (Value)

namespace Settings

/-! ## Single values -/

/-- What is wrong with the value of a setting. -/
def wrongKind (setting : String) : ConfigError := .malformed s!"wrong kind of value for {setting}"

def text? : Value → Option String
  | .text text => some text
  | _ => none

def texts? : Value → Option (List String)
  | .array values => values.mapM text?
  | _ => none

def count? : Value → Option Nat
  | .integer number => if 0 ≤ number then some number.toNat else none
  | _ => none

def switch? : Value → Option Bool
  | .boolean flag => some flag
  | _ => none

/-- Whether a value is an array or a table of nothing. -/
def isVoid : Value → Bool
  | .array [] | .table [] => true
  | _ => false

/-- A severity is given by its name, or by a table with this name alone, which holds nothing. -/
def level? : Value → Option Severity
  | .text text => Severity.ofName? text
  | .table [(name, held)] => if isVoid held then Severity.ofName? name else none
  | _ => none

/-- The settings of a section. They may also be given as an array, in the order of their names. -/
def fields? (names : List String) : Value → Option (List (String × Value))
  | .table entries => some entries
  | .array values => some (names.zip values)
  | .moment => some []
  | _ => none

/-- The setting of a name, or its default. -/
def setting {α : Type} (fields : List (String × Value)) (name : String) (read : Value → Option α)
    (default : α) : Except ConfigError α :=
  match fields.lookup name with
  | none => .ok default
  | some value =>
    match read value with
    | some setting => .ok setting
    | none => .error (wrongKind name)

/-! ## Sections -/

def ruleFields : List String := ["enabled", "severity"]

/-- The section of one rule. -/
def readRule (name : String) (value : Value) : Except ConfigError (String × RuleSetting) :=
  match fields? ruleFields value with
  | none => .error (wrongKind name)
  | some fields => do
    let enabled ← setting fields "enabled" (fun v => (switch? v).map some) none
    let severity ← setting fields "severity" (fun v => (level? v).map some) none
    return (name, { enabled, severity })

def readRules : Value → Except ConfigError (List (String × RuleSetting))
  | .table entries => entries.mapM fun (name, value) => readRule name value
  | _ => .error (wrongKind "rules")

def linterFields : List String := ["include", "exclude", "max_fix_iterations"]

/-- The section on the linter. -/
def readLinter (value : Value) : Except ConfigError Settings :=
  match fields? linterFields value with
  | none => .error (wrongKind "linter")
  | some fields => do
    let defaults : Settings := {}
    let includes ← setting fields "include" texts? defaults.includes
    let excludes ← setting fields "exclude" texts? defaults.excludes
    let maxFixPasses ← setting fields "max_fix_iterations" count? defaults.maxFixPasses
    return { includes, excludes, maxFixPasses }

/-- The settings that a table of both sections gives. -/
def ofTable (table : List (String × Value)) : Except ConfigError Settings := do
  let settings ← (table.lookup "linter").elim (.ok {}) readLinter
  let rules ← (table.lookup "rules").elim (.ok []) readRules
  return { settings with rules }

/-- The settings that a file of this text gives. -/
def parse (source : String) : Except ConfigError Settings :=
  match Toml.parse? source with
  | none => .error (.malformed "invalid TOML")
  | some table => ofTable table

end Settings

end TemplateLint
