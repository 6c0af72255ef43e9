import TemplateLint.Rule
import TemplateLint.Settings

/-!
# Registries

Rules in the order in which they were added, no two of one name.
-/

namespace TemplateLint

structure Registry where
  rules : List Rule

namespace Registry

def empty : Registry := ⟨[]⟩

def descriptors (r : Registry) : List Descriptor := r.rules.map (·.descriptor)

def names (r : Registry) : List String := r.rules.map (·.name)

def contains (r : Registry) (name : String) : Bool := r.names.contains name

def size (r : Registry) : Nat := r.rules.length

/-- The names in quotes, for a reader of the program. -/
def display (r : Registry) : String :=
  let quoted := ", ".intercalate (r.names.map fun name => s!"\"{name}\"")
  s!"[{quoted}]"

/-- Adds a rule unless its name is taken. -/
def register (r : Registry) (rule : Rule) : Except ConfigError Registry :=
  if r.contains rule.name then .error (.duplicateRule rule.name) else .ok ⟨r.rules ++ [rule]⟩

/-- Adds rules in order, up to the first whose name is taken. -/
def registerAll (r : Registry) : List Rule → Except ConfigError Registry
  | [] => .ok r
  | rule :: rest =>
    match r.register rule with
    | .error e => .error e
    | .ok r => r.registerAll rest

end Registry

end TemplateLint
