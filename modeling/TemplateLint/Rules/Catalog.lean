import TemplateLint.Registry
import TemplateLint.Rules.BooleanAttribute
import TemplateLint.Rules.DirectiveNames
import TemplateLint.Rules.DirectiveShape
import TemplateLint.Rules.NestedLink
import TemplateLint.Rules.QuotedValue
import TemplateLint.Rules.TagName
import TemplateLint.Rules.UniqueId

/-!
# The catalog of rules
-/

namespace TemplateLint.Rules

/-- The rules on directives. -/
def directiveRules : List Rule :=
  [malformedDirective, emptyDirective, unknownName, repeatedName, redundantName]

/-- The rules on documents. -/
def documentRules : List Rule := [tagName, quotedValue, booleanAttribute, uniqueId, nestedLink]

inductive Preset where
  | recommended
  | minimal
  deriving DecidableEq, Repr

/-- A minimal set checks directives only; the recommended one holds every rule. -/
def Preset.rules : Preset → List Rule
  | recommended => directiveRules ++ documentRules
  | minimal => directiveRules

def Preset.registry (p : Preset) : Except ConfigError Registry := Registry.empty.registerAll p.rules

/-- The rule of this name in the catalog. -/
def find? (name : String) : Option Rule := Preset.recommended.rules.find? (·.name == name)

end TemplateLint.Rules
