import TemplateLint.Offense

/-!
# Rules by name

What is known of the rules of a run: their descriptors, which names are valid, which rules are
enabled, and which severities are set.
-/

namespace TemplateLint

/-! ## Descriptors -/

structure Descriptor where
  name : String
  description : String
  severity : Severity := .error
  hasSafeFix : Bool := false
  hasRiskyFix : Bool := false
  enabledByDefault : Bool := true
  deriving DecidableEq, Repr

namespace Descriptor

/-- How safe the rule's fixes are, if it has any. -/
def safety? (d : Descriptor) : Option Safety :=
  if d.hasSafeFix then some .safe else if d.hasRiskyFix then some .risky else none

/-- An offense against the rule. -/
def offense (d : Descriptor) (message : String) (location : Location) : Offense :=
  { rule := d.name, message, severity := d.severity, location }

/-- An offense that replacing `node` would mend, if the rule has fixes. -/
def fixable (d : Descriptor) (message : String) (location : Location) (node : NodeId) : Offense :=
  { d.offense message location with fix := d.safety?.map fun safety => ⟨node, safety⟩ }

end Descriptor

/-! ## Names in order -/

/-- Names sorted, each once. -/
def sortNames (names : List String) : List String :=
  (names.mergeSort fun a b => decide (a ≤ b)).eraseReps

/-! ## The context of a run -/

/-- What every rule may look at. Both lists of names are sorted and hold each name once. -/
structure Context where
  validNames : List String := []
  enabledNames : List String := []
  severities : List (String × Severity) := []
  fileName : Option String := none
  deriving DecidableEq, Repr

namespace Context

def isValid (c : Context) (name : String) : Bool := c.validNames.contains name

def isEnabled (c : Context) (name : String) : Bool := c.enabledNames.contains name

/-- The severity set for a rule, if one is. -/
def severity? (c : Context) (name : String) : Option Severity := c.severities.lookup name

/-- The file's name, or a dash for a text without one. -/
def displayName (c : Context) : String := c.fileName.getD "-"

end Context

end TemplateLint
