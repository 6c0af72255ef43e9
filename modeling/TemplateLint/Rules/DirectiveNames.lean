import TemplateLint.Rule
import TemplateLint.Text.EditDistance

/-!
# Directives name rules

Names in directives must be names of rules, no name may be repeated, and none may stand beside the
one for every rule. For an unknown name the nearest known one is suggested.
-/

namespace TemplateLint.Rules

open Text

namespace UnknownName

def descriptor : Descriptor where
  name := "herb-disable-comment-valid-rule-name"
  description := "Requires herb:disable comments to name existing rules"
  severity := .warning

/-- The greatest distance at which a name is suggested. -/
def reach : Nat := 3

/-- The name with the least distance; the first of several. -/
def nearest : List (Nat × String) → Option (Nat × String)
  | [] => none
  | candidate :: rest =>
    match nearest rest with
    | some best => if best.1 < candidate.1 then some best else some candidate
    | none => some candidate

/-- The nearest of the valid names, if one is near enough. -/
def suggestion? (name : String) (validNames : List String) : Option String :=
  let near := validNames.map fun valid => (editDistance name.toList valid.toList, valid)
  (nearest (near.filter (·.1 ≤ reach))).map (·.2)

def message (name : String) : Option String → String
  | some candidate => s!"Unknown rule `{name}`. Did you mean `{candidate}`?"
  | none => s!"Unknown rule `{name}`."

/-- Names with blanks in them are left to the rule on separators. -/
def isUnknown (c : Context) (e : Entry) : Bool :=
  e.name != everyRule && !e.name.toList.any isBlank && !c.isValid e.name

def check (d : Directive) (c : Context) : List Offense :=
  (d.entries.filter (isUnknown c)).map fun e =>
    descriptor.offense (message e.name (suggestion? e.name c.validNames)) e.location

end UnknownName

namespace RepeatedName

def descriptor : Descriptor where
  name := "herb-disable-comment-no-duplicate-rules"
  description := "Forbids repeated rule names in herb:disable comments"
  severity := .warning

def message (name : String) : String :=
  s!"Duplicate rule `{name}` in herb:disable comment. Remove the repeated name."

/-- The entries whose names are among `seen` or those of earlier entries. -/
def repeated (seen : List String) : List Entry → List Entry
  | [] => []
  | e :: rest =>
    if seen.contains e.name then e :: repeated seen rest else repeated (e.name :: seen) rest

def check (d : Directive) : List Offense :=
  (repeated [] d.entries).map fun e => descriptor.offense (message e.name) e.location

end RepeatedName

namespace RedundantName

def descriptor : Descriptor where
  name := "herb-disable-comment-no-redundant-all"
  description := "Forbids rule names next to `all` in herb:disable comments"
  severity := .warning

def message (name : String) : String :=
  s!"Redundant rule `{name}`: `all` already disables every rule."

def check (d : Directive) : List Offense :=
  if d.disablesEvery then
    (d.entries.filter (·.name != everyRule)).map fun e =>
      descriptor.offense (message e.name) e.location
  else []

end RedundantName

def unknownName : Rule := .directive (.plain UnknownName.descriptor UnknownName.check)

def repeatedName : Rule :=
  .directive (.plain RepeatedName.descriptor fun d _ => RepeatedName.check d)

def redundantName : Rule :=
  .directive (.plain RedundantName.descriptor fun d _ => RedundantName.check d)

end TemplateLint.Rules
