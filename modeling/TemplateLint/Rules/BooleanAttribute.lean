import TemplateLint.Document.Visit
import TemplateLint.Rule
import TemplateLint.Text.Case.Ascii

/-!
# Boolean attributes have no value

A value made by embedded Ruby is left alone: it may drop the attribute when the page is made.
-/

namespace TemplateLint.Rules.BooleanAttribute

def descriptor : Descriptor where
  name := "html-boolean-attributes-no-value"
  description := "Forbids values on boolean attributes"
  hasSafeFix := true

/-- The attributes that are true by being there. -/
def booleanNames : List String :=
  ["allowfullscreen", "async", "autofocus", "autoplay", "checked", "controls", "default", "defer",
    "disabled", "formnovalidate", "hidden", "inert", "ismap", "itemscope", "loop", "multiple",
    "muted", "nomodule", "novalidate", "open", "playsinline", "readonly", "required", "reversed",
    "selected"]

def isBoolean (name : String) : Bool := booleanNames.any (Text.sameLetters name)

/-! ## Check -/

def message (name : String) : String :=
  s!"Boolean attribute `{name}` should not have a value. Use `{name}` instead of `{name}=\"{name}\"`."

def isErb (d : Document) (id : NodeId) : Bool :=
  match d.get? id with
  | some ⟨_, .erb ..⟩ => true
  | _ => false

def isAttr : Content → Bool
  | .attr .. => true
  | _ => false

def checkVisit (d : Document) (v : Visit) : List Offense :=
  match v.node.content with
  | .attr name _ (some value) =>
    if isBoolean name.text && !(d.children value).any (isErb d) then
      [descriptor.fixable (message name.text) v.node.location v.id]
    else []
  | _ => []

def check (d : Document) : List Offense :=
  (d.visits fun v => isAttr v.node.content).flatMap (checkVisit d)

/-! ## Fix -/

def fix (id : NodeId) : Edit Bool := do
  let node ← Edit.node id
  match node.content with
  | .attr name equals value =>
    if equals.isNone && value.isNone then return false
    else
      let _ ← Edit.replace id ⟨name.location, .attr name none none⟩
      return true
  | _ => return false

end Rules.BooleanAttribute

def Rules.booleanAttribute : Rule :=
  .document (.plain BooleanAttribute.descriptor BooleanAttribute.check BooleanAttribute.fix)

end TemplateLint
