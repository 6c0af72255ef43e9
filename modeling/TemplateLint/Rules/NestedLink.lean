import TemplateLint.Document.Visit
import TemplateLint.Rule
import TemplateLint.Text.Case.Ascii

/-!
# Links hold no links
-/

namespace TemplateLint.Rules.NestedLink

def descriptor : Descriptor where
  name := "html-no-nested-links"
  description := "Forbids links nested inside other links"

def message : String := "Nested `<a>` elements are not allowed. Links cannot contain other links."

def isLink (name : String) : Bool := Text.sameLetters name "a"

/-- Whether a node is an element for a link. -/
def isLinkNode (d : Document) (id : NodeId) : Bool := (d.tagName? id).any isLink

def checkVisit (d : Document) (v : Visit) : List Offense :=
  match v.node.content with
  | .element first _ _ _ =>
    if isLinkNode d v.id && v.ancestors.any (isLinkNode d) then
      (d.location? first).toList.map (descriptor.offense message)
    else []
  | _ => []

def check (d : Document) : List Offense := d.allVisits.flatMap (checkVisit d)

end Rules.NestedLink

def Rules.nestedLink : Rule :=
  .document (.plain NestedLink.descriptor NestedLink.check fun _ => pure false)

end TemplateLint
