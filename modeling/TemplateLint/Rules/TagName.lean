import TemplateLint.Document.Visit
import TemplateLint.Rule
import TemplateLint.Text.Case.Ascii
import TemplateLint.Text.Case.Lower

/-!
# Tag names are lowercase

Names inside an `svg` element are case-sensitive and left alone; the tags of the element itself are
not.
-/

namespace TemplateLint.Rules.TagName

def descriptor : Descriptor where
  name := "html-tag-name-lowercase"
  description := "Requires lowercase HTML tag names"
  hasSafeFix := true

/-- The name in lowercase, unless it is that already. -/
def lowered? (name : String) : Option String :=
  let lower := Text.Case.lower name
  if lower = name then none else some lower

/-! ## Check -/

def openOffense (name lower : String) : String :=
  s!"Opening tag name `<{name}>` should be lowercase. Use `<{lower}>` instead."

def closeOffense (name lower : String) : String :=
  s!"Closing tag name `</{name}>` should be lowercase. Use `</{lower}>` instead."

/-- The offense of one tag, if its name is not lowercase. -/
def checkTag (id : NodeId) : Content → List Offense
  | .openTag _ name _ _ =>
    (lowered? name.text).toList.map fun lower =>
      descriptor.fixable (openOffense name.text lower) name.location id
  | .closeTag _ name _ _ =>
    (lowered? name.text).toList.map fun lower =>
      descriptor.fixable (closeOffense name.text lower) name.location id
  | _ => []

/-- The offense of a tag that an element names as its own, if it is a tag of that kind. -/
def checkOwnTag (d : Document) (isOwn : Content → Bool) (id : NodeId) : List Offense :=
  match d.get? id with
  | some node => if isOwn node.content then checkTag id node.content else []
  | none => []

def isSvg (d : Document) (id : NodeId) : Bool := (d.tagName? id).any (Text.sameLetters "svg")

def checkVisit (d : Document) (v : Visit) : List Offense :=
  match v.node.content with
  | .element first _ last _ =>
    if isSvg d v.id then
      checkOwnTag d Content.isOpenTag first ++
        last.toList.flatMap (checkOwnTag d Content.isCloseTag)
    else []
  | content => checkTag v.id content

def check (d : Document) : List Offense := (d.visits fun v => isSvg d v.id).flatMap (checkVisit d)

/-! ## Fix -/

/-- The content with its tag name in lowercase, unless it is that already or is no tag. -/
def lowerTag? : Content → Option Content
  | .openTag opening name children closing =>
    (lowered? name.text).map fun lower =>
      .openTag opening { name with text := lower } children closing
  | .closeTag opening name trailing closing =>
    (lowered? name.text).map fun lower =>
      .closeTag opening { name with text := lower } trailing closing
  | _ => none

def fix (id : NodeId) : Edit Bool := do
  let node ← Edit.node id
  match lowerTag? node.content with
  | none => return false
  | some content =>
    let _ ← Edit.replace id { node with content }
    return true

end Rules.TagName

def Rules.tagName : Rule := .document (.plain TagName.descriptor TagName.check TagName.fix)

end TemplateLint
