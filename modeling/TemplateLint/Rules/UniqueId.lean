import TemplateLint.Document.Visit
import TemplateLint.Rule
import TemplateLint.Text.Blank
import TemplateLint.Text.Case.Ascii

/-!
# Ids are unique

The rule notes every id with its place, and gives up its notes when a new document begins. Ids with
embedded Ruby in them cannot be compared and are left out.
-/

namespace TemplateLint.Rules.UniqueId

def descriptor : Descriptor where
  name := "html-no-duplicate-ids"
  description := "Forbids duplicate id attributes in a document"

def message (text : String) (line : Nat) : String :=
  s!"Duplicate ID `{text}` found. IDs must be unique within a document (first defined at line {line})."

/-- The text of some nodes if all of them are literals. -/
def literalText? (d : Document) : List NodeId → Option (List Char)
  | [] => some []
  | id :: rest =>
    match d.get? id with
    | some ⟨_, .literal content⟩ => (literalText? d rest).map (content.chars ++ ·)
    | _ => none

/-- The id that an attribute gives its element, with the place of its value. -/
def idNote? (d : Document) : Content → Option Note
  | .attr name _ (some value) =>
    if Text.sameLetters name.text "id" then
      match literalText? d (d.children value), d.location? value with
      | some chars, some location =>
        let text := Text.trim chars
        if text.isEmpty then none else some ⟨String.ofList text, location⟩
      | _, _ => none
    else none
  | _ => none

def isAttr : Content → Bool
  | .attr .. => true
  | _ => false

/-- Compares each id with those noted before it, and notes those that are new. -/
def compare (notes : List Note) : List Note → List Offense × List Note
  | [] => ([], notes)
  | new :: rest =>
    match notes.find? (·.text == new.text) with
    | some first =>
      let (offenses, notes) := compare notes rest
      (descriptor.offense (message new.text first.location.start.line) new.location ::
        offenses, notes)
    | none => compare (notes ++ [new]) rest

def check (d : Document) (notes : List Note) : List Offense × List Note :=
  let ids := (d.visits fun v => isAttr v.node.content).filterMap fun v => idNote? d v.node.content
  compare notes ids

end Rules.UniqueId

def Rules.uniqueId : Rule := .document
  { descriptor := UniqueId.descriptor
    reset := fun _ => []
    check := fun d _ notes => .ok (UniqueId.check d notes) }

end TemplateLint
