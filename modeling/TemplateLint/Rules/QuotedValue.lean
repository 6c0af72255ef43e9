import TemplateLint.Document.Visit
import TemplateLint.Rule

/-!
# Attribute values are quoted

The fix takes double quotes, or single ones around a value with a double quote in it. If a value
has both, its double quotes are written as references first.
-/

namespace TemplateLint.Rules.QuotedValue

def descriptor : Descriptor where
  name := "html-attribute-values-require-quotes"
  description := "Requires attribute values to be quoted"
  hasSafeFix := true

/-! ## Check -/

/-- The text of a part of a value, embedded Ruby included. -/
def partSource (d : Document) (id : NodeId) : String :=
  match d.get? id with
  | some ⟨_, .literal content⟩ => content.text
  | some ⟨_, .erb opening content closing⟩ => opening.text ++ content.text ++ closing.text
  | _ => ""

/-- The name of the attribute that a node is, or nothing. -/
def attrName (d : Document) (id : Option NodeId) : String :=
  match id.bind d.get? with
  | some ⟨_, .attr name _ _⟩ => name.text
  | _ => ""

def message (name value : String) : String :=
  s!"Attribute value should be quoted: `{name}=\"{value}\"`. Always wrap attribute values in quotes."

def isAttrValue : Content → Bool
  | .attrValue .. => true
  | _ => false

def checkVisit (d : Document) (v : Visit) : List Offense :=
  match v.node.content with
  | .attrValue none (first :: rest) _ =>
    let value := String.join ((first :: rest).map (partSource d))
    [descriptor.fixable (message (attrName d v.parent?) value) v.node.location v.id]
  | _ => []

def check (d : Document) : List Offense :=
  (d.visits fun v => isAttrValue v.node.content).flatMap (checkVisit d)

/-! ## Fix -/

/-- The literal text of a value, without embedded Ruby. -/
def literalText (d : Document) (children : List NodeId) : List Char :=
  children.flatMap fun id =>
    match d.get? id with
    | some ⟨_, .literal content⟩ => content.chars
    | _ => []

/-- Writes a double quote as a reference. -/
def escapeQuotes (text : List Char) : List Char :=
  text.flatMap fun c => if c = '"' then "&quot;".toList else [c]

/-- Writes the double quotes of the literals among some nodes as references. -/
def escapeLiterals : List NodeId → Edit Unit
  | [] => return ()
  | id :: rest => do
    let node ← Edit.node id
    match node.content with
    | .literal content =>
      if content.chars.contains '"' then
        let escaped := String.ofList (escapeQuotes content.chars)
        let _ ← Edit.replace id { node with content := .literal { content with text := escaped } }
    | _ => pure ()
    escapeLiterals rest

/-- Puts quotes around a value, at its two ends. -/
def quoteWith (id : NodeId) (quote : String) : Edit Bool := do
  let node ← Edit.node id
  match node.content with
  | .attrValue _ children _ =>
    let start := node.location.start
    let stop := node.location.stop
    let content := .attrValue (some ⟨quote, ⟨start, start⟩⟩) children (some ⟨quote, ⟨stop, stop⟩⟩)
    let _ ← Edit.replace id { node with content }
    return true
  | _ => return false

def fix (id : NodeId) : Edit Bool := do
  let node ← Edit.node id
  match node.content with
  | .attrValue none children _ =>
    let text := literalText (← get) children
    if text.contains '"' then
      if text.contains '\'' then
        escapeLiterals children
        quoteWith id "\""
      else quoteWith id "'"
    else quoteWith id "\""
  | _ => return false

end Rules.QuotedValue

def Rules.quotedValue : Rule :=
  .document (.plain QuotedValue.descriptor QuotedValue.check QuotedValue.fix)

end TemplateLint
