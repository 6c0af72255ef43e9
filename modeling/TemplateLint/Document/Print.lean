import TemplateLint.Document.Basic

/-!
# The text of a document

A node's text is its own tokens around the texts of its children. A child that is no longer live
has no text.
-/

namespace TemplateLint

/-- A node's text, from the texts of its children. -/
def Content.render (child : NodeId → List Char) : Content → List Char
  | document children => children.flatMap child
  | element first body last _ => child first ++ body.flatMap child ++ last.toList.flatMap child
  | openTag opening name children closing =>
    opening.chars ++ name.chars ++ children.flatMap child ++ closing.chars
  | closeTag opening name trailing closing =>
    opening.chars ++ name.chars ++ trailing.toList.flatMap Token.chars ++ closing.chars
  | attr name equals value =>
    name.chars ++ equals.toList.flatMap Token.chars ++ value.toList.flatMap child
  | attrValue openQuote children closeQuote =>
    openQuote.toList.flatMap Token.chars ++ children.flatMap child ++
      closeQuote.toList.flatMap Token.chars
  | literal content => content.chars
  | text content => content.chars
  | whitespace content => content.chars
  | erb opening content closing => opening.chars ++ content.chars ++ closing.chars
  | comment opening content closing => opening.chars ++ content.chars ++ closing.chars
  | doctype opening content closing => opening.chars ++ content.chars ++ closing.chars

/-- The same text in front of `rest`; `child` puts the text of a child in front of what follows it.
-/
def Content.renderOnto (child : NodeId → List Char → List Char) (rest : List Char) :
    Content → List Char
  | document children => children.foldr child rest
  | element first body last _ => child first (body.foldr child (last.toList.foldr child rest))
  | openTag opening name children closing =>
    opening.chars ++ name.chars ++ children.foldr child (closing.chars ++ rest)
  | closeTag opening name trailing closing =>
    opening.chars ++ name.chars ++ trailing.toList.flatMap Token.chars ++ closing.chars ++ rest
  | attr name equals value =>
    name.chars ++ equals.toList.flatMap Token.chars ++ value.toList.foldr child rest
  | attrValue openQuote children closeQuote =>
    openQuote.toList.flatMap Token.chars ++
      children.foldr child (closeQuote.toList.flatMap Token.chars ++ rest)
  | literal content => content.chars ++ rest
  | text content => content.chars ++ rest
  | whitespace content => content.chars ++ rest
  | erb opening content closing => opening.chars ++ content.chars ++ closing.chars ++ rest
  | comment opening content closing => opening.chars ++ content.chars ++ closing.chars ++ rest
  | doctype opening content closing => opening.chars ++ content.chars ++ closing.chars ++ rest

theorem Content.renderOnto_eq (child : NodeId → List Char) (rest : List Char) (content : Content) :
    content.renderOnto (fun id later => child id ++ later) rest = content.render child ++ rest := by
  have children (ids : List NodeId) (later : List Char) :
      ids.foldr (fun id later => child id ++ later) later = ids.flatMap child ++ later := by
    induction ids with
    | nil => rfl
    | cons first others ih => simp [ih]
  cases content <;> simp only [renderOnto, render, children, List.append_assoc]

namespace Document

/-- The text of a node down to `depth` levels below it. -/
def textTo (d : Document) : (depth : Nat) → NodeId → List Char
  | 0, _ => []
  | depth + 1, id =>
    match d.get? id with
    | some node => node.content.render (d.textTo depth)
    | none => []

/-- The same text in front of `rest`, each token put in its place once, however deep it is. -/
def textOnto (d : Document) : (depth : Nat) → NodeId → (rest : List Char) → List Char
  | 0, _, rest => rest
  | depth + 1, id, rest =>
    match d.get? id with
    | some node => node.content.renderOnto (d.textOnto depth) rest
    | none => rest

theorem textOnto_eq (d : Document) (depth : Nat) (id : NodeId) (rest : List Char) :
    d.textOnto depth id rest = d.textTo depth id ++ rest := by
  induction depth generalizing id rest with
  | zero => rfl
  | succ depth ih =>
    have children : d.textOnto depth = fun id later => d.textTo depth id ++ later := by
      funext id later
      exact ih id later
    simp only [textOnto, textTo]
    split
    · rw [children, Content.renderOnto_eq]
    · rfl

/-- The text of a node. No chain of distinct nodes is longer than the table. -/
def text (d : Document) (id : NodeId) : List Char := d.textOnto d.slots.size id []

theorem text_eq (d : Document) (id : NodeId) : d.text id = d.textTo d.slots.size id := by
  simp [text, textOnto_eq]

/-- The text of the whole document. -/
def print (d : Document) : String := String.ofList (d.text d.root)

end Document

end TemplateLint
