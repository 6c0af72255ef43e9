import TemplateLint.Offense

/-!
# Documents

A document is a table of nodes under fixed ids. A slot of the table keeps its node for good; a node
that was replaced is no longer live. Nodes name their children, slots name their parents.
-/

namespace TemplateLint

/-- A stretch of text and where it stands. -/
structure Token where
  text : String
  location : Location
  deriving DecidableEq, Repr

def Token.chars (t : Token) : List Char := t.text.toList

/-! ## Nodes -/

/-- What a node is, with its own text and the ids of its children. -/
inductive Content where
  | document (children : List NodeId)
  | element (openTag : NodeId) (body : List NodeId) (closeTag : Option NodeId) (isVoid : Bool)
  | openTag (opening name : Token) (children : List NodeId) (closing : Token)
  | closeTag (opening name : Token) (trailing : Option Token) (closing : Token)
  | attr (name : Token) (equals : Option Token) (value : Option NodeId)
  | attrValue (openQuote : Option Token) (children : List NodeId) (closeQuote : Option Token)
  | literal (content : Token)
  | text (content : Token)
  | whitespace (content : Token)
  | erb (opening content closing : Token)
  | comment (opening content closing : Token)
  | doctype (opening content closing : Token)
  deriving DecidableEq, Repr

namespace Content

def kindName : Content → String
  | document .. => "document"
  | element .. => "element"
  | openTag .. => "open-tag"
  | closeTag .. => "close-tag"
  | attr .. => "attribute"
  | attrValue .. => "attribute-value"
  | literal .. => "literal"
  | text .. => "text"
  | whitespace .. => "whitespace"
  | erb .. => "erb-content"
  | comment .. => "html-comment"
  | doctype .. => "doctype"

/-- The ids of the children in order of the text. -/
def children : Content → List NodeId
  | document children => children
  | element first body last _ => first :: body ++ last.toList
  | openTag _ _ children _ => children
  | attr _ _ value => value.toList
  | attrValue _ children _ => children
  | _ => []

/-- Whether this is a comment of embedded Ruby. -/
def isErbComment : Content → Bool
  | erb opening _ _ => opening.text == "<%#"
  | _ => false

def isOpenTag : Content → Bool
  | openTag .. => true
  | _ => false

def isCloseTag : Content → Bool
  | closeTag .. => true
  | _ => false

end Content

/-- Puts `new` in place of the first `old`. -/
def replaceFirst (old new : NodeId) : List NodeId → List NodeId
  | [] => []
  | id :: rest => if id = old then new :: rest else id :: replaceFirst old new rest

namespace Content

/-- Puts `new` in the first place, in order of the text, that names `old`. -/
def redirect (old new : NodeId) : Content → Content
  | document children => document (replaceFirst old new children)
  | element first body last isVoid =>
    if first = old then element new body last isVoid
    else if body.contains old then element first (replaceFirst old new body) last isVoid
    else element first body (last.map fun id => if id = old then new else id) isVoid
  | openTag opening name children closing =>
    openTag opening name (replaceFirst old new children) closing
  | attr name equals value => attr name equals (value.map fun id => if id = old then new else id)
  | attrValue openQuote children closeQuote =>
    attrValue openQuote (replaceFirst old new children) closeQuote
  | leaf => leaf

end Content

structure Node where
  location : Location
  content : Content
  deriving DecidableEq, Repr

def Node.children (n : Node) : List NodeId := n.content.children

/-! ## The table -/

structure Slot where
  node : Node
  parent : Option NodeId
  live : Bool
  deriving DecidableEq, Repr

structure Document where
  slots : Array Slot
  root : NodeId
  deriving DecidableEq, Repr

namespace Document

/-- The node of an id that is live. -/
def get? (d : Document) (id : NodeId) : Option Node :=
  match d.slots[id]? with
  | some slot => if slot.live then some slot.node else none
  | none => none

def isLive (d : Document) (id : NodeId) : Bool := (d.get? id).isSome

/-- The parent of a live node. -/
def parent? (d : Document) (id : NodeId) : Option NodeId :=
  match d.slots[id]? with
  | some slot => if slot.live then slot.parent else none
  | none => none

/-- The children that a live node names. -/
def children (d : Document) (id : NodeId) : List NodeId :=
  match d.get? id with
  | some node => node.children
  | none => []

/-- The number of live nodes. -/
def size (d : Document) : Nat := d.slots.toList.countP (·.live)

def isEmpty (d : Document) : Bool := (d.children d.root).isEmpty

/-- The name in the open tag of a live element. -/
def tagName? (d : Document) (id : NodeId) : Option String :=
  match d.get? id with
  | some ⟨_, .element openTag _ _ _⟩ =>
    match d.get? openTag with
    | some ⟨_, .openTag _ name _ _⟩ => some name.text
    | _ => none
  | _ => none

/-- The location of a live node. -/
def location? (d : Document) (id : NodeId) : Option Location := (d.get? id).map (·.location)

end Document

end TemplateLint
