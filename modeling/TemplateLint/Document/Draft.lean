import TemplateLint.Document.Basic
import TemplateLint.Markup.Nesting

/-!
# Documents from pieces

Pieces are laid out one after the other: every token starts where the one before it stops, and a
node gets its id after its children. Elements stay open in a stack until their close tag comes.
-/

namespace TemplateLint

open Markup

/-! ## Drafts -/

/-- An element that is still open; `body` are its nodes so far. -/
structure OpenElement where
  name : List Char
  openTag : NodeId
  start : Position
  body : Array NodeId
  deriving Repr

/-- A document in the making: the nodes so far, the place reached, and where the next node goes. -/
structure Draft where
  slots : Array Slot
  here : Position
  openElements : List OpenElement
  top : Array NodeId
  deriving Repr

namespace Draft

def empty : Draft := ⟨#[], .start, [], #[]⟩

/-- Adds a node, which becomes the parent of its children. -/
def push (d : Draft) (location : Location) (content : Content) : NodeId × Draft :=
  let id := d.slots.size
  let adopt (slots : Array Slot) (child : NodeId) :=
    slots.modify child fun slot => { slot with parent := some id }
  let slots := content.children.foldl adopt d.slots
  (id, { d with slots := slots.push ⟨⟨location, content⟩, none, true⟩ })

/-- Puts a node into the innermost open element, or on top. -/
def attach (d : Draft) (id : NodeId) : Draft :=
  match d.openElements with
  | inner :: outer => { d with openElements := { inner with body := inner.body.push id } :: outer }
  | [] => { d with top := d.top.push id }

end Draft

/-- A step of the layout. -/
abbrev Layout := StateM Draft

namespace Layout

/-- Places a token here and goes past it. -/
def token (text : List Char) : Layout Token := fun d =>
  let stop := d.here.advance text
  (⟨String.ofList text, ⟨d.here, stop⟩⟩, { d with here := stop })

def here : Layout Position := fun d => (d.here, d)

/-- Adds a node that reaches from `start` to here. -/
def node (start : Position) (content : Content) : Layout NodeId := fun d =>
  d.push ⟨start, d.here⟩ content

/-! ## Tags and their parts -/

def erb (e : Erb) : Layout NodeId := do
  let start ← here
  let opening ← token e.opening.text
  let content ← token e.content
  let closing ← token e.closing
  node start (.erb opening content closing)

def valuePart : ValuePart → Layout NodeId
  | .literal text => do
    let start ← here
    let content ← token text
    node start (.literal content)
  | .erb e => erb e

def valueParts : List ValuePart → Layout (List NodeId)
  | [] => return []
  | part :: rest => do
    let id ← valuePart part
    let ids ← valueParts rest
    return id :: ids

def quoteMark : Option Quote → Layout (Option Token)
  | some quote => do
    let mark ← token [quote.char]
    return some mark
  | none => return none

def value (v : Value) : Layout NodeId := do
  let start ← here
  let openQuote ← quoteMark v.quote
  let children ← valueParts v.parts
  let closeQuote ← quoteMark v.quote
  node start (.attrValue openQuote children closeQuote)

def attr (a : Attribute) : Layout NodeId := do
  let start ← here
  let name ← token a.name
  match a.value with
  | none => node start (.attr name none none)
  | some v =>
    let equals ← token ['=']
    let id ← value v
    node start (.attr name (some equals) (some id))

/-- The nodes of a part: none for a blank that is not kept. -/
def tagPart (keepBlanks : Bool) : TagPart → Layout (List NodeId)
  | .blank text => do
    let start ← here
    let content ← token text
    if keepBlanks then
      let id ← node start (.whitespace content)
      return [id]
    else
      return []
  | .erb e => do
    let id ← erb e
    return [id]
  | .attr a => do
    let id ← attr a
    return [id]

def tagParts (keepBlanks : Bool) : List TagPart → Layout (List NodeId)
  | [] => return []
  | part :: rest => do
    let ids ← tagPart keepBlanks part
    let more ← tagParts keepBlanks rest
    return ids ++ more

def openTag (keepBlanks : Bool) (t : OpenTag) : Layout NodeId := do
  let start ← here
  let opening ← token ['<']
  let name ← token t.name
  let children ← tagParts keepBlanks t.parts
  let closing ← token t.closing
  node start (.openTag opening name children closing)

def closeTag (t : CloseTag) : Layout NodeId := do
  let start ← here
  let opening ← token ['<', '/']
  let name ← token t.name
  let trailing ← token t.trailing
  let closing ← token ['>']
  node start (.closeTag opening name (if t.trailing.isEmpty then none else some trailing) closing)

/-! ## Elements -/

def attach (id : NodeId) : Layout Unit := fun d => ((), d.attach id)

/-- Starts an element whose open tag is done, unless it holds nothing. -/
def beginElement (t : OpenTag) (start : Position) (tag : NodeId) : Layout Unit :=
  if t.opens then fun d =>
    ((), { d with openElements := ⟨t.lowerName, tag, start, #[]⟩ :: d.openElements })
  else do
    let id ← node start (.element tag [] none t.isVoid)
    attach id

/-- Ends an element without a close tag. -/
def endUnclosed (e : OpenElement) (stop : Position) : Layout NodeId := fun d =>
  d.push ⟨e.start, stop⟩ (.element e.openTag e.body.toList none false)

/-- Ends elements from the innermost on, up to the one of this name, which gets the close tag. -/
def endElements (name : List Char) (tag : NodeId) (before : Position) :
    (inner : Array NodeId) → List OpenElement → Layout Unit
  -- `inner` are the elements just ended, which stop where the close tag starts.
  | inner, [] => fun d => ((), { d with openElements := [], top := d.top ++ inner })
  | inner, e :: outer =>
    let e := { e with body := e.body ++ inner }
    if e.name = name then do
      let id ← node e.start (.element e.openTag e.body.toList (some tag) false)
      modify fun d => { d with openElements := outer }
      attach id
    else do
      let id ← endUnclosed e before
      endElements name tag before #[id] outer

/-- Ends an element by its close tag; a tag that closes none stands by itself. -/
def endByTag (t : CloseTag) (start : Position) (tag : NodeId) : Layout Unit := do
  let d ← get
  if d.openElements.any (·.name == t.lowerName) then
    endElements t.lowerName tag start #[] d.openElements
  else
    attach tag

/-- Ends all open elements at the end of the text. -/
def endAll : (inner : Array NodeId) → List OpenElement → Layout Unit
  | inner, [] => fun d => ((), { d with openElements := [], top := d.top ++ inner })
  | inner, e :: outer => do
    let stop ← here
    let id ← endUnclosed { e with body := e.body ++ inner } stop
    endAll #[id] outer

/-! ## Pieces -/

def threeParts (opening content closing : List Char) (make : Token → Token → Token → Content) :
    Layout Unit := do
  let start ← here
  let first ← token opening
  let middle ← token content
  let last ← token closing
  let id ← node start (make first middle last)
  attach id

def piece (keepBlanks : Bool) : Piece → Layout Unit
  | .text content => do
    let start ← here
    let content ← token content
    let id ← node start (.text content)
    attach id
  | .erb e => do
    let id ← erb e
    attach id
  | .comment content => threeParts commentOpening content commentClosing .comment
  | .doctype content => threeParts doctypeOpening content doctypeClosing .doctype
  | .openTag t => do
    let start ← here
    let tag ← openTag keepBlanks t
    beginElement t start tag
  | .closeTag t => do
    let start ← here
    let tag ← closeTag t
    endByTag t start tag

def pieces (keepBlanks : Bool) : List Piece → Layout Unit
  | [] => return ()
  | p :: rest => do
    piece keepBlanks p
    pieces keepBlanks rest

/-- All pieces, then the ends of what is still open, then the root. -/
def document (keepBlanks : Bool) (ps : List Piece) : Layout NodeId := do
  pieces keepBlanks ps
  let d ← get
  endAll #[] d.openElements
  let d ← get
  node .start (.document d.top.toList)

end Layout

/-- The document of some pieces. Blanks inside tags become nodes only if they are kept. -/
def Document.ofPieces (keepBlanks : Bool) (ps : List Piece) : Document :=
  let (root, draft) := (Layout.document keepBlanks ps).run .empty
  ⟨draft.slots, root⟩

end TemplateLint
