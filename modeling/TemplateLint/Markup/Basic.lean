/-!
# Markup as a flat list of pieces

A template is read as a list of pieces: text, embedded Ruby, comments, doctypes, open tags and
close tags. A piece keeps each of its characters, so `text` gives back what was read.
-/

namespace TemplateLint.Markup

/-! ## Embedded Ruby -/

inductive ErbOpening where
  | rawOutput
  | output
  | comment
  | trimmed
  | plain
  deriving DecidableEq, Repr

def ErbOpening.text : ErbOpening → List Char
  | rawOutput => ['<', '%', '=', '=']
  | output => ['<', '%', '=']
  | comment => ['<', '%', '#']
  | trimmed => ['<', '%', '-']
  | plain => ['<', '%']

/-- An embedded Ruby tag; `trimsEnd` tells the closing `-%>` from `%>`. -/
structure Erb where
  opening : ErbOpening
  content : List Char
  trimsEnd : Bool
  deriving DecidableEq, Repr

def Erb.closing (e : Erb) : List Char := if e.trimsEnd then ['-', '%', '>'] else ['%', '>']

def Erb.text (e : Erb) : List Char := e.opening.text ++ e.content ++ e.closing

/-! ## Attributes -/

inductive Quote where
  | double
  | single
  deriving DecidableEq, Repr

def Quote.char : Quote → Char
  | double => '"'
  | single => '\''

inductive ValuePart where
  | literal (text : List Char)
  | erb (tag : Erb)
  deriving DecidableEq, Repr

def ValuePart.text : ValuePart → List Char
  | literal t => t
  | erb e => e.text

structure Value where
  quote : Option Quote
  parts : List ValuePart
  deriving DecidableEq, Repr

def Value.text (v : Value) : List Char :=
  let marks := (v.quote.map Quote.char).toList
  marks ++ v.parts.flatMap ValuePart.text ++ marks

/-- An attribute has an equals sign exactly when it has a value, which may be empty. -/
structure Attribute where
  name : List Char
  value : Option Value
  deriving DecidableEq, Repr

def Attribute.text (a : Attribute) : List Char :=
  match a.value with
  | some v => a.name ++ '=' :: v.text
  | none => a.name

/-! ## Tags -/

/-- What an open tag holds after its name. -/
inductive TagPart where
  | blank (text : List Char)
  | erb (tag : Erb)
  | attr (attr : Attribute)
  deriving DecidableEq, Repr

def TagPart.text : TagPart → List Char
  | blank t => t
  | erb e => e.text
  | attr a => a.text

structure OpenTag where
  name : List Char
  parts : List TagPart
  selfClosing : Bool
  deriving DecidableEq, Repr

def OpenTag.closing (t : OpenTag) : List Char := if t.selfClosing then ['/', '>'] else ['>']

def OpenTag.text (t : OpenTag) : List Char :=
  '<' :: t.name ++ t.parts.flatMap TagPart.text ++ t.closing

/-- A close tag; `trailing` are the blanks after its name. -/
structure CloseTag where
  name : List Char
  trailing : List Char
  deriving DecidableEq, Repr

def CloseTag.text (t : CloseTag) : List Char := '<' :: '/' :: t.name ++ t.trailing ++ ['>']

/-! ## Pieces -/

inductive Piece where
  | text (content : List Char)
  | erb (tag : Erb)
  | comment (content : List Char)
  | doctype (content : List Char)
  | openTag (tag : OpenTag)
  | closeTag (tag : CloseTag)
  deriving DecidableEq, Repr

def commentOpening : List Char := ['<', '!', '-', '-']
def commentClosing : List Char := ['-', '-', '>']
def doctypeOpening : List Char := ['<', '!']
def doctypeClosing : List Char := ['>']

def Piece.source : Piece → List Char
  | text t => t
  | erb e => e.text
  | comment t => commentOpening ++ t ++ commentClosing
  | doctype t => doctypeOpening ++ t ++ doctypeClosing
  | openTag t => t.text
  | closeTag t => t.text

end TemplateLint.Markup
