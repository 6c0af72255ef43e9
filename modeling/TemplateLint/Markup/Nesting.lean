import TemplateLint.Markup.Basic
import TemplateLint.Text.Case.Ascii

/-!
# Open elements

The elements that are open after some pieces, by their names in small letters, innermost first.
A void or self-closing tag opens none. A close tag closes the innermost element of its name and
all that it holds; without one it closes nothing.
-/

namespace TemplateLint.Markup

open Text

/-- Elements that never have content. -/
def voidNames : List (List Char) :=
  ["area", "base", "br", "col", "embed", "hr", "img", "input", "link", "meta", "param", "source",
    "track", "wbr"].map String.toList

/-- Elements whose content is text up to their close tag. -/
def rawTextNames : List (List Char) := ["script", "style"].map String.toList

def OpenTag.lowerName (t : OpenTag) : List Char := asciiLower t.name

def CloseTag.lowerName (t : CloseTag) : List Char := asciiLower t.name

def OpenTag.isVoid (t : OpenTag) : Bool := voidNames.contains t.lowerName

/-- Whether the tag leaves its element open. -/
def OpenTag.opens (t : OpenTag) : Bool := !t.isVoid && !t.selfClosing

/-- The names of the open elements, innermost first. -/
abbrev Nesting := List (List Char)

namespace Nesting

/-- Closes the innermost element of this name, if there is one. -/
def close (open_ : Nesting) (name : List Char) : Nesting :=
  match open_.dropWhile (· != name) with
  | _ :: outer => outer
  | [] => open_

def after (open_ : Nesting) : Piece → Nesting
  | .openTag t => if t.opens then t.lowerName :: open_ else open_
  | .closeTag t => open_.close t.lowerName
  | _ => open_

/-- The name of the innermost element if its content is raw text. -/
def rawText? : Nesting → Option (List Char)
  | name :: _ => if rawTextNames.contains name then some name else none
  | [] => none

end Nesting

end TemplateLint.Markup
