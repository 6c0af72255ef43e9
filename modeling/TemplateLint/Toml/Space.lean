/-!
# Blanks, lines and comments of TOML
-/

namespace TemplateLint.Toml

def isSpace (c : Char) : Bool := c = ' ' || c = '\t'

/-- What may stand in a comment or a string: everything but control characters, and the tab. -/
def isPrintable (c : Char) : Bool := c = '\t' || (' ' ≤ c && c ≤ '~') || '\x80' ≤ c

def skipSpaces (cs : List Char) : List Char := cs.dropWhile isSpace

/-- What follows the end of a line. -/
def afterNewline? : List Char → Option (List Char)
  | '\n' :: rest => some rest
  | '\r' :: '\n' :: rest => some rest
  | _ => none

/-- Goes past spaces and ends of lines. -/
def skipLines : List Char → List Char
  | '\r' :: '\n' :: rest => skipLines rest
  | c :: rest => if c = '\n' || isSpace c then skipLines rest else c :: rest
  | [] => []

/-- Goes past spaces, ends of lines and comments. -/
def skipGap (inComment : Bool) : List Char → List Char
  | '\r' :: '\n' :: rest => skipGap false rest
  | c :: rest =>
    if c = '\n' then skipGap false rest
    else if inComment then if isPrintable c then skipGap true rest else c :: rest
    else if isSpace c then skipGap false rest
    else if c = '#' then skipGap true rest
    else c :: rest
  | [] => []

/-- What follows a line of which only spaces and a comment are left. -/
def afterLine? (cs : List Char) : Option (List Char) :=
  let rest := match skipSpaces cs with
    | '#' :: comment => comment.dropWhile isPrintable
    | rest => rest
  if rest.isEmpty then some [] else afterNewline? rest

end TemplateLint.Toml
