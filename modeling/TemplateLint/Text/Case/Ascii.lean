/-!
# Case of ASCII letters
-/

namespace TemplateLint.Text

/-- Small letters for the capitals of ASCII, all else as it stands. -/
def asciiLower (s : List Char) : List Char := s.map Char.toLower

def isAsciiLetter (c : Char) : Bool := c.isAlpha

/-- Whether two texts differ at most in the case of ASCII letters. -/
def sameLetters (a b : String) : Bool := asciiLower a.toList == asciiLower b.toList

/-- Whether a text starts with `mark`, up to the case of ASCII letters. -/
def startsWithLetters (mark s : List Char) : Bool :=
  (asciiLower mark).isPrefixOf (asciiLower (s.take mark.length))

end TemplateLint.Text
