/-!
# Digits
-/

namespace TemplateLint.Toml

def isDecimal (c : Char) : Bool := '0' ≤ c && c ≤ '9'

def isOctal (c : Char) : Bool := '0' ≤ c && c ≤ '7'

def isBinary (c : Char) : Bool := c = '0' || c = '1'

def isHex (c : Char) : Bool := isDecimal c || ('a' ≤ c && c ≤ 'f') || ('A' ≤ c && c ≤ 'F')

/-- The value of a digit up to `f`. -/
def digitValue (c : Char) : Nat :=
  if c ≤ '9' then c.toNat - '0'.toNat
  else if c ≤ 'F' then c.toNat - 'A'.toNat + 10
  else c.toNat - 'a'.toNat + 10

/-- The number that digits write. -/
def digitsValue (base : Nat) (digits : List Char) : Nat :=
  digits.foldl (fun n c => n * base + digitValue c) 0

/-- Reads one digit or more; single underscores may stand between them. -/
def readDigits (isDigit : Char → Bool) : List Char → Option (List Char × List Char)
  | [] => none
  | c :: rest =>
    if !isDigit c then none
    else match rest with
      | [] => some ([c], [])
      | '_' :: more => (readDigits isDigit more).map fun (digits, rest) => (c :: digits, rest)
      | d :: more =>
        if isDigit d then (readDigits isDigit (d :: more)).map fun (digits, rest) =>
          (c :: digits, rest)
        else some ([c], d :: more)

/-- Reads a number of exactly so many decimal digits. -/
def readFixed (width : Nat) (cs : List Char) : Option (Nat × List Char) :=
  let digits := cs.take width
  if digits.length = width && digits.all isDecimal then some (digitsValue 10 digits, cs.drop width)
  else none

end TemplateLint.Toml
