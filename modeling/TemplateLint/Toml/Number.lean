import TemplateLint.Toml.Digits
import TemplateLint.Toml.Value

/-!
# Numbers

Integers have 64 bits. A float is refused if the nearest double is positive infinity.
-/

namespace TemplateLint.Toml

/-! ## Integers -/

def isInt64 (n : Int) : Bool := -9223372036854775808 ≤ n && n ≤ 9223372036854775807

def integer? (n : Int) : Option Value := if isInt64 n then some (.integer n) else none

/-- Reads an integer in a base other than ten, after the mark of its base. -/
def readBased (base : Nat) (isDigit : Char → Bool) (cs : List Char) :
    Option (Value × List Char) := do
  let (digits, rest) ← readDigits isDigit cs
  let value ← integer? (digitsValue base digits)
  return (value, rest)

/-- Reads the digits before a point: a zero stands alone. -/
def readWhole : List Char → Option (List Char × List Char)
  | '0' :: rest => some (['0'], rest)
  | cs => readDigits isDecimal cs

/-! ## Floats -/

/-- The least number whose nearest double is infinity. -/
def doubleBound : Nat := Nat.pow 2 1024 - Nat.pow 2 970

/-- Whether the number `digits`, shifted by `exponent` places, is at least `doubleBound`. -/
def overflows (digits : List Char) (exponent : Int) : Bool :=
  let digits := digits.dropWhile (· = '0')
  let size := digits.length + exponent
  if digits.isEmpty || size < 309 then false
  else if 309 < size then true
  else
    let number := digitsValue 10 digits
    if 0 ≤ exponent then decide (doubleBound ≤ number * Nat.pow 10 exponent.toNat)
    else decide (doubleBound * Nat.pow 10 (-exponent).toNat ≤ number)

/-- Reads what follows the point, if there is one. -/
def readFraction : List Char → Option (List Char × List Char)
  | '.' :: rest => readDigits isDecimal rest
  | rest => some ([], rest)

def readSign : List Char → Bool × List Char
  | '+' :: rest => (false, rest)
  | '-' :: rest => (true, rest)
  | rest => (false, rest)

/-- Reads an exponent, if there is one. -/
def readExponent : List Char → Option (Int × List Char)
  | [] => some (0, [])
  | c :: rest =>
    if c = 'e' || c = 'E' then do
      let (negative, rest) := readSign rest
      let (digits, rest) ← readDigits isDecimal rest
      let size : Int := digitsValue 10 digits
      return (if negative then -size else size, rest)
    else some (0, c :: rest)

/-! ## Any number -/

/-- Reads a decimal number without its sign. -/
def readDecimal (negative : Bool) (cs : List Char) : Option (Value × List Char) := do
  let (whole, afterWhole) ← readWhole cs
  let (fraction, afterFraction) ← readFraction afterWhole
  let (exponent, rest) ← readExponent afterFraction
  if rest.length = afterWhole.length then
    let size : Int := digitsValue 10 whole
    let value ← integer? (if negative then -size else size)
    return (value, rest)
  else if !negative && overflows (whole ++ fraction) (exponent - fraction.length) then none
  else return (.float, rest)

def readNumber : List Char → Option (Value × List Char)
  | '0' :: 'x' :: rest => readBased 16 isHex rest
  | '0' :: 'o' :: rest => readBased 8 isOctal rest
  | '0' :: 'b' :: rest => readBased 2 isBinary rest
  | cs =>
    match readSign cs with
    | (_, 'i' :: 'n' :: 'f' :: rest) => some (.float, rest)
    | (_, 'n' :: 'a' :: 'n' :: rest) => some (.float, rest)
    | (negative, rest) => readDecimal negative rest

end TemplateLint.Toml
