import TemplateLint.Toml.Digits

/-!
# Dates and times

A date, a time, or a date with a time and perhaps an offset. Each reader gives what follows.
-/

namespace TemplateLint.Toml

def isLeap (year : Nat) : Bool := year % 4 = 0 && (year % 100 ≠ 0 || year % 400 = 0)

def daysInMonth (year month : Nat) : Nat :=
  if month = 2 then if isLeap year then 29 else 28
  else if [4, 6, 9, 11].contains month then 30
  else 31

/-- Reads a number of so many digits that lies between two bounds. -/
def readBetween (width low high : Nat) (cs : List Char) : Option (Nat × List Char) :=
  (readFixed width cs).filter fun (n, _) => low ≤ n && n ≤ high

def afterChar? (c : Char) : List Char → Option (List Char)
  | d :: rest => if d = c then some rest else none
  | [] => none

def afterDate? (cs : List Char) : Option (List Char) := do
  let (year, rest) ← readFixed 4 cs
  let rest ← afterChar? '-' rest
  let (month, rest) ← readBetween 2 1 12 rest
  let rest ← afterChar? '-' rest
  let (_, rest) ← readBetween 2 1 (daysInMonth year month) rest
  return rest

/-- A fraction of a second may have any number of digits. -/
def afterSeconds (cs : List Char) : List Char :=
  match cs with
  | '.' :: d :: rest => if isDecimal d then rest.dropWhile isDecimal else cs
  | _ => cs

def afterHourMinute? (cs : List Char) : Option (List Char) := do
  let (_, rest) ← readBetween 2 0 23 cs
  let rest ← afterChar? ':' rest
  let (_, rest) ← readBetween 2 0 59 rest
  return rest

/-- A minute may have a leap second. -/
def afterTime? (cs : List Char) : Option (List Char) := do
  let rest ← afterHourMinute? cs
  let rest ← afterChar? ':' rest
  let (_, rest) ← readBetween 2 0 60 rest
  return afterSeconds rest

def afterOffset? (cs : List Char) : Option (List Char) :=
  match cs with
  | 'Z' :: rest | 'z' :: rest => some rest
  | '+' :: rest | '-' :: rest => afterHourMinute? rest
  | _ => some cs

def afterMoment? (cs : List Char) : Option (List Char) :=
  match afterDate? cs with
  | none => afterTime? cs
  | some [] => some []
  | some (c :: rest) =>
    if ['T', 't', ' '].contains c then
      match afterTime? rest with
      | some rest => afterOffset? rest
      | none => some (c :: rest)
    else some (c :: rest)

end TemplateLint.Toml
