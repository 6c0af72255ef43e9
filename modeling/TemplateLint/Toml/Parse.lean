import TemplateLint.Toml.Moment
import TemplateLint.Toml.Number
import TemplateLint.Toml.Quoted
import TemplateLint.Toml.Table

/-!
# Reading TOML

Each line is a key with its value, a header, or blank. Values may be nested only so deep, and keys
have only so many dots.
-/

namespace TemplateLint.Toml

/-- How many arrays and tables may stand inside one another, and how many names in a key. -/
def nestingLimit : Nat := 79

/-! ## Keys -/

def isNameChar (c : Char) : Bool := c.isAlphanum || c = '_' || c = '-'

/-- Reads a name, which is quoted unless all its characters are plain. -/
def readName : List Char → Option (String × List Char)
  | '"' :: rest => (readShort '"' true rest).map fun (name, rest) => (String.ofList name, rest)
  | '\'' :: rest => (readShort '\'' false rest).map fun (name, rest) => (String.ofList name, rest)
  | cs =>
    let name := cs.takeWhile isNameChar
    if name.isEmpty then none else some (String.ofList name, cs.dropWhile isNameChar)

/-- Reads names separated by dots. -/
def readKey (limit : Nat) (cs : List Char) : Option (Key × List Char) :=
  match limit with
  | 0 => none
  | limit + 1 =>
    match readName (skipSpaces cs) with
    | none => none
    | some (name, rest) =>
      match skipSpaces rest with
      | '.' :: rest =>
        (readKey limit rest).map fun (key, rest) => ({ key with stem := name :: key.stem }, rest)
      | rest => some (⟨[], name⟩, rest)

/-! ## Values -/

/-- Reads a value that holds no others. -/
def readScalar : List Char → Option (Value × List Char)
  | 't' :: 'r' :: 'u' :: 'e' :: rest => some (.boolean true, rest)
  | 'f' :: 'a' :: 'l' :: 's' :: 'e' :: rest => some (.boolean false, rest)
  | '"' :: rest =>
    (readText ('"' :: rest)).map fun (text, rest) => (.text (String.ofList text), rest)
  | '\'' :: rest =>
    (readText ('\'' :: rest)).map fun (text, rest) => (.text (String.ofList text), rest)
  | cs =>
    match afterMoment? cs with
    | some rest => some (.moment, rest)
    | none => readNumber cs

/-- Reads the rest of an array; a comma may stand after the last value. -/
def readItems (item : List Char → Option (Value × List Char)) (cs : List Char) :
    Option (List Value × List Char) :=
  match skipGap false cs with
  | ']' :: rest => some ([], rest)
  | start =>
    match item start with
    | none => none
    | some (value, rest) =>
      match skipGap false rest with
      | ']' :: rest => some ([value], rest)
      | ',' :: rest =>
        if rest.length < cs.length then (readItems item rest).map fun (values, rest) =>
          (value :: values, rest)
        else none
      | _ => none
termination_by cs.length

/-- Reads the keys and values of a table between braces, all on one line. -/
def readPairs (item : List Char → Option (Value × List Char)) (cs : List Char) :
    Option (List (Key × Value) × List Char) :=
  match readKey nestingLimit cs with
  | some (key, '=' :: rest) =>
    match item (skipSpaces rest) with
    | none => none
    | some (value, rest) =>
      match skipSpaces rest with
      | '}' :: rest => some ([(key, value)], rest)
      | ',' :: rest =>
        if rest.length < cs.length then
          (readPairs item rest).map fun (pairs, rest) => ((key, value) :: pairs, rest)
        else none
      | _ => none
  | _ => none
termination_by cs.length

/-- Reads the rest of a table between braces. -/
def readInline (item : List Char → Option (Value × List Char)) (cs : List Char) :
    Option (Value × List Char) :=
  match skipSpaces cs with
  | '}' :: rest => some (.table [], rest)
  | start => do
    let (pairs, rest) ← readPairs item start
    let value ← Value.ofPairs? pairs
    return (value, rest)

/-- Reads a value with at most `depth` others around one another in it. -/
def readValue : (depth : Nat) → List Char → Option (Value × List Char)
  | depth + 1, '[' :: rest =>
    (readItems (readValue depth) rest).map fun (values, rest) => (.array values, rest)
  | depth + 1, '\x7b' :: rest => readInline (readValue depth) rest
  | _, cs => readScalar cs

/-! ## Lines -/

/-- Reads a statement and the end of its line. -/
def readStatement : List Char → Option (Statement × List Char)
  | '[' :: '[' :: cs =>
    match readKey nestingLimit cs with
    | some (key, ']' :: ']' :: rest) => (afterLine? rest).map fun rest => (.element key, rest)
    | _ => none
  | '[' :: cs =>
    match readKey nestingLimit cs with
    | some (key, ']' :: rest) => (afterLine? rest).map fun rest => (.header key, rest)
    | _ => none
  | cs =>
    match readKey nestingLimit cs with
    | some (key, '=' :: rest) => do
      let (value, rest) ← readValue nestingLimit (skipSpaces rest)
      let rest ← afterLine? rest
      return (.entry key value, rest)
    | _ => none

def readStatements (cs : List Char) : Option (List Statement) :=
  match skipGap false cs with
  | [] => some []
  | start =>
    match readStatement start with
    | none => none
    | some (statement, rest) =>
      if rest.length < cs.length then (readStatements rest).map (statement :: ·) else none
termination_by cs.length

/-- Drops the mark that may stand before a document. -/
def withoutMark : List Char → List Char
  | '\ufeff' :: rest => rest
  | cs => cs

/-- Reads a document. -/
def parse? (source : String) : Option (List (String × Value)) :=
  (readStatements (withoutMark source.toList)).bind tableOf?

end TemplateLint.Toml
