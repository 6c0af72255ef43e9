/-!
# JSON text

Values as indented text. Fields keep their order.
-/

namespace TemplateLint.Json

inductive Value where
  | number (number : Nat)
  | boolean (flag : Bool)
  | text (text : String)
  | array (values : List Value)
  | object (fields : List (String × Value))

/-! ## Strings -/

/-- A control character by its code. -/
def codeEscape (c : Char) : List Char :=
  let digits := Nat.toDigits 16 c.toNat
  ['\\', 'u'] ++ List.replicate (4 - digits.length) '0' ++ digits

def escape (c : Char) : List Char :=
  match c with
  | '"' => ['\\', '"']
  | '\\' => ['\\', '\\']
  | '\x08' => ['\\', 'b']
  | '\x0c' => ['\\', 'f']
  | '\n' => ['\\', 'n']
  | '\r' => ['\\', 'r']
  | '\t' => ['\\', 't']
  | c => if c < ' ' then codeEscape c else [c]

def quote (text : String) : String := String.ofList ('"' :: text.toList.flatMap escape ++ ['"'])

/-! ## Values -/

/-- A new line at a level of nesting, two blanks for each. -/
def newline (level : Nat) : String := String.ofList ('\n' :: List.replicate (2 * level) ' ')

/-- Items on lines of their own between two brackets. -/
def enclose (left right : String) (level : Nat) (items : List String) : String :=
  if items.isEmpty then left ++ right
  else
    let separator := "," ++ newline (level + 1)
    left ++ newline (level + 1) ++ separator.intercalate items ++ newline level ++ right

mutual

def Value.render (level : Nat) : Value → String
  | .number n => toString n
  | .boolean flag => if flag then "true" else "false"
  | .text s => quote s
  | .array values => enclose "[" "]" level (Value.renderAll (level + 1) values)
  | .object fields => enclose "\x7b" "\x7d" level (Value.renderFields (level + 1) fields)

def Value.renderAll (level : Nat) : List Value → List String
  | [] => []
  | value :: rest => value.render level :: Value.renderAll level rest

def Value.renderFields (level : Nat) : List (String × Value) → List String
  | [] => []
  | (name, value) :: rest =>
    (quote name ++ ": " ++ value.render level) :: Value.renderFields level rest

end

/-- The text of a value. -/
def Value.display (v : Value) : String := v.render 0

end TemplateLint.Json
