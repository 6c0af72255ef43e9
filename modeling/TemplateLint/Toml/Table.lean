import TemplateLint.Toml.Value

/-!
# Tables

How keys and headers make up the tables of a document. A table is written under a header of its
own, or comes about when a header or a dotted key goes through it. What a header has finished is not
taken up again, and dotted keys go only into tables that dotted keys made.
-/

namespace TemplateLint.Toml

/-- How a table came about. -/
inductive Origin where
  /-- It has a header, or is the whole document. -/
  | header
  /-- A header of a table inside it names it. -/
  | inner
  /-- A dotted key names it. -/
  | dotted
  deriving DecidableEq, Repr

/-- What a name in a table that is being built stands for. -/
inductive Item where
  | value (value : Value)
  | table (origin : Origin) (entries : List (String × Item))
  /-- Tables under headers of one name, the newest first. -/
  | tables (tables : List (List (String × Item)))

abbrev Entries := List (String × Item)

namespace Entries

/-- Puts an item in the place of the one with its name. -/
def put (name : String) (item : Item) (entries : Entries) : Entries :=
  entries.map fun (other, old) => if other = name then (other, item) else (other, old)

/-- Changes the entries of the table at a path. Missing tables on the path are made. -/
def update (origin : Origin) (change : Origin → Entries → Option Entries) :
    (path : List String) → (own : Origin) → Entries → Option Entries
  | [], own, entries => change own entries
  | name :: path, _, entries =>
    match entries.lookup name with
    | none =>
      (update origin change path origin []).map fun inner =>
        entries ++ [(name, .table origin inner)]
    | some (.value _) | some (.tables []) => none
    | some (.table own inner) =>
      if origin = .dotted && own = .header then none
      else (update origin change path own inner).map fun inner =>
        entries.put name (.table own inner)
    | some (.tables (newest :: older)) =>
      (update origin change path .header newest).map fun inner =>
        entries.put name (.tables (inner :: older))

/-- Adds a value under a key whose dots go through tables of dotted keys only. -/
def addValue (key : Key) (value : Value) : Entries → Option Entries :=
  let add (own : Origin) (entries : Entries) : Option Entries :=
    if (own == .dotted) == key.stem.isEmpty || (entries.lookup key.name).isSome then none
    else some (entries ++ [(key.name, .value value)])
  update .dotted add key.stem .header

/-- Begins the table of a header. -/
def openTable (key : Key) : Entries → Option Entries :=
  let begin_ (_ : Origin) (entries : Entries) : Option Entries :=
    match entries.lookup key.name with
    | none => some (entries ++ [(key.name, .table .header [])])
    | some (.table .inner inner) => some (entries.put key.name (.table .header inner))
    | some _ => none
  update .inner begin_ key.stem .header

/-- Begins one more table of a header that may be repeated. -/
def openElement (key : Key) : Entries → Option Entries :=
  let begin_ (_ : Origin) (entries : Entries) : Option Entries :=
    match entries.lookup key.name with
    | none => some (entries ++ [(key.name, .tables [[]])])
    | some (.tables tables) => some (entries.put key.name (.tables ([] :: tables)))
    | some _ => none
  update .inner begin_ key.stem .header

end Entries

/-! ## The finished table -/

mutual

def Item.toValue : Item → Value
  | .value v => v
  | .table _ entries => .table (Item.toValues entries)
  | .tables all => .array (Item.toTables all).reverse

def Item.toValues : List (String × Item) → List (String × Value)
  | [] => []
  | (name, item) :: rest => (name, item.toValue) :: Item.toValues rest

def Item.toTables : List (List (String × Item)) → List Value
  | [] => []
  | entries :: rest => .table (Item.toValues entries) :: Item.toTables rest

end

/-- The table that keys and their values make up between braces. -/
def Value.ofPairs? (pairs : List (Key × Value)) : Option Value :=
  (pairs.foldlM (fun entries (key, value) => Entries.addValue key value entries) []).map
    fun entries => .table (Item.toValues entries)

/-! ## Statements -/

/-- What a line of a document says. -/
inductive Statement where
  | entry (key : Key) (value : Value)
  | header (key : Key)
  | element (key : Key)

/-- A document so far; `path` leads to the table that is being filled. -/
structure Draft where
  entries : Entries := []
  path : List String := []

def Draft.step (d : Draft) : Statement → Option Draft
  | .entry key value =>
    let add (_ : Origin) : Entries → Option Entries := Entries.addValue key value
    (Entries.update .inner add d.path .header d.entries).map fun entries => { d with entries }
  | .header key =>
    (Entries.openTable key d.entries).map fun entries => ⟨entries, key.stem ++ [key.name]⟩
  | .element key =>
    (Entries.openElement key d.entries).map fun entries => ⟨entries, key.stem ++ [key.name]⟩

/-- The table that the statements of a document make up. -/
def tableOf? (statements : List Statement) : Option (List (String × Value)) :=
  (statements.foldlM Draft.step {}).map fun d => Item.toValues d.entries

end TemplateLint.Toml
