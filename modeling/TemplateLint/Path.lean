import TemplateLint.Text.Cut

/-!
# Paths

Paths are texts. Two of them are the same if they have the same parts: repeated slashes, a slash at
the end and dots after the start do not count.
-/

namespace TemplateLint.Path

/-- The path of a name below a path. -/
def join (path name : String) : String :=
  if path.isEmpty || path.toList.getLast? = some '/' then path ++ name else path ++ "/" ++ name

/-- The texts between slashes. -/
def segments (path : String) : List String := (Text.splitAt '/' path.toList).map String.ofList

def isAbsolute (path : String) : Bool := path.toList.head? = some '/'

/-- Whether a segment after the first leads nowhere. -/
def isIdle (segment : String) : Bool := segment.isEmpty || segment = "."

/-! ## Parts -/

inductive Part where
  | root
  | here
  | up
  | name (name : String)
  deriving DecidableEq, Repr

def Part.ofSegment? (segment : String) : Option Part :=
  if isIdle segment then none else if segment = ".." then some .up else some (.name segment)

/-- The parts of a path; a dot is one at the start only. -/
def parts (path : String) : List Part :=
  let segments := segments path
  let start := if isAbsolute path then [Part.root]
  else if segments.head? = some "." then [.here] else []
  start ++ segments.filterMap Part.ofSegment?

/-! ## Order -/

/-- Kinds of parts in order: the root, a dot, two dots, names. -/
def Part.rank : Part → Nat
  | root => 0
  | here => 1
  | up => 2
  | name _ => 3

def Part.lt : Part → Part → Bool
  | name a, name b => decide (a < b)
  | a, b => decide (a.rank < b.rank)

/-- Whether a list of parts comes no later than another. -/
def partsLe : List Part → List Part → Bool
  | [], _ => true
  | _ :: _, [] => false
  | a :: as, b :: bs => if a = b then partsLe as bs else a.lt b

/-- Paths sorted part by part; of paths that are the same only the first is kept. -/
def sort (paths : List String) : List String :=
  let sorted := paths.mergeSort fun a b => partsLe (parts a) (parts b)
  sorted.eraseRepsBy fun a b => parts a == parts b

/-! ## Folders -/

/-- The path of a first segment and those after it. -/
def ofSegments (first : String) (rest : List String) : String :=
  if first.isEmpty && rest.isEmpty then "/" else "/".intercalate (first :: rest)

/-- A path without its last part, unless it has no parts or is the root. -/
def parent? (path : String) : Option String :=
  match segments path with
  | [] => none
  | first :: rest =>
    match rest.reverse.dropWhile isIdle with
    | _ :: above => some (ofSegments first (above.dropWhile isIdle).reverse)
    | [] => if first.isEmpty then none else some ""

/-- A path and the paths above it, nearest first. -/
def ancestors (path : String) : List String :=
  match parent? path with
  | none => [path]
  | some above => if above.length < path.length then path :: ancestors above else [path]
termination_by path.length

end TemplateLint.Path
