import TemplateLint.FileSystem.Basic
import TemplateLint.Path

/-!
# File systems in memory

A tree of named files and folders, and the folder from which relative paths start.
-/

namespace TemplateLint

inductive FileTree where
  | file (content : ByteArray)
  | folder (entries : List (String × FileTree))

namespace FileTree

def empty : FileTree := folder []

/-! ## Names -/

/-- What names lead to, one folder after the other. -/
def at? : FileTree → List String → Option FileTree
  | tree, [] => some tree
  | file _, _ :: _ => none
  | folder entries, name :: rest => (entries.lookup name).bind (·.at? rest)

/-- Puts a tree under a name, in the place of what was there. -/
def set (name : String) (tree : FileTree) : List (String × FileTree) → List (String × FileTree)
  | [] => [(name, tree)]
  | (other, old) :: rest =>
    if other = name then (name, tree) :: rest else (other, old) :: set name tree rest

/-- Puts a tree under names; folders that are missing on the way are made. -/
def put (new : FileTree) : List String → FileTree → FileTree
  | [], _ => new
  | name :: rest, tree =>
    let entries := match tree with
      | folder entries => entries
      | file _ => []
    folder (set name (put new rest ((entries.lookup name).getD empty)) entries)

mutual

/-- The paths of all files in a tree, each from the folder `above`. -/
def paths (above : String) : FileTree → List String
  | file _ => [above]
  | folder entries => pathsOf above entries

def pathsOf (above : String) : List (String × FileTree) → List String
  | [] => []
  | (name, tree) :: rest => tree.paths (Path.join above name) ++ pathsOf above rest

end

/-! ## Paths -/

/-- Follows one segment of a path; only a folder leads further. -/
def follow (root : FileTree) (here : List String) (segment : String) :
    Except FileProblem (List String) :=
  match root.at? here with
  | none => .error .notFound
  | some (file _) => .error .notFolder
  | some (folder entries) =>
    if Path.isIdle segment then .ok here
    else if segment = ".." then .ok here.dropLast
    else if (entries.lookup segment).isSome then .ok (here ++ [segment])
    else .error .notFound

/-- The names that a path leads along, which must exist. -/
def locate (root : FileTree) (here : List String) (path : String) :
    Except FileProblem (List String) :=
  if path.isEmpty then .error .notFound
  else (Path.segments path).foldlM root.follow (if Path.isAbsolute path then [] else here)

end FileTree

/-! ## The file system -/

structure Volume where
  root : FileTree := .empty
  /-- The names of the folder that relative paths start from. -/
  here : List String := []

namespace Volume

/-- What a path leads to. -/
def find (v : Volume) (path : String) : Except FileProblem FileTree :=
  match v.root.locate v.here path with
  | .error problem => .error problem
  | .ok names => (v.root.at? names).elim (.error .notFound) .ok

def read (v : Volume) (path : String) : Except FileProblem String :=
  match v.find path with
  | .error problem => .error problem
  | .ok (.folder _) => .error .isFolder
  | .ok (.file content) => (String.fromUTF8? content).elim (.error .notText) .ok

/-- The place of a new file, which must be in a folder. -/
def newPlace (v : Volume) (path : String) : Except FileProblem (List String) :=
  match Path.parent? path, (Path.segments path).getLast? with
  | some above, some name =>
    match v.root.locate v.here (if above.isEmpty then "." else above) with
    | .error problem => .error problem
    | .ok names =>
      match v.root.at? names with
      | some (.folder _) => if Path.isIdle name then .error .notFound else .ok (names ++ [name])
      | _ => .error .notFolder
  | _, _ => .error .notFound

/-- The place of a file that is there or could be made. -/
def place (v : Volume) (path : String) : Except FileProblem (List String) :=
  match v.root.locate v.here path with
  | .error _ => v.newPlace path
  | .ok names =>
    match v.root.at? names with
    | some (.folder _) => .error .isFolder
    | _ => .ok names

def write (v : Volume) (path text : String) : Except FileProblem Volume :=
  (v.place path).map fun names => { v with root := FileTree.put (.file text.toUTF8) names v.root }

/-- The paths of all files in a folder. -/
def filesIn (v : Volume) (path : String) : Except FileProblem (List String) :=
  match v.find path with
  | .error problem => .error problem
  | .ok (.file _) => .ok []
  | .ok (.folder entries) => .ok (FileTree.pathsOf "" entries)

def isFile (v : Volume) (path : String) : Bool :=
  match v.find path with
  | .ok (.file _) => true
  | _ => false

def resolve? (v : Volume) (path : String) : Option String :=
  match v.root.locate v.here path with
  | .ok names => some (Path.ofSegments "" names)
  | .error _ => none

/-- Files in memory as a file system. -/
def fileSystem : FileSystem (StateM Volume) where
  isFile path := return (← get).isFile path
  contains path := return (← get).find path |>.isOk
  resolve? path := return (← get).resolve? path
  read path := return (← get).read path
  write path text := do
    match (← get).write path text with
    | .ok v => set v; return .ok ()
    | .error problem => return .error problem
  filesIn path := return (← get).filesIn path

end Volume

end TemplateLint
