import TemplateLint.FileSystem.Basic
import TemplateLint.Path

/-!
# The file system of the machine
-/

namespace TemplateLint.Disk

def problem : IO.Error → FileProblem
  | .noFileOrDirectory _ _ _ => .notFound
  | .inappropriateType _ 20 _ => .notFolder
  | .inappropriateType _ 21 _ => .isFolder
  | error => .other (toString error)

/-- Does something with files, and gives the problem if it fails. -/
def attempt {α : Type} (action : IO α) : IO (Except FileProblem α) := do
  try return .ok (← action)
  catch error => return .error (problem error)

/-- A path from the folder where the program runs. -/
def located (path : String) := (IO.FS.DirEntry.mk "." path).path

def isFile (path : String) : IO Bool := do
  try return (← (located path).metadata).type == .file
  catch _ => return false

def resolve? (path : String) : IO (Option String) := do
  try return some (toString (← IO.FS.realPath path))
  catch _ => return none

def read (path : String) : IO (Except FileProblem String) := do
  match ← attempt (IO.FS.readBinFile path) with
  | .error problem => return .error problem
  | .ok content => return (String.fromUTF8? content).elim (.error .notText) .ok

/-- The files in a folder and those inside it; links to folders are not followed. -/
partial def filesBelow (folder below : String) : IO (List String) := do
  let entries := (← (located folder).readDir).toList.mergeSort fun a b =>
    decide (a.fileName ≤ b.fileName)
  let found ← entries.mapM fun entry => do
    let path := Path.join folder entry.fileName
    let shown := Path.join below entry.fileName
    match (← entry.path.symlinkMetadata).type with
    | .dir => filesBelow path shown
    | .file => return [shown]
    | _ => if ← isFile path then return [shown] else return []
  return found.flatten

def fileSystem : FileSystem IO where
  isFile
  contains path := return (← resolve? path).isSome
  resolve?
  read
  write path text := attempt (IO.FS.writeFile path text)
  filesIn path := attempt (filesBelow path "")

end TemplateLint.Disk
