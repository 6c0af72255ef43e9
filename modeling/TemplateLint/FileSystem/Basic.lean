/-!
# File systems

What the program does with files, in whatever world they are.
-/

namespace TemplateLint

/-- Why something could not be done with a file. -/
inductive FileProblem where
  | notFound
  | notFolder
  | isFolder
  | notText
  | other (message : String)
  deriving DecidableEq, Repr

def FileProblem.message : FileProblem → String
  | notFound => "No such file or directory (os error 2)"
  | notFolder => "Not a directory (os error 20)"
  | isFolder => "Is a directory (os error 21)"
  | notText => "stream did not contain valid UTF-8"
  | other message => message

structure FileSystem (m : Type → Type) where
  /-- Whether a path leads to a file. -/
  isFile : String → m Bool
  /-- Whether a path leads to anything. -/
  contains : String → m Bool
  /-- The absolute path, without dots, of what a path leads to. -/
  resolve? : String → m (Option String)
  read : String → m (Except FileProblem String)
  write : String → String → m (Except FileProblem Unit)
  /-- The paths of all files in a folder, from there. -/
  filesIn : String → m (Except FileProblem (List String))

end TemplateLint
