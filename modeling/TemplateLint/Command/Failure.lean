import TemplateLint.Document.Parse
import TemplateLint.Event
import TemplateLint.FileSystem.Basic
import TemplateLint.Settings

/-!
# Failures of a command

A failure is told with what led to it, the outermost first.
-/

namespace TemplateLint.Command

inductive Failure where
  | configNotLoaded (path : String) (error : ConfigError)
  | linterNotBuilt (error : ConfigError)
  | patternRefused (error : ConfigError)
  | folderNotListed (path : String) (problem : FileProblem)
  | fileNotRead (path : String) (problem : FileProblem)
  | fileNotLinted (path : String) (error : ParseError)
  | fileNotFixed (path : String) (error : ParseError)
  | fileNotWritten (path : String) (problem : FileProblem)
  | configExists (path : String)
  | configNotWritten (problem : FileProblem)
  deriving DecidableEq, Repr

/-- A settings error, and the error below it if there is one. -/
def configChain : ConfigError → List String
  | error@(.unreadable _ cause) => [error.message, cause]
  | error => [error.message]

namespace Failure

/-- The messages from the outermost to the innermost. -/
def chain : Failure → List String
  | configNotLoaded path error => s!"Failed to load config: {path}" :: configChain error
  | linterNotBuilt error =>
    "Failed to build linter" :: s!"Configuration error: {error.message}" :: configChain error
  | patternRefused error => configChain error
  | folderNotListed path problem =>
    [s!"{path}: IO error for operation on {path}: {problem.message}"]
  | fileNotRead path problem => [s!"Failed to read {path}", problem.message]
  | fileNotLinted path error => [s!"Failed to lint {path}", error.message]
  | fileNotFixed path error => [s!"Failed to fix {path}", error.message]
  | fileNotWritten path problem => [s!"Failed to write {path}", problem.message]
  | configExists path =>
    [s!"Configuration file already exists at {path}. Use --force to overwrite."]
  | configNotWritten problem => [problem.message]

/-- Puts `first` before the first line of a text and as many blanks before the others. -/
def indent (first : String) (text : String) : String :=
  let blanks := List.replicate first.length ' '
  first ++ String.ofList (text.toList.flatMap fun c => if c = '\n' then '\n' :: blanks else [c])

/-- Causes are numbered if there are several. -/
def causeLines : List String → List String
  | [cause] => [indent "    " cause]
  | causes => causes.zipIdx.map fun (cause, i) => indent s!"    {i}: " cause

def message (f : Failure) : String :=
  match f.chain with
  | [] => ""
  | [outermost] => outermost
  | outermost :: causes => "\n".intercalate (outermost :: "" :: "Caused by:" :: causeLines causes)

end Failure

/-! ## Work that may fail -/

/-- Work on files that keeps a log and may fail. -/
abbrev Job (m : Type → Type) := ExceptT Failure (StateT (List Event) m)

namespace Job

variable {m : Type → Type} [Monad m] {α ε : Type}

def log (events : List Event) : Job m Unit := modify (· ++ events)

/-- Goes on with the result of a step, or ends with its failure. -/
def require (onError : ε → Failure) (step : m (Except ε α)) : Job m α := do
  match ← step with
  | .ok a => return a
  | .error e => throw (onError e)

/-- The same for a step without files. -/
def ofExcept (onError : ε → Failure) (r : Except ε α) : Job m α :=
  match r with
  | .ok a => return a
  | .error e => throw (onError e)

end Job

end TemplateLint.Command
