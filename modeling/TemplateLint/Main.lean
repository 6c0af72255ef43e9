import TemplateLint.Command.Run
import TemplateLint.FileSystem.Disk

/-!
# The program

Runs the command line on the files of the machine. The log and failures go to standard error.
-/

open TemplateLint

def readEnvironment : IO Command.Environment := do
  return {
    config := ← IO.getEnv "HERB_LINT_CONFIG"
    configFolder := ← IO.getEnv "HERB_LINT_CONFIG_DIR"
    home := ← IO.getEnv "HOME" }

def main (args : List String) : IO UInt32 := do
  let outcome ← Command.run Disk.fileSystem (← readEnvironment) args
  for event in outcome.events do
    IO.eprintln event.line
  IO.print outcome.printout.text
  match outcome.failure with
  | some failure => IO.eprintln s!"Error: {failure.message}"
  | none => if outcome.code = 2 then IO.eprint Command.helpText
  return outcome.code.toUInt32
