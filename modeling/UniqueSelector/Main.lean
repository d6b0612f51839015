/-
  UniqueSelector.Main

  The command line. It reads the file that a command asks for, and prints what
  the command says.
-/

import UniqueSelector.Command.Arguments

namespace UniqueSelector

/-- The contents of a file, if it can be read as text. -/
def readContents? (file : String) : IO (Option String) :=
  try
    let contents ← IO.FS.readFile file
    pure (some contents)
  catch _ => pure none

/-- Runs a command and prints what it says. -/
def perform (command : Command) : IO UInt32 := do
  let contents? ← match command.file? with
    | some file => readContents? file
    | none => pure none
  let outcome := command.run contents?
  for w in outcome.warnings do
    IO.eprintln w.line
  IO.print outcome.output
  if let some text := outcome.errorText? then
    IO.eprintln text
  pure outcome.exitCode.toUInt32

end UniqueSelector

/-- Zero for success, one for a failure, two for words that are no command. -/
def main (words : List String) : IO UInt32 :=
  match UniqueSelector.Command.ofArguments words with
  | .ok command => UniqueSelector.perform command
  | .error cause => do
    IO.eprintln ("error: " ++ cause.message)
    pure cause.exitCode.toUInt32
