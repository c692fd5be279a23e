import GraphSelect.CommandLine.Run

/-!
# The program

Reads the files that the command line names, runs the command on them and prints what it leaves behind.
-/

namespace GraphSelect

/-- All lines of a stream, put together. -/
partial def readAll (stream : IO.FS.Stream) (text : String) : IO String := do
  let line ← stream.getLine
  if line.isEmpty then pure text else readAll stream (text ++ line)

/-- The text of a file, if it can be read. -/
def readIfPossible (path : String) : IO (Option String) := do
  try
    pure (some (← IO.FS.readFile path))
  catch _ => pure none

/-- Standard input, if it can be read. -/
def readStdin : IO (Option String) := do
  try
    pure (some (← readAll (← IO.getStdin) ""))
  catch _ => pure none

/-- The files that a command names, and standard input if it is one of them. Nothing is logged, so every text is taken
for a filter of the log. -/
def gather (command : Command) : IO Inputs := do
  let paths := (command.namedFiles.map Prod.snd).filter (! isStdin ·)
  let texts ← paths.mapM fun path => do pure (path, ← readIfPossible path)
  let stdin? ← if command.namedFiles.any (isStdin ·.2) then readStdin else pure none
  pure { file? := fun path => (texts.lookup path).join, stdin? }

/-- What a command line leaves behind. -/
def outcome (arguments : List String) : IO Outcome := do
  match Command.parse arguments with
  | .ok line => pure (Command.run (← gather line.command) line)
  | .error _ => pure (Command.runLine { file? := fun _ => none, stdin? := none } arguments)

end GraphSelect

/-- Runs a command line. -/
def main (arguments : List String) : IO UInt32 := do
  let outcome ← GraphSelect.outcome arguments
  IO.print outcome.stdout
  IO.eprint outcome.stderr
  pure (UInt32.ofNat outcome.exit)
