import ConstraintSpace.CommandLine

/-!
# The program

Writes the lines of a run and ends with its exit code.
-/

def main (words : List String) : IO UInt32 := do
  let output := ConstraintSpace.CommandLine.run words
  for line in output.lines do
    IO.println line
  pure output.exit.toUInt32
