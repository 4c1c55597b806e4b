import ChomskyForm.CommandLine

/-!
# The program

Prints what `CommandLine.run` says and exits with its status.
-/

/-- Run the command line on the arguments of the process. -/
def main (args : List String) : IO UInt32 := do
  let outcome := ChomskyForm.CommandLine.run args
  IO.print outcome.out
  IO.eprint outcome.err
  return outcome.status.toUInt32
