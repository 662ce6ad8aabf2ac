import Bisection.Command.Run

/-!
# The command line
-/

/-- Runs a scenario on one processor. -/
def main (args : List String) : IO UInt32 := do
  let outcome := Bisection.Command.run 1 args
  IO.print outcome.stdout
  IO.eprint outcome.stderr
  pure outcome.exit
