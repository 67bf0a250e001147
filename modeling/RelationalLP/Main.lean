import RelationalLP.CommandLine

/-! # The program -/

/-- Prints the output of a run and exits with its code. -/
def main (args : List String) : IO UInt32 := do
  let output := RelationalLP.CommandLine.run args
  IO.print output.stdout
  return output.exitCode.toUInt32
