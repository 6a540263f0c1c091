import OData.CommandLine

/-!
# The program

Reads the arguments, the variables and, if there is no argument, the input; prints the outcome. The
arguments come as texts here, without the name of the program.
-/

namespace OData.CommandLine

/-- The name of the program. -/
def programName : String := "rsodata"

/-- The variables that a run looks at. -/
def variableNames : List String :=
  ["LOG_LEVEL", "ODATA_PRETTY", "ODATA_MAX_EXPAND_DEPTH", "RUST_LOG"]

end OData.CommandLine

open OData

def main (arguments : List String) : IO UInt32 := do
  let found ← CommandLine.variableNames.filterMapM fun name => do
    return (← IO.getEnv name).map fun value => (name, Text.encode value.toList)
  let input ← if arguments.isEmpty then (← IO.getStdin).readBinToEnd else pure ByteArray.empty
  let words := (CommandLine.programName :: arguments).map fun word => Text.encode word.toList
  let outcome := CommandLine.run (fun name => found.lookup name) words input.toList
  (← IO.getStdout).putStr (String.ofList outcome.output)
  (← IO.getStderr).putStr (String.ofList outcome.errors)
  return UInt32.ofNat outcome.status
