import QueryTree.Command

/-!
# The program

Reads the arguments and the standard input, and prints what the command gives.
-/

open QueryTree in
def main (args : List String) : IO UInt32 := do
  match Command.parse? args with
  | none =>
    (← IO.getStderr).putStrLn
      "usage: fql docs | fql doc CATEGORY | fql check [--pretty] [--input TEXT]"
    return 2
  | some command =>
    let stdin ← match command with
      | .check none _ => (← IO.getStdin).readBinToEnd
      | _ => pure ByteArray.empty
    let outcome := command.run stdin
    (← IO.getStdout).putStr outcome.stdout
    (← IO.getStderr).putStr outcome.stderr
    return outcome.code.toUInt32
