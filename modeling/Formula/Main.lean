import Formula.Command

def main (args : List String) : IO UInt32 := do
  let needsInput := match ({} : Formula.Options).read args with
    | .run o => o.expression.isNone
    | _ => false
  let input ← if needsInput then (← IO.getStdin).readToEnd else pure ""
  let transcript := Formula.Command.run args input
  (← IO.getStdout).putStr transcript.output
  (← IO.getStderr).putStr transcript.errors
  return UInt32.ofNat transcript.status
