import Stencil.Command.Run

/-!
# The command line

Runs a command over the files of the system.
-/

/-- What a file of the system holds. -/
def Stencil.Command.readSystemFile (path : String) : IO Content := do
  try
    let bytes ← IO.FS.readBinFile path
    match String.fromUTF8? bytes with
    | some text => return .text text
    | none => return .notText
  catch
    | .noFileOrDirectory .. => return .missing
    | e => return .unreadable (toString e)

def main (arguments : List String) : IO UInt32 := do
  let outcome ← Stencil.Command.run Stencil.Command.readSystemFile arguments
  (← IO.getStdout).putStr outcome.output
  (← IO.getStderr).putStr outcome.errors
  return outcome.code.toUInt32
