import CssLocator.Command

/-!
# The command line

Hands arguments and files to the command and writes what it leaves.
-/

namespace CssLocator

/-- What the system says about a file. Some codes come with their sign changed. -/
def systemReason (reason : Text) (code : UInt32) : Text :=
  reason ++ " (os error " ++ Text.ofNat (min code.toNat (0 - code).toNat) ++ ")"

/-- Reads a file, or tells why it cannot be read. -/
def readFile (path : Text) : IO (Except Text Text) := do
  try
    let content ← IO.FS.readFile (String.ofList path)
    pure (.ok content.toList)
  catch
    | .noFileOrDirectory _ code _ => pure (.error (systemReason "No such file or directory" code))
    | .permissionDenied _ code _ => pure (.error (systemReason "Permission denied" code))
    | .inappropriateType _ code _ => pure (.error (systemReason "Is a directory" code))
    | .userError _ => pure (.error "stream did not contain valid UTF-8")
    | e => pure (.error e.toString.toList)

end CssLocator

/-- Runs the command with the arguments of the program. -/
def main (arguments : List String) : IO UInt32 := do
  let outcome ← CssLocator.runCommand CssLocator.readFile (arguments.map String.toList)
  IO.print (String.ofList outcome.output)
  IO.eprint (String.ofList outcome.errors)
  pure outcome.code.toUInt32
