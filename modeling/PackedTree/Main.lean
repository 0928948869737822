/-
# The program

The system as a host, and the entry point.
-/
import PackedTree.Command.Run

namespace PackedTree.Command

/-- A fault of the system, with its number. -/
def systemFault (number : UInt32) (text : String) : FileError :=
  .other (text ++ " (os error " ++ toString number ++ ")")

/-- What a failed action of the system means. -/
def FileError.ofSystem : IO.Error → FileError
  | .alreadyExists _ n s => systemFault n s
  | .otherError n s => systemFault n s
  | .resourceBusy n s => systemFault n s
  | .resourceVanished n s => systemFault n s
  | .unsupportedOperation n s => systemFault n s
  | .hardwareFault n s => systemFault n s
  | .unsatisfiedConstraints n s => systemFault n s
  | .illegalOperation n s => systemFault n s
  | .protocolError n s => systemFault n s
  | .timeExpired n s => systemFault n s
  | .interrupted _ n s => systemFault n s
  | .noFileOrDirectory _ n s => systemFault n s
  | .invalidArgument _ n s => systemFault n s
  | .permissionDenied _ n s => systemFault n s
  | .resourceExhausted _ n s => systemFault n s
  | .inappropriateType _ n s => systemFault n s
  | .noSuchThing _ n s => systemFault n s
  | .unexpectedEof => .other "unexpected end of file"
  | .userError s => .other s

/-- An action of the system with its faults as values. -/
def guarded {α : Type} (action : IO α) : IO (Except FileError α) := do
  match ← action.toBaseIO with
  | .ok a => return .ok a
  | .error e => return .error (.ofSystem e)

/-- The system as a host. -/
def systemHost : Host IO where
  readFile path := guarded (IO.FS.readBinFile path)
  writeFile path content := guarded (IO.FS.writeBinFile path content)
  readInput := guarded do (← IO.getStdin).readBinToEnd
  writeOutput content := guarded do
    let (prompt, rest) := splitHeld content
    let out ← IO.getStdout
    out.write prompt
    out.flush
    out.write rest
  writeReport line := IO.eprintln line
  finish := do let _ ← guarded do (← IO.getStdout).flush

end PackedTree.Command

/-- **Runs the program** and tells the system how it ended. -/
def main (arguments : List String) : IO UInt32 := do
  return (← PackedTree.Command.run PackedTree.Command.systemHost arguments).code
