import RegularLanguages.CommandLine.Run

/-!
# The program

Reads the inputs that the command line asks for, runs the command and prints its result. The exit
code is 0 if the command succeeds, 1 if it fails and 2 if the arguments have no meaning.
-/

namespace RegularLanguages

/-- Why a file cannot be read, by the error that the system reports. -/
def readingError : IO.Error → CommandLine.ReadingError
  | .noFileOrDirectory .. => .missing
  | .permissionDenied .. => .forbidden
  | .inappropriateType _ number _ => if number = 21 then .isDirectory else .notDirectory
  | .invalidArgument .. => .nameTooLong
  | .userError _ => .notText
  | error => .other (toString error)

/-- Reads a file. -/
def readFile (name : String) : IO (String × Except CommandLine.ReadingError String) := do
  try
    return (name, .ok (← IO.FS.readFile name))
  catch error =>
    return (name, .error (readingError error))

/-- The inputs of a command. -/
def readInputs (command : CommandLine.Command) : IO CommandLine.Inputs := do
  let files ← command.files.mapM readFile
  let stdin ← if command.readsStdin then (← IO.getStdin).readToEnd else pure ""
  return {
    stdin
    file := fun name => (files.lookup name).getD (.error .missing) }

end RegularLanguages

open RegularLanguages in
/-- Runs the program. -/
def main (args : List String) : IO UInt32 := do
  match CommandLine.parse args with
  | none =>
    IO.eprintln "error: the arguments are not accepted"
    return 2
  | some request =>
    match CommandLine.run request (← readInputs request.command) with
    | .ok text =>
      IO.println text
      return 0
    | .error failure =>
      IO.eprintln ("error: " ++ failure.message)
      return 1
