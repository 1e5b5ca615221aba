import OnePage.CommandLine

/-!
# The program

The command line on the real files, input and output.

Specification: section A.
-/

namespace OnePage.Main

/-- The number of a system error, which some operations give with its sign reversed. -/
def errorNumber (code : UInt32) : Nat :=
  if code.toNat < 0x80000000 then code.toNat else 0x100000000 - code.toNat

/-- The reason of a failed operation. -/
def fileError : IO.Error → FileError
  | .noFileOrDirectory _ _ _ | .noSuchThing _ _ _ => .notFound
  | .alreadyExists _ _ _ => .alreadyExists
  | .inappropriateType _ code details =>
    if errorNumber code = 21 then .isDirectory
    else if errorNumber code = 20 then .notDirectory
    else .other details (errorNumber code)
  | .invalidArgument _ code details =>
    if errorNumber code = 36 then .nameTooLong else .other details (errorNumber code)
  | .permissionDenied _ code _ => .other "Permission denied" (errorNumber code)
  | e => .other (toString e) 0

/-- The result of an operation, failed or not. -/
def guarded {α : Type} (operation : IO α) : IO (Except FileError α) := do
  match ← operation.toBaseIO with
  | .ok a => return .ok a
  | .error e => return .error (fileError e)

/-- The word for a level. -/
def levelWord : Level → String
  | .error => "ERROR"
  | .warn => " WARN"
  | .info => " INFO"
  | .debug => "DEBUG"
  | .trace => "TRACE"

/-- A log record as a line. -/
def logLine (r : LogRecord) : String :=
  levelWord r.level ++ " " ++ r.message ++ " phase=\"" ++ r.phase ++ "\" line=" ++
    toString r.line ++ " column=" ++ toString r.column

/-- The host that the machine is on which the program runs. -/
def host : CommandLine.Host IO where
  readInput := do (← IO.getStdin).readBinToEnd
  readFile path := guarded (IO.FS.readBinFile path)
  makeDirectory path := guarded (IO.FS.createDir path)
  writeFile path content := guarded (IO.FS.writeBinFile path content)
  print bytes := do
    let out ← IO.getStdout
    out.write bytes
    out.flush
  log record := IO.eprintln (logLine record)
  complain text := IO.eprint text

end OnePage.Main

/-- Run the command line. -/
def main (args : List String) : IO UInt32 := OnePage.CommandLine.run OnePage.Main.host args
