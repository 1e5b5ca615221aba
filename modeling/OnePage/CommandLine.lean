import OnePage.CommandLine.Files
import OnePage.CommandLine.Options
import OnePage.Compile
import OnePage.Text.Chars

/-!
# The command line

A source text is read from a file or from the input, compiled, written as an image to a file or to
the output, and run if that is asked for. What the command needs of the world around it is a host,
so the same command runs on real files and on a model of them.

Specification: sections A and B.3.
-/

namespace OnePage.CommandLine

/-- What a command needs of the world around it. -/
structure Host (m : Type → Type) where
  readInput : m ByteArray
  readFile : String → m (Except FileError ByteArray)
  /-- Make one directory. -/
  makeDirectory : String → m (Except FileError Unit)
  writeFile : String → ByteArray → m (Except FileError Unit)
  print : ByteArray → m Unit
  log : LogRecord → m Unit
  complain : String → m Unit

/-- Why a command failed: what it was doing, and the causes, outermost first. -/
structure Failure where
  message : String
  causes : List String := []
  deriving DecidableEq

namespace Failure

/-- A cause behind its number. -/
def numbered (cause : String × Nat) : String :=
  let number := toString cause.2
  String.ofList (List.replicate (5 - number.length) ' ') ++ number ++ ": " ++ cause.1 ++ "\n"

/-- The text that reports a failure. -/
def report (f : Failure) : String :=
  let head := "Error: " ++ f.message ++ "\n"
  match f.causes with
  | [] => head
  | [cause] => head ++ "\nCaused by:\n    " ++ cause ++ "\n"
  | causes => head ++ "\nCaused by:\n" ++ String.join (causes.zipIdx.map numbered)

end Failure

/-- A step of a command. -/
abbrev Command (m : Type → Type) := ExceptT Failure m

variable {m : Type → Type} [Monad m]

/-- Take a step that may fail with a file error, saying what it was for. -/
def attempt {α : Type} (purpose : String) (step : m (Except FileError α)) : Command m α := do
  match ← (step : Command m (Except FileError α)) with
  | .ok a => return a
  | .error e => throw { message := purpose, causes := [e.message] }

/-- What is said of bytes that are not text. -/
def notText : String := "stream did not contain valid UTF-8"

/-- The source text. -/
def readSource (host : Host m) (o : Options) : Command m String := do
  match o.input with
  | some path =>
    let purpose := "failed to read input file " ++ path
    let bytes ← attempt purpose (host.readFile path)
    match String.fromUTF8? bytes with
    | some source => return source
    | none => throw { message := purpose, causes := [notText] }
  | none =>
    match String.fromUTF8? (← host.readInput) with
    | some source => return source
    | none => throw { message := notText }

/-- Whether an event is logged at a verbosity. -/
def isLogged (verbosity : Profile) (e : Event) : Bool :=
  e.isError || e.isWarning || e.isWithin verbosity

/-- Compile a source text, logging what is said. -/
def compileSource (host : Host m) (o : Options) (source : String) : Command m Artifact := do
  let report := compile source
  for e in report.events.filter (isLogged (o.verbosity.getD .endUser)) do
    host.log e.record
  match report.result with
  | .ok artifact => return artifact
  | .error e => throw { message := "compilation failed", causes := [e.message, e.cause] }

/-- Whether a path leads to a directory, which cannot be read as a file. -/
def isDirectory (host : Host m) (path : String) : m Bool := do
  match ← host.readFile path with
  | .error .isDirectory => return true
  | _ => return false

/-- Make a directory, or find it made. -/
def ensureDirectory (host : Host m) (path : String) : m (Except FileError Unit) := do
  match ← host.makeDirectory path with
  | .ok _ => return .ok ()
  | .error e => if ← isDirectory host path then return .ok () else return .error e

/-- Make a directory and those above it, as far as they are missing, going up fewer times than the
given number. -/
def ensureDirectories (host : Host m) (path : String) : Nat → m (Except FileError Unit)
  | 0 => return .error .notFound
  | depth + 1 => do
    if path.isEmpty then return .ok ()
    match ← ensureDirectory host path, Path.parent? path with
    | .error .notFound, some above =>
      match ← ensureDirectories host above depth with
      | .ok _ => ensureDirectory host path
      | .error e => return .error e
    | result, _ => return result

/-- Write an image where it is asked for. -/
def writeImage (host : Host m) (o : Options) (bytes : ByteArray) : Command m Unit := do
  match o.output with
  | none => host.print bytes
  | some path =>
    match Path.parent? path with
    | none | some "" => pure ()
    | some directory =>
      attempt ("failed to create directory " ++ Text.quoted directory)
        (ensureDirectories host directory (directory.length + 1))
    attempt ("failed to write output file " ++ path) (host.writeFile path bytes)

/-- Run an image and print what it prints. -/
def runImage (host : Host m) (o : Options) (image : Executable) : Command m Unit := do
  match Machine.run image.bytes (o.stepLimit.getD Machine.defaultLimit) with
  | .ok outcome => host.print (outcome.output ++ "\n").toUTF8
  | .error e => throw { message := "failed to execute image", causes := [e.message] }

/-- Compile, write and perhaps run. -/
def execute (host : Host m) (o : Options) : Command m Unit := do
  let source ← readSource host o
  let artifact ← compileSource host o source
  writeImage host o ((o.format.getD .hex).render artifact.image)
  if o.run then runImage host o artifact.image

/-- The name and version of the command. -/
def versionLine : String := "sixc-cli 0.1.0\n"

/-- How the command is used. -/
def usage : String :=
  "Usage: sixc-cli [OPTIONS]\n\nOptions:\n" ++
  "  -i, --input <INPUT>          Source file (reads stdin when omitted)\n" ++
  "  -o, --output <OUTPUT>        Image path (writes stdout when omitted)\n" ++
  "      --emit <FORMAT>          hex, pairs or bin [default: hex]\n" ++
  "      --run                    Run the image on the simulator after compiling\n" ++
  "      --verbosity <VERBOSITY>  end-user, verbose or everything [default: end-user]\n" ++
  "      --step-limit <STEPS>     Instruction budget for --run [default: 10000]\n" ++
  "  -h, --help                   Print help\n" ++
  "  -V, --version                Print version\n"

/-- Do what arguments ask for and return the exit code: 0 for success, 1 for a failure that is
reported, 2 for arguments that are refused. -/
def run (host : Host m) (args : List String) : m UInt32 := do
  match Request.ofArgs {} args with
  | .version =>
    host.print versionLine.toUTF8
    return 0
  | .help =>
    host.print usage.toUTF8
    return 0
  | .refused =>
    host.complain usage
    return 2
  | .compile o =>
    match ← (execute host o).run with
    | .ok _ => return 0
    | .error failure =>
      host.complain failure.report
      return 1

/-- A model of the world around a command. -/
structure World where
  input : ByteArray
  files : Files
  /-- All that was printed. -/
  output : ByteArray := .empty
  log : List LogRecord := []
  complaints : String := ""

namespace World

/-- The world in which a command runs in a directory with the given files. The input can be read as
a file too, and there is a device that swallows what is written to it. -/
def start (input : ByteArray) (contents : List (String × ByteArray)) : World :=
  let files := Files.ofList ["tmp", "work"] contents
  { input
    files := ((files.put ["dev"] .directory).put ["dev", "null"] .sink).put ["dev", "stdin"]
      (.file input) }

/-- The host that a model of the world is. -/
def host : Host (StateM World) where
  readInput := return (← get).input
  readFile path := return (← get).files.read path
  makeDirectory path := do
    match (← get).files.makeDirectory path with
    | .ok files =>
      modify ({ · with files })
      return .ok ()
    | .error e => return .error e
  writeFile path content := do
    match (← get).files.write path content with
    | .ok files =>
      modify ({ · with files })
      return .ok ()
    | .error e => return .error e
  print bytes := modify fun w ↦ { w with output := w.output ++ bytes }
  log line := modify fun w ↦ { w with log := w.log ++ [line] }
  complain text := modify fun w ↦ { w with complaints := w.complaints ++ text }

/-- Run a command in a model of the world. -/
def run (w : World) (args : List String) : UInt32 × World := (CommandLine.run host args).run w

end World

end OnePage.CommandLine
