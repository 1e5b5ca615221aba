import OnePage.Event
import OnePage.Executable
import OnePage.Machine
import OnePage.Text.Numerals

/-!
# Options of the command line

Arguments are read in order. An option with a value takes what is attached to it (`--emit=hex`,
`-oout`) or else the next argument, which must not look like an option. An option given twice, an
unknown option or value, a missing value and an argument that belongs to no option are refused, and
whichever comes first of a refusal and a request for the version or for help decides.

Specification: section B.3.
-/

namespace OnePage.CommandLine

/-- How an image is written. -/
inductive Format where
  /-- Rows of sixteen bytes behind their offsets. -/
  | hex
  /-- All bytes in one line. -/
  | pairs
  /-- The bytes themselves. -/
  | bin
  deriving DecidableEq

namespace Format

/-- The format with the given name. -/
def ofName? (name : String) : Option Format :=
  if name = "hex" then some hex
  else if name = "pairs" then some pairs
  else if name = "bin" then some bin
  else none

/-- What an image is written as. -/
def render (format : Format) (image : Executable) : ByteArray :=
  match format with
  | hex => image.hexDump.toUTF8
  | pairs => (image.toHex ++ "\n").toUTF8
  | bin => ⟨image.bytes.toArray⟩

end Format

/-- The profile with the given name. -/
def profileOfName? (name : String) : Option Profile :=
  if name = "end-user" then some .endUser
  else if name = "verbose" then some .verbose
  else if name = "everything" then some .everything
  else none

/-- The options given so far. -/
structure Options where
  input : Option String := none
  output : Option String := none
  format : Option Format := none
  run : Bool := false
  verbosity : Option Profile := none
  stepLimit : Option Nat := none
  deriving DecidableEq

/-- An option that has a value. -/
inductive Setting where
  | input
  | output
  | format
  | verbosity
  | stepLimit
  deriving DecidableEq

/-- Give an option its value, unless it has one or the value is not one for it. -/
def Options.set? (o : Options) (setting : Setting) (value : String) : Option Options :=
  match setting with
  | .input => if o.input.isSome then none else some { o with input := some value }
  | .output => if o.output.isSome then none else some { o with output := some value }
  | .format =>
    if o.format.isSome then none
    else (Format.ofName? value).map fun format ↦ { o with format := some format }
  | .verbosity =>
    if o.verbosity.isSome then none
    else (profileOfName? value).map fun profile ↦ { o with verbosity := some profile }
  | .stepLimit =>
    if o.stepLimit.isSome then none
    else
      (Decimal.ofText? 0x10000000000000000 value).map fun limit ↦ { o with stepLimit := some limit }

/-- What an argument means by itself. -/
inductive Argument where
  /-- An option with its value attached. -/
  | attached (setting : Setting) (value : String)
  /-- An option whose value is the next argument. -/
  | awaiting (setting : Setting)
  | run
  | version
  | help
  /-- No option follows. -/
  | endOfOptions
  | unknown
  deriving DecidableEq

namespace Argument

/-- The option with a value that has the given long name. -/
def setting? (name : String) : Option Setting :=
  if name = "input" then some .input
  else if name = "output" then some .output
  else if name = "emit" then some .format
  else if name = "verbosity" then some .verbosity
  else if name = "step-limit" then some .stepLimit
  else none

/-- The argument of two dashes and the given characters. -/
def ofLong (text : List Char) : Argument :=
  let name := String.ofList (text.takeWhile (· ≠ '='))
  match setting? name, text.dropWhile (· ≠ '=') with
  | some setting, [] => awaiting setting
  | some setting, _ :: value => attached setting (String.ofList value)
  | none, [] =>
    if name = "run" then run
    else if name = "version" then version
    else if name = "help" then help
    else unknown
  | none, _ :: _ => unknown

/-- The argument of a one-letter option and what is attached to it. -/
def ofShort (setting : Setting) : List Char → Argument
  | [] => awaiting setting
  | '=' :: value => attached setting (String.ofList value)
  | value => attached setting (String.ofList value)

/-- What an argument means by itself. -/
def ofText (text : String) : Argument :=
  match text.toList with
  | ['-', '-'] => endOfOptions
  | '-' :: '-' :: rest => ofLong rest
  | '-' :: 'i' :: rest => ofShort .input rest
  | '-' :: 'o' :: rest => ofShort .output rest
  | '-' :: 'V' :: _ => version
  | '-' :: 'h' :: _ => help
  | _ => unknown

/-- Whether an argument cannot be the value of an option before it. -/
def looksLikeOption (text : String) : Bool :=
  match text.toList with
  | '-' :: _ :: _ => true
  | _ => false

end Argument

/-- What the command line asks for. -/
inductive Request where
  | compile (options : Options)
  | version
  | help
  | refused
  deriving DecidableEq

/-- Read arguments, given the options before them. -/
def Request.ofArgs (o : Options) : List String → Request
  | [] => .compile o
  | arg :: rest =>
    match Argument.ofText arg with
    | .version => .version
    | .help => .help
    | .unknown => .refused
    | .endOfOptions => if rest.isEmpty then .compile o else .refused
    | .run => if o.run then .refused else Request.ofArgs { o with run := true } rest
    | .attached setting value =>
      match o.set? setting value with
      | some o => Request.ofArgs o rest
      | none => .refused
    | .awaiting setting =>
      match rest with
      | [] => .refused
      | value :: rest =>
        if Argument.looksLikeOption value then .refused
        else
          match o.set? setting value with
          | some o => Request.ofArgs o rest
          | none => .refused

end OnePage.CommandLine
