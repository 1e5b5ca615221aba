import OnePage.Page
import OnePage.Text.Numerals

/-!
# Executables

A page that is ready to run, with the sizes of its regions: code from the bottom, variables right
above it, texts at the top. It is shown as one line of pairs or as sixteen rows of sixteen bytes.

Specification: sections 4.4 and 6, output.
-/

namespace OnePage

/-- A page that is ready to run. -/
structure Executable where
  bytes : Page
  /-- Number of code bytes, with the final halt. -/
  codeLen : Nat
  /-- Number of bytes for variables, right above the code. -/
  staticLen : Nat
  /-- Lowest address of the texts. -/
  heapStart : Nat
  deriving DecidableEq

namespace Executable

/-- All bytes as pairs of digits with single spaces between them. -/
def toHex (e : Executable) : String := Hex.pairs e.bytes.toList

/-- One row of the dump: the offset of its first byte, then its sixteen bytes. -/
def dumpRow (bytes : List UInt8) (row : Nat) : String :=
  Hex.padded 2 (16 * row) ++ ": " ++ Hex.pairs ((bytes.drop (16 * row)).take 16) ++ "\n"

/-- Sixteen rows of sixteen bytes, each behind its offset. -/
def hexDump (e : Executable) : String :=
  String.join ((List.range 16).map (dumpRow e.bytes.toList))

end Executable

end OnePage
