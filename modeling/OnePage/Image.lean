import OnePage.Text.Numerals

/-!
# Images under construction

An image is a page whose cells may still be symbolic. Code grows from the bottom, one cell at a
time; texts grow from the top, each followed by a zero. What lies between is free, and a cell or
text that does not fit there is refused and changes nothing.

Specification: sections 3 (image) and 4.4 (heap region).
-/

namespace OnePage

/-- The content of a cell. -/
inductive Cell where
  /-- An opcode or a known byte. -/
  | const (byte : UInt8)
  /-- The address of a text. -/
  | heap (byte : UInt8)
  /-- The address of a variable, not known yet. -/
  | temp (index : Nat)
  /-- The distance of a branch, not known yet. -/
  | jump (index : Nat)
  deriving DecidableEq

namespace Cell

/-- Whether the byte of a cell is not known yet. -/
def isPlaceholder : Cell → Bool
  | temp _ | jump _ => true
  | const _ | heap _ => false

/-- The text that shows a cell. -/
def text : Cell → String
  | const b | heap b => Hex.byte b
  | temp i => "T" ++ toString i
  | jump i => "J" ++ toString i

end Cell

/-- A page under construction. -/
structure Image where
  cells : Vector Cell 256
  /-- Where the next code cell goes. -/
  position : Nat
  /-- The lowest address of the texts. -/
  heapStart : Nat

namespace Image

/-- The image with nothing on it. -/
def blank : Image := { cells := Vector.replicate 256 (.const 0), position := 0, heapStart := 256 }

/-- Add a code cell, if there is room. -/
def write? (image : Image) (cell : Cell) : Option Image :=
  if image.position < image.heapStart then
    some { image with
      cells := image.cells.setIfInBounds image.position cell
      position := image.position + 1 }
  else none

/-- Add code cells one after the other, if there is room for all. -/
def writeAll? (image : Image) : List Cell → Option Image
  | [] => some image
  | c :: cs => image.write? c >>= (·.writeAll? cs)

/-- Replace a cell, wherever it is on the page. -/
def set? (image : Image) (address : Nat) (cell : Cell) : Option Image :=
  if address < 256 then some { image with cells := image.cells.setIfInBounds address cell }
  else none

/-- Cells with others laid over them from an address on. -/
def overlay (cells : Vector Cell 256) (address : Nat) : List Cell → Vector Cell 256
  | [] => cells
  | c :: cs => overlay (cells.setIfInBounds address c) (address + 1) cs

/-- The cells of a text: its bytes, then a zero. -/
def textCells (text : String) : List Cell :=
  (text.toUTF8.data.toList ++ [0]).map .const

/-- Put a text right below the others, if there is room, and return where it starts. No text
starts at address zero. -/
def allocate? (image : Image) (text : String) : Option (UInt8 × Image) :=
  let size := (textCells text).length
  if size ≤ image.heapStart - image.position ∧ size < image.heapStart then
    let start := image.heapStart - size
    some (UInt8.ofNat start,
      { image with cells := overlay image.cells start (textCells text), heapStart := start })
  else none

/-- All cells in one line. -/
def render (image : Image) : String := " ".intercalate (image.cells.toList.map Cell.text)

end Image

end OnePage
