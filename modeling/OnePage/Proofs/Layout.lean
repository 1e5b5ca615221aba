import OnePage.Assembly
import OnePage.Proofs.Collections
import OnePage.Proofs.Encoding

/-!
# Layouts

A layout gives every symbolic operand of drafted code its byte: the slots stand right above the
code, each text has an address and each forward branch a distance. Under a layout a draft is plain
machine code.
-/

namespace OnePage

/-- The instruction of a line, if it has one. -/
def Line.code? : Line → Option Code
  | .code i => some i
  | .note _ _ | .place _ => none

/-- The instructions of a draft. -/
def Draft.code (d : Draft) : List Code := d.lines.toList.filterMap Line.code?

/-- The code size of lines is that of their instructions. -/
theorem Line.foldr_width (lines : List Line) :
    lines.foldr (fun line size ↦ line.width + size) 0 =
      Instruction.size (lines.filterMap Line.code?) := by
  induction lines with
  | nil => rfl
  | cons line lines ih =>
    rw [List.foldr_cons, ih, List.filterMap_cons]
    cases line with
    | code _ => rfl
    | note _ _ | place _ => exact Nat.zero_add _

/-- The code size of a draft is that of its instructions. -/
theorem Draft.codeSize_eq (d : Draft) : d.codeSize = Instruction.size d.code :=
  Line.foldr_width d.lines.toList

/-- Bytes for the symbolic operands of drafted code. -/
structure Layout where
  codeLen : Nat
  /-- The distance of each forward branch. -/
  distance : Nat → UInt8
  /-- The address of each text. -/
  address : String → UInt8

namespace Layout

/-- The address of a slot. -/
def slot (layout : Layout) (index : Nat) : UInt8 := UInt8.ofNat (layout.codeLen + index)

/-- The byte of an immediate operand. -/
def value (layout : Layout) : Value → UInt8
  | .const byte => byte
  | .text text => layout.address text
  | .jump index => layout.distance index

/-- The instruction that drafted code stands for. -/
def resolve (layout : Layout) : Code → Instruction UInt8 UInt8 :=
  Instruction.mapOperands layout.value layout.slot

/-- The instructions that a draft stands for. -/
def resolveAll (layout : Layout) (code : List Code) : List (Instruction UInt8 UInt8) :=
  code.map layout.resolve

/-- The byte of a cell. -/
def byte (layout : Layout) : Cell → UInt8
  | .const byte | .heap byte => byte
  | .temp index => layout.slot index
  | .jump index => layout.distance index

/-- Resolving keeps the size of code. -/
theorem size_resolveAll (layout : Layout) (code : List Code) :
    Instruction.size (layout.resolveAll code) = Instruction.size code :=
  Instruction.size_map_mapOperands _ _ code

/-- Slots below the end of the page have addresses of their own. -/
theorem slot_inj (layout : Layout) {i j : Nat} (hi : layout.codeLen + i < 256)
    (hj : layout.codeLen + j < 256) (h : layout.slot i = layout.slot j) : i = j := by
  have hn := congrArg UInt8.toNat h
  simp only [slot, UInt8.toNat_ofNat', Nat.reducePow] at hn
  rw [Nat.mod_eq_of_lt hi, Nat.mod_eq_of_lt hj] at hn
  omega

end Layout

/-- The cells of an instruction whose texts have the given addresses. -/
def Instruction.symbolic (address : String → UInt8) (i : Code) : List Cell :=
  i.cells .const (fun
    | .const byte => .const byte
    | .text text => .heap (address text)
    | .jump index => .jump index) .temp

/-- The bytes of an instruction's cells are those of the instruction resolved. -/
theorem Layout.map_byte_symbolic (layout : Layout) (i : Code) :
    (i.symbolic layout.address).map layout.byte = (layout.resolve i).encode := by
  cases i with
  | lda v | ldx v | ldy v | bne v => cases v <;> rfl
  | _ => rfl

end OnePage
