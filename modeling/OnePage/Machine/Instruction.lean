/-!
# Instructions

The instruction set, over any type of immediate values and any type of addresses: bytes when the
machine runs them, symbolic operands while code is drafted. An instruction is an opcode followed
by no operand, by one value, or by an address and a zero high byte, so its width does not depend
on what its operand is.

Specification: section C, instruction set.
-/

namespace OnePage

/-- An instruction with immediate values in `V` and addresses in `A`. -/
inductive Instruction (V A : Type) where
  /-- Load the accumulator with a value. -/
  | lda (value : V)
  /-- Load the accumulator from memory. -/
  | ldaAt (address : A)
  /-- Store the accumulator. -/
  | sta (address : A)
  /-- Add memory to the accumulator. -/
  | adc (address : A)
  /-- Load X with a value. -/
  | ldx (value : V)
  /-- Load X from memory. -/
  | ldxAt (address : A)
  /-- Load Y with a value. -/
  | ldy (value : V)
  /-- Load Y from memory. -/
  | ldyAt (address : A)
  /-- Compare X with memory. -/
  | cpx (address : A)
  /-- Branch by a distance unless the last comparison found equality. -/
  | bne (distance : V)
  /-- Add one to memory. -/
  | inc (address : A)
  /-- Do nothing. -/
  | nop
  /-- Halt. -/
  | brk
  /-- Call the system, which prints. -/
  | sys
  deriving DecidableEq

/-- What follows the opcode. -/
inductive Operand (V A : Type) where
  | none
  | value (v : V)
  | address (a : A)
  deriving DecidableEq

namespace Instruction

variable {V A β : Type}

/-- The first byte of the encoding. -/
def opcode : Instruction V A → UInt8
  | lda _ => 0xA9
  | ldaAt _ => 0xAD
  | sta _ => 0x8D
  | adc _ => 0x6D
  | ldx _ => 0xA2
  | ldxAt _ => 0xAE
  | ldy _ => 0xA0
  | ldyAt _ => 0xAC
  | cpx _ => 0xEC
  | bne _ => 0xD0
  | inc _ => 0xEE
  | nop => 0xEA
  | brk => 0x00
  | sys => 0xFF

/-- The operand of an instruction. -/
def operand : Instruction V A → Operand V A
  | lda v | ldx v | ldy v | bne v => .value v
  | ldaAt a | sta a | adc a | ldxAt a | ldyAt a | cpx a | inc a => .address a
  | nop | brk | sys => .none

/-- The number of bytes an operand takes. -/
def operandWidth : Operand V A → Nat
  | .none => 0
  | .value _ => 1
  | .address _ => 2

/-- The number of bytes of the encoding. -/
def width (i : Instruction V A) : Nat := operandWidth i.operand + 1

/-- An encoding takes at least the opcode. -/
theorem width_pos (i : Instruction V A) : 0 < i.width := Nat.succ_pos _

/-- The cells of an instruction: the opcode, then the operand, an address low byte first. -/
def cells (byte : UInt8 → β) (value : V → β) (address : A → β) (i : Instruction V A) : List β :=
  byte i.opcode :: match i.operand with
    | .none => []
    | .value v => [value v]
    | .address a => [address a, byte 0]

/-- An instruction has as many cells as its width says. -/
theorem length_cells (byte : UInt8 → β) (value : V → β) (address : A → β)
    (i : Instruction V A) : (i.cells byte value address).length = i.width := by
  unfold cells width
  cases i.operand <;> rfl

/-- The bytes of an instruction. -/
def encode (i : Instruction UInt8 UInt8) : List UInt8 := i.cells id id id

/-- The same instruction with its operands replaced. -/
def mapOperands {W B : Type} (value : V → W) (address : A → B) :
    Instruction V A → Instruction W B
  | lda v => lda (value v)
  | ldaAt a => ldaAt (address a)
  | sta a => sta (address a)
  | adc a => adc (address a)
  | ldx v => ldx (value v)
  | ldxAt a => ldxAt (address a)
  | ldy v => ldy (value v)
  | ldyAt a => ldyAt (address a)
  | cpx a => cpx (address a)
  | bne v => bne (value v)
  | inc a => inc (address a)
  | nop => nop
  | brk => brk
  | sys => sys

end Instruction

end OnePage
