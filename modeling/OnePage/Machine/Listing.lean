import OnePage.Machine.Instruction
import OnePage.Text.Numerals

/-!
# Decoding and listing

Bytes are read as instructions one at a time from an offset, or one after the other from offset
zero up to the first halt. Offsets wrap at 256, also in a longer or shorter sequence of bytes.

Specification: section C, decoding.
-/

namespace OnePage

/-- Why bytes cannot be read as an instruction, or a run cannot go on. -/
inductive MachineError where
  /-- No instruction has this opcode. -/
  | unknownOpcode (opcode : UInt8) (offset : Nat)
  /-- The address operand has a high byte other than zero. -/
  | addressOutOfRange (address offset : Nat)
  /-- There is no byte at this offset. -/
  | missingByte (offset : Nat)
  /-- The X register names no system call. -/
  | unknownSystemCall (x : UInt8)
  /-- The program did not halt in the steps allowed. -/
  | stepLimit (limit : Nat)
  deriving DecidableEq

namespace MachineError

/-- The text that reports an error. -/
def message : MachineError → String
  | unknownOpcode opcode offset =>
    "unknown opcode " ++ Hex.byte opcode ++ " at " ++ Hex.padded 2 offset
  | addressOutOfRange address offset =>
    "address " ++ Hex.padded 4 address ++ " at " ++ Hex.padded 2 offset ++ " is outside the image"
  | missingByte offset => "no byte at " ++ Hex.padded 2 offset
  | unknownSystemCall x => "unknown system call X=" ++ Hex.byte x
  | stepLimit limit => "program did not halt within " ++ toString limit ++ " steps"

end MachineError

namespace Instruction

/-- How the operand of an opcode is read. -/
inductive Shape where
  | plain (i : Instruction UInt8 UInt8)
  | value (make : UInt8 → Instruction UInt8 UInt8)
  | address (make : UInt8 → Instruction UInt8 UInt8)

/-- The opcodes with the instructions they stand for. -/
def shapes : List (UInt8 × Shape) :=
  [(0xA9, .value lda), (0xAD, .address ldaAt), (0x8D, .address sta), (0x6D, .address adc),
   (0xA2, .value ldx), (0xAE, .address ldxAt), (0xA0, .value ldy), (0xAC, .address ldyAt),
   (0xEC, .address cpx), (0xD0, .value bne), (0xEE, .address inc), (0xEA, .plain nop),
   (0x00, .plain brk), (0xFF, .plain sys)]

/-- The instruction at an offset, reading no more bytes than it has. -/
def decodeAt (read : Nat → Except MachineError UInt8) (offset : Nat) :
    Except MachineError (Instruction UInt8 UInt8) := do
  let opcode ← read offset
  match shapes.lookup opcode with
  | none => throw (.unknownOpcode opcode offset)
  | some (.plain i) => pure i
  | some (.value make) =>
    let v ← read (offset + 1)
    pure (make v)
  | some (.address make) =>
    let low ← read (offset + 1)
    let high ← read (offset + 2)
    if high = 0 then pure (make low)
    else throw (.addressOutOfRange (low.toNat + 256 * high.toNat) offset)

/-- The listing text of an instruction. -/
def text : Instruction UInt8 UInt8 → String
  | lda v => "LDA #$" ++ Hex.byte v
  | ldaAt a => "LDA $" ++ Hex.byte a
  | sta a => "STA $" ++ Hex.byte a
  | adc a => "ADC $" ++ Hex.byte a
  | ldx v => "LDX #$" ++ Hex.byte v
  | ldxAt a => "LDX $" ++ Hex.byte a
  | ldy v => "LDY #$" ++ Hex.byte v
  | ldyAt a => "LDY $" ++ Hex.byte a
  | cpx a => "CPX $" ++ Hex.byte a
  | bne d => "BNE $" ++ Hex.byte d
  | inc a => "INC $" ++ Hex.byte a
  | nop => "NOP"
  | brk => "BRK"
  | sys => "SYS"

end Instruction

namespace Listing

/-- The byte at an offset, which wraps at 256. -/
def byteAt (bytes : Array UInt8) (offset : Nat) : Except MachineError UInt8 :=
  match bytes[offset % 256]? with
  | some b => .ok b
  | none => .error (.missingByte (offset % 256))

/-- The instruction at an offset of a sequence of bytes. -/
def instructionAt (bytes : Array UInt8) (offset : Nat) :
    Except MachineError (Instruction UInt8 UInt8) :=
  Instruction.decodeAt (byteAt bytes) offset

/-- The instructions from an offset up to and including the first halt, each with its offset. -/
def ofBytesFrom (bytes : Array UInt8) (offset : Nat) :
    Except MachineError (List (Nat × Instruction UInt8 UInt8)) :=
  if offset < bytes.size then
    match instructionAt bytes offset with
    | .error e => .error e
    | .ok i =>
      if i = .brk then .ok [(offset, i)]
      else (ofBytesFrom bytes (offset + i.width)).map ((offset, i) :: ·)
  else .ok []
termination_by bytes.size - offset
decreasing_by
  have := i.width_pos
  omega

/-- The listing of a sequence of bytes. -/
def ofBytes (bytes : Array UInt8) : Except MachineError (List (Nat × Instruction UInt8 UInt8)) :=
  ofBytesFrom bytes 0

end Listing

end OnePage
