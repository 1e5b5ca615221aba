import OnePage.Analysis
import OnePage.Draft
import OnePage.Executable
import OnePage.Image

/-!
# Assembly

A draft becomes an executable. Its lines are put on an image in order: code from the bottom, each
text once at the top. Then slots are laid out right above the code, and every cell whose byte was
not known gets it. Whatever does not fit between code and texts ends the assembly there.

Specification: section 4.4, both passes.
-/

namespace OnePage

/-- An image being filled from a draft. -/
structure Assembly where
  image : Image
  /-- The texts on the page with their addresses, latest first. -/
  texts : List (String × UInt8)
  events : Array Event

/-- A step of an assembly. -/
abbrev Assembling := EStateM CodeError Assembly

namespace Assembly

/-- The start of an assembly. -/
def start : Assembly := { image := .blank, texts := [], events := #[] }

/-- Say something. -/
def say (profile : Profile) (text : String) : Assembling Unit :=
  modify fun s ↦
    { s with events := s.events.push { phase := .codeGen, severity := .message, profile, text } }

/-- The address of a text, which is put on the page unless it is there. -/
def intern (text : String) : Assembling UInt8 := do
  let s ← get
  match s.texts.lookup text with
  | some address => return address
  | none =>
    match s.image.allocate? text with
    | none => throw .outOfMemory
    | some (address, image) =>
      set { s with image, texts := (text, address) :: s.texts }
      say .verbose ("placed string \"" ++ text ++ "\" on the heap at " ++ Hex.byte address)
      return address

/-- The cell of an immediate operand. -/
def cellOf : Value → Assembling Cell
  | .const byte => return .const byte
  | .text text => return .heap (← intern text)
  | .jump index => return .jump index

/-- The cells of an instruction. -/
def cellsOf (i : Code) : Assembling (List Cell) :=
  match i.operand with
  | .none => return [.const i.opcode]
  | .value v => return [.const i.opcode, ← cellOf v]
  | .address slot => return [.const i.opcode, .temp slot, .const 0]

/-- Whether an instruction is announced before it is written. Forward branches and instructions
without operand are not. -/
def isAnnounced : Code → Bool
  | .bne (.jump _) | .nop | .brk | .sys => false
  | _ => true

/-- Add code cells to the image. -/
def write (cells : List Cell) : Assembling Unit := do
  let s ← get
  match s.image.writeAll? cells with
  | none => throw .outOfMemory
  | some image => set { s with image }

/-- Put a line of a draft on the image. -/
def line : Line → Assembling Unit
  | .note profile text => say profile text
  | .place text => discard (intern text)
  | .code i => do
    let cells ← cellsOf i
    if isAnnounced i then say .everything (" ".intercalate (cells.map Cell.text))
    write cells

/-- Put lines of a draft on the image, one after the other. -/
def lines : List Line → Assembling Unit
  | [] => return
  | l :: ls => do
    line l
    lines ls

/-- The address of each slot: right above the code, in order. -/
def addresses (codeLen : Nat) (d : Draft) : List Nat :=
  (List.range d.slots.size).map (codeLen + ·)

/-- The remark on where a slot is. -/
def slotNote (table : ScopeTable) (owner : Option SymbolId) (index address : Nat) : String :=
  let name := match owner with
    | some symbol => table.nameOf symbol
    | none => "intermediate"
  "T" ++ toString index ++ " (" ++ name ++ ") -> " ++ Hex.byte (UInt8.ofNat address)

/-- Say where each slot is. -/
def saySlots (table : ScopeTable) (codeLen : Nat) (d : Draft) : Assembling Unit :=
  ((d.slots.toList.zip (addresses codeLen d)).zipIdx).forM fun ((owner, address), index) ↦
    say .verbose (slotNote table owner index address)

/-- The byte of a cell, once slots have addresses and branches have distances. -/
def byteOf (codeLen : Nat) (d : Draft) (cell : Cell) : Except CodeError UInt8 :=
  match cell with
  | .const byte | .heap byte => .ok byte
  | .temp index =>
    match (addresses codeLen d)[index]? with
    | some address => .ok (UInt8.ofNat address)
    | none => .error (.malformed cell.text)
  | .jump index =>
    match d.distances[index]? with
    | some (some distance) => .ok distance
    | _ => .error (.malformed cell.text)

/-- Lay out the slots and settle every cell. -/
def finish (table : ScopeTable) (d : Draft) : Assembling Executable := do
  let image := (← get).image
  let codeLen := image.position
  let staticLen := d.slots.size
  say .everything ("image before backpatching:\n" ++ image.render)
  if image.heapStart < codeLen + staticLen then throw .outOfMemory
  saySlots table codeLen d
  match image.cells.mapM (byteOf codeLen d) with
  | .error e => throw e
  | .ok bytes =>
    let e : Executable := { bytes, codeLen, staticLen, heapStart := image.heapStart }
    say .verbose ("image:\n" ++ e.hexDump)
    say .endUser ("code generation completed: " ++ toString codeLen ++ " code bytes, " ++
      toString staticLen ++ " static bytes, " ++ toString (256 - image.heapStart) ++
      " heap bytes")
    return e

/-- Assemble a draft, or the part of it before the error that ended it. -/
def assemble (table : ScopeTable) (d : Draft) (stopped : Option CodeError) :
    Assembling Executable := do
  lines d.lines.toList
  match stopped with
  | some e => throw e
  | none => finish table d

/-- The event of an error. -/
def errorEvent (e : CodeError) : Event :=
  { phase := .codeGen, severity := .error, text := e.message }

/-- The report of an assembly. -/
def report (a : Assembling Executable) : Report CodeError Executable :=
  match a.run start with
  | .ok e s => { result := .ok e, events := s.events.toList }
  | .error e s => { result := .error e, events := s.events.toList ++ [errorEvent e] }

end Assembly

/-- Generate the executable of an analysed program. -/
def generate (a : Analysis) : Report CodeError Executable :=
  match a.tree with
  | [] => Assembly.report (throw (.malformed "empty tree"))
  | root :: _ =>
    match ((Stmt.ofTree root).draftProgram a.table).run {} with
    | .ok _ d => Assembly.report (Assembly.assemble a.table d none)
    | .error e d => Assembly.report (Assembly.assemble a.table d (some e))

end OnePage
