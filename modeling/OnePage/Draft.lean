import OnePage.Event
import OnePage.Machine.Instruction
import OnePage.Program
import OnePage.Text.Numerals

/-!
# Drafts of code

A draft is the code of a program before anything has an address: instructions whose operands name
texts, variables and branches, together with remarks on how they came about. Each variable and each
value that has to be kept gets a slot of its own. How much code there is does not depend on where it
will stand, so distances of branches are known as soon as their ends are drafted.

Specification: section 4.4, first pass.
-/

namespace OnePage

/-- An immediate operand of drafted code. -/
inductive Value where
  | const (byte : UInt8)
  /-- The address of a text. -/
  | text (text : String)
  /-- The distance of a forward branch, by its number. -/
  | jump (index : Nat)
  deriving DecidableEq

/-- An instruction that addresses slots by their numbers. -/
abbrev Code := Instruction Value Nat

/-- A line of a draft. -/
inductive Line where
  /-- A remark for readers of the given profile. -/
  | note (profile : Profile) (text : String)
  /-- A text has to be on the page. -/
  | place (text : String)
  | code (instruction : Code)

/-- The number of code bytes of a line. -/
def Line.width : Line → Nat
  | code i => i.width
  | note _ _ | place _ => 0

/-- Code drafted so far. -/
structure Draft where
  lines : Array Line := #[]
  /-- For each slot, the variable it is for, if it is for one. -/
  slots : Array (Option SymbolId) := #[]
  /-- For each forward branch, its distance once it is known. -/
  distances : Array (Option UInt8) := #[]
  /-- The slots of the declared variables, latest first. -/
  homes : List (SymbolId × Nat) := []
  /-- The slot that is never written. -/
  zero : Option Nat := none

/-- The number of code bytes drafted so far. -/
def Draft.codeSize (d : Draft) : Nat :=
  d.lines.toList.foldr (fun line size ↦ line.width + size) 0

/-- A step of drafting. -/
abbrev Drafting := EStateM CodeError Draft

namespace Drafting

/-- Add a line. -/
def add (line : Line) : Drafting Unit := modify fun d ↦ { d with lines := d.lines.push line }

/-- Add an instruction. -/
def emit (instruction : Code) : Drafting Unit := add (.code instruction)

/-- Add a remark. -/
def note (text : String) : Drafting Unit := add (.note .verbose text)

/-- Ask for a text to be on the page and return its address. -/
def intern (text : String) : Drafting Value := do
  add (.place text)
  return .text text

/-- Take a new slot. -/
def newSlot (owner : Option SymbolId) : Drafting Nat :=
  modifyGet fun d ↦ (d.slots.size, { d with slots := d.slots.push owner })

/-- The slot that is never written and so holds zero. -/
def zeroSlot : Drafting Nat := do
  match (← get).zero with
  | some slot => return slot
  | none =>
    let slot ← newSlot none
    modify fun d ↦ { d with zero := some slot }
    return slot

/-- The slot of a variable. -/
def variableSlot (table : ScopeTable) (symbol : SymbolId) : Drafting Nat := do
  match (← get).homes.lookup symbol with
  | some slot => return slot
  | none => throw (.unresolvedSymbol (table.nameOf symbol))

/-- Draft a system call. -/
def callSystem (number : UInt8) : Drafting Unit := do
  emit (.ldx (.const number))
  emit .sys

/-- Draft a branch forward; its number and the place after it are returned. -/
def branchForward : Drafting (Nat × Nat) := do
  let jump ← modifyGet fun d ↦
    (d.distances.size, { d with distances := d.distances.push none })
  emit (.bne (.jump jump))
  return (jump, (← get).codeSize)

/-- Let a branch end at the next instruction drafted. -/
def land (jump origin : Nat) : Drafting Unit := do
  let distance := UInt8.ofNat ((← get).codeSize - origin)
  note ("J" ++ toString jump ++ " resolves to distance " ++ Hex.byte distance)
  modify fun d ↦ { d with distances := d.distances.setIfInBounds jump (some distance) }

/-- Draft a branch back to an earlier place, always taken: one never equals the zero slot. -/
def branchBack (start : Nat) : Drafting Unit := do
  let slot ← zeroSlot
  emit (.ldx (.const 1))
  emit (.cpx slot)
  let distance := UInt8.ofNat start - UInt8.ofNat ((← get).codeSize + 2)
  note ("branching back to " ++ Hex.padded 2 start ++ " with distance " ++ Hex.byte distance)
  emit (.bne (.const distance))

end Drafting

open Drafting

namespace Expr

/-- Stop at what is not an expression. -/
def check : Expr → Drafting Unit
  | invalid e => throw e
  | _ => return

/-- Stop at the first of some expressions that is not one. -/
def checkAll : List Expr → Drafting Unit
  | [] => return
  | e :: es => do
    e.check
    checkAll es

/-- Load the byte of a truth value. -/
def bit (value : Bool) : UInt8 := if value then 1 else 0

/-- Load a constant. -/
def loadConst (value : UInt8) : Drafting Unit := emit (.lda (.const value))

/-- Load the address of a text. -/
def loadText (value : String) : Drafting Unit := do
  emit (.lda (← intern value))

/-- Keep in a new slot what a step loads. -/
def keep (load : Drafting Unit) : Drafting Nat := do
  let slot ← newSlot none
  load
  emit (.sta slot)
  return slot

/-- Add to a slot what each of some steps loads. -/
def accumulate (slot : Nat) : List (Drafting Unit) → Drafting Unit
  | [] => return
  | load :: loads => do
    load
    emit (.adc slot)
    emit (.sta slot)
    accumulate slot loads

/-- Add up in a new slot what some steps load. The sum is left in the accumulator too. -/
def addUp (first : Drafting Unit) (rest : List (Drafting Unit)) : Drafting Nat := do
  let total ← keep first
  accumulate total rest
  return total

/-- Compare the bytes in two slots. -/
def compareSlots (left right : Nat) : Drafting Unit := do
  emit (.ldxAt left)
  emit (.cpx right)

/-- Load one if two slots hold equal bytes (or, if `equal` is false, different ones), zero if
not. -/
def loadComparison (equal : Bool) (left right : Nat) : Drafting Unit := do
  compareSlots left right
  loadConst (bit (!equal))
  emit (.bne (.const 2))
  loadConst (bit equal)

mutual

/-- Draft code that leaves the value of an expression in the accumulator. -/
def load (table : ScopeTable) : Expr → Drafting Unit
  | digit value => loadConst value
  | flag value => loadConst (bit value)
  | text value => loadText value
  | var symbol _ => do
    emit (.ldaAt (← variableSlot table symbol))
  | sum first rest => do
    checkAll (first :: rest)
    discard (addUp (load table first) (loads table rest))
  | compare equal left right => do
    checkAll [left, right]
    loadComparison equal (← toSlot table left) (← toSlot table right)
  | oddCompare operator => throw (.malformed operator)
  | invalid e => throw e

/-- Draft code that leaves the value of an expression in a slot. A variable stays where it is;
anything else gets a new slot. -/
def toSlot (table : ScopeTable) : Expr → Drafting Nat
  | digit value => keep (loadConst value)
  | flag value => keep (loadConst (bit value))
  | text value => keep (loadText value)
  | var symbol _ => variableSlot table symbol
  | sum first rest => do
    checkAll (first :: rest)
    addUp (load table first) (loads table rest)
  | compare equal left right => keep do
    checkAll [left, right]
    loadComparison equal (← toSlot table left) (← toSlot table right)
  | oddCompare operator => throw (.malformed operator)
  | invalid e => throw e

/-- The steps that load the values of some expressions. -/
def loads (table : ScopeTable) : List Expr → List (Drafting Unit)
  | [] => []
  | e :: es => load table e :: loads table es

end

/-- Draft a comparison that finds equality if a condition holds. -/
def condition (table : ScopeTable) : Expr → Drafting Unit
  | compare true left right => do
    checkAll [left, right]
    compareSlots (← toSlot table left) (← toSlot table right)
  | e => do
    let slot ← e.toSlot table
    emit (.ldx (.const 1))
    emit (.cpx slot)

end Expr

namespace Stmt

/-- The word for a truth value. -/
def flagWord (value : Bool) : String := if value then "true" else "false"

/-- Print the text at an address. -/
def printText (value : String) : Drafting Unit := do
  emit (.ldy (← intern value))
  callSystem 2

/-- Print the word for the truth value in a slot. -/
def printFlag (slot : Nat) : Drafting Unit := do
  let yes ← intern (flagWord true)
  let no ← intern (flagWord false)
  emit (.ldx (.const 1))
  emit (.cpx slot)
  emit (.ldy no)
  emit (.bne (.const 2))
  emit (.ldy yes)
  callSystem 2

/-- Print the number in a slot. -/
def printNumber (slot : Nat) : Drafting Unit := do
  emit (.ldyAt slot)
  callSystem 1

/-- Print the variable in a slot, whose type says how. -/
def printVariable (type : VarType) (name : String) (slot : Nat) : Drafting Unit :=
  match type with
  | .int => printNumber slot
  | .string => do
    emit (.ldyAt slot)
    callSystem 2
  | .boolean => printFlag slot
  | .none => throw (.malformed name)

/-- Print the value of an expression. -/
def printValue (table : ScopeTable) : Expr → Drafting Unit
  | .digit value => do
    emit (.ldy (.const value))
    callSystem 1
  | .flag value => printText (flagWord value)
  | .text value => printText value
  | .var symbol name => do
    printVariable (table.typeOf symbol) name (← variableSlot table symbol)
  | .sum first rest => do
    printNumber (← Expr.toSlot table (.sum first rest))
  | e => do
    printFlag (← e.toSlot table)

/-- Declare a variable: it gets a new slot, which starts as zero or as the empty text. -/
def declareVariable (table : ScopeTable) (symbol : SymbolId) : Drafting Unit := do
  let slot ← newSlot (some symbol)
  modify fun d ↦ { d with homes := (symbol, slot) :: d.homes }
  note ("declaring '" ++ table.nameOf symbol ++ "' in T" ++ toString slot)
  if table.typeOf symbol = .string then Expr.loadText "" else Expr.loadConst 0
  emit (.sta slot)

mutual

/-- Draft the code of a statement. -/
def draft (table : ScopeTable) : Stmt → Drafting Unit
  | block body => draftAll table body
  | declare symbol => declareVariable table symbol
  | assign symbol value => do
    let slot ← variableSlot table symbol
    value.load table
    emit (.sta slot)
  | print value => printValue table value
  | ifThen condition body => do
    condition.condition table
    let (jump, origin) ← branchForward
    draft table body
    land jump origin
  | whileDo condition body => do
    let start := (← get).codeSize
    condition.condition table
    let (jump, origin) ← branchForward
    draft table body
    branchBack start
    land jump origin
  | invalid e => throw e

/-- Draft the code of statements, one after the other. -/
def draftAll (table : ScopeTable) : List Stmt → Drafting Unit
  | [] => return
  | s :: ss => do
    draft table s
    draftAll table ss

end

/-- Draft the code of a whole program, which ends by halting. -/
def draftProgram (table : ScopeTable) (program : Stmt) : Drafting Unit := do
  note "began code generation"
  program.draft table
  add (.note .everything "end of program, writing BRK")
  emit .brk

end Stmt

end OnePage
