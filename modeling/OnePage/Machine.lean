import OnePage.Machine.Listing
import OnePage.Page

/-!
# The machine

One page of memory, an accumulator, two index registers and a flag that only a comparison sets.
Code, variables and texts share the page, and all arithmetic is modulo 256. The system call prints
Y as a decimal number when X is 1, and the text at Y when X is 2.

Specification: section C, the simulated machine.
-/

namespace OnePage

/-- A machine between two steps. -/
structure Machine where
  memory : Page
  /-- Address of the next instruction. -/
  pc : UInt8 := 0
  a : UInt8 := 0
  x : UInt8 := 0
  y : UInt8 := 0
  /-- Whether the last comparison found equality. -/
  zero : Bool := false
  /-- All that was printed. -/
  output : String := ""
  /-- Number of instructions executed. -/
  steps : Nat := 0
  deriving DecidableEq

/-- How a step ended. -/
inductive Status where
  | running
  | halted
  | fault (error : MachineError)
  deriving DecidableEq

/-- What a program that halts leaves. -/
structure Outcome where
  output : String
  steps : Nat
  deriving DecidableEq

namespace Machine

/-- Steps a run may take unless told otherwise. -/
def defaultLimit : Nat := 10000

/-- The machine at the start of a page. -/
def start (page : Page) : Machine := { memory := page }

/-- The instruction at the program counter. -/
def fetch (m : Machine) : Except MachineError (Instruction UInt8 UInt8) :=
  Instruction.decodeAt (fun offset ↦ .ok (m.memory.read (UInt8.ofNat offset))) m.pc.toNat

/-- The text of bytes that stand for the characters with their codes. -/
def latinText (bytes : List UInt8) : String :=
  String.ofList (bytes.map fun b ↦ Char.ofNat b.toNat)

/-- Serve the system call that X names. -/
def callSystem (m : Machine) : Status × Machine :=
  if m.x = 1 then (.running, { m with output := m.output ++ toString m.y.toNat })
  else if m.x = 2 then
    (.running, { m with output := m.output ++ latinText (m.memory.textAt m.y) })
  else (.fault (.unknownSystemCall m.x), m)

/-- The effect of an instruction, once the program counter is past it. -/
def execute (m : Machine) : Instruction UInt8 UInt8 → Status × Machine
  | .lda v => (.running, { m with a := v })
  | .ldaAt address => (.running, { m with a := m.memory.read address })
  | .sta address => (.running, { m with memory := m.memory.write address m.a })
  | .adc address => (.running, { m with a := m.a + m.memory.read address })
  | .ldx v => (.running, { m with x := v })
  | .ldxAt address => (.running, { m with x := m.memory.read address })
  | .ldy v => (.running, { m with y := v })
  | .ldyAt address => (.running, { m with y := m.memory.read address })
  | .cpx address => (.running, { m with zero := m.x == m.memory.read address })
  | .bne distance => (.running, if m.zero then m else { m with pc := m.pc + distance })
  | .inc address =>
    (.running, { m with memory := m.memory.write address (m.memory.read address + 1) })
  | .nop => (.running, m)
  | .brk => (.halted, m)
  | .sys => m.callSystem

/-- Execute one instruction. One that cannot be read changes nothing; a system call that fails has
already been counted and passed. -/
def step (m : Machine) : Status × Machine :=
  match m.fetch with
  | .error e => (.fault e, m)
  | .ok i => execute { m with steps := m.steps + 1, pc := m.pc + UInt8.ofNat i.width } i

/-- Run for at most the given number of further steps; `limit` is the number to report. -/
def runFor (limit : Nat) : Nat → Machine → Except MachineError Outcome
  | 0, _ => .error (.stepLimit limit)
  | n + 1, m =>
    match m.step with
    | (.running, next) => runFor limit n next
    | (.halted, last) => .ok { output := last.output, steps := last.steps }
    | (.fault e, _) => .error e

/-- Run a page from its start for at most `limit` steps. -/
def run (page : Page) (limit : Nat) : Except MachineError Outcome :=
  runFor limit limit (start page)

/-- The results of the given number of steps, taken whatever each of them gives. -/
def trace : Nat → Machine → List (Status × Machine)
  | 0, _ => []
  | n + 1, m => m.step :: trace n m.step.2

end Machine

end OnePage
