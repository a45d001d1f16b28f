import Subleq.Cell
import Subleq.Image
import Subleq.Machine.Breakpoints

/-!
# The machine

A memory of cells, a program counter, and one instruction.  The three cells at the program counter
are two addresses `A` and `B` and a target `C`: the machine subtracts the cell at `A` from the cell
at `B`, and goes on at `C` if the result is not positive, and after the instruction otherwise.  Code
is not told apart from data, so a program can change its own instructions.

An instruction that is not wholly inside of memory, or one of whose two addresses is not, halts the
machine before anything has changed.  That is how programs end.
-/

namespace Subleq

/-- What changes while a machine runs. -/
structure Machine.State where
  memory : Array Int
  pc : Int
  steps : Nat
deriving DecidableEq, Repr

namespace Machine.State

/-- The content of a cell; a cell outside of memory counts as zero. -/
def cell (state : State) (address : Int) : Int :=
  if address < 0 then 0 else state.memory.getD address.toNat 0

def InMemory (state : State) (address : Int) : Prop :=
  0 ≤ address ∧ address < state.memory.size

instance (state : State) (address : Int) : Decidable (state.InMemory address) :=
  inferInstanceAs (Decidable (_ ∧ _))

/-- The address that keeps the next instruction from being executed, if there is one.  For a program
counter past the end it is at least the size of the memory. -/
def obstacle? (state : State) : Option Int :=
  if state.pc < 0 then some state.pc
  else if state.memory.size < state.pc + 3 then some (max state.pc state.memory.size)
  else if ¬ state.InMemory (state.cell state.pc) then some (state.cell state.pc)
  else if ¬ state.InMemory (state.cell (state.pc + 1)) then some (state.cell (state.pc + 1))
  else none

/-- The cell that the next instruction writes to. -/
def destination (state : State) : Int := state.cell (state.pc + 1)

/-- The result that the next instruction writes. -/
def result (width : Width) (state : State) : Int :=
  width.wrap (state.cell state.destination - state.cell (state.cell state.pc))

/-- Writes a value into a cell, and goes on behind the instruction or at its target. -/
def store (state : State) (address value : Int) : State :=
  let pc := if value ≤ 0 then state.cell (state.pc + 2) else state.pc + 3
  match state with
  | ⟨memory, _, steps⟩ => ⟨memory.setIfInBounds address.toNat value, pc, steps + 1⟩

/-- Executes the next instruction, which nothing keeps from being executed.  The target is read
before the result is written. -/
def execute (width : Width) (state : State) : State :=
  state.store state.destination (state.result width)

/-- How a run ends. -/
inductive Outcome
  | halted (address : Int)
  | stepLimit
  | breakpoint
  | watchpoint (address value : Int)
deriving DecidableEq, Repr

/-- Runs for at most `budget` steps.  Unless it is the first, an arrival at a breakpoint ends the
run before the instruction there; a write to a watched cell ends it after the instruction. -/
def run (width : Width) (points : Breakpoints) : (budget : Nat) → (first : Bool) → State →
    State × Outcome
  | 0, _, state => (state, .stepLimit)
  | budget + 1, first, state =>
      if !first && points.breaksAt state.pc then (state, .breakpoint)
      else
        match state.obstacle? with
        | some address => (state, .halted address)
        | none =>
            let address := state.destination
            let value := state.result width
            let state := state.store address value
            if points.watchesCell address then (state, .watchpoint address value)
            else run width points budget false state

end Machine.State

/-- A machine: its state, what it was loaded with, and where its runs stop.  Once it has halted it
keeps the event until the program counter is set or the machine is reset. -/
structure Machine where
  width : Width
  loaded : Array Int
  entry : Int
  temps : OrderedMap String Int
  state : Machine.State
  halt : Option StopEvent
  points : Breakpoints
deriving DecidableEq, Repr

namespace Machine

/-- Why a machine cannot be built, or refuses an access. -/
inductive Fault
  | narrowCell (bits : Int)
  | memoryTooSmall (size : Int) (cells : Nat)
  | outsideMemory (address : Int) (size : Nat)
  /-- The cell of a temp field is outside of memory. -/
  | noTempCell
  /-- The address of a temp field is outside of every memory. -/
  | noTempAddress
deriving DecidableEq, Repr

def Fault.message : Fault → String
  | narrowCell bits => "cell width must be at least 2 bits, got " ++ toString bits
  | memoryTooSmall size cells =>
      "memory size " ++ toString size ++ " is smaller than the " ++ toString cells ++ "-cell image"
  | outsideMemory address size =>
      "address " ++ toString address ++ " outside memory (size " ++ toString size ++ ")"
  | noTempCell => "list index out of range"
  | noTempAddress => "cannot fit 'int' into an index-sized integer"

/-- A run has a million steps unless something else is asked for. -/
def defaultBudget : Nat := 1000000

/-! ## Building a machine -/

/-- What a machine is built from.  A width of zero stands for the usual one. -/
structure Program where
  cells : List Int
  cellBits : Int := 0
  entry : Int := 0
  temps : OrderedMap String Int := []
deriving DecidableEq, Repr

def Program.ofImage (image : Image) : Program :=
  { cells := image.cells, cellBits := image.cellBits, entry := image.entry, temps := image.temps }

/-- The first of the given widths that is not zero, or else the usual one. -/
def chooseBits (given : Option Int) (own : Int) : Int :=
  let bits := given.getD 0
  if bits ≠ 0 then bits else if own ≠ 0 then own else 64

/-- The memory of a program: its cells, each brought into the width, and zeros up to the size. -/
def loadCells (width : Width) (cells : List Int) (size : Nat) : Array Int :=
  ((cells.map width.wrap) ++ List.replicate (size - cells.length) 0).toArray

/-- Builds a machine that is about to execute its first instruction. -/
def build (program : Program) (memorySize cellBits entry : Option Int) : Except Fault Machine :=
  let bits := chooseBits cellBits program.cellBits
  match Width.ofInt? bits with
  | none => .error (.narrowCell bits)
  | some width =>
      let size := memorySize.getD program.cells.length
      if size < program.cells.length then .error (.memoryTooSmall size program.cells.length)
      else
        let memory := loadCells width program.cells size.toNat
        let start := entry.getD program.entry
        .ok
          { width, loaded := memory, entry := start, temps := program.temps
            state := ⟨memory, start, 0⟩, halt := none, points := Breakpoints.none }

/-! ## State -/

def memorySize (machine : Machine) : Nat := machine.state.memory.size

/-- Goes back to the state in which the machine was built; breakpoints stay. -/
def reset (machine : Machine) : Machine :=
  { machine with state := ⟨machine.loaded, machine.entry, 0⟩, halt := none }

/-- Sets the program counter, from where a halted machine goes on. -/
def setPc (machine : Machine) (pc : Int) : Machine :=
  { machine with state := { machine.state with pc }, halt := none }

def isHalted (machine : Machine) : Bool := machine.halt.isSome

def read (machine : Machine) (address : Int) : Except Fault Int :=
  if machine.state.InMemory address then .ok (machine.state.cell address)
  else .error (.outsideMemory address machine.memorySize)

/-- Writes a cell; the value is brought into the width. -/
def write (machine : Machine) (address value : Int) : Except Fault Machine :=
  if machine.state.InMemory address then
    let cell := machine.width.wrap value
    .ok { machine with
      state := { machine.state with
        memory := machine.state.memory.setIfInBounds address.toNat cell } }
  else .error (.outsideMemory address machine.memorySize)

/-- The place in memory up to which a dump goes: an end below zero counts from the end of memory. -/
def dumpEnd (machine : Machine) (finish : Int) : Nat :=
  if finish < 0 then (machine.memorySize + finish).toNat else min finish.toNat machine.memorySize

/-- The cells from `start` up to, and without, `finish`. -/
def dump (machine : Machine) (start : Int) (finish : Option Int) : List Int :=
  let stop := machine.dumpEnd (finish.getD machine.memorySize)
  (machine.state.memory.toList.take stop).drop start.toNat

/-- Addresses are below this bound in magnitude. -/
def addressBound : Nat := Nat.pow 2 63

/-- The content of the cell of a temp field; an address below zero counts from the end of memory. -/
def tempCell (machine : Machine) (address : Int) : Except Fault Int :=
  if address < -addressBound ∨ addressBound ≤ address then .error .noTempAddress
  else
    let place := if address < 0 then address + machine.memorySize else address
    if machine.state.InMemory place then .ok (machine.state.cell place) else .error .noTempCell

/-- The contents of the temp fields that the program has, in the order of the given names. -/
def readTemps (machine : Machine) : List String → Except Fault (List (String × Int))
  | [] => .ok []
  | name :: rest =>
      match OrderedMap.get? machine.temps name with
      | none => machine.readTemps rest
      | some address => do
          let value ← machine.tempCell address
          let others ← machine.readTemps rest
          .ok ((name, value) :: others)

/-! ## Execution -/

def haltEvent (state : State) (address : Int) : StopEvent :=
  { reason := .halted, pc := state.pc, steps := state.steps, address := some address }

/-- Executes one instruction, unless the machine has halted or halts now. -/
def step (machine : Machine) : Machine × Option StopEvent :=
  match machine.halt with
  | some event => (machine, some event)
  | none =>
      match machine.state.obstacle? with
      | some address =>
          let event := haltEvent machine.state address
          ({ machine with halt := some event }, some event)
      | none => ({ machine with state := machine.state.execute machine.width }, none)

def stop (machine : Machine) (state : State) : State.Outcome → Machine × StopEvent
  | .halted address =>
      let event := haltEvent state address
      ({ machine with state, halt := some event }, event)
  | .stepLimit =>
      ({ machine with state }, { reason := .stepLimit, pc := state.pc, steps := state.steps })
  | .breakpoint =>
      let event := Breakpoints.breakEvent state.pc state.steps
      ({ machine with state, points := { machine.points with last := some event } }, event)
  | .watchpoint address value =>
      let event := Breakpoints.watchEvent address value state.pc state.steps
      ({ machine with state, points := { machine.points with last := some event } }, event)

/-- Runs until the machine halts, a breakpoint or a watchpoint stops it, or the budget is used
up. -/
def run (machine : Machine) (budget : Nat) : Machine × StopEvent :=
  match machine.halt with
  | some event => (machine, event)
  | none =>
      let (state, outcome) := machine.state.run machine.width machine.points budget true
      machine.stop state outcome

end Machine

end Subleq
