import Subleq.Text.Character

/-!
# Opcodes

The one instruction of the machine and the operations built from it.  An operation of layer zero is
the instruction itself; one of a higher layer stands for a fixed sequence of instructions, except
for `add`, whose length depends on its source.
-/

namespace Subleq

/-- What an operation does with an operand. -/
inductive Role
  | read
  | write
  | target
  | addend
deriving DecidableEq, Repr

def Role.label : Role → String
  | read => "READ"
  | write => "WRITE"
  | target => "TARGET"
  | addend => "ADDEND"

/-- A number of instructions: always the same, or one for an immediate source and another for a
source in memory. -/
inductive Length
  | fixed (triples : Nat)
  | bySource (immediate memory : Nat)
deriving DecidableEq, Repr

/-- The number of instructions for a source that is an immediate or is not. -/
def Length.triples (immediateSource : Bool) : Length → Nat
  | fixed n => n
  | bySource immediate memory => if immediateSource then immediate else memory

/-- The operations of the language. -/
inductive Opcode
  | subleq
  | sub
  | hlt
  | jmp
  | mov
  | addC
  | addR
  | add
  | je
deriving DecidableEq, Repr

namespace Opcode

def name : Opcode → String
  | subleq => "subleq"
  | sub => "sub"
  | hlt => "hlt"
  | jmp => "jmp"
  | mov => "mov"
  | addC => "add_c"
  | addR => "add_r"
  | add => "add"
  | je => "je"

def all : List Opcode := [subleq, sub, hlt, jmp, mov, addC, addR, add, je]

def ofName? (text : String) : Option Opcode :=
  let mnemonic := Text.lower text
  all.find? fun opcode => opcode.name == mnemonic

/-- The roles of the operands, in the order in which they are written. -/
def roles : Opcode → List Role
  | subleq => [.read, .read, .target]
  | sub => [.write, .read]
  | hlt => []
  | jmp => [.target]
  | mov => [.write, .read]
  | addC => [.write, .addend]
  | addR => [.write, .read]
  | add => [.write, .read]
  | je => [.read, .read, .target]

def arity (opcode : Opcode) : Nat := opcode.roles.length

def layer : Opcode → Nat
  | subleq => 0
  | sub | hlt | jmp => 1
  | mov | addC | addR | add | je => 2

/-- Whether an operation is the machine's own instruction. -/
def isPrimitive (opcode : Opcode) : Bool := opcode.layer == 0

/-- How many instructions an operation stands for. -/
def length : Opcode → Length
  | subleq | sub | hlt | jmp | addC => .fixed 1
  | addR => .fixed 3
  | mov => .fixed 4
  | je => .fixed 5
  | add => .bySource 1 3

/-- A summary of the effect. -/
def description : Opcode → String
  | subleq => "[B] -= [A]; branch to C if [B] <= 0"
  | sub => "[dst] -= [src]"
  | hlt => "halt by jumping out of memory"
  | jmp => "unconditional jump"
  | mov => "[dst] = [src]"
  | addC => "[dst] += immediate, folded at compile time"
  | addR => "[dst] += [src] at run time"
  | add => "add_c for immediates, add_r otherwise"
  | je => "jump to target if [a] == [b]"

end Opcode

end Subleq
