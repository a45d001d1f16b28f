import Subleq.Diagnostic

/-!
# Faults

A `Fault` is any way in which assembly can fail to produce an image.  A program that is at fault
itself is described by a diagnostic.  If a numeral in the program, or a number in what would have to
be written about it, has too many digits, then there is an excess and no diagnostic.  The other
faults are those of a caller who asks for something that cannot be had, whatever the program is.

`Folding σ α` is a computation over a state that may end in a fault, and that keeps what it did to
the state before.
-/

namespace Subleq

/-- Why there is no result. -/
inductive Fault
  /-- The program is refused. -/
  | source (diagnostic : Diagnostic)
  /-- A number has too many digits. -/
  | excess (excess : Digits.Excess)
  /-- Cells of this many bits are too narrow. -/
  | narrowCell (bits : Int)
  /-- A literal has no cell: it was never used, or its pool has no place yet. -/
  | noPoolSlot (value : Int)
  /-- A constant was entered into a table without a definition. -/
  | noDefinition (name : String)
deriving DecidableEq, Repr

namespace Fault

/-- The fault that a diagnostic describes, if it can be worded. -/
def ofDiagnostic (d : Diagnostic) : Fault :=
  if d.cause.isWritable then .source d else .excess .unwritten

/-- A program refused for a reason found at a place. -/
def found (cause : Cause) (location : Option Location) : Fault := ofDiagnostic (.found cause location)

def message : Fault → String
  | source diagnostic => diagnostic.render
  | excess e => e.message
  | narrowCell bits => "cell width must be at least 2 bits, got " ++ toString bits
  | noPoolSlot value => "literal " ++ toString value ++ " has no pool slot"
  | noDefinition name => "constant '" ++ name ++ "' has no definition"

/-- A reading of the program, whose refusal is a fault. -/
def ofReading {α : Type} : Except Diagnostic α → Except Fault α
  | .ok a => .ok a
  | .error d => .error (.ofDiagnostic d)

end Fault

/-- Computations over a state that may end in a fault.  The state that a failed computation leaves
is the one at the point of failure. -/
abbrev Folding (σ : Type) (α : Type) : Type := ExceptT Fault (StateM σ) α

namespace Folding

/-- Changes the state, unless the change is refused. -/
def update {σ : Type} (change : σ → Except Fault σ) : Folding σ Unit := do
  match change (← get) with
  | .ok state => set state
  | .error fault => throw fault

end Folding

end Subleq
