import Subleq.Fault

/-!
# The literal pool

A compile-time value that is used where a cell is needed gets a cell in the pool.  All uses of one
value share one cell, and the cells stand in the order in which their values were first used.
-/

namespace Subleq

/-- A pooled value, its cell once that has a place, and how often the value was used. -/
structure Literal where
  value : Int
  address : Option Int
  uses : Nat
deriving DecidableEq, Repr

/-- The name under which the cell of a value is entered among the symbols.  Only values that can be
written have a name. -/
def literalName (value : Int) : String := "=" ++ toString value

def Literal.name (literal : Literal) : String := literalName literal.value

/-- Whether a pooled value has a name. -/
def Literal.isWritable (literal : Literal) : Bool := Digits.isWritable literal.value

/-- The pooled values in order, and the address of the first one once they have places. -/
structure Pool where
  literals : List Literal
  base : Option Int
deriving DecidableEq, Repr

namespace Pool

def empty : Pool := ⟨[], none⟩

def values (pool : Pool) : List Int := pool.literals.map Literal.value

def contains (pool : Pool) (value : Int) : Bool := pool.values.contains value

def find? (pool : Pool) (value : Int) : Option Literal :=
  pool.literals.find? (·.value == value)

/-- Counts a use of a value, which is entered at the end if it is new. -/
def use (value : Int) : List Literal → List Literal
  | [] => [⟨value, none, 1⟩]
  | literal :: rest =>
      if literal.value = value then { literal with uses := literal.uses + 1 } :: rest
      else literal :: use value rest

/-- The pool after a use of a value. -/
def intern (pool : Pool) (value : Int) : Pool :=
  { pool with literals := use value pool.literals }

/-- Gives consecutive addresses to literals. -/
def assign : (address : Int) → List Literal → List Literal
  | _, [] => []
  | address, literal :: rest =>
      { literal with address := some address } :: assign (address + 1) rest

def place (pool : Pool) (base : Int) : Pool := ⟨assign base pool.literals, some base⟩

/-- The first address after a pool that stands at `base`. -/
def endAddress (pool : Pool) (base : Int) : Int := base + pool.literals.length

def addressOf (pool : Pool) (value : Int) : Except Fault Int :=
  match (pool.find? value).bind Literal.address with
  | some address => .ok address
  | none => .error (.noPoolSlot value)

end Pool

end Subleq
