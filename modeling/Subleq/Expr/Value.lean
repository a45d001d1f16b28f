import Subleq.Bitwise
import Subleq.Cell
import Subleq.Expr
import Subleq.Fault
import Subleq.OrderedMap
import Subleq.Similar

/-!
# Values of expressions

Every number, every sign change and complement, and every binary operation is brought into a cell as
soon as it has a value, so that folding an expression is the arithmetic of the machine.  Unary plus
and `$` take their values as they are.

Where names get their values from is a parameter, which may be a computation over a state: a symbol
table folds a constant when it is first asked for, and keeps what it has folded even if the
expression as a whole fails.  `Expr.value` is the plain case, in which names have given values.
-/

namespace Subleq

namespace BinaryOp

/-- The exact result of an operation, before it is brought into a cell of the given width.  Division
truncates toward zero and the remainder has the sign of the dividend.  A left shift by more than the
width shifts by the width, which leaves nothing either way. -/
def apply (width : Width) : BinaryOp → Int → Int → Except Cause Int
  | add, x, y => .ok (x + y)
  | sub, x, y => .ok (x - y)
  | mul, x, y => .ok (x * y)
  | div, x, y => if y = 0 then .error .divisionByZero else .ok (x.tdiv y)
  | mod, x, y => if y = 0 then .error .divisionByZero else .ok (x.tmod y)
  | and, x, y => .ok (Bitwise.conj x y)
  | or, x, y => .ok (Bitwise.disj x y)
  | xor, x, y => .ok (Bitwise.exclusive x y)
  | shiftLeft, x, y =>
      if y < 0 then .error (.negativeShift y)
      else .ok (Bitwise.shiftUp x (min y.toNat width.bits))
  | shiftRight, x, y =>
      if y < 0 then .error (.negativeShift y) else .ok (Bitwise.shiftDown x y.toNat)
  | unknown text, _, _ => .error (.unknownOperator text)

end BinaryOp

namespace Expr

/-- The value of an expression.  `resolve` gives the values of names and `here` the value of `$`,
where it has one.  Operands are folded from left to right, and the first refusal wins. -/
def fold {σ : Type} (arith : Arithmetic)
    (resolve : String → Option Location → Folding σ Int) (here : Option Int) :
    Expr → Folding σ Int
  | .num value location => liftM (arith.toCell value location)
  | .sym name location => resolve name location
  | .here location =>
      match here with
      | some value => pure value
      | none => throw (Fault.found .positionUnavailable location)
  | .un op operand location => do
      let value ← fold arith resolve here operand
      match op with
      | .minus => liftM (arith.toCell (-value) location)
      | .complement => liftM (arith.toCell (Bitwise.complement value) location)
      | .plus | .inert _ => pure value
  | .bin op left right => do
      let x ← fold arith resolve here left
      let y ← fold arith resolve here right
      match op.apply arith.width x y with
      | .ok result => liftM (arith.toCell result left.location)
      | .error cause => throw (Fault.found cause left.location)

/-- Values that are given to names. -/
abbrev Bindings : Type := OrderedMap String Int

/-- Gives a name a value, which is brought into a cell. -/
def Bindings.bind (arith : Arithmetic) (name : String) (value : Int) (bindings : Bindings) :
    Except Fault Bindings := do
  let cell ← arith.toCell value none
  .ok (OrderedMap.put name cell bindings)

/-- A name without a value is undefined; names that have one are suggested for it. -/
def lookup (bindings : Bindings) (name : String) (location : Option Location) :
    Except Fault Int :=
  match OrderedMap.get? bindings name with
  | some value => .ok value
  | none =>
      .error (.found (.undefined name (Similar.suggestions name (OrderedMap.keys bindings)) none)
        location)

/-- The value of an expression whose names have given values. -/
def value (arith : Arithmetic) (bindings : Bindings) (here : Option Int) (e : Expr) :
    Except Fault Int :=
  let resolve (name : String) (location : Option Location) : Folding Unit Int :=
    liftM (lookup bindings name location)
  ((e.fold arith resolve here).run ()).1

end Expr

end Subleq
