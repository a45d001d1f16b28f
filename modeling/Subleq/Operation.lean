import Subleq.Expr
import Subleq.Opcode
import Subleq.Token

/-!
# Operations and their operands

An operand is a compile-time value, a cell named by an address expression, or one of the temp
fields.  An operation has one constructor for each opcode, with its operands in the order in which
they are written.
-/

namespace Subleq

/-- What an operand gives access to. -/
inductive Access
  | immediate (value : Expr)
  | memory (address : Expr)
  | temp (field : Temp)
deriving DecidableEq, Repr

namespace Access

def label : Access → String
  | immediate _ => "IMMEDIATE"
  | memory _ => "MEMORY"
  | temp _ => "TEMP"

def render : Access → String
  | immediate value => value.render
  | memory address => "[" ++ address.render ++ "]"
  | temp field => field.name

def isWritable : Access → Bool
  | immediate e | memory e => e.isWritable
  | temp _ => true

/-- The expression of an access, if it has one. -/
def expr? : Access → Option Expr
  | immediate e | memory e => some e
  | temp _ => none

/-- Whether an access is a compile-time value. -/
def isImmediate : Access → Bool
  | immediate _ => true
  | _ => false

end Access

/-- An operand and the place where it starts. -/
structure Operand where
  access : Access
  location : Location
deriving DecidableEq, Repr

def Operand.render (operand : Operand) : String := operand.access.render

def Operand.isWritable (operand : Operand) : Bool := operand.access.isWritable

/-- An operation with its operands. -/
inductive Operation
  | subleq (a b target : Operand)
  | sub (dst src : Operand)
  | hlt
  | jmp (target : Operand)
  | mov (dst src : Operand)
  | addC (dst addend : Operand)
  | addR (dst src : Operand)
  | add (dst src : Operand)
  | je (a b target : Operand)
deriving DecidableEq, Repr

namespace Operation

def opcode : Operation → Opcode
  | subleq _ _ _ => .subleq
  | sub _ _ => .sub
  | hlt => .hlt
  | jmp _ => .jmp
  | mov _ _ => .mov
  | addC _ _ => .addC
  | addR _ _ => .addR
  | add _ _ => .add
  | je _ _ _ => .je

/-- The operands, in the order in which they are written. -/
def operands : Operation → List Operand
  | subleq a b c | je a b c => [a, b, c]
  | sub a b | mov a b | addC a b | addR a b | add a b => [a, b]
  | hlt => []
  | jmp a => [a]

/-- The operation of an opcode with the given operands, if there are as many as it takes. -/
def ofOperands? : Opcode → List Operand → Option Operation
  | .subleq, [a, b, c] => some (subleq a b c)
  | .sub, [a, b] => some (sub a b)
  | .hlt, [] => some hlt
  | .jmp, [a] => some (jmp a)
  | .mov, [a, b] => some (mov a b)
  | .addC, [a, b] => some (addC a b)
  | .addR, [a, b] => some (addR a b)
  | .add, [a, b] => some (add a b)
  | .je, [a, b, c] => some (je a b c)
  | _, _ => none

/-- The operand that an operation of two operands takes its value from. -/
def source? : Operation → Option Operand
  | sub _ src | mov _ src | addC _ src | addR _ src | add _ src => some src
  | _ => none

/-- How many instructions an operation stands for. -/
def triples (op : Operation) : Nat :=
  op.opcode.length.triples (op.source?.any (·.access.isImmediate))

def render (op : Operation) : String :=
  match op.operands with
  | [] => op.opcode.name
  | operands => op.opcode.name ++ " " ++ ", ".intercalate (operands.map Operand.render)

def isWritable (op : Operation) : Bool := op.operands.all Operand.isWritable

end Operation

end Subleq
