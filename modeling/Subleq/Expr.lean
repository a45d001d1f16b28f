import Subleq.Diagnostic

/-!
# Expressions

Compile-time expressions are kept as trees, because an operand is read long before the addresses
that it mentions are known.  Every leaf and every unary operation remembers where it stands in the
source; a binary operation stands where its left operand does.

`Expr.render` writes a tree in the form of listings and messages, where the operands of a binary
operation are parenthesised exactly if they are binary operations themselves.  It is the text of
trees that can be written (`Expr.isWritable`); for a number of too many digits there is none.
-/

namespace Subleq

/-! ## Sets of names -/

namespace NameSet

/-- Puts a name into its place among others, which are in increasing order of their code points and
each there once. -/
def insert (name : String) : List String → List String
  | [] => [name]
  | other :: rest =>
      if name = other then other :: rest
      else if name < other then name :: other :: rest
      else other :: insert name rest

def ofList (names : List String) : List String := names.foldr insert []

end NameSet

/-! ## Operators -/

/-- Operations with one operand.  An `inert` operator has no meaning of its own and leaves its
operand as it is. -/
inductive UnaryOp
  | plus
  | minus
  | complement
  | inert (text : String)
deriving DecidableEq, Repr

namespace UnaryOp

def text : UnaryOp → String
  | plus => "+"
  | minus => "-"
  | complement => "~"
  | inert text => text

/-- The operator written in the given way. -/
def ofText : String → UnaryOp
  | "+" => plus
  | "-" => minus
  | "~" => complement
  | text => inert text

end UnaryOp

/-- Operations with two operands.  An `unknown` operator can stand in a tree and be written, and has
no value. -/
inductive BinaryOp
  | or
  | xor
  | and
  | shiftLeft
  | shiftRight
  | add
  | sub
  | mul
  | div
  | mod
  | unknown (text : String)
deriving DecidableEq, Repr

namespace BinaryOp

def text : BinaryOp → String
  | or => "|"
  | xor => "^"
  | and => "&"
  | shiftLeft => "<<"
  | shiftRight => ">>"
  | add => "+"
  | sub => "-"
  | mul => "*"
  | div => "/"
  | mod => "%"
  | unknown text => text

/-- The operator written in the given way. -/
def ofText : String → BinaryOp
  | "|" => or
  | "^" => xor
  | "&" => and
  | "<<" => shiftLeft
  | ">>" => shiftRight
  | "+" => add
  | "-" => sub
  | "*" => mul
  | "/" => div
  | "%" => mod
  | text => unknown text

end BinaryOp

/-! ## Trees -/

/-- A compile-time expression.  `here` is written `$` and means the address of the next item. -/
inductive Expr
  | num (value : Int) (location : Option Location)
  | sym (name : String) (location : Option Location)
  | here (location : Option Location)
  | un (op : UnaryOp) (operand : Expr) (location : Option Location)
  | bin (op : BinaryOp) (left : Expr) (right : Expr)
deriving DecidableEq, Repr

namespace Expr

def location : Expr → Option Location
  | num _ location | sym _ location | here location | un _ _ location => location
  | bin _ left _ => left.location

def isBinary : Expr → Bool
  | bin _ _ _ => true
  | _ => false

/-- A text in parentheses, if they are needed. -/
def parenthesise (needed : Bool) (text : String) : String :=
  if needed then "(" ++ text ++ ")" else text

/-- An expression as listings and messages write it. -/
def render : Expr → String
  | num value _ => toString value
  | sym name _ => name
  | here _ => "$"
  | un op operand _ => op.text ++ operand.render
  | bin op left right =>
      parenthesise left.isBinary left.render ++ op.text
        ++ parenthesise right.isBinary right.render

/-- Whether an expression can be written: the numbers in it can. -/
def isWritable : Expr → Bool
  | num value _ => Digits.isWritable value
  | sym _ _ | here _ => true
  | un _ operand _ => operand.isWritable
  | bin _ left right => left.isWritable && right.isWritable

/-- An expression as a text, if its numbers can be written. -/
def format (e : Expr) : Except Digits.Excess String := Digits.writing e.isWritable e.render

/-- The names that occur in an expression, from left to right. -/
def mentions : Expr → List String
  | num _ _ | here _ => []
  | sym name _ => [name]
  | un _ operand _ => operand.mentions
  | bin _ left right => left.mentions ++ right.mentions

/-- The set of names that occur in an expression. -/
def names (e : Expr) : List String := NameSet.ofList e.mentions

/-- Whether `$` occurs in an expression. -/
def usesHere : Expr → Bool
  | num _ _ | sym _ _ => false
  | here _ => true
  | un _ operand _ => operand.usesHere
  | bin _ left right => left.usesHere || right.usesHere

end Expr

end Subleq
