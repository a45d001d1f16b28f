import Subleq.Expr
import Subleq.Token

/-!
# Reading expressions

An expression is read from left to right in one pass over its tokens.  Binary operators bind, from
loosest to tightest, in the order `|`, `^`, `&`, the shifts, sum and difference, product with
quotient and remainder; operators of one strength group to the left, and the unary operators bind
tighter than all of them.

What has been read so far is a `Reading`: the frames that are still open, the innermost first, and
the value read last if the tokens stand after one.  An operator closes all open operations to its
left that bind at least as tightly; a closing parenthesis closes everything back to its partner.
-/

namespace Subleq

/-- How tightly an operator binds. -/
def BinaryOp.level : BinaryOp → Nat
  | or => 0
  | xor => 1
  | and => 2
  | shiftLeft | shiftRight => 3
  | add | sub => 4
  | mul | div | mod => 5
  | unknown _ => 6

namespace Token.Kind

/-- The unary operator that a token stands for where a value has to come. -/
def unaryOp? : Token.Kind → Option UnaryOp
  | mark .minus => some .minus
  | mark .plus => some .plus
  | mark .tilde => some .complement
  | _ => none

/-- The binary operator that a token stands for after a value. -/
def binaryOp? : Token.Kind → Option BinaryOp
  | mark .pipe => some .or
  | mark .caret => some .xor
  | mark .ampersand => some .and
  | mark .leftShift => some .shiftLeft
  | mark .rightShift => some .shiftRight
  | mark .plus => some .add
  | mark .minus => some .sub
  | mark .star => some .mul
  | mark .slash => some .div
  | mark .percent => some .mod
  | _ => none

end Token.Kind

namespace Expr

/-- Something that is open to the left of the value being read. -/
inductive Frame
  | unary (op : UnaryOp) (location : Location)
  | binary (left : Expr) (op : BinaryOp)
  | paren
deriving DecidableEq, Repr

/-- What has been read so far: either a value has to come, or one has just been read. -/
inductive Reading
  | wanting (frames : List Frame)
  | having (frames : List Frame) (value : Expr)
deriving DecidableEq, Repr

/-- Applies the unary operators that wait for a value. -/
def closeUnary : List Frame → Expr → List Frame × Expr
  | .unary op location :: frames, value => closeUnary frames (.un op value (some location))
  | frames, value => (frames, value)

/-- Applies the waiting binary operators that bind at least as tightly as `level`. -/
def closeBinary (level : Nat) : List Frame → Expr → List Frame × Expr
  | .binary left op :: frames, value =>
      if level ≤ op.level then closeBinary level frames (.bin op left value)
      else (.binary left op :: frames, value)
  | frames, value => (frames, value)

namespace Reading

/-- A value is complete; the unary operators before it apply to it. -/
def take (frames : List Frame) (value : Expr) : Reading :=
  let (frames, value) := closeUnary frames value
  having frames value

/-- Reads a token where a value has to come. -/
def stepWanting (frames : List Frame) (token : Token) :
    Except (Malformed × Option Location) Reading :=
  let location := some token.location
  match token.kind with
  | .number value => .ok (take frames (.num value location))
  | .identifier name => .ok (take frames (.sym name location))
  | .mark .dollar => .ok (take frames (.here location))
  | .mark .leftParen => .ok (wanting (.paren :: frames))
  | .temp field => .error (.tempField field.name, location)
  | kind =>
      match kind.unaryOp? with
      | some op => .ok (wanting (.unary op token.location :: frames))
      | none => .error (.notValue token.kind, location)

/-- Reads a token after a value. -/
def stepHaving (frames : List Frame) (value : Expr) (token : Token) :
    Except (Malformed × Option Location) Reading :=
  match token.kind.binaryOp? with
  | some op =>
      let (frames, left) := closeBinary op.level frames value
      .ok (wanting (.binary left op :: frames))
  | none =>
      match closeBinary 0 frames value with
      | (.paren :: frames, value) =>
          if token.kind = .mark .rightParen then .ok (take frames value)
          else .error (.unclosed, some token.location)
      | _ => .error (.trailing token.kind, some token.location)

def step : Reading → Token → Except (Malformed × Option Location) Reading
  | wanting frames, token => stepWanting frames token
  | having frames value, token => stepHaving frames value token

/-- The expression that has been read, when there are no more tokens. -/
def finish : Reading → Except Malformed Expr
  | wanting _ => .error .cutShort
  | having frames value =>
      match closeBinary 0 frames value with
      | ([], value) => .ok value
      | _ => .error .unclosed

end Reading

/-- Reads the expression that the tokens form together.  An error at the end of the tokens is
reported at the last of them, or at `fallback` if there are none. -/
def ofTokens (tokens : List Token) (fallback : Option Location) :
    Except (Malformed × Option Location) Expr :=
  match tokens.getLast? with
  | none => .error (.empty, fallback)
  | some last => do
      let reading ← tokens.foldlM Reading.step (.wanting [])
      match reading.finish with
      | .ok value => .ok value
      | .error reason => .error (reason, some last.location)

/-- Reads an expression that stands by itself. -/
def read (tokens : List Token) (fallback : Option Location) : Except Diagnostic Expr :=
  match ofTokens tokens fallback with
  | .ok value => .ok value
  | .error (reason, location) => .error (.found (.malformedExpression reason) location)

end Expr

end Subleq
