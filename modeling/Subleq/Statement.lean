import Subleq.Operation
import Subleq.Text.Utf8

/-!
# Statements

What a line of source can say.  A label names the address of the next item, a constant gives a name
to the value of an expression, and an item takes up cells: an operation, a row of data, or a number
of reserved cells.
-/

namespace Subleq

/-- The declared sizes of data. -/
inductive DataSize
  | byte
  | word
  | double
  | quad
deriving DecidableEq, Repr

namespace DataSize

def bits : DataSize → Nat
  | byte => 8
  | word => 16
  | double => 32
  | quad => 64

/-- The directive for data of a size. -/
def dataName : DataSize → String
  | byte => "db"
  | word => "dw"
  | double => "dd"
  | quad => "dq"

/-- The directive for reserved cells of a size. -/
def reserveName : DataSize → String
  | byte => "resb"
  | word => "resw"
  | double => "resd"
  | quad => "resq"

def all : List DataSize := [byte, word, double, quad]

end DataSize

/-- One value of a data directive: an expression, or a string that stands for its bytes. -/
inductive Datum
  | value (e : Expr)
  | text (text : String)
deriving DecidableEq, Repr

namespace Datum

def bytes (text : String) : List Nat := Text.Utf8.encode text.toList

/-- The number of cells that a value takes. -/
def size : Datum → Nat
  | value _ => 1
  | text t => (bytes t).length

def render : Datum → String
  | value e => e.render
  | text t => "\"" ++ t ++ "\""

def isWritable : Datum → Bool
  | value e => e.isWritable
  | text _ => true

end Datum

/-- What takes up cells. -/
inductive Body
  | operation (op : Operation)
  | data (size : DataSize) (values : List Datum)
  | reserve (size : DataSize) (count : Expr)
deriving DecidableEq, Repr

namespace Body

def isCode : Body → Bool
  | operation _ => true
  | _ => false

def render : Body → String
  | operation op => op.render
  | data size values => size.dataName ++ " " ++ ", ".intercalate (values.map Datum.render)
  | reserve size count => size.reserveName ++ " " ++ count.render

def isWritable : Body → Bool
  | operation op => op.isWritable
  | data _ values => values.all Datum.isWritable
  | reserve _ count => count.isWritable

end Body

/-- The two directives that define a constant. -/
inductive ConstantKeyword
  | equ
  | define
deriving DecidableEq, Repr

def ConstantKeyword.name : ConstantKeyword → String
  | equ => "equ"
  | define => "def"

/-- A statement, with the place where it stands. -/
inductive Statement
  | label (name : String) (location : Location)
  | constant (keyword : ConstantKeyword) (name : String) (value : Expr) (location : Location)
  | item (body : Body) (location : Location)
deriving DecidableEq, Repr

end Subleq
