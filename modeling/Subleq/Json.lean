import Subleq.Binary64
import Subleq.Text.Quoted

/-!
# JSON values

Objects keep their fields in order, each name once.  Numbers without fraction and exponent are
integers of any size; all others, and the three values that are no finite number, are numbers of the
binary64 format.
-/

namespace Subleq

/-- A JSON value. -/
inductive Json
  | null
  | bool (value : Bool)
  | int (value : Int)
  | decimal (value : Binary64)
  | str (text : Text.Codes)
  | arr (items : List Json)
  | obj (fields : List (Text.Codes × Json))

namespace Json

def ofString (text : String) : Json := str (Text.codes text)

def object (fields : List (String × Json)) : Json :=
  obj (fields.map fun (name, value) => (Text.codes name, value))

def field? (name : String) (fields : List (Text.Codes × Json)) : Option Json :=
  fields.lookup (Text.codes name)

def typeName : Json → String
  | null => "NoneType"
  | bool _ => "bool"
  | int _ => "int"
  | decimal _ => "float"
  | str _ => "str"
  | arr _ => "list"
  | obj _ => "dict"

/-- A truth value counts as an integer. -/
def int? : Json → Option Int
  | int value => some value
  | bool value => some (if value then 1 else 0)
  | _ => none

/-- Values that count as absent where a default stands behind them: null, false, zero, and empty
texts, arrays and objects. -/
def isBlank : Json → Bool
  | null | bool false | str [] | arr [] | obj [] => true
  | int value => value == 0
  | decimal value => value.isZero
  | _ => false

/-- The parts of a value that can be gone through: the items of an array, the code points of a text,
the names of an object. -/
def parts? : Json → Option (List Json)
  | arr items => some items
  | str text => some (text.map fun code => str [code])
  | obj fields => some (fields.map fun (name, _) => str name)
  | _ => none

/-- Arrays and objects are no keys. -/
def isKey : Json → Bool
  | arr _ | obj _ => false
  | _ => true

/-- Whether two values are one key.  Numbers are one key if they are equal, and a truth value is the
same key as its integer. -/
def sameKey : Json → Json → Bool
  | null, null => true
  | str a, str b => a == b
  | decimal a, decimal b => a.sameKey b
  | decimal a, b => a.toInt?.isSome && a.toInt? == b.int?
  | a, decimal b => b.toInt?.isSome && a.int? == b.toInt?
  | a, b => a.int?.isSome && a.int? == b.int?

end Json

end Subleq
