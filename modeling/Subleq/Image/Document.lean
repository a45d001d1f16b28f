import Subleq.Image
import Subleq.Json.Reader
import Subleq.Numeral
import Subleq.Text.Lines
import Subleq.Text.Quoted

/-!
# Loading images

A stored image is a text in one of two forms.  If its first character that is not blank is an
opening brace it is a JSON object, otherwise it is a list of words: integers between blanks, with
comments from a semicolon to the end of the line.

Of a JSON object only the cells are required.  They are brought to integers; the other fields are
taken as they are, whatever values they have, so a loaded image is a `Document` of JSON values
rather than an `Image`.
-/

namespace Subleq

/-- A loaded image. -/
structure Document where
  cells : List Int
  cellBits : Json := .int 64
  entry : Json := .int 0
  symbols : OrderedMap Text.Codes Json := []
  kinds : OrderedMap Text.Codes Json := []
  pool : List (Json × Json) := []
  temps : Json := .obj []

/-- What a value is asked to be and is not.  The names are those of JSON types in messages. -/
inductive Mismatch
  | notIterable (typeName : String)
  | notNumber (typeName : String)
  | notObject (typeName : String)
  | notSubscriptable (typeName : String)
  | textIndex
  | arrayIndex
  | notKey (typeName : String)
deriving DecidableEq, Repr

def Mismatch.message : Mismatch → String
  | notIterable typeName => "'" ++ typeName ++ "' object is not iterable"
  | notNumber typeName =>
      "int() argument must be a string, a bytes-like object or a real number, not '" ++ typeName
        ++ "'"
  | notObject typeName => "'" ++ typeName ++ "' object has no attribute 'items'"
  | notSubscriptable typeName => "'" ++ typeName ++ "' object is not subscriptable"
  | textIndex => "string indices must be integers, not 'str'"
  | arrayIndex => "list indices must be integers or slices, not str"
  | notKey typeName => "unhashable type: '" ++ typeName ++ "'"

namespace Document

/-- Why a text is no image. -/
inductive Fault
  /-- A word is no integer; the line of the file is quoted. -/
  | badWord (path : String) (line : Nat) (text : List Char)
  | notJson (fault : Json.Fault)
  | missingField (name : String)
  /-- A cell is a text that is no decimal numeral. -/
  | badCell (text : Text.Codes)
  /-- A cell is a text that starts with a numeral of too many digits. -/
  | excessCell (excess : Digits.Excess)
  | notNumberCell
  | infiniteCell
  | mismatch (mismatch : Mismatch)
deriving DecidableEq, Repr

/-- How many characters of a cell that is no numeral are quoted at most, its quotes included. -/
def quotedLimit : Nat := 200

def Fault.message : Fault → String
  | badWord path line text =>
      path ++ ":" ++ toString line ++ ": not an integer cell: " ++ Text.quoted text
  | notJson fault => fault.message
  | missingField name => name
  | badCell text =>
      "invalid literal for int() with base 10: "
        ++ String.ofList ((Text.quotedCodes text).take quotedLimit)
  | excessCell e => e.message
  | notNumberCell => "cannot convert float NaN to integer"
  | infiniteCell => "cannot convert float infinity to integer"
  | mismatch m => m.message

/-! ## Words -/

/-- The integers of a line, of which the comment and the blanks around the rest have been cut
off. -/
def readWords? (line : List Char) : Option (List Int) := (Text.words line).mapM Numeral.decimal?

/-- The integers of the lines from number `line` on. -/
def readLines (path : String) : (line : Nat) → List (List Char) → Except Fault (List Int)
  | _, [] => .ok []
  | line, text :: rest =>
      let words := Text.strip (text.takeWhile (· != ';'))
      match readWords? words with
      | none => .error (.badWord path line words)
      | some cells => do
          let others ← readLines path (line + 1) rest
          .ok (cells ++ others)

def ofWords (path : String) (text : List Char) : Except Fault Document := do
  let cells ← readLines path 1 (Text.lines text)
  .ok { cells }

/-! ## JSON -/

/-- Why a text stands for no integer. -/
def textFault (text : Text.Codes) : Fault :=
  match Numeral.excess? (Text.ofCodes text).toList with
  | some excess => .excessCell excess
  | none => .badCell text

/-- The integer that a JSON value stands for in a cell. -/
def cell : Json → Except Fault Int
  | .int value => .ok value
  | .bool value => .ok (if value then 1 else 0)
  | .decimal (.finite negative significand exponent) =>
      .ok (Binary64.whole negative significand exponent)
  | .decimal (.infinity _) => .error .infiniteCell
  | .decimal .notNumber => .error .notNumberCell
  | .str text =>
      match (Text.chars? text).bind Numeral.decimal? with
      | some value => .ok value
      | none => .error (textFault text)
  | value => .error (.mismatch (.notNumber value.typeName))

/-- The parts of a value that has to have some. -/
def partsOf (value : Json) : Except Fault (List Json) :=
  match value.parts? with
  | some parts => .ok parts
  | none => .error (.mismatch (.notIterable value.typeName))

/-- A field of a value that has to be an object with that field. -/
def fieldOf (name : String) : Json → Except Fault Json
  | .obj fields =>
      match Json.field? name fields with
      | some value => .ok value
      | none => .error (.missingField name)
  | .str _ => .error (.mismatch .textIndex)
  | .arr _ => .error (.mismatch .arrayIndex)
  | value => .error (.mismatch (.notSubscriptable value.typeName))

/-- The fields of a value that has to be an object. -/
def fieldsOf : Json → Except Fault (List (Text.Codes × Json))
  | .obj fields => .ok fields
  | value => .error (.mismatch (.notObject value.typeName))

/-- One field of each of the values of an object. -/
def column (name : String) (fields : List (Text.Codes × Json)) :
    Except Fault (OrderedMap Text.Codes Json) :=
  fields.mapM fun (key, value) => do
    let entry ← fieldOf name value
    .ok (key, entry)

/-- A value that has to be a key. -/
def checkKey (value : Json) : Except Fault Unit :=
  if value.isKey then .ok () else .error (.mismatch (.notKey value.typeName))

/-- Gives a pooled value an address, in place of one it had before. -/
def putKey (key value : Json) : List (Json × Json) → List (Json × Json)
  | [] => [(key, value)]
  | (other, old) :: rest =>
      if key.sameKey other then (other, value) :: rest else (other, old) :: putKey key value rest

/-- Reads the entries of the pool; `pool` are those before. -/
def readPool (pool : List (Json × Json)) : List Json → Except Fault (List (Json × Json))
  | [] => .ok pool
  | entry :: rest => do
      let value ← fieldOf "value" entry
      let address ← fieldOf "address" entry
      checkKey value
      readPool (putKey value address pool) rest

def ofFields (fields : List (Text.Codes × Json)) : Except Fault Document := do
  let fieldD (name : String) (default : Json) : Json := (Json.field? name fields).getD default
  let cells ← fieldOf "cells" (.obj fields)
  let cells ← partsOf cells
  let cells ← cells.mapM cell
  let table ← fieldsOf (fieldD "symbols" (.obj []))
  let symbols ← column "value" table
  let kinds ← column "kind" table
  let entries ← partsOf (fieldD "pool" (.arr []))
  let pool ← readPool [] entries
  .ok
    { cells, symbols, kinds, pool
      cellBits := fieldD "cell_bits" (.int 64)
      entry := fieldD "entry" (.int 0)
      temps := fieldD "temps" (.obj []) }

def ofJson (text : List Char) : Except Fault Document :=
  match Json.read text with
  | .error fault => .error (.notJson fault)
  | .ok (.obj fields) => ofFields fields
  | .ok value => .error (.mismatch (.notSubscriptable value.typeName))

/-- Reads a stored image; `path` names it in messages. -/
def read (path : String) (text : List Char) : Except Fault Document :=
  match text.dropWhile Text.isBlank with
  | '\x7b' :: _ => ofJson text
  | _ => ofWords path text

end Document

end Subleq
