import Subleq.Binary64.Shortest
import Subleq.Digits
import Subleq.Json
import Subleq.Text.Quoted

/-!
# Writing JSON

One value to a line, indented by two blanks for each level.  Texts are written in ASCII: everything
outside of it, and every control, becomes an escape sequence of UTF-16 units.  A value that holds an
integer of too many digits is not written.
-/

namespace Subleq.Json

/-- An escape sequence of one unit. -/
def unitEscape (unit : Nat) : List Char := '\\' :: 'u' :: Text.hex 4 unit

def escapeCode (code : Nat) : List Char :=
  if code = '"'.toNat then ['\\', '"']
  else if code = '\\'.toNat then ['\\', '\\']
  else if code = '\n'.toNat then ['\\', 'n']
  else if code = '\r'.toNat then ['\\', 'r']
  else if code = '\t'.toNat then ['\\', 't']
  else if code = 0x08 then ['\\', 'b']
  else if code = 0x0c then ['\\', 'f']
  else if 0x20 ≤ code ∧ code ≤ 0x7e then [Char.ofNat code]
  else if code < 0x10000 then unitEscape code
  else
    let offset := code - 0x10000
    unitEscape (0xd800 + offset / 0x400) ++ unitEscape (0xdc00 + offset % 0x400)

def quote (text : Text.Codes) : List Char := '"' :: (text.flatMap escapeCode ++ ['"'])

def newline (level : Nat) : List Char := '\n' :: List.replicate (2 * level) ' '

/-- A number that is no integer. -/
def decimalText : Binary64 → List Char
  | .infinity negative => (if negative then "-Infinity" else "Infinity").toList
  | .notNumber => "NaN".toList
  | value => value.render

mutual

def pretty (level : Nat) : Json → List Char
  | null => "null".toList
  | bool value => (if value then "true" else "false").toList
  | int value => (toString value).toList
  | decimal value => decimalText value
  | str text => quote text
  | arr [] => "[]".toList
  | arr (item :: rest) =>
      '[' :: (newline (level + 1) ++ pretty (level + 1) item ++ prettyItems (level + 1) rest
        ++ newline level ++ [']'])
  | obj [] => ['\x7b', '\x7d']
  | obj ((name, value) :: rest) =>
      '\x7b' :: (newline (level + 1) ++ quote name ++ [':', ' '] ++ pretty (level + 1) value
        ++ prettyFields (level + 1) rest ++ newline level ++ ['\x7d'])

def prettyItems (level : Nat) : List Json → List Char
  | [] => []
  | item :: rest => ',' :: (newline level ++ pretty level item ++ prettyItems level rest)

def prettyFields (level : Nat) : List (Text.Codes × Json) → List Char
  | [] => []
  | (name, value) :: rest =>
      ',' :: (newline level ++ quote name ++ [':', ' '] ++ pretty level value
        ++ prettyFields level rest)

end

mutual

def isWritable : Json → Bool
  | int value => Digits.isWritable value
  | arr items => areWritable items
  | obj fields => haveWritable fields
  | _ => true

def areWritable : List Json → Bool
  | [] => true
  | item :: rest => item.isWritable && areWritable rest

def haveWritable : List (Text.Codes × Json) → Bool
  | [] => true
  | (_, value) :: rest => value.isWritable && haveWritable rest

end

/-- A value as a text of its own, if its integers can be written. -/
def render (value : Json) : Except Digits.Excess (List Char) :=
  Digits.writing value.isWritable (pretty 0 value)

end Subleq.Json
