import Subleq.Binary64.Shortest
import Subleq.Json
import Subleq.Text.Quoted

/-!
# JSON values in messages

How a value is shown to a person: on one line, with texts between quotes, unless the value is a text
itself, which is shown as it is.
-/

namespace Subleq.Json

mutual

/-- A value as a part of others. -/
def described : Json → List Char
  | null => "None".toList
  | bool value => (if value then "True" else "False").toList
  | int value => (toString value).toList
  | decimal value => value.render
  | str text => Text.quotedCodes text
  | arr [] => ['[', ']']
  | arr (item :: rest) => '[' :: (described item ++ describedItems rest)
  | obj [] => ['\x7b', '\x7d']
  | obj ((name, value) :: rest) =>
      '\x7b' :: (Text.quotedCodes name ++ ':' :: ' ' :: (described value ++ describedFields rest))

/-- The items of an array after its first one, and its end. -/
def describedItems : List Json → List Char
  | [] => [']']
  | item :: rest => ',' :: ' ' :: (described item ++ describedItems rest)

/-- The fields of an object after its first one, and its end. -/
def describedFields : List (Text.Codes × Json) → List Char
  | [] => ['\x7d']
  | (name, value) :: rest =>
      ',' :: ' ' :: (Text.quotedCodes name ++ ':' :: ' ' ::
        (described value ++ describedFields rest))

end

def shown : Json → Text.Codes
  | str text => text
  | value => value.described.map Char.toNat

end Subleq.Json
