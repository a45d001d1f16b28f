import Subleq.Image.Render
import Subleq.Text.Character
import Subleq.Text.Lines

/-!
# File names

A path is a sequence of names with slashes between them.  Empty names and `.` name no place of their
own and are dropped, so that different spellings of a path are written in one way; `..` is kept.
-/

namespace Subleq

/-- A path, from the root of all files if it is absolute. -/
structure Path where
  absolute : Bool
  parts : List String
deriving DecidableEq, Repr

namespace Path

/-- Names that do not lead anywhere. -/
def isIdle (part : List Char) : Bool := part == [] || part == ['.']

def ofText (text : String) : Path :=
  { absolute := text.toList.head? == some '/'
    parts := ((Text.split '/' text.toList).filter fun part => !isIdle part).map String.ofList }

/-- Whether a text can be no path, since it holds the character that ends names. -/
def isCutOff (text : String) : Bool := text.toList.contains '\x00'

/-- Whether a text asks for a directory, by ending in a part that does not lead anywhere. -/
def asksForDirectory (text : String) : Bool :=
  match (Text.split '/' text.toList).getLast? with
  | some part => isIdle part
  | none => false

def render (path : Path) : String :=
  if path.absolute then "/" ++ "/".intercalate path.parts
  else if path.parts.isEmpty then "."
  else "/".intercalate path.parts

def name (path : Path) : List Char := (path.parts.getLast?.getD "").toList

/-- The part of a name after its last dot. -/
def afterDot (name : List Char) : List Char := (name.reverse.takeWhile (· != '.')).reverse

/-- The suffix of a name: its last dot with what follows, if there is something on both sides of the
dot. -/
def suffixOf (name : List Char) : List Char :=
  let tail := afterDot name
  if tail.length + 1 < name.length ∧ tail ≠ [] then '.' :: tail else []

def suffix (path : Path) : String := String.ofList (suffixOf path.name)

/-- A path with another suffix. -/
def withSuffix (path : Path) (suffix : String) : Path :=
  let stem := path.name.take (path.name.length - (suffixOf path.name).length)
  { path with parts := path.parts.dropLast ++ [String.ofList stem ++ suffix] }

end Path

/-- The form that a suffix asks for. -/
def Format.ofPath (path : Path) : Format :=
  match Text.lower path.suffix with
  | ".json" => .json
  | ".lst" => .listing
  | ".sym" => .symbols
  | _ => .words

end Subleq
