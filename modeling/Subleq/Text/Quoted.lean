import Subleq.Text.Printable

/-!
# Code points and quoted texts

A JSON text may name half of a surrogate pair without its other half.  That is a code point and no
character, so JSON texts are kept as lists of code points.

Messages show a text that may hold anything between quotes, with every character that is not
printable written as an escape sequence.
-/

namespace Subleq.Text

/-! ## Code points -/

/-- A text as its code points, among which halves of surrogate pairs may stand alone. -/
abbrev Codes : Type := List Nat

def codes (text : String) : Codes := text.toList.map Char.toNat

/-- First halves of surrogate pairs. -/
def isHighHalf (code : Nat) : Bool := 0xd800 ≤ code && code ≤ 0xdbff

/-- Second halves of surrogate pairs. -/
def isLowHalf (code : Nat) : Bool := 0xdc00 ≤ code && code ≤ 0xdfff

/-- Code points that are no characters. -/
def isHalf (code : Nat) : Bool := isHighHalf code || isLowHalf code

/-- The character that a code point is. -/
def char? (code : Nat) : Option Char := if isHalf code then none else some (Char.ofNat code)

/-- The characters of a text, if all of its code points are some. -/
def chars? (text : Codes) : Option (List Char) := text.mapM char?

/-- The characters of a text, with the replacement character in place of what is none. -/
def ofCodes (text : Codes) : String := String.ofList (text.map fun code => (char? code).getD '�')

/-! ## Quoted texts -/

/-- A hexadecimal numeral of at least `width` digits. -/
def hex (width : Nat) (n : Nat) : List Char :=
  let digits := Nat.toDigits 16 n
  List.replicate (width - digits.length) '0' ++ digits

/-- Single quotes, unless the text holds a single quote and no double one. -/
def quoteFor (text : Codes) : Char :=
  if text.contains '\''.toNat && !text.contains '"'.toNat then '"' else '\''

def escapeChar (quote : Char) (c : Char) : List Char :=
  if c == quote || c == '\\' then ['\\', c]
  else if c == '\n' then ['\\', 'n']
  else if c == '\r' then ['\\', 'r']
  else if c == '\t' then ['\\', 't']
  else if isPrintable c then [c]
  else if c.toNat < 0x100 then '\\' :: 'x' :: hex 2 c.toNat
  else if c.toNat < 0x10000 then '\\' :: 'u' :: hex 4 c.toNat
  else '\\' :: 'U' :: hex 8 c.toNat

def escapeCode (quote : Char) (code : Nat) : List Char :=
  match char? code with
  | some c => escapeChar quote c
  | none => '\\' :: 'u' :: hex 4 code

/-- A text of code points between quotes. -/
def quotedCodes (text : Codes) : List Char :=
  let quote := quoteFor text
  quote :: (text.flatMap (escapeCode quote) ++ [quote])

def quoted (text : List Char) : String := String.ofList (quotedCodes (text.map Char.toNat))

end Subleq.Text
