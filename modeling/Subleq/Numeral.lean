import Subleq.Digits
import Subleq.Text.Lines

/-!
# Integer numerals

How integers are written where a person types them: in word images, in options, in the cells of a
JSON image.  Blanks may surround a numeral, one sign may lead it, and a single underscore may stand
between two digits.  `Numeral.decimal?` reads base ten and takes leading zeros; `Numeral.prefixed?`
reads base ten without leading zeros, or another base after `0x`, `0o` or `0b`.  In base ten there
may not be too many digits, of which leading zeros count and underscores do not.
-/

namespace Subleq.Numeral

/-- Blanks that may surround a numeral: all but the information separators. -/
def isBlank (c : Char) : Bool := Text.isBlank c && !Text.isSeparator c

/-- Decimal digits of all scripts count as those of ASCII. -/
def plainDigit (c : Char) : Char :=
  match Text.digitValue? c with
  | some d => Char.ofNat (0x30 + d)
  | none => c

/-- Reads digits of a base, `total` being the value of those before.  Underscores stand only between
digits: `mayEnd` says whether one may follow here, which is also where the numeral may end. -/
def digitsFrom? (base : Nat) : (total : Nat) → (mayEnd : Bool) → List Char → Option Nat
  | total, true, [] => some total
  | _, false, [] => none
  | total, mayEnd, c :: rest =>
      if c = '_' then
        if mayEnd then digitsFrom? base total false rest else none
      else match Text.digitIn? base c with
        | some d => digitsFrom? base (total * base + d) true rest
        | none => none

/-- A run of digits of a base. -/
def digits? (base : Nat) (text : List Char) : Option Nat := digitsFrom? base 0 false text

/-- The number of digits at the start of a text, `count` being that of those before.  There is none
if the underscores among them are not between digits. -/
def runFrom? : (count : Nat) → (mayEnd : Bool) → List Char → Option Nat
  | count, mayEnd, [] => if mayEnd then some count else none
  | count, mayEnd, c :: rest =>
      if c = '_' then
        if mayEnd then runFrom? count false rest else none
      else if c.isDigit then runFrom? (count + 1) true rest
      else if mayEnd then some count
      else none

/-- The number of digits at the start of a text, if there are too many. -/
def overlong? (text : List Char) : Option Nat := (runFrom? 0 false text).filter (Digits.limit < ·)

/-- A run of decimal digits that are not too many. -/
def decimalDigits? (text : List Char) : Option Nat :=
  if (overlong? text).isSome then none else digits? 10 text

/-- Splits off a sign. -/
def signed : List Char → Bool × List Char
  | '-' :: rest => (true, rest)
  | '+' :: rest => (false, rest)
  | text => (false, text)

/-- The sign and the magnitude of a numeral, without the blanks around it. -/
def parts (text : List Char) : Bool × List Char :=
  signed (Text.stripBy isBlank (text.map plainDigit))

/-- A numeral whose magnitude is read by `magnitude?`. -/
def read? (magnitude? : List Char → Option Nat) (text : List Char) : Option Int :=
  let (negative, body) := parts text
  (magnitude? body).map fun (n : Nat) => if negative then -(n : Int) else n

/-- The base that a letter after a leading zero selects. -/
def base? : Char → Option Nat
  | 'x' | 'X' => some 16
  | 'o' | 'O' => some 8
  | 'b' | 'B' => some 2
  | _ => none

/-- The digits after the letter of a base, before which one underscore may stand. -/
def basedMagnitude? (base : Nat) : List Char → Option Nat
  | '_' :: rest => digits? base rest
  | text => digits? base text

/-- A magnitude with an optional base.  A decimal that starts with zero has to be zero. -/
def prefixedMagnitude? : List Char → Option Nat
  | '0' :: letter :: rest =>
      match base? letter with
      | some base => basedMagnitude? base rest
      | none => (decimalDigits? ('0' :: letter :: rest)).filter (· == 0)
  | text => decimalDigits? text

def decimal? (text : List Char) : Option Int := read? decimalDigits? text

/-- Why a text cannot be read as a decimal numeral: it starts with one of too many digits, unless it
is none at all. -/
def excess? (text : List Char) : Option Digits.Excess := (overlong? (parts text).2).map .unread

/-- Reads a numeral that may name its base. -/
def prefixed? (text : List Char) : Option Int := read? prefixedMagnitude? text

end Subleq.Numeral
