/-!
# Decimal digits

Numbers may have any size, but decimal numerals may not: one of more than `Digits.limit` digits is
neither read nor written.  Where a text would have to hold such a numeral there is an `Excess`
instead of the text.  Numerals of the bases two, eight and sixteen have no limit.
-/

namespace Subleq.Digits

/-- The most digits that a decimal numeral may have. -/
def limit : Nat := 4300

/-- The number of decimal digits of a number, without its sign. -/
def count (n : Int) : Nat := (Nat.toDigits 10 n.natAbs).length

/-- Whether a number can be written in decimal. -/
def isWritable (n : Int) : Bool := count n ≤ limit

/-- Too many digits. -/
inductive Excess
  /-- A numeral of so many digits is not read. -/
  | unread (digits : Nat)
  /-- A number is not written. -/
  | unwritten
deriving DecidableEq, Repr

def Excess.message : Excess → String
  | unread digits =>
      "Exceeds the limit (" ++ toString limit ++ " digits) for integer string conversion: value has "
        ++ toString digits ++ " digits; use sys.set_int_max_str_digits() to increase the limit"
  | unwritten =>
      "Exceeds the limit (" ++ toString limit ++ " digits) for integer string conversion; "
        ++ "use sys.set_int_max_str_digits() to increase the limit"

/-- A text, if the numbers in it can be written. -/
def writing {α : Type} (writable : Bool) (text : α) : Except Excess α :=
  if writable then .ok text else .error .unwritten

end Subleq.Digits
