import Subleq.Binary64

/-!
# Shortest decimals

The text of a binary64 number has the fewest decimal digits that read back as that number, and of
those digits the ones nearest to it, a tie going to the even ones.  They are found by trying one
digit, two digits and so on: on each decimal grid only the two neighbours of the number can be the
nearest, and each of them is read back.
-/

namespace Subleq.Binary64

/-- The least power of ten above `num / den`, which is greater than `10 ^ (-350)`. -/
def decimalScale (num den : Nat) : Int :=
  ((Nat.toDigits 10 (num * Nat.pow 10 350 / den)).length : Int) - 350

/-- The multiple of `10 ^ grid` next to `num / den` that reads back as `x`, if there is one. -/
def digitsAt (x : Binary64) (num den : Nat) (grid : Int) : Option Nat :=
  let num := num * Nat.pow 10 (-grid).toNat
  let den := den * Nat.pow 10 grid.toNat
  let below := num / den
  let readsBack (digits : Nat) : Bool := ofDecimal false digits grid == x
  match readsBack below, readsBack (below + 1) with
  | true, true => some (roundQuotient num den)
  | true, false => some below
  | false, true => some (below + 1)
  | false, false => none

/-- The fewest digits of a positive number, as a numeral and the power of ten that it counts.  No
number needs more than seventeen; all of its digits would be right in any case. -/
def shortest (significand : Nat) (exponent : Int) : Nat × Int :=
  let num := significand * Nat.pow 2 exponent.toNat
  let den := denominator exponent
  let scale := decimalScale num den
  let found := (List.range 17).findSome? fun (count : Nat) =>
    let grid := scale - count - 1
    (digitsAt (.finite false significand exponent) num den grid).map fun digits => (digits, grid)
  found.getD (num * Nat.pow 5 (-exponent).toNat, min exponent 0)

/-- An exponent with its sign, of two digits at least. -/
def exponentText (exponent : Int) : List Char :=
  let digits := Nat.toDigits 10 exponent.natAbs
  'e' :: (if exponent < 0 then '-' else '+') ::
    (List.replicate (2 - digits.length) '0' ++ digits)

/-- Digits with a point after the first `point` of them.  Numbers from `10 ^ (-4)` up to `10 ^ 16`
are written without an exponent, and never without a point. -/
def layOut (digits : List Char) (point : Int) : List Char :=
  if -4 < point ∧ point ≤ 16 then
    if point ≤ 0 then '0' :: '.' :: (List.replicate (-point).toNat '0' ++ digits)
    else
      let whole := digits.take point.toNat
      let rest := digits.drop point.toNat
      whole ++ List.replicate (point.toNat - whole.length) '0' ++ '.' ::
        (if rest.isEmpty then ['0'] else rest)
  else
    match digits with
    | [] => []
    | [digit] => digit :: exponentText (point - 1)
    | digit :: rest => digit :: '.' :: (rest ++ exponentText (point - 1))

def magnitudeText (significand : Nat) (exponent : Int) : List Char :=
  if significand = 0 then ['0', '.', '0']
  else
    let (numeral, grid) := shortest significand exponent
    let digits := Nat.toDigits 10 numeral
    layOut (digits.reverse.dropWhile (· == '0')).reverse (digits.length + grid)

def render : Binary64 → List Char
  | finite negative significand exponent =>
      (if negative then ['-'] else []) ++ magnitudeText significand exponent
  | infinity negative => (if negative then "-inf" else "inf").toList
  | notNumber => "nan".toList

end Subleq.Binary64
