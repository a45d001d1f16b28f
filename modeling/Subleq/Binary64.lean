/-!
# Numbers of the binary64 format

A number with a fraction or an exponent stands for the nearest number of the binary64 format.  Such
a number is a significand below `2 ^ 53` times a power of two, the least one being `2 ^ (-1074)`; of
two that are equally near, the one with the even significand is taken, and what would need a power
above `2 ^ 971` is infinite.  All of this is exact arithmetic on whole numbers.
-/

namespace Subleq

/-- A number of the format.  Each value but zero has one representation: unless the exponent is the
least one, the significand has all of its 53 bits. -/
inductive Binary64
  | finite (negative : Bool) (significand : Nat) (exponent : Int)
  | infinity (negative : Bool)
  | notNumber
deriving DecidableEq, Repr

namespace Binary64

/-! ## Rounding -/

/-- The quotient of two numbers, rounded to the nearest whole number, a tie to the even one. -/
def roundQuotient (num den : Nat) : Nat :=
  let quotient := num / den
  let remainder := num % den
  if den < 2 * remainder ∨ (2 * remainder = den ∧ quotient % 2 = 1) then quotient + 1
  else quotient

/-- The quotient `num / den` in units of `2 ^ exponent`, rounded. -/
def significandOf (num den : Nat) (exponent : Int) : Nat :=
  roundQuotient (num * Nat.pow 2 (-exponent).toNat) (den * Nat.pow 2 exponent.toNat)

def leastExponent : Int := -1074

def greatestExponent : Int := 971

/-- The exponent for which the significand of `num / den` has 53 bits. -/
def exponentFor (num den : Nat) : Int :=
  let guess : Int := (num.log2 : Int) - den.log2 - 52
  if num * Nat.pow 2 (-guess).toNat < den * Nat.pow 2 guess.toNat * Nat.pow 2 52 then guess - 1
  else guess

/-- The number with a significand of at most 53 bits, or `2 ^ 53`, to which rounding may lead. -/
def ofSignificand (negative : Bool) (significand : Nat) (exponent : Int) : Binary64 :=
  if significand = 0 then .finite negative 0 0
  else if significand = Nat.pow 2 53 then
    if greatestExponent ≤ exponent then .infinity negative
    else .finite negative (Nat.pow 2 52) (exponent + 1)
  else if greatestExponent < exponent then .infinity negative
  else .finite negative significand exponent

/-- The number nearest to `num / den`, with a sign. -/
def ofQuotient (negative : Bool) (num den : Nat) : Binary64 :=
  if num = 0 then .finite negative 0 0
  else
    let exponent := max (exponentFor num den) leastExponent
    ofSignificand negative (significandOf num den exponent) exponent

/-- The number nearest to `digits * 10 ^ exponent`, with a sign.  A magnitude that is far outside of
the format either way is not computed. -/
def ofDecimal (negative : Bool) (digits : Nat) (exponent : Int) : Binary64 :=
  let magnitude : Int := (Nat.toDigits 10 digits).length + exponent
  if digits = 0 ∨ magnitude < -330 then .finite negative 0 0
  else if 310 < magnitude then .infinity negative
  else ofQuotient negative (digits * Nat.pow 10 exponent.toNat) (Nat.pow 10 (-exponent).toNat)

/-! ## Exact values -/

/-- The numerator of a finite number over `denominator exponent`. -/
def numerator (negative : Bool) (significand : Nat) (exponent : Int) : Int :=
  let magnitude : Int := (significand * Nat.pow 2 exponent.toNat : Nat)
  if negative then -magnitude else magnitude

def denominator (exponent : Int) : Nat := Nat.pow 2 (-exponent).toNat

def isZero : Binary64 → Bool
  | finite _ significand _ => significand == 0
  | _ => false

def isBelow (x : Binary64) (n : Int) : Bool :=
  match x with
  | finite negative significand exponent =>
      numerator negative significand exponent < n * denominator exponent
  | infinity negative => negative
  | notNumber => false

def isAbove (x : Binary64) (n : Int) : Bool :=
  match x with
  | finite negative significand exponent =>
      n * denominator exponent < numerator negative significand exponent
  | infinity negative => !negative
  | notNumber => false

def whole (negative : Bool) (significand : Nat) (exponent : Int) : Int :=
  (numerator negative significand exponent).tdiv (denominator exponent)

/-- The integer that a number is equal to. -/
def toInt? : Binary64 → Option Int
  | finite negative significand exponent =>
      let n := whole negative significand exponent
      if n * denominator exponent = numerator negative significand exponent then some n else none
  | _ => none

/-- Whether two numbers are equal as keys: zero is one key whatever its sign, and what is no number
is equal to itself. -/
def sameKey (x y : Binary64) : Bool := (x.isZero && y.isZero) || x == y

/-- The number nearest to the sum of a number and an integer. -/
def addInt (x : Binary64) (n : Int) : Binary64 :=
  match x with
  | finite negative significand exponent =>
      let den := denominator exponent
      let sum := numerator negative significand exponent + n * den
      ofQuotient (sum < 0) sum.natAbs den
  | x => x

end Binary64

end Subleq
