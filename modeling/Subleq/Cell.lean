import Subleq.Fault

/-!
# Cells

A cell holds a signed integer of a fixed number of bits in two's complement.  A `Width` is such a
number of bits, at least two, and `Width.wrap` brings any integer into its range by adding a
multiple of `2 ^ bits`.  `Arithmetic` adds the choice between wrapping a result that does not fit
and refusing it.
-/

namespace Subleq

/-- A number of bits for a cell.  One bit would hold no positive number. -/
structure Width where
  bits : Nat
  two_le_bits : 2 ≤ bits
deriving DecidableEq, Repr

namespace Width

/-- The width of the given number of bits, unless that is too small. -/
def ofInt? (bits : Int) : Option Width :=
  if h : 2 ≤ bits.toNat then some ⟨bits.toNat, h⟩ else none

/-- Cells have 64 bits unless something else is asked for. -/
def default : Width := ⟨64, by decide⟩

def min (w : Width) : Int := -(Nat.pow 2 (w.bits - 1) : Int)

def max (w : Width) : Int := (Nat.pow 2 (w.bits - 1) : Int) - 1

def Fits (w : Width) (value : Int) : Prop := w.min ≤ value ∧ value ≤ w.max

instance (w : Width) (value : Int) : Decidable (w.Fits value) :=
  inferInstanceAs (Decidable (_ ∧ _))

/-- The value that a cell holds in place of `value`: the one in range that differs from it by a
multiple of `2 ^ bits`.  A value with fewer bits is in range already, and does not need the
power. -/
def wrap (w : Width) (value : Int) : Int :=
  if value.natAbs.log2 + 1 < w.bits then value else Int.bmod value (Nat.pow 2 w.bits)

end Width

/-- How results are brought into cells: by wrapping, or, if strict, by refusing what does not
fit. -/
structure Arithmetic where
  width : Width := Width.default
  strict : Bool := false
deriving DecidableEq, Repr

namespace Arithmetic

/-- Brings a value into a cell.  The position is that of the expression the value belongs to. -/
def toCell (arith : Arithmetic) (value : Int) (location : Option Location) :
    Except Fault Int :=
  if arith.width.Fits value then .ok value
  else if arith.strict then
    .error (.found (.valueOverflow value arith.width.bits) location)
  else .ok (arith.width.wrap value)

end Arithmetic

end Subleq
