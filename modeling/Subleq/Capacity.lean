/-!
# Capacity

Cells may be of any width and memories of any size as far as their meaning goes, but numbers are kept
as lists of digits and memories as lists of cells, and the length of such a list has to be a number
of the machine that computes with it.  Commands ask here before they go on.  How much room there is
below these bounds is not known here.
-/

namespace Subleq.Capacity

/-- What there is no room for. -/
inductive Fault
  /-- A number has more digits than can be counted. -/
  | digits
  /-- A memory has more cells than there are addresses. -/
  | cells
deriving DecidableEq, Repr

def Fault.message : Fault → String
  | digits => "too many digits in integer"
  | cells => "cannot fit 'int' into an index-sized integer"

/-- Numbers of more bits than this have too many digits, of which each takes thirty bits. -/
def digitBound : Nat := 30 * (Nat.pow 2 61 - 8)

/-- Memories of this many cells and more have too many of them. -/
def cellBound : Nat := Nat.pow 2 63

/-- Whether there is room for numbers of some width. -/
def checkWidth (bits : Int) : Except Fault Unit :=
  if digitBound < bits then .error .digits else .ok ()

/-- Whether there is room for a memory of some size, of which the first `used` cells are there
already. -/
def checkMemory (used : Nat) (size : Int) : Except Fault Unit :=
  if cellBound ≤ size - used then .error .cells else .ok ()

end Subleq.Capacity
