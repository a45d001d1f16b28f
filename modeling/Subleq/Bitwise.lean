/-!
# Bitwise operations on integers

An integer is read as an infinite two's-complement word: a negative number has ones from some place
on.  Complement exchanges zeros and ones, so `-(n + 1)` is the complement of `n`, and each operation
below reduces to one on natural numbers by that rule.
-/

namespace Subleq.Bitwise

/-- The bits of `m` that are not set in `n`. -/
def without (m n : Nat) : Nat := m ^^^ (m &&& n)

/-- The complement, which exchanges zeros and ones. -/
def complement (x : Int) : Int := -x - 1

def conj : Int → Int → Int
  | .ofNat m, .ofNat n => .ofNat (m &&& n)
  | .ofNat m, .negSucc n => .ofNat (without m n)
  | .negSucc m, .ofNat n => .ofNat (without n m)
  | .negSucc m, .negSucc n => .negSucc (m ||| n)

/-- The bits that are set in at least one. -/
def disj : Int → Int → Int
  | .ofNat m, .ofNat n => .ofNat (m ||| n)
  | .ofNat m, .negSucc n => .negSucc (without n m)
  | .negSucc m, .ofNat n => .negSucc (without m n)
  | .negSucc m, .negSucc n => .negSucc (m &&& n)

/-- The bits that are set in exactly one. -/
def exclusive : Int → Int → Int
  | .ofNat m, .ofNat n => .ofNat (m ^^^ n)
  | .ofNat m, .negSucc n => .negSucc (m ^^^ n)
  | .negSucc m, .ofNat n => .negSucc (m ^^^ n)
  | .negSucc m, .negSucc n => .ofNat (m ^^^ n)

/-- The number moved up by `count` places. -/
def shiftUp (x : Int) (count : Nat) : Int := x * (Nat.pow 2 count : Int)

/-- The number moved down by `count` places, the sign filling in from above.  Past the highest place
of the number only its sign is left, so that no larger shift has to be carried out. -/
def shiftDown (x : Int) (count : Nat) : Int := x >>> min count (x.natAbs.log2 + 1)

end Subleq.Bitwise
