import Subleq.Location
import Subleq.OrderedMap

/-!
# Program images

An image is what assembly produces: the cells of a memory, in which code, data, pooled literals and
temp fields are not told apart, with what is known about them beside it.
-/

namespace Subleq

/-- One row of a listing: cells with the text that they come from.  Rows that the source does not
mention have no position. -/
structure Row where
  address : Int
  cells : List Int
  text : String
  location : Option Location
deriving DecidableEq, Repr

/-- A program ready to run. -/
structure Image where
  cells : List Int
  cellBits : Int := 64
  entry : Int := 0
  symbols : OrderedMap String Int := []
  kinds : OrderedMap String String := []
  pool : OrderedMap Int Int := []
  temps : OrderedMap String Int := []
  listing : List Row := []
deriving DecidableEq, Repr

namespace Image

def size (image : Image) : Nat := image.cells.length

/-- The kind of a symbol; one of which no kind is known counts as a label. -/
def kindOf (image : Image) (name : String) : String :=
  (OrderedMap.get? image.kinds name).getD "LABEL"

end Image

end Subleq
