import Subleq.Image
import Subleq.Json.Printer
import Subleq.Text.Lines

/-!
# Writing images

The four forms in which an image is written.  `words` is one number to a line and can be loaded
again, as can `json`, which holds everything but the listing; `listing` and `symbols` are for
people.  An image with a number of too many digits is not written in a form that would show it.
-/

namespace Subleq

/-- The forms in which an image is written. -/
inductive Format
  | words
  | listing
  | symbols
  | json
deriving DecidableEq, Repr

namespace Format

def name : Format → String
  | words => "words"
  | listing => "listing"
  | symbols => "symbols"
  | json => "json"

def all : List Format := [words, listing, symbols, json]

def ofName? (text : String) : Option Format := all.find? fun format => format.name == text

/-- The message for a name that no form has. -/
def unknownMessage (text : String) : String :=
  "unknown output format '" ++ text ++ "' (expected one of "
    ++ ", ".intercalate (all.map name) ++ ")"

end Format

namespace Image

/-- One number to a line. -/
def renderWords (image : Image) : Except Digits.Excess String :=
  Digits.writing (image.cells.all Digits.isWritable)
    (Text.unlines (image.cells.map fun cell => toString cell))

def hasWritableSymbols (image : Image) : Bool :=
  image.symbols.all fun symbol => Digits.isWritable symbol.2

/-- A line for each symbol, in the order of their names. -/
def symbolLines (image : Image) : List String :=
  (OrderedMap.sortedByKey image.symbols).map fun (name, value) =>
    Text.padRight 20 name ++ " " ++ Text.padRight 16 (image.kindOf name) ++ " " ++ toString value

/-- The cells of a row: the first four, and the number of all if there are more. -/
def shownCells (cells : List Int) : String :=
  " ".intercalate ((cells.take 4).map fun cell => toString cell)
    ++ (if 4 < cells.length then " ... (" ++ toString cells.length ++ ")" else "")

/-- A line of the listing: address, cells, number of the source line, text. -/
def rowLine (row : Row) : String :=
  let line := match row.location with
    | some location => Text.padLeft 4 (toString location.line) ++ "  "
    | none => Text.blanks 6
  Text.padLeft 6 (toString row.address) ++ "  " ++ Text.padRight 28 (shownCells row.cells) ++ "  "
    ++ line ++ row.text

def rowIsWritable (row : Row) : Bool :=
  Digits.isWritable row.address && (row.cells.take 4).all Digits.isWritable
    && row.location.all fun location => Digits.isWritable location.line

/-- The listing, with a summary and the symbols at its end. -/
def renderListing (image : Image) : Except Digits.Excess String :=
  Digits.writing
    (image.listing.all rowIsWritable && Digits.isWritable image.cellBits
      && Digits.isWritable image.entry && image.hasWritableSymbols)
    (Text.unlines
      (["SUBLEQ Assembler Listing", Text.rule '=' 72, "",
          Text.padLeft 6 "Addr" ++ "  " ++ Text.padRight 28 "Cells" ++ "  Source",
          Text.rule '-' 72]
        ++ image.listing.map rowLine
        ++ ["", "Image: " ++ toString image.size ++ " cells, " ++ toString image.cellBits
              ++ "-bit, entry " ++ toString image.entry,
            "", "Symbol Table", Text.rule '-' 30]
        ++ image.symbolLines))

def renderSymbols (image : Image) : Except Digits.Excess String :=
  Digits.writing image.hasWritableSymbols
    (Text.unlines (["; Symbol table", "; name kind value"] ++ image.symbolLines))

/-- The image without its listing, as a JSON value. -/
def toJson (image : Image) : Json :=
  .object
    [("cell_bits", .int image.cellBits),
      ("entry", .int image.entry),
      ("cells", .arr (image.cells.map .int)),
      ("symbols", .object (image.symbols.map fun (name, value) =>
        (name, .object [("kind", .ofString (image.kindOf name)), ("value", .int value)]))),
      ("pool", .arr (image.pool.map fun (value, address) =>
        .object [("value", .int value), ("address", .int address)])),
      ("temps", .object (image.temps.map fun (name, address) => (name, .int address)))]

def renderJson (image : Image) : Except Digits.Excess String := do
  let text ← image.toJson.render
  .ok (String.ofList (text ++ ['\n']))

def render (image : Image) : Format → Except Digits.Excess String
  | .words => image.renderWords
  | .listing => image.renderListing
  | .symbols => image.renderSymbols
  | .json => image.renderJson

end Image

end Subleq
