import Subleq.Command.Options
import Subleq.Failure
import Subleq.Numeral
import Subleq.Text.Lines

/-!
# Values of options

The small languages in which the values of options are written: numbers, constants `NAME=VALUE`,
addresses, and ranges of addresses `START:END`.
-/

namespace Subleq.Parameter

open Command (Misuse)

def number (name : String) (least : Int) (text : String) : Except Misuse Int :=
  match Numeral.decimal? text.toList with
  | some n => if least ≤ n then .ok n else .error (.badValue name)
  | none => .error (.badValue name)

/-- Reads the name and the value of a constant.  A name alone has the value one. -/
def define (text : String) : Except Fault (String × Int) :=
  match Text.cut? '=' text.toList with
  | none => .ok (String.ofList (Text.strip text.toList), 1)
  | some (name, value) =>
      match Numeral.prefixed? (Text.strip value) with
      | some n => .ok (String.ofList (Text.strip name), n)
      | none => .error (.badDefine text)

/-- Reads constants; a later value of a name replaces an earlier one. -/
def defines (texts : List String) : Except Fault (OrderedMap String Int) :=
  texts.foldlM (fun all text => do
    let (name, value) ← define text
    .ok (OrderedMap.put name value all)) []

/-- Reads an address: the name of a symbol, or else a number.  The values of symbols may be of any
type that holds the integers. -/
def address {α : Type} (ofInt : Int → α) (valueOf : String → Option α) (text : List Char) :
    Except Fault α :=
  let text := Text.strip text
  match valueOf (String.ofList text) with
  | some value => .ok value
  | none =>
      match Numeral.prefixed? text with
      | some n => .ok (ofInt n)
      | none => .error (.unknownAddress (String.ofList text))

/-- Addresses as they are written: one alone, or two with a colon between them. -/
inductive Range (α : Type)
  | cell (address : α)
  | span (start finish : α)
deriving DecidableEq, Repr

/-- The first address of a range, and the one behind its last.  An address alone is the range of its
cell. -/
def Range.bounds : Range Int → Int × Int
  | cell address => (address, address + 1)
  | span start finish => (start, finish)

def range {α : Type} (ofInt : Int → α) (valueOf : String → Option α) (text : String) :
    Except Fault (Range α) :=
  match Text.cut? ':' text.toList with
  | none => do
      let only ← address ofInt valueOf text.toList
      .ok (.cell only)
  | some (start, finish) => do
      let start ← address ofInt valueOf start
      let finish ← address ofInt valueOf finish
      .ok (.span start finish)

end Subleq.Parameter
