import Subleq.Capacity
import Subleq.Image.Document
import Subleq.Json.Shown
import Subleq.Machine

/-!
# Stored images in use

Besides its cells a stored image may hold any JSON values.  Here is what becomes of them when the
image is run: a width, an entry, temp fields, and symbols that stand for addresses.  A value that
cannot be used is found out where it is used.  That is before the run for most, at its first
instruction for an entry, and after it, in the middle of the output, for temp fields and for the
ends of ranges.
-/

namespace Subleq.Loading

/-- Why a program cannot be run. -/
inductive Fault
  | machine (fault : Machine.Fault)
  | capacity (fault : Capacity.Fault)
  /-- The width is a number below two, shown here as the image has it. -/
  | narrowWidth (shown : Text.Codes)
  /-- A value that should be compared with a number is none. -/
  | notComparable (typeName : String)
  /-- The width is no integer. -/
  | notBits (typeName : String)
  /-- The entry is no integer. -/
  | notIndex (typeName : String)
  /-- A value that one should be added to is a text or an array. -/
  | notNumeric (typeName : String)
  /-- A value that one should be added to is of no kind that can be added to. -/
  | notAddable (typeName : String)
  | mismatch (mismatch : Mismatch)
  /-- An element of the temp fields is no pair. -/
  | notSequence (index : Nat)
  | notPair (index length : Nat)
deriving DecidableEq, Repr

def Fault.message : Fault → String
  | machine fault => fault.message
  | capacity fault => fault.message
  | narrowWidth shown => "cell width must be at least 2 bits, got " ++ Text.ofCodes shown
  | notComparable typeName =>
      "'<' not supported between instances of '" ++ typeName ++ "' and 'int'"
  | notBits typeName => "unsupported operand type(s) for <<: 'int' and '" ++ typeName ++ "'"
  | notIndex typeName => "list indices must be integers or slices, not " ++ typeName
  | notNumeric typeName =>
      "can only concatenate " ++ typeName ++ " (not \"int\") to " ++ typeName
  | notAddable typeName => "unsupported operand type(s) for +: '" ++ typeName ++ "' and 'int'"
  | mismatch m => m.message
  | notSequence index =>
      "cannot convert dictionary update sequence element #" ++ toString index ++ " to a sequence"
  | notPair index length =>
      "dictionary update sequence element #" ++ toString index ++ " has length " ++ toString length
        ++ "; 2 is required"

/-- Why the output of a run breaks off. -/
inductive Breakdown
  /-- The cell of a temp field cannot be read. -/
  | temp (fault : Machine.Fault)
  /-- The address of a temp field or the end of a range is no integer. -/
  | notAddress (typeName : String)
  /-- The program counter is a text that cannot be printed. -/
  | notPrintable
  /-- A number is not written. -/
  | excess (excess : Digits.Excess)
deriving DecidableEq, Repr

def Breakdown.message : Breakdown → String
  | temp fault => fault.message
  | notAddress typeName => "a value of type " ++ typeName ++ " is no address"
  | notPrintable => "the program counter cannot be printed"
  | excess e => e.message

/-! ## Width and memory -/

/-- The width that a stored image asks for, zero if it leaves it open. -/
def width (value : Json) : Except Fault Int :=
  if value.isBlank then .ok 0
  else match value with
    | .int n => .ok n
    | .bool _ => .error (.narrowWidth value.shown)
    | .decimal x =>
        .error (if x.isBelow 2 then .narrowWidth value.shown else .notBits value.typeName)
    | _ => .error (.notComparable value.typeName)

/-- Builds a machine.  Whether there is room for its cells is looked at once the width is known to
be one. -/
def build (program : Machine.Program) (memorySize cellBits entry : Option Int) :
    Except Fault Machine := do
  let bits := Machine.chooseBits cellBits program.cellBits
  if (Width.ofInt? bits).isSome then
    (Capacity.checkWidth bits).mapError .capacity
    (Capacity.checkMemory program.cells.length (memorySize.getD 0)).mapError .capacity
  (Machine.build program memorySize cellBits entry).mapError .machine

/-! ## Temp fields -/

/-- Reads pairs from the elements of an array, from number `index` on. -/
def pairs : (index : Nat) → List Json → Except Fault (List (Json × Json))
  | _, [] => .ok []
  | index, value :: rest =>
      match value.parts? with
      | none => .error (.notSequence index)
      | some [key, entry] =>
          if key.isKey then do
            let others ← pairs (index + 1) rest
            .ok ((key, entry) :: others)
          else .error (.mismatch (.notKey key.typeName))
      | some parts => .error (.notPair index parts.length)

/-- The temp fields of a stored image, as an object or as pairs. -/
def temps (value : Json) : Except Fault (OrderedMap Text.Codes Json) :=
  match value with
  | .obj fields => .ok fields
  | value =>
      match value.parts? with
      | none => .error (.mismatch (.notIterable value.typeName))
      | some items => do
          let found ← pairs 0 items
          .ok (OrderedMap.ofList (found.filterMap fun
            | (.str name, entry) => some (name, entry)
            | _ => none))

/-! ## The start of a run -/

/-- Where a run starts.  The program counter is shown as the image has it until something has been
executed, and a fault shows when something is to be executed. -/
structure Start where
  pc : Int
  shown : Text.Codes
  fault : Option Fault := none
deriving DecidableEq, Repr

/-- The start at an entry, in a memory of some size.  A fraction at which no instruction fits into
memory is as good as `-1`, at which none fits either. -/
def Start.ofEntry (size : Nat) (entry : Json) : Start :=
  if entry.isBlank then ⟨0, Text.codes "0", none⟩
  else match entry.int?, entry with
    | some pc, _ => ⟨pc, entry.shown, none⟩
    | none, .decimal x =>
        if x.isBelow 0 || (x.addInt 3).isAbove size then ⟨-1, entry.shown, none⟩
        else ⟨0, entry.shown, some (.notIndex entry.typeName)⟩
    | none, _ => ⟨0, entry.shown, some (.notComparable entry.typeName)⟩

/-- The program counter as it is shown. -/
def Start.pcOf (start : Start) (machine : Machine) : Text.Codes :=
  if machine.state.steps = 0 then start.shown else Text.codes (toString machine.state.pc)

/-! ## Values of symbols as addresses -/

/-- The address at which a value makes a run stop.  There is none for a value that is no whole
number. -/
def point (value : Json) : Except Fault (Option Int) :=
  match value with
  | .decimal x => .ok x.toInt?
  | value => if value.isKey then .ok value.int? else .error (.mismatch (.notKey value.typeName))

/-- A value with one added. -/
def next (value : Json) : Except Fault Json :=
  match value.int?, value with
  | some n, _ => .ok (.int (n + 1))
  | none, .decimal x => .ok (.decimal (x.addInt 1))
  | none, .str _ | none, .arr _ => .error (.notNumeric value.typeName)
  | none, _ => .error (.notAddable value.typeName)

/-- The start of a range.  A number below zero stands for zero, whole or not. -/
def startOf (value : Json) : Except Breakdown Int :=
  match value.int?, value with
  | some n, _ => .ok n
  | none, .decimal x => if x.isBelow 0 then .ok 0 else .error (.notAddress value.typeName)
  | none, _ => .error (.notAddress value.typeName)

/-- The end of a range in a memory of some size.  Null, and a number above the size, whole or not,
stand for the size. -/
def finishOf (size : Nat) (value : Json) : Except Breakdown Int :=
  match value.int?, value with
  | some n, _ => .ok n
  | none, .null => .ok size
  | none, .decimal x => if x.isAbove size then .ok size else .error (.notAddress value.typeName)
  | none, _ => .error (.notAddress value.typeName)

end Subleq.Loading

namespace Subleq

/-! ## Loaded programs -/

/-- A program with what is used of it besides: its entry, the symbols that may stand for addresses,
and the addresses of the temp fields. -/
structure Loaded where
  program : Machine.Program
  entry : Json
  symbols : OrderedMap Text.Codes Json
  temps : OrderedMap Text.Codes Json

namespace Loaded

/-- A map whose values are integers, as JSON values. -/
def jsonMap (map : OrderedMap String Int) : OrderedMap Text.Codes Json :=
  map.map fun (name, value) => (Text.codes name, .int value)

/-- The entries of a map that are integers. -/
def intMap (map : OrderedMap Text.Codes Json) : OrderedMap String Int :=
  map.filterMap fun (name, value) => value.int?.map (Text.ofCodes name, ·)

def ofImage (image : Image) : Loaded :=
  { program := .ofImage image
    entry := .int image.entry
    symbols := jsonMap image.symbols
    temps := jsonMap image.temps }

/-- A stored image; a width that is given stands before its own. -/
def ofDocument (document : Document) (cellBits : Option Int) :
    Except Loading.Fault Loaded := do
  let temps ← Loading.temps document.temps
  let bits ← match cellBits with
    | some bits => .ok bits
    | none => Loading.width document.cellBits
  .ok
    { program :=
        { cells := document.cells, cellBits := bits, entry := document.entry.int?.getD 0
          temps := intMap temps }
      entry := document.entry
      symbols := document.symbols
      temps }

def valueOf (loaded : Loaded) (name : String) : Option Json :=
  OrderedMap.get? loaded.symbols (Text.codes name)

/-- The contents of the temp fields that there are, in the order of the given names. -/
def readTemps (loaded : Loaded) (machine : Machine) :
    List String → Except Loading.Breakdown (List (String × Int))
  | [] => .ok []
  | name :: rest =>
      match OrderedMap.get? loaded.temps (Text.codes name) with
      | none => loaded.readTemps machine rest
      | some value =>
          match value.int? with
          | none => .error (.notAddress value.typeName)
          | some address =>
              match machine.tempCell address with
              | .error fault => .error (.temp fault)
              | .ok cell => do
                  let others ← loaded.readTemps machine rest
                  .ok ((name, cell) :: others)

end Loaded

end Subleq
