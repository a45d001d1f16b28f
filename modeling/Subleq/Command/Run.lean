import Subleq.Command
import Subleq.Command.Parameter

/-!
# The machine command

`slrun` runs a program, which is a source file or a stored image, and prints how the run ended, the
temp fields, and the cells of the ranges that it is asked for.
-/

namespace Subleq.Command.Run

/-- The options of the command. -/
inductive Key
  | maxSteps
  | memorySize
  | dump
  | breakAt
  | watch
  | define
  | cellBits
  | verbose
  | notice (notice : Notice)
deriving DecidableEq, Repr

def switches : List (Switch Key) :=
  [⟨.maxSteps, some 'n', "--max-steps", true⟩, ⟨.memorySize, some 'm', "--memory-size", true⟩,
    ⟨.dump, some 'd', "--dump", true⟩, ⟨.breakAt, some 'b', "--break", true⟩,
    ⟨.watch, some 'w', "--watch", true⟩, ⟨.define, some 'D', "--define", true⟩,
    ⟨.cellBits, none, "--cell-bits", true⟩, ⟨.verbose, some 'v', "--verbose", false⟩,
    ⟨.notice .version, none, "--version", false⟩, ⟨.notice .help, none, "--help", false⟩]

def Key.notice? : Key → Option Notice
  | notice n => some n
  | _ => none

/-- What the command is asked to do. -/
structure Options where
  input : String
  maxSteps : Int
  memorySize : Option Int
  dumps : List String
  breaks : List String
  watches : List String
  defines : List String
  cellBits : Option Int
  verbose : Bool
deriving DecidableEq, Repr

def Options.ofLine (line : CommandLine Key) : Except Misuse Options := do
  let input ← line.argument
  let maxSteps ← (line.value? .maxSteps).mapM (Parameter.number "--max-steps" 0)
  let memorySize ← (line.value? .memorySize).mapM (Parameter.number "--memory-size" 1)
  let cellBits ← (line.value? .cellBits).mapM (Parameter.number "--cell-bits" 2)
  .ok
    { input, memorySize, cellBits
      maxSteps := maxSteps.getD Machine.defaultBudget
      dumps := line.values .dump
      breaks := line.values .breakAt
      watches := line.values .watch
      defines := line.values .define
      verbose := line.has .verbose }

/-! ## Loading -/

/-- Whether a file holds an image rather than a source. -/
def holdsImage (path : Path) : Bool :=
  let suffix := Text.lower path.suffix
  suffix == ".words" || suffix == ".json"

variable {m : Type → Type} [Monad m]

/-- Loads or assembles the program.  Constants are read only for a source. -/
def load (storage : Storage m) (options : Options) : Work m Loaded := do
  let path := Path.ofText options.input
  if holdsImage path then
    let document ← storage.loadImage path
    Work.ofExcept .loading (Loaded.ofDocument document options.cellBits)
  else
    let usual : Config := {}
    let defines ← Work.ofExcept .parameter (Parameter.defines options.defines)
    let image ← storage.assemble { usual with cellBits := options.cellBits.getD usual.cellBits }
      defines path
    pure (.ofImage image)

/-! ## Running -/

/-- The cells of a range with their addresses, the first of which is counted from zero at least. -/
def dumpCells (machine : Machine) (range : Int × Int) : List (Int × Int) :=
  (machine.dump range.1 (some range.2)).mapIdx fun index value => (max range.1 0 + index, value)

def cellLine (cell : Int × Int) : String :=
  Text.padLeft 6 (toString cell.1) ++ ": " ++ toString cell.2

/-- The temp fields on one line, if there are any. -/
def tempLines (temps : List (String × Int)) : List String :=
  if temps.isEmpty then []
  else ["  ".intercalate (temps.map fun (name, value) => name ++ "=" ++ toString value)]

/-- A machine that stops at the given addresses and watches the given cells. -/
def withPoints (machine : Machine) (breaks watches : List Int) : Machine :=
  { machine with
    points :=
      { machine.points with
        breaks := breaks.foldl (fun set address => set.insert address) machine.points.breaks
        watches := watches.foldl (fun set address => set.insert address) machine.points.watches } }

/-- The exit status after a run: that of an unfinished one differs. -/
def exitStatus (event : StopEvent) : Nat := if event.reason = .stepLimit then 4 else 0

/-- Reads addresses at which a run stops. -/
def points (loaded : Loaded) (texts : List String) : Work m (List Int) := do
  let found ← texts.mapM fun text => do
    let value ← Work.ofExcept .parameter (Parameter.address .int loaded.valueOf text.toList)
    Work.ofExcept .loading (Loading.point value)
  pure (found.filterMap id)

/-- Reads a range, as the values of its ends. -/
def range (loaded : Loaded) (text : String) : Work m (Json × Json) := do
  match ← Work.ofExcept .parameter (Parameter.range .int loaded.valueOf text) with
  | .cell start => do
      let finish ← Work.ofExcept .loading (Loading.next start)
      pure (start, finish)
  | .span start finish => pure (start, finish)

def cellIsWritable (cell : Int × Int) : Bool :=
  Digits.isWritable cell.1 && Digits.isWritable cell.2

/-- Lines in which the numbers can be written; otherwise the output breaks off. -/
def written {α : Type} (writable : Bool) (lines : α) : Except Loading.Breakdown α :=
  (Digits.writing writable lines).mapError .excess

def rangeLines (machine : Machine) (range : Json × Json) :
    Except Loading.Breakdown (List String) := do
  let start ← Loading.startOf range.1
  let finish ← Loading.finishOf machine.memorySize range.2
  let cells := dumpCells machine (start, finish)
  written (cells.all cellIsWritable) (cells.map cellLine)

/-- What is printed after a run, `pc` being the program counter as it is shown. -/
def closing (loaded : Loaded) (machine : Machine) (event : StopEvent) (pc : Text.Codes)
    (ranges : List (Json × Json)) : Except Loading.Breakdown (List String) := do
  let some pc := Text.chars? pc | .error .notPrintable
  let pc := String.ofList pc
  let first ← written (event.isWritable && Digits.isWritable machine.state.pc)
    [event.renderAt pc, "steps: " ++ toString machine.state.steps ++ "  pc: " ++ pc]
  let temps ← loaded.readTemps machine (Temp.all.map Temp.name)
  let second ← written (temps.all fun temp => Digits.isWritable temp.2) (tempLines temps)
  let lines ← ranges.mapM (rangeLines machine)
  .ok (first ++ second ++ lines.flatten)

def work (storage : Storage m) (options : Options) : Work m Ending := do
  let loaded ← load storage options
  let machine ← Work.ofExcept .loading
    (Loading.build loaded.program options.memorySize none none)
  let breaks ← points loaded options.breaks
  let watches ← points loaded options.watches
  let ranges ← options.dumps.mapM (range loaded)
  if options.verbose then
    Work.say ["Loaded " ++ toString loaded.program.cells.length ++ " cells, memory "
      ++ toString machine.memorySize ++ " cells"]
  let start := Loading.Start.ofEntry machine.memorySize loaded.entry
  let budget := options.maxSteps.toNat
  if budget ≠ 0 then
    if let some fault := start.fault then
      throw (.loading fault)
  let (machine, event) := (withPoints (machine.setPc start.pc) breaks watches).run budget
  let pc := start.pcOf machine
  Work.report [.stopped (event.renderAt (Text.ofCodes pc))]
  match closing loaded machine event pc ranges with
  | .error breakdown => pure (.broken breakdown)
  | .ok lines => do
      Work.say lines
      pure (.status (exitStatus event))

def checkSetting (line : CommandLine Key) (key : Key) : ExceptT Answer m Unit :=
  match key with
  | .maxSteps => checkValue (Parameter.number "--max-steps" 0) (line.value? key)
  | .memorySize => checkValue (Parameter.number "--memory-size" 1) (line.value? key)
  | .cellBits => checkValue (Parameter.number "--cell-bits" 2) (line.value? key)
  | _ => pure ()

def run (storage : Storage m) (arguments : List String) : m Answer :=
  respond "slrun" switches Key.notice? arguments storage checkSetting fun line => do
    let options ← orMisuse (Options.ofLine line)
    monadLift (perform options.verbose (work storage options))

end Subleq.Command.Run
