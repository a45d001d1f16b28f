import Subleq.Command
import Subleq.Command.Parameter

/-!
# The assembler command

`slasm` assembles a file and writes the image, and, if asked to, a listing and the symbols.
-/

namespace Subleq.Command.Assemble

/-- The options of the command. -/
inductive Key
  | output
  | format
  | listing
  | symbols
  | define
  | cellBits
  | maxSize
  | strictOverflow
  | noEntryJump
  | verbose
  | notice (notice : Notice)
deriving DecidableEq, Repr

def switches : List (Switch Key) :=
  [⟨.output, some 'o', "--output", true⟩, ⟨.format, some 'f', "--format", true⟩,
    ⟨.listing, some 'l', "--listing", true⟩, ⟨.symbols, some 's', "--symbols", true⟩,
    ⟨.define, some 'D', "--define", true⟩, ⟨.cellBits, none, "--cell-bits", true⟩,
    ⟨.maxSize, none, "--max-size", true⟩, ⟨.strictOverflow, none, "--strict-overflow", false⟩,
    ⟨.noEntryJump, none, "--no-entry-jump", false⟩, ⟨.verbose, some 'v', "--verbose", false⟩,
    ⟨.notice .version, none, "--version", false⟩, ⟨.notice .help, none, "--help", false⟩]

def Key.notice? : Key → Option Notice
  | notice n => some n
  | _ => none

/-- What the command is asked to do. -/
structure Options where
  input : String
  output : Option String
  format : Option Format
  listing : Option String
  symbols : Option String
  defines : List String
  config : Config
  verbose : Bool
deriving DecidableEq, Repr

/-- Reads the name of a form, without regard to case. -/
def readFormat (text : String) : Except Misuse Format :=
  match Format.ofName? (Text.fold text) with
  | some format => .ok format
  | none => .error (.badValue "--format")

def Options.ofLine (line : CommandLine Key) : Except Misuse Options := do
  let input ← line.argument
  let format ← (line.value? .format).mapM readFormat
  let cellBits ← (line.value? .cellBits).mapM (Parameter.number "--cell-bits" 2)
  let maxSize ← (line.value? .maxSize).mapM (Parameter.number "--max-size" 1)
  let usual : Config := {}
  .ok
    { input, format
      output := line.value? .output
      listing := line.value? .listing
      symbols := line.value? .symbols
      defines := line.values .define
      config :=
        { cellBits := cellBits.getD usual.cellBits
          maxImageSize := maxSize.getD usual.maxImageSize
          strict := line.has .strictOverflow
          entryJump := !line.has .noEntryJump }
      verbose := line.has .verbose }

variable {m : Type → Type} [Monad m]

def checkSetting (storage : Storage m) (line : CommandLine Key) (key : Key) :
    ExceptT Answer m Unit :=
  match key with
  | .output | .listing | .symbols => checkOutput storage (line.value? key)
  | .format => checkValue readFormat (line.value? key)
  | .cellBits => checkValue (Parameter.number "--cell-bits" 2) (line.value? key)
  | .maxSize => checkValue (Parameter.number "--max-size" 1) (line.value? key)
  | _ => pure ()

def work (storage : Storage m) (options : Options) : Work m Ending := do
  let input := Path.ofText options.input
  let output := match options.output with
    | some text => Path.ofText text
    | none => input.withSuffix ".words"
  let defines ← Work.ofExcept .parameter (Parameter.defines options.defines)
  let image ← storage.assemble options.config defines input
  storage.writeImage image output options.format
  if let some text := options.listing then
    storage.writeListing image (Path.ofText text)
  if let some text := options.symbols then
    storage.writeSymbols image (Path.ofText text)
  if options.verbose then
    Work.say
      ["Wrote " ++ toString image.size ++ " cells to " ++ output.render,
        "Virtual literals: " ++ toString image.pool.length ++ ", symbols: "
          ++ toString image.symbols.length]
  pure (.status 0)

def run (storage : Storage m) (arguments : List String) : m Answer :=
  respond "slasm" switches Key.notice? arguments storage (checkSetting storage) fun line => do
    let options ← orMisuse (Options.ofLine line)
    monadLift (perform options.verbose (work storage options))

end Subleq.Command.Assemble
