import Subleq.Assembly
import Subleq.Failure
import Subleq.Image.Render

/-!
# Work on files

Assembling a file, writing an image and loading one, through a storage.  A `Work` either gives a
result or fails, and keeps what there is to report up to that point.
-/

namespace Subleq

/-- Assembles a source text if there is room for it. -/
def attempt (config : Config) (defines : Defines) (source file : String) :
    Except Failure Image := do
  (config.checkRoom defines source file).mapError .capacity
  (assemble config defines source file).mapError .assembly

/-- What there is to report about a work. -/
inductive Report
  | assembling (path : Path)
  | progress (step : Progress)
  | wrote (path : Path)
  | wroteListing (path : Path)
  | wroteSymbols (path : Path)
  | stopped (event : String)
deriving DecidableEq, Repr

namespace Report

/-- Whether a report is about a result; the others follow how it comes about. -/
def isResult : Report → Bool
  | progress (.assembled _ _) | wrote _ | wroteListing _ | wroteSymbols _ => true
  | _ => false

def message : Report → String
  | assembling path => "assembling " ++ path.render
  | progress p => p.message
  | wrote path => "wrote " ++ path.render
  | wroteListing path => "wrote listing to " ++ path.render
  | wroteSymbols path => "wrote symbols to " ++ path.render
  | stopped event => "stopped: " ++ event

def line (report : Report) : String :=
  (if report.isResult then "INFO: " else "DEBUG: ") ++ report.message

end Report

/-- What a work has said: reports, and lines of output. -/
structure Transcript where
  reports : List Report := []
  output : List String := []
deriving DecidableEq, Repr

/-- Actions that give a result or fail, and leave a transcript either way. -/
abbrev Work (m : Type → Type) (α : Type) : Type := ExceptT Failure (StateT Transcript m) α

namespace Work

variable {m : Type → Type} [Monad m] {α : Type}

def report (reports : List Report) : Work m Unit :=
  modify fun t => { t with reports := t.reports ++ reports }

def say (lines : List String) : Work m Unit :=
  modify fun t => { t with output := t.output ++ lines }

/-- An action of the storage whose faults are failures. -/
def ofStorage {ε : Type} (failure : ε → Failure) (action : m (Except ε α)) : Work m α := do
  match ← (monadLift action : StateT Transcript m (Except ε α)) with
  | .ok a => pure a
  | .error fault => throw (failure fault)

/-- A result whose faults are failures. -/
def ofExcept {ε : Type} (failure : ε → Failure) : Except ε α → Work m α
  | .ok a => pure a
  | .error fault => throw (failure fault)

end Work

namespace Storage

variable {m : Type → Type} [Monad m]

/-- Reads a file as a text.  Line ends of all systems become line feeds. -/
def readText (storage : Storage m) (path : Path) : Work m (List Char) := do
  let bytes ← Work.ofStorage .file (storage.read path)
  let text ← Work.ofExcept .encoding (Text.Utf8.decode bytes)
  pure (Text.unifyNewlines text)

def readSource (storage : Storage m) (path : Path) : Work m String := do
  Work.report [.assembling path]
  let text ← storage.readText path
  pure (String.ofList text)

def assembleSource (config : Config) (defines : Defines) (source : String) (path : Path) :
    Work m Image := do
  Work.ofExcept .capacity (config.checkRoom defines source path.render)
  let (result, progress) := Assembly.run config defines source path.render
  Work.report (progress.map .progress)
  Work.ofExcept .assembly result

def assemble (storage : Storage m) (config : Config) (defines : Defines) (path : Path) :
    Work m Image := do
  let source ← storage.readSource path
  assembleSource config defines source path

/-- Writes an image in one of the forms. -/
def writeAs (storage : Storage m) (image : Image) (path : Path) (format : Format) :
    Work m Unit := do
  let text ← Work.ofExcept .excess (image.render format)
  Work.ofStorage .file (storage.write path text)

/-- Writes an image, in the form that the suffix asks for unless one is given. -/
def writeImage (storage : Storage m) (image : Image) (path : Path) (format : Option Format) :
    Work m Unit := do
  storage.writeAs image path (format.getD (Format.ofPath path))
  Work.report [.wrote path]

def writeListing (storage : Storage m) (image : Image) (path : Path) : Work m Unit := do
  storage.writeAs image path .listing
  Work.report [.wroteListing path]

def writeSymbols (storage : Storage m) (image : Image) (path : Path) : Work m Unit := do
  storage.writeAs image path .symbols
  Work.report [.wroteSymbols path]

def loadImage (storage : Storage m) (path : Path) : Work m Document := do
  let text ← storage.readText path
  Work.ofExcept .document (Document.read path.render text)

end Storage

end Subleq
