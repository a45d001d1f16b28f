import Subleq.Work

/-!
# Sessions

A session assembles one program after the other with the same options.  Constants that are defined
from outside stay for all later programs, and the last image stays until the next assembly begins,
which leaves none if it fails.
-/

namespace Subleq

/-- The options, the constants defined from outside, and the last image. -/
structure Session where
  config : Config
  defines : Defines := []
  last : Option Image := none
deriving DecidableEq, Repr

namespace Session

/-- Defines a constant for all programs from here on. -/
def define (session : Session) (name : String) (value : Int) : Session :=
  { session with defines := OrderedMap.put name value session.defines }

/-- Assembles a source text, which diagnostics call `file`, if there is room for it.  An attempt that
fails leaves no image. -/
def attempt (session : Session) (source file : String) : Except Failure Image × Session :=
  let result := Subleq.attempt session.config session.defines source file
  (result, { session with last := result.toOption })

def image (session : Session) : Except Fault Image :=
  match session.last with
  | some image => .ok image
  | none => .error (.found .nothingAssembled none)

variable {m : Type → Type} [Monad m]

/-- Assembles a file if there is room for it.  A file that cannot be read does not begin an
assembly. -/
def assembleFile (session : Session) (storage : Storage m) (path : Path) :
    Work m (Except Failure Image × Session) := do
  let source ← storage.readSource path
  pure (session.attempt source path.render)

/-- Writes the last image in the form with a name, or the one that the suffix asks for. -/
def writeImage (session : Session) (storage : Storage m) (path : Path) (format : Option String) :
    Work m Unit := do
  let image ← Work.ofExcept .assembly session.image
  match format with
  | none => storage.writeImage image path none
  | some name =>
      match Format.ofName? name with
      | some format => storage.writeImage image path (some format)
      | none => throw (.unknownFormat name)

def writeListing (session : Session) (storage : Storage m) (path : Path) : Work m Unit := do
  storage.writeListing (← Work.ofExcept .assembly session.image) path

def writeSymbols (session : Session) (storage : Storage m) (path : Path) : Work m Unit := do
  storage.writeSymbols (← Work.ofExcept .assembly session.image) path

end Session

end Subleq
