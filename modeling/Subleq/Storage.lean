import Subleq.Path
import Subleq.Text.Quoted

/-!
# Storage

Commands work on files through a `Storage`, which is a file system as far as they need one.  The
commands do not depend on which one it is: `Files` is one that exists in memory only.
-/

namespace Subleq

/-- What a name in a file system stands for. -/
inductive FileStatus
  | missing
  | file
  | directory
deriving DecidableEq, Repr

/-- Why a file cannot be read or written. -/
inductive FileFault
  | missing (path : Path)
  | notDirectory (path : Path)
  | isDirectory (path : Path)
  | nameTooLong (path : Path)
  /-- A name holds the character that ends names. -/
  | notName (path : Path)
deriving DecidableEq, Repr

namespace FileFault

/-- A fault that the system has a number for, and the path it is about. -/
def numbered (number : Nat) (reason : String) (path : Path) : String :=
  "[Errno " ++ toString number ++ "] " ++ reason ++ ": " ++ Text.quoted path.render.toList

def message : FileFault → String
  | missing path => numbered 2 "No such file or directory" path
  | notDirectory path => numbered 20 "Not a directory" path
  | isDirectory path => numbered 21 "Is a directory" path
  | nameTooLong path => numbered 36 "File name too long" path
  | notName _ => "embedded null byte"

end FileFault

/-- The operations of a file system, as actions of `m`. -/
structure Storage (m : Type → Type) where
  /-- What a path, as it was written, stands for. -/
  status : String → m FileStatus
  /-- The bytes of a file. -/
  read : Path → m (Except FileFault (List Nat))
  /-- Makes a file, or replaces the content of one. -/
  write : Path → String → m (Except FileFault Unit)

end Subleq
