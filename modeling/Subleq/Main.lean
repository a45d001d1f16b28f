import Subleq.Command.Assemble
import Subleq.Command.Run

/-!
# The program

The commands on the files of the system.  The first argument names the command.
-/

namespace Subleq.Main

/-- Whether the system gives a number, which may come with a minus sign, for its refusal. -/
def isCode (code : UInt32) (number : UInt32) : Bool := code == number || code == 0 - number

/-- What the system says about a path. -/
def fileFault (path : Path) : IO.Error → FileFault
  | .inappropriateType _ code _ =>
      if isCode code 21 then .isDirectory path else .notDirectory path
  | .invalidArgument _ code _ =>
      if isCode code 36 then .nameTooLong path else .notName path
  | _ => .missing path

/-- An action on a file, with what the system says about its path if it fails. -/
def attempt {α : Type} (path : Path) (action : IO α) : IO (Except FileFault α) := do
  try
    return .ok (← action)
  catch e =>
    return .error (fileFault path e)

def systemStorage : Storage IO where
  status text := do
    match ← attempt (Path.ofText text) (IO.FS.readBinFile text) with
    | .ok _ => return .file
    | .error (.isDirectory _) => return .directory
    | .error _ => return .missing
  read path := attempt path do
    let bytes ← IO.FS.readBinFile path.render
    return bytes.toList.map UInt8.toNat
  write path text := attempt path (IO.FS.writeFile path.render text)

/-- Prints a reply, and returns its exit status. -/
def print (reply : Command.Reply) : IO UInt32 := do
  (← IO.getStdout).putStr reply.output
  (← IO.getStderr).putStr reply.errors
  return reply.status.toUInt32

end Subleq.Main

open Subleq in
/-- Runs the command that the first argument names. -/
def main (arguments : List String) : IO UInt32 := do
  let answer ← match arguments with
    | "slasm" :: rest => Command.Assemble.run Main.systemStorage rest
    | "slrun" :: rest => Command.Run.run Main.systemStorage rest
    | _ => pure (.misuse .missingArgument)
  match answer with
  | .reply reply => Main.print reply
  | .misuse misuse => Main.print ⟨2, "", "Error: " ++ misuse.message ++ "\n"⟩
  | .notPath fault => Main.print ⟨1, "", "Error: " ++ fault.message ++ "\n"⟩
  | .broken breakdown => Main.print ⟨1, "", "Error: " ++ breakdown.message ++ "\n"⟩
