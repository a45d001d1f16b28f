import Subleq.Fault
import Subleq.Loading
import Subleq.Storage
import Subleq.Text.Utf8

/-!
# Failures

All the ways in which a command can fail, with the texts and the exit statuses by which it says so.
-/

namespace Subleq

/-- Values of options that cannot be used. -/
inductive Parameter.Fault
  | badDefine (text : String)
  | unknownAddress (text : String)
deriving DecidableEq, Repr

def Parameter.Fault.message : Parameter.Fault → String
  | badDefine text => "invalid value in -D " ++ text
  | unknownAddress text => "'" ++ text ++ "' is neither an address nor a known symbol"

/-- Why a command has no result. -/
inductive Failure
  | assembly (fault : Subleq.Fault)
  | capacity (fault : Capacity.Fault)
  /-- An image holds a number that is not written. -/
  | excess (excess : Digits.Excess)
  | file (fault : FileFault)
  | encoding (fault : Text.Utf8.Fault)
  | document (fault : Document.Fault)
  | loading (fault : Loading.Fault)
  | parameter (fault : Parameter.Fault)
  | unknownFormat (name : String)
deriving DecidableEq, Repr

namespace Failure

def message : Failure → String
  | assembly fault => fault.message
  | capacity fault => fault.message
  | excess e => e.message
  | file fault => fault.message
  | encoding fault => fault.message
  | document fault => fault.message
  | loading fault => fault.message
  | parameter fault => fault.message
  | unknownFormat name => Format.unknownMessage name

/-- Whose failure it is: the program's, the machine's for a program that it cannot hold, that of the
arguments and the files they name, or that of something nobody has thought of. -/
inductive Blame
  | program
  | machine
  | arguments
  | internal
deriving DecidableEq, Repr

namespace Blame

def status : Blame → Nat
  | program | machine => 1
  | arguments => 2
  | internal => 3

/-- What stands before the message. -/
def lead : Blame → String
  | program => ""
  | machine => "Run error: "
  | arguments => "Error: "
  | internal => "Internal error: "

end Blame

/-- Whose failure it is. -/
def blame : Failure → Blame
  | assembly (.source _) => .program
  | assembly (.excess _) | assembly (.narrowCell _) => .arguments
  | assembly _ => .internal
  | capacity _ => .internal
  | excess _ => .arguments
  | file (.missing _) | file (.notName _) => .arguments
  | file _ => .internal
  | encoding _ => .arguments
  | document fault =>
      match fault with
      | .badWord _ _ _ | .notJson _ | .badCell _ | .excessCell _ | .notNumberCell => .arguments
      | .missingField _ | .infiniteCell | .mismatch _ => .internal
  | loading fault =>
      match fault with
      | .machine _ | .narrowWidth _ => .machine
      | .notPair _ _ => .arguments
      | _ => .internal
  | parameter _ => .arguments
  | unknownFormat _ => .arguments

/-- The message as a command prints it; the name of a missing field is quoted. -/
def text (failure : Failure) : String :=
  failure.blame.lead ++
    match failure with
    | document (.missingField name) => Text.quoted name.toList
    | failure => failure.message

end Failure

end Subleq
