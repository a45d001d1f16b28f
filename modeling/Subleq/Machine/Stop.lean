import Subleq.Digits

/-!
# Why a machine stops

A run ends because an access outside of memory halts the machine, because its budget of steps is
used up, because it arrives at a breakpoint, or because it has written to a watched cell.
-/

namespace Subleq

/-- The reasons for the end of a run. -/
inductive StopReason
  | halted
  | stepLimit
  | breakpoint
  | watchpoint
deriving DecidableEq, Repr

namespace StopReason

def name : StopReason → String
  | halted => "HALTED"
  | stepLimit => "STEP_LIMIT"
  | breakpoint => "BREAKPOINT"
  | watchpoint => "WATCHPOINT"

def all : List StopReason := [halted, stepLimit, breakpoint, watchpoint]

def ofName? (text : String) : Option StopReason := all.find? fun reason => reason.name == text

end StopReason

/-- The end of a run: the program counter and the number of steps at that point, and the address and
the value that the reason is about.  A message of its own stands for the usual wording. -/
structure StopEvent where
  reason : StopReason
  pc : Int
  steps : Int
  address : Option Int := none
  value : Option Int := none
  message : String := ""
deriving DecidableEq, Repr

namespace StopEvent

def isHalt (event : StopEvent) : Bool := event.reason == .halted

/-- A number that may be missing. -/
def showOption : Option Int → String
  | some n => toString n
  | none => "None"

def renderAt (pc : String) (event : StopEvent) : String :=
  if event.message ≠ "" then event.message
  else match event.reason with
    | .halted => "Halted at pc " ++ pc ++ " after " ++ toString event.steps ++ " steps"
    | .stepLimit =>
        "Step limit reached at pc " ++ pc ++ " (" ++ toString event.steps ++ " steps)"
    | .breakpoint => "Breakpoint at " ++ showOption event.address
    | .watchpoint => "Write " ++ showOption event.value ++ " to " ++ showOption event.address

def optionIsWritable : Option Int → Bool
  | some n => Digits.isWritable n
  | none => true

def isWritable (event : StopEvent) : Bool :=
  event.message ≠ "" ||
    match event.reason with
    | .halted | .stepLimit => Digits.isWritable event.pc && Digits.isWritable event.steps
    | .breakpoint => optionIsWritable event.address
    | .watchpoint => optionIsWritable event.value && optionIsWritable event.address

def render (event : StopEvent) : String := event.renderAt (toString event.pc)

end StopEvent

end Subleq
