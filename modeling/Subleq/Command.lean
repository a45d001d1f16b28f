import Subleq.Command.Options
import Subleq.Text.Lines
import Subleq.Work

/-!
# Commands

What is common to the commands: what they answer, and how they end.
-/

namespace Subleq.Command

def version : String := "1.0.0"

/-- The end of a command: its exit status and what it printed. -/
structure Reply where
  status : Nat
  output : String
  errors : String
deriving DecidableEq, Repr

/-- How a work ends that has not failed: with an exit status, or in the middle of its output. -/
inductive Ending
  | status (status : Nat)
  | broken (breakdown : Loading.Breakdown)
deriving DecidableEq, Repr

/-- What becomes of a command line.  There is no reply if a text that stands for a path can be none,
or if the work ends in the middle of its output. -/
inductive Answer
  | misuse (misuse : Misuse)
  | reply (reply : Reply)
  | notPath (fault : FileFault)
  | broken (breakdown : Loading.Breakdown)
deriving DecidableEq, Repr

/-- Options that every command has, and that end it at once. -/
inductive Notice
  | version
  | help
deriving DecidableEq, Repr

def Notice.text (command : String) : Notice → String
  | version => command ++ ", version " ++ Command.version ++ "\n"
  | help => "Usage: " ++ command ++ " [OPTIONS] INPUT_FILE\n"

/-- The answer of a work that has ended.  Reports are printed only if that is asked for, and then as
they are; the output and the text of a failure are plain. -/
def Answer.ofWork (verbose : Bool) (result : Except Failure Ending) (transcript : Transcript) :
    Answer :=
  let output := Text.unlines (transcript.output.map Text.plain)
  let reports := if verbose then transcript.reports.map Report.line else []
  match result with
  | .ok (.status status) => .reply ⟨status, output, Text.unlines reports⟩
  | .ok (.broken breakdown) => .broken breakdown
  | .error failure =>
      .reply ⟨failure.blame.status, output, Text.unlines (reports ++ [Text.plain failure.text])⟩

variable {m : Type → Type} [Monad m]

/-- Values that are misused end a command. -/
def orMisuse {α : Type} (value : Except Misuse α) : ExceptT Answer m α :=
  liftM (value.mapError Answer.misuse)

/-- The value of an option has to be readable. -/
def checkValue {α : Type} (read : String → Except Misuse α) : Option String → ExceptT Answer m Unit
  | none => pure ()
  | some text => do
      let _ ← orMisuse (read text)

/-- What a text stands for that is given for a path. -/
def statusOf (storage : Storage m) (text : String) : ExceptT Answer m FileStatus := do
  if Path.isCutOff text then throw (.notPath (.notName (Path.ofText text)))
  storage.status text

/-- The input has to be a file. -/
def checkInput (storage : Storage m) (text : String) : ExceptT Answer m Unit := do
  if (← statusOf storage text) ≠ .file then throw (.misuse (.unreadable text))

/-- An output must not be a directory. -/
def checkOutput (storage : Storage m) : Option String → ExceptT Answer m Unit
  | none => pure ()
  | some text => do
      if (← statusOf storage text) = .directory then throw (.misuse (.unreadable text))

/-- Runs a work to its end. -/
def perform (verbose : Bool) (work : Work m Ending) : m Answer := do
  let (result, transcript) ← work.run.run {}
  pure (Answer.ofWork verbose result transcript)

/-- Reads a command line and acts on it, unless it asks for a notice.  The values of its options are
looked at first, in the order in which the options are given, and after them the input. -/
def respond {κ : Type} [BEq κ] (command : String) (switches : List (Switch κ))
    (noticeOf : κ → Option Notice) (arguments : List String) (storage : Storage m)
    (check : CommandLine κ → κ → ExceptT Answer m Unit)
    (act : CommandLine κ → ExceptT Answer m Answer) : m Answer := do
  let action : ExceptT Answer m Answer := do
    let line ← orMisuse (CommandLine.read switches arguments)
    match line.settings.findSome? fun setting => noticeOf setting.1 with
    | some notice => pure (.reply ⟨0, notice.text command, ""⟩)
    | none => do
        line.keys.forM (check line)
        checkInput storage (← orMisuse line.firstArgument)
        act line
  match ← action.run with
  | .ok answer | .error answer => pure answer

end Subleq.Command
