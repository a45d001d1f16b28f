import Subleq.Text.Lines

/-!
# Command lines

How options are written.  A long option is `--name`, with its value after an equals sign or as the
next argument; a short one is a letter after a dash, with its value behind it or as the next
argument, and letters without values may stand together.  Options and other arguments may be mixed;
after `--` there are no more options.  An option that wants a value takes the next argument whatever
it looks like.
-/

namespace Subleq.Command

/-- An option of a command, for which `key` stands. -/
structure Switch (κ : Type) where
  key : κ
  letter : Option Char
  name : String
  takesValue : Bool

/-- Why a command line cannot be used. -/
inductive Misuse
  | unknownOption (text : String)
  | missingValue
  | unexpectedValue (name : String)
  | badValue (name : String)
  | missingArgument
  | extraArgument (text : String)
  | unreadable (path : String)
deriving DecidableEq, Repr

def Misuse.message : Misuse → String
  | unknownOption text => "no such option: " ++ text
  | missingValue => "an option needs a value"
  | unexpectedValue name => "option " ++ name ++ " takes no value"
  | badValue name => "invalid value for " ++ name
  | missingArgument => "an input file is needed"
  | extraArgument text => "unexpected argument " ++ text
  | unreadable path => "cannot use " ++ path

/-- A command line as it was written: the options in order, each with its value or an empty text,
and the other arguments. -/
structure CommandLine (κ : Type) where
  settings : List (κ × String) := []
  arguments : List String := []

namespace CommandLine

variable {κ : Type}

/-- A command line that is being read.  An option may wait for its value, and options may be
over. -/
structure Reading (κ : Type) where
  line : CommandLine κ := {}
  awaiting : Option κ := none
  optionsOver : Bool := false

namespace Reading

def set (reading : Reading κ) (key : κ) (value : String) : Reading κ :=
  { reading with
    line := { reading.line with settings := reading.line.settings ++ [(key, value)] } }

def argument (reading : Reading κ) (text : String) : Reading κ :=
  { reading with line := { reading.line with arguments := reading.line.arguments ++ [text] } }

end Reading

/-- Reads letters after a dash. -/
def readLetters (switches : List (Switch κ)) (reading : Reading κ) :
    List Char → Except Misuse (Reading κ)
  | [] => .ok reading
  | c :: rest =>
      match switches.find? fun switch => switch.letter == some c with
      | none => .error (.unknownOption (String.ofList ['-', c]))
      | some switch =>
          if switch.takesValue then
            if rest.isEmpty then .ok { reading with awaiting := some switch.key }
            else .ok (reading.set switch.key (String.ofList rest))
          else readLetters switches (reading.set switch.key "") rest

/-- Reads a long option, of which `value` stands after an equals sign. -/
def readNamed (switch : Switch κ) (value : Option String) (reading : Reading κ) :
    Except Misuse (Reading κ) :=
  match switch.takesValue, value with
  | true, some value => .ok (reading.set switch.key value)
  | true, none => .ok { reading with awaiting := some switch.key }
  | false, some _ => .error (.unexpectedValue switch.name)
  | false, none => .ok (reading.set switch.key "")

/-- Reads an argument that starts with a dash and has more. -/
def readOption (switches : List (Switch κ)) (reading : Reading κ) (text : List Char) :
    Except Misuse (Reading κ) :=
  let (name, value) := match Text.cut? '=' text with
    | some (name, value) => (String.ofList name, some (String.ofList value))
    | none => (String.ofList text, none)
  match switches.find? fun switch => switch.name == name with
  | some switch => readNamed switch value reading
  | none =>
      match text with
      | '-' :: '-' :: _ => .error (.unknownOption (String.ofList text))
      | text => readLetters switches reading (text.drop 1)

def readArgument (switches : List (Switch κ)) (reading : Reading κ) (text : String) :
    Except Misuse (Reading κ) :=
  match reading.awaiting with
  | some key => .ok ({ reading with awaiting := none }.set key text)
  | none =>
      if reading.optionsOver then .ok (reading.argument text)
      else if text = "--" then .ok { reading with optionsOver := true }
      else match text.toList with
        | '-' :: c :: rest => readOption switches reading ('-' :: c :: rest)
        | _ => .ok (reading.argument text)

def read (switches : List (Switch κ)) (arguments : List String) :
    Except Misuse (CommandLine κ) := do
  let reading ← arguments.foldlM (readArgument switches) {}
  match reading.awaiting with
  | some _ => .error .missingValue
  | none => .ok reading.line

variable [BEq κ]

def values (line : CommandLine κ) (key : κ) : List String :=
  (line.settings.filter fun setting => setting.1 == key).map Prod.snd

/-- The value of an option; the last one counts. -/
def value? (line : CommandLine κ) (key : κ) : Option String := (line.values key).getLast?

/-- The options that are given, in the order in which each of them is first given. -/
def keys (line : CommandLine κ) : List κ := (line.settings.map Prod.fst).eraseDups

def has (line : CommandLine κ) (key : κ) : Bool := line.settings.any fun setting => setting.1 == key

/-- The first argument that is no option. -/
def firstArgument (line : CommandLine κ) : Except Misuse String :=
  match line.arguments with
  | [] => .error .missingArgument
  | text :: _ => .ok text

/-- The one argument that is no option. -/
def argument (line : CommandLine κ) : Except Misuse String :=
  match line.arguments with
  | [] => .error .missingArgument
  | [text] => .ok text
  | _ :: extra :: _ => .error (.extraArgument extra)

end CommandLine

end Subleq.Command
