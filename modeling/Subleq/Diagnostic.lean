import Subleq.Diagnostic.Cause

/-!
# Diagnostics

A diagnostic is a reason together with the position where it was found and, once that is known, the
line of source at that position.  Its text has up to four parts, one to a line: the position with
the message, the quoted line, a caret under the column, and the hint.
-/

namespace Subleq

/-- A reason for refusing a program, and where it was found. -/
structure Diagnostic where
  cause : Cause
  location : Option Location
  sourceLine : Option String := none
deriving DecidableEq, Repr

namespace Diagnostic

/-- A diagnostic that quotes no line of source yet. -/
def found (cause : Cause) (location : Option Location) : Diagnostic := ⟨cause, location, none⟩

/-- The quoted line and the caret.  A quoted line is indented by four blanks; a column below one has
no caret. -/
def quotation (location : Location) (line : String) : List String :=
  ("    " ++ line) ::
    (if 0 < location.column then
      [String.ofList (List.replicate (4 + location.column - 1).toNat ' ') ++ "^"]
    else [])

/-- The first line of the text: the position, if there is one, and the message. -/
def headline (d : Diagnostic) : String :=
  match d.location with
  | some location => location.render ++ ": error: " ++ d.cause.message
  | none => "error: " ++ d.cause.message

/-- The lines of the text.  A line of source is quoted only under a position, and an empty hint is
not printed. -/
def lines (d : Diagnostic) : List String :=
  let quoted := match d.location, d.sourceLine with
    | some location, some line => quotation location line
    | _, _ => []
  let advice := match d.cause.hint with
    | some hint => if hint = "" then [] else ["hint: " ++ hint]
    | none => []
  d.headline :: (quoted ++ advice)

def render (d : Diagnostic) : String := "\n".intercalate d.lines

/-- Quotes a line of source, in place of any that was quoted before. -/
def withSourceLine (d : Diagnostic) (line : String) : Diagnostic :=
  { d with sourceLine := some line }

end Diagnostic

end Subleq
