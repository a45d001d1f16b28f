/-!
# Source positions

A position names a text, a line and a column.  Lines and columns count from one; the position `0:0`
of a text marks what was given from outside of it, such as a symbol from the command line.
-/

namespace Subleq

/-- A position in a named text. -/
structure Location where
  file : String
  line : Int
  column : Int
deriving DecidableEq, Repr, Inhabited

namespace Location

/-- The text `file:line:column`, by which diagnostics name a position. -/
def render (l : Location) : String :=
  l.file ++ ":" ++ toString l.line ++ ":" ++ toString l.column

/-- The text `line:column`, for places where the file is clear from the context. -/
def renderShort (l : Location) : String :=
  toString l.line ++ ":" ++ toString l.column

/-- Symbols that are defined before any source is read stand at this position. -/
def predefined : Location := ⟨"<command line>", 0, 0⟩

end Location

end Subleq
