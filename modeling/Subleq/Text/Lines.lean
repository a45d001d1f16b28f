import Subleq.Text.Character

/-!
# Lines, words and columns

How texts are cut into parts and set again.

There are two notions of a line.  Files are read with the line ends of all systems brought to a line
feed (`unifyNewlines`).  A text is cut into lines (`lines`) at every character that the Unicode
standard makes a line boundary, a carriage return with its line feed counting once; a boundary at
the very end opens no further line.

What is printed is set into columns, whose width counts characters; a text that is wider than its
column is kept whole.  It is plain text, from which the control sequences have been taken out by
which terminals change colours or move their cursor: an escape character, an opening bracket,
parameters, and a letter.  Other uses of the escape character stay.
-/

namespace Subleq.Text

/-! ## Blanks and words -/

/-- A text without the leading and trailing characters of a class. -/
def stripBy (inClass : Char → Bool) (text : List Char) : List Char :=
  ((text.dropWhile inClass).reverse.dropWhile inClass).reverse

/-- A text without the blanks at its ends. -/
def strip (text : List Char) : List Char := stripBy isBlank text

/-- The words of a text, where `current` holds the characters of an unfinished word, the last one
first. -/
def wordsFrom (current : List Char) : List Char → List (List Char)
  | [] => if current.isEmpty then [] else [current.reverse]
  | c :: rest =>
      if isBlank c then
        if current.isEmpty then wordsFrom [] rest else current.reverse :: wordsFrom [] rest
      else wordsFrom (c :: current) rest

/-- The words of a text: its longest runs of characters that are not blank. -/
def words (text : List Char) : List (List Char) := wordsFrom [] text

/-! ## Parts between characters -/

/-- The parts of a text between the occurrences of a character. -/
def split (separator : Char) : List Char → List (List Char)
  | [] => [[]]
  | c :: rest =>
      if c == separator then [] :: split separator rest
      else match split separator rest with
        | [] => [[c]]
        | first :: others => (c :: first) :: others

/-- The parts of a text before and after the first occurrence of a character, if there is one. -/
def cut? (separator : Char) (text : List Char) : Option (List Char × List Char) :=
  match text.dropWhile (· != separator) with
  | _ :: rest => some (text.takeWhile (· != separator), rest)
  | [] => none

/-! ## Lines -/

def isLineBreak (c : Char) : Bool :=
  let n := c.toNat
  (0x0a ≤ n && n ≤ 0x0d) || (0x1c ≤ n && n ≤ 0x1e) || n == 0x85 || n == 0x2028 || n == 0x2029

/-- The lines of a text, where `current` holds the characters of an unfinished line, the last one
first. -/
def linesFrom (current : List Char) : List Char → List (List Char)
  | [] => if current.isEmpty then [] else [current.reverse]
  | '\r' :: '\n' :: rest => current.reverse :: linesFrom [] rest
  | c :: rest =>
      if isLineBreak c then current.reverse :: linesFrom [] rest
      else linesFrom (c :: current) rest

/-- The lines of a text, without their boundaries. -/
def lines (text : List Char) : List (List Char) := linesFrom [] text

/-- Every carriage return, alone or before a line feed, becomes a line feed. -/
def unifyNewlines : List Char → List Char
  | [] => []
  | '\r' :: '\n' :: rest => '\n' :: unifyNewlines rest
  | '\r' :: rest => '\n' :: unifyNewlines rest
  | c :: rest => c :: unifyNewlines rest

/-- Lines put together, each with a line feed after it. -/
def unlines (lines : List String) : String := String.join (lines.map (· ++ "\n"))

/-! ## Columns -/

def blanks (count : Nat) : String := String.ofList (List.replicate count ' ')

/-- A text at the left of a column. -/
def padRight (width : Nat) (text : String) : String := text ++ blanks (width - text.length)

/-- A text at the right of a column. -/
def padLeft (width : Nat) (text : String) : String := blanks (width - text.length) ++ text

/-- A rule of `count` equal characters. -/
def rule (c : Char) (count : Nat) : String := String.ofList (List.replicate count c)

/-! ## Plain texts -/

/-- The character that control sequences start with. -/
def isEscape (c : Char) : Bool := c.toNat == 0x1b

/-- Characters of the parameters of a control sequence. -/
def isParameter (c : Char) : Bool := c == ';' || c == '?' || c.isDigit

/-- The length of a control sequence behind its escape character, which the text follows. -/
def controlLength? : List Char → Option Nat
  | '[' :: rest =>
      let parameters := rest.takeWhile isParameter
      match rest.drop parameters.length with
      | c :: _ => if c.isAlpha then some (parameters.length + 2) else none
      | [] => none
  | _ => none

/-- A text without its control sequences, of which the first `skip` characters belong to one. -/
def plainFrom : (skip : Nat) → List Char → List Char
  | _, [] => []
  | skip + 1, _ :: rest => plainFrom skip rest
  | 0, c :: rest =>
      if isEscape c then
        match controlLength? rest with
        | some length => plainFrom length rest
        | none => c :: plainFrom 0 rest
      else c :: plainFrom 0 rest

/-- A text without its control sequences. -/
def plain (text : String) : String := String.ofList (plainFrom 0 text.toList)

end Subleq.Text
