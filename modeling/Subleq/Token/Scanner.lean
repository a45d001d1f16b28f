import Subleq.Fault
import Subleq.Text.Character

/-!
# From characters to tokens

Scanning goes in two layers.  `Lexeme.read` looks at the head of the remaining text and says what
stands there and how many characters it takes: a gap (blanks or a comment), a token, or something
that is no lexeme of the language.  `Token.scan` then walks over the text one character at a time,
so that a `Cursor` sees each of them, and asks for the next lexeme whenever the last one is used up.

Names, digits and the fields `$t`, `$e`, `$r` are ASCII.  Lines are counted by line feeds alone.
-/

namespace Subleq

/-! ## Character classes -/

/-- Blanks separate tokens; a carriage return counts as one. -/
def Char.isGap (c : Char) : Bool := c == ' ' || c == '\t' || c == '\r'

/-- Characters that a name may start with. -/
def Char.startsName (c : Char) : Bool := c.isAlpha || c == '_' || c == '.'

/-- Characters that a name may go on with. -/
def Char.continuesName (c : Char) : Bool := Char.startsName c || c.isDigit

/-! ## Lexemes -/

/-- What stands at the head of a text, and how many characters it takes. -/
inductive Lexeme
  /-- Blanks or a comment. -/
  | gap (size : Nat)
  | token (kind : Token.Kind) (size : Nat)
  /-- No lexeme: after `seen` characters it is clear that the text is refused, and the diagnostic
  points at the character number `mark`. -/
  | bad (cause : Cause) (seen : Nat) (mark : Nat)
  /-- A decimal numeral of too many digits. -/
  | overlong (digits : Nat)
deriving DecidableEq, Repr

/-- What an escape sequence stands for, and how many characters after the backslash it takes. -/
inductive Escape
  | char (c : Char) (size : Nat)
  | bad (cause : Cause) (seen : Nat)
deriving DecidableEq, Repr

namespace Escape

/-- The character that a single letter after a backslash stands for; any character without a meaning
of its own stands for itself. -/
def ofLetter : Char → Char
  | 'n' => '\n'
  | 'r' => '\r'
  | 't' => '\t'
  | '0' => Char.ofNat 0
  | c => c

/-- Reads what follows a backslash: a letter, or `x` and one or two hexadecimal digits. -/
def read : List Char → Escape
  | [] => .bad .truncatedEscape 0
  | 'x' :: rest =>
      let digits := (rest.take 2).takeWhile (Text.isDigitIn 16)
      if digits.isEmpty then .bad .emptyHexEscape 1
      else .char (Char.ofNat (Text.digitsValue 16 digits)) (1 + digits.length)
  | c :: _ => .char (ofLetter c) 1

end Escape

namespace Lexeme

def badHere (cause : Cause) (seen : Nat) : Lexeme := .bad cause seen seen

/-- The base that a letter after a leading zero selects. -/
def base? : Char → Option Nat
  | 'x' | 'X' => some 16
  | 'b' | 'B' => some 2
  | 'o' | 'O' => some 8
  | _ => none

/-- The number that decimal digits stand for, unless there are too many of them. -/
def ofDecimal (digits : List Char) : Lexeme :=
  if digits.length ≤ Digits.limit then .token (.number (Text.digitsValue 10 digits)) digits.length
  else .overlong digits.length

/-- A number in decimal: digits that no letter follows. -/
def readDecimal (text : List Char) : Lexeme :=
  let digits := text.takeWhile (·.isDigit)
  match text.drop digits.length with
  | c :: _ =>
      if Char.startsName c then badHere (.invalidDigit c) digits.length else ofDecimal digits
  | [] => ofDecimal digits

/-- The digits of a number in another base; the two characters that select it come before them. -/
def readBased (base : Nat) (text : List Char) : Lexeme :=
  let digits := text.takeWhile (Text.isDigitIn base)
  let size := 2 + digits.length
  if digits.isEmpty then badHere (.missingDigits base) size
  else match text.drop digits.length with
    | c :: _ =>
        if Char.continuesName c then badHere (.invalidBaseDigit c base) size
        else .token (.number (Text.digitsValue base digits)) size
    | [] => .token (.number (Text.digitsValue base digits)) size

/-- A number that starts with the digit `first`. -/
def readNumber (first : Char) (rest : List Char) : Lexeme :=
  match first, rest with
  | '0', letter :: digits =>
      match base? letter with
      | some base => readBased base digits
      | none => readDecimal (first :: rest)
  | _, _ => readDecimal (first :: rest)

/-- A dollar sign is a temp field if one of their letters follows it, and nothing that could go on a
name follows the letter; otherwise it stands by itself. -/
def readDollar : List Char → Lexeme
  | letter :: rest =>
      match Temp.ofLetter? letter with
      | some field =>
          if (rest.head?.map Char.continuesName).getD false then .token (.mark .dollar) 1
          else .token (.temp field) 2
      | none => .token (.mark .dollar) 1
  | [] => .token (.mark .dollar) 1

/-- The inside of a string literal.  Of the text, `skip` characters belong to an escape sequence
that has been read; `seen` characters came before it, the opening quote included; `chars` are the
characters of the string so far, the last one first.  A literal that its line does not close is
reported at its opening quote. -/
def readString : (skip seen : Nat) → (chars : List Char) → List Char → Lexeme
  | _, seen, _, [] => .bad .unterminatedString seen 0
  | skip + 1, seen, chars, _ :: rest => readString skip (seen + 1) chars rest
  | 0, seen, chars, c :: rest =>
      if c == '"' then .token (.string (String.ofList chars.reverse)) (seen + 1)
      else if c == '\n' then .bad .unterminatedString seen 0
      else if c == '\\' then
        match Escape.read rest with
        | .char c size => readString size (seen + 1) (c :: chars) rest
        | .bad cause more => badHere cause (seen + 1 + more)
      else readString 0 (seen + 1) (c :: chars) rest

/-- The closing quote of a character literal, after `seen` characters. -/
def closeCharacter (c : Char) (seen : Nat) : List Char → Lexeme
  | '\'' :: _ => .token (.number c.toNat) (seen + 1)
  | _ => badHere .unclosedCharacter seen

/-- A character literal, after its opening quote: a number token with the character's code. -/
def readCharacter : List Char → Lexeme
  | [] => badHere .unterminatedCharacter 1
  | c :: rest =>
      if c == '\n' then badHere .unterminatedCharacter 1
      else if c == '\\' then
        match Escape.read rest with
        | .char c size => closeCharacter c (2 + size) (rest.drop size)
        | .bad cause more => badHere cause (2 + more)
      else closeCharacter c 2 rest

/-- An operator or a delimiter; the shifts are written with two characters. -/
def readMark (c : Char) (rest : List Char) : Lexeme :=
  match c, rest with
  | '<', '<' :: _ => .token (.mark .leftShift) 2
  | '>', '>' :: _ => .token (.mark .rightShift) 2
  | _, _ =>
      match Mark.ofChar? c with
      | some mark => .token (.mark mark) 1
      | none => badHere (.unexpectedCharacter c) 1

/-- The lexeme at the head of the text `c :: rest`. -/
def read (c : Char) (rest : List Char) : Lexeme :=
  if Char.isGap c then .gap (1 + (rest.takeWhile Char.isGap).length)
  else if c == ';' then .gap (1 + (rest.takeWhile (· != '\n')).length)
  else if c == '\n' then .token .newline 1
  else if Char.startsName c then
    let tail := rest.takeWhile Char.continuesName
    .token (.identifier (String.ofList (c :: tail))) (1 + tail.length)
  else if c.isDigit then readNumber c rest
  else if c == '$' then readDollar rest
  else if c == '"' then readString 0 1 [] rest
  else if c == '\'' then readCharacter rest
  else readMark c rest

end Lexeme

/-! ## Positions -/

/-- A place in the text: its line and column, and the text from the start of that line on. -/
structure Cursor where
  line : Nat
  column : Nat
  lineText : List Char
deriving DecidableEq, Repr

namespace Cursor

def start (text : List Char) : Cursor := ⟨1, 1, text⟩

/-- The cursor after `c`, where `rest` is what follows it. -/
def advance (cursor : Cursor) (c : Char) (rest : List Char) : Cursor :=
  if c == '\n' then ⟨cursor.line + 1, 1, rest⟩
  else { cursor with column := cursor.column + 1 }

/-- The cursor after `count` characters of the text. -/
def advanceOver (cursor : Cursor) : (count : Nat) → List Char → Cursor
  | count + 1, c :: rest => (cursor.advance c rest).advanceOver count rest
  | _, _ => cursor

def location (cursor : Cursor) (file : String) : Location :=
  ⟨file, cursor.line, cursor.column⟩

/-- The whole line on which a cursor stands. -/
def currentLine (cursor : Cursor) : String :=
  String.ofList (cursor.lineText.takeWhile (· != '\n'))

end Cursor

/-! ## The scanner -/

namespace Token

/-- The tokens of a text at the cursor, of which the first `skip` characters belong to a lexeme that
has been read.  The token that ends the text stands after its last character. -/
def scanFrom (file : String) : (skip : Nat) → Cursor → List Char → Except Fault (List Token)
  | _, cursor, [] => .ok [⟨.endOfInput, cursor.location file⟩]
  | skip + 1, cursor, c :: rest => scanFrom file skip (cursor.advance c rest) rest
  | 0, cursor, c :: rest =>
      match Lexeme.read c rest with
      | .gap size => scanFrom file (size - 1) (cursor.advance c rest) rest
      | .token kind size => do
          let tokens ← scanFrom file (size - 1) (cursor.advance c rest) rest
          .ok (⟨kind, cursor.location file⟩ :: tokens)
      | .bad cause seen mark =>
          .error (.source
            { cause
              location := some ((cursor.advanceOver mark (c :: rest)).location file)
              sourceLine := some (cursor.advanceOver seen (c :: rest)).currentLine })
      | .overlong digits => .error (.excess (.unread digits))

/-- The tokens of a source text, or the first place where it has none.  The last token is always
`endOfInput`. -/
def scan (source : String) (file : String) : Except Fault (List Token) :=
  scanFrom file 0 (Cursor.start source.toList) source.toList

end Token

end Subleq
