import Subleq.Digits
import Subleq.Location
import Subleq.Text.Quoted

/-!
# Tokens

The words of the assembly language: names, numbers, strings, the three temp fields, punctuation, and
the two tokens that end a line and a text.  A token remembers where its first character stands.
-/

namespace Subleq

/-- The three scratch cells that operations may use. -/
inductive Temp
  | t
  | e
  | r
deriving DecidableEq, Repr

namespace Temp

/-- A temp field as it is written in source and listed among the symbols. -/
def name : Temp → String
  | t => "$t"
  | e => "$e"
  | r => "$r"

/-- All temp fields, in the order of their cells. -/
def all : List Temp := [t, e, r]

/-- The temp field that a letter after `$` stands for. -/
def ofLetter? : Char → Option Temp
  | 't' => some t
  | 'e' => some e
  | 'r' => some r
  | _ => none

end Temp

/-- Operators and delimiters. -/
inductive Mark
  | plus
  | minus
  | star
  | slash
  | percent
  | ampersand
  | pipe
  | caret
  | tilde
  | leftShift
  | rightShift
  | comma
  | colon
  | leftParen
  | rightParen
  | leftBracket
  | rightBracket
  | dollar
deriving DecidableEq, Repr

namespace Mark

def text : Mark → String
  | plus => "+"
  | minus => "-"
  | star => "*"
  | slash => "/"
  | percent => "%"
  | ampersand => "&"
  | pipe => "|"
  | caret => "^"
  | tilde => "~"
  | leftShift => "<<"
  | rightShift => ">>"
  | comma => ","
  | colon => ":"
  | leftParen => "("
  | rightParen => ")"
  | leftBracket => "["
  | rightBracket => "]"
  | dollar => "$"

def label : Mark → String
  | plus => "PLUS"
  | minus => "MINUS"
  | star => "STAR"
  | slash => "SLASH"
  | percent => "PERCENT"
  | ampersand => "AMPERSAND"
  | pipe => "PIPE"
  | caret => "CARET"
  | tilde => "TILDE"
  | leftShift => "LSHIFT"
  | rightShift => "RSHIFT"
  | comma => "COMMA"
  | colon => "COLON"
  | leftParen => "LPAREN"
  | rightParen => "RPAREN"
  | leftBracket => "LBRACKET"
  | rightBracket => "RBRACKET"
  | dollar => "DOLLAR"

/-- The marks of one character, apart from `$`, whose meaning depends on what follows it. -/
def ofChar? : Char → Option Mark
  | '+' => some plus
  | '-' => some minus
  | '*' => some star
  | '/' => some slash
  | '%' => some percent
  | '&' => some ampersand
  | '|' => some pipe
  | '^' => some caret
  | '~' => some tilde
  | ',' => some comma
  | ':' => some colon
  | '(' => some leftParen
  | ')' => some rightParen
  | '[' => some leftBracket
  | ']' => some rightBracket
  | _ => none

end Mark

/-- What a token is, with the value that it carries. -/
inductive Token.Kind
  | newline
  | endOfInput
  | identifier (name : String)
  | number (value : Nat)
  | string (text : String)
  | temp (field : Temp)
  | mark (mark : Mark)
deriving DecidableEq, Repr

namespace Token.Kind

def label : Token.Kind → String
  | newline => "NEWLINE"
  | endOfInput => "EOF"
  | identifier _ => "IDENTIFIER"
  | number _ => "NUMBER"
  | string _ => "STRING"
  | temp _ => "TEMP"
  | mark m => m.label

/-- A token as diagnostics quote it: its value, or its class name if it has none. -/
def text : Token.Kind → String
  | newline => "NEWLINE"
  | endOfInput => "EOF"
  | identifier name => name
  | number value => toString value
  | string text => text
  | temp field => field.name
  | mark m => m.text

/-- Whether a token can be quoted: the number of a numeral in another base may be too long for a
decimal numeral. -/
def isWritable : Token.Kind → Bool
  | number value => Digits.isWritable value
  | _ => true

/-- Tokens that end a line of source. -/
def endsLine : Token.Kind → Bool
  | newline | endOfInput => true
  | _ => false

end Token.Kind

/-- A token and the position of its first character. -/
structure Token where
  kind : Token.Kind
  location : Location
deriving DecidableEq, Repr

namespace Token

/-- A token as diagnostics quote it. -/
def text (token : Token) : String := token.kind.text

/-- A token in full: its class, its value if it has one, with texts quoted, and its position. -/
def describe (token : Token) : String :=
  let value := match token.kind with
    | .newline | .endOfInput => ""
    | .number value => ", " ++ toString value
    | kind => ", " ++ Text.quoted kind.text.toList
  "Token(" ++ token.kind.label ++ value ++ ", " ++ token.location.renderShort ++ ")"

end Token

end Subleq
