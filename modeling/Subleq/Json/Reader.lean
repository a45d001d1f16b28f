import Subleq.Digits
import Subleq.Json
import Subleq.OrderedMap
import Subleq.Text.Character

/-!
# Reading JSON

Reading refuses a text at the first character that cannot be part of a JSON value.  Beyond the
standard, the three values that are no finite number may be written `NaN`, `Infinity` and
`-Infinity`.  Of two fields of one name, the later one counts, at the place of the earlier.

Readers take the rest of the text and return what they leave of it.  A refusal carries the rest of
the text from the place that it points at.
-/

namespace Subleq.Json

/-- Why a text is no JSON value. -/
inductive Reason
  | expectedValue
  | expectedName
  | expectedColon
  | expectedComma
  | unterminatedString
  | controlCharacter
  | badEscape
  | badUnicodeEscape
  | extraData
  | excess (excess : Digits.Excess)
deriving DecidableEq, Repr

def Reason.message : Reason → String
  | expectedValue => "Expecting value"
  | expectedName => "Expecting property name enclosed in double quotes"
  | expectedColon => "Expecting ':' delimiter"
  | expectedComma => "Expecting ',' delimiter"
  | unterminatedString => "Unterminated string starting at"
  | controlCharacter => "Invalid control character at"
  | badEscape => "Invalid \\escape"
  | badUnicodeEscape => "Invalid \\uXXXX escape"
  | extraData => "Extra data"
  | excess e => e.message

/-- A refusal: its reason, and the text from its place on. -/
abbrev Refusal : Type := Reason × List Char

/-- Blanks between the parts of a value. -/
def isGap (c : Char) : Bool := c == ' ' || c == '\t' || c == '\n' || c == '\r'

/-- The text after its leading blanks. -/
def skipGap (text : List Char) : List Char := text.dropWhile isGap

/-! ## Texts -/

/-- The unit that four hexadecimal digits stand for. -/
def unit? : List Char → Option Nat
  | a :: b :: c :: d :: _ =>
      let digits := [a, b, c, d]
      if digits.all (Text.isDigitIn 16) then some (Text.digitsValue 16 digits) else none
  | _ => none

/-- The code point that a single letter after a backslash stands for. -/
def simpleEscape? : Char → Option Nat
  | '"' => some 0x22
  | '\\' => some 0x5c
  | '/' => some 0x2f
  | 'b' => some 0x08
  | 'f' => some 0x0c
  | 'n' => some 0x0a
  | 'r' => some 0x0d
  | 't' => some 0x09
  | _ => none

/-- The code point of the unit after `\u`, or that of a pair if the second unit follows.  Something
has to follow the digits, at least the closing quote.  Returns how many characters were taken. -/
def readUnits (digits : List Char) : Except Refusal (Nat × Nat) :=
  let refusal := .error (.badUnicodeEscape, 'u' :: digits)
  if digits.length < 5 then refusal
  else match unit? digits with
    | none => refusal
    | some high =>
        match digits.drop 4 with
        | '\\' :: 'u' :: more =>
            if Text.isHighHalf high ∧ 5 ≤ more.length then
              match unit? more with
              | none => .error (.badUnicodeEscape, 'u' :: more)
              | some low =>
                  if Text.isLowHalf low then
                    .ok (0x10000 + (high - 0xd800) * 0x400 + (low - 0xdc00), 10)
                  else .ok (high, 4)
            else .ok (high, 4)
        | _ => .ok (high, 4)

/-- Reads what follows the backslash of an escape sequence, and how many characters it takes. -/
def readEscape (opening : List Char) : List Char → Except Refusal (Nat × Nat)
  | [] => .error (.unterminatedString, opening)
  | 'u' :: digits => do
      let (code, taken) ← readUnits digits
      .ok (code, 1 + taken)
  | c :: rest =>
      match simpleEscape? c with
      | some code => .ok (code, 1)
      | none => .error (.badEscape, '\\' :: c :: rest)

/-- Reads a text after its opening quote, which `opening` starts with.  Of what is left, `skip`
characters belong to an escape sequence that has been read; `codes` are the code points so far, the
last one first. -/
def readText (opening : List Char) : (skip : Nat) → (codes : Text.Codes) → List Char →
    Except Refusal (Text.Codes × List Char)
  | _, _, [] => .error (.unterminatedString, opening)
  | skip + 1, codes, _ :: rest => readText opening skip codes rest
  | 0, codes, c :: rest =>
      if c == '"' then .ok (codes.reverse, rest)
      else if c == '\\' then do
        let (code, taken) ← readEscape opening rest
        readText opening taken (code :: codes) rest
      else if c.toNat < 0x20 then .error (.controlCharacter, c :: rest)
      else readText opening 0 (c.toNat :: codes) rest

/-! ## Numbers -/

/-- The digits before the point: a zero by itself, or digits that do not start with one. -/
def wholeDigits? (text : List Char) : Option (List Char × List Char) :=
  match text with
  | '0' :: rest => some (['0'], rest)
  | _ =>
      let digits := text.takeWhile Char.isDigit
      if digits.isEmpty then none else some (digits, text.drop digits.length)

/-- The digits after the point, if there is one with digits after it. -/
def fractionDigits (text : List Char) : List Char × List Char :=
  match text with
  | '.' :: rest =>
      let digits := rest.takeWhile Char.isDigit
      if digits.isEmpty then ([], text) else (digits, rest.drop digits.length)
  | _ => ([], text)

/-- The exponent, if there is one with digits. -/
def exponentPart (text : List Char) : Option Int × List Char :=
  match text with
  | c :: rest =>
      if c == 'e' || c == 'E' then
        let (negative, body) := match rest with
          | '-' :: body => (true, body)
          | '+' :: body => (false, body)
          | body => (false, body)
        let digits := body.takeWhile Char.isDigit
        if digits.isEmpty then (none, text)
        else
          let n : Int := Text.digitsValue 10 digits
          (some (if negative then -n else n), body.drop digits.length)
      else (none, text)
  | [] => (none, text)

/-- The integer that decimal digits stand for, unless there are too many of them. -/
def ofDigits (negative : Bool) (digits : List Char) : Except Reason Json :=
  if digits.length ≤ Digits.limit then
    let n : Int := Text.digitsValue 10 digits
    .ok (.int (if negative then -n else n))
  else .error (.excess (.unread digits.length))

def readMagnitude (negative : Bool) (text : List Char) : Except Reason (Json × List Char) :=
  match wholeDigits? text with
  | none => .error .expectedValue
  | some (whole, rest) =>
      let (fraction, rest) := fractionDigits rest
      match fraction, exponentPart rest with
      | [], (none, rest) => do
          let value ← ofDigits negative whole
          .ok (value, rest)
      | fraction, (exponent, rest) =>
          .ok (.decimal (.ofDecimal negative (Text.digitsValue 10 (whole ++ fraction))
            (exponent.getD 0 - fraction.length)), rest)

def readNumber (text : List Char) : Except Reason (Json × List Char) :=
  match text with
  | '-' :: rest => readMagnitude true rest
  | _ => readMagnitude false text

/-! ## Values -/

/-- The values that are written as words. -/
def words : List (List Char × Json) :=
  [("null".toList, .null), ("true".toList, .bool true), ("false".toList, .bool false),
    ("NaN".toList, .decimal .notNumber), ("Infinity".toList, .decimal (.infinity false)),
    ("-Infinity".toList, .decimal (.infinity true))]

def readScalar (text : List Char) : Except Refusal (Json × List Char) :=
  match words.find? fun (word, _) => word.isPrefixOf text with
  | some (word, value) => .ok (value, text.drop word.length)
  | none => (readNumber text).mapError (·, text)

mutual

/-- Reads a value.  A value inside of another one takes two rounds more than that one, and stands at
least one character after it, so that more rounds than twice the number of characters are enough. -/
def readValue : (rounds : Nat) → List Char → Except Refusal (Json × List Char)
  | 0, text => .error (.expectedValue, text)
  | rounds + 1, text =>
      match text with
      | '"' :: rest => do
          let (value, rest) ← readText text 0 [] rest
          .ok (.str value, rest)
      | '\x7b' :: rest =>
          match skipGap rest with
          | '\x7d' :: rest => .ok (.obj [], rest)
          | rest => do
              let (fields, rest) ← readFields rounds [] rest
              .ok (.obj fields, rest)
      | '[' :: rest =>
          match skipGap rest with
          | ']' :: rest => .ok (.arr [], rest)
          | rest => do
              let (items, rest) ← readItems rounds rest
              .ok (.arr items, rest)
      | _ => readScalar text

/-- Reads the items of an array, up to its closing bracket. -/
def readItems : (rounds : Nat) → List Char → Except Refusal (List Json × List Char)
  | 0, text => .error (.expectedValue, text)
  | rounds + 1, text => do
      let (item, rest) ← readValue rounds text
      match skipGap rest with
      | ']' :: rest => .ok ([item], rest)
      | ',' :: rest => do
          let (items, rest) ← readItems rounds (skipGap rest)
          .ok (item :: items, rest)
      | rest => .error (.expectedComma, rest)

/-- Reads the fields of an object, up to its closing brace; `fields` are those before. -/
def readFields : (rounds : Nat) → (fields : List (Text.Codes × Json)) → List Char →
    Except Refusal (List (Text.Codes × Json) × List Char)
  | 0, _, text => .error (.expectedValue, text)
  | rounds + 1, fields, text =>
      match text with
      | '"' :: rest => do
          let (name, rest) ← readText text 0 [] rest
          match skipGap rest with
          | ':' :: rest => do
              let (value, rest) ← readValue rounds (skipGap rest)
              let fields := OrderedMap.put name value fields
              match skipGap rest with
              | '\x7d' :: rest => .ok (fields, rest)
              | ',' :: rest => readFields rounds fields (skipGap rest)
              | rest => .error (.expectedComma, rest)
          | rest => .error (.expectedColon, rest)
      | _ => .error (.expectedName, text)

end

/-- A refusal of a text, with the place that it points at, counted from zero, and the line and the
column of that place, counted from one. -/
structure Fault where
  reason : Reason
  position : Nat
  line : Nat
  column : Nat
deriving DecidableEq, Repr

def Fault.message (fault : Fault) : String :=
  match fault.reason with
  | .excess e => e.message
  | reason =>
      reason.message ++ ": line " ++ toString fault.line ++ " column " ++ toString fault.column
        ++ " (char " ++ toString fault.position ++ ")"

/-- A refusal at the place where `rest` is left of the text. -/
def faultAt (text : List Char) (reason : Reason) (rest : List Char) : Fault :=
  let before := text.take (text.length - rest.length)
  { reason
    position := before.length
    line := before.count '\n' + 1
    column := (before.reverse.takeWhile (· != '\n')).length + 1 }

/-- Reads a text that holds one value and nothing else. -/
def read (text : List Char) : Except Fault Json :=
  match readValue (2 * text.length + 1) (skipGap text) with
  | .error (reason, rest) => .error (faultAt text reason rest)
  | .ok (value, rest) =>
      match skipGap rest with
      | [] => .ok value
      | rest => .error (faultAt text .extraData rest)

end Subleq.Json
