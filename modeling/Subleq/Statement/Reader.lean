import Subleq.Expr.Reader
import Subleq.Statement
import Subleq.Token.Scanner

/-!
# Reading statements

Source is read line by line.  A line is empty, or a label, or an operation, data or reserve
directive with an optional label before it, or a constant definition in one of the forms `name: equ
value`, `name equ value` and `def name, value` (either keyword goes with every form).  Mnemonics may
be written in any case.

The reader needs no token at the end of the text: a last line may end without one, and whatever is
missing from it is then reported at its last token.
-/

namespace Subleq

/-! ## Mnemonics -/

/-- What a line can start with, after its label. -/
inductive Keyword
  | constant (keyword : ConstantKeyword)
  | operation (opcode : Opcode)
  | data (size : DataSize)
  | reserve (size : DataSize)
deriving DecidableEq, Repr

def ConstantKeyword.ofName? (text : String) : Option ConstantKeyword :=
  let name := Text.lower text
  if name = equ.name then some equ else if name = define.name then some define else none

def Keyword.ofName? (text : String) : Option Keyword :=
  let name := Text.lower text
  (ConstantKeyword.ofName? name).map .constant
    <|> (Opcode.ofName? name).map .operation
    <|> (DataSize.all.find? fun size => size.dataName == name).map .data
    <|> (DataSize.all.find? fun size => size.reserveName == name).map .reserve

/-! ## Lines -/

/-- The tokens of a line, and the token that ends it. -/
structure Line where
  tokens : List Token
  stop : Option Token
deriving DecidableEq, Repr

namespace Line

/-- Cuts tokens into lines.  Nothing is read past the end of the text. -/
def split : List Token → List Line
  | [] => []
  | token :: rest =>
      match token.kind with
      | .endOfInput => [⟨[], some token⟩]
      | .newline => ⟨[], some token⟩ :: split rest
      | _ =>
          match split rest with
          | [] => [⟨[token], none⟩]
          | line :: lines => ⟨token :: line.tokens, line.stop⟩ :: lines

/-- Where a line ends, as far as that is known: at the token that ends it, or else at its last
token. -/
def endLocation (line : Line) (fallback : Location) : Location :=
  ((line.stop <|> line.tokens.getLast?).map Token.location).getD fallback

end Line

namespace Statement

/-- A reading that has failed at a place. -/
def refuse {α : Type} (cause : Cause) (location : Location) : Except Diagnostic α :=
  .error (.found cause (some location))

/-- Reads the tokens of an operand or a value as an expression. -/
def readExpr (tokens : List Token) (location : Location) : Except Diagnostic Expr :=
  match Expr.ofTokens tokens (some location) with
  | .ok value => .ok value
  | .error (reason, location) => .error (.found (.malformedOperand reason) location)

/-! ## Operands -/

def opens (kind : Token.Kind) : Bool := kind == .mark .leftParen || kind == .mark .leftBracket

def closes (kind : Token.Kind) : Bool := kind == .mark .rightParen || kind == .mark .rightBracket

/-- Splits off the tokens before the first one at depth zero that is `stop` or a closing bracket
without its partner. -/
def collect (stop : Option Mark) : (depth : Nat) → List Token → List Token × List Token
  | _, [] => ([], [])
  | depth, token :: rest =>
      if depth = 0 ∧ (some token.kind = stop.map .mark ∨ closes token.kind) then
        ([], token :: rest)
      else
        let depth :=
          if opens token.kind then depth + 1
          else if closes token.kind then depth - 1
          else depth
        let (taken, rest) := collect stop depth rest
        (token :: taken, rest)

/-- The inside of a memory reference, whose bracket stands at `start`. -/
def readMemory (start : Location) (inside : List Token) : Except Diagnostic Operand :=
  match inside with
  | [] => refuse .emptyMemory start
  | [⟨.temp field, _⟩] => .ok ⟨.temp field, start⟩
  | tokens => do
      let address ← readExpr tokens start
      .ok ⟨.memory address, start⟩

/-- Reads one operand and returns the tokens after it.  The line ends at `stop`. -/
def readOperand (stop : Location) : List Token → Except Diagnostic (Operand × List Token)
  | [] => refuse .missingOperand stop
  | token :: rest =>
      match token.kind with
      | .temp field => .ok (⟨.temp field, token.location⟩, rest)
      | .mark .leftBracket =>
          let (inside, rest) := collect (some .rightBracket) 0 rest
          match rest with
          | [] => refuse .unclosedMemory stop
          | closing :: rest =>
              if closing.kind = .mark .rightBracket then do
                let operand ← readMemory token.location inside
                .ok (operand, rest)
              else refuse .unclosedMemory closing.location
      | _ =>
          match collect (some .comma) 0 (token :: rest) with
          | ([], _) => refuse .missingOperand token.location
          | (tokens, rest) => do
              let value ← readExpr tokens token.location
              .ok (⟨.immediate value, token.location⟩, rest)

/-- Reads operands up to the first one that no comma follows.  Each comma takes a token, so that as
many rounds as there are tokens are enough. -/
def readOperandsWithin (stop : Location) : (rounds : Nat) → List Token →
    Except Diagnostic (List Operand × List Token)
  | 0, tokens => .ok ([], tokens)
  | rounds + 1, tokens => do
      let (operand, rest) ← readOperand stop tokens
      match rest with
      | ⟨.mark .comma, _⟩ :: rest => do
          let (operands, rest) ← readOperandsWithin stop rounds rest
          .ok (operand :: operands, rest)
      | rest => .ok ([operand], rest)

/-- Reads the operands of an operation, of which there may be none. -/
def readOperands (stop : Location) (tokens : List Token) :
    Except Diagnostic (List Operand × List Token) :=
  if tokens.isEmpty then .ok ([], []) else readOperandsWithin stop (tokens.length + 1) tokens

/-- A temp field has no address at compile time that could be jumped to. -/
def checkTargets : List Operand → List Role → Except Diagnostic Unit
  | ⟨.temp field, location⟩ :: _, .target :: _ => refuse (.tempTarget field.name) location
  | _ :: operands, _ :: roles => checkTargets operands roles
  | _, _ => .ok ()

/-- Reads an operation after its mnemonic, which stands at `location`. -/
def readOperation (opcode : Opcode) (location stop : Location) (tokens : List Token) :
    Except Diagnostic (Body × List Token) := do
  let (operands, rest) ← readOperands stop tokens
  match Operation.ofOperands? opcode operands with
  | none => refuse (.wrongArity opcode.name opcode.arity operands.length) location
  | some op => do
      checkTargets operands opcode.roles
      .ok (.operation op, rest)

/-! ## Directives -/

/-- Cuts the arguments of a directive at its commas outside of brackets.  `current` are the tokens
of the unfinished argument, the last one first, and `first` says that no argument came before it.  A
comma that nothing follows is reported at the directive. -/
def splitArguments (location : Location) : (first : Bool) → (depth : Int) →
    (current : List Token) → List Token → Except Diagnostic (List (List Token))
  | first, _, current, [] =>
      if !current.isEmpty then .ok [current.reverse]
      else if first then .ok []
      else refuse .trailingComma location
  | first, depth, current, token :: rest =>
      if token.kind = .mark .comma ∧ depth = 0 then
        if current.isEmpty then refuse .emptyArgument token.location
        else do
          let arguments ← splitArguments location false 0 [] rest
          .ok (current.reverse :: arguments)
      else
        let depth :=
          if opens token.kind then depth + 1
          else if closes token.kind then depth - 1
          else depth
        splitArguments location first depth (token :: current) rest

def readDatum (location : Location) : List Token → Except Diagnostic Datum
  | [⟨.string text, _⟩] => .ok (.text text)
  | tokens => do
      let value ← readExpr tokens ((tokens.head?.map Token.location).getD location)
      .ok (.value value)

def isText : Datum → Bool
  | .text _ => true
  | .value _ => false

/-- Reads the values of a data directive.  Strings are bytes, and stand nowhere else. -/
def readData (size : DataSize) (location : Location) (tokens : List Token) :
    Except Diagnostic Body := do
  let arguments ← splitArguments location true 0 [] tokens
  let values ← arguments.mapM (readDatum location)
  if values.isEmpty then refuse (.noValues size.dataName) location
  else if size ≠ .byte ∧ values.any isText then refuse (.stringValue size.dataName) location
  else .ok (.data size values)

def readReserve (size : DataSize) (location : Location) (tokens : List Token) :
    Except Diagnostic Body := do
  let arguments ← splitArguments location true 0 [] tokens
  match arguments with
  | [argument] => do
      let count ← readExpr argument location
      .ok (.reserve size count)
  | _ => refuse (.countNotSingle size.reserveName) location

/-- Reads the value of a constant, which is defined at `label` by a directive at `location`. -/
def readDefinition (keyword : ConstantKeyword) (name : String) (label location : Location)
    (tokens : List Token) : Except Diagnostic (Statement × List Token) :=
  match collect none 0 tokens with
  | ([], _) => refuse (.noDefinition keyword.name) location
  | (first :: more, rest) => do
      let value ← readExpr (first :: more) first.location
      .ok (.constant keyword name value label, rest)

/-- Reads a constant directive after its keyword, which stands at `location`.  Without a label
before the keyword, the name and a comma follow it. -/
def readConstant (keyword : ConstantKeyword) (label : Option (String × Location))
    (location stop : Location) (tokens : List Token) :
    Except Diagnostic (Statement × List Token) :=
  match label with
  | some (name, place) => readDefinition keyword name place location tokens
  | none =>
      match tokens with
      | ⟨.identifier name, place⟩ :: rest =>
          match rest with
          | ⟨.mark .comma, _⟩ :: rest => readDefinition keyword name place location rest
          | next :: _ => refuse (.missingComma name) next.location
          | [] => refuse (.missingComma name) stop
      | _ => refuse (.noSymbolName keyword.name) location

/-! ## Lines of statements -/

/-- Splits off the label of a line: a name before a colon, or before a constant keyword.  A keyword
that is all there is of a text without an end is taken for a label too. -/
def splitLabel (line : Line) : Option (String × Location) × List Token :=
  match line.tokens with
  | ⟨.identifier name, place⟩ :: ⟨.mark .colon, _⟩ :: rest => (some (name, place), rest)
  | ⟨.identifier name, place⟩ :: ⟨.identifier word, next⟩ :: rest =>
      if (ConstantKeyword.ofName? word).isSome then
        (some (name, place), ⟨.identifier word, next⟩ :: rest)
      else (none, line.tokens)
  | [⟨.identifier name, place⟩] =>
      if line.stop.isNone ∧ (ConstantKeyword.ofName? name).isSome then (some (name, place), [])
      else (none, line.tokens)
  | tokens => (none, tokens)

/-- Nothing may follow a statement on its line. -/
def checkLineEnd : List Token → Except Diagnostic Unit
  | [] => .ok ()
  | token :: _ => refuse (.trailingToken token.kind) token.location

def labels : Option (String × Location) → List Statement
  | some (name, place) => [.label name place]
  | none => []

/-- Reads the part of a line after its label, which starts with the mnemonic `name`. -/
def readBody (label : Option (String × Location)) (name : String) (location stop : Location)
    (tokens : List Token) : Except Diagnostic (List Statement) :=
  match Keyword.ofName? name with
  | some (.constant keyword) => do
      let (statement, rest) ← readConstant keyword label location stop tokens
      checkLineEnd rest
      .ok [statement]
  | some (.operation opcode) => do
      let (body, rest) ← readOperation opcode location stop tokens
      checkLineEnd rest
      .ok (labels label ++ [.item body location])
  | some (.data size) => do
      let body ← readData size location tokens
      .ok (labels label ++ [.item body location])
  | some (.reserve size) => do
      let body ← readReserve size location tokens
      .ok (labels label ++ [.item body location])
  | none => refuse (.unknownMnemonic name) location

def readLine (line : Line) : Except Diagnostic (List Statement) :=
  match splitLabel line with
  | (tag, []) => .ok (labels tag)
  | (tag, first :: rest) =>
      match first.kind with
      | .identifier name =>
          readBody tag name first.location (line.endLocation first.location) rest
      | _ => refuse (.notMnemonic first.kind) first.location

/-- Reads the statements of a list of tokens. -/
def ofTokens (tokens : List Token) : Except Diagnostic (List Statement) := do
  let statements ← (Line.split tokens).mapM readLine
  .ok statements.flatten

/-- Reads the statements of a source text. -/
def parse (source : String) (file : String) : Except Fault (List Statement) := do
  let tokens ← Token.scan source file
  Fault.ofReading (ofTokens tokens)

end Statement

end Subleq
