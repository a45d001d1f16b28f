import Subleq.Token

/-!
# Why a program is refused

Every reason for which a source text can be refused is one constructor of `Cause`, which carries
what its wording needs and nothing else.  `Cause.category` says which family the reason belongs to,
`Cause.message` is its wording, and `Cause.hint` is the advice printed under it, if there is any.
Where in the text the reason was found is not part of it: that is added by `Diagnostic`.

A reason that mentions a number of too many digits cannot be worded (`Cause.isWritable`).

The reasons for which an expression is malformed form a type of their own, `Expr.Malformed`: the
same reason is an expression error when an expression is read by itself and a grammar error when it
is read as part of a statement.
-/

namespace Subleq

/-- The families of diagnostics. -/
inductive Category
  | general
  | grammar
  | undefinedSymbol
  | duplicateSymbol
  | expression
  | directive
  | operation
  | compileTimeAdd
  | memoryOverflow
deriving DecidableEq, Repr

/-- Why a run of tokens is no expression. -/
inductive Expr.Malformed
  /-- There are no tokens at all. -/
  | empty
  /-- The expression is complete and this token follows it. -/
  | trailing (token : Token.Kind)
  /-- The tokens end where a value has to stand. -/
  | cutShort
  /-- An opening parenthesis has no closing one. -/
  | unclosed
  /-- A temp field stands where a value has to stand. -/
  | tempField (name : String)
  /-- This token stands where a value has to stand. -/
  | notValue (token : Token.Kind)
deriving DecidableEq, Repr

namespace Expr.Malformed

def message : Expr.Malformed → String
  | empty => "empty expression"
  | trailing token => "unexpected token '" ++ token.text ++ "' in expression"
  | cutShort => "unexpected end of expression"
  | unclosed => "expected ')' to close expression"
  | tempField name => "temp field '" ++ name ++ "' cannot be used inside an expression"
  | notValue token => "expected value, got '" ++ token.text ++ "'"

def isWritable : Expr.Malformed → Bool
  | trailing token | notValue token => token.isWritable
  | _ => true

/-- Temp fields are operands, never parts of one. -/
def hint : Expr.Malformed → Option String
  | tempField name => some ("use '" ++ name ++ "' as a whole operand")
  | _ => none

end Expr.Malformed

/-- Why a source text is refused. -/
inductive Cause
  -- characters and literals
  | unexpectedCharacter (c : Char)
  | unterminatedString
  | unterminatedCharacter
  | unclosedCharacter
  | truncatedEscape
  | emptyHexEscape
  | missingDigits (base : Nat)
  | invalidDigit (c : Char)
  | invalidBaseDigit (c : Char) (base : Nat)
  -- expressions
  | malformedExpression (reason : Expr.Malformed)
  | malformedOperand (reason : Expr.Malformed)
  | positionUnavailable
  | divisionByZero
  | negativeShift (count : Int)
  | unknownOperator (text : String)
  | valueOverflow (value : Int) (width : Nat)
  | circularDefinition (chain : List String)
  -- symbols
  | undefined (name : String) (similar : List String) (advice : Option String)
  | duplicate (name : String) (first : Option Location)
  -- statements
  | notMnemonic (token : Token.Kind)
  | unknownMnemonic (text : String)
  | trailingToken (token : Token.Kind)
  | unclosedMemory
  | emptyMemory
  | missingOperand
  | emptyArgument
  | trailingComma
  | noValues (directive : String)
  | stringValue (directive : String)
  | countNotSingle (directive : String)
  | noSymbolName (directive : String)
  | missingComma (after : String)
  | noDefinition (directive : String)
  -- operations
  | wrongArity (opcode : String) (expected : Nat) (found : Nat)
  | tempTarget (name : String)
  | immediateDestination (operand : String)
  | runtimeAddend (operand : String)
  -- storage
  | tooWide (directive : String) (bits : Nat) (width : Nat)
  | negativeCount (directive : String) (count : Int)
  | valueOutOfRange (value : Int) (directive : String) (bits : Nat) (low : Int) (high : Int)
  | imageTooLarge (size : Int) (limit : Int)
  -- sessions
  | nothingAssembled
  /-- A reason worded by the caller. -/
  | worded (category : Category) (message : String) (hint : Option String)
deriving DecidableEq, Repr

namespace Cause

def category : Cause → Category
  | unexpectedCharacter _ | unterminatedString | unterminatedCharacter | unclosedCharacter
  | truncatedEscape | emptyHexEscape | missingDigits _ | invalidDigit _ | invalidBaseDigit _ _
  | malformedOperand _ | notMnemonic _ | unknownMnemonic _ | trailingToken _ | unclosedMemory
  | emptyMemory | missingOperand | emptyArgument | trailingComma | noValues _ | stringValue _
  | countNotSingle _ | noSymbolName _ | missingComma _ | noDefinition _ => .grammar
  | malformedExpression _ | positionUnavailable | divisionByZero | negativeShift _
  | unknownOperator _ | valueOverflow _ _ | circularDefinition _ => .expression
  | undefined _ _ _ => .undefinedSymbol
  | duplicate _ _ => .duplicateSymbol
  | wrongArity _ _ _ | tempTarget _ | immediateDestination _ => .operation
  | runtimeAddend _ => .compileTimeAdd
  | tooWide _ _ _ | negativeCount _ _ | valueOutOfRange _ _ _ _ _ => .directive
  | imageTooLarge _ _ => .memoryOverflow
  | nothingAssembled => .general
  | worded category _ _ => category

def message : Cause → String
  | unexpectedCharacter c => "unexpected character '" ++ String.singleton c ++ "'"
  | unterminatedString => "unterminated string literal"
  | unterminatedCharacter => "unterminated character literal"
  | unclosedCharacter => "expected closing quote for character literal"
  | truncatedEscape => "unexpected end of input in escape sequence"
  | emptyHexEscape => "expected hexadecimal digits after \\x"
  | missingDigits base => "expected base-" ++ toString base ++ " digits"
  | invalidDigit c => "invalid digit '" ++ String.singleton c ++ "' in number"
  | invalidBaseDigit c base =>
      "invalid digit '" ++ String.singleton c ++ "' in base-" ++ toString base ++ " number"
  | malformedExpression reason | malformedOperand reason => reason.message
  | positionUnavailable => "'$' is not available in this context"
  | divisionByZero => "division by zero"
  | negativeShift count => "negative shift count " ++ toString count
  | unknownOperator text => "unknown operator '" ++ text ++ "'"
  | valueOverflow value width =>
      "value " ++ toString value ++ " overflows a " ++ toString width ++ "-bit cell"
  | circularDefinition chain => "circular definition: " ++ " -> ".intercalate chain
  | undefined name _ _ => "undefined symbol '" ++ name ++ "'"
  | duplicate name _ => "duplicate symbol '" ++ name ++ "'"
  | notMnemonic token => "expected opcode or directive, got '" ++ token.text ++ "'"
  | unknownMnemonic text => "unknown opcode or directive '" ++ text ++ "'"
  | trailingToken token => "unexpected '" ++ token.text ++ "' at end of line"
  | unclosedMemory => "expected ']' to close memory reference"
  | emptyMemory => "empty memory reference"
  | missingOperand => "missing operand"
  | emptyArgument => "empty argument"
  | trailingComma => "trailing ',' in argument list"
  | noValues directive => "'" ++ directive ++ "' requires at least one value"
  | stringValue directive =>
      "string literals are only allowed in 'db', not '" ++ directive ++ "'"
  | countNotSingle directive => "'" ++ directive ++ "' requires exactly one count"
  | noSymbolName directive => "'" ++ directive ++ "' requires a symbol name"
  | missingComma after => "expected ',' after '" ++ after ++ "'"
  | noDefinition directive => "'" ++ directive ++ "' requires a value"
  | wrongArity opcode expected found =>
      "'" ++ opcode ++ "' takes " ++ toString expected ++ " operand"
        ++ (if expected = 1 then "" else "s") ++ ", got " ++ toString found
  | tempTarget name => "temp field '" ++ name ++ "' cannot be a jump target"
  | immediateDestination operand => "immediate '" ++ operand ++ "' cannot be a destination"
  | runtimeAddend operand =>
      "add_c requires an immediate operand, got memory reference '" ++ operand ++ "'"
  | tooWide directive bits width =>
      "'" ++ directive ++ "' declares " ++ toString bits ++ "-bit values but cells are "
        ++ toString width ++ " bits wide"
  | negativeCount directive count =>
      "'" ++ directive ++ "' count must not be negative, got " ++ toString count
  | valueOutOfRange value directive bits _ _ =>
      "value " ++ toString value ++ " does not fit in '" ++ directive ++ "' ("
        ++ toString bits ++ " bits)"
  | imageTooLarge size limit =>
      "program image needs " ++ toString size ++ " cells, limit is " ++ toString limit
  | nothingAssembled => "no program has been assembled"
  | worded _ message _ => message

/-- At most three names are suggested in place of one that is not defined. -/
def suggestion (similar : List String) : String :=
  "did you mean " ++ ", ".intercalate ((similar.take 3).map fun name => "'" ++ name ++ "'") ++ "?"

/-- The advice that goes with a reason.  For an undefined name, advice of the caller's own stands
before a list of similar names. -/
def hint : Cause → Option String
  | malformedExpression reason | malformedOperand reason => reason.hint
  | undefined _ similar advice =>
      if advice.getD "" = "" ∧ similar ≠ [] then some (suggestion similar) else advice
  | duplicate name (some first) =>
      some ("'" ++ name ++ "' was first defined at " ++ first.render)
  | immediateDestination operand =>
      some ("write to a memory reference such as '[" ++ operand ++ "]'")
  | runtimeAddend _ => some "use 'add_r' or 'add' for runtime values"
  | valueOutOfRange _ _ _ low high =>
      some ("allowed range is " ++ toString low ++ ".." ++ toString high)
  | imageTooLarge _ _ => some "raise max_image_size or shrink the program"
  | worded _ _ hint => hint
  | _ => none

def isWritable : Cause → Bool
  | malformedExpression reason | malformedOperand reason => reason.isWritable
  | notMnemonic token | trailingToken token => token.isWritable
  | negativeShift value | negativeCount _ value => Digits.isWritable value
  | valueOverflow value width => Digits.isWritable value && Digits.isWritable width
  | tooWide _ _ width => Digits.isWritable width
  | valueOutOfRange value _ _ low high =>
      Digits.isWritable value && Digits.isWritable low && Digits.isWritable high
  | imageTooLarge size limit => Digits.isWritable size && Digits.isWritable limit
  | _ => true

end Cause

end Subleq
