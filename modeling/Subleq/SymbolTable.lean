import Subleq.Expr.Value
import Subleq.Pool

/-!
# The symbol table

The names of one program: labels, constants, the cells of pooled literals, and the temp fields.  A
name is defined once.  A constant is entered as an expression and folded when its value is first
asked for, so that it may mention names that are defined after it; the value is then kept.  A
constant whose expression leads back to it has no value.

Values that are bound from outside (`SymbolTable.bind`) stand before those of the table wherever an
expression mentions a name.
-/

namespace Subleq

/-- What defines a symbol. -/
inductive SymbolKind
  | label
  | constant
  | literal
  | temp
deriving DecidableEq, Repr

namespace SymbolKind

def name : SymbolKind → String
  | label => "LABEL"
  | constant => "CONSTANT"
  | literal => "VIRTUAL_LITERAL"
  | temp => "TEMP_SLOT"

def all : List SymbolKind := [label, constant, literal, temp]

def ofName? (text : String) : Option SymbolKind := all.find? fun kind => kind.name == text

end SymbolKind

/-- An entry of the table.  It is resolved once it has a value. -/
structure Symbol where
  name : String
  kind : SymbolKind
  value : Option Int
  definition : Option Expr
  location : Option Location
deriving DecidableEq, Repr

def Symbol.isResolved (symbol : Symbol) : Bool := symbol.value.isSome

/-- The names of a program, the names it mentions with the first place of each, and its literals. -/
structure SymbolTable where
  arith : Arithmetic
  symbols : List Symbol
  mentioned : OrderedMap String (Option Location)
  bindings : Expr.Bindings
  pool : Pool
deriving DecidableEq, Repr

namespace SymbolTable

/-- The table of a program that has defined nothing yet. -/
def empty (arith : Arithmetic) : SymbolTable := ⟨arith, [], [], [], Pool.empty⟩

def find? (table : SymbolTable) (name : String) : Option Symbol :=
  table.symbols.find? (·.name == name)

def contains (table : SymbolTable) (name : String) : Bool := (table.find? name).isSome

/-! ## Definitions -/

/-- Enters a symbol, whose name must be new. -/
def define (table : SymbolTable) (symbol : Symbol) : Except Fault SymbolTable :=
  match table.find? symbol.name with
  | some first => .error (.found (.duplicate symbol.name first.location) symbol.location)
  | none => .ok { table with symbols := table.symbols ++ [symbol] }

def defineLabel (table : SymbolTable) (name : String) (address : Int)
    (location : Option Location) : Except Fault SymbolTable :=
  table.define ⟨name, .label, some address, none, location⟩

def defineConstant (table : SymbolTable) (name : String) (definition : Expr)
    (location : Option Location) : Except Fault SymbolTable :=
  table.define ⟨name, .constant, none, some definition, location⟩

def defineTemp (table : SymbolTable) (name : String) (address : Int) : Except Fault SymbolTable :=
  table.define ⟨name, .temp, some address, none, none⟩

def setValue (table : SymbolTable) (name : String) (value : Int) : SymbolTable :=
  { table with
    symbols := table.symbols.map fun symbol =>
      if symbol.name == name then { symbol with value := some value } else symbol }

/-- Binds a name from outside. -/
def bind (table : SymbolTable) (name : String) (value : Int) : Except Fault SymbolTable := do
  let bindings ← Expr.Bindings.bind table.arith name value table.bindings
  .ok { table with bindings }

/-! ## Values -/

/-- The names that the program defines itself. -/
def userNames (table : SymbolTable) : List String :=
  (table.symbols.filter fun symbol => symbol.kind == .label || symbol.kind == .constant).map
    Symbol.name

/-- The diagnostic for a name that is not defined. -/
def undefined (table : SymbolTable) (name : String) (location : Option Location) : Fault :=
  .found (.undefined name (Similar.suggestions name table.userNames) none) location

/-- The diagnostic for a name that is defined and has no value yet. -/
def unplaced (name : String) (location : Option Location) : Fault :=
  .found (.undefined name [] (some ("'" ++ name ++ "' has no address yet"))) location

/-- The diagnostic for a constant that leads back to itself through the names being folded. -/
def circular (folding : List String) (symbol : Symbol) : Fault :=
  .found (.circularDefinition (folding.dropWhile (· != symbol.name) ++ [symbol.name]))
    symbol.location

/-- The value of a mentioned name: the one bound from outside, or else the one that `value`
gives. -/
def resolveWith (value : String → Option Location → Folding SymbolTable Int) (name : String)
    (location : Option Location) : Folding SymbolTable Int := do
  match OrderedMap.get? (← get).bindings name with
  | some bound => pure bound
  | none => value name location

/-- The value of a name that has one; for a constant that has none yet, what `fold` gives. -/
def valueOrFold (fold : Symbol → Folding SymbolTable Int) (name : String)
    (location : Option Location) : Folding SymbolTable Int := do
  let table ← get
  match table.find? name with
  | none => throw (table.undefined name location)
  | some symbol =>
      match symbol.value with
      | some value => pure value
      | none => if symbol.kind ≠ .constant then throw (unplaced name location) else fold symbol

/-- Folds a constant, whose names get their values from `value`, and keeps the result. -/
def foldConstant (value : String → Option Location → Folding SymbolTable Int) (symbol : Symbol) :
    Folding SymbolTable Int := do
  match symbol.definition with
  | none => throw (.noDefinition symbol.name)
  | some definition =>
      let result ← definition.fold (← get).arith (resolveWith value) none
      modify (·.setValue symbol.name result)
      pure result

/-- The value of a name, where `folding` are the constants being folded, the outermost first.  Each
round folds one constant more, so that as many rounds as there are symbols are enough. -/
def valueWithin : (rounds : Nat) → (folding : List String) → String → Option Location →
    Folding SymbolTable Int
  | 0, folding => valueOrFold fun symbol => throw (circular folding symbol)
  | rounds + 1, folding => valueOrFold fun symbol =>
      if folding.contains symbol.name then throw (circular folding symbol)
      else foldConstant (valueWithin rounds (folding ++ [symbol.name])) symbol

/-- The value of a name, which is kept if it had to be folded. -/
def valueOf (name : String) (location : Option Location) : Folding SymbolTable Int := do
  valueWithin ((← get).symbols.length + 1) [] name location

/-- The value of an expression over the names of the table. -/
def evaluate (e : Expr) (here : Option Int) : Folding SymbolTable Int := do
  e.fold (← get).arith (resolveWith valueOf) here

/-- Asks for the values of the given symbols, of which those that are no constants are skipped. -/
def resolveEach : List Symbol → Folding SymbolTable Unit
  | [] => pure ()
  | symbol :: rest => do
      if symbol.kind = .constant then
        let _ ← valueOf symbol.name symbol.location
      resolveEach rest

def resolveAll : Folding SymbolTable Unit := do
  resolveEach (← get).symbols

/-! ## Mentions -/

/-- Notes that the program mentions a name at a place. -/
def mention (table : SymbolTable) (name : String) (location : Option Location) : SymbolTable :=
  if (OrderedMap.get? table.mentioned name).isSome then table
  else { table with mentioned := OrderedMap.put name location table.mentioned }

/-- Every name that the program mentions has to be defined; the first one that is not is
reported. -/
def checkMentions (table : SymbolTable) : Except Fault Unit :=
  match table.mentioned.find? fun (name, _) => !table.contains name with
  | some (name, location) => .error (table.undefined name location)
  | none => .ok ()

/-! ## Literals -/

/-- Enters a literal, which must have a name that is new. -/
def defineLiteral (table : SymbolTable) (value : Int) : Except Fault SymbolTable :=
  if Digits.isWritable value then table.define ⟨literalName value, .literal, none, none, none⟩
  else .error (.excess .unwritten)

/-- Counts a use of a literal, whose value is brought into a cell first, and enters it among the
symbols if it is new.  The use stays counted even if it has no name or its name is taken. -/
def intern (value : Int) : Folding SymbolTable Literal := do
  let table ← get
  let cell ← liftM (table.arith.toCell value none)
  set { table with pool := table.pool.intern cell }
  if !table.pool.contains cell then Folding.update (·.defineLiteral cell)
  pure (((← get).pool.find? cell).getD ⟨cell, none, 0⟩)

/-- Gives the symbols of literals the addresses of their cells, up to the first literal that has no
name. -/
def settle (table : SymbolTable) : List Literal → SymbolTable
  | [] => table
  | literal :: rest =>
      if literal.isWritable then
        match literal.address with
        | some address => (table.setValue literal.name address).settle rest
        | none => table.settle rest
      else table

def placePool (table : SymbolTable) (base : Int) : SymbolTable :=
  let pool := table.pool.place base
  { table with pool }.settle pool.literals

/-- The first address after a pool that stands at `base`, and all of whose literals have names. -/
def poolEnd (table : SymbolTable) (base : Int) : Except Fault Int :=
  if table.pool.literals.all Literal.isWritable then .ok (table.pool.endAddress base)
  else .error (.excess .unwritten)

/-- Puts the pool at an address, and returns the first address after it. -/
def place (base : Int) : Folding SymbolTable Int := do
  let table ← get
  set (table.placePool base)
  liftM (table.poolEnd base)

/-! ## Export -/

/-- The symbols with known values, in the order of their definitions. -/
def resolved (table : SymbolTable) : List (Symbol × Int) :=
  table.symbols.filterMap fun symbol => symbol.value.map (symbol, ·)

/-- The known values of the symbols of some kinds. -/
def values (table : SymbolTable) (kinds : List SymbolKind) : OrderedMap String Int :=
  (table.resolved.filter fun (symbol, _) => kinds.contains symbol.kind).map
    fun (symbol, value) => (symbol.name, value)

end SymbolTable

end Subleq
