import Subleq.Capacity
import Subleq.Expansion
import Subleq.Image
import Subleq.Statement.Reader
import Subleq.Text.Lines

/-!
# Assembly

From source to image: the statements are read, the first pass gives addresses, all names are checked
and all constants folded, the second pass expands the items, and the pool and the temp fields get
their places.  Assembly stops at the first fault.

`Assembly.run` also returns what it has to report about its progress, up to the point where it
stopped; `assemble` is the result alone.
-/

namespace Subleq

/-- The options of assembly. -/
structure Config where
  cellBits : Int := 64
  maxImageSize : Int := 65536
  strict : Bool := false
  entryJump : Bool := true
deriving DecidableEq, Repr

/-- Constants that are defined before the source. -/
abbrev Defines : Type := OrderedMap String Int

/-- What there is to report about an assembly. -/
inductive Progress
  | parsed (statements : Nat)
  | placed (items : Nat) (cells : Nat)
  | expanded (literals : Nat)
  | stored (literals : Nat) (poolBase tempBase size : Int)
  | assembled (file : String) (size : Nat)
deriving DecidableEq, Repr

def Progress.message : Progress → String
  | parsed statements => "parsed " ++ toString statements ++ " statements"
  | placed items cells =>
      "pass 1: " ++ toString items ++ " items, " ++ toString cells ++ " cells before pool"
  | expanded literals => "pass 2: " ++ toString literals ++ " virtual literals"
  | stored literals poolBase tempBase size =>
      "pool: " ++ toString literals ++ " literals at " ++ toString poolBase ++ ", temps at "
        ++ toString tempBase ++ ", image " ++ toString size ++ " cells"
  | assembled file size => "assembled " ++ file ++ ": " ++ toString size ++ " cells"

namespace Assembly

/-! ## Names -/

/-- The arithmetic that the options ask for. -/
def arithmetic (config : Config) : Except Fault Arithmetic :=
  match Width.ofInt? config.cellBits with
  | some width => .ok ⟨width, config.strict⟩
  | none => .error (.narrowCell config.cellBits)

/-- Enters the constants that are defined before the source. -/
def definePredefined (table : SymbolTable) : Defines → Except Fault SymbolTable
  | [] => .ok table
  | (name, value) :: rest => do
      let place := some Location.predefined
      let table ← table.defineConstant name (.num value place) place
      definePredefined table rest

/-- The expressions of an item, with the places at which the names in them are reported. -/
def expressions (location : Location) : Body → List (Expr × Option Location)
  | .operation op =>
      op.operands.filterMap fun operand =>
        operand.access.expr?.map fun e => (e, some operand.location)
  | .data _ values =>
      values.filterMap fun
        | .value e => some (e, e.location)
        | .text _ => none
  | .reserve _ count => [(count, some location)]

/-- The names that the items of a program mention, in order, with their places. -/
def mentions : List Statement → List (String × Option Location)
  | [] => []
  | .item body location :: rest =>
      (expressions location body).flatMap (fun (e, place) => e.names.map (·, place))
        ++ mentions rest
  | _ :: rest => mentions rest

def noteMentions (table : SymbolTable) (statements : List Statement) : SymbolTable :=
  (mentions statements).foldl (fun table (name, place) => table.mention name place) table

/-- Refuses names that nothing defines and constants without a value. -/
def checkNames (statements : List Statement) : Folding SymbolTable Unit := do
  modify (noteMentions · statements)
  liftM (← get).checkMentions
  SymbolTable.resolveAll

/-! ## Rows -/

/-- The labels of an item, as they stand before it in a listing. -/
def labelText (item : Item) : String := String.join (item.labels.map (· ++ ": "))

/-- The row of one triple.  The instruction itself needs no explanation; the first triple of any
other operation has the operation and its own text beside each other, and the triples after it have
only their own text. -/
def tripleRow (item : Item) (op : Operation) (triple : Triple) (cells : List Int) : Row :=
  if op.opcode.isPrimitive then
    ⟨triple.address, cells, labelText item ++ op.render, some item.location⟩
  else if triple.index = 0 then
    let text := labelText item ++ op.render ++ (if item.inserted then "  ; entry" else "")
    ⟨triple.address, cells, Text.padRight 32 text ++ " " ++ triple.render,
      if item.inserted then none else some item.location⟩
  else ⟨triple.address, cells, Text.blanks 33 ++ triple.render, none⟩

def isListable (item : Item) : Content → Bool
  | .code op triples => op.isWritable && (op.opcode.isPrimitive || triples.all Triple.isWritable)
  | .cells _ => item.body.isWritable

/-- Refuses contents of which there can be no listing. -/
def checkListing (contents : List (Item × Content)) : Except Fault Unit :=
  if contents.all fun (item, content) => isListable item content then .ok ()
  else .error (.excess .unwritten)

/-- The rows of the triples of an operation. -/
def tripleRows (item : Item) (op : Operation) : List Triple → Folding SymbolTable (List Row)
  | [] => pure []
  | triple :: rest => do
      let cells ← triple.resolve
      let rows ← tripleRows item op rest
      pure (tripleRow item op triple cells :: rows)

def itemRows (item : Item) : Content → Folding SymbolTable (List Row)
  | .code op triples => tripleRows item op triples
  | .cells cells =>
      pure [⟨item.address, cells, labelText item ++ item.body.render, some item.location⟩]

def itemsRows : List (Item × Content) → Folding SymbolTable (List Row)
  | [] => pure []
  | (item, content) :: rest => do
      let first ← itemRows item content
      let others ← itemsRows rest
      pure (first ++ others)

def literalRow (value address : Int) : Row :=
  ⟨address, [value], literalName value ++ "  ; literal", none⟩

def tempRow (name : String) (address : Int) : Row := ⟨address, [0], name ++ "  ; temp", none⟩

/-! ## The image -/

/-- Writes values into consecutive cells. -/
def store (cells : Array Int) : (address : Nat) → List Int → Array Int
  | _, [] => cells
  | address, value :: rest => store (cells.setIfInBounds address value) (address + 1) rest

/-- A memory of `size` cells with the rows in their places and zeros everywhere else. -/
def memory (size : Nat) (rows : List Row) : Array Int :=
  rows.foldl (fun cells row => store cells row.address.toNat row.cells) (Array.replicate size 0)

/-- The pooled literals with their addresses. -/
def poolCells (pool : Pool) : List (Int × Int) :=
  pool.literals.filterMap fun literal => literal.address.map (literal.value, ·)

/-- The temp fields with their addresses. -/
def tempCells : (address : Int) → List Temp → List (String × Int)
  | _, [] => []
  | address, field :: rest => (field.name, address) :: tempCells (address + 1) rest

/-- The image of a program whose items are expanded and whose storage has its places. -/
def buildImage (config : Config) (size tempBase : Int) (contents : List (Item × Content)) :
    Folding SymbolTable Image := do
  let rows ← itemsRows contents
  liftM (checkListing contents)
  let table ← get
  let pool := poolCells table.pool
  let temps := tempCells tempBase Temp.all
  let listing := rows ++ pool.map (fun (value, address) => literalRow value address)
    ++ temps.map fun (name, address) => tempRow name address
  pure
    { cells := (memory size.toNat listing).toList
      cellBits := config.cellBits
      entry := 0
      symbols := table.resolved.map fun (symbol, value) => (symbol.name, value)
      kinds := table.resolved.map fun (symbol, _) => (symbol.name, symbol.kind.name)
      pool, temps, listing }

/-! ## The stages together -/

/-- Computations that report their progress and keep the reports when they fail. -/
abbrev Reporting (α : Type) : Type := ExceptT Fault (StateM (List Progress)) α

def report (progress : Progress) : Reporting Unit := modify (· ++ [progress])

/-- Runs a stage on a state. -/
def stage {σ α : Type} (m : Folding σ α) (state : σ) : Reporting (α × σ) :=
  match m.run state with
  | (.ok a, state) => pure (a, state)
  | (.error fault, _) => throw fault

/-- Assembles statements that have been read. -/
def ofStatements (config : Config) (defines : Defines) (statements : List Statement) :
    Reporting Image := do
  let arith ← liftM (arithmetic config)
  let table ← liftM (definePredefined (SymbolTable.empty arith) defines)
  let limit := Layout.sizeLimit arith.width config.maxImageSize
  let (layout, table) ← stage (Layout.resolve limit config.entryJump statements) table
  report (.placed layout.items.length layout.itemsEnd)
  let (_, table) ← stage (checkNames statements) table
  let (contents, table) ← stage (Item.contents layout.items) table
  report (.expanded table.pool.literals.length)
  let (size, _, table) ← stage (Layout.placeStorage limit) (layout, table)
  let tempBase := size - Temp.all.length
  report (.stored table.pool.literals.length layout.itemsEnd tempBase size)
  let (image, _) ← stage (buildImage config size tempBase contents) table
  pure image

def ofSource (config : Config) (defines : Defines) (source file : String) : Reporting Image := do
  let statements ← liftM (Statement.parse source file)
  report (.parsed statements.length)
  let image ← ofStatements config defines statements
  report (.assembled file image.size)
  pure image

/-- Quotes the line of the source that a diagnostic points at, unless it quotes one already. -/
def quoteSource (source file : String) (d : Diagnostic) : Diagnostic :=
  match d.sourceLine, d.location with
  | none, some location =>
      if location.file = file ∧ 1 ≤ location.line then
        match (Text.lines source.toList)[location.line.toNat - 1]? with
        | some line => d.withSourceLine (String.ofList line)
        | none => d
      else d
  | _, _ => d

/-- A fault with the line of the source quoted, if it is the fault of the source. -/
def quoteFault (source file : String) : Fault → Fault
  | .source d => .source (quoteSource source file d)
  | fault => fault

/-- Assembles a source text, and returns the reports with the result. -/
def run (config : Config) (defines : Defines) (source file : String) :
    Except Fault Image × List Progress :=
  match (ofSource config defines source file).run [] with
  | (.ok image, reports) => (.ok image, reports)
  | (.error fault, reports) => (.error (quoteFault source file fault), reports)

end Assembly

/-- Whether there is room for numbers of the width.  A source that cannot be read comes before
that. -/
def Config.checkCapacity (config : Config) (source file : String) : Except Capacity.Fault Unit :=
  match Capacity.checkWidth config.cellBits with
  | .ok _ => .ok ()
  | .error fault => if (Statement.parse source file).isOk then .error fault else .ok ()

namespace Assembly

/-- The items of a program in their places, and the table in which the second pass expands them. -/
def placed (config : Config) (defines : Defines) (source file : String) :
    Except Fault (List Item × SymbolTable) := do
  let statements ← Statement.parse source file
  let arith ← arithmetic config
  let table ← definePredefined (SymbolTable.empty arith) defines
  let place : Folding SymbolTable (List Item) := do
    let limit := Layout.sizeLimit arith.width config.maxImageSize
    let layout ← Layout.resolve limit config.entryJump statements
    checkNames statements
    pure layout.items
  match place.run table with
  | (.ok items, table) => .ok (items, table)
  | (.error fault, _) => .error fault

/-- Whether there is room for the cells of each item, as far as the second pass comes. -/
def checkItems : List Item → SymbolTable → Except Capacity.Fault Unit
  | [], _ => .ok ()
  | item :: rest, table => do
      Capacity.checkMemory 0 item.size
      match item.content.run table with
      | (.ok _, table) => checkItems rest table
      | (.error _, _) => .ok ()

/-- Whether there is room for the cells of a program.  An image that may not be so large has
room. -/
def checkCells (config : Config) (defines : Defines) (source file : String) :
    Except Capacity.Fault Unit :=
  if config.maxImageSize < Capacity.cellBound then .ok ()
  else
    match placed config defines source file with
    | .ok (items, table) => checkItems items table
    | .error _ => .ok ()

end Assembly

/-- Whether there is room for all that an assembly computes with. -/
def Config.checkRoom (config : Config) (defines : Defines) (source file : String) :
    Except Capacity.Fault Unit := do
  config.checkCapacity source file
  Assembly.checkCells config defines source file

/-- Assembles a source text, which diagnostics call `file`. -/
def assemble (config : Config) (defines : Defines) (source file : String) : Except Fault Image :=
  (Assembly.run config defines source file).1

end Subleq
