import Subleq.Statement
import Subleq.SymbolTable

/-!
# Layout

The first pass over a program gives every item an address: items follow one another without gaps in
the order of the source, and a label names the next item, or the end of all items if none follows.
Constants are entered before any address is given, so that a reserve count may use all of them.

A program that starts with data and has code somewhere gets a jump to its first operation in front,
unless that is turned off, since execution starts at address zero.

After the second pass, `placeStorage` puts the literal pool after the items, and the temp fields
after the pool.
-/

namespace Subleq

/-- The number of cells of one instruction. -/
def tripleSize : Nat := 3

/-- An item with its place.  An inserted item was not in the source. -/
structure Item where
  body : Body
  location : Location
  address : Nat
  size : Nat
  labels : List String
  inserted : Bool
deriving DecidableEq, Repr

namespace Item

/-- The first address after an item, which is what `$` means in its operands. -/
def endAddress (item : Item) : Nat := item.address + item.size

def isCode (item : Item) : Bool := item.body.isCode

end Item

/-- The items with their places, and the places of the storage after them once it has any. -/
structure Layout where
  items : List Item
  itemsEnd : Nat
  poolBase : Option Int := none
  tempBase : Option Int := none
  imageSize : Option Int := none
deriving DecidableEq, Repr

namespace Layout

/-- The bound on the size of an image: the one that is asked for, and never more than there are
addresses that fit into a cell. -/
def sizeLimit (width : Width) (bound : Int) : Int := min bound (width.max + 1)

def checkSize (limit : Int) (size : Int) : Except Fault Unit :=
  if limit < size then .error (.found (.imageTooLarge size limit) none) else .ok ()

/-- Refuses values that are wider than a cell. -/
def checkWidth (width : Width) (name : String) (size : DataSize) (location : Location) :
    Except Fault Unit :=
  if width.bits < size.bits then
    .error (.found (.tooWide name size.bits width.bits) (some location))
  else .ok ()

def bodySize (body : Body) (location : Location) : Folding SymbolTable Nat := do
  let width := (← get).arith.width
  match body with
  | .operation op => pure (op.triples * tripleSize)
  | .data size values => do
      liftM (checkWidth width size.dataName size location)
      pure ((values.map Datum.size).foldr (· + ·) 0)
  | .reserve size count => do
      liftM (checkWidth width size.reserveName size location)
      let cells ← SymbolTable.evaluate count none
      if cells < 0 then
        throw (.found (.negativeCount size.reserveName cells) (some location))
      pure cells.toNat

/-- Enters the constants of a program. -/
def defineConstants : List Statement → Folding SymbolTable Unit
  | [] => pure ()
  | .constant _ name value location :: rest => do
      Folding.update (·.defineConstant name value (some location))
      defineConstants rest
  | _ :: rest => defineConstants rest

/-- Enters labels that name an address. -/
def defineLabels (address : Nat) : List (String × Location) → Folding SymbolTable Unit
  | [] => pure ()
  | (name, location) :: rest => do
      Folding.update (·.defineLabel name address (some location))
      defineLabels address rest

/-- Gives the items of a program their addresses from `address` on, and returns the first address
after them.  `pending` are the labels that wait for the next item. -/
def placeItems (limit : Int) : (address : Nat) → (pending : List (String × Location)) →
    List Statement → Folding SymbolTable (List Item × Nat)
  | address, pending, [] => do
      defineLabels address pending
      pure ([], address)
  | address, pending, .label name location :: rest =>
      placeItems limit address (pending ++ [(name, location)]) rest
  | address, pending, .constant _ _ _ _ :: rest => placeItems limit address pending rest
  | address, pending, .item body location :: rest => do
      let size ← bodySize body location
      defineLabels address pending
      liftM (checkSize limit ((address + size : Nat) : Int))
      let (items, itemsEnd) ← placeItems limit (address + size) [] rest
      pure (⟨body, location, address, size, pending.map Prod.fst, false⟩ :: items, itemsEnd)

/-- The items among the statements of a program. -/
def bodies : List Statement → List Body
  | [] => []
  | .item body _ :: rest => body :: bodies rest
  | _ :: rest => bodies rest

/-- Whether a program starts with data and has code after it. -/
def startsWithData (statements : List Statement) : Bool :=
  match bodies statements with
  | [] => false
  | first :: rest => !first.isCode && rest.any Body.isCode

/-- The jump in front of a program, to its first operation. -/
def entryJump (items : List Item) : List Item :=
  match items.find? Item.isCode with
  | none => []
  | some first =>
      let target : Operand :=
        ⟨.immediate (.num first.address (some first.location)), first.location⟩
      [⟨.operation (.jmp target), first.location, 0, tripleSize, [], true⟩]

def resolve (limit : Int) (withEntryJump : Bool) (statements : List Statement) :
    Folding SymbolTable Layout := do
  defineConstants statements
  let jumps := withEntryJump && startsWithData statements
  let (items, itemsEnd) ← placeItems limit (if jumps then tripleSize else 0) [] statements
  pure { items := if jumps then entryJump items ++ items else items, itemsEnd }

/-- Enters the temp fields from an address on. -/
def defineTemps : (address : Int) → List Temp → Folding (Layout × SymbolTable) Unit
  | _, [] => pure ()
  | address, field :: rest => do
      Folding.update fun (layout, table) => do
        let table ← table.defineTemp field.name address
        .ok (layout, table)
      defineTemps (address + 1) rest

/-- Puts the pool and the temp fields after the items, and returns the size of the image. -/
def placeStorage (limit : Int) : Folding (Layout × SymbolTable) Int := do
  let (layout, table) ← get
  let poolBase : Int := layout.itemsEnd
  let (poolEnd, table) := (SymbolTable.place poolBase).run table
  set ({ layout with poolBase := some poolBase }, table)
  let tempBase ← liftM poolEnd
  modify fun (layout, table) => ({ layout with tempBase := some tempBase }, table)
  defineTemps tempBase Temp.all
  let size := tempBase + Temp.all.length
  modify fun (layout, table) => ({ layout with imageSize := some size }, table)
  liftM (checkSize limit size)
  pure size

end Layout

end Subleq
