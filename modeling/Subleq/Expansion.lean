import Subleq.Layout

/-!
# Expansion

The second pass turns items into the contents of cells.  An operation becomes a sequence of triples,
each one instruction of the machine.  The cells of a triple are still symbolic, since the pool and
the temp fields have no places yet: a `Slot` is an address or a jump target, the pool cell of a
literal, or a temp field.

The operands of an operation are evaluated in the order in which they are written, with `$` standing
for the end of the whole expansion, before any literal of the expansion enters the pool.
-/

namespace Subleq

/-- One cell of a triple. -/
inductive Slot
  | literal (value : Int)
  | address (value : Int)
  | temp (field : Temp)
deriving DecidableEq, Repr

namespace Slot

def render : Slot → String
  | literal value => literalName value
  | address value => toString value
  | temp field => field.name

def isWritable : Slot → Bool
  | literal value | address value => Digits.isWritable value
  | temp _ => true

/-- The content of a slot, once the pool and the temp fields have places. -/
def resolve : Slot → Folding SymbolTable Int
  | literal value => do liftM ((← get).pool.addressOf value)
  | address value => pure value
  | temp field => SymbolTable.valueOf field.name none

end Slot

/-- One instruction of an expansion: its address, its three cells, and its number in the
expansion. -/
structure Triple where
  address : Int
  a : Slot
  b : Slot
  c : Slot
  index : Nat
deriving DecidableEq, Repr

namespace Triple

def slots (triple : Triple) : List Slot := [triple.a, triple.b, triple.c]

def render (triple : Triple) : String :=
  "subleq " ++ ", ".intercalate (triple.slots.map Slot.render)

def isWritable (triple : Triple) : Bool := triple.slots.all Slot.isWritable

/-- The contents of the cells of a triple. -/
def resolve (triple : Triple) : Folding SymbolTable (List Int) := do
  let a ← triple.a.resolve
  let b ← triple.b.resolve
  let c ← triple.c.resolve
  pure [a, b, c]

end Triple

namespace Operand

/-- The refusal of an operand, which the reason quotes. -/
def refusal (operand : Operand) (cause : Cause) : Fault :=
  if operand.isWritable then .found cause (some operand.location) else .excess .unwritten

/-- An operand that is read: a literal, a cell or a temp field. -/
def lowerRead (here : Int) (operand : Operand) : Folding SymbolTable Slot := do
  match operand.access with
  | .temp field => pure (.temp field)
  | .immediate value => pure (.literal (← SymbolTable.evaluate value (some here)))
  | .memory address => pure (.address (← SymbolTable.evaluate address (some here)))

/-- An operand that is written: a cell or a temp field. -/
def lowerWrite (here : Int) (operand : Operand) : Folding SymbolTable Slot := do
  match operand.access with
  | .temp field => pure (.temp field)
  | .immediate value => do
      let _ ← SymbolTable.evaluate value (some here)
      throw (operand.refusal (.immediateDestination operand.render))
  | .memory address => pure (.address (← SymbolTable.evaluate address (some here)))

/-- An operand that is jumped to; the brackets of a memory reference mean nothing here. -/
def lowerTarget (here : Int) (operand : Operand) : Folding SymbolTable Slot := do
  match operand.access with
  | .temp field => pure (.temp field)
  | .immediate e | .memory e => pure (.address (← SymbolTable.evaluate e (some here)))

/-- An operand that is added at compile time: a value. -/
def lowerAddend (here : Int) (operand : Operand) : Folding SymbolTable Int := do
  let refusal := operand.refusal (.runtimeAddend operand.render)
  match operand.access with
  | .temp _ => throw refusal
  | .immediate value => SymbolTable.evaluate value (some here)
  | .memory address => do
      let _ ← SymbolTable.evaluate address (some here)
      throw refusal

end Operand

namespace Operation

/-- Jumping here, outside of every memory, halts the machine. -/
def haltTarget : Int := -1

/-- The address right after the triple number `index` of an expansion at `base`. -/
def after (base : Int) (index : Nat) : Slot := .address (base + tripleSize * (index + 1))

/-- The triples that move a value: clear the destination, take the negative of the source into `$t`,
subtract that from the destination, clear `$t`. -/
def moveSlots (base : Int) (dst src : Slot) : List (Slot × Slot × Slot) :=
  [(dst, dst, after base 0), (src, .temp .t, after base 1), (.temp .t, dst, after base 2),
    (.temp .t, .temp .t, after base 3)]

/-- The triples that add a cell to another: as for a move, without clearing the destination. -/
def addSlots (base : Int) (dst src : Slot) : List (Slot × Slot × Slot) :=
  [(src, .temp .t, after base 0), (.temp .t, dst, after base 1),
    (.temp .t, .temp .t, after base 2)]

/-- The triples that jump on equality.  If the difference of `a` and `b` is positive, the fourth
triple clears `$e` and leaves; otherwise the last one compares in the other direction. -/
def equalSlots (base : Int) (a b target : Slot) : List (Slot × Slot × Slot) :=
  [(a, .temp .e, after base 0), (.temp .e, .temp .t, after base 1), (b, a, after base 3),
    (.temp .e, .temp .e, after base 4), (.temp .t, b, target)]

/-- The triple that adds a compile-time value, by subtracting its negative. -/
def addConstantSlots (base : Int) (location : Location) (dst : Slot) (addend : Int) :
    Folding SymbolTable (List (Slot × Slot × Slot)) := do
  let arith := (← get).arith
  let negated ← liftM (arith.toCell (-addend) (some location))
  pure [(.literal negated, dst, after base 0)]

/-- The triples of an operation at `base`, with its operands evaluated. -/
def slots (op : Operation) (base : Int) (location : Location) :
    Folding SymbolTable (List (Slot × Slot × Slot)) := do
  let here := base + op.triples * tripleSize
  match op with
  | .subleq a b target => do
      let a ← a.lowerRead here
      let b ← b.lowerRead here
      let target ← target.lowerTarget here
      pure [(a, b, target)]
  | .sub dst src => do
      let dst ← dst.lowerWrite here
      let src ← src.lowerRead here
      pure [(src, dst, after base 0)]
  | .hlt => pure [(.literal 0, .literal 0, .address haltTarget)]
  | .jmp target => do
      let target ← target.lowerTarget here
      pure [(.temp .t, .temp .t, target)]
  | .mov dst src => do
      let dst ← dst.lowerWrite here
      let src ← src.lowerRead here
      pure (moveSlots base dst src)
  | .addC dst addend => do
      let dst ← dst.lowerWrite here
      let addend ← addend.lowerAddend here
      addConstantSlots base location dst addend
  | .addR dst src => do
      let dst ← dst.lowerWrite here
      let src ← src.lowerRead here
      pure (addSlots base dst src)
  | .add dst src => do
      let dst ← dst.lowerWrite here
      let src ← src.lowerRead here
      match src with
      | .literal value => addConstantSlots base location dst value
      | src => pure (addSlots base dst src)
  | .je a b target => do
      let a ← a.lowerRead here
      let b ← b.lowerRead here
      let target ← target.lowerTarget here
      pure (equalSlots base a b target)

/-- Numbers triples, and gives them their addresses. -/
def number (base : Int) : (index : Nat) → List (Slot × Slot × Slot) → List Triple
  | _, [] => []
  | index, (a, b, c) :: rest =>
      ⟨base + tripleSize * index, a, b, c, index⟩ :: number base (index + 1) rest

/-- Enters the literals among some slots into the pool, in order. -/
def internSlots : List Slot → Folding SymbolTable Unit
  | [] => pure ()
  | .literal value :: rest => do
      let _ ← SymbolTable.intern value
      internSlots rest
  | _ :: rest => internSlots rest

def expand (op : Operation) (base : Int) (location : Location) :
    Folding SymbolTable (List Triple) := do
  let triples := number base 0 (← op.slots base location)
  internSlots (triples.flatMap Triple.slots)
  pure triples

end Operation

namespace Datum

/-- The least and greatest value of a size, read with a sign or without. -/
def range (size : DataSize) : Int × Int :=
  (-(Nat.pow 2 (size.bits - 1) : Int), (Nat.pow 2 size.bits : Int) - 1)

/-- The cells of one value.  The bytes of a string are brought into cells; the value of an
expression has to be in the range of its size. -/
def cells (size : DataSize) (location : Location) (here : Int) :
    Datum → Folding SymbolTable (List Int)
  | .text t => do
      let arith := (← get).arith
      liftM ((bytes t).mapM fun (byte : Nat) => arith.toCell byte (some location))
  | .value e => do
      let value ← SymbolTable.evaluate e (some here)
      let (low, high) := range size
      if value < low ∨ high < value then
        throw (.found (.valueOutOfRange value size.dataName size.bits low high)
          (e.location <|> some location))
      pure [value]

def cellsOf (size : DataSize) (location : Location) (here : Int) :
    List Datum → Folding SymbolTable (List Int)
  | [] => pure []
  | datum :: rest => do
      let first ← datum.cells size location here
      let others ← cellsOf size location here rest
      pure (first ++ others)

end Datum

/-- What an item becomes: the triples of an operation, or the cells of data. -/
inductive Content
  | code (op : Operation) (triples : List Triple)
  | cells (cells : List Int)
deriving DecidableEq, Repr

namespace Body

/-- The contents of an item at `base`, when `here` is the value of `$` for data. -/
def content (body : Body) (location : Location) (base here : Int) :
    Folding SymbolTable Content := do
  match body with
  | .operation op => pure (.code op (← op.expand base location))
  | .data size values => pure (.cells (← Datum.cellsOf size location here values))
  | .reserve _ count => do
      let cells ← SymbolTable.evaluate count none
      pure (.cells (List.replicate cells.toNat 0))

end Body

namespace Item

def content (item : Item) : Folding SymbolTable Content :=
  item.body.content item.location item.address item.endAddress

/-- The second pass: the contents of all items, in order. -/
def contents : List Item → Folding SymbolTable (List (Item × Content))
  | [] => pure []
  | item :: rest => do
      let content ← item.content
      let others ← contents rest
      pure ((item, content) :: others)

end Item

end Subleq
