import Subleq.Proofs.Layout

/-!
# Programs as they are written

An interpreter for the operations of a program, one operation a step.  Its state is the address of
the next operation and the contents of the data cells; triples, literals and temp fields do not
occur in it.  Operands are evaluated plainly in a given environment.

The interpreter says what an operation means only if the operation is confined: it uses no temp
field, and every cell that it reads or writes is one of data.
-/

namespace Subleq

/-- Whether an address is that of a cell of a data or reserve directive. -/
def Layout.isData (layout : Layout) (address : Int) : Bool :=
  layout.items.any fun item =>
    !item.isCode && decide ((item.address : Int) ≤ address) && decide (address < item.endAddress)

namespace Operand

section Meaning

variable (width : Width) (env : Environment) (here : Int)

/-- The cell that an operand names. -/
def place? (operand : Operand) : Option Int :=
  match operand.access with
  | .memory address => address.eval width env (some here)
  | .immediate _ | .temp _ => none

/-- The value of an operand: its own, or that of the cell that it names. -/
def load? (data : Int → Int) (operand : Operand) : Option Int :=
  match operand.access with
  | .immediate value => value.eval width env (some here)
  | .memory address => (address.eval width env (some here)).map data
  | .temp _ => none

/-- The address that an operand says to go on at. -/
def goal? (operand : Operand) : Option Int :=
  match operand.access with
  | .immediate place | .memory place => place.eval width env (some here)
  | .temp _ => none

/-- Whether an operand is a value or names a cell of data. -/
def isConfined (layout : Layout) (operand : Operand) : Bool :=
  match operand.access with
  | .immediate _ => true
  | .memory address => (address.eval width env (some here)).any layout.isData
  | .temp _ => false

end Meaning

def isMemory (operand : Operand) : Bool :=
  match operand.access with
  | .memory _ => true
  | .immediate _ | .temp _ => false

def isTemp (operand : Operand) : Bool :=
  match operand.access with
  | .temp _ => true
  | .immediate _ | .memory _ => false

end Operand

namespace Operation

variable (width : Width) (env : Environment) (here : Int)

/-- Whether an operation uses no temp field, and reads and writes data cells only. -/
def isConfined (layout : Layout) : Operation → Bool
  | .subleq a b target =>
      a.isConfined width env here layout && b.isConfined width env here layout && b.isMemory &&
        !target.isTemp
  | .sub dst src | .addR dst src | .add dst src =>
      dst.isConfined width env here layout && src.isConfined width env here layout
  | .mov dst src =>
      dst.isConfined width env here layout && src.isConfined width env here layout &&
        decide (dst.place? width env here ≠ src.place? width env here)
  | .addC dst addend => dst.isConfined width env here layout && !addend.isTemp
  | .jmp target => !target.isTemp
  | .hlt => true
  | .je _ _ _ => false

variable (data : Int → Int)

/-- Puts a result that depends on the old content and a value into the cell of the first operand,
and goes on. -/
def assign? (dst src : Operand) (result : Int → Int → Int) : Option (Int × (Int → Int)) := do
  let place ← dst.place? width env here
  let value ← src.load? width env here data
  pure (here, Function.update data place (width.wrap (result (data place) value)))

/-- Where an operation goes on, and what it leaves in the data cells.  `here` is the address after
the operation. -/
def interpret? : Operation → Option (Int × (Int → Int))
  | .subleq a b target => do
      let place ← b.place? width env here
      let value ← a.load? width env here data
      let goal ← target.goal? width env here
      let result := width.wrap (data place - value)
      pure (if result ≤ 0 then goal else here, Function.update data place result)
  | .sub dst src => assign? width env here data dst src fun old value => old - value
  | .mov dst src => assign? width env here data dst src fun _ value => value
  | .addC dst src | .addR dst src | .add dst src =>
      assign? width env here data dst src fun old value => old + value
  | .jmp target => do
      let goal ← target.goal? width env here
      pure (goal, data)
  | .hlt | .je _ _ _ => none

end Operation

/-- Whether all operations of the source are confined. -/
def Layout.isConfined (width : Width) (env : Environment) (layout : Layout) : Bool :=
  layout.sourceItems.all fun item =>
    match item.body with
    | .operation op => op.isConfined width env item.endAddress layout
    | .data _ _ | .reserve _ _ => true

/-- A program for the interpreter. -/
structure Interpreter where
  width : Width
  env : Environment
  items : List Item

namespace Interpreter

/-- The address of the next operation, and the contents of the data cells. -/
structure State where
  pc : Int
  data : Int → Int

variable (program : Interpreter)

def operationAt? (pc : Int) : Option (Item × Operation) :=
  program.items.findSome? fun item =>
    match item.body with
    | .operation op => if (item.address : Int) = pc then some (item, op) else none
    | .data _ _ | .reserve _ _ => none

/-- Executes one operation, after which another one has to follow, and returns how many triples it
stands for. -/
def step? (s : State) : Option (State × Nat) := do
  let (item, op) ← program.operationAt? s.pc
  let (pc, data) ← op.interpret? program.width program.env item.endAddress s.data
  if (program.operationAt? pc).isSome then pure (⟨pc, data⟩, op.triples) else none

/-- Executes a number of operations, and returns how many triples all of them stand for. -/
def run? : (n : Nat) → State → Option (State × Nat)
  | 0, s => some (s, 0)
  | n + 1, s => do
      let (s, triples) ← program.step? s
      let (s, others) ← run? n s
      pure (s, triples + others)

variable {program}

/-- The operation at an address is that of an item which starts there. -/
theorem operationAt?_eq_some {pc : Int} {item : Item} {op : Operation}
    (h : program.operationAt? pc = some (item, op)) :
    item ∈ program.items ∧ item.body = .operation op ∧ (item.address : Int) = pc := by
  obtain ⟨found, hmem, hfound⟩ := List.exists_of_findSome?_eq_some h
  split at hfound
  · next op' hbody =>
    split at hfound
    · next haddress =>
      cases hfound
      exact ⟨hmem, hbody, haddress⟩
    · cases hfound
  · cases hfound
  · cases hfound

/-- A step executes the operation at the program counter. -/
theorem step?_eq_some {s s' : State} {triples : Nat} (h : program.step? s = some (s', triples)) :
    ∃ item op, item ∈ program.items ∧ item.body = .operation op ∧ (item.address : Int) = s.pc ∧
      op.interpret? program.width program.env item.endAddress s.data = some (s'.pc, s'.data) ∧
      op.triples = triples := by
  simp only [step?, Option.bind_eq_bind, Option.bind_eq_some_iff] at h
  obtain ⟨⟨item, op⟩, hat, ⟨pc, data⟩, hinterpret, h⟩ := h
  obtain ⟨hmem, hbody, haddress⟩ := operationAt?_eq_some hat
  split at h
  · cases h
    exact ⟨item, op, hmem, hbody, haddress, hinterpret, rfl⟩
  · cases h

end Interpreter

end Subleq
