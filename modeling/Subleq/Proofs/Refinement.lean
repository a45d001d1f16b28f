import Subleq.Proofs.Interpreter
import Subleq.Proofs.Representable

/-!
# An assembled program does what it says

The machine that runs an image follows the interpreter of the program, one operation after the other
(`Image.refines_of_assemble`).  `Stages.Related` is what holds between the two whenever the machine
has come to an operation: the program counters agree, the data cells agree, the scratch field `$t`
is zero, and every other cell is as it was loaded.

While the instructions of one operation run, the scratch field is in use and the data cells are not
those of the interpreter.  What stays true then is `Stages.Keeps`: nothing but data and the scratch
field has changed, so that the instructions and the literals are still there.
-/

namespace Subleq

/-- A data cell belongs to an item that is no code. -/
theorem Layout.isData_eq_true {layout : Layout} {address : Int} :
    layout.isData address = true ↔ ∃ item ∈ layout.items, item.isCode = false ∧
      (item.address : Int) ≤ address ∧ address < item.endAddress := by
  simp [isData, and_assoc]

/-- The slots of a triple stand one after the other. -/
theorem Slot.getElem?_flatten {slots : List (Slot × Slot × Slot)} {index : Nat} {a b c : Slot}
    (h : slots[index]? = some (a, b, c)) :
    (flatten slots)[3 * index]? = some a ∧ (flatten slots)[3 * index + 1]? = some b ∧
      (flatten slots)[3 * index + 2]? = some c := by
  induction slots generalizing index with
  | nil => cases h
  | cons first rest ih =>
      cases index with
      | zero =>
          obtain rfl := Option.some.inj h
          exact ⟨rfl, rfl, rfl⟩
      | succ index => exact ih h

/-! ## Operands

What the interpreter makes of an operand, and what the table of expansions makes of it. -/

namespace Operand

variable {width : Width} {env : Environment} {here : Int} {operand : Operand} {address : Int}

/-- Only a memory operand has a place. -/
theorem place?_eq_some (h : operand.place? width env here = some address) :
    ∃ e, operand.access = .memory e ∧ e.eval width env (some here) = some address := by
  rw [place?] at h
  cases haccess : operand.access with
  | memory e => exact ⟨e, rfl, by simpa only [haccess] using h⟩
  | immediate _ | temp _ =>
      rw [haccess] at h
      cases h

/-- An operand with a place is written to there. -/
theorem write?_of_place? (h : operand.place? width env here = some address) :
    operand.write? width env here = some (.address address) := by
  obtain ⟨e, haccess, heval⟩ := place?_eq_some h
  simp only [write?, haccess, heval, Option.map_some]

theorem read?_of_place? (h : operand.place? width env here = some address) :
    operand.read? width env here = some (.address address) := by
  obtain ⟨e, haccess, heval⟩ := place?_eq_some h
  simp only [read?, haccess, heval, Option.map_some]

/-- If it is confined, the place is data. -/
theorem isData_of_place? {layout : Layout}
    (hconfined : operand.isConfined width env here layout = true)
    (h : operand.place? width env here = some address) : layout.isData address = true := by
  obtain ⟨e, haccess, heval⟩ := place?_eq_some h
  simpa only [isConfined, haccess, heval, Option.any_some] using hconfined

/-- A jump goes where its operand says. -/
theorem target?_of_goal? (h : operand.goal? width env here = some address) :
    operand.target? width env here = some (.address address) := by
  rw [goal?] at h
  rw [target?]
  cases haccess : operand.access with
  | memory _ | immediate _ =>
      simp only [haccess] at h
      simp only [h, Option.map_some]
  | temp _ =>
      rw [haccess] at h
      cases h

/-- A value comes from the operand itself or from the cell that it names. -/
theorem load?_eq_some {data : Int → Int} {value : Int}
    (h : operand.load? width env here data = some value) :
    (operand.access.isImmediate = true ∧ operand.addend? width env here = some value ∧
      operand.read? width env here = some (.literal value)) ∨
    (operand.access.isImmediate = false ∧ operand.addend? width env here = none ∧
      ∃ address, operand.place? width env here = some address ∧ data address = value) := by
  rw [load?] at h
  rw [addend?, read?, place?]
  cases haccess : operand.access with
  | immediate e =>
      rw [haccess] at h
      simp only at h
      exact .inl ⟨rfl, h, by simp only [h, Option.map_some]⟩
  | memory e =>
      rw [haccess] at h
      exact .inr ⟨rfl, rfl, Option.map_eq_some_iff.mp h⟩
  | temp _ =>
      rw [haccess] at h
      cases h

end Operand

namespace Assembly.Stages

open Machine (State)

variable {config : Config} {defines : Defines} {source file : String} {image : Image}
  (S : Stages config defines source file image)

/-! ## The parts of the image -/

def scratch : Int := S.layout.itemsEnd + S.values.length

/-- A cell that changes while operations are executed. -/
def Writable (address : Int) : Prop := S.layout.isData address = true ∨ address = S.scratch

/-- The program for the interpreter, in the environment of the image. -/
def program : Interpreter := ⟨S.width, S.table.value?, S.layout.items⟩

variable {S}

theorem scratch_bounds : image.loaded.InMemory S.scratch := by
  have hlength : Temp.all.length = 3 := rfl
  rw [State.InMemory, Image.size_loaded, scratch, S.length_cells, S.size_eq, hlength]
  omega

/-- Data is among the items. -/
theorem isData_bounds {address : Int} (h : S.layout.isData address = true) :
    0 ≤ address ∧ address < S.layout.itemsEnd := by
  obtain ⟨item, hmem, -, hlow, hhigh⟩ := Layout.isData_eq_true.mp h
  have := (S.covers.contiguous.bounds hmem).2
  omega

theorem ne_scratch_of_isData {address : Int} (h : S.layout.isData address = true) :
    address ≠ S.scratch := by
  have := (isData_bounds h).2
  rw [scratch]
  omega

/-- What may be written to is in memory. -/
theorem Writable.inMemory {address : Int} (h : S.Writable address) :
    image.loaded.InMemory address := by
  rcases h with h | rfl
  · have hscratch := (scratch_bounds (S := S)).2
    have hdata := isData_bounds h
    rw [scratch] at hscratch
    exact ⟨hdata.1, by omega⟩
  · exact scratch_bounds

/-- The first temp field is the scratch cell. -/
theorem cell_scratch : S.cell (.temp .t) = some S.scratch := by
  have htemp := S.stored_sound.2.2.2 _ (.head _)
  rw [S.tempBase_eq] at htemp
  exact htemp

/-- It is clear at the start. -/
theorem loaded_scratch : image.loaded.cell S.scratch = 0 := by
  obtain ⟨items, hlength, hcells⟩ := S.cells_listing
  have haddress : S.scratch = ((items.length + S.values.length : Nat) : Int) := by
    rw [scratch, hlength, Nat.cast_add]
  rw [haddress]
  refine Image.cell_loaded ?_
  rw [S.cells_eq, hcells, List.getElem?_append_right (by simp), List.length_append, Nat.sub_self]
  rfl

/-- The cells of operations do not change. -/
theorem not_writable_of_code {item : Item} {address : Int} (hmem : item ∈ S.layout.items)
    (hcode : item.isCode = true) (hlow : (item.address : Int) ≤ address)
    (hhigh : address < item.endAddress) : ¬ S.Writable address := by
  rintro (hdata | rfl)
  · -- a cell of data is a cell of another item
    obtain ⟨other, hother, hkind, hlow', hhigh'⟩ := Layout.isData_eq_true.mp hdata
    obtain ⟨cell, rfl⟩ := Int.eq_ofNat_of_zero_le (le_trans (Int.natCast_nonneg _) hlow)
    have heq := S.covers.contiguous.eq_of_mem_cells hmem hother (by exact_mod_cast hlow)
      (by exact_mod_cast hhigh) (by exact_mod_cast hlow') (by exact_mod_cast hhigh')
    rw [← heq, hcode] at hkind
    cases hkind
  · have := (S.covers.contiguous.bounds hmem).2
    rw [scratch] at hhigh
    omega

/-- The cells of literals hold them, and do not change. -/
theorem literal_cell {value address : Int} (h : S.cell (.literal value) = some address) :
    image.loaded.InMemory address ∧ ¬ S.Writable address ∧
      image.loaded.cell address = value := by
  obtain ⟨hlow, hhigh, hcell⟩ := S.getElem?_of_mem_pool (OrderedMap.mem_of_get? h)
  have hscratch := (scratch_bounds (S := S)).2
  obtain ⟨cell, rfl⟩ := Int.eq_ofNat_of_zero_le (le_trans (Int.natCast_nonneg _) hlow)
  refine ⟨⟨Int.natCast_nonneg _, lt_trans hhigh hscratch⟩, ?_, Image.cell_loaded hcell⟩
  rintro (hdata | heq)
  · have := (isData_bounds hdata).2
    omega
  · rw [heq, scratch] at hhigh
    omega

/-! ## Instructions -/

variable (S) in
/-- An instruction of an operation stands at an address of the image. -/
structure Instruction (address a b c : Int) : Prop where
  nonneg : 0 ≤ address
  le : address + 3 ≤ image.cells.length
  a_eq : image.loaded.cell address = a
  b_eq : image.loaded.cell (address + 1) = b
  c_eq : image.loaded.cell (address + 2) = c
  fixed : ∀ cell, address ≤ cell → cell < address + 3 → ¬ S.Writable cell

/-- The instructions of an operation are the triples of its expansion. -/
theorem instruction_of_expansion {item : Item} {op : Operation} {slots : List (Slot × Slot × Slot)}
    {slot slot' slot'' : Slot} {address a b c : Int} (hmem : item ∈ S.layout.items)
    (hbody : item.body = .operation op) (index : Nat)
    (hslots : op.expansion? S.width S.table.value? item.address = some slots)
    (h : slots[index]? = some (slot, slot', slot'')) (haddress : address = item.address + 3 * index)
    (ha : S.cell slot = some a) (hb : S.cell slot' = some b) (hc : S.cell slot'' = some c) :
    S.Instruction address a b c := by
  subst haddress
  obtain ⟨cells, hmap, hlength, hat⟩ := S.hasAt_expansion hmem hbody hslots
  -- the content of a cell of the image is what its slot stands for
  have hcell : ∀ {offset : Nat} {slot : Slot} {value : Int},
      (Slot.flatten slots)[offset]? = some slot → S.cell slot = some value →
      cells[offset]? = some value := by
    intro offset slot value hslot hvalue
    have hget := congrArg (·[offset]?) hmap
    simpa [List.getElem?_map, hslot, hvalue] using hget
  have hloaded : ∀ {offset : Nat} {value : Int}, cells[offset]? = some value →
      image.loaded.cell (item.address + offset) = value := by
    intro offset value hvalue
    rw [← Nat.cast_add]
    refine Image.cell_loaded ?_
    rw [hat.getElem? (List.getElem?_eq_some_iff.mp hvalue).1, hvalue]
  obtain ⟨hfirst, hsecond, hthird⟩ := Slot.getElem?_flatten h
  have hthird := hcell hthird hc
  have hlt := (List.getElem?_eq_some_iff.mp hthird).1
  have hend := (S.covers.contiguous.bounds hmem).2
  have hsize : (S.layout.itemsEnd : Int) < image.cells.length := S.length_cells ▸ S.itemsEnd_lt_size
  have hcode : item.isCode = true := by rw [Item.isCode, hbody]; rfl
  rw [Item.endAddress] at hend
  refine ⟨by omega, by omega, ?_, ?_, ?_, fun cell hlow hhigh => ?_⟩
  · simpa using hloaded (hcell hfirst ha)
  · simpa [add_assoc] using hloaded (hcell hsecond hb)
  · simpa [add_assoc] using hloaded hthird
  · refine not_writable_of_code hmem hcode (by omega) ?_
    rw [Item.endAddress]
    omega

/-! ## What an instruction leaves unchanged -/

variable (S) in
/-- Nothing but data and the scratch field differs from what was loaded. -/
structure Keeps (s : State) : Prop where
  size_eq : s.memory.size = image.loaded.memory.size
  cell_eq : ∀ address, ¬ S.Writable address → s.cell address = image.loaded.cell address

variable {s : State} {pc a b c : Int}

/-- The scratch cell may be written to. -/
theorem writable_scratch : S.Writable S.scratch := .inr rfl

/-- One instruction of an operation, which subtracts the cell `a` from the cell `b`. -/
theorem Keeps.step (h : S.Keeps s) (hpc : s.pc = pc) (hcode : S.Instruction pc a b c)
    (ha : image.loaded.InMemory a) (hb : S.Writable b) :
    ∃ s', State.Advances S.width 1 s s' ∧ S.Keeps s' ∧
      s'.pc = (if S.width.wrap (s.cell b - s.cell a) ≤ 0 then c else pc + 3) ∧
      ∀ address, s'.cell address =
        if address = b then S.width.wrap (s.cell b - s.cell a) else s.cell address := by
  subst hpc
  -- the instruction is where nothing is written, so it is still the one of the image
  have hfixed : ∀ cell, s.pc ≤ cell → cell < s.pc + 3 → s.cell cell = image.loaded.cell cell :=
    fun cell hlow hhigh => h.cell_eq cell (hcode.fixed cell hlow hhigh)
  have hmemory : ∀ {address}, image.loaded.InMemory address → s.InMemory address := by
    intro address haddress
    rwa [State.InMemory, h.size_eq]
  have hexecutable : s.Executable a b c := by
    refine ⟨hcode.nonneg, h.size_eq ▸ hcode.le, ?_, ?_, ?_, hmemory ha, hmemory hb.inMemory⟩
    · rw [hfixed _ (by omega) (by omega), hcode.a_eq]
    · rw [hfixed _ (by omega) (by omega), hcode.b_eq]
    · rw [hfixed _ (by omega) (by omega), hcode.c_eq]
  -- what is written is writable, so every other cell stays as it was loaded
  refine ⟨_, hexecutable.advances _, ⟨?_, fun address haddress => ?_⟩,
    hexecutable.pc_execute _, hexecutable.cell_execute _⟩
  · rw [State.size_execute, h.size_eq]
  · have hne : address ≠ b := fun heq => haddress (heq ▸ hb)
    rw [hexecutable.cell_execute, if_neg hne, h.cell_eq address haddress]

/-- An instruction that goes on behind itself whatever its result is. -/
theorem Keeps.step_next (h : S.Keeps s) (hpc : s.pc = pc) (hcode : S.Instruction pc a b c)
    (hnext : c = pc + 3) (ha : image.loaded.InMemory a) (hb : S.Writable b) :
    ∃ s', State.Advances S.width 1 s s' ∧ S.Keeps s' ∧ s'.pc = c ∧
      ∀ address, s'.cell address =
        if address = b then S.width.wrap (s.cell b - s.cell a) else s.cell address := by
  obtain ⟨s', hadvances, hkeeps, hpc', hcell⟩ := h.step hpc hcode ha hb
  rw [← hnext, ite_self] at hpc'
  exact ⟨s', hadvances, hkeeps, hpc', hcell⟩

/-! ## The machine at an operation -/

variable (S) in
/-- The machine is where the interpreter is, and has the same data. -/
structure Related (state : Interpreter.State) (s : State) : Prop extends S.Keeps s where
  pc_eq : s.pc = state.pc
  scratch_eq : s.cell S.scratch = 0
  data_eq : ∀ address, S.layout.isData address = true → s.cell address = state.data address

variable {data : Int → Int} {place value : Int}

/-- Subtracting the scratch field from itself clears it, and goes on at the target. -/
theorem Keeps.clear (h : S.Keeps s) (hpc : s.pc = pc)
    (hcode : S.Instruction pc S.scratch S.scratch c)
    (hdata : ∀ address, S.layout.isData address = true → s.cell address = data address) :
    ∃ s', State.Advances S.width 1 s s' ∧ S.Related ⟨c, data⟩ s' := by
  obtain ⟨s', hadvances, hkeeps, hpc', hcell⟩ := h.step hpc hcode scratch_bounds writable_scratch
  rw [sub_self, Width.wrap_zero] at hpc' hcell
  refine ⟨s', hadvances, hkeeps, hpc'.trans (if_pos le_rfl), ?_, fun address haddress => ?_⟩
  · rw [hcell, if_pos rfl]
  · rw [hcell, if_neg (ne_scratch_of_isData haddress), hdata address haddress]

/-- One instruction that subtracts a value from a data cell. -/
theorem Related.subtract (h : S.Related ⟨pc, data⟩ s) (hcode : S.Instruction pc a place c)
    (ha : image.loaded.InMemory a) (hvalue : s.cell a = value)
    (hplace : S.layout.isData place = true) :
    ∃ s', State.Advances S.width 1 s s' ∧
      S.Related ⟨if S.width.wrap (data place - value) ≤ 0 then c else pc + 3,
        Function.update data place (S.width.wrap (data place - value))⟩ s' := by
  obtain ⟨s', hadvances, hkeeps, hpc', hcell⟩ := h.toKeeps.step h.pc_eq hcode ha (.inl hplace)
  rw [hvalue, h.data_eq place hplace] at hpc' hcell
  refine ⟨s', hadvances, hkeeps, hpc', ?_, fun address haddress => ?_⟩
  · rw [hcell, if_neg (ne_scratch_of_isData hplace).symm, h.scratch_eq]
  · rw [hcell, h.data_eq address haddress]
    exact (Function.update_apply ..).symm

variable (S) in
/-- The three instructions of an addition: the scratch field takes the negated value, is subtracted,
and is cleared. -/
structure Addition (pc a place : Int) : Prop where
  negate : S.Instruction pc a S.scratch (pc + 3)
  subtract : S.Instruction (pc + 3) S.scratch place (pc + 6)
  clear : S.Instruction (pc + 6) S.scratch S.scratch (pc + 9)

/-- Three instructions add a value to a cell of data and leave the scratch cell clear. -/
theorem Related.addition (h : S.Related ⟨pc, data⟩ s) (hcode : S.Addition pc a place)
    (ha : image.loaded.InMemory a) (hvalue : s.cell a = value)
    (hplace : S.layout.isData place = true) :
    ∃ s', State.Advances S.width 3 s s' ∧
      S.Related ⟨pc + 9, Function.update data place (S.width.wrap (data place + value))⟩ s' := by
  obtain ⟨s₁, hadvances₁, hkeeps₁, hpc₁, hcell₁⟩ :=
    h.toKeeps.step_next h.pc_eq hcode.negate rfl ha writable_scratch
  -- the scratch field was zero, so it holds the negated value now
  rw [hvalue, h.scratch_eq] at hcell₁
  obtain ⟨s₂, hadvances₂, hkeeps₂, hpc₂, hcell₂⟩ :=
    hkeeps₁.step_next hpc₁ hcode.subtract (by omega) scratch_bounds (.inl hplace)
  have hresult : S.width.wrap (s₁.cell place - s₁.cell S.scratch) =
      S.width.wrap (data place + value) := by
    rw [hcell₁, hcell₁, if_neg (ne_scratch_of_isData hplace), if_pos rfl, Width.wrap_sub_wrap,
      h.data_eq place hplace, zero_sub, sub_neg_eq_add]
  have hdata : ∀ address, S.layout.isData address = true → s₂.cell address =
      Function.update data place (S.width.wrap (data place + value)) address := by
    intro address haddress
    rw [hcell₂, hresult, hcell₁, if_neg (ne_scratch_of_isData haddress), h.data_eq address haddress,
      Function.update_apply]
  obtain ⟨s₃, hadvances₃, hrelated⟩ := hkeeps₂.clear hpc₂ hcode.clear hdata
  exact ⟨s₃, (hadvances₁.trans hadvances₂).trans hadvances₃, hrelated⟩

/-- The four instructions of a move.  The destination is cleared before the value is added to it, so
the value must not be there. -/
theorem Related.move (h : S.Related ⟨pc, data⟩ s) (hclear : S.Instruction pc place place (pc + 3))
    (hcode : S.Addition (pc + 3) a place) (ha : image.loaded.InMemory a) (hvalue : s.cell a = value)
    (hplace : S.layout.isData place = true) (hne : a ≠ place) :
    ∃ s', State.Advances S.width 4 s s' ∧
      S.Related ⟨pc + 3 + 9, Function.update data place (S.width.wrap value)⟩ s' := by
  obtain ⟨s₁, hadvances₁, hkeeps₁, hpc₁, hcell₁⟩ := h.toKeeps.step_next h.pc_eq hclear rfl
    (Writable.inMemory (.inl hplace)) (.inl hplace)
  rw [sub_self, Width.wrap_zero] at hcell₁
  have hrelated₁ : S.Related ⟨pc + 3, Function.update data place 0⟩ s₁ := by
    refine ⟨hkeeps₁, hpc₁, ?_, fun address haddress => ?_⟩
    · rw [hcell₁, if_neg (ne_scratch_of_isData hplace).symm, h.scratch_eq]
    · rw [hcell₁, h.data_eq address haddress]
      exact (Function.update_apply ..).symm
  -- what is left is an addition to a cell that holds zero
  have hvalue₁ : s₁.cell a = value := by rw [hcell₁, if_neg hne, hvalue]
  obtain ⟨s₂, hadvances₂, hrelated₂⟩ := hrelated₁.addition hcode ha hvalue₁ hplace
  rw [Function.update_self, zero_add, Function.update_idem] at hrelated₂
  exact ⟨s₂, hadvances₁.trans hadvances₂, hrelated₂⟩

/-! ## One operation -/

variable (S) in
/-- The cell that a slot stands for holds a value. -/
def Supplies (s : State) (slot : Slot) (value : Int) : Prop :=
  ∀ a, S.cell slot = some a → image.loaded.InMemory a ∧ s.cell a = value

/-- A literal supplies its value. -/
theorem Keeps.supplies_literal (h : S.Keeps s) (value : Int) :
    S.Supplies s (.literal value) value := by
  intro a ha
  obtain ⟨hmemory, hfixed, hvalue⟩ := literal_cell ha
  exact ⟨hmemory, by rw [h.cell_eq a hfixed, hvalue]⟩

/-- An operand that is read supplies the value that the interpreter loads. -/
theorem Related.supplies {operand : Operand} {here : Int} (h : S.Related ⟨pc, data⟩ s)
    (hconfined : operand.isConfined S.width S.table.value? here S.layout = true)
    (hload : operand.load? S.width S.table.value? here data = some value) :
    ∃ slot, operand.read? S.width S.table.value? here = some slot ∧ S.Supplies s slot value := by
  rcases Operand.load?_eq_some hload with ⟨-, -, hread⟩ | ⟨-, -, address, hplace, hvalue⟩
  · exact ⟨_, hread, h.supplies_literal value⟩
  · have hdata := Operand.isData_of_place? hconfined hplace
    refine ⟨_, Operand.read?_of_place? hplace, fun a ha => ?_⟩
    obtain rfl := Option.some.inj ha
    exact ⟨Writable.inMemory (.inl hdata), (h.data_eq _ hdata).trans hvalue⟩

/-- What a value is put into, and where it comes from. -/
theorem Related.assign {dst src : Operand} {here pc' : Int} {data' : Int → Int}
    {result : Int → Int → Int} (h : S.Related ⟨pc, data⟩ s)
    (hsrc : src.isConfined S.width S.table.value? here S.layout = true)
    (hassign : Operation.assign? S.width S.table.value? here data dst src result =
      some (pc', data')) :
    ∃ place value slot, dst.place? S.width S.table.value? here = some place ∧
      src.load? S.width S.table.value? here data = some value ∧
      src.read? S.width S.table.value? here = some slot ∧ S.Supplies s slot value ∧
      pc' = here ∧
      data' = Function.update data place (S.width.wrap (result (data place) value)) := by
  simp only [Operation.assign?, Option.bind_eq_bind, Option.bind_eq_some_iff] at hassign
  obtain ⟨place, hplace, value, hload, heq⟩ := hassign
  cases heq
  obtain ⟨slot, hread, hsupplies⟩ := h.supplies hsrc hload
  exact ⟨place, value, slot, hplace, hload, hread, hsupplies, rfl, rfl⟩

section Operations

variable {item : Item} {op : Operation} {slot : Slot} {dst src : Operand} {pc' : Int}
  {data' : Int → Int}

/-! ### Expansions of a known shape -/

/-- An operation that is one instruction on a data cell. -/
theorem Related.single (h : S.Related ⟨item.address, data⟩ s) (hmem : item ∈ S.layout.items)
    (hbody : item.body = .operation op)
    (hslots : op.expansion? S.width S.table.value? item.address =
      some [(slot, .address place, .address c)])
    (hsupplies : S.Supplies s slot value) (hplace : S.layout.isData place = true) :
    ∃ s', State.Advances S.width 1 s s' ∧
      S.Related ⟨if S.width.wrap (data place - value) ≤ 0 then c else item.address + 3,
        Function.update data place (S.width.wrap (data place - value))⟩ s' := by
  obtain ⟨a, ha⟩ := S.isSome_cell hmem hbody hslots (.head _)
  obtain ⟨hmemory, hvalue⟩ := hsupplies a ha
  have hcode := instruction_of_expansion hmem hbody 0 hslots rfl (add_zero _).symm ha rfl rfl
  exact h.subtract hcode hmemory hvalue hplace

/-- A compile-time value is added by subtracting the negated one. -/
theorem Related.increase (h : S.Related ⟨item.address, data⟩ s) (hmem : item ∈ S.layout.items)
    (hbody : item.body = .operation op)
    (hslots : op.expansion? S.width S.table.value? item.address =
      some [(.literal (S.width.wrap (-value)), .address place, .address (item.address + 3))])
    (hplace : S.layout.isData place = true) :
    ∃ s', State.Advances S.width 1 s s' ∧ S.Related ⟨item.address + 3,
      Function.update data place (S.width.wrap (data place + value))⟩ s' := by
  have hstep := h.single hmem hbody hslots (h.supplies_literal _) hplace
  rwa [ite_self, Width.wrap_sub_wrap, sub_neg_eq_add] at hstep

/-- Three triples of an expansion that are an addition. -/
theorem addition_of_expansion {slots : List (Slot × Slot × Slot)} (hmem : item ∈ S.layout.items)
    (hbody : item.body = .operation op) (index : Nat)
    (hslots : op.expansion? S.width S.table.value? item.address = some slots)
    (h : slots.drop index = Operation.additionTable pc (.address place) slot)
    (hpc : pc = item.address + 3 * index) (ha : S.cell slot = some a) : S.Addition pc a place := by
  have hget : ∀ offset, slots[index + offset]? =
      (Operation.additionTable pc (.address place) slot)[offset]? := by
    intro offset
    rw [← h, List.getElem?_drop]
  exact ⟨instruction_of_expansion hmem hbody index hslots (hget 0) hpc ha cell_scratch rfl,
    instruction_of_expansion hmem hbody (index + 1) hslots (hget 1) (by push_cast; omega)
      cell_scratch rfl rfl,
    instruction_of_expansion hmem hbody (index + 2) hslots (hget 2) (by push_cast; omega)
      cell_scratch cell_scratch rfl⟩

/-- An operation that is an addition. -/
theorem Related.sum (h : S.Related ⟨item.address, data⟩ s) (hmem : item ∈ S.layout.items)
    (hbody : item.body = .operation op)
    (hslots : op.expansion? S.width S.table.value? item.address =
      some (Operation.additionTable item.address (.address place) slot))
    (hsupplies : S.Supplies s slot value) (hplace : S.layout.isData place = true) :
    ∃ s', State.Advances S.width 3 s s' ∧ S.Related ⟨item.address + 9,
      Function.update data place (S.width.wrap (data place + value))⟩ s' := by
  obtain ⟨a, ha⟩ := S.isSome_cell hmem hbody hslots (.head _)
  obtain ⟨hmemory, hvalue⟩ := hsupplies a ha
  have hcode := addition_of_expansion hmem hbody 0 hslots rfl (add_zero _).symm ha
  exact h.addition hcode hmemory hvalue hplace

/-! ### The operations -/

/-- The bare instruction does in one step what it means. -/
theorem Related.subleq {a b target : Operand} (h : S.Related ⟨item.address, data⟩ s)
    (hmem : item ∈ S.layout.items) (hbody : item.body = .operation (.subleq a b target))
    (ha : a.isConfined S.width S.table.value? item.endAddress S.layout = true)
    (hb : b.isConfined S.width S.table.value? item.endAddress S.layout = true)
    (hinterpret : Operation.interpret? S.width S.table.value? item.endAddress data
      (.subleq a b target) = some (pc', data')) :
    ∃ s', State.Advances S.width 1 s s' ∧ S.Related ⟨pc', data'⟩ s' := by
  have hend := S.endAddress_eq hmem hbody
  simp only [Operation.interpret?, Option.bind_eq_bind, Option.bind_eq_some_iff] at hinterpret
  obtain ⟨place, hplace, value, hload, goal, hgoal, heq⟩ := hinterpret
  cases heq
  obtain ⟨slot, hread, hsupplies⟩ := h.supplies ha hload
  have hslots : Operation.expansion? S.width S.table.value? item.address (.subleq a b target) =
      some [(slot, .address place, .address goal)] := by
    simp only [Operation.expansion?, ← hend, hread, Operand.read?_of_place? hplace,
      Operand.target?_of_goal? hgoal]
    rfl
  rw [hend]
  exact h.single hmem hbody hslots hsupplies (Operand.isData_of_place? hb hplace)

/-- So does a jump. -/
theorem Related.jmp {target : Operand} (h : S.Related ⟨item.address, data⟩ s)
    (hmem : item ∈ S.layout.items) (hbody : item.body = .operation (.jmp target))
    (hinterpret : Operation.interpret? S.width S.table.value? item.endAddress data (.jmp target) =
      some (pc', data')) :
    ∃ s', State.Advances S.width 1 s s' ∧ S.Related ⟨pc', data'⟩ s' := by
  simp only [Operation.interpret?, Option.bind_eq_bind, Option.bind_eq_some_iff] at hinterpret
  obtain ⟨goal, hgoal, heq⟩ := hinterpret
  cases heq
  have hslots : Operation.expansion? S.width S.table.value? item.address (.jmp target) =
      some [(.temp .t, .temp .t, .address pc')] := by
    simp only [Operation.expansion?, ← S.endAddress_eq hmem hbody, Operand.target?_of_goal? hgoal]
    rfl
  have hcode := instruction_of_expansion hmem hbody 0 hslots rfl (add_zero _).symm cell_scratch
    cell_scratch rfl
  exact h.toKeeps.clear h.pc_eq hcode h.data_eq

/-- A subtraction does so in one step too. -/
theorem Related.sub (h : S.Related ⟨item.address, data⟩ s) (hmem : item ∈ S.layout.items)
    (hbody : item.body = .operation (.sub dst src))
    (hdst : dst.isConfined S.width S.table.value? item.endAddress S.layout = true)
    (hsrc : src.isConfined S.width S.table.value? item.endAddress S.layout = true)
    (hassign : Operation.assign? S.width S.table.value? item.endAddress data dst src
      (fun old value => old - value) = some (pc', data')) :
    ∃ s', State.Advances S.width 1 s s' ∧ S.Related ⟨pc', data'⟩ s' := by
  have hend := S.endAddress_eq hmem hbody
  obtain ⟨place, value, slot, hplace, -, hread, hsupplies, rfl, rfl⟩ := h.assign hsrc hassign
  have hslots : Operation.expansion? S.width S.table.value? item.address (.sub dst src) =
      some [(slot, .address place, .address (item.address + 3))] := by
    simp only [Operation.expansion?, ← hend, hread, Operand.write?_of_place? hplace]
    rfl
  have hstep := h.single hmem hbody hslots hsupplies (Operand.isData_of_place? hdst hplace)
  rw [ite_self] at hstep
  rw [hend]
  exact hstep

/-- The cell that a value is read from is not the one that another operand names. -/
theorem ne_of_place?_ne {here : Int}
    (hload : src.load? S.width S.table.value? here data = some value)
    (hread : src.read? S.width S.table.value? here = some slot) (ha : S.cell slot = some a)
    (hdata : S.layout.isData place = true)
    (hne : src.place? S.width S.table.value? here ≠ some place) : a ≠ place := by
  rintro rfl
  rcases Operand.load?_eq_some hload with ⟨-, -, hliteral⟩ | ⟨-, -, address, hplace, -⟩
  · rw [hliteral] at hread
    obtain rfl := Option.some.inj hread
    exact (literal_cell ha).2.1 (.inl hdata)
  · rw [Operand.read?_of_place? hplace] at hread
    obtain rfl := Option.some.inj hread
    obtain rfl := Option.some.inj ha
    exact hne hplace

/-- A move takes four, and clears its destination first, so the two places have to be different. -/
theorem Related.mov (h : S.Related ⟨item.address, data⟩ s) (hmem : item ∈ S.layout.items)
    (hbody : item.body = .operation (.mov dst src))
    (hdst : dst.isConfined S.width S.table.value? item.endAddress S.layout = true)
    (hsrc : src.isConfined S.width S.table.value? item.endAddress S.layout = true)
    (hne : dst.place? S.width S.table.value? item.endAddress ≠
      src.place? S.width S.table.value? item.endAddress)
    (hassign : Operation.assign? S.width S.table.value? item.endAddress data dst src
      (fun _ value => value) = some (pc', data')) :
    ∃ s', State.Advances S.width 4 s s' ∧ S.Related ⟨pc', data'⟩ s' := by
  have hend := S.endAddress_eq hmem hbody
  obtain ⟨place, value, slot, hplace, hload, hread, hsupplies, rfl, rfl⟩ := h.assign hsrc hassign
  have hdata := Operand.isData_of_place? hdst hplace
  -- a move is the clearing of its destination and an addition behind that
  have hslots : Operation.expansion? S.width S.table.value? item.address (.mov dst src) =
      some ((.address place, .address place, .address (item.address + 3)) ::
        Operation.additionTable (item.address + 3) (.address place) slot) := by
    simp only [Operation.expansion?, ← hend, hread, Operand.write?_of_place? hplace,
      Operation.additionTable, add_assoc]
    rfl
  obtain ⟨a, ha⟩ := S.isSome_cell hmem hbody hslots (.tail _ (.tail _ (.tail _ (.head _))))
  obtain ⟨hmemory, hvalue⟩ := hsupplies a ha
  have hclear : S.Instruction item.address place place (item.address + 3) :=
    instruction_of_expansion hmem hbody 0 hslots rfl (add_zero _).symm rfl rfl rfl
  have hcode : S.Addition (item.address + 3) a place :=
    addition_of_expansion hmem hbody 1 hslots rfl rfl ha
  -- the source is not the cell that is cleared first
  obtain ⟨s', hadvances, hrelated⟩ := h.move hclear hcode hmemory hvalue hdata
    (ne_of_place?_ne hload hread ha hdata (hplace ▸ hne.symm))
  rw [add_assoc] at hrelated
  rw [hend]
  exact ⟨s', hadvances, hrelated⟩

/-- The addition of a cell takes three. -/
theorem Related.addR (h : S.Related ⟨item.address, data⟩ s) (hmem : item ∈ S.layout.items)
    (hbody : item.body = .operation (.addR dst src))
    (hdst : dst.isConfined S.width S.table.value? item.endAddress S.layout = true)
    (hsrc : src.isConfined S.width S.table.value? item.endAddress S.layout = true)
    (hassign : Operation.assign? S.width S.table.value? item.endAddress data dst src
      (fun old value => old + value) = some (pc', data')) :
    ∃ s', State.Advances S.width 3 s s' ∧ S.Related ⟨pc', data'⟩ s' := by
  have hend := S.endAddress_eq hmem hbody
  obtain ⟨place, value, slot, hplace, -, hread, hsupplies, rfl, rfl⟩ := h.assign hsrc hassign
  have hslots : Operation.expansion? S.width S.table.value? item.address (.addR dst src) =
      some (Operation.additionTable item.address (.address place) slot) := by
    simp only [Operation.expansion?, ← hend, hread, Operand.write?_of_place? hplace]
    rfl
  rw [hend]
  exact h.sum hmem hbody hslots hsupplies (Operand.isData_of_place? hdst hplace)

/-- What is added at compile time is the value of the operand, since there is no other expansion. -/
theorem addend?_eq_of_load? (hmem : item ∈ S.layout.items)
    (hbody : item.body = .operation (.addC dst src))
    (hload : src.load? S.width S.table.value? item.endAddress data = some value) :
    src.addend? S.width S.table.value? item.endAddress = some value := by
  rcases Operand.load?_eq_some hload with ⟨-, haddend, -⟩ | ⟨-, haddend, -⟩
  · exact haddend
  · -- an addend that names a cell has no expansion
    obtain ⟨slots, hslots⟩ := S.exists_expansion hmem hbody
    simp only [Operation.expansion?, ← S.endAddress_eq hmem hbody, haddend, Option.bind_eq_bind,
      Option.bind_none, Option.bind_fun_none] at hslots
    cases hslots

/-- The addition of a constant takes one. -/
theorem Related.addC (h : S.Related ⟨item.address, data⟩ s) (hmem : item ∈ S.layout.items)
    (hbody : item.body = .operation (.addC dst src))
    (hdst : dst.isConfined S.width S.table.value? item.endAddress S.layout = true)
    (hassign : Operation.assign? S.width S.table.value? item.endAddress data dst src
      (fun old value => old + value) = some (pc', data')) :
    ∃ s', State.Advances S.width 1 s s' ∧ S.Related ⟨pc', data'⟩ s' := by
  have hend := S.endAddress_eq hmem hbody
  simp only [Operation.assign?, Option.bind_eq_bind, Option.bind_eq_some_iff] at hassign
  obtain ⟨place, hplace, value, hload, heq⟩ := hassign
  cases heq
  have hslots : Operation.expansion? S.width S.table.value? item.address (.addC dst src) =
      some [(.literal (S.width.wrap (-value)), .address place, .address (item.address + 3))] := by
    simp only [Operation.expansion?, ← hend, addend?_eq_of_load? hmem hbody hload,
      Operand.write?_of_place? hplace]
    rfl
  rw [hend]
  exact h.increase hmem hbody hslots (Operand.isData_of_place? hdst hplace)

/-- An addition is one instruction for a compile-time value, and three for the value of a cell. -/
theorem Related.add (h : S.Related ⟨item.address, data⟩ s) (hmem : item ∈ S.layout.items)
    (hbody : item.body = .operation (.add dst src))
    (hdst : dst.isConfined S.width S.table.value? item.endAddress S.layout = true)
    (hsrc : src.isConfined S.width S.table.value? item.endAddress S.layout = true)
    (hassign : Operation.assign? S.width S.table.value? item.endAddress data dst src
      (fun old value => old + value) = some (pc', data')) :
    ∃ s', State.Advances S.width (Operation.add dst src).triples s s' ∧
      S.Related ⟨pc', data'⟩ s' := by
  have hend := S.endAddress_eq hmem hbody
  obtain ⟨place, value, slot, hplace, hload, hread, hsupplies, rfl, rfl⟩ := h.assign hsrc hassign
  have hdata := Operand.isData_of_place? hdst hplace
  -- the source is a number, which one triple adds, or a cell, which takes three
  rcases Operand.load?_eq_some hload with ⟨himmediate, -, hliteral⟩ |
    ⟨himmediate, -, address, haddress, -⟩
  · have hslots : Operation.expansion? S.width S.table.value? item.address (.add dst src) =
        some [(.literal (S.width.wrap (-value)), .address place, .address (item.address + 3))] := by
      simp only [Operation.expansion?, ← hend, hliteral, Operand.write?_of_place? hplace]
      rfl
    rw [hend, Operation.triples_add, if_pos himmediate]
    exact h.increase hmem hbody hslots hdata
  · have hcell := Operand.read?_of_place? haddress
    obtain rfl := Option.some.inj (hread.symm.trans hcell)
    have hslots : Operation.expansion? S.width S.table.value? item.address (.add dst src) =
        some (Operation.additionTable item.address (.address place) (.address address)) := by
      simp only [Operation.expansion?, ← hend, hcell, Operand.write?_of_place? hplace]
      rfl
    rw [hend, Operation.triples_add, if_neg (by simp [himmediate])]
    exact h.sum hmem hbody hslots hsupplies hdata

/-- The machine executes an operation as the interpreter does, in as many instructions as the
operation stands for. -/
theorem Related.operation (h : S.Related ⟨item.address, data⟩ s) (hmem : item ∈ S.layout.items)
    (hbody : item.body = .operation op)
    (hconfined : op.isConfined S.width S.table.value? item.endAddress S.layout = true)
    (hinterpret : op.interpret? S.width S.table.value? item.endAddress data = some (pc', data')) :
    ∃ s', State.Advances S.width op.triples s s' ∧ S.Related ⟨pc', data'⟩ s' := by
  -- by cases of the operation; halting and comparing are not interpreted
  cases op with
  | subleq a b target =>
      simp only [Operation.isConfined, Bool.and_eq_true] at hconfined
      exact h.subleq hmem hbody hconfined.1.1.1 hconfined.1.1.2 hinterpret
  | sub dst src =>
      rw [Operation.isConfined, Bool.and_eq_true] at hconfined
      exact h.sub hmem hbody hconfined.1 hconfined.2 hinterpret
  | hlt => cases hinterpret
  | jmp target => exact h.jmp hmem hbody hinterpret
  | mov dst src =>
      simp only [Operation.isConfined, Bool.and_eq_true, decide_eq_true_eq] at hconfined
      exact h.mov hmem hbody hconfined.1.1 hconfined.1.2 hconfined.2 hinterpret
  | addC dst addend =>
      rw [Operation.isConfined, Bool.and_eq_true] at hconfined
      exact h.addC hmem hbody hconfined.1 hinterpret
  | addR dst src =>
      rw [Operation.isConfined, Bool.and_eq_true] at hconfined
      exact h.addR hmem hbody hconfined.1 hconfined.2 hinterpret
  | add dst src =>
      rw [Operation.isConfined, Bool.and_eq_true] at hconfined
      exact h.add hmem hbody hconfined.1 hconfined.2 hinterpret
  | je a b target => cases hinterpret

end Operations

/-! ## Whole runs -/

/-- An item is one of the source, or the jump to the first operation. -/
theorem mem_sourceItems_or_jump {item : Item} (hmem : item ∈ S.layout.items) :
    item ∈ S.layout.sourceItems ∨ ∃ first, item = Layout.jumpTo first := by
  rw [S.covers.items_eq, List.mem_append] at hmem
  rcases hmem with hmem | hmem
  · split at hmem
    · cases hfirst : S.layout.sourceItems.find? Item.isCode with
      | none =>
          rw [Layout.entryJump, hfirst] at hmem
          cases hmem
      | some first =>
          rw [Layout.entryJump_eq hfirst, List.mem_singleton] at hmem
          exact .inr ⟨first, hmem⟩
    · cases hmem
  · exact .inl hmem

/-- All operations are confined, the jump to the first one included. -/
theorem isConfined_of_mem (h : S.layout.isConfined S.width S.table.value? = true) {item : Item}
    {op : Operation} (hmem : item ∈ S.layout.items) (hbody : item.body = .operation op) :
    op.isConfined S.width S.table.value? item.endAddress S.layout = true := by
  rcases mem_sourceItems_or_jump hmem with hmem | ⟨first, rfl⟩
  · simpa only [hbody] using List.all_eq_true.mp h item hmem
  · cases hbody
    rfl

variable {state state' : Interpreter.State} {triples : Nat}

/-- The machine follows a step of the interpreter. -/
theorem Related.follow_step (hconfined : S.layout.isConfined S.width S.table.value? = true)
    (h : S.Related state s) (hstep : S.program.step? state = some (state', triples)) :
    ∃ s', State.Advances S.width triples s s' ∧ S.Related state' s' := by
  obtain ⟨item, op, hmem, hbody, haddress, hinterpret, rfl⟩ := Interpreter.step?_eq_some hstep
  obtain ⟨pc, data⟩ := state
  obtain rfl := haddress
  exact h.operation hmem hbody (isConfined_of_mem hconfined hmem hbody) hinterpret

/-- The machine follows a run of the interpreter. -/
theorem Related.follow_run (hconfined : S.layout.isConfined S.width S.table.value? = true)
    {n : Nat} (h : S.Related state s) (hrun : S.program.run? n state = some (state', triples)) :
    ∃ s', State.Advances S.width triples s s' ∧ S.Related state' s' := by
  induction n generalizing state s triples with
  | zero =>
      cases hrun
      exact ⟨s, rfl, h⟩
  | succ n ih =>
      simp only [Interpreter.run?, Option.bind_eq_bind, Option.bind_eq_some_iff] at hrun
      obtain ⟨⟨state₁, first⟩, hstep, ⟨_, others⟩, hrest, heq⟩ := hrun
      cases heq
      obtain ⟨s₁, hadvances₁, hrelated₁⟩ := h.follow_step hconfined hstep
      obtain ⟨s₂, hadvances₂, hrelated₂⟩ := ih hrelated₁ hrest
      exact ⟨s₂, hadvances₁.trans hadvances₂, hrelated₂⟩

/-- The machine that loads the image is related to the program at its start. -/
theorem related_loaded : S.Related ⟨0, image.loaded.cell⟩ image.loaded :=
  ⟨⟨rfl, fun _ _ => rfl⟩, S.built.entry_eq, loaded_scratch, fun _ _ => rfl⟩

/-- The machine comes to the first operation, at once or over the jump to it. -/
theorem exists_related_first (hentry : config.entryJump = true) {first : Item}
    (hfirst : S.layout.sourceItems.find? Item.isCode = some first) :
    ∃ s, State.Advances S.width (if Layout.jumps config.entryJump S.statements then 1 else 0)
        image.loaded s ∧ S.Related ⟨first.address, image.loaded.cell⟩ s := by
  have hitems := S.covers.items_eq
  by_cases hjumps : Layout.jumps config.entryJump S.statements = true
  · rw [if_pos hjumps, Layout.entryJump_eq hfirst] at hitems
    rw [if_pos hjumps]
    have hjump : Layout.jumpTo first ∈ S.layout.items := hitems ▸ .head _
    have hmem : first ∈ S.layout.items :=
      hitems ▸ List.mem_append_right _ (List.mem_of_find?_eq_some hfirst)
    have hfits : S.width.Fits first.address := S.fits_of_le_itemsEnd
      (le_trans (Nat.le_add_right _ _) (S.covers.contiguous.bounds hmem).2)
    refine related_loaded.jmp hjump rfl ?_
    simp [Operation.interpret?, Operand.goal?, Expr.eval, Width.wrap_of_fits hfits]
  · rw [if_neg hjumps, List.nil_append] at hitems
    rw [if_neg hjumps]
    -- without a jump the program starts with code, and the first operation is at address zero
    have hdata : Layout.startsWithData S.statements = false := by
      simpa [Layout.jumps, hentry] using hjumps
    obtain ⟨rest, hrest⟩ :=
      Layout.eq_cons_of_not_startsWithData S.covers.bodies_eq hdata hfirst
    have hcontiguous := S.covers.contiguous
    rw [hitems, hrest] at hcontiguous
    refine ⟨_, rfl, ?_⟩
    rw [hcontiguous.1]
    exact related_loaded

end Assembly.Stages

namespace Image

/-- The interpreter comes from the first operation of the sum to the last one, in 13 operations that
stand for 18 instructions. -/
theorem run?_sum : ∃ statements image layout first state,
    Statement.parse Assembly.sumSource "sum" = .ok statements ∧
      Layout.jumps Assembly.sumConfig.entryJump statements = true ∧
      assemble Assembly.sumConfig [("k", 7)] Assembly.sumSource "sum" = .ok image ∧
      Assembly.firstPass Assembly.sumConfig [("k", 7)] Assembly.sumSource "sum" = .ok layout ∧
      layout.sourceItems.find? Item.isCode = some first ∧
      layout.isConfined Assembly.sumWidth image.value? = true ∧
      Interpreter.run? ⟨Assembly.sumWidth, image.value?, layout.items⟩ 13
        ⟨first.address, image.loaded.cell⟩ = some (state, 18) ∧
      state.pc = 40 ∧ layout.isData 43 = true ∧ state.data 43 = 12 := by
  -- the program is evaluated once, up to its last state
  have hrun : (do
      let statements ← (Statement.parse Assembly.sumSource "sum").toOption
      let image ← (assemble Assembly.sumConfig [("k", 7)] Assembly.sumSource "sum").toOption
      let layout ← (Assembly.firstPass Assembly.sumConfig [("k", 7)] Assembly.sumSource
        "sum").toOption
      let first ← layout.sourceItems.find? Item.isCode
      let last ← Interpreter.run? ⟨Assembly.sumWidth, image.value?, layout.items⟩ 13
        ⟨first.address, image.loaded.cell⟩
      pure (decide (Layout.jumps Assembly.sumConfig.entryJump statements = true ∧
        layout.isConfined Assembly.sumWidth image.value? = true ∧ last.2 = 18 ∧ last.1.pc = 40 ∧
        layout.isData 43 = true ∧ last.1.data 43 = 12))) = some true := by
    decide +kernel
  simp only [Option.bind_eq_bind, Option.bind_eq_some_iff, Option.pure_def, Option.some_inj,
    decide_eq_true_eq] at hrun
  obtain ⟨statements, hparse, image, himage, layout, hlayout, first, hfirst, ⟨state, triples⟩,
    hstate, hjumps, hconfined, rfl, hpc, hdata, hcell⟩ := hrun
  exact ⟨statements, image, layout, first, state, Folding.eq_ok_of_toOption hparse, hjumps,
    Folding.eq_ok_of_toOption himage, Folding.eq_ok_of_toOption hlayout, hfirst, hconfined, hstate,
    hpc, hdata, hcell⟩

/-- The machine that loads the image of a program makes the steps of the interpreter.  After as many
instructions as the executed operations stand for, and one more if there is a jump in front, it has
come to the same operation, and has the same data. -/
theorem refines_of_assemble {config : Config} {defines : Defines} {source file : String}
    {image : Image} {width : Width} {layout : Layout} {first : Item} {n triples : Nat}
    {state : Interpreter.State} (h : assemble config defines source file = .ok image)
    (hentry : config.entryJump = true) (hwidth : Width.ofInt? config.cellBits = some width)
    (hlayout : Assembly.firstPass config defines source file = .ok layout)
    (hfirst : layout.sourceItems.find? Item.isCode = some first)
    (hconfined : layout.isConfined width image.value? = true)
    (hrun : Interpreter.run? ⟨width, image.value?, layout.items⟩ n
      ⟨first.address, image.loaded.cell⟩ = some (state, triples)) :
    ∃ statements machine, Statement.parse source file = .ok statements ∧
      layout.Covers width image.value? config.entryJump statements ∧
      Machine.build (.ofImage image) none none none = .ok machine ∧
      let steps := (if Layout.jumps config.entryJump statements then 1 else 0) + triples
      let final := (machine.run steps).1.state
      final.steps = steps ∧ final.pc = state.pc ∧
        ∀ address, layout.isData address = true → final.cell address = state.data address := by
  obtain ⟨S⟩ := Assembly.nonempty_stages h
  obtain rfl := Option.some.inj (hwidth.symm.trans S.ofInt?_cellBits)
  obtain rfl := Except.ok.inj (hlayout.symm.trans S.firstPass_eq)
  rw [S.value?_image] at hconfined hrun ⊢
  -- a jump to the first operation comes before, if there is one
  obtain ⟨s, hadvances, hrelated⟩ := Assembly.Stages.exists_related_first hentry hfirst
  obtain ⟨s', hadvances', hrelated'⟩ := hrelated.follow_run hconfined hrun
  have hbits : Width.ofInt? image.cellBits = some S.width := S.built.cellBits_eq ▸ hwidth
  refine ⟨S.statements, _, S.parse_eq, S.covers, Machine.build_ofImage hbits S.fits_cells, ?_⟩
  intro steps final
  -- the steps of the interpreter are followed by the machine, operation by operation
  have hall : Machine.State.Advances S.width steps image.loaded s' := hadvances.trans hadvances'
  have hfinal : final = s' := Machine.run_of_advances rfl rfl hall
  rw [hfinal]
  exact ⟨hall.steps_eq.trans (Nat.zero_add _), hrelated'.pc_eq, hrelated'.data_eq⟩

/-- The machine needs one more instruction for the jump over the data, and has the same sum. -/
theorem refines_sum : ∃ image machine,
    assemble Assembly.sumConfig [("k", 7)] Assembly.sumSource "sum" = .ok image ∧
      Machine.build (.ofImage image) none none none = .ok machine ∧
      (machine.run 19).1.state.steps = 19 ∧ (machine.run 19).1.state.pc = 40 ∧
      (machine.run 19).1.state.cell 43 = 12 := by
  obtain ⟨statements, image, layout, first, state, hparse, hjumps, h, hlayout, hfirst, hconfined,
    hrun, hpc, hdata, hcell⟩ := run?_sum
  obtain ⟨statements', machine, hparse', -, hbuild, hfinal⟩ :=
    refines_of_assemble h rfl rfl hlayout hfirst hconfined hrun
  obtain rfl := Except.ok.inj (hparse.symm.trans hparse')
  rw [if_pos hjumps] at hfinal
  obtain ⟨hsteps, hpc', hcell'⟩ := hfinal
  exact ⟨image, machine, h, hbuild, hsteps, hpc'.trans hpc, (hcell' 43 hdata).trans hcell⟩

end Image

end Subleq
