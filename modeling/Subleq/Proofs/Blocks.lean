import Subleq.Expansion
import Subleq.Proofs.Cell
import Subleq.Proofs.Folding
import Subleq.Proofs.Machine

/-!
# Blocks of code

The instructions of one operation stand one after the other in memory, and stay there as long as
nothing is written to their cells.  `Machine.State.Holds` says so of a state, and
`Machine.State.Leads` says how far a number of instructions takes it: to a program counter, and to
contents of the cells that are told by subtractions alone (`Machine.subtract`).  Instructions of which
each goes on at the next one, whatever its result is, subtract one after the other
(`Machine.State.Holds.run`).

The triples of an expansion become instructions once the pool and the temp fields have places.  A
machine that holds the triples of an expansion holds a block (`Operation.holds_of_expand`).
-/

namespace Subleq

open Folding

namespace Machine

/-- The contents of the cells after the cell `a` has been subtracted from the cell `b`. -/
def subtract (width : Width) (cells : Int → Int) (a b : Int) : Int → Int :=
  Function.update cells b (width.wrap (cells b - cells a))

/-- A subtraction is wrapped into the cell. -/
theorem subtract_apply (width : Width) (cells : Int → Int) (a b : Int) :
    subtract width cells a b b = width.wrap (cells b - cells a) := Function.update_self ..

/-- Subtracting a cell from itself clears it. -/
theorem subtract_self (width : Width) (cells : Int → Int) (a : Int) :
    subtract width cells a a = Function.update cells a 0 := by
  rw [subtract, sub_self, Width.wrap_zero]

/-- The contents of the cells after the subtractions of some instructions. -/
def subtractAll (width : Width) (cells : Int → Int) : List (Int × Int × Int) → Int → Int
  | [] => cells
  | (a, b, _) :: rest => subtractAll width (subtract width cells a b) rest

/-- Every instruction goes on at the one after it. -/
def Linked : (base : Int) → List (Int × Int × Int) → Prop
  | _, [] => True
  | base, (_, _, c) :: rest => c = base + 3 ∧ Linked (base + 3) rest

/-- An address is not among the cells of `count` instructions. -/
def Outside (base : Int) (count : Nat) (address : Int) : Prop :=
  address < base ∨ base + 3 * count ≤ address

instance (base : Int) (count : Nat) (address : Int) : Decidable (Outside base count address) :=
  inferInstanceAs (Decidable (_ ∨ _))

/-- What is outside of a block is outside of its rest. -/
theorem Outside.tail {base : Int} {count : Nat} {address : Int}
    (h : Outside base (count + 1) address) : Outside (base + 3) count address := by
  unfold Outside at h ⊢
  omega

namespace State

variable {width : Width} {s s' s'' : State} {base pc a b c : Int}
  {code rest : List (Int × Int × Int)}

/-! ## Code in memory -/

/-- Instructions stand one after the other in memory, from an address on. -/
def Holds (s : State) : (base : Int) → List (Int × Int × Int) → Prop
  | _, [] => True
  | base, (a, b, c) :: rest =>
      (0 ≤ base ∧ base + 3 ≤ s.memory.size) ∧
        (s.cell base = a ∧ s.cell (base + 1) = b ∧ s.cell (base + 2) = c) ∧
        s.Holds (base + 3) rest

/-- Code stays in memory if nothing is written to its cells. -/
theorem Holds.congr (h : s.Holds base code) (hsize : s'.memory.size = s.memory.size)
    (hcell : ∀ address, ¬ Outside base code.length address → s'.cell address = s.cell address) :
    s'.Holds base code := by
  induction code generalizing base with
  | nil => trivial
  | cons first rest ih =>
      obtain ⟨a, b, c⟩ := first
      obtain ⟨hbounds, ⟨ha, hb, hc⟩, hrest⟩ := h
      -- the cells of the first instruction belong to the block
      have hfirst : ∀ address, base ≤ address → address < base + 3 →
          s'.cell address = s.cell address := by
        intro address hlow hhigh
        apply hcell
        unfold Outside
        rw [List.length_cons, Nat.cast_succ]
        omega
      -- the rest of the block is a block of its own, three cells further on
      refine ⟨by rwa [hsize], ⟨?_, ?_, ?_⟩, ih hrest fun address haddress => ?_⟩
      · rw [hfirst _ (by omega) (by omega), ha]
      · rw [hfirst _ (by omega) (by omega), hb]
      · rw [hfirst _ (by omega) (by omega), hc]
      · exact hcell address fun houtside => haddress houtside.tail

/-! ## Running code -/

/-- A number of instructions takes the machine to a program counter and to contents of its cells. -/
structure Leads (width : Width) (n : Nat) (s s' : State) (pc : Int) (cells : Int → Int) : Prop where
  advances : Advances width n s s'
  size_eq : s'.memory.size = s.memory.size
  pc_eq : s'.pc = pc
  cell_eq : s'.cell = cells

namespace Leads

variable {m n : Nat} {pc' : Int} {cells cells' : Int → Int}

/-- Blocks that are executed one after the other add up. -/
theorem trans (h : Leads width m s s' pc cells) (h' : Leads width n s' s'' pc' cells') :
    Leads width (m + n) s s'' pc' cells' :=
  ⟨h.advances.trans h'.advances, h'.size_eq.trans h.size_eq, h'.pc_eq, h'.cell_eq⟩

/-- Execution does not change the size of memory. -/
theorem inMemory (h : Leads width n s s' pc cells) (ha : s.InMemory a) : s'.InMemory a := by
  rwa [InMemory, h.size_eq]

/-- A subtraction from a cell outside leaves code in its place. -/
theorem holds (h : Leads width n s s' pc (subtract width s.cell a b)) (hcode : s.Holds base code)
    (hb : Outside base code.length b) : s'.Holds base code := by
  refine hcode.congr h.size_eq fun address haddress => ?_
  have hne : address ≠ b := fun heq => haddress (heq ▸ hb)
  rw [h.cell_eq, subtract, Function.update_of_ne hne]

end Leads

/-- The first instruction of a block. -/
theorem Holds.step (h : s.Holds base ((a, b, c) :: rest)) (width : Width) (hpc : s.pc = base)
    (ha : s.InMemory a) (hb : s.InMemory b) :
    Leads width 1 s (s.execute width)
      (if subtract width s.cell a b b ≤ 0 then c else base + 3) (subtract width s.cell a b) := by
  obtain ⟨hbounds, ⟨ha_eq, hb_eq, hc_eq⟩, -⟩ := h
  subst hpc
  have hexecutable : s.Executable a b c := ⟨hbounds.1, hbounds.2, ha_eq, hb_eq, hc_eq, ha, hb⟩
  rw [subtract_apply]
  refine ⟨hexecutable.advances width, s.size_execute width, hexecutable.pc_execute width, ?_⟩
  funext address
  rw [hexecutable.cell_execute, subtract, Function.update_apply]

/-- An instruction that subtracts a cell from itself always jumps. -/
theorem Holds.clear (h : s.Holds base ((a, a, c) :: rest)) (width : Width) (hpc : s.pc = base)
    (ha : s.InMemory a) :
    Leads width 1 s (s.execute width) c (Function.update s.cell a 0) := by
  have hstep := h.step width hpc ha ha
  rwa [subtract_self, Function.update_self, if_pos le_rfl] at hstep

/-- An instruction that goes on at the next one whatever its result is. -/
theorem Holds.step_next (h : s.Holds base ((a, b, c) :: rest)) (width : Width)
    (hnext : c = base + 3) (hpc : s.pc = base) (ha : s.InMemory a) (hb : s.InMemory b) :
    Leads width 1 s (s.execute width) (base + 3) (subtract width s.cell a b) := by
  have hstep := h.step width hpc ha hb
  rwa [hnext, ite_self] at hstep

/-- Instructions that go on one at the other make all their subtractions. -/
theorem Holds.run (h : s.Holds base code) (width : Width) (hlinked : Linked base code)
    (hpc : s.pc = base)
    (hmemory : ∀ instruction ∈ code, s.InMemory instruction.1 ∧ s.InMemory instruction.2.1)
    (houtside : ∀ instruction ∈ code, Outside base code.length instruction.2.1) :
    ∃ s', Leads width code.length s s' (base + 3 * code.length)
      (subtractAll width s.cell code) := by
  induction code generalizing base s with
  | nil => exact ⟨s, rfl, rfl, by simp [hpc], rfl⟩
  | cons first rest ih =>
      obtain ⟨a, b, c⟩ := first
      obtain ⟨rfl, hlinked⟩ := hlinked
      obtain ⟨ha, hb⟩ := hmemory (a, b, base + 3) List.mem_cons_self
      -- the first instruction writes outside of the block, so the rest is still there
      have hstep := h.step_next width rfl hpc ha hb
      have hrest : (s.execute width).Holds (base + 3) rest :=
        hstep.holds h.2.2 (houtside _ List.mem_cons_self).tail
      obtain ⟨s', hleads⟩ := ih hrest hlinked hstep.pc_eq
        (fun instruction hmem =>
          have hnamed := hmemory instruction (List.mem_cons_of_mem _ hmem)
          ⟨hstep.inMemory hnamed.1, hstep.inMemory hnamed.2⟩)
        (fun instruction hmem => (houtside instruction (List.mem_cons_of_mem _ hmem)).tail)
      refine ⟨s', ?_⟩
      -- the effects are composed in the order of execution
      have hlast := hstep.trans hleads
      rw [hstep.cell_eq, add_comm 1] at hlast
      rw [List.length_cons, Nat.cast_succ, mul_add, mul_one, add_comm (3 * _) 3, ← add_assoc]
      exact hlast

end State

end Machine

/-! ## Triples in memory -/

/-- The cell that a slot stands for, in a table in which the pool and the temp fields have places. -/
def Slot.At (placed : SymbolTable) (slot : Slot) (address : Int) : Prop :=
  Yields slot.resolve placed address placed

instance (placed : SymbolTable) (slot : Slot) (address : Int) : Decidable (slot.At placed address) :=
  inferInstanceAs (Decidable (Yields _ _ _ _))

namespace Slot

variable {placed : SymbolTable} {slot : Slot} {x y : Int}

/-- A slot is placed at one address at most. -/
theorem At.unique (h : slot.At placed x) (h' : slot.At placed y) : x = y := (Yields.unique h h').1

@[simp]
theorem at_address : (Slot.address x).At placed y ↔ x = y := by
  rw [At, resolve, yields_pure, and_iff_left rfl]

/-- The cells that the slots of a triple stand for. -/
structure AllAt (placed : SymbolTable) (slots : Slot × Slot × Slot) (cells : Int × Int × Int) :
    Prop where
  a : slots.1.At placed cells.1
  b : slots.2.1.At placed cells.2.1
  c : slots.2.2.At placed cells.2.2

/-- Three slots that are placed one by one are placed together. -/
theorem allAt_of_at {a b c : Slot} {x y z : Int} (ha : a.At placed x) (hb : b.At placed y)
    (hc : c.At placed z) : AllAt placed (a, b, c) (x, y, z) := ⟨ha, hb, hc⟩

/-- Three slots are placed in one way at most. -/
theorem AllAt.unique {slots : Slot × Slot × Slot} {cells cells' : Int × Int × Int}
    (h : AllAt placed slots cells) (h' : AllAt placed slots cells') : cells = cells' :=
  Prod.ext (h.a.unique h'.a) (Prod.ext (h.b.unique h'.b) (h.c.unique h'.c))

/-- Triples stand for one block of code. -/
theorem code_unique {slots : List (Slot × Slot × Slot)} {code code' : List (Int × Int × Int)}
    (h : List.Forall₂ (AllAt placed) slots code) (h' : List.Forall₂ (AllAt placed) slots code') :
    code = code' := by
  induction h generalizing code' with
  | nil => exact (List.forall₂_nil_left_iff.mp h').symm
  | cons hfirst _ ih =>
      obtain _ | ⟨hfirst', hrest'⟩ := h'
      rw [hfirst.unique hfirst', ih hrest']

/-- Every triple of placed code has its cells. -/
theorem exists_allAt_of_mem {slots : List (Slot × Slot × Slot)} {code : List (Int × Int × Int)}
    {triple : Slot × Slot × Slot} (h : List.Forall₂ (AllAt placed) slots code)
    (hmem : triple ∈ slots) : ∃ cells, AllAt placed triple cells := by
  induction h with
  | nil => cases hmem
  | cons hfirst _ ih =>
      rcases List.mem_cons.mp hmem with rfl | hmem
      · exact ⟨_, hfirst⟩
      · exact ih hmem

end Slot

/-- A machine holds a triple in its place: each of the three cells there holds what its slot stands
for. -/
structure Triple.HeldBy (placed : SymbolTable) (s : Machine.State) (triple : Triple) : Prop where
  bounds : 0 ≤ triple.address ∧ triple.address + tripleSize ≤ s.memory.size
  a : triple.a.At placed (s.cell triple.address)
  b : triple.b.At placed (s.cell (triple.address + 1))
  c : triple.c.At placed (s.cell (triple.address + 2))

instance (placed : SymbolTable) (s : Machine.State) (triple : Triple) :
    Decidable (triple.HeldBy placed s) :=
  decidable_of_iff ((0 ≤ triple.address ∧ triple.address + tripleSize ≤ s.memory.size) ∧
      triple.a.At placed (s.cell triple.address) ∧
      triple.b.At placed (s.cell (triple.address + 1)) ∧
      triple.c.At placed (s.cell (triple.address + 2)))
    ⟨fun h => ⟨h.1, h.2.1, h.2.2.1, h.2.2.2⟩, fun h => ⟨h.bounds, h.a, h.b, h.c⟩⟩

namespace Operation

variable {placed table table' : SymbolTable} {s : Machine.State} {base : Int}

/-- Triples that memory holds, counted from some index on, are code that it holds there. -/
theorem holds_of_number {index : Nat} {slots : List (Slot × Slot × Slot)}
    (h : ∀ triple ∈ number base index slots, triple.HeldBy placed s) :
    ∃ code, List.Forall₂ (Slot.AllAt placed) slots code ∧
      s.Holds (base + tripleSize * index) code := by
  induction slots generalizing index with
  | nil => exact ⟨[], .nil, trivial⟩
  | cons first rest ih =>
      obtain ⟨a, b, c⟩ := first
      have hfirst := h _ List.mem_cons_self
      obtain ⟨code, hslots, hcode⟩ := ih fun triple hmem => h triple (List.mem_cons_of_mem _ hmem)
      refine ⟨(_, _, _) :: code, .cons ⟨hfirst.a, hfirst.b, hfirst.c⟩ hslots, hfirst.bounds,
        ⟨rfl, rfl, rfl⟩, ?_⟩
      rw [Nat.cast_succ, mul_add, mul_one, ← add_assoc] at hcode
      exact hcode

/-- A machine that holds the triples of an expansion holds a block of code. -/
theorem holds_of_expand {op : Operation} {location : Location} {triples : List Triple}
    (hexpand : Yields (op.expand base location) table triples table')
    (hheld : ∀ triple ∈ triples, triple.HeldBy placed s) :
    ∃ slots code last, Yields (op.slots base location) table slots last ∧
      List.Forall₂ (Slot.AllAt placed) slots code ∧ s.Holds base code := by
  simp only [expand, yields_bind, yields_pure] at hexpand
  obtain ⟨slots, last, hslots, _, _, -, rfl, -⟩ := hexpand
  obtain ⟨code, hcells, hcode⟩ := holds_of_number hheld
  rw [Nat.cast_zero, mul_zero, add_zero] at hcode
  exact ⟨slots, code, last, hslots, hcells, hcode⟩

end Operation

end Subleq
