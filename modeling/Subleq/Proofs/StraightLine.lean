import Subleq.Proofs.Blocks
import Subleq.Proofs.Simulation

/-!
# Operations without branches

What a macro other than the comparison does at run time, for all contents of the cells and of
`$t`, and for all ways in which its operands may name the same cell.  `Straight` is such an operation
on cells, and `Straight.effect` its effect.  Every instruction of its code goes on at the next one
whatever the sign of its result is, so the code subtracts from one cell after the other
(`Straight.leads`).

`Operation.LowersTo` says which operation on cells an operation of the source comes to, by the same
evaluation of operands as in the second pass, and `Operation.expand_leads` is the effect of the
triples that the second pass makes of it.
-/

namespace Subleq

open Folding
open Machine (State Outside Linked subtract subtractAll)

/-! ## Operations on cells -/

/-- An operation without branches, with the cells that its operands stand for. -/
inductive Straight
  | sub (dst src : Int)
  | mov (dst src : Int)
  | addC (dst literal addend : Int)
  | addR (dst src : Int)
  | jmp (target : Int)
  | hlt (literal : Int)
deriving DecidableEq, Repr

namespace Straight

/-- The instructions that add a cell to another one by way of the cell `t`. -/
def addition (t base dst src : Int) : List (Int × Int × Int) :=
  [(src, t, base + 3), (t, dst, base + 6), (t, t, base + 9)]

/-- The instructions of an operation at `base`, where `t` is the cell of `$t`. -/
def code (t base : Int) : Straight → List (Int × Int × Int)
  | sub dst src => [(src, dst, base + 3)]
  | mov dst src => (dst, dst, base + 3) :: addition t (base + 3) dst src
  | addC dst literal _ => [(literal, dst, base + 3)]
  | addR dst src => addition t base dst src
  | jmp target => [(t, t, target)]
  | hlt literal => [(literal, literal, Operation.haltTarget)]

def triples : Straight → Nat
  | sub _ _ | addC _ _ _ | jmp _ | hlt _ => 1
  | addR _ _ => 3
  | mov _ _ => 4

/-- Where the machine goes on after it. -/
def next (base : Int) : Straight → Int
  | jmp target => target
  | hlt _ => Operation.haltTarget
  | op => base + 3 * op.triples

/-- The contents of the cells after it. -/
def effect (width : Width) (t : Int) (cells : Int → Int) : Straight → Int → Int
  | sub dst src => Function.update cells dst (width.wrap (cells dst - cells src))
  | mov dst src =>
      Function.update
        (Function.update cells dst
          (width.wrap ((if src = dst then 0 else cells src) - cells t))) t 0
  | addC dst _ addend => Function.update cells dst (width.wrap (cells dst + addend))
  | addR dst src =>
      Function.update
        (Function.update cells dst (width.wrap (cells dst + cells src - cells t))) t 0
  | jmp _ => Function.update cells t 0
  | hlt literal => Function.update cells literal 0

/-- The cells that its instructions name. -/
def named (t : Int) : Straight → List Int
  | sub dst src => [dst, src]
  | mov dst src | addR dst src => [dst, src, t]
  | addC dst literal _ => [dst, literal]
  | jmp _ => [t]
  | hlt literal => [literal]

/-- The cells that it writes to. -/
def written (t : Int) : Straight → List Int
  | sub dst _ | addC dst _ _ => [dst]
  | mov dst _ | addR dst _ => [dst, t]
  | jmp _ => [t]
  | hlt literal => [literal]

/-- A sum that goes by way of `$t` is not put there. -/
def SparesTemp (t : Int) : Straight → Prop
  | mov dst _ | addR dst _ => dst ≠ t
  | _ => True

/-- The literal that is subtracted is still the negative of what is to be added. -/
def HasLiteral (width : Width) (cells : Int → Int) : Straight → Prop
  | addC _ literal addend => cells literal = width.wrap (-addend)
  | _ => True

/-- What an operation at `base` needs: cells that are inside of memory, of which those that it writes
to are not among those of its own instructions. -/
structure Ready (width : Width) (t base : Int) (s : State) (op : Straight) : Prop where
  named : ∀ address ∈ op.named t, s.InMemory address
  written : ∀ address ∈ op.written t, Outside base op.triples address
  sparesTemp : op.SparesTemp t
  hasLiteral : op.HasLiteral width s.cell

variable {width : Width} {t base dst src : Int} {s : State} {cells : Int → Int}

/-! ## Effects -/

/-- The negative of the source, less what was in `$t` before, is subtracted from the destination. -/
theorem subtractAll_addition (base : Int) (hne : dst ≠ t) :
    subtractAll width cells (addition t base dst src) =
      Function.update
        (Function.update cells dst (width.wrap (cells dst + cells src - cells t))) t 0 := by
  show subtract width (subtract width (subtract width cells src t) t dst) t t = _
  have hresult : (subtract width cells src t) dst - (cells t - cells src) =
      cells dst + cells src - cells t := by
    rw [subtract, Function.update_of_ne hne]
    omega
  rw [Machine.subtract_self]
  nth_rewrite 1 [subtract]
  rw [Machine.subtract_apply, Width.wrap_sub_wrap, hresult, subtract,
    Function.update_comm hne.symm, Function.update_idem]

/-- A move is an addition to a cell that has been cleared. -/
theorem subtractAll_move (base : Int) (hne : dst ≠ t) :
    subtractAll width cells ((mov dst src).code t base) = (mov dst src).effect width t cells := by
  show subtractAll width (subtract width cells dst dst) (addition t (base + 3) dst src) = _
  rw [Machine.subtract_self, subtractAll_addition _ hne, Function.update_self,
    Function.update_of_ne hne.symm, Function.update_apply, Function.update_idem, zero_add]
  rfl

/-- With nothing left in `$t`, a move is a copy, unless it is one to the cell itself. -/
theorem effect_move (hne : dst ≠ t) (hzero : cells t = 0) (hfits : width.Fits (cells src)) :
    (mov dst src).effect width t cells =
      Function.update cells dst (if src = dst then 0 else cells src) := by
  have hvalue : width.wrap (if src = dst then 0 else cells src) =
      if src = dst then 0 else cells src := by
    split
    · exact Width.wrap_zero
    · exact Width.wrap_of_fits hfits
  have htemp : Function.update cells t 0 = cells := by rw [← hzero, Function.update_eq_self]
  rw [effect, hzero, sub_zero, hvalue, Function.update_comm hne, htemp]

/-- An operation has as many triples as it says. -/
theorem length_code (op : Straight) : (op.code t base).length = op.triples := by cases op <;> rfl

/-- The instructions name the cells that are named and write to those that are written. -/
theorem mem_of_mem_code (op : Straight) {instruction : Int × Int × Int}
    (h : instruction ∈ op.code t base) :
    instruction.1 ∈ op.named t ∧ instruction.2.1 ∈ op.named t ∧ instruction.2.1 ∈ op.written t := by
  cases op with
  | sub _ _ | addC _ _ _ | jmp _ | hlt _ =>
      obtain rfl := List.mem_singleton.mp h
      simp [named, written]
  | addR _ _ | mov _ _ =>
      simp only [code, addition, List.mem_cons, List.not_mem_nil, or_false] at h
      rcases h with rfl | rfl | rfl | rfl <;> simp [named, written]

/-- Instructions of which each goes on at the next one make all their subtractions. -/
theorem leads_of_linked (op : Straight) (h : s.Holds base (op.code t base))
    (hlinked : Linked base (op.code t base)) (hpc : s.pc = base)
    (hready : op.Ready width t base s) :
    ∃ s', s.Leads width op.triples s' (base + 3 * op.triples)
      (subtractAll width s.cell (op.code t base)) := by
  have hrun := h.run width hlinked hpc
    (fun instruction hmem =>
      have hcells := op.mem_of_mem_code hmem
      ⟨hready.named _ hcells.1, hready.named _ hcells.2.1⟩)
    (fun instruction hmem => by
      rw [op.length_code]
      exact hready.written _ (op.mem_of_mem_code hmem).2.2)
  rwa [op.length_code] at hrun

/-- An operation has its effect, in as many steps as it has instructions. -/
theorem leads (op : Straight) (h : s.Holds base (op.code t base)) (hpc : s.pc = base)
    (hready : op.Ready width t base s) :
    ∃ s', s.Leads width op.triples s' (op.next base) (op.effect width t s.cell) := by
  -- a jump clears a cell; everything else runs through to its end
  cases op with
  | jmp target => exact ⟨_, h.clear width hpc (hready.named t (by simp [named]))⟩
  | hlt literal => exact ⟨_, h.clear width hpc (hready.named literal (by simp [named]))⟩
  | sub dst src => exact leads_of_linked _ h ⟨rfl, trivial⟩ hpc hready
  | addC dst literal addend =>
      obtain ⟨s', hleads⟩ := leads_of_linked _ h ⟨rfl, trivial⟩ hpc hready
      -- the pool holds the negated number, so subtracting it adds the number
      have hliteral : s.cell literal = width.wrap (-addend) := hready.hasLiteral
      have heffect : subtractAll width s.cell ((addC dst literal addend).code t base) =
          (addC dst literal addend).effect width t s.cell := by
        show subtract width s.cell literal dst = Function.update s.cell dst _
        rw [subtract, hliteral, Width.wrap_sub_wrap, sub_neg_eq_add]
      exact ⟨s', heffect ▸ hleads⟩
  | addR dst src =>
      have hlinked : Linked base ((addR dst src).code t base) := ⟨rfl, by omega, by omega, trivial⟩
      obtain ⟨s', hleads⟩ := leads_of_linked _ h hlinked hpc hready
      have heffect : subtractAll width s.cell ((addR dst src).code t base) =
          (addR dst src).effect width t s.cell := subtractAll_addition base hready.sparesTemp
      exact ⟨s', heffect ▸ hleads⟩
  | mov dst src =>
      have hlinked : Linked base ((mov dst src).code t base) :=
        ⟨rfl, by omega, by omega, by omega, trivial⟩
      obtain ⟨s', hleads⟩ := leads_of_linked _ h hlinked hpc hready
      exact ⟨s', subtractAll_move base hready.sparesTemp ▸ hleads⟩

end Straight

/-- What can be found out about a program by assembling and loading it. -/
theorem Machine.exists_loaded {source : String} {P : Image → Machine → Prop}
    [∀ image machine, Decidable (P image machine)]
    (h : ((assemble {} [] source "<input>").toOption.any fun image =>
      (Machine.build (.ofImage image) none none none).toOption.any fun machine =>
        decide (P image machine)) = true) :
    ∃ image machine, assemble {} [] source "<input>" = .ok image ∧
      Machine.build (.ofImage image) none none none = .ok machine ∧ P image machine := by
  obtain ⟨image, himage, h⟩ := (Option.any_eq_true _ _).mp h
  obtain ⟨machine, hmachine, h⟩ := (Option.any_eq_true _ _).mp h
  exact ⟨image, machine, eq_ok_of_toOption himage, eq_ok_of_toOption hmachine, of_decide_eq_true h⟩

/-! ## Operations of the source -/

namespace Operand

/-- The cells of a destination and of a source, which are evaluated in this order. -/
def Cells (table placed : SymbolTable) (here : Int) (dst src : Operand) (a b : Int) : Prop :=
  ∃ slot slot' table₁ table₂,
    Yields (dst.lowerWrite here) table slot table₁ ∧ slot.At placed a ∧
    Yields (src.lowerRead here) table₁ slot' table₂ ∧ slot'.At placed b

/-- An operation has one pair of cells only. -/
theorem Cells.unique {table placed : SymbolTable} {here : Int} {dst src : Operand} {a b a' b' : Int}
    (h : dst.Cells table placed here src a b) (h' : dst.Cells table placed here src a' b') :
    a = a' ∧ b = b' := by
  obtain ⟨slot, slot', _, _, hdst, ha, hsrc, hb⟩ := h
  obtain ⟨_, _, _, _, hdst', ha', hsrc', hb'⟩ := h'
  obtain ⟨rfl, rfl⟩ := hdst.unique hdst'
  obtain ⟨rfl, rfl⟩ := hsrc.unique hsrc'
  exact ⟨ha.unique ha', hb.unique hb'⟩

/-- The cell of a destination, the value that is added to it, and the cell of the literal for that,
which is the negative. -/
def Addend (table placed : SymbolTable) (here : Int) (dst addend : Operand)
    (a literal value : Int) : Prop :=
  ∃ slot table₁ table₂,
    Yields (dst.lowerWrite here) table slot table₁ ∧ slot.At placed a ∧
    Yields (addend.lowerAddend here) table₁ value table₂ ∧
    (Slot.literal (table.arith.width.wrap (-value))).At placed literal

end Operand

namespace Operation

/-- Whether an operation is a macro without branches. -/
def isStraight : Operation → Bool
  | subleq _ _ _ | je _ _ _ => false
  | _ => true

/-- The operation on cells that an operation comes to.  Its operands are evaluated in `table`, with
`here` as the value of `$`, and the pool and the temp fields have their places in `placed`. -/
inductive LowersTo (table placed : SymbolTable) (here : Int) : Operation → Straight → Prop
  | sub {dst src : Operand} {a b : Int} (h : dst.Cells table placed here src a b) :
      LowersTo table placed here (.sub dst src) (.sub a b)
  | mov {dst src : Operand} {a b : Int} (h : dst.Cells table placed here src a b) :
      LowersTo table placed here (.mov dst src) (.mov a b)
  | addR {dst src : Operand} {a b : Int} (h : dst.Cells table placed here src a b) :
      LowersTo table placed here (.addR dst src) (.addR a b)
  | addC {dst addend : Operand} {a literal value : Int}
      (h : dst.Addend table placed here addend a literal value) :
      LowersTo table placed here (.addC dst addend) (.addC a literal value)
  | add {dst src : Operand} {a b : Int} (hsrc : src.access.isImmediate = false)
      (h : dst.Cells table placed here src a b) :
      LowersTo table placed here (.add dst src) (.addR a b)
  | addImmediate {dst src : Operand} {a literal value : Int} (hsrc : src.access.isImmediate = true)
      (h : dst.Addend table placed here src a literal value) :
      LowersTo table placed here (.add dst src) (.addC a literal value)
  | jmp {target : Operand} {slot : Slot} {table' : SymbolTable} {c : Int}
      (h : Yields (target.lowerTarget here) table slot table') (hc : slot.At placed c) :
      LowersTo table placed here (.jmp target) (.jmp c)
  | hlt {literal : Int} (h : (Slot.literal 0).At placed literal) :
      LowersTo table placed here .hlt (.hlt literal)

variable {table table' placed : SymbolTable} {here base t : Int} {location : Location}
  {dst src : Operand} {slot slot' : Slot} {value : Int} {s : State}

/-- An operand that is read as a literal is immediate, and gives the same value as an addend. -/
theorem yields_lowerAddend (h : Yields (src.lowerRead here) table (.literal value) table') :
    src.access.isImmediate = true ∧ Yields (src.lowerAddend here) table value table' := by
  rw [Operand.lowerRead] at h
  rw [Operand.lowerAddend]
  -- only an immediate operand is lowered to a literal
  cases haccess : src.access with
  | temp field =>
      rw [haccess] at h
      obtain ⟨heq, -⟩ := yields_pure.mp h
      cases heq
  | immediate e =>
      simp only [haccess, yields_bind, yields_pure] at h ⊢
      obtain ⟨_, _, hvalue, heq, rfl⟩ := h
      cases heq
      exact ⟨rfl, hvalue⟩
  | memory e =>
      simp only [haccess, yields_bind, yields_pure] at h
      obtain ⟨_, _, -, heq, -⟩ := h
      cases heq

/-- An operand that is not read from the pool is no immediate. -/
theorem isImmediate_of_lowerRead (h : Yields (src.lowerRead here) table slot table')
    (hslot : ∀ value, slot ≠ .literal value) : src.access.isImmediate = false := by
  rw [Operand.lowerRead] at h
  cases haccess : src.access with
  | temp field => rfl
  | memory e => rfl
  | immediate e =>
      simp only [haccess, yields_bind, yields_pure] at h
      obtain ⟨value, _, -, rfl, -⟩ := h
      exact absurd rfl (hslot value)

/-- The operand to be written is lowered by the same arithmetic. -/
theorem arith_of_lowerWrite (h : Yields (dst.lowerWrite here) table slot table') :
    table'.arith = table.arith :=
  SymbolTable.arith_of_follows (dst.follows_lowerWrite (SymbolTable.simulation_arith _) here) h

theorem arith_of_lowerAddend (h : Yields (src.lowerAddend here) table value table') :
    table'.arith = table.arith :=
  SymbolTable.arith_of_follows (src.follows_lowerAddend (SymbolTable.simulation_arith _) here) h

/-- The slot of the address right after an instruction of an expansion. -/
theorem at_after {index : Nat} {x : Int} (h : x = base + 3 * (index + 1)) :
    (after base index).At placed x := by
  rw [after, Slot.at_address, h]
  rfl

/-- Three triples add one cell to another. -/
theorem allAt_addition {a b : Int} (ht : (Slot.temp .t).At placed t) (ha : slot.At placed a)
    (hb : slot'.At placed b) :
    List.Forall₂ (Slot.AllAt placed) (addSlots base slot slot') (Straight.addition t base a b) :=
  .cons (Slot.allAt_of_at hb ht (at_after (by omega))) <|
    .cons (Slot.allAt_of_at ht ha (at_after (by omega))) <|
    .cons (Slot.allAt_of_at ht ht (at_after (by omega))) .nil

/-- They have the cells that they add. -/
theorem exists_at_of_addition {code : List (Int × Int × Int)}
    (h : List.Forall₂ (Slot.AllAt placed) (addSlots base slot slot') code) :
    ∃ a b, slot.At placed a ∧ slot'.At placed b := by
  obtain ⟨first, hb, -, -⟩ := Slot.exists_allAt_of_mem h List.mem_cons_self
  obtain ⟨second, -, ha, -⟩ :=
    Slot.exists_allAt_of_mem h (List.mem_cons_of_mem _ List.mem_cons_self)
  exact ⟨second.2.1, first.1, ha, hb⟩

/-- Four triples move one cell to another. -/
theorem allAt_move {a b : Int} (ht : (Slot.temp .t).At placed t) (ha : slot.At placed a)
    (hb : slot'.At placed b) :
    List.Forall₂ (Slot.AllAt placed) (moveSlots base slot slot')
      ((Straight.mov a b).code t base) :=
  .cons (Slot.allAt_of_at ha ha (at_after (by omega))) <|
    .cons (Slot.allAt_of_at hb ht (at_after (by omega))) <|
    .cons (Slot.allAt_of_at ht ha (at_after (by omega))) <|
    .cons (Slot.allAt_of_at ht ht (at_after (by omega))) .nil

/-- Both ways of adding a compile-time value subtract its negative from the destination. -/
theorem exists_addend {slots : List (Slot × Slot × Slot)} {code : List (Int × Int × Int)}
    {table₁ table₂ last : SymbolTable} (hdst : Yields (dst.lowerWrite here) table slot table₁)
    (haddend : Yields (src.lowerAddend here) table₁ value table₂)
    (hslots : Yields (addConstantSlots base location slot value) table₂ slots last)
    (hcells : List.Forall₂ (Slot.AllAt placed) slots code) :
    ∃ a literal, dst.Addend table placed here src a literal value ∧
      List.Forall₂ (Slot.AllAt placed) slots ((Straight.addC a literal value).code t base) := by
  simp only [addConstantSlots, yields_bind, yields_get, yields_liftM, yields_pure] at hslots
  obtain ⟨_, _, ⟨rfl, rfl⟩, negated, _, ⟨hnegated, rfl⟩, rfl, -⟩ := hslots
  have hvalue := Arithmetic.eq_wrap_of_toCell hnegated
  rw [arith_of_lowerAddend haddend, arith_of_lowerWrite hdst] at hvalue
  obtain ⟨cells, hliteral, hcell, -⟩ := Slot.exists_allAt_of_mem hcells List.mem_cons_self
  refine ⟨cells.2.1, cells.1, ⟨slot, table₁, table₂, hdst, hcell, haddend, ?_⟩, ?_⟩
  · rw [← hvalue]
    exact hliteral
  · exact .cons (Slot.allAt_of_at hliteral hcell (at_after (by omega))) .nil

/-- The triples of an operation without branches stand for the code of the operation on cells that it
comes to. -/
theorem exists_straight {op : Operation} {triples : List Triple} (hop : op.isStraight = true)
    (hexpand : Yields (op.expand base location) table triples table')
    (hheld : ∀ triple ∈ triples, triple.HeldBy placed s) (ht : (Slot.temp .t).At placed t) :
    ∃ straight : Straight, op.LowersTo table placed (base + op.triples * tripleSize) straight ∧
      straight.triples = op.triples ∧ s.Holds base (straight.code t base) := by
  obtain ⟨slots, code, last, hslots, hcells, hcode⟩ := holds_of_expand hexpand hheld
  -- the slots tell the cells, and no other code stands for the same slots
  suffices h : ∃ straight : Straight,
      op.LowersTo table placed (base + op.triples * tripleSize) straight ∧
      straight.triples = op.triples ∧
      List.Forall₂ (Slot.AllAt placed) slots (straight.code t base) by
    obtain ⟨straight, hlowers, htriples, hstraight⟩ := h
    rw [Slot.code_unique hcells hstraight] at hcode
    exact ⟨straight, hlowers, htriples, hcode⟩
  cases op with
  | subleq _ _ _ | je _ _ _ => cases hop
  | hlt =>
      obtain ⟨rfl, -⟩ := yields_pure.mp hslots
      obtain ⟨cells, hliteral, -, -⟩ := Slot.exists_allAt_of_mem hcells List.mem_cons_self
      exact ⟨.hlt cells.1, .hlt hliteral, rfl,
        .cons ⟨hliteral, hliteral, Slot.at_address.mpr rfl⟩ .nil⟩
  | jmp target =>
      simp only [Operation.slots, yields_bind, yields_pure] at hslots
      obtain ⟨slot, _, htarget, rfl, -⟩ := hslots
      obtain ⟨cells, -, -, hcell⟩ := Slot.exists_allAt_of_mem hcells List.mem_cons_self
      exact ⟨.jmp cells.2.2, .jmp htarget hcell, rfl, .cons ⟨ht, ht, hcell⟩ .nil⟩
  | sub dst src =>
      simp only [Operation.slots, yields_bind, yields_pure] at hslots
      obtain ⟨slot, _, hdst, slot', _, hsrc, rfl, -⟩ := hslots
      obtain ⟨cells, hb, ha, -⟩ := Slot.exists_allAt_of_mem hcells List.mem_cons_self
      exact ⟨.sub cells.2.1 cells.1, .sub ⟨slot, slot', _, _, hdst, ha, hsrc, hb⟩, rfl,
        .cons (Slot.allAt_of_at hb ha (at_after (by omega))) .nil⟩
  | mov dst src =>
      simp only [Operation.slots, yields_bind, yields_pure] at hslots
      obtain ⟨slot, _, hdst, slot', _, hsrc, rfl, -⟩ := hslots
      obtain ⟨first, ha, -, -⟩ := Slot.exists_allAt_of_mem hcells List.mem_cons_self
      obtain ⟨second, hb, -, -⟩ :=
        Slot.exists_allAt_of_mem hcells (List.mem_cons_of_mem _ List.mem_cons_self)
      exact ⟨.mov first.1 second.1, .mov ⟨slot, slot', _, _, hdst, ha, hsrc, hb⟩, rfl,
        allAt_move ht ha hb⟩
  | addR dst src =>
      simp only [Operation.slots, yields_bind, yields_pure] at hslots
      obtain ⟨slot, _, hdst, slot', _, hsrc, rfl, -⟩ := hslots
      obtain ⟨a, b, ha, hb⟩ := exists_at_of_addition hcells
      exact ⟨.addR a b, .addR ⟨slot, slot', _, _, hdst, ha, hsrc, hb⟩, rfl,
        allAt_addition ht ha hb⟩
  | addC dst addend =>
      simp only [Operation.slots, yields_bind] at hslots
      obtain ⟨slot, _, hdst, value, _, haddend, hslots⟩ := hslots
      obtain ⟨a, literal, hlowers, hstraight⟩ := exists_addend hdst haddend hslots hcells
      exact ⟨.addC a literal value, .addC hlowers, rfl, hstraight⟩
  | add dst src =>
      simp only [Operation.slots, yields_bind] at hslots
      obtain ⟨slot, _, hdst, slot', _, hsrc, hslots⟩ := hslots
      -- a sum of a number is one triple, a sum of a cell three
      cases slot' with
      | literal value =>
          obtain ⟨himmediate, haddend⟩ := yields_lowerAddend hsrc
          obtain ⟨a, literal, hlowers, hstraight⟩ := exists_addend hdst haddend hslots hcells
          refine ⟨.addC a literal value, .addImmediate himmediate hlowers, ?_, hstraight⟩
          rw [triples_add, himmediate]
          rfl
      | address _ | temp _ =>
          have himmediate := isImmediate_of_lowerRead hsrc (by simp)
          obtain ⟨rfl, -⟩ := yields_pure.mp hslots
          obtain ⟨a, b, ha, hb⟩ := exists_at_of_addition hcells
          refine ⟨.addR a b, .add himmediate ⟨slot, _, _, _, hdst, ha, hsrc, hb⟩, ?_,
            allAt_addition ht ha hb⟩
          rw [triples_add, himmediate]
          rfl

/-- The effect of the triples of an operation without branches, for all contents of the cells and
whatever is left in `$t`: they are executed one after the other, and the cells and the program counter
are those that the effect of the operation on cells says. -/
theorem expand_leads {op : Operation} {triples : List Triple} (hop : op.isStraight = true)
    (hexpand : Yields (op.expand base location) table triples table')
    (hheld : ∀ triple ∈ triples, triple.HeldBy placed s) (hpc : s.pc = base)
    (ht : (Slot.temp .t).At placed t) :
    ∃ straight : Straight, op.LowersTo table placed (base + op.triples * tripleSize) straight ∧
      (straight.Ready table.arith.width t base s →
        ∃ s', State.Advances table.arith.width op.triples s s' ∧ s'.pc = straight.next base ∧
          s'.cell = straight.effect table.arith.width t s.cell) := by
  obtain ⟨straight, hlowers, htriples, hcode⟩ := exists_straight hop hexpand hheld ht
  refine ⟨straight, hlowers, fun hready => ?_⟩
  obtain ⟨s', hleads⟩ := straight.leads hcode hpc hready
  rw [htriples] at hleads
  exact ⟨s', hleads.advances, hleads.pc_eq, hleads.cell_eq⟩

/-- The operand for a cell. -/
def cellOperand (address : Int) : Operand := ⟨.memory (.num address none), .predefined⟩

/-- A table without names. -/
def namelessTable : SymbolTable := .empty ⟨.default, false⟩

/-- The same table after the temp fields have been given the cells from an address on. -/
def placedTable (address : Nat) : SymbolTable :=
  ((Layout.placeStorage 64).run ({ items := [], itemsEnd := address }, namelessTable)).2.2

/-- The code of the sum of the cell 9 with itself, where 7 is to be doubled and 5 is left in `$t`. -/
def doublingState : State := ⟨#[9, 10, 3, 10, 9, 6, 10, 10, 9, 7, 5, 0, 0], 0, 0⟩

theorem expand_leads_doubling :
    ∃ s', State.Advances .default 3 doublingState s' ∧ s'.pc = 9 ∧ s'.cell 9 = 9 ∧
      s'.cell 10 = 0 := by
  -- the facts about the concrete table and state are evaluated, one by one
  have hexpand : Yields ((add (cellOperand 9) (cellOperand 9)).expand 0 .predefined) namelessTable
      (number 0 0 (addSlots 0 (.address 9) (.address 9))) namelessTable := by decide +kernel
  have hheld : ∀ triple ∈ number 0 0 (addSlots 0 (.address 9) (.address 9)),
      triple.HeldBy (placedTable 10) doublingState := by decide +kernel
  have ht : (Slot.temp .t).At (placedTable 10) 10 := by decide +kernel
  have hcells : (cellOperand 9).Cells namelessTable (placedTable 10) 9 (cellOperand 9) 9 9 :=
    ⟨.address 9, .address 9, namelessTable, namelessTable, by decide +kernel⟩
  obtain ⟨straight, hlowers, heffect⟩ := expand_leads rfl hexpand hheld rfl ht
  cases hlowers with
  | addImmediate hsrc _ => cases hsrc
  | add _ h =>
      obtain ⟨rfl, rfl⟩ := h.unique hcells
      obtain ⟨s', hadvances, hpc, hcell⟩ :=
        heffect ⟨by decide, by decide, show (9 : Int) ≠ 10 by decide, trivial⟩
      refine ⟨s', hadvances, hpc, ?_, ?_⟩
      · rw [hcell]
        decide +kernel
      · rw [hcell]
        decide +kernel

/-! ## Moves -/

/-- With nothing left in `$t`, a move copies its source and leaves all other cells as they are, except
that a cell that is moved to itself is cleared. -/
theorem mov_leads {triples : List Triple}
    (hexpand : Yields ((mov dst src).expand base location) table triples table')
    (hheld : ∀ triple ∈ triples, triple.HeldBy placed s) (hpc : s.pc = base)
    (ht : (Slot.temp .t).At placed t) (hzero : s.cell t = 0) :
    ∃ a b, dst.Cells table placed (base + 4 * tripleSize) src a b ∧
      ((Straight.mov a b).Ready table.arith.width t base s → table.arith.width.Fits (s.cell b) →
        ∃ s', State.Advances table.arith.width 4 s s' ∧ s'.pc = base + 12 ∧
          s'.cell a = (if b = a then 0 else s.cell b) ∧
          ∀ address, address ≠ a → s'.cell address = s.cell address) := by
  obtain ⟨straight, hlowers, -, hcode⟩ := exists_straight rfl hexpand hheld ht
  cases hlowers with
  | @mov _ _ a b hcells =>
      refine ⟨a, b, hcells, fun hready hfits => ?_⟩
      obtain ⟨s', hleads⟩ := (Straight.mov a b).leads hcode hpc hready
      have hcell := hleads.cell_eq
      rw [Straight.effect_move hready.sparesTemp hzero hfits] at hcell
      refine ⟨s', hleads.advances, hleads.pc_eq, ?_, fun address hne => ?_⟩
      · rw [hcell, Function.update_self]
      · rw [hcell, Function.update_of_ne hne]

/-- The code of a move to the cell 12 of a cell of its own, which holds 3. -/
def selfReadState : State := ⟨#[12, 12, 3, 2, 13, 6, 13, 12, 9, 13, 13, 12, 7, 0, 0, 0], 0, 0⟩

theorem mov_leads_self_read :
    ∃ s', State.Advances .default 4 selfReadState s' ∧ s'.pc = 12 ∧ s'.cell 12 = 3 ∧
      ∀ address, address ≠ 12 → s'.cell address = selfReadState.cell address := by
  have hexpand : Yields ((mov (cellOperand 12) (cellOperand 2)).expand 0 .predefined) namelessTable
      (number 0 0 (moveSlots 0 (.address 12) (.address 2))) namelessTable := by decide +kernel
  have hheld : ∀ triple ∈ number 0 0 (moveSlots 0 (.address 12) (.address 2)),
      triple.HeldBy (placedTable 13) selfReadState := by decide +kernel
  have ht : (Slot.temp .t).At (placedTable 13) 13 := by decide +kernel
  have hcells : (cellOperand 12).Cells namelessTable (placedTable 13) 12 (cellOperand 2) 12 2 :=
    ⟨.address 12, .address 2, namelessTable, namelessTable, by decide +kernel⟩
  obtain ⟨a, b, h, heffect⟩ := mov_leads hexpand hheld rfl ht rfl
  obtain ⟨rfl, rfl⟩ := h.unique hcells
  exact heffect ⟨by decide, by decide, show (12 : Int) ≠ 13 by decide, trivial⟩ (by decide +kernel)

def selfMoveSource : String := "mov [x], [x]\nhlt\nx: dq 7\n"

/-- The cell is cleared, and what it held is lost. -/
theorem self_move_clears : ∃ image machine,
    assemble {} [] selfMoveSource "<input>" = .ok image ∧
      Machine.build (.ofImage image) none none none = .ok machine ∧
      machine.state.pc = 0 ∧ machine.state.cell 15 = 7 ∧
      OrderedMap.get? image.temps "$t" = some 17 ∧ machine.state.cell 17 = 0 ∧
      (machine.run 4).1.state.pc = 12 ∧ (machine.run 4).1.state.cell 15 = 0 :=
  Machine.exists_loaded (by decide +kernel)

end Operation

end Subleq
