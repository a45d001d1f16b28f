import Subleq.Proofs.Addresses
import Subleq.Proofs.Refinement

/-!
# Where execution starts

A machine that has loaded an image starts at address zero.  If the first operation of the program is
not there, then what is there is the jump to it, which assembly has put in front
(`Layout.NeedsJump`).  That jump is one instruction, which subtracts the scratch field from itself:
the field was zero before, so nothing but the program counter has changed when the machine comes to
the first operation (`Image.starts_at_first_operation`).
-/

namespace Subleq

namespace Machine

/-- Memories of one size with the same cells are equal. -/
theorem State.memory_ext {s s' : State} (hsize : s.memory.size = s'.memory.size)
    (hcell : ∀ address, s.cell address = s'.cell address) : s.memory = s'.memory := by
  refine Array.ext hsize fun index hlow hhigh => ?_
  have h := hcell index
  rw [cell, cell, if_neg (by omega), if_neg (by omega), Int.toNat_natCast,
    Array.getD_eq_getD_getElem?, Array.getD_eq_getD_getElem?, Array.getElem?_eq_getElem hlow,
    Array.getElem?_eq_getElem hhigh] at h
  exact h

/-- A machine that has not halted executes an instruction that can be executed. -/
theorem step_of_advances {machine : Machine} {s : State} (hhalt : machine.halt = none)
    (h : State.Advances machine.width 1 machine.state s) :
    machine.step = ({ machine with state := s }, none) := by
  obtain ⟨hobstacle, rfl⟩ := h
  unfold step
  rw [hhalt, hobstacle]

end Machine

/-- A program with an operation has a first one, and its item comes from the first operation of the
source. -/
theorem Layout.exists_first_operation {layout : Layout} {statements : List Statement}
    (hsource : layout.sourceItems.map (fun item => (item.body, item.location)) =
      Statement.items statements)
    (hcode : ∃ item ∈ Statement.items statements, item.1.isCode = true) :
    ∃ first, layout.sourceItems.find? Item.isCode = some first ∧
      (Statement.items statements).find? (·.1.isCode) = some (first.body, first.location) := by
  have hfound : ((Statement.items statements).find? (·.1.isCode)).isSome = true :=
    List.find?_isSome.mpr hcode
  rw [← hsource, List.find?_map, Option.isSome_map] at hfound
  obtain ⟨first, hfirst⟩ := Option.isSome_iff_exists.mp hfound
  refine ⟨first, hfirst, ?_⟩
  rw [← hsource, List.find?_map]
  exact congrArg (Option.map _) hfirst

namespace Assembly.Stages

open Machine

variable {config : Config} {defines : Defines} {source file : String} {image : Image}
  {S : Stages config defines source file image}

/-- A machine at an operation whose data are those of the image has the memory of the image. -/
theorem Related.memory_eq {pc : Int} {s : State} (h : S.Related ⟨pc, image.loaded.cell⟩ s) :
    s.memory = image.loaded.memory := by
  refine State.memory_ext h.size_eq fun address => ?_
  by_cases hwritable : S.Writable address
  · rcases hwritable with hdata | rfl
    · exact h.data_eq address hdata
    · rw [h.scratch_eq, loaded_scratch]
  · exact h.cell_eq address hwritable

end Assembly.Stages

namespace Image

/-- A machine that loads the image of a program with an operation is at the first operation of the
source, at address zero, or comes there by one instruction, which leaves its memory as it was. -/
theorem starts_at_first_operation {config : Config} {defines : Defines} {source file : String}
    {image : Image} {statements : List Statement}
    (h : assemble config defines source file = .ok image) (hentry : config.entryJump = true)
    (hparse : Statement.parse source file = .ok statements)
    (hcode : ∃ item ∈ Statement.items statements, item.1.isCode = true) :
    ∃ layout first machine,
      Assembly.firstPass config defines source file = .ok layout ∧
      layout.sourceItems.find? Item.isCode = some first ∧
      (Statement.items statements).find? (·.1.isCode) = some (first.body, first.location) ∧
      Machine.build (.ofImage image) none none none = .ok machine ∧
      machine.state.pc = 0 ∧ machine.state.steps = 0 ∧
      ((¬ Layout.NeedsJump config.entryJump statements ∧ machine.state.pc = first.address) ∨
        (Layout.NeedsJump config.entryJump statements ∧
          machine.step.2 = none ∧ machine.step.1.state.steps = 1 ∧
          machine.step.1.state.pc = first.address ∧
          machine.step.1.state.memory = machine.state.memory ∧
          machine.step.1.isHalted = false)) := by
  obtain ⟨S⟩ := Assembly.nonempty_stages h
  obtain rfl : S.statements = statements := Except.ok.inj (S.parse_eq.symm.trans hparse)
  obtain ⟨_, -, hplace, -, -⟩ := Layout.exists_placeItems_of_resolve S.resolve
  obtain ⟨first, hfirst, hsource⟩ :=
    Layout.exists_first_operation (Layout.placeItems_source hplace) hcode
  have hbits : Width.ofInt? image.cellBits = some S.width :=
    S.built.cellBits_eq ▸ S.ofInt?_cellBits
  -- the machine starts at zero; a jump to the first operation stands there, or the operation itself
  refine ⟨S.layout, first, _, S.firstPass_eq, hfirst, hsource,
    Machine.build_ofImage hbits S.fits_cells, S.built.entry_eq, rfl, ?_⟩
  obtain ⟨s, hadvances, hrelated⟩ := Assembly.Stages.exists_related_first hentry hfirst
  -- with a jump the machine makes one step before the two are related
  by_cases hjumps : Layout.jumps config.entryJump S.statements = true
  · right
    rw [if_pos hjumps] at hadvances
    have hsteps := hadvances.steps_eq
    rw [Machine.step_of_advances rfl hadvances]
    exact ⟨Layout.jumps_iff.mp hjumps, rfl, hsteps, hrelated.pc_eq, hrelated.memory_eq, rfl⟩
  · left
    rw [if_neg hjumps] at hadvances
    obtain rfl : s = image.loaded := hadvances
    exact ⟨fun hneeds => hjumps (Layout.jumps_iff.mpr hneeds), hrelated.pc_eq⟩

/-- The jump over the data of the sum leads to its first operation, behind the jump, the numbers and
the text. -/
theorem starts_at_first_operation_sum : ∃ image machine,
    assemble Assembly.sumConfig [("k", 7)] Assembly.sumSource "sum" = .ok image ∧
      Machine.build (.ofImage image) none none none = .ok machine ∧
      machine.state.pc = 0 ∧ machine.step.1.state.steps = 1 ∧ machine.step.1.state.pc = 7 ∧
      machine.step.1.state.memory = machine.state.memory ∧
      machine.step.1.isHalted = false := by
  obtain ⟨statements, image, layout, first, -, hparse, hjumps, h, hlayout, hfirst, -⟩ := run?_sum
  have haddress : ((Assembly.firstPass Assembly.sumConfig [("k", 7)] Assembly.sumSource
      "sum").toOption.bind (·.sourceItems.find? Item.isCode)).map Item.address = some 7 := by
    decide +kernel
  -- the first operation is evaluated to be at 7, after the jump and the data
  rw [hlayout, Except.toOption, Option.bind_some, hfirst, Option.map_some, Option.some.injEq]
    at haddress
  have hneeds := Layout.jumps_iff.mp hjumps
  obtain ⟨layout', first', machine, hlayout', hfirst', -, hbuild, hzero, -, hstart⟩ :=
    starts_at_first_operation h rfl hparse hneeds.2.2
  obtain rfl := Except.ok.inj (hlayout.symm.trans hlayout')
  obtain rfl := Option.some.inj (hfirst.symm.trans hfirst')
  rcases hstart with ⟨hno, -⟩ | ⟨-, -, hsteps, hpc, hmemory, hhalted⟩
  · exact absurd hneeds hno
  · rw [haddress] at hpc
    exact ⟨image, machine, h, hbuild, hzero, hsteps, hpc, hmemory, hhalted⟩

end Image

end Subleq
