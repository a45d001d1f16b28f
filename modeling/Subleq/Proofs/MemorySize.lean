import Subleq.Loading
import Subleq.Proofs.Folding
import Subleq.Proofs.Reachable

/-!
# Memories of different sizes

A program may compute the addresses that it uses, and change its own instructions, so that it can
find out how large its memory is.  It can do so in one way only: by an access that halts it in the
smaller memory.  As long as it has not halted there, it cannot tell a memory from one that goes on
with zeros (`Machine.State.Pads`), since a cell outside of memory counts as zero.  One instruction
keeps two such memories alike (`Machine.State.Pads.execute`), and so does every number of them
(`Machine.after?_of_pads`).
-/

namespace Subleq

namespace Machine

namespace State

variable {width : Width} {extra : Nat} {s s' : State}

/-- The second state differs from the first one in that its memory goes on with zeros. -/
structure Pads (extra : Nat) (s s' : State) : Prop where
  pc_eq : s'.pc = s.pc
  steps_eq : s'.steps = s.steps
  memory_eq : s'.memory = s.memory ++ Array.replicate extra 0

namespace Pads

/-- The larger memory has the extra cells. -/
theorem size_eq (h : Pads extra s s') : s'.memory.size = s.memory.size + extra := by
  rw [h.memory_eq, Array.size_append, Array.size_replicate]

/-- The same is in all cells, also in those that only one of the memories has. -/
theorem cell_eq (h : Pads extra s s') (address : Int) : s'.cell address = s.cell address := by
  by_cases hneg : address < 0
  · rw [cell, cell, if_pos hneg, if_pos hneg]
  · rw [cell, cell, if_neg hneg, if_neg hneg, h.memory_eq, Array.getD_eq_getD_getElem?,
      Array.getD_eq_getD_getElem?]
    by_cases hinside : address.toNat < s.memory.size
    · rw [Array.getElem?_append_left hinside]
    · rw [Array.getElem?_append_right (not_lt.mp hinside),
        Array.getElem?_eq_none (not_lt.mp hinside), Array.getElem?_replicate]
      split <;> rfl

/-- An address of the smaller memory is one of the larger. -/
theorem inMemory (h : Pads extra s s') {address : Int} (haddress : s.InMemory address) :
    s'.InMemory address := by
  have hsize := h.size_eq
  rcases haddress with ⟨hlow, hhigh⟩
  exact ⟨hlow, by omega⟩

/-- What can be executed can be executed in the larger memory. -/
theorem executable (h : Pads extra s s') {a b c : Int} (hs : s.Executable a b c) :
    s'.Executable a b c := by
  have hsize := h.size_eq
  have hend := hs.pc_le
  refine ⟨?_, ?_, ?_, ?_, ?_, h.inMemory hs.a_mem, h.inMemory hs.b_mem⟩
  · rw [h.pc_eq]
    exact hs.pc_nonneg
  · rw [h.pc_eq]
    omega
  · rw [h.pc_eq, h.cell_eq, hs.a_eq]
  · rw [h.pc_eq, h.cell_eq, hs.b_eq]
  · rw [h.pc_eq, h.cell_eq, hs.c_eq]

/-- One instruction: it writes to a cell that both memories have, and goes on at the same place. -/
theorem execute (h : Pads extra s s') {a b c : Int} (hs : s.Executable a b c) :
    Pads extra (s.execute width) (s'.execute width) := by
  have hs' := h.executable hs
  refine ⟨?_, ?_, ?_⟩
  · rw [hs'.pc_execute, hs.pc_execute, h.cell_eq, h.cell_eq, h.pc_eq]
  · show s'.steps + 1 = s.steps + 1
    rw [h.steps_eq]
  -- both machines write to the same cell, which the smaller one has as well
  · have hdestination : s.destination = b := hs.b_eq
    have hdestination' : s'.destination = b := hs'.b_eq
    have hbound : b.toNat < s.memory.size := by
      rcases hs.b_mem with ⟨hlow, hhigh⟩
      omega
    show s'.memory.setIfInBounds s'.destination.toNat (s'.result width) =
      s.memory.setIfInBounds s.destination.toNat (s.result width) ++ Array.replicate extra 0
    rw [hdestination, hdestination', hs'.result_eq, hs.result_eq, h.cell_eq, h.cell_eq, h.memory_eq,
      Array.setIfInBounds_append_left hbound]

end Pads

end State

variable {machine larger now : Machine} {extra k : Nat}

/-- Any number of instructions, as long as they can be executed in the smaller memory. -/
theorem after?_of_pads (hhalt : machine.halt = none) (hhalt' : larger.halt = none)
    (hwidth : larger.width = machine.width) (hpads : State.Pads extra machine.state larger.state)
    (h : machine.after? k = some now) :
    ∃ now', larger.after? k = some now' ∧ State.Pads extra now.state now'.state := by
  -- by induction on the steps; the larger machine makes each of them too
  induction k generalizing now with
  | zero =>
      obtain rfl := Option.some.inj h
      exact ⟨larger, rfl, hpads⟩
  | succ k ih =>
      obtain ⟨before, hbefore, hobstacle, hnow⟩ := after?_succ hhalt h
      obtain ⟨before', hbefore', hpads'⟩ := ih hbefore
      have hsame := eq_of_after? hhalt' hbefore'
      have hrunning : before'.halt = none := by rw [hsame, hhalt']
      have hwidth' : before'.width = machine.width := by rw [hsame, hwidth]
      have hexecutable := State.executable_of_obstacle? hobstacle
      have hnext := (next?_eq_some hrunning).mpr
        ⟨((hpads'.executable hexecutable).advances machine.width).1, rfl⟩
      refine ⟨_, by rw [after?, hbefore', Option.bind_some, hnext], ?_⟩
      rw [hnow]
      show State.Pads extra _ (before'.state.execute before'.width)
      rw [hwidth']
      exact hpads'.execute hexecutable

/-! ## Built machines -/

/-- To load cells into a larger memory adds zeros. -/
theorem loadCells_pads (width : Width) (cells : List Int) {size size' : Nat}
    (hsize : cells.length ≤ size) (hle : size ≤ size') :
    loadCells width cells size' =
      loadCells width cells size ++ Array.replicate (size' - size) 0 := by
  have hzeros : size' - cells.length = (size - cells.length) + (size' - size) := by omega
  rw [loadCells, loadCells, hzeros, List.replicate_add, ← List.append_assoc, ← List.append_toArray,
    List.toArray_replicate]

variable {program : Program} {memorySize cellBits entry : Option Int}

/-- Where a machine can be built, it can be built with a larger memory, which goes on with zeros. -/
theorem exists_build_larger (h : build program memorySize cellBits entry = .ok machine) {size : Int}
    (hsize : machine.memorySize ≤ size) :
    ∃ larger, build program (some size) cellBits entry = .ok larger ∧
      larger.width = machine.width ∧ machine.halt = none ∧ larger.halt = none ∧
      State.Pads (size.toNat - machine.memorySize) machine.state larger.state := by
  rw [build] at h ⊢
  cases hwidth : Width.ofInt? (chooseBits cellBits program.cellBits) with
  | none =>
      rw [hwidth] at h
      cases h
  | some width =>
      simp only [hwidth] at h
      split_ifs at h with hsmall
      obtain rfl := Except.ok.inj h
      -- the cells have room in the memory, so the loaded state has just its size
      have hcells : program.cells.length ≤ (memorySize.getD program.cells.length).toNat := by omega
      have hold : (loadCells width program.cells
          (memorySize.getD program.cells.length).toNat).size =
          (memorySize.getD program.cells.length).toNat := size_loadCells hcells
      simp only [Machine.memorySize, hold] at hsize ⊢
      have hlarge : ¬ size < program.cells.length := by omega
      simp only [Option.getD_some, if_neg hlarge]
      refine ⟨_, rfl, rfl, trivial, rfl, rfl, rfl, ?_⟩
      exact loadCells_pads width program.cells hcells (by omega)

end Machine

namespace Loading

open Folding (bind_eq_ok)

variable {program : Machine.Program} {memorySize cellBits entry : Option Int} {machine : Machine}

/-- Where there is room for a width, it depends on the memory whether there is room for a
machine. -/
theorem build_of_width {width : Width}
    (hwidth : Width.ofInt? (Machine.chooseBits cellBits program.cellBits) = some width)
    (hroom : Capacity.checkWidth (Machine.chooseBits cellBits program.cellBits) = .ok ()) :
    build program memorySize cellBits entry =
      (Capacity.checkMemory program.cells.length (memorySize.getD 0)).mapError .capacity >>=
        fun _ => (Machine.build program memorySize cellBits entry).mapError .machine := by
  rw [build, hwidth, hroom]
  rfl

/-- A machine is built with a width that there is room for. -/
theorem exists_width_of_build (h : build program memorySize cellBits entry = .ok machine) :
    Machine.build program memorySize cellBits entry = .ok machine ∧
      Capacity.checkWidth (Machine.chooseBits cellBits program.cellBits) = .ok () ∧
      ∃ width, Width.ofInt? (Machine.chooseBits cellBits program.cellBits) = some width := by
  cases hwidth : Width.ofInt? (Machine.chooseBits cellBits program.cellBits) with
  | none =>
      rw [build, Machine.build, hwidth] at h
      cases h
  | some width =>
      cases hroom : Capacity.checkWidth (Machine.chooseBits cellBits program.cellBits) with
      | error fault =>
          rw [build, hwidth, hroom] at h
          cases h
      | ok _ =>
          -- the width is looked at before the memory is
          rw [build_of_width hwidth hroom, bind_eq_ok] at h
          obtain ⟨_, -, h⟩ := h
          cases hbuild : Machine.build program memorySize cellBits entry with
          | error fault =>
              rw [hbuild] at h
              cases h
          | ok built =>
              rw [hbuild] at h
              obtain rfl := Except.ok.inj h
              exact ⟨rfl, rfl, width, rfl⟩

/-- A program cannot tell its memory from a larger one before it halts.  After any number of steps
in each of which the machine with the smaller memory has executed an instruction, so has the one
with the larger memory; it has the same program counter and the same counter of steps, and its
memory is that of the first one and goes on with zeros.  Such a machine is built for every larger
size, unless more cells than there are addresses would have to be added. -/
theorem after?_of_larger_memory (h : build program memorySize cellBits entry = .ok machine)
    {size : Int} (hsize : machine.memorySize ≤ size) :
    ∃ larger, Machine.build program (some size) cellBits entry = .ok larger ∧
      (build program (some size) cellBits entry =
        if Capacity.cellBound ≤ size - program.cells.length then .error (.capacity .cells)
        else .ok larger) ∧
      ∀ k now, machine.after? k = some now →
        ∃ now', larger.after? k = some now' ∧ now'.state.pc = now.state.pc ∧
          now'.state.steps = now.state.steps ∧
          now'.state.memory =
            now.state.memory ++ Array.replicate (size.toNat - machine.memorySize) 0 := by
  obtain ⟨hbuild, hroom, width, hwidth⟩ := exists_width_of_build h
  obtain ⟨larger, hlarger, hsame, hhalt, hhalt', hpads⟩ := Machine.exists_build_larger hbuild hsize
  refine ⟨larger, hlarger, ?_, ?_⟩
  · rw [build_of_width hwidth hroom, hlarger, Option.getD_some, Capacity.checkMemory]
    split <;> rfl
  · intro k now hnow
    obtain ⟨now', hnow', hpads'⟩ := Machine.after?_of_pads hhalt hhalt' hsame hpads hnow
    exact ⟨now', hnow', hpads'.pc_eq, hpads'.steps_eq, hpads'.memory_eq⟩

/-- The first instruction changes itself.  The second one is not wholly inside of the program, and
halts a machine without more memory. -/
def selfChanging : Machine.Program := { cells := [4, 1, 3, 5, 2] }

theorem after?_of_larger_memory_selfChanging : ∃ machine larger now now',
    build selfChanging none none none = .ok machine ∧
      build selfChanging (some 8) none none = .ok larger ∧
      machine.after? 1 = some now ∧ machine.after? 2 = none ∧
      larger.after? 1 = some now' ∧ now'.state.pc = 3 ∧ now'.state.steps = 1 ∧
      now'.state.memory = #[4, -1, 3, 5, 2] ++ Array.replicate 3 0 := by
  have hbuild : build selfChanging none none none = .ok _ := rfl
  have hsize : (5 : Int) ≤ 8 := by decide
  obtain ⟨larger, -, hlarger, h⟩ := after?_of_larger_memory hbuild hsize
  obtain ⟨now', hnow', hpc, hsteps, hmemory⟩ := h 1 _ rfl
  rw [if_neg (by decide)] at hlarger
  exact ⟨_, larger, _, now', hbuild, hlarger, rfl, rfl, hnow', hpc, hsteps, hmemory⟩

/-- There is no room for a memory of 10 ^ 30 cells. -/
theorem no_larger_memory : ∃ machine now, build selfChanging none none none = .ok machine ∧
    machine.after? 1 = some now ∧
    ∀ larger, build selfChanging (some 1000000000000000000000000000000) none none ≠ .ok larger := by
  refine ⟨_, _, rfl, rfl, fun larger => ?_⟩
  have hrefused : build selfChanging (some 1000000000000000000000000000000) none none =
      .error (.capacity .cells) := by rfl
  rw [hrefused]
  intro h
  cases h

end Loading

end Subleq
