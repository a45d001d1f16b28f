import Mathlib
import Subleq.Machine

/-!
# Runs of the machine

`Machine.State.Advances` says that a state leads to another one in a given number of instructions,
each of which could be executed.  Such runs can be put together, and a machine that is given their
length as its budget makes exactly them (`Machine.run_of_advances`).

What one instruction does is said through the contents of cells: `Executable` names the three cells
of the next instruction, and the lemmas about it say which cell changes and where the machine goes
on.
-/

namespace Subleq.Machine

namespace State

variable {width : Width} {s s' s'' : State}

/-! ## Sequences of instructions -/

/-- The second state is reached from the first in `n` instructions. -/
def Advances (width : Width) : (n : Nat) → (s s' : State) → Prop
  | 0, s, s' => s' = s
  | n + 1, s, s' => s.obstacle? = none ∧ Advances width n (s.execute width) s'

namespace Advances

variable {m n : Nat}

/-- Executions one after the other are one. -/
theorem trans (h : Advances width m s s') (h' : Advances width n s' s'') :
    Advances width (m + n) s s'' := by
  induction m generalizing s with
  | zero =>
      obtain rfl := h
      rwa [Nat.zero_add]
  | succ m ih =>
      rw [Nat.add_right_comm]
      exact ⟨h.1, ih h.2⟩

/-- Every instruction is counted. -/
theorem steps_eq (h : Advances width n s s') : s'.steps = s.steps + n := by
  induction n generalizing s with
  | zero => rw [h, Nat.add_zero]
  | succ n ih =>
      rw [ih h.2]
      show s.steps + 1 + n = s.steps + (n + 1)
      omega

/-- A run without breakpoints whose budget is the length of a sequence makes that sequence. -/
theorem run_eq (h : Advances width n s s') (first : Bool) :
    s.run width Breakpoints.none n first = (s', .stepLimit) := by
  induction n generalizing s first with
  | zero =>
      obtain rfl := h
      rfl
  | succ n ih =>
      have hbreak : (!first && Breakpoints.none.breaksAt s.pc) = false := by
        rw [Bool.and_eq_false_iff]
        exact .inr rfl
      rw [run, hbreak, h.1]
      exact ih h.2 false

end Advances

/-! ## One instruction -/

/-- Storing does not change the size of memory. -/
theorem size_store (s : State) (address value : Int) :
    (s.store address value).memory.size = s.memory.size :=
  Array.size_setIfInBounds

theorem size_execute (s : State) (width : Width) :
    (s.execute width).memory.size = s.memory.size := size_store _ _ _

/-- Storing changes one cell. -/
theorem cell_store {address : Int} (h : s.InMemory address) (value other : Int) :
    (s.store address value).cell other = if other = address then value else s.cell other := by
  obtain ⟨hlow, hhigh⟩ := h
  have hbound : address.toNat < s.memory.size := by omega
  by_cases hneg : other < 0
  · rw [cell, cell, if_pos hneg, if_pos hneg, if_neg (by omega)]
  · rw [cell, cell, if_neg hneg, if_neg hneg]
    show (s.memory.setIfInBounds address.toNat value).getD other.toNat 0 = _
    rw [Array.getD_eq_getD_getElem?, Array.getD_eq_getD_getElem?, Array.getElem?_setIfInBounds]
    by_cases heq : other = address
    · subst heq
      rw [if_pos rfl, if_pos rfl, if_pos hbound]
      rfl
    · rw [if_neg heq, if_neg (by omega)]

/-- The next instruction has the cells `a`, `b` and `c`, and can be executed. -/
structure Executable (s : State) (a b c : Int) : Prop where
  pc_nonneg : 0 ≤ s.pc
  pc_le : s.pc + 3 ≤ s.memory.size
  a_eq : s.cell s.pc = a
  b_eq : s.cell (s.pc + 1) = b
  c_eq : s.cell (s.pc + 2) = c
  a_mem : s.InMemory a
  b_mem : s.InMemory b

namespace Executable

variable {a b c : Int}

/-- An executable instruction can be executed. -/
theorem advances (h : s.Executable a b c) (width : Width) :
    Advances width 1 s (s.execute width) := by
  refine ⟨?_, rfl⟩
  have hpc := h.pc_nonneg
  have hend := h.pc_le
  rw [obstacle?, if_neg (by omega), if_neg (by omega), h.a_eq, h.b_eq,
    if_neg (not_not.mpr h.a_mem), if_neg (not_not.mpr h.b_mem)]

/-- The result is the difference, wrapped. -/
theorem result_eq (h : s.Executable a b c) (width : Width) :
    s.result width = width.wrap (s.cell b - s.cell a) := by
  rw [result, destination, h.a_eq, h.b_eq]

/-- An instruction changes the cell that it subtracts from, and no other. -/
theorem cell_execute (h : s.Executable a b c) (width : Width) (address : Int) :
    (s.execute width).cell address =
      if address = b then width.wrap (s.cell b - s.cell a) else s.cell address := by
  have hdestination : s.destination = b := h.b_eq
  rw [execute, h.result_eq, hdestination, cell_store h.b_mem]

/-- It jumps if the result is not above zero. -/
theorem pc_execute (h : s.Executable a b c) (width : Width) :
    (s.execute width).pc = if width.wrap (s.cell b - s.cell a) ≤ 0 then c else s.pc + 3 := by
  show (if s.result width ≤ 0 then s.cell (s.pc + 2) else s.pc + 3) = _
  rw [h.result_eq, h.c_eq]

end Executable

/-- What nothing keeps from being executed has cells inside of memory. -/
theorem executable_of_obstacle? (h : s.obstacle? = none) :
    s.Executable (s.cell s.pc) (s.cell (s.pc + 1)) (s.cell (s.pc + 2)) := by
  rw [obstacle?] at h
  split_ifs at h with hlow hend ha hb
  exact ⟨by omega, by omega, rfl, rfl, rfl, ha, hb⟩

/-! ## Runs that are one instruction longer -/

/-- A run without breakpoints with one more step in its budget executes one more instruction, if
there is one that can be executed. -/
theorem run_succ (n : Nat) (first : Bool) :
    (s.run width Breakpoints.none (n + 1) first).1 =
      let last := (s.run width Breakpoints.none n first).1
      if last.obstacle? = none then last.execute width else last := by
  -- without break points the first step does not differ from the others
  have hrun : ∀ (s : State) (n : Nat) (first : Bool),
      (s.run width Breakpoints.none (n + 1) first).1 = if s.obstacle? = none
        then ((s.execute width).run width Breakpoints.none n false).1 else s := by
    intro s n first
    have hbreak : (!first && Breakpoints.none.breaksAt s.pc) = false := by
      rw [Bool.and_eq_false_iff]
      exact .inr rfl
    rw [run, hbreak]
    cases hobstacle : s.obstacle? with
    | none => rfl
    | some _ => rfl
  -- the last step of a run is the first one of what is left after the others
  induction n generalizing s first with
  | zero => exact hrun s 0 first
  | succ n ih =>
      rw [hrun s (n + 1), hrun s n]
      by_cases hobstacle : s.obstacle? = none
      · rw [if_pos hobstacle, if_pos hobstacle]
        exact ih false
      · simp only [if_neg hobstacle]

end State

/-- A machine that has not halted and has no breakpoints comes to the state that its run ends in. -/
theorem state_run {machine : Machine} (hhalt : machine.halt = none)
    (hpoints : machine.points = Breakpoints.none) (n : Nat) :
    (machine.run n).1.state = (machine.state.run machine.width Breakpoints.none n true).1 := by
  rw [run, hhalt, hpoints]
  show (machine.stop _ (State.run ..).2).1.state = _
  cases (State.run machine.width Breakpoints.none n true machine.state).2 <;> rfl

/-- One more step in the budget of a machine executes one more instruction, if it can. -/
theorem state_run_succ {machine : Machine} (hhalt : machine.halt = none)
    (hpoints : machine.points = Breakpoints.none) (n : Nat) :
    (machine.run (n + 1)).1.state =
      if (machine.run n).1.state.obstacle? = none
      then (machine.run n).1.state.execute machine.width else (machine.run n).1.state := by
  rw [state_run hhalt hpoints, state_run hhalt hpoints]
  exact State.run_succ n true

/-- A machine that has not halted and has no breakpoints makes as many instructions as its budget
says, if it can. -/
theorem run_of_advances {machine : Machine} {n : Nat} {state : State}
    (hhalt : machine.halt = none) (hpoints : machine.points = Breakpoints.none)
    (h : State.Advances machine.width n machine.state state) :
    (machine.run n).1.state = state := by
  rw [run, hhalt, hpoints]
  simp only [h.run_eq]
  rfl

end Subleq.Machine

namespace Subleq.Image

/-! ## Loading -/

/-- The state of a machine that has loaded an image. -/
def loaded (image : Image) : Machine.State := ⟨image.cells.toArray, image.entry, 0⟩

theorem size_loaded (image : Image) : image.loaded.memory.size = image.cells.length := rfl

theorem cell_loaded {image : Image} {address : Nat} {value : Int}
    (h : image.cells[address]? = some value) : image.loaded.cell address = value := by
  rw [Machine.State.cell, if_neg (by omega), Int.toNat_natCast, loaded,
    Array.getD_eq_getD_getElem?, List.getElem?_toArray, h, Option.getD_some]

end Subleq.Image
