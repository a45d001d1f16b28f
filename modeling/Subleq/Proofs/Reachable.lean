import Mathlib
import Subleq.Proofs.Cell
import Subleq.Proofs.Trace

/-!
# What always holds of a machine

A machine is stepped, run, written to, sent elsewhere, reset, and given breakpoints, in any order
(`Action`, `Machine.after`).  `Sound` is what each of these keeps.  The number of steps is compared
with the list of the states in which an instruction has been executed since the last reset
(`sinceReset`).

`intact_of_build` draws the consequences for a machine that was built from a program: what its
memory holds, what its counter counts, that a halted machine stays as it is until it is sent
elsewhere or reset, and where a reset leads.
-/

namespace Subleq

/-! ## Actions -/

/-- Changes of the breakpoints and watchpoints of a machine. -/
inductive Breakpoints.Edit
  | addBreak (address : Int)
  | removeBreak (address : Int)
  | addWatch (address : Int)
  | removeWatch (address : Int)
  | clear
deriving DecidableEq, Repr

/-- The breakpoints and watchpoints after a change. -/
def Breakpoints.edit (points : Breakpoints) : Edit → Breakpoints
  | .addBreak address => { points with breaks := points.breaks.insert address }
  | .removeBreak address => { points with breaks := points.breaks.erase address }
  | .addWatch address => { points with watches := points.watches.insert address }
  | .removeWatch address => { points with watches := points.watches.erase address }
  | .clear => .none

namespace Machine

/-- What can be done with a machine that changes it. -/
inductive Action
  | step
  | run (budget : Nat)
  | write (address value : Int)
  | setPc (pc : Int)
  | reset
  | edit (edit : Breakpoints.Edit)
deriving DecidableEq, Repr

/-- The machine after an action.  A write that is refused changes nothing. -/
def perform (machine : Machine) : Action → Machine
  | .step => machine.step.1
  | .run budget => (machine.run budget).1
  | .write address value => (machine.write address value).toOption.getD machine
  | .setPc pc => machine.setPc pc
  | .reset => machine.reset
  | .edit edit => { machine with points := machine.points.edit edit }

/-- The machine after some actions. -/
def after (machine : Machine) : (actions : List Action) → Machine
  | [] => machine
  | action :: actions => (machine.perform action).after actions

/-- The states in which an instruction has been executed since the last reset, with those of an
action.  Those before the action are in `done`. -/
def record (machine : Machine) (done : List State) : Action → List State
  | .step =>
      if machine.halt = none ∧ machine.state.obstacle? = none then done ++ [machine.state] else done
  | .run budget => done ++ machine.trace budget
  | .reset => []
  | .write .. | .setPc _ | .edit _ => done

/-- The states in which an instruction has been executed since the last reset, with those of some
actions. -/
def sinceReset (machine : Machine) (done : List State) : (actions : List Action) → List State
  | [] => done
  | action :: actions =>
      (machine.perform action).sinceReset (machine.record done action) actions

/-! ## Memory -/

namespace State

variable {width : Width} {s s' : State} {n : Nat}

/-- Every cell of memory holds a value of the width. -/
def Fits (width : Width) (s : State) : Prop := ∀ value ∈ s.memory, width.Fits value

/-- A wrapped value may be put into any cell. -/
theorem fits_setIfInBounds {memory : Array Int} (h : ∀ value ∈ memory, width.Fits value)
    (place : Nat) (value : Int) :
    ∀ held ∈ memory.setIfInBounds place (width.wrap value), width.Fits held := by
  intro held hheld
  obtain hold | rfl := Array.mem_or_eq_of_mem_setIfInBounds hheld
  · exact h held hold
  · exact width.fits_wrap value

/-- An instruction leaves values that fit. -/
theorem Fits.execute (h : s.Fits width) : (s.execute width).Fits width :=
  fits_setIfInBounds h _ _

/-- So do all instructions of an execution. -/
theorem Advances.fits (hadvances : Advances width n s s') (h : s.Fits width) : s'.Fits width := by
  induction n generalizing s with
  | zero => rwa [hadvances]
  | succ n ih => exact ih hadvances.2 h.execute

/-- None of them changes the size of memory. -/
theorem Advances.size_eq (hadvances : Advances width n s s') :
    s'.memory.size = s.memory.size := by
  induction n generalizing s with
  | zero => rw [hadvances]
  | succ n ih => rw [ih hadvances.2, size_execute]

end State

/-! ## What the actions do -/

variable {machine built : Machine} {done : List State}

/-- A machine that has halted gives the same event again. -/
theorem step_of_halted {event : StopEvent} (h : machine.halt = some event) :
    machine.step = (machine, some event) := by
  rw [step, h]

/-- A machine that cannot go on halts where it is. -/
theorem step_of_obstacle {address : Int} (h : machine.halt = none)
    (hobstacle : machine.state.obstacle? = some address) :
    machine.step = ({ machine with halt := some (haltEvent machine.state address) },
      some (haltEvent machine.state address)) := by
  rw [step, h, hobstacle]

/-- Otherwise a step executes one instruction. -/
theorem step_of_executable (h : machine.halt = none) (hobstacle : machine.state.obstacle? = none) :
    machine.step = ({ machine with state := machine.state.execute machine.width }, none) := by
  rw [step, h, hobstacle]

/-- A write changes at most one cell, to a value that it can hold. -/
theorem exists_perform_write (machine : Machine) (address value : Int) :
    ∃ memory, machine.perform (.write address value) =
        { machine with state := { machine.state with memory } } ∧
      (memory = machine.state.memory ∨
        memory = machine.state.memory.setIfInBounds address.toNat (machine.width.wrap value)) := by
  by_cases hmem : machine.state.InMemory address
  · exact ⟨_, by rw [perform, write, if_pos hmem]; rfl, .inr rfl⟩
  · exact ⟨_, by rw [perform, write, if_neg hmem]; rfl, .inl rfl⟩

/-- No action changes what the machine was built with. -/
theorem exists_perform_eq (machine : Machine) (action : Action) :
    ∃ state halt points, machine.perform action = { machine with state, halt, points } := by
  -- by cases of the action; the ones that may fail leave the machine as it is
  cases action with
  | step =>
      rw [perform]
      cases hhalt : machine.halt with
      | some event => exact ⟨_, _, _, by rw [step_of_halted hhalt]⟩
      | none =>
          cases hobstacle : machine.state.obstacle? with
          | some address => exact ⟨_, _, _, by rw [step_of_obstacle hhalt hobstacle]⟩
          | none => exact ⟨_, _, _, by rw [step_of_executable hhalt hobstacle]⟩
  | run budget =>
      obtain ⟨state, halt, last, hrun⟩ := machine.exists_run_eq budget
      exact ⟨_, _, _, hrun⟩
  | write address value =>
      obtain ⟨memory, hwrite, -⟩ := machine.exists_perform_write address value
      exact ⟨_, _, _, hwrite⟩
  | setPc | reset | edit => exact ⟨_, _, _, rfl⟩

/-- No sequence of actions changes what the machine was built with. -/
theorem exists_after_eq (machine : Machine) (actions : List Action) :
    ∃ state halt points, machine.after actions = { machine with state, halt, points } := by
  induction actions generalizing machine with
  | nil => exact ⟨_, _, _, rfl⟩
  | cons action actions ih =>
      obtain ⟨state, halt, points, hperform⟩ := machine.exists_perform_eq action
      obtain ⟨state', halt', points', hafter⟩ := ih (machine.perform action)
      refine ⟨state', halt', points', ?_⟩
      rw [after, hafter, hperform]

/-! ## The invariant -/

/-- What every action keeps.  The states in which an instruction has been executed since the last
reset are those in `done`. -/
structure Sound (machine : Machine) (done : List State) : Prop where
  /-- The machine goes back to these cells when it is reset. -/
  loaded_fits : ∀ value ∈ machine.loaded, machine.width.Fits value
  size_eq : machine.state.memory.size = machine.loaded.size
  fits : machine.state.Fits machine.width
  steps_eq : machine.state.steps = done.length
  recorded : machine.HaltRecorded

namespace Sound

/-- Executed instructions keep a machine sound, and are counted. -/
theorem of_advances (h : Sound machine done) {states : List State} {state : State}
    (hadvances : State.Advances machine.width states.length machine.state state)
    {halt : Option StopEvent} {points : Breakpoints}
    (hrecorded : HaltRecorded { machine with state, halt, points }) :
    Sound { machine with state, halt, points } (done ++ states) where
  loaded_fits := h.loaded_fits
  size_eq := hadvances.size_eq.trans h.size_eq
  fits := hadvances.fits h.fits
  steps_eq := by rw [hadvances.steps_eq, h.steps_eq, List.length_append]
  recorded := hrecorded

/-- A step keeps it sound. -/
theorem step (h : Sound machine done) :
    Sound (machine.perform .step) (machine.record done .step) := by
  rw [perform, record]
  -- a step is one of three: nothing, a halt, or one instruction
  cases hhalt : machine.halt with
  | some event =>
      rw [step_of_halted hhalt, if_neg (by simp)]
      exact h
  | none =>
      cases hobstacle : machine.state.obstacle? with
      | some address =>
          rw [step_of_obstacle hhalt hobstacle, if_neg (by simp)]
          refine ⟨h.loaded_fits, h.size_eq, h.fits, h.steps_eq, ?_⟩
          intro event hevent
          exact ⟨address, (Option.some.inj hevent).symm⟩
      | none =>
          rw [step_of_executable hhalt hobstacle, if_pos ⟨rfl, rfl⟩]
          have hnext : State.Advances machine.width [machine.state].length machine.state
              (machine.state.execute machine.width) := ⟨hobstacle, rfl⟩
          exact h.of_advances hnext (haltRecorded_of_running hhalt)

/-- So does a run. -/
theorem run (h : Sound machine done) (budget : Nat) :
    Sound (machine.perform (.run budget)) (machine.record done (.run budget)) := by
  have hadvances := machine.advances_run budget
  have hrecorded := haltRecorded_run h.recorded budget
  obtain ⟨state, halt, last, hrun⟩ := machine.exists_run_eq budget
  rw [hrun] at hadvances hrecorded
  rw [perform, record, hrun]
  exact h.of_advances hadvances hrecorded

/-- So does a write, which executes nothing. -/
theorem write (h : Sound machine done) (address value : Int) :
    Sound (machine.perform (.write address value)) done := by
  obtain ⟨memory, hwrite, hmemory⟩ := machine.exists_perform_write address value
  rw [hwrite]
  refine ⟨h.loaded_fits, ?_, ?_, h.steps_eq, ?_⟩
  · obtain rfl | rfl := hmemory
    · exact h.size_eq
    · exact Array.size_setIfInBounds.trans h.size_eq
  · obtain rfl | rfl := hmemory
    · exact h.fits
    · exact State.fits_setIfInBounds h.fits _ _
  -- The event says nothing about memory.
  · exact h.recorded

/-- A reset starts over. -/
theorem reset (h : Sound machine done) : Sound (machine.perform .reset) [] where
  loaded_fits := h.loaded_fits
  size_eq := rfl
  fits := h.loaded_fits
  steps_eq := rfl
  recorded := haltRecorded_of_running rfl

/-- One action. -/
theorem perform (h : Sound machine done) (action : Action) :
    Sound (machine.perform action) (machine.record done action) := by
  cases action with
  | step => exact h.step
  | run budget => exact h.run budget
  | write address value => exact h.write address value
  | setPc pc =>
      exact ⟨h.loaded_fits, h.size_eq, h.fits, h.steps_eq, haltRecorded_of_running rfl⟩
  | reset => exact h.reset
  | edit edit => exact ⟨h.loaded_fits, h.size_eq, h.fits, h.steps_eq, h.recorded⟩

theorem after (h : Sound machine done) (actions : List Action) :
    Sound (machine.after actions) (machine.sinceReset done actions) := by
  induction actions generalizing machine done with
  | nil => exact h
  | cons action actions ih => exact ih (h.perform action)

end Sound

/-! ## Halted machines -/

/-- Whether a halted machine goes on after an action. -/
def Action.resumes : Action → Bool
  | .setPc _ | .reset => true
  | _ => false

/-- A machine that has halted with an event is, after some actions, still halted with it where it
was, and gives it back when it is stepped or run. -/
structure StaysAt (machine : Machine) (event : StopEvent) (next : Machine) : Prop where
  halt_eq : next.halt = some event
  pc_eq : next.state.pc = machine.state.pc
  steps_eq : next.state.steps = machine.state.steps
  step_eq : next.step = (next, some event)
  run_eq : ∀ budget, next.run budget = (next, event)

/-- A machine that has halted at a place stays there. -/
theorem staysAt_of_halted {event : StopEvent} {next : Machine} (h : next.halt = some event)
    (hpc : next.state.pc = machine.state.pc) (hsteps : next.state.steps = machine.state.steps) :
    machine.StaysAt event next :=
  ⟨h, hpc, hsteps, step_of_halted h, run_of_halted h⟩

/-- So it does under every action that does not set it going again. -/
theorem staysAt_perform {event : StopEvent} (h : machine.halt = some event) {action : Action}
    (haction : action.resumes = false) : machine.StaysAt event (machine.perform action) := by
  cases action with
  | step =>
      rw [perform, step_of_halted h]
      exact staysAt_of_halted h rfl rfl
  | run budget =>
      rw [perform, run_of_halted h]
      exact staysAt_of_halted h rfl rfl
  | write address value =>
      obtain ⟨memory, hwrite, -⟩ := machine.exists_perform_write address value
      rw [hwrite]
      exact staysAt_of_halted h rfl rfl
  | edit => exact staysAt_of_halted h rfl rfl
  | setPc | reset => cases haction

/-- So it does under any number of them. -/
theorem staysAt_after {event : StopEvent} (h : machine.halt = some event) {actions : List Action}
    (hactions : ∀ action ∈ actions, action.resumes = false) :
    machine.StaysAt event (machine.after actions) := by
  induction actions generalizing machine with
  | nil => exact staysAt_of_halted h rfl rfl
  | cons action actions ih =>
      obtain ⟨haction, hrest⟩ := List.forall_mem_cons.mp hactions
      have hfirst := staysAt_perform h haction
      have hlater := ih hfirst.halt_eq hrest
      exact staysAt_of_halted hlater.halt_eq (hlater.pc_eq.trans hfirst.pc_eq)
        (hlater.steps_eq.trans hfirst.steps_eq)

/-- A step that gives an event does not change the state. -/
theorem state_step_of_event {event : StopEvent} (h : machine.step.2 = some event) :
    machine.step.1.state = machine.state := by
  cases hhalt : machine.halt with
  | some event => rw [step_of_halted hhalt]
  | none =>
      cases hobstacle : machine.state.obstacle? with
      | some address => rw [step_of_obstacle hhalt hobstacle]
      | none =>
          rw [step_of_executable hhalt hobstacle] at h
          cases h

/-! ## Built machines -/

/-- Memory has the size that is asked for, if the cells have room in it. -/
theorem size_loadCells {width : Width} {cells : List Int} {size : Nat}
    (h : cells.length ≤ size) : (loadCells width cells size).size = size := by
  rw [loadCells, List.size_toArray, List.length_append, List.length_map, List.length_replicate,
    Nat.add_sub_of_le h]

/-- What is loaded fits. -/
theorem fits_loadCells (width : Width) (cells : List Int) (size : Nat) :
    ∀ value ∈ loadCells width cells size, width.Fits value := by
  intro value hvalue
  rw [loadCells, List.mem_toArray, List.mem_append] at hvalue
  obtain hcell | hrest := hvalue
  · obtain ⟨cell, -, rfl⟩ := List.mem_map.mp hcell
    exact width.fits_wrap cell
  · rw [List.eq_of_mem_replicate hrest]
    exact Width.fits_zero

variable {program : Program} {memorySize cellBits entry : Option Int}

/-- What a machine is built with. -/
theorem build_eq_ok (h : build program memorySize cellBits entry = .ok built) :
    ∃ (width : Width) (size : Nat), (width.bits : Int) = chooseBits cellBits program.cellBits ∧
      (size : Int) = memorySize.getD program.cells.length ∧ program.cells.length ≤ size ∧
      built.width = width ∧ built.loaded = loadCells width program.cells size ∧
      built.state = ⟨built.loaded, built.entry, 0⟩ ∧ built.halt = none := by
  rw [build] at h
  cases hwidth : Width.ofInt? (chooseBits cellBits program.cellBits) with
  | none =>
      rw [hwidth] at h
      cases h
  | some width =>
      simp only [hwidth] at h
      split_ifs at h with hsmall
      obtain rfl := Except.ok.inj h
      refine ⟨width, _, Width.bits_of_ofInt? hwidth, ?_, ?_, rfl, rfl, rfl, rfl⟩ <;> omega

/-- A machine that has just been built is sound. -/
theorem sound_of_build (h : build program memorySize cellBits entry = .ok built) :
    Sound built [] := by
  obtain ⟨width, size, -, -, -, rfl, hloaded, hstate, hhalt⟩ := build_eq_ok h
  have hfits := fits_loadCells built.width program.cells size
  rw [← hloaded] at hfits
  refine ⟨hfits, ?_, ?_, ?_, haltRecorded_of_running hhalt⟩
  · rw [hstate]
  · rw [hstate]
    exact hfits
  · rw [hstate]
    rfl

/-- What holds of a machine at any time, if it was built with `size` cells of `bits` bits, and if
the states in which it has executed an instruction since the last reset are those in `done`. -/
structure Intact (built : Machine) (size : Int) (bits : Nat) (done : List State)
    (machine : Machine) : Prop where
  memorySize_eq : (machine.memorySize : Int) = size
  cell_range : ∀ value ∈ machine.state.memory,
    -2 ^ (bits - 1) ≤ value ∧ value ≤ 2 ^ (bits - 1) - 1
  steps_eq : machine.state.steps = done.length
  event_eq : ∀ event, machine.halt = some event →
    event.reason = .halted ∧ event.pc = machine.state.pc ∧ event.steps = machine.state.steps
  stays_halted : ∀ event, machine.halt = some event → ∀ actions : List Action,
    (∀ action ∈ actions, action.resumes = false) →
      machine.StaysAt event (machine.after actions)
  /-- A step that halts changes nothing. -/
  step_halts : ∀ event, machine.step.2 = some event → machine.step.1.state = machine.state
  reset_eq : machine.reset.state = built.state ∧ machine.reset.halt = none

/-- Whatever is done with a machine that was built from a program, its memory keeps its size and
holds values of its width, and its counter counts the instructions that have been executed since the
last reset.  A halted machine keeps its event, which says where it is, until it is sent elsewhere or
reset, and a reset leads back to the state in which the machine was built. -/
theorem intact_of_build (h : build program memorySize cellBits entry = .ok built)
    (actions : List Action) :
    ∃ bits : Nat, (bits : Int) = chooseBits cellBits program.cellBits ∧ 2 ≤ bits ∧
      Intact built (memorySize.getD program.cells.length) bits (built.sinceReset [] actions)
        (built.after actions) := by
  obtain ⟨width, size, hbits, hsize, hle, rfl, hloaded, hstate, hhalt⟩ := build_eq_ok h
  have hsound := (sound_of_build h).after actions
  obtain ⟨state, halt, points, hafter⟩ := built.exists_after_eq actions
  refine ⟨built.width.bits, hbits, built.width.two_le_bits, ?_⟩
  rw [hafter] at hsound ⊢
  -- the parts in the order of the structure
  refine ⟨?_, ?_, hsound.steps_eq, ?_, fun _ hevent _ => staysAt_after hevent,
    fun _ => state_step_of_event, ?_, rfl⟩
  · rw [← hsize, ← size_loadCells hle, ← hloaded]
    exact congrArg Nat.cast hsound.size_eq
  · intro value hvalue
    obtain ⟨hlow, hhigh⟩ := hsound.fits value hvalue
    rw [Width.min_eq] at hlow
    rw [Width.max_eq] at hhigh
    exact ⟨hlow, hhigh⟩
  · intro event hevent
    obtain ⟨address, rfl⟩ := hsound.recorded event hevent
    exact ⟨rfl, rfl, rfl⟩
  · exact hstate.symm

/-- A watched write ends the run, a write outside of memory is refused, and the step after it halts
the machine, of which a cell is changed then. -/
def handling : List Action :=
  [.edit (.addWatch 4), .run 9, .write 9 1, .step, .write 3 300]

theorem intact_handling : ∃ built,
    build { cells := [3, 4, -1, 5, 200], cellBits := 8 } (some 6) none none = .ok built ∧
      (built.after handling).state = ⟨#[3, 4, -1, 44, -61, 0], -1, 1⟩ ∧
      (built.after handling).halt =
        some { reason := .halted, pc := -1, steps := 1, address := some (-1) } ∧
      ∃ bits : Nat, (bits : Int) = 8 ∧ 2 ≤ bits ∧
        Intact built 6 bits (built.sinceReset [] handling) (built.after handling) := by
  refine ⟨_, rfl, by decide, by decide, ?_⟩
  have hbuild : build { cells := [3, 4, -1, 5, 200], cellBits := 8 } (some 6) none none =
      .ok _ := rfl
  exact intact_of_build hbuild handling

end Machine

end Subleq
