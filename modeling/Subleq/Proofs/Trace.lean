import Mathlib
import Subleq.Proofs.Stopping

/-!
# Executed instructions

`Machine.trace` lists the states in which a run executes an instruction, and `Machine.traceRuns`
does so for several runs one after the other.  `State.Runs` says once what a run can do.  A run
comes from its first state to its last by exactly the instructions of its trace
(`State.Runs.advances`), so the traces of resumed runs make one sequence of instructions
(`advances_traceRuns`), however the budgets divide it.

A run does not look for a breakpoint before its first instruction, as a run that goes on from a
breakpoint must not stop there again.  It does so for whatever reason the run before it has ended:
`breakpoint_reported_or_passed` says that an arrival at a breakpoint is passed without an event if a
run ends there because its budget is used up, or because it has written to a watched cell, and in no
other case.
-/

namespace Subleq.Machine

/-! ## The trace of a run -/

namespace State

/-- The states in which a run executes an instruction. -/
def trace (width : Width) (points : Breakpoints) : (budget : Nat) → (first : Bool) → State →
    List State
  | 0, _, _ => []
  | budget + 1, first, state =>
      if !first && points.breaksAt state.pc then []
      else if state.obstacle?.isSome then []
      else
        state :: if points.watchesCell state.destination then []
          else trace width points budget false (state.execute width)

/-- What a run does: the states in which it executes an instruction, the state in which it ends, and
how it ends. -/
inductive Runs (width : Width) (points : Breakpoints) :
    (budget : Nat) → (first : Bool) → State → (states : List State) → State → Outcome → Prop
  | stepLimit {first : Bool} {s : State} : Runs width points 0 first s [] s .stepLimit
  | breakpoint {budget : Nat} {s : State} :
      points.breaksAt s.pc = true → Runs width points (budget + 1) false s [] s .breakpoint
  | halted {budget : Nat} {first : Bool} {s : State} {address : Int} :
      (first = false → points.breaksAt s.pc = false) → s.obstacle? = some address →
      Runs width points (budget + 1) first s [] s (.halted address)
  | watchpoint {budget : Nat} {first : Bool} {s : State} :
      (first = false → points.breaksAt s.pc = false) → s.obstacle? = none →
      points.watchesCell s.destination = true →
      Runs width points (budget + 1) first s [s] (s.execute width)
        (.watchpoint s.destination (s.result width))
  | next {budget : Nat} {first : Bool} {s s' : State} {states : List State} {outcome : Outcome} :
      (first = false → points.breaksAt s.pc = false) → s.obstacle? = none →
      points.watchesCell s.destination = false →
      Runs width points budget false (s.execute width) states s' outcome →
      Runs width points (budget + 1) first s (s :: states) s' outcome

/-- A run has the states of its trace behind it. -/
theorem runs (width : Width) (points : Breakpoints) (budget : Nat) (first : Bool) (s : State) :
    Runs width points budget first s (s.trace width points budget first)
      (s.run width points budget first).1 (s.run width points budget first).2 := by
  -- by induction on the budget, along the recursion of the run
  induction budget generalizing first s with
  | zero => exact .stepLimit
  | succ budget ih =>
      -- the reasons to stop are looked at in the order in which the run does
      cases hbreak : !first && points.breaksAt s.pc with
      | true =>
          obtain ⟨hfirst, hpc⟩ := Bool.and_eq_true_iff.mp hbreak
          obtain rfl : first = false := by simpa using hfirst
          rw [trace, run, hbreak]
          exact .breakpoint hpc
      | false =>
          have hpass : first = false → points.breaksAt s.pc = false := by
            rintro rfl
            exact hbreak
          cases hobstacle : s.obstacle? with
          | some address =>
              rw [trace, run, hbreak, hobstacle]
              exact .halted hpass hobstacle
          | none =>
              rw [run_of_quiet hbreak hobstacle, trace, hbreak, hobstacle]
              cases hwatch : points.watchesCell s.destination with
              | true => exact .watchpoint hpass hobstacle hwatch
              | false => exact .next hpass hobstacle hwatch (ih false _)

namespace Runs

variable {width : Width} {points : Breakpoints} {budget i : Nat} {first : Bool}
  {s s' arrival : State} {states : List State} {outcome : Outcome}

/-- It advances by as many instructions as it has states behind it. -/
theorem advances (h : Runs width points budget first s states s' outcome) :
    Advances width states.length s s' := by
  induction h with
  | stepLimit | breakpoint | halted => rfl
  | watchpoint _ hobstacle _ => exact ⟨hobstacle, rfl⟩
  | next _ hobstacle _ _ ih => exact ⟨hobstacle, ih⟩

/-- Each of them is reached after as many instructions as there are before it. -/
theorem advances_of_getElem? (h : Runs width points budget first s states s' outcome)
    (harrival : states[i]? = some arrival) : Advances width i s arrival := by
  induction h generalizing i with
  | stepLimit | breakpoint | halted => cases harrival
  | watchpoint =>
      cases i with
      | zero => exact (Option.some.inj harrival).symm
      | succ i => cases harrival
  | next _ hobstacle _ _ ih =>
      cases i with
      | zero => exact (Option.some.inj harrival).symm
      | succ i => exact ⟨hobstacle, ih harrival⟩

/-- Breakpoints are looked for before every instruction but the first. -/
theorem breaksAt_of_getElem? (h : Runs width points budget first s states s' outcome)
    (harrival : states[i]? = some arrival) (hi : first = true → 0 < i) :
    points.breaksAt arrival.pc = false := by
  -- the state of a break point is where the run ends, so none comes before it
  induction h generalizing i with
  | stepLimit | breakpoint | halted => cases harrival
  | watchpoint hpass =>
      cases i with
      | zero =>
          obtain rfl := Option.some.inj harrival
          exact hpass (by simpa using hi)
      | succ i => cases harrival
  | next hpass _ _ _ ih =>
      cases i with
      | zero =>
          obtain rfl := Option.some.inj harrival
          exact hpass (by simpa using hi)
      | succ i => exact ih harrival nofun

/-- A breakpoint is arrived at by an instruction. -/
theorem ne_nil (h : Runs width points budget true s states s' .breakpoint) : states ≠ [] := by
  cases h with
  | next => exact List.cons_ne_nil _ _

end Runs

end State

/-- The states in which a run executes an instruction.  A halted machine executes none. -/
def trace (machine : Machine) (budget : Nat) : List State :=
  match machine.halt with
  | some _ => []
  | none => machine.state.trace machine.width machine.points budget true

variable {machine : Machine}

/-- A machine that has halted leaves no trace. -/
theorem trace_of_halted {event : StopEvent} (h : machine.halt = some event) (budget : Nat) :
    machine.trace budget = [] := by
  rw [trace, h]

/-- It answers with the event that it has halted with. -/
theorem run_of_halted {event : StopEvent} (h : machine.halt = some event) (budget : Nat) :
    machine.run budget = (machine, event) := by
  rw [run, h]

/-- A machine that has not halted makes its run, and stops with the outcome of it. -/
theorem exists_runs (h : machine.halt = none) (budget : Nat) :
    ∃ state outcome, machine.run budget = machine.stop state outcome ∧
      State.Runs machine.width machine.points budget true machine.state (machine.trace budget)
        state outcome := by
  have hruns := State.runs machine.width machine.points budget true machine.state
  exact ⟨_, _, by rw [run, h], by rwa [trace, h]⟩

/-- A stored event is that of halting in the present state. -/
def HaltRecorded (machine : Machine) : Prop :=
  ∀ event, machine.halt = some event → ∃ address, event = haltEvent machine.state address

/-- A running machine has nothing to record. -/
theorem haltRecorded_of_running (h : machine.halt = none) : machine.HaltRecorded := by
  intro event hevent
  rw [h] at hevent
  cases hevent

/-- A machine records how it was stopped. -/
theorem haltRecorded_stop (h : machine.halt = none) (state : State) (outcome : State.Outcome) :
    (machine.stop state outcome).1.HaltRecorded := by
  cases outcome with
  | halted address =>
      intro event hevent
      exact ⟨address, (Option.some.inj hevent).symm⟩
  | stepLimit | breakpoint | watchpoint => exact haltRecorded_of_running h

/-- So it does in a run. -/
theorem haltRecorded_run (h : machine.HaltRecorded) (budget : Nat) :
    (machine.run budget).1.HaltRecorded := by
  cases hhalt : machine.halt with
  | some event => rwa [run_of_halted hhalt]
  | none =>
      obtain ⟨state, outcome, hrun, -⟩ := exists_runs hhalt budget
      rw [hrun]
      exact haltRecorded_stop hhalt state outcome

/-- A run leaves everything else of a machine as it is. -/
theorem exists_run_eq (machine : Machine) (budget : Nat) :
    ∃ state halt last, (machine.run budget).1 =
      { machine with state, halt, points := { machine.points with last } } := by
  cases hhalt : machine.halt with
  | some event => exact ⟨_, _, _, by rw [run_of_halted hhalt]⟩
  | none =>
      obtain ⟨state, outcome, hrun, -⟩ := exists_runs hhalt budget
      rw [hrun]
      cases outcome <;> exact ⟨_, _, _, rfl⟩

/-- A run does not change the width. -/
theorem width_run (machine : Machine) (budget : Nat) :
    (machine.run budget).1.width = machine.width := by
  obtain ⟨state, halt, last, hrun⟩ := machine.exists_run_eq budget
  rw [hrun]

/-- It does not change the break points. -/
theorem breaks_run (machine : Machine) (budget : Nat) :
    (machine.run budget).1.points.breaks = machine.points.breaks := by
  obtain ⟨state, halt, last, hrun⟩ := machine.exists_run_eq budget
  rw [hrun]

/-- It advances by as many instructions as there are in its trace. -/
theorem advances_run (machine : Machine) (budget : Nat) :
    State.Advances machine.width (machine.trace budget).length machine.state
      (machine.run budget).1.state := by
  cases hhalt : machine.halt with
  | some event =>
      rw [trace_of_halted hhalt, run_of_halted hhalt]
      rfl
  | none =>
      obtain ⟨state, outcome, hrun, hruns⟩ := exists_runs hhalt budget
      rw [hrun, state_stop]
      exact hruns.advances

/-! ## Resumed runs -/

/-- The machine after runs with the given budgets. -/
def afterRuns (machine : Machine) : (budgets : List Nat) → Machine
  | [] => machine
  | budget :: budgets => (machine.run budget).1.afterRuns budgets

/-- The states in which runs with the given budgets execute an instruction. -/
def traceRuns (machine : Machine) : (budgets : List Nat) → List State
  | [] => []
  | budget :: budgets => machine.trace budget ++ (machine.run budget).1.traceRuns budgets

/-- The events of runs with the given budgets. -/
def reports (machine : Machine) : (budgets : List Nat) → List StopEvent
  | [] => []
  | budget :: budgets => (machine.run budget).2 :: (machine.run budget).1.reports budgets

variable {budgets : List Nat} {k : Nat} {arrival : State}

/-- A halted machine executes no further instruction. -/
theorem halt_of_traceRuns (h : (machine.traceRuns budgets)[k]? = some arrival) :
    machine.halt = none := by
  induction budgets with
  | nil => cases h
  | cons budget budgets ih =>
      cases hhalt : machine.halt with
      | none => rfl
      | some event =>
          rw [traceRuns, trace_of_halted hhalt, run_of_halted hhalt] at h
          rw [← hhalt]
          exact ih h

/-- Resumed runs execute one instruction after the other, as a single run does. -/
theorem advances_traceRuns (h : (machine.traceRuns budgets)[k]? = some arrival) :
    State.Advances machine.width k machine.state arrival := by
  induction budgets generalizing machine k with
  | nil => cases h
  | cons budget budgets ih =>
      obtain hlt | hle := lt_or_ge k (machine.trace budget).length
      · obtain ⟨state, outcome, -, hruns⟩ := exists_runs (halt_of_traceRuns h) budget
        rw [traceRuns, List.getElem?_append_left hlt] at h
        exact hruns.advances_of_getElem? h
      · rw [traceRuns, List.getElem?_append_right hle] at h
        have hrest := ih h
        rw [width_run] at hrest
        have hall := (machine.advances_run budget).trans hrest
        rwa [Nat.add_sub_of_le hle] at hall

section Events

variable {budget : Nat}

/-- A run that ends because of a breakpoint has executed an instruction, and reports where it is. -/
theorem breakEvent_of_reason (h : machine.halt = none)
    (hreason : (machine.run budget).2.reason = .breakpoint) :
    machine.trace budget ≠ [] ∧ (machine.run budget).2 =
      Breakpoints.breakEvent (machine.run budget).1.state.pc
        (machine.run budget).1.state.steps := by
  obtain ⟨state, outcome, hrun, hruns⟩ := exists_runs h budget
  rw [hrun] at hreason ⊢
  cases outcome with
  | breakpoint => exact ⟨hruns.ne_nil, rfl⟩
  | halted | stepLimit | watchpoint => cases hreason

/-- A run that does not halt has one of the three other reasons to end. -/
theorem reason_of_running (h : machine.halt = none)
    (hrunning : (machine.run budget).1.halt = none) :
    (machine.run budget).2.reason = .breakpoint ∨ (machine.run budget).2.reason = .stepLimit ∨
      (machine.run budget).2.reason = .watchpoint := by
  obtain ⟨state, outcome, hrun, -⟩ := exists_runs h budget
  rw [hrun] at hrunning ⊢
  cases outcome with
  | halted => cases hrunning
  | stepLimit => exact .inr (.inl rfl)
  | breakpoint => exact .inl rfl
  | watchpoint => exact .inr (.inr rfl)

/-- A run does not report a breakpoint that is arrived at later. -/
theorem breakEvent_ne (h : machine.halt = none) {steps : Nat}
    (hsteps : (machine.run budget).1.state.steps < steps) (pc : Int) :
    Breakpoints.breakEvent pc steps ≠ (machine.run budget).2 := by
  intro heq
  have hreason : (machine.run budget).2.reason = .breakpoint := by rw [← heq]; rfl
  rw [(breakEvent_of_reason h hreason).2] at heq
  have hsame : (steps : Int) = (machine.run budget).1.state.steps :=
    congrArg StopEvent.steps heq
  omega

/-- A breakpoint is reported after at least one more instruction. -/
theorem steps_lt_of_breakpoint (hrecorded : machine.HaltRecorded) {event : StopEvent}
    (hevent : event ∈ machine.reports budgets) (hreason : event.reason = .breakpoint) :
    (machine.state.steps : Int) < event.steps := by
  induction budgets generalizing machine with
  | nil => cases hevent
  | cons budget budgets ih =>
      have hsteps := (machine.advances_run budget).steps_eq
      -- the event is that of the first run, or of one that starts later
      obtain rfl | hlater := List.mem_cons.mp hevent
      · cases hhalt : machine.halt with
        | some stored =>
            obtain ⟨address, rfl⟩ := hrecorded stored hhalt
            rw [run_of_halted hhalt] at hreason
            cases hreason
        | none =>
            -- a break point is looked at after one instruction at least
            obtain ⟨hne, hbreak⟩ := breakEvent_of_reason hhalt hreason
            have hpos := List.length_pos_iff.mpr hne
            rw [hbreak]
            show (machine.state.steps : Int) < (machine.run budget).1.state.steps
            omega
      · have hlast := ih (haltRecorded_run hrecorded budget) hlater
        omega

/-- What is reported of the state in which a run ends that does not halt the machine.  The runs
after it report breakpoints of their own only. -/
theorem reported_or_passed (h : machine.halt = none)
    (hrunning : (machine.run budget).1.halt = none) (budgets : List Nat) :
    Breakpoints.breakEvent (machine.run budget).1.state.pc (machine.run budget).1.state.steps ∈
          machine.reports (budget :: budgets) ∧
        (machine.run budget).2.reason = .breakpoint ∨
      Breakpoints.breakEvent (machine.run budget).1.state.pc (machine.run budget).1.state.steps ∉
          machine.reports (budget :: budgets) ∧
        ((machine.run budget).2.reason = .stepLimit ∨
          (machine.run budget).2.reason = .watchpoint) := by
  rw [reports, List.mem_cons]
  by_cases hreason : (machine.run budget).2.reason = .breakpoint
  · exact .inl ⟨.inl (breakEvent_of_reason h hreason).2.symm, hreason⟩
  · refine .inr ⟨?_, (reason_of_running h hrunning).resolve_left hreason⟩
    rintro (hhead | hlater)
    · rw [← hhead] at hreason
      exact hreason rfl
    · have hlt := steps_lt_of_breakpoint (haltRecorded_of_running hrunning) hlater rfl
      exact lt_irrefl _ hlt

end Events

/-- If the instruction at a breakpoint is executed by one of several runs, and is not the first one
that they execute, then one of them ends with the arrival there.  The arrival is reported if that
run ends because of the breakpoint, and it is not if that run ends because its budget is used up or
because it has written to a watched cell. -/
theorem breakpoint_reported_or_passed (machine : Machine) (budgets : List Nat) {k : Nat}
    {arrival : State} (hexecuted : (machine.traceRuns budgets)[k]? = some arrival) (hk : 0 < k)
    (hbreak : arrival.pc ∈ machine.points.breaks) :
    ∃ earlier budget later last event, budgets = earlier ++ budget :: later ∧
      (machine.traceRuns earlier).length < k ∧
      (machine.afterRuns earlier).run budget = (last, event) ∧ last.state = arrival ∧
      (Breakpoints.breakEvent arrival.pc arrival.steps ∈ machine.reports budgets ∧
          event.reason = .breakpoint ∨
        Breakpoints.breakEvent arrival.pc arrival.steps ∉ machine.reports budgets ∧
          (event.reason = .stepLimit ∨ event.reason = .watchpoint)) := by
  induction budgets generalizing machine k with
  | nil => cases hexecuted
  | cons budget budgets ih =>
      have hhalt := halt_of_traceRuns hexecuted
      have harrival := (advances_traceRuns hexecuted).steps_eq
      have hsteps := (machine.advances_run budget).steps_eq
      rw [traceRuns] at hexecuted
      rcases lt_trichotomy k (machine.trace budget).length with hlt | heq | hgt
      · -- Inside of a run the breakpoint would have been seen.
        rw [List.getElem?_append_left hlt] at hexecuted
        obtain ⟨state, outcome, -, hruns⟩ := exists_runs hhalt budget
        have hnot := hruns.breaksAt_of_getElem? hexecuted fun _ => hk
        rw [Breakpoints.breaksAt, List.contains_eq_mem, decide_eq_false_iff_not] at hnot
        exact absurd hbreak hnot
      · -- The run ends with the arrival.
        rw [List.getElem?_append_right heq.ge, heq, Nat.sub_self] at hexecuted
        obtain rfl : arrival = (machine.run budget).1.state := advances_traceRuns hexecuted
        exact ⟨[], budget, budgets, _, _, rfl, hk, rfl, rfl,
          reported_or_passed hhalt (halt_of_traceRuns hexecuted) budgets⟩
      · -- A later run ends with the arrival, and the event of this one is not about it.
        rw [List.getElem?_append_right hgt.le] at hexecuted
        obtain ⟨earlier, budget', later, last, event, rfl, hlength, hrun, hlast, hreport⟩ :=
          ih _ hexecuted (by omega) (by rwa [breaks_run])
        refine ⟨budget :: earlier, budget', later, last, event, rfl, ?_, hrun, hlast, ?_⟩
        · rw [traceRuns, List.length_append]
          omega
        · rwa [reports, List.mem_cons, or_iff_right (breakEvent_ne hhalt (by omega) _)]

/-- A machine that goes back and forth between two instructions, with a breakpoint at the second. -/
def alternating : Machine :=
  let memory := #[0, 0, 3, 0, 0, 0]
  { width := .default, loaded := memory, entry := 0, temps := [], state := ⟨memory, 0, 0⟩
    halt := none, points := ⟨[3], [], none⟩ }

/-- The second run stops at the breakpoint, where the third goes on. -/
theorem breakpoint_reported_alternating :
    (alternating.traceRuns [0, 5, 1])[1]? = some ⟨#[0, 0, 3, 0, 0, 0], 3, 1⟩ ∧
      ∃ earlier budget later last event, [0, 5, 1] = earlier ++ budget :: later ∧
        (alternating.traceRuns earlier).length < 1 ∧
        (alternating.afterRuns earlier).run budget = (last, event) ∧
        last.state = ⟨#[0, 0, 3, 0, 0, 0], 3, 1⟩ ∧
        (Breakpoints.breakEvent 3 1 ∈ alternating.reports [0, 5, 1] ∧
            event.reason = .breakpoint ∨
          Breakpoints.breakEvent 3 1 ∉ alternating.reports [0, 5, 1] ∧
            (event.reason = .stepLimit ∨ event.reason = .watchpoint)) :=
  ⟨by decide, breakpoint_reported_or_passed alternating [0, 5, 1] (by decide) (by decide)
    (by decide)⟩

/-- With one step each, the second run executes the instruction at the breakpoint, which neither of
the two has reported. -/
theorem breakpoint_passed_alternating :
    build { cells := [0, 0, 3, 0, 0, 0] } none none none =
        .ok { alternating with points := .none } ∧
      (alternating.traceRuns [1, 1])[1]? = some ⟨#[0, 0, 3, 0, 0, 0], 3, 1⟩ ∧
      3 ∈ alternating.points.breaks ∧
      ∀ event ∈ alternating.reports [1, 1], event.reason ≠ .breakpoint := by
  decide

end Subleq.Machine
