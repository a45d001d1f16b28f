import Mathlib
import Subleq.Proofs.Machine

/-!
# Where a run stops

A run with a budget is compared with single steps.  `Machine.after?` makes steps one by one, without
looking at breakpoints, and `Machine.stop?` says with which event, if any, a run stops after `k` of
them.  There are four reasons to stop, looked at in this order: the last step has written to a
watched cell; the budget is used up; a breakpoint has been arrived at; no further instruction can be
executed.  The first and the third are about arrivals, so there is neither before the first step.

`Machine.run_stops_first` says that a run stops at the least `k` with such an event.  The loop of
the run tests the four conditions at different places, against a state that has changed in between.
The proof therefore follows the loop from one step to the next (`State.run_of_quiet`,
`run_of_after?`) as long as there is no reason to stop, and only then looks at the reason.
-/

namespace Subleq.Machine

/-! ## Single steps -/

/-- The machine after one step, if an instruction was executed. -/
def next? (machine : Machine) : Option Machine :=
  match machine.step with
  | (next, none) => some next
  | (_, some _) => none

/-- The machine after `k` steps, if an instruction was executed in each of them. -/
def after? (machine : Machine) : (k : Nat) → Option Machine
  | 0 => some machine
  | k + 1 => (machine.after? k).bind next?

/-! ## Reasons to stop -/

/-- The last of `k` steps has written to a watched cell. -/
def watchStop? (machine : Machine) : (k : Nat) → Option StopEvent
  | 0 => none
  | k + 1 => do
      let before ← machine.after? k
      let now ← machine.after? (k + 1)
      let address := before.state.destination
      if address ∈ machine.points.watches then
        some
          { reason := .watchpoint, pc := now.state.pc, steps := now.state.steps
            address := some address, value := some (now.state.cell address) }
      else none

/-- With `k` steps the budget is used up. -/
def limitStop? (machine : Machine) (budget k : Nat) : Option StopEvent := do
  let now ← machine.after? k
  if k = budget then
    some { reason := .stepLimit, pc := now.state.pc, steps := now.state.steps }
  else none

/-- The last of `k` steps has led to a breakpoint. -/
def breakStop? (machine : Machine) : (k : Nat) → Option StopEvent
  | 0 => none
  | k + 1 => do
      let now ← machine.after? (k + 1)
      if now.state.pc ∈ machine.points.breaks then
        some
          { reason := .breakpoint, pc := now.state.pc, steps := now.state.steps
            address := some now.state.pc }
      else none

/-- After `k` steps no instruction can be executed; the event is that of the step that fails. -/
def haltStop? (machine : Machine) (k : Nat) : Option StopEvent := do
  let now ← machine.after? k
  now.step.2

/-- The event with which a run stops after `k` steps, if there is a reason to.  Of several reasons
the first one counts. -/
def stop? (machine : Machine) (budget k : Nat) : Option StopEvent :=
  machine.watchStop? k <|> machine.limitStop? budget k <|> machine.breakStop? k
    <|> machine.haltStop? k

variable {machine now : Machine} {budget k : Nat}

/-! ## What single steps change -/

/-- A running machine goes on exactly if nothing is in its way. -/
theorem next?_eq_some (hhalt : machine.halt = none) :
    machine.next? = some now ↔ machine.state.obstacle? = none ∧
      now = { machine with state := machine.state.execute machine.width } := by
  simp only [next?, step, hhalt]
  cases machine.state.obstacle? with
  | none => simp [eq_comm]
  | some address => simp

/-- Steps change the state and nothing else of a machine. -/
theorem eq_of_after? (hhalt : machine.halt = none) (h : machine.after? k = some now) :
    now = { machine with state := now.state } := by
  induction k generalizing now with
  | zero =>
      obtain rfl := Option.some.inj h
      rfl
  | succ k ih =>
      obtain ⟨before, hbefore, hnext⟩ := Option.bind_eq_some_iff.mp h
      have hsame := ih hbefore
      have hrunning : before.halt = none := by rw [hsame, hhalt]
      obtain ⟨-, rfl⟩ := (next?_eq_some hrunning).mp hnext
      rw [hsame]

/-- One instruction more is executed from where the machine was before. -/
theorem after?_succ (hhalt : machine.halt = none) (h : machine.after? (k + 1) = some now) :
    ∃ before, machine.after? k = some before ∧ before.state.obstacle? = none ∧
      now.state = before.state.execute machine.width := by
  obtain ⟨before, hbefore, hnext⟩ := Option.bind_eq_some_iff.mp h
  have hsame := eq_of_after? hhalt hbefore
  have hrunning : before.halt = none := by rw [hsame, hhalt]
  obtain ⟨hobstacle, rfl⟩ := (next?_eq_some hrunning).mp hnext
  refine ⟨before, hbefore, hobstacle, ?_⟩
  rw [hsame]

/-- Where no step fails there is a next one. -/
theorem exists_after?_succ (hnow : machine.after? k = some now)
    (hhalt : machine.haltStop? k = none) : ∃ next, machine.after? (k + 1) = some next := by
  have hstep : now.step.2 = none := by simpa [haltStop?, hnow] using hhalt
  refine ⟨now.step.1, ?_⟩
  rw [after?, hnow, Option.bind_some, next?]
  rcases hpair : now.step with ⟨next, event⟩
  rw [hpair] at hstep
  obtain rfl : event = none := hstep
  rfl

/-! ## What the reasons say -/

/-- The machine goes on if none of the four reasons applies. -/
theorem stop?_eq_none : machine.stop? budget k = none ↔
    machine.watchStop? k = none ∧ machine.limitStop? budget k = none ∧
      machine.breakStop? k = none ∧ machine.haltStop? k = none := by
  simp [stop?, Option.orElse_eq_orElse]

/-- Where there is a reason to stop, the machine has got that far. -/
theorem exists_after?_of_stop? {event : StopEvent} (h : machine.stop? budget k = some event) :
    ∃ now, machine.after? k = some now := by
  cases hafter : machine.after? k with
  | some now => exact ⟨now, rfl⟩
  | none =>
      have hnone : machine.stop? budget k = none := by
        rw [stop?_eq_none]
        cases k <;> simp [watchStop?, limitStop?, breakStop?, haltStop?, hafter]
      rw [hnone] at h
      cases h

/-- Every run has a reason to stop, at the latest when its budget is used up. -/
theorem exists_stop? (machine : Machine) (budget : Nat) :
    ∃ k ≤ budget, (machine.stop? budget k).isSome := by
  by_contra hnever
  have hquiet : ∀ k ≤ budget, machine.stop? budget k = none := by
    intro k hk
    cases hstop : machine.stop? budget k with
    | none => rfl
    | some event => exact absurd ⟨k, hk, by rw [hstop]; rfl⟩ hnever
  -- Without a reason to stop every step can be made, and so the budget is used up after all.
  have hafter : ∀ k ≤ budget, ∃ now, machine.after? k = some now := by
    intro k
    induction k with
    | zero => exact fun _ => ⟨machine, rfl⟩
    | succ k ih =>
        intro hk
        obtain ⟨now, hnow⟩ := ih (by omega)
        exact exists_after?_succ hnow (stop?_eq_none.mp (hquiet k (by omega))).2.2.2
  obtain ⟨now, hnow⟩ := hafter budget le_rfl
  have hlimit := (stop?_eq_none.mp (hquiet budget le_rfl)).2.1
  simp [limitStop?, hnow] at hlimit

/-- A break point that is no reason to stop does not break. -/
theorem breaksAt_eq_false (hnow : machine.after? k = some now)
    (hbreak : machine.breakStop? k = none) :
    (!(k == 0) && machine.points.breaksAt now.state.pc) = false := by
  cases k with
  | zero => rfl
  | succ k => simpa [breakStop?, hnow, Breakpoints.breaksAt] using hbreak

/-! ## Following the loop -/

/-- One round of the loop, in a state that gives no reason to stop before it. -/
theorem State.run_of_quiet {width : Width} {points : Breakpoints} {first : Bool} {s : State}
    (hbreak : (!first && points.breaksAt s.pc) = false) (hobstacle : s.obstacle? = none) :
    s.run width points (budget + 1) first =
      if points.watchesCell s.destination
      then (s.execute width, .watchpoint s.destination (s.result width))
      else (s.execute width).run width points budget false := by
  rw [State.run, hbreak, hobstacle]
  rfl

/-- Before there is a reason to stop, a run is where the single steps are. -/
theorem run_of_after? (hhalt : machine.halt = none) (hnow : machine.after? k = some now)
    (hle : k ≤ budget) (hquiet : ∀ i < k, machine.stop? budget i = none)
    (hwatch : machine.watchStop? k = none) :
    machine.state.run machine.width machine.points budget true =
      now.state.run machine.width machine.points (budget - k) (k == 0) := by
  induction k generalizing now with
  | zero =>
      obtain rfl := Option.some.inj hnow
      rfl
  | succ k ih =>
      obtain ⟨before, hbefore, hobstacle, hstate⟩ := after?_succ hhalt hnow
      obtain ⟨hwatched, -, hbreak, -⟩ := stop?_eq_none.mp (hquiet k (by omega))
      have hunwatched : machine.points.watchesCell before.state.destination = false := by
        simpa [watchStop?, hbefore, hnow, Breakpoints.watchesCell] using hwatch
      have hbudget : budget - k = budget - (k + 1) + 1 := by omega
      rw [ih hbefore (by omega) (fun i hi => hquiet i (by omega)) hwatched, hbudget,
        State.run_of_quiet (breaksAt_eq_false hbefore hbreak) hobstacle, hunwatched, hstate]
      rfl

/-! ## The end of the loop -/

/-- The run ends in the state of a machine, with the given event. -/
def EndsIn (machine : Machine) (budget : Nat) (now : Machine) (event : StopEvent) : Prop :=
  ∃ outcome,
    machine.state.run machine.width machine.points budget true = (now.state, outcome) ∧
      (machine.stop now.state outcome).2 = event

/-- The machine ends where a watched cell has changed. -/
theorem endsIn_of_watchStop? {event : StopEvent} (hhalt : machine.halt = none)
    (hnow : machine.after? k = some now) (hle : k ≤ budget)
    (hquiet : ∀ i < k, machine.stop? budget i = none)
    (hstop : machine.watchStop? k = some event) : machine.EndsIn budget now event := by
  cases k with
  | zero => cases hstop
  | succ k =>
      obtain ⟨before, hbefore, hobstacle, hstate⟩ := after?_succ hhalt hnow
      obtain ⟨hunwatched, -, hbreak, -⟩ := stop?_eq_none.mp (hquiet k (by omega))
      -- The cell that was written holds what was written.
      have hvalue : now.state.cell before.state.destination =
          before.state.result machine.width := by
        have hmem : before.state.InMemory before.state.destination :=
          (State.executable_of_obstacle? hobstacle).b_mem
        rw [hstate, State.execute, State.cell_store hmem, if_pos rfl]
      simp only [watchStop?, hbefore, hnow, Option.bind_eq_bind, Option.bind_some, hvalue,
        Option.ite_none_right_eq_some, Option.some.injEq] at hstop
      obtain ⟨hwatch, rfl⟩ := hstop
      have hwatched : machine.points.watchesCell before.state.destination = true := by
        simpa [Breakpoints.watchesCell] using hwatch
      have hbudget : budget - k = budget - (k + 1) + 1 := by omega
      refine ⟨.watchpoint before.state.destination (before.state.result machine.width), ?_, rfl⟩
      rw [run_of_after? hhalt hbefore (by omega) (fun i hi => hquiet i (by omega)) hunwatched,
        hbudget, State.run_of_quiet (breaksAt_eq_false hbefore hbreak) hobstacle, hwatched, hstate]
      rfl

/-- It ends where the budget is used up. -/
theorem endsIn_of_limitStop? {event : StopEvent} (hhalt : machine.halt = none)
    (hnow : machine.after? k = some now) (hquiet : ∀ i < k, machine.stop? budget i = none)
    (hwatch : machine.watchStop? k = none) (hstop : machine.limitStop? budget k = some event) :
    machine.EndsIn budget now event := by
  simp only [limitStop?, hnow, Option.bind_eq_bind, Option.bind_some,
    Option.ite_none_right_eq_some, Option.some.injEq] at hstop
  obtain ⟨rfl, rfl⟩ := hstop
  refine ⟨.stepLimit, ?_, rfl⟩
  rw [run_of_after? hhalt hnow le_rfl hquiet hwatch, Nat.sub_self]
  rfl

/-- It ends at a break point. -/
theorem endsIn_of_breakStop? {event : StopEvent} (hhalt : machine.halt = none)
    (hnow : machine.after? k = some now) (hlt : k < budget)
    (hquiet : ∀ i < k, machine.stop? budget i = none) (hwatch : machine.watchStop? k = none)
    (hstop : machine.breakStop? k = some event) : machine.EndsIn budget now event := by
  cases k with
  | zero => cases hstop
  | succ k =>
      simp only [breakStop?, hnow, Option.bind_eq_bind, Option.bind_some,
        Option.ite_none_right_eq_some, Option.some.injEq] at hstop
      obtain ⟨hbreak, rfl⟩ := hstop
      have hbroken : machine.points.breaksAt now.state.pc = true := by
        simpa [Breakpoints.breaksAt] using hbreak
      obtain ⟨left, hbudget⟩ : ∃ left, budget - (k + 1) = left + 1 :=
        ⟨budget - (k + 1) - 1, by omega⟩
      refine ⟨.breakpoint, ?_, rfl⟩
      rw [run_of_after? hhalt hnow hlt.le hquiet hwatch, hbudget, State.run, hbroken]
      rfl

/-- It ends where it halts. -/
theorem endsIn_of_haltStop? {event : StopEvent} (hhalt : machine.halt = none)
    (hnow : machine.after? k = some now) (hlt : k < budget)
    (hquiet : ∀ i < k, machine.stop? budget i = none) (hwatch : machine.watchStop? k = none)
    (hbreak : machine.breakStop? k = none) (hstop : machine.haltStop? k = some event) :
    machine.EndsIn budget now event := by
  have hrunning : now.halt = none := by rw [eq_of_after? hhalt hnow, hhalt]
  obtain ⟨left, hbudget⟩ : ∃ left, budget - k = left + 1 := ⟨budget - k - 1, by omega⟩
  simp only [haltStop?, hnow, Option.bind_eq_bind, Option.bind_some, step, hrunning] at hstop
  cases hobstacle : now.state.obstacle? with
  | none =>
      rw [hobstacle] at hstop
      cases hstop
  | some address =>
      rw [hobstacle] at hstop
      obtain rfl := Option.some.inj hstop
      refine ⟨.halted address, ?_, rfl⟩
      rw [run_of_after? hhalt hnow hlt.le hquiet hwatch, hbudget, State.run,
        breaksAt_eq_false hnow hbreak, hobstacle]
      rfl

/-- It ends where there is a reason to, whichever of the four it is. -/
theorem endsIn_of_stop? {event : StopEvent} (hhalt : machine.halt = none)
    (hnow : machine.after? k = some now) (hle : k ≤ budget)
    (hquiet : ∀ i < k, machine.stop? budget i = none)
    (hstop : machine.stop? budget k = some event) : machine.EndsIn budget now event := by
  -- the four reasons are looked at in the order in which they count
  cases hwatch : machine.watchStop? k with
  | some _ =>
      obtain rfl : _ = event := by simpa [stop?, hwatch] using hstop
      exact endsIn_of_watchStop? hhalt hnow hle hquiet hwatch
  | none =>
      cases hlimit : machine.limitStop? budget k with
      | some _ =>
          obtain rfl : _ = event := by simpa [stop?, hwatch, hlimit] using hstop
          exact endsIn_of_limitStop? hhalt hnow hquiet hwatch hlimit
      | none =>
          -- the budget is not used up, so the machine may look at the next instruction
          have hlt : k < budget := by
            have hne : k ≠ budget := by simpa [limitStop?, hnow] using hlimit
            omega
          cases hbreak : machine.breakStop? k with
          | some _ =>
              obtain rfl : _ = event := by simpa [stop?, hwatch, hlimit, hbreak] using hstop
              exact endsIn_of_breakStop? hhalt hnow hlt hquiet hwatch hbreak
          | none =>
              have hhalted : machine.haltStop? k = some event := by
                simpa [stop?, hwatch, hlimit, hbreak] using hstop
              exact endsIn_of_haltStop? hhalt hnow hlt hquiet hwatch hbreak hhalted

theorem state_stop (machine : Machine) (state : State) (outcome : State.Outcome) :
    (machine.stop state outcome).1.state = state := by
  cases outcome <;> rfl

/-- A machine that has been stopped is halted exactly if that was the reason. -/
theorem isHalted_stop (hhalt : machine.halt = none) (state : State) (outcome : State.Outcome) :
    (machine.stop state outcome).1.isHalted = true ↔
      (machine.stop state outcome).2.reason = .halted := by
  cases outcome <;> simp [stop, isHalted, hhalt, haltEvent, Breakpoints.breakEvent,
    Breakpoints.watchEvent]

/-- A machine that has not halted makes steps until, for the first time, there is a reason to stop.
Its run reports that reason, leaves the memory, the program counter and the number of steps as they
are after those steps, and leaves the machine halted exactly if no instruction could be executed. -/
theorem run_stops_first (machine : Machine) (hrunning : machine.isHalted = false) (budget : Nat) :
    ∃ k now event, machine.after? k = some now ∧
      machine.stop? budget k = some event ∧ (∀ i < k, machine.stop? budget i = none) ∧
      (machine.run budget).2 = event ∧ (machine.run budget).1.state = now.state ∧
      ((machine.run budget).1.isHalted = true ↔ event.reason = .halted) := by
  have hhalt : machine.halt = none := by simpa [isHalted] using hrunning
  have hexists : ∃ k, k ≤ budget ∧ (machine.stop? budget k).isSome := machine.exists_stop? budget
  -- the least number of steps with a reason to stop
  obtain ⟨hle, hsome⟩ := Nat.find_spec hexists
  obtain ⟨event, hstop⟩ := Option.isSome_iff_exists.mp hsome
  obtain ⟨now, hnow⟩ := exists_after?_of_stop? hstop
  have hquiet : ∀ i < Nat.find hexists, machine.stop? budget i = none := by
    intro i hi
    have hnot := Nat.find_min hexists hi
    rw [not_and, Option.not_isSome_iff_eq_none] at hnot
    exact hnot (by omega)
  obtain ⟨outcome, hrun, rfl⟩ := endsIn_of_stop? hhalt hnow hle hquiet hstop
  have hends : machine.run budget = machine.stop now.state outcome := by
    simp only [run, hhalt, hrun]
  refine ⟨Nat.find hexists, now, _, hnow, hstop, hquiet, ?_, ?_, ?_⟩
  · rw [hends]
  · rw [hends, state_stop]
  · rw [hends, isHalted_stop hhalt]

/-- A machine whose first step writes to a watched cell and leads to a breakpoint. -/
def contested : Machine :=
  let memory := #[6, 7, 3, 6, 7, 0, 1, 2, 0]
  { width := ⟨8, by decide⟩, loaded := memory, entry := 0, temps := [], state := ⟨memory, 0, 0⟩
    halt := none, points := ⟨[3], [7], none⟩ }

theorem run_stops_first_contested :
    contested.isHalted = false ∧ ∃ k now event, contested.after? k = some now ∧
      contested.stop? 1 k = some event ∧ (∀ i < k, contested.stop? 1 i = none) ∧
      (contested.run 1).2 = event ∧ (contested.run 1).1.state = now.state ∧
      ((contested.run 1).1.isHalted = true ↔ event.reason = .halted) :=
  ⟨rfl, run_stops_first contested rfl 1⟩

example : (contested.run 1).2 = ⟨.watchpoint, 3, 1, some 7, some 1, ""⟩ := by decide

end Subleq.Machine
