import Subleq.Machine.Stop

/-!
# Breakpoints and watchpoints

Addresses at which a run stops before the instruction there is executed, and cells after whose
writing it stops.  A check that stops a run leaves its event behind.
-/

namespace Subleq

abbrev AddressSet : Type := List Int

namespace AddressSet

def insert (address : Int) : AddressSet → AddressSet
  | [] => [address]
  | other :: rest =>
      if address < other then address :: other :: rest
      else if address = other then other :: rest
      else other :: insert address rest

def erase (address : Int) (set : AddressSet) : AddressSet := set.filter (· != address)

end AddressSet

/-- Where a run stops, and the event of the last check that stopped one. -/
structure Breakpoints where
  breaks : AddressSet
  watches : AddressSet
  last : Option StopEvent
deriving DecidableEq, Repr

namespace Breakpoints

/-- Nothing stops a run. -/
def none : Breakpoints := ⟨[], [], .none⟩

/-- Whether a run stops before the instruction at an address. -/
def breaksAt (points : Breakpoints) (pc : Int) : Bool := points.breaks.contains pc

/-- Whether a run stops after writing to a cell. -/
def watchesCell (points : Breakpoints) (address : Int) : Bool := points.watches.contains address

def breakEvent (pc steps : Int) : StopEvent := { reason := .breakpoint, pc, steps, address := pc }

/-- The event of having written to a watched cell. -/
def watchEvent (address value pc steps : Int) : StopEvent :=
  { reason := .watchpoint, pc, steps, address := some address, value := some value }

/-- Checks an arrival; the run goes on if the result is true. -/
def checkPc (points : Breakpoints) (pc steps : Int) : Bool × Breakpoints :=
  if points.breaksAt pc then (false, { points with last := some (breakEvent pc steps) })
  else (true, points)

/-- Checks a write; the run goes on if the result is true. -/
def checkWrite (points : Breakpoints) (address value pc steps : Int) : Bool × Breakpoints :=
  if points.watchesCell address then
    (false, { points with last := some (watchEvent address value pc steps) })
  else (true, points)

end Breakpoints

end Subleq
