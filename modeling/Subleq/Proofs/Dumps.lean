import Mathlib
import Subleq.Command.Run
import Subleq.Proofs.Digits
import Subleq.Proofs.Reachable

/-!
# Dumps of memory

A dump shows the cells of a range, each with its address.  The range is brought into memory when the
cells are taken, and the addresses are counted apart from that, from the start of the range or from
zero.  The two agree (`dumpCells_eq`), so that every cell stands behind its own address.

An end below zero is not brought into memory but counts from the end of it.  So the range that is
shown is the one that was asked for exactly if its end is not below zero, or if no cell is left even
so (`closing_append_range`).

A cell with too many digits cannot be shown, and the output breaks off there.  In a memory of
moderate width there is none (`isShort_of_fits`).
-/

namespace Subleq.Command.Run

variable {machine : Machine} {start finish : Int} {range : Json × Json} {lines : List String}

/-- The lines that show the cells from `start` up to, and without, `finish`: one for each address of
the range that is in memory, in increasing order, and no others. -/
def Shows (machine : Machine) (start finish : Int) (lines : List String) : Prop :=
  ∃ addresses : List Int, addresses.Pairwise (· < ·) ∧
    (∀ a, a ∈ addresses ↔ (start ≤ a ∧ a < finish) ∧ machine.state.InMemory a) ∧
    lines = addresses.map fun a => cellLine (a, machine.state.cell a)

/-- The end that a dump goes by: one below zero counts from the end of memory. -/
def effectiveEnd (machine : Machine) (finish : Int) : Int :=
  if finish < 0 then finish + machine.memorySize else finish

/-- The numbers of the cells in a range, and their addresses, can be written. -/
def IsShort (machine : Machine) (start finish : Int) : Prop :=
  ∀ a, start ≤ a ∧ a < finish → machine.state.InMemory a →
    cellIsWritable (a, machine.state.cell a) = true

/-! ## The cells that are taken -/

/-- The end of the cells that are taken, with an end below zero counted from the end of memory. -/
theorem lt_dumpEnd {address : Nat} :
    address < machine.dumpEnd finish ↔
      (address : Int) < effectiveEnd machine finish ∧ address < machine.memorySize := by
  rw [Machine.dumpEnd, effectiveEnd]
  split_ifs <;> omega

/-- The addresses of the cells that a dump takes. -/
def dumped (machine : Machine) (start finish : Int) : List Int :=
  (List.range' start.toNat (machine.dumpEnd finish - start.toNat)).map Nat.cast

/-- No address is shown twice, and none out of order. -/
theorem pairwise_dumped : (dumped machine start finish).Pairwise (· < ·) := by
  rw [dumped, List.pairwise_map]
  simpa using List.pairwise_lt_range'

/-- The addresses that are shown are those of the range that are in memory. -/
theorem mem_dumped {a : Int} :
    a ∈ dumped machine start finish ↔
      (start ≤ a ∧ a < effectiveEnd machine finish) ∧ machine.state.InMemory a := by
  rw [dumped, List.mem_map, Machine.State.InMemory]
  constructor
  · rintro ⟨address, hrange, rfl⟩
    rw [List.mem_range'_1] at hrange
    obtain ⟨hend, hsize⟩ := lt_dumpEnd.mp (show address < machine.dumpEnd finish by omega)
    exact ⟨⟨by omega, hend⟩, by omega, by exact_mod_cast hsize⟩
  · rintro ⟨⟨hstart, hend⟩, hlow, hsize⟩
    have hcast : (a.toNat : Int) = a := Int.toNat_of_nonneg hlow
    have hlast : a.toNat < machine.dumpEnd finish :=
      lt_dumpEnd.mpr ⟨by omega, by rw [Machine.memorySize]; omega⟩
    refine ⟨a.toNat, ?_, hcast⟩
    rw [List.mem_range'_1]
    omega

/-- A cell of memory is read as what it holds. -/
theorem cell_natCast {state : Machine.State} {address : Nat} (h : address < state.memory.size) :
    state.cell address = state.memory[address] := by
  rw [Machine.State.cell, if_neg (by omega), Int.toNat_natCast, Array.getD_eq_getD_getElem?,
    Array.getElem?_eq_getElem h, Option.getD_some]

/-- The addresses that are counted are those of the cells that are taken. -/
theorem dumpCells_eq (machine : Machine) (start finish : Int) :
    dumpCells machine (start, finish) =
      (dumped machine start finish).map fun a => (a, machine.state.cell a) := by
  have hend : machine.dumpEnd finish ≤ machine.state.memory.size := by
    by_contra! h
    exact absurd (lt_dumpEnd.mp h).2 (lt_irrefl _)
  -- both lists are compared position by position; the first address is the start, or zero
  apply List.ext_getElem
  · simp only [dumpCells, dumped, Machine.dump, Option.getD_some, List.length_mapIdx,
      List.length_drop, List.length_take, Array.length_toList, List.length_map, List.length_range']
    omega
  · intro i _ hright
    simp only [dumped, List.length_map, List.length_range'] at hright
    have hcell := cell_natCast (show start.toNat + i < machine.state.memory.size by omega)
    have haddress : max start 0 + (i : Int) = ((start.toNat + i : Nat) : Int) := by omega
    simp only [dumpCells, dumped, Machine.dump, List.getElem_mapIdx, List.getElem_drop,
      List.getElem_take, Array.getElem_toList, List.getElem_map, List.getElem_range', one_mul,
      hcell, haddress]

/-- All cells that are taken can be shown exactly if the range is short. -/
theorem all_cellIsWritable :
    (dumpCells machine (start, finish)).all cellIsWritable = true ↔
      IsShort machine start (effectiveEnd machine finish) := by
  rw [dumpCells_eq, List.all_eq_true, List.forall_mem_map]
  constructor
  · intro hall a hrange hmem
    exact hall a (mem_dumped.mpr ⟨hrange, hmem⟩)
  · intro hshort a ha
    obtain ⟨hrange, hmem⟩ := mem_dumped.mp ha
    exact hshort a hrange hmem

/-- What fits into cells of moderate width can be written, and so can the addresses of a memory whose
cells can be counted. -/
theorem isShort_of_fits (hfits : machine.state.Fits machine.width)
    (hbits : machine.width.bits ≤ Digits.bitLimit) (hsize : machine.memorySize ≤ Capacity.cellBound)
    (start finish : Int) : IsShort machine start finish := by
  rintro a - ⟨hlow, hhigh⟩
  lift a to Nat using hlow
  rw [cellIsWritable, Bool.and_eq_true, cell_natCast (by exact_mod_cast hhigh)]
  refine ⟨@Digits.isWritable_of_le_two_pow _ 63 (by decide) ?_, ?_⟩
  · rw [Int.natAbs_natCast]
    exact (Int.ofNat_lt.mp hhigh).le.trans hsize
  · exact (hfits _ (Array.getElem_mem _)).isWritable hbits

/-! ## The lines that are printed -/

/-- The lines of a range, if all of them can be written. -/
theorem rangeLines_eq (machine : Machine) (hstart : range.1.int? = some start)
    (hfinish : range.2.int? = some finish) :
    rangeLines machine range =
      written ((dumpCells machine (start, finish)).all cellIsWritable)
        ((dumped machine start finish).map fun a => cellLine (a, machine.state.cell a)) := by
  have hfirst : Loading.startOf range.1 = .ok start := by simp only [Loading.startOf, hstart]
  have hlast : Loading.finishOf machine.memorySize range.2 = .ok finish := by
    simp only [Loading.finishOf, hfinish]
  rw [rangeLines, hfirst, hlast]
  show written _ ((dumpCells machine (start, finish)).map cellLine) = _
  rw [dumpCells_eq, List.map_map]
  rfl

/-- The lines of a range come after all others. -/
theorem closing_append (loaded : Loaded) (event : StopEvent) (pc : Text.Codes)
    (earlier : List (Json × Json)) (h : rangeLines machine range = .ok lines) :
    closing loaded machine event pc (earlier ++ [range]) =
      (closing loaded machine event pc earlier).map (· ++ lines) := by
  rw [closing, closing, List.mapM_append, List.mapM_cons, h]
  cases Text.chars? pc with
  | none => rfl
  | some chars =>
      simp only [bind, Except.bind]
      -- what comes before the ranges is printed, or the output breaks off there
      split
      · rfl
      split
      · rfl
      split
      · rfl
      cases earlier.mapM (rangeLines machine) with
      | error breakdown => rfl
      | ok groups => simp [pure, Except.pure, Except.map]

/-- The output breaks off at a range that cannot be shown, if it gets there. -/
theorem closing_append_of_error (loaded : Loaded) (event : StopEvent) (pc : Text.Codes)
    (earlier : List (Json × Json)) {breakdown : Loading.Breakdown}
    (h : rangeLines machine range = .error breakdown) :
    ∃ first, closing loaded machine event pc (earlier ++ [range]) = .error first := by
  rw [closing, List.mapM_append, List.mapM_cons, h]
  -- whatever fails first, the range at the end is not got past
  cases Text.chars? pc with
  | none => exact ⟨_, rfl⟩
  | some chars =>
      simp only [bind, Except.bind]
      split
      · exact ⟨_, rfl⟩
      split
      · exact ⟨_, rfl⟩
      split
      · exact ⟨_, rfl⟩
      cases earlier.mapM (rangeLines machine) with
      | error breakdown => exact ⟨_, rfl⟩
      | ok groups => exact ⟨_, rfl⟩

/-- The lines of the cells that are taken show the effective range. -/
theorem shows_dumped (machine : Machine) (start finish : Int) :
    Shows machine start (effectiveEnd machine finish)
      ((dumped machine start finish).map fun a => cellLine (a, machine.state.cell a)) :=
  ⟨dumped machine start finish, pairwise_dumped, fun _ => mem_dumped, rfl⟩

/-- No cell is before an end below zero. -/
theorem shows_of_neg (h : finish < 0) : Shows machine start finish lines ↔ lines = [] := by
  constructor
  · rintro ⟨addresses, -, hmem, rfl⟩
    rw [List.map_eq_nil_iff, List.eq_nil_iff_forall_not_mem]
    intro a ha
    obtain ⟨⟨-, hend⟩, hlow, -⟩ := (hmem a).mp ha
    omega
  · rintro rfl
    refine ⟨[], List.Pairwise.nil, ?_, rfl⟩
    intro a
    constructor
    · exact nofun
    · rintro ⟨⟨-, hend⟩, hlow, -⟩
      omega

/-- With an end below zero no cell is taken exactly if the end is before the start even when it is
counted from the end of memory. -/
theorem dumped_eq_nil (h : finish < 0) :
    dumped machine start finish = [] ↔ effectiveEnd machine finish ≤ max start 0 := by
  have hend : effectiveEnd machine finish = finish + machine.memorySize := if_pos h
  rw [List.eq_nil_iff_forall_not_mem]
  constructor
  · intro hnone
    by_contra! hlow
    have hsize : max start 0 < (machine.memorySize : Int) := by omega
    exact hnone (max start 0)
      (mem_dumped.mpr ⟨⟨le_max_left start 0, hlow⟩, le_max_right start 0, hsize⟩)
  · intro hlow a ha
    obtain ⟨⟨hstart, hlast⟩, hzero, -⟩ := mem_dumped.mp ha
    omega

/-- What is shown is what was asked for exactly if the end is not below zero, or no cell is left
before it. -/
theorem shows_dumped_iff (machine : Machine) (start finish : Int) :
    Shows machine start finish
        ((dumped machine start finish).map fun a => cellLine (a, machine.state.cell a)) ↔
      0 ≤ finish ∨ effectiveEnd machine finish ≤ max start 0 := by
  by_cases hneg : finish < 0
  · rw [shows_of_neg hneg, List.map_eq_nil_iff, dumped_eq_nil hneg]
    exact (or_iff_right (not_le.mpr hneg)).symm
  · have hend : effectiveEnd machine finish = finish := if_neg hneg
    have hshows := shows_dumped machine start finish
    rw [hend] at hshows
    exact iff_of_true hshows (.inl (not_lt.mp hneg))

/-- A range between two integers adds its lines to what the command prints.  They show the cells of
the range in which an end below zero is counted from the end of memory.  These are the cells that
were asked for exactly if the end is not below zero, or no cell is left before it when it has been
counted so.  Should one of the cells have too many digits, then the output breaks off, which does not
happen in memories of moderate width. -/
theorem closing_append_range (loaded : Loaded) (machine : Machine) (event : StopEvent)
    (pc : Text.Codes) (earlier : List (Json × Json)) (hstart : range.1.int? = some start)
    (hfinish : range.2.int? = some finish) :
    (IsShort machine start (effectiveEnd machine finish) →
      ∃ lines, rangeLines machine range = .ok lines ∧
        closing loaded machine event pc (earlier ++ [range]) =
          (closing loaded machine event pc earlier).map (· ++ lines) ∧
        Shows machine start (effectiveEnd machine finish) lines ∧
        (Shows machine start finish lines ↔
          0 ≤ finish ∨ effectiveEnd machine finish ≤ max start 0)) ∧
    (¬ IsShort machine start (effectiveEnd machine finish) →
      rangeLines machine range = .error (.excess .unwritten) ∧
      ∃ first, closing loaded machine event pc (earlier ++ [range]) = .error first) ∧
    (machine.state.Fits machine.width → machine.width.bits ≤ Digits.bitLimit →
      machine.memorySize ≤ Capacity.cellBound →
        IsShort machine start (effectiveEnd machine finish)) := by
  have hrange := rangeLines_eq machine hstart hfinish
  refine ⟨fun hshort => ?_, fun hlong => ?_, fun hfits hbits hsize =>
    isShort_of_fits hfits hbits hsize _ _⟩
  · rw [all_cellIsWritable.mpr hshort] at hrange
    exact ⟨_, hrange, closing_append loaded event pc earlier hrange,
      shows_dumped machine start finish, shows_dumped_iff machine start finish⟩
  · rw [Bool.eq_false_of_not_eq_true (mt all_cellIsWritable.mp hlong)] at hrange
    exact ⟨hrange, closing_append_of_error loaded event pc earlier hrange⟩

/-- A range that starts below zero and ends in memory. -/
theorem closing_append_range_inside :
    ∃ machine, Machine.build { cells := [7, 8, 9] } none none none = .ok machine ∧
      (Json.int (-3)).int? = some (-3) ∧ (Json.int 2).int? = some 2 ∧
      machine.state.Fits machine.width ∧ machine.width.bits ≤ Digits.bitLimit ∧
      machine.memorySize ≤ Capacity.cellBound ∧
      rangeLines machine (.int (-3), .int 2) = .ok ["     0: 7", "     1: 8"] ∧
      Shows machine (-3) 2 ["     0: 7", "     1: 8"] := by
  have hfits : (⟨#[7, 8, 9], 0, 0⟩ : Machine.State).Fits Width.default := by
    rw [Machine.State.Fits]
    decide
  refine ⟨_, rfl, rfl, rfl, hfits, by decide, by decide, rfl, ?_⟩
  obtain ⟨hshown, -, hshort⟩ := closing_append_range
    ⟨{ cells := [7, 8, 9] }, .int 0, [], []⟩
    ⟨Width.default, #[7, 8, 9], 0, [], ⟨#[7, 8, 9], 0, 0⟩, none, Breakpoints.none⟩
    (Machine.haltEvent ⟨#[7, 8, 9], 0, 0⟩ 7) (Text.codes "0") []
    (show (Json.int (-3), Json.int 2).1.int? = some (-3) from rfl)
    (show (Json.int (-3), Json.int 2).2.int? = some 2 from rfl)
  -- all values of 64 bits can be written, so the lines are there
  obtain ⟨lines, hlines, -, -, hshows⟩ := hshown (hshort hfits (by decide) (by decide))
  obtain rfl := Except.ok.inj hlines
  exact hshows.mpr (.inl (by decide))

/-- An end below zero: two of three cells are shown, where none was asked for. -/
theorem dump_before_negative_end :
    ∃ machine, Machine.build { cells := [7, 8, 9] } none none none = .ok machine ∧
      rangeLines machine (.int 0, .int (-1)) = .ok ["     0: 7", "     1: 8"] ∧
      ¬ Shows machine 0 (-1) ["     0: 7", "     1: 8"] := by
  refine ⟨_, rfl, rfl, ?_⟩
  rw [shows_of_neg (by decide)]
  exact nofun

end Subleq.Command.Run
