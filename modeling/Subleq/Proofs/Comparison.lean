import Subleq.Proofs.StraightLine

/-!
# Comparisons

The comparison is the only macro that branches.  It subtracts its operands from each other in
place and jumps if neither of the two differences is positive, which it finds out one after the other:
on the way it skips one of its five instructions, so four of them are executed (`Comparison.leads`).

If nothing is left in the temp fields, cells with equal contents are found equal if they are two
cells.  So are contents that differ by half of the range, where both differences wrap to the least
value.  A cell that is compared with itself has been cleared before the second difference is taken,
and is found equal to itself only if its negative is not positive (`Operation.je_leads`).

A comparison that follows another one finds what that has left in the temp fields.  `Comparison.Leaves`
says what a comparison of two cells leaves in which cell, for all contents (`Operation.je_leaves`).
-/

namespace Subleq

open Folding
open Machine (State Outside subtract)

/-! ## Signs of differences -/

namespace Width

variable {w : Width} {x y : Int}

variable (w) in
/-- Wrapping has the period of the cell. -/
theorem wrap_add_period (x : Int) : w.wrap (x + 2 ^ w.bits) = w.wrap x := by
  rw [wrap_eq_bmod, wrap_eq_bmod]
  exact_mod_cast Int.add_bmod_right x (2 ^ w.bits)

/-- Where the difference of two values of cells wraps to one that is not positive: it is not positive
itself, or it is too great for a cell, unless it is too small for one. -/
theorem wrap_nonpos_iff (hlow : -(2 ^ w.bits) < x) (hhigh : x < 2 ^ w.bits) :
    w.wrap x ≤ 0 ↔ -(2 ^ (w.bits - 1)) ≤ x ∧ x ≤ 0 ∨ 2 ^ (w.bits - 1) ≤ x := by
  have hhalf := w.two_le_half
  have hpow := w.two_pow_bits
  rcases lt_or_ge x (-(2 ^ (w.bits - 1))) with hsmall | hlow
  · rw [← w.wrap_add_period, wrap_of_fits (fits_iff.mpr ⟨by omega, by omega⟩)]
    omega
  rcases lt_or_ge x (2 ^ (w.bits - 1)) with hhigh | hgreat
  · rw [wrap_of_fits (fits_iff.mpr ⟨hlow, hhigh⟩)]
    omega
  · have hperiod := w.wrap_add_period (x - 2 ^ w.bits)
    rw [sub_add_cancel] at hperiod
    rw [hperiod, wrap_of_fits (fits_iff.mpr ⟨by omega, by omega⟩)]
    omega

/-- Neither of the two differences of values of cells is positive just if the values are equal or half
of the range apart. -/
theorem differences_nonpos_iff (hx : w.Fits x) (hy : w.Fits y) :
    w.wrap (x - y) ≤ 0 ∧ w.wrap (y - x) ≤ 0 ↔
      x = y ∨ x - y = 2 ^ (w.bits - 1) ∨ y - x = 2 ^ (w.bits - 1) := by
  have hhalf := w.two_le_half
  have hpow := w.two_pow_bits
  rw [fits_iff] at hx hy
  rw [wrap_nonpos_iff (by omega) (by omega), wrap_nonpos_iff (by omega) (by omega)]
  omega

/-- The negative of a value of a cell is not positive if the value is not negative, or is the least
one. -/
theorem wrap_neg_nonpos_iff (hx : w.Fits x) : w.wrap (-x) ≤ 0 ↔ 0 ≤ x ∨ x = w.min := by
  have hhalf := w.two_le_half
  have hpow := w.two_pow_bits
  rw [fits_iff] at hx
  rw [wrap_nonpos_iff (by omega) (by omega), min_eq]
  omega

/-- Half of the range is one too much for a cell. -/
theorem wrap_half : w.wrap (2 ^ (w.bits - 1)) = w.min := by
  have hhalf := w.two_le_half
  have hpow := w.two_pow_bits
  have hmin : w.Fits w.min := by
    rw [fits_iff, min_eq]
    omega
  rw [← wrap_of_fits hmin, wrap_eq_wrap_iff, min_eq, Int.modEq_iff_dvd]
  exact ⟨-1, by omega⟩

/-- Neither a difference nor its negative is positive just if it is zero or half of the range, up to
multiples of the range. -/
theorem wrap_nonpos_both_iff :
    w.wrap x ≤ 0 ∧ w.wrap (-x) ≤ 0 ↔
      x ≡ 0 [ZMOD 2 ^ w.bits] ∨ x ≡ 2 ^ (w.bits - 1) [ZMOD 2 ^ w.bits] := by
  have hmin : w.min ≤ 0 := by
    have hhalf := w.two_le_half
    rw [min_eq]
    omega
  rw [← wrap_eq_wrap_iff, ← wrap_eq_wrap_iff, wrap_zero, wrap_half, ← zero_sub, ← wrap_sub_wrap,
    zero_sub, wrap_neg_nonpos_iff (w.fits_wrap x)]
  omega

end Width

/-! ## Comparisons of cells -/

/-- A comparison, with the cells that its operands stand for, and where it jumps to. -/
structure Comparison where
  left : Int
  right : Int
  target : Int
deriving DecidableEq, Repr

namespace Comparison

/-- The instructions of a comparison at `base`, where `t` and `e` are the cells of `$t` and `$e`. -/
def code (t e base : Int) (comparison : Comparison) : List (Int × Int × Int) :=
  [(comparison.left, e, base + 3), (e, t, base + 6), (comparison.right, comparison.left, base + 12),
    (e, e, base + 15), (t, comparison.right, comparison.target)]

/-- The cells that its instructions name, all of which it writes to. -/
def named (t e : Int) (comparison : Comparison) : List Int :=
  [comparison.left, comparison.right, t, e]

/-- What a comparison at `base` needs: cells that are inside of memory and not among those of its own
instructions, and temp fields of its own. -/
structure Ready (t e base : Int) (s : State) (comparison : Comparison) : Prop where
  named : ∀ address ∈ comparison.named t e, s.InMemory address
  outside : ∀ address ∈ comparison.named t e, Outside base 5 address
  left_ne_t : comparison.left ≠ t
  left_ne_e : comparison.left ≠ e
  right_ne_t : comparison.right ≠ t
  right_ne_e : comparison.right ≠ e
  t_ne_e : t ≠ e

/-- The contents of the cells after the left operand has been added to `$t` by way of `$e`. -/
def copied (width : Width) (t e : Int) (cells : Int → Int) (comparison : Comparison) : Int → Int :=
  subtract width (subtract width cells comparison.left e) e t

/-- The contents of the cells after the right operand has been subtracted from the left one, too. -/
def difference (width : Width) (t e : Int) (cells : Int → Int) (comparison : Comparison) :
    Int → Int :=
  subtract width (comparison.copied width t e cells) comparison.right comparison.left

/-- The contents of the cells after it: if the difference is not positive, the copy of the left operand
is subtracted from the right one, and if it is, `$e` is cleared. -/
def effect (width : Width) (t e : Int) (cells : Int → Int) (comparison : Comparison) : Int → Int :=
  let difference := comparison.difference width t e cells
  if difference comparison.left ≤ 0 then subtract width difference t comparison.right
  else Function.update difference e 0

/-- Whether it jumps: neither difference is positive. -/
def Jumps (width : Width) (t e : Int) (cells : Int → Int) (comparison : Comparison) : Prop :=
  comparison.difference width t e cells comparison.left ≤ 0 ∧
    comparison.effect width t e cells comparison.right ≤ 0

instance (width : Width) (t e : Int) (cells : Int → Int) (comparison : Comparison) :
    Decidable (comparison.Jumps width t e cells) :=
  inferInstanceAs (Decidable (_ ∧ _))

variable {t e base : Int} {s : State} {cells : Int → Int} {comparison : Comparison}

/-! ## Running a comparison -/

/-- The first three instructions take the difference, and skip the fourth one if it is not positive. -/
theorem leads_difference (width : Width) (h : s.Holds base (comparison.code t e base))
    (hpc : s.pc = base) (hready : comparison.Ready t e base s) :
    ∃ s', s.Leads width 3 s'
      (if comparison.difference width t e s.cell comparison.left ≤ 0 then base + 12 else base + 9)
      (comparison.difference width t e s.cell) ∧
      s'.Holds (base + 9) [(e, e, base + 15), (t, comparison.right, comparison.target)] := by
  have hleft := hready.named comparison.left (by simp [named])
  have hright := hready.named comparison.right (by simp [named])
  have ht := hready.named t (by simp [named])
  have he := hready.named e (by simp [named])
  -- `$e` loses the left operand
  have hfirst := h.step_next width rfl hpc hleft he
  have hcode := hfirst.holds h.2.2 (hready.outside e (by simp [named])).tail
  -- `$t` loses what `$e` holds then
  have hsecond := hcode.step_next width (by omega) hfirst.pc_eq (hfirst.inMemory he)
    (hfirst.inMemory ht)
  have hcode := hsecond.holds hcode.2.2 (hready.outside t (by simp [named])).tail.tail
  have hboth := hfirst.trans hsecond
  -- the difference replaces the left operand; its sign decides where to go on
  have hthird := hcode.step width hsecond.pc_eq (hboth.inMemory hright) (hboth.inMemory hleft)
  have hcode := hthird.holds hcode.2.2
    (hready.outside comparison.left (by simp [named])).tail.tail.tail
  have hall := hboth.trans hthird
  rw [hsecond.cell_eq, hfirst.cell_eq] at hall
  have hplace : base + 3 + 3 + 3 = base + 9 := by omega
  rw [hplace] at hall hcode
  exact ⟨_, hall, hcode⟩

/-- A comparison executes four of its five instructions. -/
theorem leads (width : Width) (h : s.Holds base (comparison.code t e base)) (hpc : s.pc = base)
    (hready : comparison.Ready t e base s) :
    ∃ s', s.Leads width 4 s'
      (if comparison.Jumps width t e s.cell then comparison.target else base + 15)
      (comparison.effect width t e s.cell) := by
  obtain ⟨s', hleads, hcode⟩ := leads_difference width h hpc hready
  have hpc' := hleads.pc_eq
  -- the sign of the difference tells which of the two instructions is the last one
  by_cases hnonpos : comparison.difference width t e s.cell comparison.left ≤ 0
  · have heffect : comparison.effect width t e s.cell =
        subtract width (comparison.difference width t e s.cell) t comparison.right :=
      if_pos hnonpos
    -- the right operand loses what `$t` holds, with a jump if it is not positive then
    have hlast := hcode.2.2.step width (by rw [hpc', if_pos hnonpos]; omega)
      (hleads.inMemory (hready.named t (by simp [named])))
      (hleads.inMemory (hready.named comparison.right (by simp [named])))
    have hend : base + 9 + 3 + 3 = base + 15 := by omega
    rw [hleads.cell_eq, ← heffect, hend] at hlast
    simp only [Jumps, hnonpos, true_and]
    exact ⟨_, hleads.trans hlast⟩
  · have heffect : comparison.effect width t e s.cell =
        Function.update (comparison.difference width t e s.cell) e 0 := if_neg hnonpos
    -- the difference is positive: clearing `$e` always goes on behind the comparison
    have hlast := hcode.clear width (by rw [hpc', if_neg hnonpos])
      (hleads.inMemory (hready.named e (by simp [named])))
    rw [hleads.cell_eq, ← heffect] at hlast
    rw [if_neg fun hjumps : comparison.Jumps width t e s.cell => hnonpos hjumps.1]
    exact ⟨_, hleads.trans hlast⟩

/-! ## What is found equal -/

/-- The copies touch nothing but the two temp fields. -/
theorem copied_of_ne (width : Width) {address : Int} (ht : address ≠ t) (he : address ≠ e) :
    comparison.copied width t e cells address = cells address := by
  rw [copied, subtract, Function.update_of_ne ht, subtract, Function.update_of_ne he]

variable {width : Width}

/-- After the copies the first field has the left operand added to it. -/
theorem Ready.copied_t (h : comparison.Ready t e base s) :
    comparison.copied width t e cells t =
      width.wrap (cells t + cells comparison.left - cells e) := by
  have hresult : cells t - (cells e - cells comparison.left) =
      cells t + cells comparison.left - cells e := by omega
  rw [copied, Machine.subtract_apply, Machine.subtract_apply, Width.wrap_sub_wrap, subtract,
    Function.update_of_ne h.t_ne_e, hresult]

/-- After the subtraction the left operand holds the difference. -/
theorem Ready.difference_left (h : comparison.Ready t e base s) :
    comparison.difference width t e cells comparison.left =
      width.wrap (cells comparison.left - cells comparison.right) := by
  rw [difference, Machine.subtract_apply, copied_of_ne width h.left_ne_t h.left_ne_e,
    copied_of_ne width h.right_ne_t h.right_ne_e]

/-- The subtraction leaves the first field alone. -/
theorem Ready.difference_t (h : comparison.Ready t e base s) :
    comparison.difference width t e cells t =
      width.wrap (cells t + cells comparison.left - cells e) := by
  rw [difference, subtract, Function.update_of_ne h.left_ne_t.symm, h.copied_t]

/-- A cell that is compared with itself is zero by then. -/
theorem Ready.difference_right (h : comparison.Ready t e base s) :
    comparison.difference width t e cells comparison.right =
      if comparison.right = comparison.left then 0 else cells comparison.right := by
  split
  · next heq =>
    rw [heq, h.difference_left, heq, sub_self, Width.wrap_zero]
  · next hne =>
    rw [difference, subtract, Function.update_of_ne hne,
      copied_of_ne width h.right_ne_t h.right_ne_e]

/-- Whether a comparison jumps, for all contents of the temp fields. -/
theorem Ready.jumps_iff (h : comparison.Ready t e base s) :
    comparison.Jumps width t e cells ↔
      width.wrap (cells comparison.left - cells comparison.right) ≤ 0 ∧
        width.wrap ((if comparison.right = comparison.left then 0 else cells comparison.right) -
          (cells t + cells comparison.left - cells e)) ≤ 0 := by
  rw [Jumps, h.difference_left]
  refine and_congr_right fun hnonpos => ?_
  rw [effect, if_pos (h.difference_left.trans_le hnonpos), Machine.subtract_apply, h.difference_t,
    Width.wrap_sub_wrap, h.difference_right]

/-- The cells that a comparison finds equal if nothing is left in the temp fields. -/
def FindsEqual (width : Width) (cells : Int → Int) (comparison : Comparison) : Prop :=
  if comparison.right = comparison.left then
    0 ≤ cells comparison.left ∨ cells comparison.left = width.min
  else
    cells comparison.left = cells comparison.right ∨
      cells comparison.left - cells comparison.right = 2 ^ (width.bits - 1) ∨
      cells comparison.right - cells comparison.left = 2 ^ (width.bits - 1)

instance (width : Width) (cells : Int → Int) (comparison : Comparison) :
    Decidable (comparison.FindsEqual width cells) :=
  inferInstanceAs (Decidable (ite _ _ _))

/-- With clear temp fields the last instruction jumps exactly if the comparison finds its operands
equal. -/
theorem Ready.jumps_iff_findsEqual (h : comparison.Ready t e base s) (ht : cells t = 0)
    (he : cells e = 0) (hleft : width.Fits (cells comparison.left))
    (hright : width.Fits (cells comparison.right)) :
    comparison.Jumps width t e cells ↔ comparison.FindsEqual width cells := by
  rw [h.jumps_iff, ht, he, zero_add, sub_zero, FindsEqual]
  split
  · next heq =>
    rw [heq, sub_self, Width.wrap_zero, and_iff_right le_rfl, zero_sub,
      Width.wrap_neg_nonpos_iff hleft]
  · exact Width.differences_nonpos_iff hleft hright

/-- With nothing left in the temp fields, a comparison of two cells jumps just if their difference is
zero or half of the range, up to multiples of the range. -/
theorem Ready.jumps_iff_modEq (h : comparison.Ready t e base s)
    (hne : comparison.right ≠ comparison.left) (ht : cells t = 0) (he : cells e = 0) :
    comparison.Jumps width t e cells ↔
      cells comparison.left - cells comparison.right ≡ 0 [ZMOD 2 ^ width.bits] ∨
        cells comparison.left - cells comparison.right ≡
          2 ^ (width.bits - 1) [ZMOD 2 ^ width.bits] := by
  rw [h.jumps_iff, if_neg hne, ht, he, zero_add, sub_zero, ← Width.wrap_nonpos_both_iff, neg_sub]

/-! ## What is left behind -/

/-- What a comparison of two cells leaves behind.  Its left operand is the difference, and has been
added to `$t`, less what was in `$e`.  If the difference is positive, `$e` is cleared, the right
operand is unchanged, and the machine goes on after the comparison.  Otherwise the negative of the left
operand has been added to `$e`, `$t` has been subtracted from the right operand, and the sign of that
decides on the jump. -/
structure Leaves (width : Width) (t e base : Int) (s s' : State) (comparison : Comparison) :
    Prop where
  left : s'.cell comparison.left =
    width.wrap (s.cell comparison.left - s.cell comparison.right)
  copy : s'.cell t = width.wrap (s.cell t + s.cell comparison.left - s.cell e)
  of_pos : 0 < s'.cell comparison.left →
    s'.cell comparison.right = s.cell comparison.right ∧ s'.cell e = 0 ∧ s'.pc = base + 15
  of_nonpos : s'.cell comparison.left ≤ 0 →
    s'.cell e = width.wrap (s.cell e - s.cell comparison.left) ∧
      s'.cell comparison.right = width.wrap (s.cell comparison.right - s'.cell t) ∧
      s'.pc = if s'.cell comparison.right ≤ 0 then comparison.target else base + 15
  others : ∀ address ∉ comparison.named t e, s'.cell address = s.cell address
  size_eq : s'.memory.size = s.memory.size

variable {s' : State}

/-- Four different cells are temp fields of its own and two operands. -/
theorem ready_of_nodup (hnodup : (comparison.named t e).Nodup)
    (hmemory : ∀ address ∈ comparison.named t e, s.InMemory address)
    (houtside : ∀ address ∈ comparison.named t e, Outside base 5 address) :
    comparison.Ready t e base s ∧ comparison.right ≠ comparison.left := by
  simp only [named, List.nodup_cons, List.mem_cons, List.not_mem_nil, or_false, not_or,
    not_false_eq_true, List.nodup_nil, and_true] at hnodup
  rcases hnodup with ⟨⟨hleft, hleft_t, hleft_e⟩, ⟨hright_t, hright_e⟩, htemp⟩
  exact ⟨⟨hmemory, houtside, hleft_t, hleft_e, hright_t, hright_e, htemp⟩, Ne.symm hleft⟩

/-- The cells that are not named keep their contents. -/
theorem effect_of_notMem {address : Int} (h : address ∉ comparison.named t e) :
    comparison.effect width t e cells address = cells address := by
  simp only [named, List.mem_cons, List.not_mem_nil, or_false, not_or] at h
  rcases h with ⟨hleft, hright, ht, he⟩
  have hdifference : comparison.difference width t e cells address = cells address := by
    rw [difference, subtract, Function.update_of_ne hleft, copied_of_ne width ht he]
  rw [effect]
  split
  · rw [subtract, Function.update_of_ne hright, hdifference]
  · rw [Function.update_of_ne he, hdifference]

/-- The second field has the left operand subtracted from it. -/
theorem Ready.difference_e (h : comparison.Ready t e base s) :
    comparison.difference width t e cells e = width.wrap (cells e - cells comparison.left) := by
  rw [difference, subtract, Function.update_of_ne h.left_ne_e.symm, copied, subtract,
    Function.update_of_ne h.t_ne_e.symm, Machine.subtract_apply]

/-- The effect of a comparison of two cells, and its way on, cell by cell. -/
theorem leaves_of_leads (hready : comparison.Ready t e base s)
    (hne : comparison.right ≠ comparison.left)
    (h : s.Leads width 4 s'
      (if comparison.Jumps width t e s.cell then comparison.target else base + 15)
      (comparison.effect width t e s.cell)) :
    comparison.Leaves width t e base s s' := by
  have hcell := h.cell_eq
  have hpc := h.pc_eq
  have hright : comparison.difference width t e s.cell comparison.right =
      s.cell comparison.right := by rw [hready.difference_right, if_neg hne]
  have hothers : ∀ address ∉ comparison.named t e, s'.cell address = s.cell address := by
    intro address haddress
    rw [hcell, effect_of_notMem haddress]
  by_cases hnonpos : comparison.difference width t e s.cell comparison.left ≤ 0
  · -- the copy of the left operand is subtracted from the right one
    have hleft : s'.cell comparison.left =
        comparison.difference width t e s.cell comparison.left := by
      rw [hcell, effect, if_pos hnonpos, subtract, Function.update_of_ne hne.symm]
    have htemp : s'.cell t = comparison.difference width t e s.cell t := by
      rw [hcell, effect, if_pos hnonpos, subtract, Function.update_of_ne hready.right_ne_t.symm]
    refine ⟨by rw [hleft, hready.difference_left], by rw [htemp, hready.difference_t], ?_, ?_, hothers,
      h.size_eq⟩
    · intro hpos
      rw [hleft] at hpos
      exact absurd hnonpos (not_le.mpr hpos)
    · intro _
      refine ⟨?_, ?_, ?_⟩
      · rw [hcell, effect, if_pos hnonpos, subtract, Function.update_of_ne hready.right_ne_e.symm,
          hready.difference_e]
      · rw [htemp, hcell, effect, if_pos hnonpos, Machine.subtract_apply, hright]
      · rw [hpc, hcell]
        simp only [Jumps, hnonpos, true_and]
  · -- the temp field `$e` is cleared
    have hleft : s'.cell comparison.left =
        comparison.difference width t e s.cell comparison.left := by
      rw [hcell, effect, if_neg hnonpos, Function.update_of_ne hready.left_ne_e]
    refine ⟨by rw [hleft, hready.difference_left], ?_, ?_, ?_, hothers, h.size_eq⟩
    · rw [hcell, effect, if_neg hnonpos, Function.update_of_ne hready.t_ne_e, hready.difference_t]
    · intro _
      refine ⟨?_, ?_, ?_⟩
      · rw [hcell, effect, if_neg hnonpos, Function.update_of_ne hready.right_ne_e, hright]
      · rw [hcell, effect, if_neg hnonpos, Function.update_self]
      · rw [hpc, if_neg fun hjumps : comparison.Jumps width t e s.cell => hnonpos hjumps.1]
    · intro hnot
      rw [hleft] at hnot
      exact absurd hnot hnonpos

end Comparison

/-! ## Comparisons of the source -/

namespace Operation

/-- The comparison of cells that a comparison comes to.  Its operands are evaluated in `table`, with
`here` as the value of `$`, and the pool and the temp fields have their places in `placed`. -/
def Compares (table placed : SymbolTable) (here : Int) (a b target : Operand)
    (comparison : Comparison) : Prop :=
  ∃ left right goal table₁ table₂ table₃,
    Yields (a.lowerRead here) table left table₁ ∧ left.At placed comparison.left ∧
    Yields (b.lowerRead here) table₁ right table₂ ∧ right.At placed comparison.right ∧
    Yields (target.lowerTarget here) table₂ goal table₃ ∧ goal.At placed comparison.target

variable {table table' placed : SymbolTable} {here base t e : Int} {location : Location}
  {a b target : Operand} {triples : List Triple} {s : State} {comparison comparison' : Comparison}

/-- An operation compares the same cells in every reading of it. -/
theorem Compares.unique (h : Compares table placed here a b target comparison)
    (h' : Compares table placed here a b target comparison') : comparison = comparison' := by
  obtain ⟨_, _, _, _, _, _, ha, hleft, hb, hright, htarget, hgoal⟩ := h
  obtain ⟨_, _, _, _, _, _, ha', hleft', hb', hright', htarget', hgoal'⟩ := h'
  obtain ⟨rfl, rfl⟩ := ha.unique ha'
  obtain ⟨rfl, rfl⟩ := hb.unique hb'
  obtain ⟨rfl, rfl⟩ := htarget.unique htarget'
  cases comparison
  cases comparison'
  rw [Comparison.mk.injEq]
  exact ⟨hleft.unique hleft', hright.unique hright', hgoal.unique hgoal'⟩

/-- The triples of a comparison stand for the code of the comparison of cells that it comes to. -/
theorem exists_comparison (hexpand : Yields ((je a b target).expand base location) table triples table')
    (hheld : ∀ triple ∈ triples, triple.HeldBy placed s) (ht : (Slot.temp .t).At placed t)
    (he : (Slot.temp .e).At placed e) :
    ∃ comparison : Comparison, Compares table placed (base + 5 * tripleSize) a b target comparison ∧
      s.Holds base (comparison.code t e base) := by
  -- the cells are told by two of the triples: the third names both operands, the fifth the target
  obtain ⟨slots, code, last, hslots, hcells, hcode⟩ := holds_of_expand hexpand hheld
  simp only [Operation.slots, yields_bind, yields_pure] at hslots
  obtain ⟨left, _, ha, right, _, hb, goal, _, htarget, rfl, -⟩ := hslots
  have hthird : (right, left, after base 3) ∈ equalSlots base left right goal := by
    simp [equalSlots]
  have hfifth : (.temp .t, right, goal) ∈ equalSlots base left right goal := by simp [equalSlots]
  obtain ⟨third, hright, hleft, -⟩ := Slot.exists_allAt_of_mem hcells hthird
  obtain ⟨fifth, -, -, hgoal⟩ := Slot.exists_allAt_of_mem hcells hfifth
  refine ⟨⟨third.2.1, third.1, fifth.2.2⟩,
    ⟨left, right, goal, _, _, _, ha, hleft, hb, hright, htarget, hgoal⟩, ?_⟩
  -- all five triples have the cells of the comparison, and slots have one cell each
  have hcomparison : List.Forall₂ (Slot.AllAt placed) (equalSlots base left right goal)
      (Comparison.code t e base ⟨third.2.1, third.1, fifth.2.2⟩) :=
    .cons (Slot.allAt_of_at hleft he (at_after (by omega))) <|
      .cons (Slot.allAt_of_at he ht (at_after (by omega))) <|
      .cons (Slot.allAt_of_at hright hleft (at_after (by omega))) <|
      .cons (Slot.allAt_of_at he he (at_after (by omega))) <|
      .cons (Slot.allAt_of_at ht hright hgoal) .nil
  rwa [Slot.code_unique hcells hcomparison] at hcode

/-- A comparison with nothing left in the temp fields jumps to its target just if it finds its operands
equal, which are then two cells with the same contents or with contents that are half of the range
apart, or one cell with the least value or one that is not negative.  Otherwise it goes on after its
instructions. -/
theorem je_leads (hexpand : Yields ((je a b target).expand base location) table triples table')
    (hheld : ∀ triple ∈ triples, triple.HeldBy placed s) (hpc : s.pc = base)
    (ht : (Slot.temp .t).At placed t) (he : (Slot.temp .e).At placed e) (htzero : s.cell t = 0)
    (hezero : s.cell e = 0) :
    ∃ comparison : Comparison,
      Compares table placed (base + 5 * tripleSize) a b target comparison ∧
      (comparison.Ready t e base s → table.arith.width.Fits (s.cell comparison.left) →
        table.arith.width.Fits (s.cell comparison.right) →
        ∃ s', State.Advances table.arith.width 4 s s' ∧
          (comparison.FindsEqual table.arith.width s.cell → s'.pc = comparison.target) ∧
          (¬ comparison.FindsEqual table.arith.width s.cell → s'.pc = base + 15)) := by
  obtain ⟨comparison, hcompares, hcode⟩ := exists_comparison hexpand hheld ht he
  refine ⟨comparison, hcompares, fun hready hleft hright => ?_⟩
  obtain ⟨s', hleads⟩ := Comparison.leads table.arith.width hcode hpc hready
  have hpc' := hleads.pc_eq
  rw [if_congr (hready.jumps_iff_findsEqual htzero hezero hleft hright) rfl rfl] at hpc'
  refine ⟨s', hleads.advances, fun hequal => ?_, fun hdifferent => ?_⟩
  · rw [hpc', if_pos hequal]
  · rw [hpc', if_neg hdifferent]

/-- The code of a comparison of the cells 15 and 16, of which the second one holds the least value. -/
def halfApartState : State :=
  ⟨#[15, 18, 3, 18, 17, 6, 16, 15, 12, 18, 18, 15, 17, 16, 21, 0, -9223372036854775808, 0, 0, 0], 0, 0⟩

theorem je_leads_half_apart : ∃ s', State.Advances .default 4 halfApartState s' ∧ s'.pc = 21 := by
  -- the facts about the concrete table and state are evaluated, one by one
  have hexpand : Yields
      ((je (cellOperand 15) (cellOperand 16) (cellOperand 21)).expand 0 .predefined) namelessTable
      (number 0 0 (equalSlots 0 (.address 15) (.address 16) (.address 21))) namelessTable := by
    decide +kernel
  have hheld : ∀ triple ∈ number 0 0 (equalSlots 0 (.address 15) (.address 16) (.address 21)),
      triple.HeldBy (placedTable 17) halfApartState := by decide +kernel
  have ht : (Slot.temp .t).At (placedTable 17) 17 := by decide +kernel
  have he : (Slot.temp .e).At (placedTable 17) 18 := by decide +kernel
  have hcompares : Compares namelessTable (placedTable 17) 15 (cellOperand 15) (cellOperand 16)
      (cellOperand 21) ⟨15, 16, 21⟩ :=
    ⟨.address 15, .address 16, .address 21, namelessTable, namelessTable, namelessTable,
      by decide +kernel⟩
  obtain ⟨comparison, h, heffect⟩ := je_leads hexpand hheld rfl ht he rfl rfl
  obtain rfl := h.unique hcompares
  obtain ⟨s', hadvances, hequal, -⟩ :=
    heffect ⟨by decide, by decide, by decide, by decide, by decide, by decide, by decide⟩
      (by decide +kernel) (by decide +kernel)
  exact ⟨s', hadvances, hequal (by decide +kernel)⟩

/-- A comparison of a literal with itself. -/
def selfComparisonSource : String := "je -5, -5, done\nhlt\ndone: hlt\n"

/-- The literal is found different from itself. -/
theorem self_comparison_fails : ∃ image machine,
    assemble {} [] selfComparisonSource "<input>" = .ok image ∧
      Machine.build (.ofImage image) none none none = .ok machine ∧
      machine.state.pc = 0 ∧
      OrderedMap.get? image.pool (-5) = some 21 ∧ machine.state.cell 21 = -5 ∧
      OrderedMap.get? image.temps "$t" = some 23 ∧ machine.state.cell 23 = 0 ∧
      OrderedMap.get? image.temps "$e" = some 24 ∧ machine.state.cell 24 = 0 ∧
      image.value? "done" = some 18 ∧ (machine.run 4).1.state.pc = 15 :=
  Machine.exists_loaded (by decide +kernel)

/-! ## Four different cells -/

/-- The exact effect of a comparison whose operands and temp fields are four different cells, for all
contents of them: four of its instructions are executed.  With nothing left in the temp fields, it jumps
just if the difference of its operands is zero or half of the range, up to multiples of the range. -/
theorem je_leaves (width : Width)
    (hexpand : Yields ((je a b target).expand base location) table triples table')
    (hheld : ∀ triple ∈ triples, triple.HeldBy placed s) (hpc : s.pc = base)
    (ht : (Slot.temp .t).At placed t) (he : (Slot.temp .e).At placed e) :
    ∃ comparison : Comparison,
      Compares table placed (base + 5 * tripleSize) a b target comparison ∧
      ((comparison.named t e).Nodup →
        (∀ address ∈ comparison.named t e, s.InMemory address) →
        (∀ address ∈ comparison.named t e, Outside base 5 address) →
        ∃ s', State.Advances width 4 s s' ∧ comparison.Leaves width t e base s s' ∧
          (s.cell t = 0 → s.cell e = 0 →
            s'.pc =
              if s.cell comparison.left - s.cell comparison.right ≡ 0 [ZMOD 2 ^ width.bits] ∨
                s.cell comparison.left - s.cell comparison.right ≡
                  2 ^ (width.bits - 1) [ZMOD 2 ^ width.bits]
              then comparison.target else base + 15)) := by
  obtain ⟨comparison, hcompares, hcode⟩ := exists_comparison hexpand hheld ht he
  refine ⟨comparison, hcompares, fun hnodup hmemory houtside => ?_⟩
  obtain ⟨hready, hne⟩ := Comparison.ready_of_nodup hnodup hmemory houtside
  obtain ⟨s', hleads⟩ := Comparison.leads width hcode hpc hready
  refine ⟨s', hleads.advances, Comparison.leaves_of_leads hready hne hleads, ?_⟩
  intro htzero hezero
  rw [hleads.pc_eq, if_congr (hready.jumps_iff_modEq hne htzero hezero) rfl rfl]

/-- The code of a comparison of the cells 15 and 16, whose difference is half of the range, with 7 left
in `$t` and 3 in `$e`. -/
def leftoverState : State :=
  ⟨#[15, 18, 3, 18, 17, 6, 16, 15, 12, 18, 18, 15, 17, 16, 21, 9223372036854775807, -1, 7, 3, 0], 0, 0⟩

theorem je_leaves_leftovers : ∃ s', State.Advances .default 4 leftoverState s' ∧ s'.pc = 15 ∧
    s'.cell 15 = -9223372036854775808 ∧ s'.cell 16 = 9223372036854775804 ∧
    s'.cell 17 = -9223372036854775805 ∧ s'.cell 18 = -9223372036854775804 ∧
    ∀ address ∉ [15, 16, 17, 18], s'.cell address = leftoverState.cell address := by
  have hexpand : Yields
      ((je (cellOperand 15) (cellOperand 16) (cellOperand 21)).expand 0 .predefined) namelessTable
      (number 0 0 (equalSlots 0 (.address 15) (.address 16) (.address 21))) namelessTable := by
    decide +kernel
  have hheld : ∀ triple ∈ number 0 0 (equalSlots 0 (.address 15) (.address 16) (.address 21)),
      triple.HeldBy (placedTable 17) leftoverState := by decide +kernel
  have ht : (Slot.temp .t).At (placedTable 17) 17 := by decide +kernel
  have he : (Slot.temp .e).At (placedTable 17) 18 := by decide +kernel
  have hcompares : Compares namelessTable (placedTable 17) 15 (cellOperand 15) (cellOperand 16)
      (cellOperand 21) ⟨15, 16, 21⟩ :=
    ⟨.address 15, .address 16, .address 21, namelessTable, namelessTable, namelessTable,
      by decide +kernel⟩
  obtain ⟨comparison, h, heffect⟩ := je_leaves .default hexpand hheld rfl ht he
  obtain rfl := h.unique hcompares
  obtain ⟨s', hadvances, hleaves, -⟩ := heffect (by decide) (by decide) (by decide)
  have hleft : s'.cell 15 = -9223372036854775808 := hleaves.left.trans (by decide +kernel)
  have hcopy : s'.cell 17 = -9223372036854775805 := hleaves.copy.trans (by decide +kernel)
  -- the right operand loses what `$t` holds, whatever that is
  obtain ⟨htemp, hright, hpc⟩ := hleaves.of_nonpos (hleft.trans_le (by decide))
  rw [hcopy] at hright
  have hdifference : s'.cell 16 = 9223372036854775804 := hright.trans (by decide +kernel)
  simp only [hdifference] at hpc
  exact ⟨s', hadvances, hpc, hleft, hdifference, hcopy, htemp.trans (by decide +kernel),
    hleaves.others⟩

end Operation

end Subleq
