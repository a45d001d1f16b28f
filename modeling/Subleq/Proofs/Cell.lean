import Mathlib
import Subleq.Cell

/-!
# The arithmetic of cells

`Width.wrap` is the balanced remainder modulo `2 ^ bits`.  It always gives a value that a cell can
hold, leaves such a value as it is, and does not see an earlier wrapping of one of the operands of a
difference.  Whether arithmetic is strict makes no difference to a value that it accepts:
`Arithmetic.toCell` gives the wrapped value or nothing.
-/

namespace Subleq

namespace Width

variable (w : Width)

/-- The least value of a cell, as a power. -/
theorem min_eq : w.min = -(2 ^ (w.bits - 1)) := by
  rw [min, Nat.pow_eq, Nat.cast_pow, Nat.cast_ofNat]

/-- The largest value of a cell, as a power. -/
theorem max_eq : w.max = 2 ^ (w.bits - 1) - 1 := by
  rw [max, Nat.pow_eq, Nat.cast_pow, Nat.cast_ofNat]

/-- The number of values of a cell is twice that of the non-negative ones. -/
theorem two_pow_bits : (2 : Int) ^ w.bits = 2 * 2 ^ (w.bits - 1) := by
  have hbits : w.bits = (w.bits - 1) + 1 := by have := w.two_le_bits; omega
  conv_lhs => rw [hbits, pow_succ, mul_comm]

/-- There are at least two non-negative values of a cell. -/
theorem two_le_half : (2 : Int) ≤ 2 ^ (w.bits - 1) := by
  have h : 2 ^ 1 ≤ (2 : Nat) ^ (w.bits - 1) :=
    Nat.pow_le_pow_right (by omega) (by have := w.two_le_bits; omega)
  exact_mod_cast h

/-- Wrapping is the balanced remainder, also where it does not need the power. -/
theorem wrap_eq_bmod (x : Int) : w.wrap x = Int.bmod x (2 ^ w.bits) := by
  rw [wrap]
  split
  · next hlog =>
    -- a number with fewer bits than the cell is less than half of the modulus
    have hlt : x.natAbs < 2 ^ (w.bits - 1) :=
      lt_of_lt_of_le Nat.lt_log2_self (Nat.pow_le_pow_right (by omega) (by omega))
    have habs : (x.natAbs : Int) < 2 ^ (w.bits - 1) := by exact_mod_cast hlt
    have hpow := w.two_pow_bits
    symm
    apply Int.bmod_eq_of_le_mul_two
    · push_cast
      omega
    · push_cast
      omega
  · rfl

/-- A cell can hold a wrapped value. -/
theorem fits_wrap (x : Int) : w.Fits (w.wrap x) := by
  have hpow := w.two_pow_bits
  have hpos : 0 < 2 ^ w.bits := Nat.two_pow_pos _
  have hlow := Int.le_bmod (x := x) hpos
  have hhigh := Int.bmod_lt (x := x) hpos
  rw [wrap_eq_bmod]
  push_cast at hlow hhigh
  constructor
  · rw [min_eq]
    omega
  · rw [max_eq]
    omega

variable {w}

/-- Wrapping leaves what a cell can hold as it is. -/
theorem wrap_of_fits {x : Int} (h : w.Fits x) : w.wrap x = x := by
  have hpow := w.two_pow_bits
  obtain ⟨hlow, hhigh⟩ := h
  rw [min_eq] at hlow
  rw [max_eq] at hhigh
  rw [wrap_eq_bmod]
  apply Int.bmod_eq_of_le_mul_two
  · push_cast
    omega
  · push_cast
    omega

/-- What is subtracted may be wrapped before. -/
@[simp]
theorem wrap_sub_wrap (x y : Int) : w.wrap (x - w.wrap y) = w.wrap (x - y) := by
  simp only [wrap_eq_bmod, Int.sub_bmod_bmod]

theorem fits_zero : w.Fits 0 := by
  have := w.two_le_half
  exact ⟨by rw [min_eq]; omega, by rw [max_eq]; omega⟩

@[simp]
theorem wrap_zero : w.wrap 0 = 0 := wrap_of_fits fits_zero

/-- The address that halts fits into every cell. -/
theorem fits_neg_one : w.Fits (-1) := by
  have := w.two_le_half
  exact ⟨by rw [min_eq]; omega, by rw [max_eq]; omega⟩

/-- A natural number up to the greatest value of a cell can be held. -/
theorem fits_of_nonneg {x : Int} (h0 : 0 ≤ x) (h : x ≤ w.max) : w.Fits x := by
  have := w.two_le_half
  exact ⟨by rw [min_eq]; omega, h⟩

/-- The values that fit, as an interval. -/
theorem fits_iff {x : Int} : w.Fits x ↔ -(2 ^ (w.bits - 1)) ≤ x ∧ x < 2 ^ (w.bits - 1) := by
  rw [Fits, min_eq, max_eq, Int.le_sub_one_iff]

/-- Two numbers are wrapped alike exactly if they are congruent. -/
theorem wrap_eq_wrap_iff {x y : Int} : w.wrap x = w.wrap y ↔ x ≡ y [ZMOD 2 ^ w.bits] := by
  have hmodulus : ((2 ^ w.bits : Nat) : Int) = 2 ^ w.bits := by push_cast; rfl
  rw [wrap_eq_bmod, wrap_eq_bmod, Int.ModEq, ← hmodulus]
  constructor
  · intro h
    rw [← Int.bmod_emod, h, Int.bmod_emod]
  · intro h
    rw [← Int.emod_bmod, h, Int.emod_bmod]

theorem wrap_modEq (x : Int) : w.wrap x ≡ x [ZMOD 2 ^ w.bits] := by
  rw [← wrap_eq_wrap_iff]
  exact wrap_of_fits (w.fits_wrap x)

/-- There is one value of a cell for each residue. -/
theorem eq_wrap_iff {x value : Int} :
    value = w.wrap x ↔ value ≡ x [ZMOD 2 ^ w.bits] ∧ w.Fits value := by
  constructor
  · rintro rfl
    exact ⟨wrap_modEq x, w.fits_wrap x⟩
  · rintro ⟨hmod, hfits⟩
    rw [← wrap_eq_wrap_iff.mpr hmod, wrap_of_fits hfits]

/-- A width that is accepted has the number of bits that was asked for. -/
theorem bits_of_ofInt? {bits : Int} (h : ofInt? bits = some w) : (w.bits : Int) = bits := by
  rw [ofInt?] at h
  split at h
  · next htwo =>
    obtain rfl := Option.some.inj h
    show (bits.toNat : Int) = bits
    omega
  · cases h

end Width

namespace Arithmetic

variable {arith : Arithmetic} {value cell : Int} {location : Option Location}

/-- What fits is brought into a cell as it is. -/
theorem toCell_of_fits (h : arith.width.Fits value) : arith.toCell value location = .ok value := by
  unfold toCell
  rw [if_pos h]

/-- What strict arithmetic brings into a cell is what fits. -/
theorem toCell_eq_ok_of_strict (hstrict : arith.strict = true) :
    arith.toCell value location = .ok cell ↔ arith.width.Fits value ∧ value = cell := by
  unfold toCell
  by_cases hfits : arith.width.Fits value
  · rw [if_pos hfits]
    exact ⟨fun h => ⟨hfits, Except.ok.inj h⟩, fun h => congrArg Except.ok h.2⟩
  · rw [if_neg hfits, if_pos hstrict]
    constructor
    · intro h
      cases h
    · intro h
      exact absurd h.1 hfits

/-- Arithmetic that is not strict wraps. -/
theorem toCell_of_not_strict (hstrict : arith.strict = false) :
    arith.toCell value location = .ok (arith.width.wrap value) := by
  by_cases hfits : arith.width.Fits value
  · rw [toCell_of_fits hfits, Width.wrap_of_fits hfits]
  · unfold toCell
    rw [if_neg hfits, hstrict, if_neg (by decide)]

/-- A value that is brought into a cell, strictly or not, is the wrapped one. -/
theorem eq_wrap_of_toCell (h : arith.toCell value location = .ok cell) :
    cell = arith.width.wrap value := by
  rw [toCell] at h
  split at h
  · next hfits =>
    obtain rfl := Except.ok.inj h
    exact (Width.wrap_of_fits hfits).symm
  · split at h
    · cases h
    · exact (Except.ok.inj h).symm

theorem fits_of_toCell (h : arith.toCell value location = .ok cell) : arith.width.Fits cell := by
  rw [eq_wrap_of_toCell h]
  exact arith.width.fits_wrap value

end Arithmetic

end Subleq
