import Mathlib
import Subleq.Digits
import Subleq.Expr.Value
import Subleq.Proofs.Bitwise

/-!
# Numbers that can be written

A number can be written exactly if it is below the power of ten that has one digit too many
(`Digits.isWritable_iff`).  What a cell of at most `Digits.bitLimit` bits holds always can
(`Width.Fits.isWritable`), and a power of two that needs a wider one cannot
(`Digits.not_isWritable_two_pow`).

The numbers that come up in an assembly are bounded by the width of its cells (`Width.Bounds`), and
one operation at most doubles the number of their bits (`BinaryOp.natAbs_apply_le`).  If the cells
are half as wide as the limit, then all of them can be written (`Width.IsNarrow`).
-/

namespace Subleq

namespace Digits

/-- The widest cells all of whose contents can be written. -/
def bitLimit : Nat := 14285

/-- A number can be written exactly if it is below the power of ten that has one digit too many. -/
theorem isWritable_iff {n : Int} : isWritable n = true ↔ n.natAbs < 10 ^ limit := by
  rw [isWritable, decide_eq_true_eq, count, Nat.length_toDigits_le_iff (by decide) (by decide)]

/-- A number cannot be written exactly if it is beyond that power. -/
theorem isWritable_eq_false_iff {n : Int} : isWritable n = false ↔ 10 ^ limit ≤ n.natAbs := by
  rw [← Bool.not_eq_true, isWritable_iff, not_lt]

theorem two_pow_lt {bits : Nat} (h : bits < bitLimit) : 2 ^ bits < 10 ^ limit :=
  calc 2 ^ bits
    _ ≤ 2 ^ 14284 := Nat.pow_le_pow_right (by decide) (Nat.le_of_lt_succ h)
    _ < 10 ^ limit := by decide +kernel

/-- Numbers of fewer bits than the limit can be written. -/
theorem isWritable_of_le_two_pow {n : Int} {bits : Nat} (hbits : bits < bitLimit)
    (h : n.natAbs ≤ 2 ^ bits) : isWritable n = true :=
  isWritable_iff.mpr (h.trans_lt (two_pow_lt hbits))

/-- A power of two that needs a wider cell cannot. -/
theorem not_isWritable_two_pow {bits : Nat} (h : bitLimit ≤ bits) :
    isWritable (2 ^ bits) = false := by
  rw [isWritable_eq_false_iff, Int.natAbs_pow]
  calc 10 ^ limit
    _ ≤ 2 ^ bitLimit := by decide +kernel
    _ ≤ 2 ^ bits := Nat.pow_le_pow_right (by decide) h

/-- The least number that has too many digits. -/
theorem not_isWritable_ten_pow : isWritable (10 ^ limit) = false := by
  rw [isWritable_eq_false_iff, Int.natAbs_pow]
  gcongr
  decide

section Writing

variable {α : Type} {writable : Bool} {text text' : α} {excess : Excess}

/-- Only what can be written is written, as it is. -/
@[simp]
theorem writing_eq_ok : writing writable text = .ok text' ↔ writable = true ∧ text = text' := by
  cases writable <;> simp [writing]

@[simp]
theorem writing_eq_error :
    writing writable text = .error excess ↔ writable = false ∧ excess = .unwritten := by
  cases writable <;> simp [writing, eq_comm]

end Writing

end Digits

/-- What a cell holds can be written, unless the cell is wider than `Digits.bitLimit`. -/
theorem Width.Fits.isWritable {w : Width} {value : Int} (hfits : w.Fits value)
    (hbits : w.bits ≤ Digits.bitLimit) : Digits.isWritable value = true := by
  have hlow := hfits.1
  have hhigh := hfits.2
  rw [Width.min_eq] at hlow
  rw [Width.max_eq] at hhigh
  have hexponent : w.bits - 1 < Digits.bitLimit := by have := w.two_le_bits; omega
  refine Digits.isWritable_of_le_two_pow hexponent ?_
  have hcast : ((2 ^ (w.bits - 1) : Nat) : Int) = 2 ^ (w.bits - 1) := by push_cast; rfl
  omega

/-! ## Results -/

namespace Width

variable {w : Width} {x y : Int}

/-- No larger than a cell has contents.  The addresses of a memory are bounded in this way up to the
one after the last, which need not fit into a cell. -/
def Bounds (w : Width) (value : Int) : Prop := value.natAbs ≤ 2 ^ w.bits

/-- Cells so narrow that the results of operations on what they hold can be written. -/
def IsNarrow (w : Width) : Prop := 2 * w.bits < Digits.bitLimit

/-- A power of two fits into a cell that has one more bit than it, and one for the sign. -/
theorem fits_two_pow {k : Nat} (h : k + 1 < w.bits) : w.Fits (2 ^ k) := by
  have hhalf : (2 : Int) ^ k < 2 ^ (w.bits - 1) := pow_lt_pow_right₀ (by decide) (by omega)
  have hpos : (0 : Int) < 2 ^ k := pow_pos (by decide) k
  exact fits_iff.mpr ⟨by omega, hhalf⟩

/-- The contents of a cell are bounded by its width, and so is the number after the greatest. -/
theorem bounds_of_le_max_add_one (hlow : w.min ≤ x) (hhigh : x ≤ w.max + 1) : w.Bounds x := by
  rw [min_eq] at hlow
  rw [max_eq] at hhigh
  have htwo := w.two_pow_bits
  have hcast : ((2 ^ w.bits : Nat) : Int) = 2 ^ w.bits := by push_cast; rfl
  unfold Bounds
  omega

/-- What fits into a cell is bounded by its width. -/
theorem Fits.bounds (h : w.Fits x) : w.Bounds x :=
  bounds_of_le_max_add_one h.1 (Int.le_add_one h.2)

/-- What is bounded by a square can be written if the cells are narrow. -/
theorem IsNarrow.isWritable_of_le (h : w.IsNarrow) (hx : x.natAbs ≤ 2 ^ (2 * w.bits)) :
    Digits.isWritable x = true :=
  Digits.isWritable_of_le_two_pow h hx

/-- Twice the bound is within its square. -/
theorem double_le_square (w : Width) : 2 * 2 ^ w.bits ≤ 2 ^ (2 * w.bits) := by
  rw [← pow_succ']
  exact Nat.pow_le_pow_right (by decide) (by have := w.two_le_bits; omega)

/-- What a narrow width bounds can be written. -/
theorem IsNarrow.isWritable (h : w.IsNarrow) (hx : w.Bounds x) : Digits.isWritable x = true :=
  h.isWritable_of_le (hx.trans (by have := w.double_le_square; omega))

/-- The width itself is a small number. -/
theorem IsNarrow.isWritable_bits (h : w.IsNarrow) : Digits.isWritable w.bits = true :=
  h.isWritable (by rw [Bounds, Int.natAbs_natCast]; exact Nat.lt_two_pow_self.le)

end Width

namespace Bitwise

variable {x y : Int} {k : Nat}

/-- A word of `k` bits, of which one more tells the sign. -/
def IsWord (k : Nat) : Int → Prop
  | .ofNat m | .negSucc m => m < 2 ^ k

/-- A word is no larger than its bits allow. -/
theorem IsWord.natAbs_le (h : IsWord k x) : x.natAbs ≤ 2 ^ k := by
  cases x with
  | ofNat m => exact Nat.le_of_lt h
  | negSucc m => exact h

theorem isWord_of_natAbs_lt (h : x.natAbs < 2 ^ k) : IsWord k x := by
  cases x with
  | ofNat m => exact h
  | negSucc m => exact Nat.lt_of_succ_lt h

/-- Taking bits away makes no number longer. -/
theorem without_lt {m n : Nat} (h : m < 2 ^ k) : without m n < 2 ^ k :=
  Nat.xor_lt_two_pow h (Nat.and_le_left.trans_lt h)

/-- The conjunction of words is a word. -/
theorem IsWord.conj (hx : IsWord k x) (hy : IsWord k y) : IsWord k (conj x y) := by
  cases x <;> cases y
  · exact Nat.and_lt_two_pow _ hy
  · exact without_lt hx
  · exact without_lt hy
  · exact Nat.or_lt_two_pow hx hy

/-- So is their disjunction. -/
theorem IsWord.disj (hx : IsWord k x) (hy : IsWord k y) : IsWord k (disj x y) := by
  cases x <;> cases y
  · exact Nat.or_lt_two_pow hx hy
  · exact without_lt hy
  · exact without_lt hx
  · exact Nat.and_lt_two_pow _ hy

theorem IsWord.exclusive (hx : IsWord k x) (hy : IsWord k y) : IsWord k (exclusive x y) := by
  cases x <;> cases y <;> exact Nat.xor_lt_two_pow hx hy

end Bitwise

namespace BinaryOp

variable {op : BinaryOp} {w : Width} {x y result : Int}

/-- One operation at most doubles the number of bits. -/
theorem natAbs_apply_le (hx : w.Bounds x) (hy : w.Bounds y) (h : op.apply w x y = .ok result) :
    result.natAbs ≤ 2 ^ (2 * w.bits) := by
  have hdouble := w.double_le_square
  -- logical operations do not leave the words of one bit more than a cell
  have hword : ∀ {z}, w.Bounds z → Bitwise.IsWord (w.bits + 1) z := by
    intro z hz
    exact Bitwise.isWord_of_natAbs_lt (hz.trans_lt (Nat.pow_lt_pow_succ (by decide)))
  have hwords : ∀ {z}, Bitwise.IsWord (w.bits + 1) z → z.natAbs ≤ 2 ^ (2 * w.bits) := by
    intro z hz
    refine hz.natAbs_le.trans ?_
    rwa [pow_succ']
  unfold Width.Bounds at hx hy
  -- sums double a bound and products square it; a shift is cut off at the width
  cases op with
  | add | sub =>
      obtain rfl := Except.ok.inj h
      omega
  | mul =>
      obtain rfl := Except.ok.inj h
      rw [Int.natAbs_mul, two_mul, pow_add]
      exact Nat.mul_le_mul hx hy
  | div =>
      rw [apply] at h
      split at h
      · cases h
      · obtain rfl := Except.ok.inj h
        exact (Int.natAbs_tdiv_le_natAbs x y).trans (by omega)
  | mod =>
      rw [apply] at h
      split at h
      · cases h
      · obtain rfl := Except.ok.inj h
        rw [Int.natAbs_tmod]
        exact (Nat.mod_le _ _).trans (by omega)
  | and =>
      obtain rfl := Except.ok.inj h
      exact hwords ((hword hx).conj (hword hy))
  | or =>
      obtain rfl := Except.ok.inj h
      exact hwords ((hword hx).disj (hword hy))
  | xor =>
      obtain rfl := Except.ok.inj h
      exact hwords ((hword hx).exclusive (hword hy))
  | shiftLeft =>
      rw [apply] at h
      split at h
      · cases h
      · obtain rfl := Except.ok.inj h
        rw [Bitwise.shiftUp_eq, Int.natAbs_mul, Int.natAbs_pow, two_mul, pow_add]
        exact Nat.mul_le_mul hx (Nat.pow_le_pow_right (by decide) (Nat.min_le_right _ _))
  | shiftRight =>
      rw [apply] at h
      split at h
      · cases h
      · obtain rfl := Except.ok.inj h
        rw [Bitwise.shiftDown_eq]
        exact (Int.natAbs_ediv_le_natAbs x _).trans (by omega)
  | unknown text => cases h

/-- An operation is refused with a number only if that is its right operand. -/
theorem isWritable_of_apply_eq_error {cause : Cause} (hy : Digits.isWritable y = true)
    (h : op.apply w x y = .error cause) : cause.isWritable = true := by
  -- only a shift quotes a number, which is its right operand
  cases op with
  | add | sub | mul | and | or | xor => cases h
  | div | mod =>
      rw [apply] at h
      split at h
      · obtain rfl := Except.error.inj h
        rfl
      · cases h
  | shiftLeft | shiftRight =>
      rw [apply] at h
      split at h
      · obtain rfl := Except.error.inj h
        exact hy
      · cases h
  | unknown text =>
      obtain rfl := Except.error.inj h
      rfl

end BinaryOp

end Subleq
