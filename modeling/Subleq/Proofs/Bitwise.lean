import Subleq.Bitwise
import Subleq.Proofs.Cell

/-!
# Bitwise operations

The operations of `Bitwise` go by the signs of their operands.  They are the operations on infinite
two's-complement words: conjunction, disjunction and exclusion work bit by bit, so that each of them
is an instance of `Int.bitwise`, and the shifts multiply and divide by powers of two.

What works bit by bit cannot tell apart words that agree in their lowest bits
(`modEq_bitwise`), and words agree in the lowest `k` bits just if they are congruent modulo `2 ^ k`.
-/

namespace Subleq

namespace Bitwise

/-! ## Words bit by bit -/

/-- Taking bits away is the difference of bit sets. -/
theorem without_eq_ldiff (m n : Nat) : without m n = Nat.ldiff m n := by
  apply Nat.eq_of_testBit_eq
  intro i
  rw [without, Nat.testBit_xor, Nat.testBit_and, Nat.testBit_ldiff]
  cases m.testBit i <;> cases n.testBit i <;> rfl

/-- The complement is the one of two's complement arithmetic. -/
theorem complement_eq_lnot (x : Int) : complement x = Int.lnot x := by
  cases x with
  | ofNat m =>
      show -(m : Int) - 1 = Int.negSucc m
      omega
  | negSucc m =>
      show -Int.negSucc m - 1 = (m : Int)
      omega

theorem conj_eq_bitwise (x y : Int) : conj x y = Int.bitwise and x y := by
  rw [Int.bitwise_and]
  cases x <;> cases y <;> simp only [conj, Int.land, without_eq_ldiff] <;> rfl

theorem disj_eq_bitwise (x y : Int) : disj x y = Int.bitwise or x y := by
  rw [Int.bitwise_or]
  cases x <;> cases y <;> simp only [disj, Int.lor, without_eq_ldiff]
  rfl

/-- The exclusive disjunction acts on each bit. -/
theorem exclusive_eq_bitwise (x y : Int) : exclusive x y = Int.bitwise xor x y := by
  rw [Int.bitwise_xor]
  cases x <;> cases y <;> rfl

/-- Words that agree in one more bit than others agree in their lowest bit and behind it. -/
theorem modEq_bit_iff {a a' : Bool} {m m' : Int} {k : Nat} :
    Int.bit a m ≡ Int.bit a' m' [ZMOD 2 ^ (k + 1)] ↔ a = a' ∧ m ≡ m' [ZMOD 2 ^ k] := by
  have hpow : (2 : Int) ^ (k + 1) = 2 * 2 ^ k := by rw [pow_succ, mul_comm]
  have hlowest : ∀ {b b' : Bool} {n n' t : Int},
      Int.bit b' n' - Int.bit b n = 2 * t ↔ b = b' ∧ n' - n = t := by
    intro b b' n n' t
    rw [Int.bit_val, Int.bit_val]
    cases b <;> cases b' <;> simp <;> omega
  rw [Int.modEq_iff_dvd, Int.modEq_iff_dvd, hpow]
  constructor
  · rintro ⟨t, ht⟩
    rw [mul_assoc, hlowest] at ht
    exact ⟨ht.1, t, ht.2⟩
  · rintro ⟨ha, t, ht⟩
    exact ⟨t, by rw [mul_assoc, hlowest]; exact ⟨ha, ht⟩⟩

/-- The lowest bits of a result depend on the lowest bits of the operands only. -/
theorem modEq_bitwise (f : Bool → Bool → Bool) {k : Nat} {x x' y y' : Int}
    (hx : x ≡ x' [ZMOD 2 ^ k]) (hy : y ≡ y' [ZMOD 2 ^ k]) :
    Int.bitwise f x y ≡ Int.bitwise f x' y' [ZMOD 2 ^ k] := by
  induction k generalizing x x' y y' with
  | zero =>
      rw [pow_zero]
      exact Int.modEq_one
  | succ k ih =>
      rw [← Int.bit_decomp x, ← Int.bit_decomp x', modEq_bit_iff] at hx
      rw [← Int.bit_decomp y, ← Int.bit_decomp y', modEq_bit_iff] at hy
      rw [← Int.bit_decomp x, ← Int.bit_decomp x', ← Int.bit_decomp y, ← Int.bit_decomp y',
        Int.bitwise_bit, Int.bitwise_bit, modEq_bit_iff, hx.1, hy.1]
      exact ⟨rfl, ih hx.2 hy.2⟩

/-! ## Shifts -/

/-- A shift to the left multiplies by a power of two. -/
theorem shiftUp_eq (x : Int) (count : Nat) : shiftUp x count = x * 2 ^ count := by
  rw [shiftUp, Nat.pow_eq, Nat.cast_pow, Nat.cast_ofNat]

/-- Past the highest place of a number nothing changes any more. -/
theorem shiftDown_eq (x : Int) (count : Nat) : shiftDown x count = x / 2 ^ count := by
  have habs : x.natAbs < 2 ^ (x.natAbs.log2 + 1) := Nat.lt_log2_self
  have hbound : (x.natAbs : Int) < 2 ^ (x.natAbs.log2 + 1) := by exact_mod_cast habs
  rw [shiftDown, Int.shiftRight_eq_div_pow, Nat.cast_pow, Nat.cast_ofNat]
  rcases le_total count (x.natAbs.log2 + 1) with hle | hle
  · rw [min_eq_left hle]
  · have hpow : (2 : Int) ^ (x.natAbs.log2 + 1) ≤ 2 ^ count := pow_le_pow_right₀ (by omega) hle
    rw [min_eq_right hle]
    rcases lt_or_ge x 0 with hneg | hnonneg
    · rw [Int.ediv_eq_neg_one_of_neg_of_le hneg (by omega),
        Int.ediv_eq_neg_one_of_neg_of_le hneg (by omega)]
    · rw [Int.ediv_eq_zero_of_lt hnonneg (by omega), Int.ediv_eq_zero_of_lt hnonneg (by omega)]

end Bitwise

/-- A value that is shifted by the width or more does not fit into a cell, except for zero. -/
theorem Width.eq_zero_of_fits_shiftUp {w : Width} {x : Int} {count : Nat} (hcount : w.bits ≤ count)
    (h : w.Fits (Bitwise.shiftUp x count)) : x = 0 := by
  have hpow : (2 : Int) ^ w.bits ≤ 2 ^ count := pow_le_pow_right₀ (by omega) hcount
  have htwo := w.two_pow_bits
  have hhalf := w.two_le_half
  obtain ⟨hlow, hhigh⟩ := h
  rw [Bitwise.shiftUp_eq, min_eq] at hlow
  rw [Bitwise.shiftUp_eq, max_eq] at hhigh
  by_contra hx
  rcases lt_or_gt_of_ne hx with hneg | hpos
  · nlinarith
  · nlinarith

end Subleq
