import Mathlib
import Subleq.Text.Utf8

/-!
# Texts in bytes

Every text is the one that its bytes encode (`Text.Utf8.decode_encode`).  Decoding goes byte by
byte, so the step is a whole character: `decodeFrom_encodeCode` follows the bytes of one code point,
of which there are up to four, and checks each of them against the range that the first one leaves
for it.
-/

namespace Subleq.Text.Utf8

variable {position : Nat} {chars : List Char} {bytes : List Nat}

/-- A byte that ends a sequence gives its character. -/
theorem decodeFrom_last {p : Partial} {bits : Nat} (hlow : p.low ≤ 0x80 + bits)
    (hhigh : 0x80 + bits ≤ p.high) (hmissing : p.missing = 1) :
    decodeFrom position (some p) chars ((0x80 + bits) :: bytes) =
      decodeFrom (position + 1) none (Char.ofNat (p.code * 64 + bits) :: chars) bytes := by
  have hcontinues : continues p.low p.high (0x80 + bits) = true := by simp [continues, hlow, hhigh]
  rw [decodeFrom, if_pos hcontinues]
  simp only [hmissing, if_true, Nat.add_sub_cancel_left]

/-- A byte inside of a sequence adds its bits. -/
theorem decodeFrom_inner {p : Partial} {bits : Nat} (hlow : p.low ≤ 0x80 + bits)
    (hhigh : 0x80 + bits ≤ p.high) (hmissing : p.missing ≠ 1) :
    decodeFrom position (some p) chars ((0x80 + bits) :: bytes) =
      decodeFrom (position + 1)
        (some ⟨p.position, p.first, p.code * 64 + bits, p.missing - 1, 0x80, 0xbf⟩) chars
        bytes := by
  have hcontinues : continues p.low p.high (0x80 + bits) = true := by simp [continues, hlow, hhigh]
  rw [decodeFrom, if_pos hcontinues]
  simp only [hmissing, if_false, Nat.add_sub_cancel_left]

/-- A byte that starts a longer sequence. -/
theorem decodeFrom_first {byte missing code low high : Nat}
    (h : sequence? byte = some (missing + 1, code, low, high)) :
    decodeFrom position none chars (byte :: bytes) =
      decodeFrom (position + 1) (some ⟨position, byte, code, missing + 1, low, high⟩) chars
        bytes := by
  rw [decodeFrom, h]
  rfl

/-- What one code is encoded to is decoded to its character. -/
theorem decodeFrom_encodeCode (c : Char) (position : Nat) (chars : List Char) (bytes : List Nat) :
    ∃ next, decodeFrom position none chars (encodeCode c.toNat ++ bytes) =
      decodeFrom next none (c :: chars) bytes := by
  have hvalid : c.toNat < 0xd800 ∨ 0xdfff < c.toNat ∧ c.toNat < 0x110000 := c.valid
  have hchar : ∀ n, n = c.toNat → Char.ofNat n = c := by
    rintro n rfl
    exact Char.ofNat_toNat c
  -- only the number of the character matters from here on
  generalize c.toNat = n at hvalid hchar
  rw [encodeCode]
  -- the length of the sequence depends on the number; each byte has six bits of it
  by_cases hone : n < 0x80
  · refine ⟨position + 1, ?_⟩
    rw [if_pos hone, List.singleton_append, decodeFrom, sequence?, if_pos hone]
    simp only [hchar n rfl]
  rw [if_neg hone]
  by_cases htwo : n < 0x800
  · refine ⟨position + 1 + 1, ?_⟩
    have hfirst : sequence? (0xc0 + n / 64) = some (0 + 1, n / 64, 0x80, 0xbf) := by
      rw [sequence?, if_neg (by omega), if_neg (by omega), if_pos (by omega),
        Nat.add_sub_cancel_left]
    rw [if_pos htwo, List.cons_append, decodeFrom_first hfirst, List.singleton_append,
      decodeFrom_last (by simp only; omega) (by simp only; omega) rfl,
      hchar _ (by simp only; omega)]
  rw [if_neg htwo]
  by_cases hthree : n < 0x10000
  · refine ⟨position + 1 + 1 + 1, ?_⟩
    have hfirst : sequence? (0xe0 + n / 4096) = some (1 + 1, n / 4096,
        if 0xe0 + n / 4096 = 0xe0 then 0xa0 else 0x80,
        if 0xe0 + n / 4096 = 0xed then 0x9f else 0xbf) := by
      rw [sequence?, if_neg (by omega), if_neg (by omega), if_neg (by omega), if_pos (by omega),
        Nat.add_sub_cancel_left]
    rw [if_pos hthree, List.cons_append, decodeFrom_first hfirst, List.cons_append,
      decodeFrom_inner (by simp only; split <;> omega) (by simp only; split <;> omega)
        (by simp only; omega),
      List.singleton_append, decodeFrom_last (by simp only; omega) (by simp only; omega) rfl,
      hchar _ (by simp only; omega)]
  · refine ⟨position + 1 + 1 + 1 + 1, ?_⟩
    have hfirst : sequence? (0xf0 + n / 262144) = some (2 + 1, n / 262144,
        if 0xf0 + n / 262144 = 0xf0 then 0x90 else 0x80,
        if 0xf0 + n / 262144 = 0xf4 then 0x8f else 0xbf) := by
      rw [sequence?, if_neg (by omega), if_neg (by omega), if_neg (by omega), if_neg (by omega),
        if_pos (by omega), Nat.add_sub_cancel_left]
    rw [if_neg hthree, List.cons_append, decodeFrom_first hfirst, List.cons_append,
      decodeFrom_inner (by simp only; split <;> omega) (by simp only; split <;> omega)
        (by simp only; omega),
      List.cons_append,
      decodeFrom_inner (by simp only; omega) (by simp only; omega) (by simp only; omega),
      List.singleton_append, decodeFrom_last (by simp only; omega) (by simp only; omega) rfl,
      hchar _ (by simp only; omega)]

/-- So is what a text is encoded to. -/
theorem decodeFrom_encode (text chars : List Char) (position : Nat) :
    decodeFrom position none chars (encode text) = .ok (chars.reverse ++ text) := by
  induction text generalizing position chars with
  | nil => exact congrArg Except.ok (List.append_nil _).symm
  | cons c text ih =>
      obtain ⟨next, hnext⟩ := decodeFrom_encodeCode c position chars (encode text)
      rw [encode, List.flatMap_cons, ← encode, hnext, ih, List.reverse_cons, List.append_assoc,
        List.singleton_append]

theorem decode_encode (text : List Char) : decode (encode text) = .ok text :=
  decodeFrom_encode text [] 0

end Subleq.Text.Utf8
