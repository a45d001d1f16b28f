import Mathlib
import Subleq.Numeral
import Subleq.Proofs.JsonRoundTrip

/-!
# Numerals of integers

A numeral may have digits of any script, a sign, underscores between its digits and blanks around
it.  The one that an integer is written as has none of these but a minus sign, and stands for that
integer, unless it has too many digits (`Numeral.decimal?_toString`).  Integers that are written
alike are equal, however long they are (`Numeral.toString_injective`).
-/

namespace Subleq

namespace Text

/-- Decimal digits have neighbouring code points. -/
theorem toNat_of_isDigit {c : Char} (h : c.isDigit = true) : 48 ≤ c.toNat ∧ c.toNat ≤ 57 :=
  Char.isDigit_iff_toNat.mp h

/-- A digit is not blank. -/
theorem isBlank_of_isDigit {c : Char} (h : c.isDigit = true) : isBlank c = false := by
  obtain ⟨hlow, hhigh⟩ := toNat_of_isDigit h
  simp only [isBlank, isSeparator, Bool.or_eq_false_iff, Bool.and_eq_false_iff,
    decide_eq_false_iff_not, beq_eq_false_iff_ne]
  omega

/-- Nothing is stripped from a text without characters of the class. -/
theorem stripBy_of_forall {inClass : Char → Bool} {text : List Char}
    (h : ∀ c ∈ text, inClass c = false) : stripBy inClass text = text := by
  have hdrop : ∀ run : List Char, (∀ c ∈ run, inClass c = false) → run.dropWhile inClass = run := by
    rintro (_ | ⟨c, run⟩) hrun
    · rfl
    · rw [List.dropWhile_cons_of_neg (by simp [hrun c List.mem_cons_self])]
  rw [stripBy, hdrop text h, hdrop _ fun c hc => h c (List.mem_reverse.mp hc),
    List.reverse_reverse]

end Text

namespace Numeral

/-- A digit of ASCII is the one that it counts as. -/
theorem plainDigit_of_isDigit {c : Char} (h : c.isDigit = true) : plainDigit c = c := by
  obtain ⟨hlow, hhigh⟩ := Text.toNat_of_isDigit h
  have hvalue : Text.digitValue? c = some (c.toNat - 0x30) := by
    have hfirst : (decide (0x30 ≤ c.toNat) && decide (c.toNat < 0x30 + 10)) = true := by
      rw [Bool.and_eq_true, decide_eq_true_eq, decide_eq_true_eq]
      omega
    rw [Text.digitValue?, Text.digitZeros, List.find?_cons, hfirst, Option.map_some]
  rw [plainDigit, hvalue]
  simp only
  rw [show 0x30 + (c.toNat - 0x30) = c.toNat by omega, Char.ofNat_toNat]

/-- A run of digits stands for its value, which continues the value of the digits before it. -/
theorem digitsFrom?_of_digits {digits : List Char} (h : ∀ c ∈ digits, Text.isDigitIn 10 c = true)
    {mayEnd : Bool} (hend : mayEnd = true ∨ digits ≠ []) (total : Nat) :
    digitsFrom? 10 total mayEnd digits =
      some (digits.foldl (fun n c => n * 10 + (Text.digitIn? 10 c).getD 0) total) := by
  induction digits generalizing mayEnd total with
  | nil =>
      obtain rfl : mayEnd = true := hend.resolve_right fun hne => hne rfl
      rfl
  | cons c rest ih =>
      obtain ⟨hc, hrest⟩ := List.forall_mem_cons.mp h
      obtain ⟨d, hd⟩ := Option.isSome_iff_exists.mp hc
      have hne : c ≠ '_' := by
        rintro rfl
        exact absurd hc (by decide)
      rw [digitsFrom?, if_neg hne, hd, List.foldl_cons, hd, Option.getD_some]
      exact ih hrest (.inl rfl) _

/-- A numeral consists of digits, and they are worth the number. -/
theorem digits?_toDigits (n : Nat) : digits? 10 (Nat.toDigits 10 n) = some n := by
  have hdigits : ∀ c ∈ Nat.toDigits 10 n, Text.isDigitIn 10 c = true :=
    fun c hc => Text.isDigitIn_of_mem_toDigits (by decide) (by decide) hc
  rw [digits?, digitsFrom?_of_digits hdigits (.inr Nat.toDigits_ne_nil)]
  exact congrArg some (Text.digitsValue_toDigits (by decide) (by decide) n)

/-- The characters of the numeral of an integer. -/
theorem mem_toString {c : Char} {value : Int} (h : c ∈ (toString value).toList) :
    c = '-' ∨ c.isDigit = true := by
  rw [Json.toList_toString, List.mem_append] at h
  rcases h with h | h
  · split at h
    · exact .inl (List.mem_singleton.mp h)
    · cases h
  · exact .inr (Nat.isDigit_of_mem_toDigits (by decide) (by decide) h)

/-- No character of a numeral is blank. -/
theorem isBlank_of_mem_toString {c : Char} {value : Int} (h : c ∈ (toString value).toList) :
    Text.isBlank c = false := by
  rcases mem_toString h with rfl | hdigit
  · decide
  · exact Text.isBlank_of_isDigit hdigit

theorem toString_ne_nil (value : Int) : (toString value).toList ≠ [] := by
  rw [Json.toList_toString]
  exact List.append_ne_nil_of_right_ne_nil _ Nat.toDigits_ne_nil

/-- What is read of the numeral of an integer: its digits, which are made negative after a minus
sign. -/
theorem read?_toString (magnitude? : List Char → Option Nat) (value : Int) :
    read? magnitude? (toString value).toList =
      (magnitude? (Nat.toDigits 10 value.natAbs)).map fun (n : Nat) =>
        if value < 0 then -(n : Int) else n := by
  -- a numeral has neither blanks nor digits of another script
  have hplain : (toString value).toList.map plainDigit = (toString value).toList := by
    refine (List.map_congr_left fun c hc => ?_).trans (List.map_id _)
    rcases mem_toString hc with rfl | hdigit
    · decide
    · exact plainDigit_of_isDigit hdigit
  have hstrip : Text.stripBy isBlank (toString value).toList = (toString value).toList :=
    Text.stripBy_of_forall fun c hc => by rw [isBlank, isBlank_of_mem_toString hc, Bool.false_and]
  rw [read?, parts, hplain, hstrip, Json.toList_toString]
  by_cases hvalue : value < 0
  · simp only [if_pos hvalue, List.singleton_append, signed]
    rfl
  · have hsigned : signed (Nat.toDigits 10 value.natAbs) =
        (false, Nat.toDigits 10 value.natAbs) := by
      have hhead : ∀ sign rest, Nat.toDigits 10 value.natAbs = sign :: rest →
          sign.isDigit = true := fun sign rest heq =>
        Nat.isDigit_of_mem_toDigits (by decide) (by decide) (heq ▸ List.mem_cons_self)
      unfold signed
      split
      · next heq => exact absurd (hhead _ _ heq) (by decide)
      · next heq => exact absurd (hhead _ _ heq) (by decide)
      · rfl
    simp only [if_neg hvalue, List.nil_append, hsigned]
    rfl

/-- A number is its magnitude with its sign. -/
theorem sign_natAbs (value : Int) :
    (if value < 0 then -(value.natAbs : Int) else value.natAbs) = value := by
  split <;> omega

/-- A run of digits is counted as a whole. -/
theorem runFrom?_of_digits {digits : List Char} (h : ∀ c ∈ digits, c.isDigit = true)
    {mayEnd : Bool} (hend : mayEnd = true ∨ digits ≠ []) (count : Nat) :
    runFrom? count mayEnd digits = some (count + digits.length) := by
  induction digits generalizing mayEnd count with
  | nil =>
      obtain rfl : mayEnd = true := hend.resolve_right fun hne => hne rfl
      rfl
  | cons c rest ih =>
      obtain ⟨hc, hrest⟩ := List.forall_mem_cons.mp h
      have hne : c ≠ '_' := by
        rintro rfl
        exact absurd hc (by decide)
      rw [runFrom?, if_neg hne, if_pos hc, ih hrest (.inl rfl), List.length_cons]
      congr 1
      omega

/-- The digits of a numeral are read if they are not too many. -/
theorem decimalDigits?_toDigits (n : Nat) :
    decimalDigits? (Nat.toDigits 10 n) =
      if (Nat.toDigits 10 n).length ≤ Digits.limit then some n else none := by
  have hrun : runFrom? 0 false (Nat.toDigits 10 n) = some (Nat.toDigits 10 n).length := by
    rw [runFrom?_of_digits (fun c => Nat.isDigit_of_mem_toDigits (by decide) (by decide))
      (.inr Nat.toDigits_ne_nil), Nat.zero_add]
  rw [decimalDigits?, overlong?, hrun, digits?_toDigits]
  by_cases hshort : (Nat.toDigits 10 n).length ≤ Digits.limit
  · simp [Option.filter, hshort, Nat.not_lt.mpr hshort]
  · simp [Option.filter, hshort, Nat.not_le.mp hshort]

/-- The numeral of an integer stands for it, unless it has too many digits. -/
theorem decimal?_toString (value : Int) :
    decimal? (toString value).toList =
      if Digits.isWritable value = true then some value else none := by
  have hcount : Digits.isWritable value = true ↔
      (Nat.toDigits 10 value.natAbs).length ≤ Digits.limit := decide_eq_true_iff
  rw [decimal?, read?_toString, decimalDigits?_toDigits]
  by_cases hshort : (Nat.toDigits 10 value.natAbs).length ≤ Digits.limit
  · rw [if_pos hshort, if_pos (hcount.mpr hshort), Option.map_some, sign_natAbs]
  · rw [if_neg hshort, if_neg (mt hcount.mp hshort), Option.map_none]

/-- Different numbers have different numerals. -/
theorem toString_injective : Function.Injective (toString : Int → String) := by
  have hread : ∀ value : Int, read? (digits? 10) (toString value).toList = some value := by
    intro value
    rw [read?_toString, digits?_toDigits, Option.map_some, sign_natAbs]
  intro value other h
  exact Option.some.inj (by rw [← hread value, h, hread])

end Numeral

end Subleq
